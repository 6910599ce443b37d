import Mathlib.Data.Finset.Card
import Neocache.Infra.SecondChance

/-!
# 参照としての S3-FIFO

追い出しの方針だけを述べた参照。表も値も counter も古い node も出てこない。
状態は、freq を添えた key の列二本（small と main）と、small から追い出した key の hash の集まりである。

* 読み出しは freq を一つ増やす。列の順序は動かさない
* 新しい key は、hash が ghost にあれば main の末尾に、無ければ small の末尾に入る
* 満杯なら、入れる前に空きができるまで `evictOne` を繰り返す
-/

namespace Neocache

open Infra

namespace S3Fifo

variable {K : Type*}

/-- 全体、small、ghost の上限。 -/
structure Limits where
  total : Nat
  small : Nat
  ghost : Nat

structure Policy (K : Type*) where
  small : List (K × Nat)
  main : List (K × Nat)
  ghost : Finset UInt64

/-- 空きを作る間に起こること。 -/
inductive Event (K : Type*) where
  | promoted (k : K)
  | evicted (k : K)
  deriving DecidableEq, Repr

/-- 方針にとっての操作。値の書き換えは方針には見えない。 -/
inductive Request (K : Type*) where
  | read (k : K)
  | write (k : K)
  | other
  | clear

def Policy.empty : Policy K := ⟨[], [], ∅⟩

def Policy.size (P : Policy K) : Nat := P.small.length + P.main.length

def Policy.keys (P : Policy K) : List K := P.small.map Prod.fst ++ P.main.map Prod.fst

/-- 満杯の ghost は、丸ごと空にしてから足す。 -/
def remember (limits : Limits) (ghost : Finset UInt64) (h : UInt64) : Finset UInt64 :=
  insert h (if limits.ghost ≤ ghost.card then ∅ else ghost)

/--
空きを作る一歩。

small が上限以上なら、その先頭を freq が正なら main の末尾に移し、0 なら追い出して hash を覚える。
そうでなければ main を second chance で回して追い出す。
-/
def evictOne (limits : Limits) (hash : K → UInt64) (P : Policy K) : Option (Event K × Policy K) :=
  if limits.small ≤ P.small.length then
    match P.small with
    | [] => none
    | (k, 0) :: rest =>
      some (.evicted k, { P with small := rest, ghost := remember limits P.ghost (hash k) })
    | (k, n + 1) :: rest =>
      some (.promoted k, { P with small := rest, main := P.main ++ [(k, n + 1)] })
  else (secondChance P.main).map fun r => (.evicted r.1, { P with main := r.2 })

/-- 空きができるまで `evictOne` を繰り返す。 -/
inductive MakeRoom (limits : Limits) (hash : K → UInt64) :
    Policy K → List (Event K) → Policy K → Prop
  | room {P : Policy K} (h : P.size < limits.total) : MakeRoom limits hash P [] P
  | step {P P₁ P' : Policy K} {ev : Event K} {evs : List (Event K)} (full : limits.total ≤ P.size)
      (h : evictOne limits hash P = some (ev, P₁)) (rest : MakeRoom limits hash P₁ evs P') :
      MakeRoom limits hash P (ev :: evs) P'

/-- 末尾に足す。`hit` は ghost に覚えがあったこと。 -/
def Policy.push (P : Policy K) (k : K) (hit : Bool) : Policy K :=
  if hit then { P with main := P.main ++ [(k, 0)] } else { P with small := P.small ++ [(k, 0)] }

variable [DecidableEq K]

/-- 読んだ key の freq を、`3` で止めて一つ増やす。 -/
def bump (k : K) (l : List (K × Nat)) : List (K × Nat) :=
  l.map fun p => if p.1 = k then (p.1, if p.2 < 3 then p.2 + 1 else p.2) else p

/-- 一操作。空きを作る間に起こったことを列で添える。 -/
inductive Step (limits : Limits) (hash : K → UInt64) :
    Request K → Policy K → List (Event K) → Policy K → Prop
  | read {P : Policy K} (k : K) :
      Step limits hash (.read k) P [] { P with small := bump k P.small, main := bump k P.main }
  | hit {P : Policy K} {k : K} (hk : k ∈ P.keys) : Step limits hash (.write k) P [] P
  | fresh {P P' : Policy K} {k : K} {evs : List (Event K)} (hk : k ∉ P.keys)
      (room : MakeRoom limits hash { P with ghost := P.ghost.erase (hash k) } evs P') :
      Step limits hash (.write k) P evs (P'.push k (hash k ∈ P.ghost))
  | other {P : Policy K} : Step limits hash .other P [] P
  | clear {P : Policy K} : Step limits hash .clear P [] .empty

/-- 操作の列。操作ごとに、空きを作る間に起こったことを並べる。 -/
inductive Run (limits : Limits) (hash : K → UInt64) :
    List (Request K) → Policy K → List (List (Event K)) → Policy K → Prop
  | nil {P : Policy K} : Run limits hash [] P [] P
  | cons {req : Request K} {reqs : List (Request K)} {P P₁ P' : Policy K} {evs : List (Event K)}
      {evss : List (List (Event K))} (h : Step limits hash req P evs P₁)
      (rest : Run limits hash reqs P₁ evss P') : Run limits hash (req :: reqs) P (evs :: evss) P'

end S3Fifo

end Neocache
