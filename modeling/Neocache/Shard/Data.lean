import Mathlib.Data.Finset.Card
import Neocache.Infra.Loop
import Neocache.Infra.Table

/-!
# shard 一つの状態と追い出し

`src/shard.rs` と `src/util.rs` の `CacheEntry`。shard の write lock を持っている間の計算なので、
状態を受け取って状態を返す関数として書く。

hashbrown の `RawTable` は key で引く有限の表（`Infra.Table`）とする。
bucket を指す pointer は、その bucket の key で表す。
表を端から訪ねるとき、ここでは挿入した順、hashbrown では bucket の順になる。iterator の返す順と
closure の呼ばれる順に差が出るが、どの結果も、それがどの順であるかには依らない。
`with_capacity` などの容量の確保は表の中身を変えないので、対応するものを置かない。

queue は source と同じく hash の列と key の列の二本に分けて持ち、同時に取り出す。
二本の長さが揃っていることは型では保証しない。到達可能な状態での不変条件として
`Neocache/Properties/Queues.lean` で示す。

`usize` の `-= 1` は 0 で panic する演算として `Except Fault` に写す。
`saturating_sub(1)` は `Nat` の引き算そのものである。
-/

namespace Neocache

open Infra

/-- 計算が値を返さない理由。debug build の panic と、終わらない loop。 -/
inductive Fault where
  | assertion
  | overflow
  | underflow
  | divByZero
  | shiftOutOfRange
  | diverge
  deriving DecidableEq, Repr

/-! ## entry -/

/-- `freq` が飽和する値。 -/
def maxFreq : Nat := 3

/-- entry がどちらの queue に属するか。source では `LOC_SMALL = 0` と `LOC_MAIN = 1` の `u8`。 -/
inductive Loc where
  | small
  | main
  deriving DecidableEq, Repr

/-- 表に値と並べて置く追い出し用の情報。 -/
structure CacheEntry (V : Type*) where
  value : V
  freq : Nat
  loc : Loc
  deriving DecidableEq, Repr

namespace CacheEntry

variable {V : Type*}

def new (value : V) (loc : Loc) : CacheEntry V := { value, freq := 0, loc }

/-- 読み出しのたびに `freq` を 1 増やし、`maxFreq` で止める。 -/
def bumpFreq (e : CacheEntry V) : CacheEntry V :=
  if e.freq < maxFreq then { e with freq := e.freq + 1 } else e

/-- `Clone`。値は `V` の `clone` で写し、freq は読んだ値をそのまま引き継ぐ。 -/
def clone (cloneValue : V → V) (e : CacheEntry V) : CacheEntry V :=
  { value := cloneValue e.value, freq := e.freq, loc := e.loc }

@[simp] theorem bumpFreq_loc (e : CacheEntry V) : e.bumpFreq.loc = e.loc := by
  unfold bumpFreq; split <;> rfl

@[simp] theorem bumpFreq_value (e : CacheEntry V) : e.bumpFreq.value = e.value := by
  unfold bumpFreq; split <;> rfl

end CacheEntry

/-! ## shard の状態 -/

abbrev RawTable (K V : Type*) := Table UInt64 K (CacheEntry V)

/-- shard の lock の中身。表と、S3-FIFO の状態。 -/
structure ShardData (K V : Type*) where
  map : RawTable K V
  smallHashes : List UInt64
  smallKeys : List K
  mainHashes : List UInt64
  mainKeys : List K
  ghostSet : Finset UInt64
  smallLive : Nat
  mainLive : Nat
  shardCap : Nat
  smallCap : Nat
  mainCap : Nat
  ghostCap : Nat
  deriving DecidableEq

/-- 切り上げの割り算。`usize::div_ceil` と同じ場合分けで書く。 -/
def divCeil (a b : Nat) : Nat := if 0 < a % b then a / b + 1 else a / b

/-- 0 で panic する `-= 1`。 -/
def subOne (n : Nat) : Except Fault Nat := if n = 0 then .error .underflow else .ok (n - 1)

namespace ShardData

variable {K V : Type*}

/-- 空の shard。`shardCap = 0` は追い出しをしないことを表す。 -/
def new (shardCap : Nat) : ShardData K V where
  map := .empty
  smallHashes := []
  smallKeys := []
  mainHashes := []
  mainKeys := []
  ghostSet := ∅
  smallLive := 0
  mainLive := 0
  shardCap := shardCap
  smallCap := if shardCap = 0 then 0 else max (divCeil shardCap 10) 1
  mainCap := if shardCap = 0 then 0 else max (shardCap - max (divCeil shardCap 10) 1) 1
  ghostCap := shardCap

def totalLive (σ : ShardData K V) : Nat := σ.smallLive + σ.mainLive

/-- ghost set に hash を足す。満杯なら先に丸ごと空にする。 -/
def addToGhost (σ : ShardData K V) (h : UInt64) : ShardData K V :=
  { σ with ghostSet := insert h (if σ.ghostCap ≤ σ.ghostSet.card then ∅ else σ.ghostSet) }

/-- 表も queue も ghost set も空にする。 -/
def clearAll (σ : ShardData K V) : ShardData K V :=
  { σ with
    map := .empty, smallHashes := [], smallKeys := [], mainHashes := [], mainKeys := [],
    ghostSet := ∅, smallLive := 0, mainLive := 0 }

variable [DecidableEq K]

/-! ## 追い出し -/

/--
追い出しの内側の loop。queue の先頭から、表に残っている node が出るまで取り出す。

返すのは見つけた node（hash、key、entry）と、取り出した後の二本の列である。
どちらかの列が尽きたときも両方の `pop_front` は済んでいるので、`tail` を返す。
-/
def popLive (t : RawTable K V) :
    List UInt64 → List K → Option (UInt64 × K × CacheEntry V) × List UInt64 × List K
  | h :: hs, k :: ks =>
    match t.find h k with
    | some e => (some (h, k, e), hs, ks)
    | none => popLive t hs ks
  | hs, ks => (none, hs.tail, ks.tail)

/-- `evict_from_main` の外側の loop の一周。 -/
def evictFromMainBody (σ : ShardData K V) : Except Fault (Flow (ShardData K V)) :=
  match popLive σ.map σ.mainHashes σ.mainKeys with
  | (none, hs, ks) => .ok (.done { σ with mainHashes := hs, mainKeys := ks })
  | (some (h, k, e), hs, ks) =>
    if 0 < e.freq then
      -- second chance：freq を減らして末尾へ戻し、次の候補へ進む
      .ok (.again
        { σ with
          map := σ.map.modify k fun e => { e with freq := e.freq - 1 }
          mainHashes := hs ++ [h], mainKeys := ks ++ [k] })
    else
      match subOne σ.mainLive with
      | .error f => .error f
      | .ok n =>
        .ok (.done
          { σ with map := σ.map.remove k, mainHashes := hs, mainKeys := ks, mainLive := n })

/-- 表にある freq の総和。main を一周続けるたびに 1 減る。 -/
def totalFreq (σ : ShardData K V) : Nat := σ.map.sum CacheEntry.freq

/-- main queue から一つ追い出す。 -/
def evictFromMain (σ : ShardData K V) : Except Fault (ShardData K V) :=
  loop evictFromMainBody .diverge (σ.totalFreq + 1) σ

/-- small queue を一つ進める。freq が正なら main へ移し、0 なら表から追い出して ghost に残す。 -/
def evictFromSmall (σ : ShardData K V) : Except Fault (ShardData K V) :=
  match popLive σ.map σ.smallHashes σ.smallKeys with
  | (none, hs, ks) => evictFromMain { σ with smallHashes := hs, smallKeys := ks }
  | (some (h, k, e), hs, ks) =>
    match subOne σ.smallLive with
    | .error f => .error f
    | .ok n =>
      if 0 < e.freq then
        .ok
          { σ with
            map := σ.map.modify k fun e => { e with loc := .main }
            smallHashes := hs, smallKeys := ks, smallLive := n
            mainHashes := σ.mainHashes ++ [h], mainKeys := σ.mainKeys ++ [k]
            mainLive := σ.mainLive + 1 }
      else
        .ok ({ σ with
          map := σ.map.remove k, smallHashes := hs, smallKeys := ks, smallLive := n }.addToGhost h)

def evictOne (σ : ShardData K V) : Except Fault (ShardData K V) :=
  if σ.smallCap ≤ σ.smallLive then σ.evictFromSmall else σ.evictFromMain

/-- 追い出しの loop の条件。 -/
def overCap (σ : ShardData K V) : Bool := 0 < σ.shardCap ∧ σ.shardCap ≤ σ.totalLive

/-- 追い出しの loop の変量。昇格は `smallLive` を、追い出しは `totalLive` を減らす。 -/
def evictFuel (σ : ShardData K V) : Nat := 2 * σ.smallLive + σ.mainLive

/-- `while shard_cap > 0 && total_live() >= shard_cap { evict_one() }`。 -/
def evictLoop (σ : ShardData K V) : Except Fault (ShardData K V) :=
  loop (whileBody overCap evictOne) .diverge (σ.evictFuel + 1) σ

end ShardData

end Neocache
