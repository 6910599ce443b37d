import Mathlib.Data.Set.Basic
import Mathlib.Logic.Function.Basic
import Neocache.Cache.Ops

/-!
# 落とすことのある有限写像

cache が利用者に対して何であるかを、key から値への写像の上で述べる。
shard も queue も counter も出てこない。

実装が勝手に key を落としてよいのは新しい key を入れるときだけで、
落とせるのは入れる key と同じ shard に置かれる別の key に限る。容量が 0 なら何も落とさない。
-/

namespace Neocache

namespace LossyMap

variable {K V : Type*}

/-- key があるときの返り値と、その後の値。 -/
def onPresent (op : KeyOp K V) (k : K) (v : V) : Ret K V × Option V :=
  match op with
  | .insert v' | .occupiedInsert v' => (.value (some v), some v')
  | .entryInsert v' | .insertEntry v' => (.value (some v'), some v')
  | .orDefault _ | .orInsert _ | .orInsertWith _ | .orTryInsertWith _ | .get =>
    (.value (some v), some v)
  | .andModify f => (.unit, some (f v))
  | .replaceEntry v' => (.pair (some (k, v)), some v')
  | .getMut f => (.value (some v), some (f k v))
  | .remove | .occupiedRemoveEntry => (.pair (some (k, v)), none)
  | .occupiedRemove => (.value (some v), none)
  | .removeIf p => if p k v then (.pair (some (k, v)), none) else (.pair none, some v)
  | .removeIfMut p =>
    -- 述語による書き換えは、除かないときも残り、除いたときは返り値に出る
    if (p k v).1 then (.pair (some (k, (p k v).2)), none) else (.pair none, some (p k v).2)

/-- key が無いときの返り値と、入れる値。 -/
def onAbsent (op : KeyOp K V) : Ret K V × Option V :=
  match op with
  | .insert v => (.value none, some v)
  | .entryInsert v | .insertEntry v | .orDefault v | .orInsert v => (.value (some v), some v)
  | .orInsertWith value => (.value (some (value ())), some (value ()))
  | .orTryInsertWith value =>
    match value () with
    | some v => (.value (some v), some v)
    | none => (.err, none)
  | .get | .getMut _ => (.value none, none)
  | .remove | .removeIf _ | .removeIfMut _ => (.pair none, none)
  | .andModify _ | .occupiedInsert _ | .replaceEntry _ | .occupiedRemove | .occupiedRemoveEntry =>
    (.unit, none)

/-- key の集まりを落とした写像。 -/
noncomputable def drop (A : K → Option V) (lost : Set K) (k : K) : Option V :=
  open Classical in if k ∈ lost then none else A k

/-- 写像の対を一度ずつ並べたもの。 -/
def Enumerates (l : List (K × V)) (A : K → Option V) : Prop :=
  (l.map Prod.fst).Nodup ∧ ∀ k v, (k, v) ∈ l ↔ A k = some v

/-- 並びの順に述語を呼び、残った対だけを書き換え後の値で並べる。`n` は呼び出しの番号。 -/
def retainPairs (f : Nat → K → V → Bool × V) : Nat → List (K × V) → List (K × V)
  | _, [] => []
  | n, (k, v) :: rest =>
    if (f n k v).1 then (k, (f n k v).2) :: retainPairs f (n + 1) rest
    else retainPairs f (n + 1) rest

/--
写像の上の一操作。`home` は key の置き場所、`bounded` は容量があること。
-/
inductive Step [DecidableEq K] {H : Type*} (home : K → H) (bounded : Prop) :
    CacheOp K V → (K → Option V) → CacheRet K V → (K → Option V) → Prop
  | present {A : K → Option V} {k : K} {v : V} {op : KeyOp K V} (hk : A k = some v) :
      Step home bounded (.key k op) A (.key (onPresent op k v).1)
        (Function.update A k (onPresent op k v).2)
  | absent {A : K → Option V} {k : K} {op : KeyOp K V} (hk : A k = none)
      (hv : (onAbsent op).2 = none) : Step home bounded (.key k op) A (.key (onAbsent op).1) A
  | fresh {A : K → Option V} {k : K} {v : V} {op : KeyOp K V} (lost : Set K) (hk : A k = none)
      (hv : (onAbsent op).2 = some v) (hlost : ∀ x ∈ lost, x ≠ k ∧ home x = home k)
      (hbounded : ¬ bounded → lost = ∅) :
      Step home bounded (.key k op) A (.key (onAbsent op).1)
        (Function.update (drop A lost) k (some v))
  | iter {A : K → Option V} {l : List (K × V)} (hl : Enumerates l A) :
      Step home bounded .iter A (.entries l) A
  | retain {A A' : K → Option V} {f : Nat → K → V → Bool × V} {l : List (K × V)}
      (hl : Enumerates l A) (hl' : Enumerates (retainPairs f 0 l) A') :
      Step home bounded (.retain f) A .unit A'
  | alterAll {A A' : K → Option V} {f : Nat → K → V → V} {l : List (K × V)} (hl : Enumerates l A)
      (hl' : Enumerates (retainPairs (fun n k v => (true, f n k v)) 0 l) A') :
      Step home bounded (.alterAll f) A .unit A'
  | clear {A : K → Option V} : Step home bounded .clear A .unit fun _ => none

end LossyMap

end Neocache
