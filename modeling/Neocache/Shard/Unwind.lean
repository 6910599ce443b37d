import Neocache.Shard.Ops

/-!
# panic する closure

shard の lock を持ったまま呼ばれる利用者の code は、途中で panic することがある。lock は poison を
持たないので、guard が巻き戻しで落ちれば lock は放され、次の thread はその時点の shard を見る。

ここでは `src/lib.rs` と `src/mapref/entry.rs` の操作を、利用者の code が panic しうるものとして
書き直す。対象は closure と、queue に積む key の `clone` である。値を書き換えられる closure は、
書き換えてから panic することもある。

`alter` と `alter_all` が使う `map_in_place_2` は、値を取り出している間の panic を process の
abort に変える（`src/util.rs` の `AbortOnPanic`）。abort の後に見られる shard は無い。
-/

namespace Neocache

open Infra

variable {K V : Type*}

/-- 操作の終わり方。 -/
inductive Exit (K V : Type*) where
  | returned (r : Ret K V) (shard : ShardData K V)
  | unwound (shard : ShardData K V)
  | aborted

/--
利用者の code が panic しうる操作。closure の結果が `Option` のものは `none` が、
`Bool` との組のものは `false` が panic を表す。組の後ろは、そのとき値に残っているものである。
-/
inductive RiskyOp (K V : Type*) where
  /-- panic しない操作。 -/
  | plain (op : ShardOp K V)
  /-- 三つの挿入のどれか。queue に積む key の `clone` が panic する。 -/
  | insert (k : K) (v : V)
  | orInsertWith (k : K) (value : Unit → Option V)
  | orTryInsertWith (k : K) (value : Unit → Option (Option V))
  | andModify (k : K) (f : V → Bool × V)
  /-- `get_mut` の guard を持っている間の code。 -/
  | getMut (k : K) (f : K → V → Bool × V)
  | view (k : K) (f : K → V → Bool)
  | alter (k : K) (f : K → V → Option V)
  | removeIf (k : K) (f : K → V → Option Bool)
  | removeIfMut (k : K) (f : K → V → Option Bool × V)
  | retain (f : Nat → K → V → Option Bool × V) (n : Nat)
  | alterAll (f : Nat → K → V → Option V) (n : Nat)

variable [DecidableEq K]

namespace ShardData

/-- `_retain` の bucket を順に処理する。panic した bucket の値の書き換えは残り、後は訪ねない。 -/
def retainRisky (f : Nat → K → V → Option Bool × V) :
    List (Slot UInt64 K (CacheEntry V)) → Nat → ShardData K V → Exit K V
  | [], _, σ => .returned .unit σ
  | s :: rest, n, σ =>
    let σ' := σ.setValue s.key (f n s.key s.val.value).2
    match (f n s.key s.val.value).1 with
    | none => .unwound σ'
    | some true => retainRisky f rest (n + 1) σ'
    | some false => retainRisky f rest (n + 1) (σ'.unlink s.key s.val.loc)

/-- `_alter_all` の bucket を順に処理する。 -/
def alterAllRisky (f : Nat → K → V → Option V) :
    List (Slot UInt64 K (CacheEntry V)) → Nat → ShardData K V → Exit K V
  | [], _, σ => .returned .unit σ
  | s :: rest, n, σ =>
    match f n s.key s.val.value with
    | none => .aborted
    | some v => alterAllRisky f rest (n + 1) (σ.setValue s.key v)

end ShardData

namespace RiskyOp

open ShardData

def exec (hash : K → UInt64) (op : RiskyOp K V) (σ : ShardData K V) : Except Fault (Exit K V) :=
  match op with
  | .plain op => (op.exec hash σ).map fun p => .returned p.1 p.2
  | .insert k v =>
    match σ.map.find (hash k) k with
    | some e => .ok (.returned (.value (some e.value)) (σ.setValue k v))
    -- `clone` は追い出しの後、表に入れる前に呼ばれる
    | none => ((σ.ghostCheck (hash k)).2.evictLoop).map .unwound
  | .orInsertWith k value =>
    match σ.entry (hash k) k with
    | .occupied e => .ok (.returned (.value (some e.intoRef.value)) e.intoRef.shard)
    | .vacant e =>
      match value () with
      | none => .ok (.unwound e.shard)
      | some v => (e.insert v).map fun r => .returned (.value (some r.value)) r.shard
  | .orTryInsertWith k value =>
    match σ.entry (hash k) k with
    | .occupied e => .ok (.returned (.value (some e.intoRef.value)) e.intoRef.shard)
    | .vacant e =>
      match value () with
      | none => .ok (.unwound e.shard)
      | some none => .ok (.returned .err e.shard)
      | some (some v) => (e.insert v).map fun r => .returned (.value (some r.value)) r.shard
  | .andModify k f =>
    match σ.entry (hash k) k with
    | .occupied e =>
      let e' := e.modify fun v => (f v).2
      .ok (if (f e.entry.value).1 then .returned .unit e'.shard else .unwound e'.shard)
    | .vacant e => .ok (.returned .unit e.shard)
  | .getMut k f =>
    match σ.map.find (hash k) k with
    | some e =>
      let σ' := (σ.updateEntry k .bumpFreq).setValue k (f k e.value).2
      .ok (if (f k e.value).1 then .returned (.value (some e.value)) σ' else .unwound σ')
    | none => .ok (.returned (.value none) σ)
  | .view k f =>
    match σ.map.find (hash k) k with
    | some e =>
      let σ' := σ.updateEntry k .bumpFreq
      .ok (if f k e.value then .returned (.value (some e.value)) σ' else .unwound σ')
    | none => .ok (.returned (.value none) σ)
  | .alter k f =>
    match σ.map.find (hash k) k with
    | some e =>
      match f k e.value with
      | none => .ok .aborted
      | some v =>
        .ok (.returned (.value (some e.value)) ((σ.updateEntry k .bumpFreq).setValue k v))
    | none => .ok (.returned (.value none) σ)
  | .removeIf k f =>
    match σ.map.find (hash k) k with
    | some e =>
      match f k e.value with
      | none => .ok (.unwound σ)
      | some true => .ok (.returned (.pair (some (k, e.value))) (σ.unlink k e.loc))
      | some false => .ok (.returned (.pair none) σ)
    | none => .ok (.returned (.pair none) σ)
  | .removeIfMut k f =>
    match σ.map.find (hash k) k with
    | some e =>
      let σ' := σ.setValue k (f k e.value).2
      match (f k e.value).1 with
      | none => .ok (.unwound σ')
      | some true => .ok (.returned (.pair (some (k, (f k e.value).2))) (σ'.unlink k e.loc))
      | some false => .ok (.returned (.pair none) σ')
    | none => .ok (.returned (.pair none) σ)
  | .retain f n => .ok (retainRisky f σ.map.slots n σ)
  | .alterAll f n => .ok (alterAllRisky f σ.map.slots n σ)

/-- panic するとしても、closure の中に限られる操作。 -/
def closureOnly : RiskyOp K V → Bool
  | .insert _ _ => false
  | _ => true

/-- key の操作なら、その key。 -/
def key? : RiskyOp K V → Option K
  | .plain (.key k _) => some k
  | .insert k _ | .orInsertWith k _ | .orTryInsertWith k _ | .andModify k _ | .getMut k _
  | .view k _ | .alter k _ | .removeIf k _ | .removeIfMut k _ => some k
  | _ => none

end RiskyOp

end Neocache
