import Neocache.Cache.Serde

/-!
# cache の実行

`cacheLts` の実行を、選んだ操作の列から計算する。key の操作は hash が選ぶ shard に行い、
他は選んだ番号の shard に行う。

`Extend` と `FromIterator` は、対の列を順に挿入する。`&mut self` を取るので、途中に他の thread の
操作は挟まらない。
-/

namespace Neocache

open Infra

variable {K V : Type*} [DecidableEq K]

namespace NeoCache

/-- 遷移系の一歩。選んだ番号が操作の対象でないときと、操作が失敗するときは `none`。 -/
def perform (w : Word) (c : NeoCache K V) (a : Nat × ShardOp K V) : Option (NeoCache K V) :=
  match a.2 with
  | .key k _ =>
    match c.shardIndex w k with
    | .error _ => none
    | .ok i => if i = a.1 then (c.onShard a.1 a.2).toOption.map Prod.snd else none
  | _ => (c.onShard a.1 a.2).toOption.map Prod.snd

/-- 操作を順に行い、記録と最後の cache を返す。 -/
def run (w : Word) : List (Nat × ShardOp K V) → NeoCache K V →
    Option (List (NeoCache K V × Nat × ShardOp K V) × NeoCache K V)
  | [], c => some ([], c)
  | a :: rest, c =>
    (c.perform w a).bind fun c' => (run w rest c').map fun p => ((c, a) :: p.1, p.2)

/-- 操作を順に行い、返り値の列と最後の cache を返す。 -/
def runShards : List (Nat × ShardOp K V) → NeoCache K V →
    Except Fault (List (Ret K V) × NeoCache K V)
  | [], c => .ok ([], c)
  | a :: rest, c =>
    match c.onShard a.1 a.2 with
    | .error f => .error f
    | .ok (r, c') => (runShards rest c').map fun p => (r :: p.1, p.2)

/-- `Extend::extend`。 -/
def extend (w : Word) (map : NeoCache K V) : List (K × V) → Except Fault (NeoCache K V)
  | [] => .ok map
  | pair :: rest =>
    match map.keyOp w pair.1 (.insert pair.2) with
    | .error f => .error f
    | .ok (_, map') => map'.extend w rest

/-- `FromIterator::from_iter`。`NeoCache::default` は `with_hasher` である。 -/
def fromIter (w : Word) (parallelism : Nat) (hasher : K → UInt64) (l : List (K × V)) :
    Except Fault (NeoCache K V) :=
  match withHasher w parallelism hasher with
  | .error f => .error f
  | .ok map => map.extend w l

end NeoCache

variable {w : Word} {cap requested : Nat} {hasher : K → UInt64} {c c' : NeoCache K V}

theorem step_of_perform {a : Nat × ShardOp K V} (h : c.perform w a = some c') :
    (cacheLts K V w cap hasher requested).step c a c' := by
  have hon : ∀ {x : Except Fault (Ret K V × NeoCache K V)},
      x.toOption.map Prod.snd = some c' → ∃ r, x = .ok (r, c') := by
    intro x hx
    cases x with
    | error f => cases hx
    | ok p =>
      cases hx
      exact ⟨p.1, rfl⟩
  obtain ⟨i, op⟩ := a
  unfold NeoCache.perform at h
  cases op with
  | key k kop =>
    simp only at h
    cases hi : c.shardIndex w k with
    | error f => rw [hi] at h; cases h
    | ok j =>
      rw [hi] at h
      simp only at h
      split at h
      · next heq =>
        subst heq
        exact ⟨hi, hon h⟩
      · cases h
  | retain f n => exact ⟨trivial, hon h⟩
  | alterAll f n => exact ⟨trivial, hon h⟩
  | clearAll => exact ⟨trivial, hon h⟩

/-- 計算した実行は、遷移系の実行である。 -/
theorem path_of_run : ∀ {l : List (Nat × ShardOp K V)} {c c' : NeoCache K V}
    {tr : List (NeoCache K V × Nat × ShardOp K V)}, c.run w l = some (tr, c') →
      (cacheLts K V w cap hasher requested).Path c tr c'
  | [], c, c', tr, h => by
    cases h
    exact .nil
  | a :: rest, c, c', tr, h => by
    obtain ⟨c₁, h₁, h₂⟩ := Option.bind_eq_some_iff.mp h
    obtain ⟨⟨tr', c₂⟩, hrest, heq⟩ := Option.map_eq_some_iff.mp h₂
    cases heq
    exact (Lts.Path.nil.snoc (step_of_perform h₁)).append (path_of_run hrest)

end Neocache
