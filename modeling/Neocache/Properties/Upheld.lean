import Neocache.Properties.Capacity
import Neocache.Properties.Eviction

/-!
# 到達可能性に頼らない不変条件

巻き戻った操作の残した shard や `clone` で写した shard は、`shardLts` で到達可能とは限らない。
それでも後の操作が終わり容量を守るのに要るのは、`Upheld` に並べた事実だけである。

`Upheld` は `Move` で保たれるので、`Move` に分かれる変化なら何の後でも残る。
-/

namespace Neocache

open Infra Relation ShardData

variable {K V : Type*} [DecidableEq K] {hash : K → UInt64} {cap : Nat} {σ σ' : ShardData K V}

/-- shard の不変条件。容量が 0 のときは追い出しに関わるものを求めない。 -/
structure Upheld (hash : K → UInt64) (cap : Nat) (σ : ShardData K V) : Prop where
  linked : Linked hash σ
  covered : Covered σ
  shardCap : σ.shardCap = cap
  healthy : 0 < cap → Healthy hash σ

theorem upheld_new (cap : Nat) : Upheld hash cap (ShardData.new cap : ShardData K V) where
  linked := linked_new cap
  covered := fun _ _ hk => (by cases hk)
  shardCap := rfl
  healthy hcap := reachable_new.healthy hcap

theorem Upheld.moves (hi : Upheld hash cap σ) (h : ReflTransGen (Move hash) σ σ') :
    Upheld hash cap σ' :=
  star_preserves (P := Upheld hash cap) (fun _ _ hi hm => {
    linked := hm.linked hi.linked
    covered := hm.elim (fun hw => hw.covered hi.covered) fun he => he.covered hi.covered
    shardCap := hm.caps.1.trans hi.shardCap
    healthy := fun hcap => hm.healthy (hi.healthy hcap) }) h hi

theorem Upheld.healthy_or (hi : Upheld hash cap σ) : Healthy hash σ ∨ σ.shardCap = 0 := by
  rcases Nat.eq_zero_or_pos cap with rfl | hcap
  · exact Or.inr hi.shardCap
  · exact Or.inl (hi.healthy hcap)

theorem Upheld.len_le (hi : Upheld hash cap σ) (hcap : 0 < cap) : σ.map.len ≤ cap := by
  have hb := (hi.healthy hcap).bounds
  have hle := Nat.le_trans hb.len_le hb.total
  rwa [hi.shardCap] at hle

/-! ## 失敗しないこと -/

theorem evictLoop_ok (h : Healthy hash σ ∨ σ.shardCap = 0) : ∃ σ', σ.evictLoop = .ok σ' := by
  by_cases hover : σ.Over
  · rcases h with h | h
    · obtain ⟨σ', hok, -⟩ := evictLoop_total h hover
      exact ⟨σ', hok⟩
    · exact absurd hover.1 (by omega)
  · exact ⟨σ, evictLoop_room hover⟩

theorem insertVacant_ok (h : Healthy hash σ ∨ σ.shardCap = 0) (k : K) (v : V) :
    ∃ σ', σ.insertVacant (hash k) k v = .ok σ' := by
  have hg : Healthy hash (σ.ghostCheck (hash k)).2 ∨ (σ.ghostCheck (hash k)).2.shardCap = 0 :=
    h.imp (fun hs => Move.healthy (Or.inr (.takeGhost _)) hs) id
  obtain ⟨σ₁, hok⟩ := evictLoop_ok hg
  exact ⟨_, by simp [insertVacant, hok]; rfl⟩

/-- 不変条件を満たす shard では、どの操作も失敗せずに終わる。 -/
theorem exec_ok (hl : Linked hash σ) (h : Healthy hash σ ∨ σ.shardCap = 0) (op : ShardOp K V) :
    ∃ r σ', op.exec hash σ = .ok (r, σ') := by
  cases op with
  | key k kop =>
    show ∃ r σ', kop.exec (hash k) k σ = .ok (r, σ')
    cases hk : σ.map.get? k with
    | some e => exact ⟨_, _, exec_present hl hk kop⟩
    | none =>
      rw [exec_absent hl hk kop]
      cases kop.newValue with
      | none => exact ⟨_, _, rfl⟩
      | some v =>
        obtain ⟨σ', hok⟩ := insertVacant_ok h k v
        exact ⟨_, σ', by simp only [hok]; rfl⟩
  | retain f n => exact ⟨_, _, rfl⟩
  | alterAll f n => exact ⟨_, _, rfl⟩
  | clearAll => exact ⟨_, _, rfl⟩

theorem Upheld.exec_ok (hi : Upheld hash cap σ) (op : ShardOp K V) :
    ∃ r σ', op.exec hash σ = .ok (r, σ') :=
  Neocache.exec_ok hi.linked hi.healthy_or op

theorem Upheld.exec {op : ShardOp K V} {r : Ret K V} (hi : Upheld hash cap σ)
    (h : op.exec hash σ = .ok (r, σ')) : Upheld hash cap σ' :=
  hi.moves (exec_moves hi.linked h)

/-! ## 表に無い key -/

/-- 表に無い key は、その key を入れる操作でしか現れない。 -/
theorem exec_keeps_absent (hl : Linked hash σ) {op : ShardOp K V} {r : Ret K V}
    (h : op.exec hash σ = .ok (r, σ')) {x : K}
    (hop : ∀ kop, op = .key x kop → kop.newValue = none) (hx : σ.map.get? x = none) :
    σ'.map.get? x = none := by
  have hretain : ∀ f n, (σ.retain f n).2.map.get? x = none := by
    intro f n
    cases hget : (σ.retain f n).2.map.get? x with
    | none => rfl
    | some e' =>
      obtain ⟨e, he, -⟩ := retain_loc σ f n hget
      rw [hx] at he
      cases he
  cases exec_outcome hl h with
  | @present k kop e hk =>
    rw [put_get? hk, if_neg]
    · exact hx
    · rintro rfl
      rw [hx] at hk
      cases hk
  | idle => exact hx
  | @fresh k kop v σ₁ hk hv hev =>
    have hne : x ≠ k := by
      rintro rfl
      rw [hop kop rfl] at hv
      cases hv
    obtain ⟨-, hsw, -⟩ := fresh_moves (v := v) hl hk hev
    rw [register_map, Table.get?_insert, if_neg hne]
    exact sweep_absent hsw hx
  | retain f n => exact hretain f n
  | alterAll f n => exact hretain _ n
  | clearAll => rfl

end Neocache
