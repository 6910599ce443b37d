import Neocache.Cache.Sessions
import Neocache.Properties.Iteration

/-!
# 待ち合う輪はない

どの操作も、持っている shard より番号の大きい shard だけを待つ（`Session.Ordered`）。反復が次の lock
を待つ間に持っているのは、いまの shard と、返した item の shard で、どれも番号が小さい。他の操作は、
待つ間は何も持っていない。
-/

namespace Neocache

open Infra

variable {K V T : Type*} {n : Nat} {free : Nat → LockMode → Prop} {x x' : Session}

/-- 待っている shard の番号は範囲内で、持っているどの番号よりも大きい。 -/
def Stage.Ordered (n : Nat) : Stage → Prop
  | .single i _ _ _ => i < n
  | .sweep _ j grip => grip = .waiting → j < n
  | .iterate _ it items waiting =>
    (∀ g, it.current = some g → g.shard < it.shardI) ∧ (∀ i, it.guard = some i → i = it.shardI) ∧
      (∀ i ∈ items, i < it.shardI) ∧ it.unlocked ≤ n ∧
      (waiting = true → it.guard = none ∧ it.shardI < n)
  | _ => True

/-- これから始める区間の番号も範囲内である。 -/
def LockUse.InRange (n : Nat) : LockUse → Prop
  | .single i _ _ => i < n
  | _ => True

structure Session.Ordered (n : Nat) (x : Session) : Prop where
  stage : x.stage.Ordered n
  todo : ∀ u ∈ x.todo, u.InRange n

theorem LockUse.start_ordered {u : LockUse} (h : u.InRange n) : u.start.Ordered n := by
  cases u with
  | single => exact h
  | sweep => exact fun hw => by cases hw
  | iterate =>
    refine ⟨fun g hg => ?_, fun i hi => ?_, fun i hi => ?_, Nat.zero_le n, fun hw => ?_⟩
    · cases hg
    · cases hi
    · cases hi
    · cases hw

theorem ApiCall.uses_inRange {op : ApiCall} (h : ∀ call i, op = .key call i → i < n) :
    ∀ u ∈ op.uses, u.InRange n := by
  intro u hu
  cases op with
  | key call i =>
    rw [List.mem_singleton.mp hu]
    exact h call i rfl
  | serialize =>
    rcases List.mem_cons.mp hu with rfl | hu
    · exact trivial
    · rw [List.mem_singleton.mp hu]
      exact trivial
  | _ =>
    rw [List.mem_singleton.mp hu]
    exact trivial

/-- loop の一歩の後も、反復が持つ番号は順に並んでいる。 -/
theorem iterate_ordered {m : LockMode} {it it' : Iter} {items : List Nat} {waiting : Bool}
    {c : NeoCache K V} {e : IterEvent K V} (hc : c.shards.length = n)
    (h : (Stage.iterate m it items waiting).Ordered n) (hs : it.step c = some (e, it')) :
    (Stage.iterate m it' (e.item ++ items) false).Ordered n := by
  obtain ⟨hcur, hguard, hitems, hle, -⟩ := h
  have hnext : Iteration.Next ⟨c, it, []⟩ e it' := Iteration.next_of_step hs
  cases hnext with
  | store hg =>
    have hg' : it.guard = some _ := hg
    obtain rfl := hguard _ hg'
    rw [Iter.unlocked, hg'] at hle
    refine ⟨fun g hc => ?_, fun i hi => ?_, fun i hi => Nat.lt_succ_of_lt (hitems i hi), hle,
      fun hw => ?_⟩
    · cases hc
      exact Nat.lt_succ_self _
    · cases hi
    · cases hw
  | @yield g k v rest hg hc' =>
    refine ⟨fun g' hg' => ?_, hguard, fun i hi => ?_, hle, fun hw => ?_⟩
    · cases hg'
      exact hcur g hc'
    · rcases List.mem_cons.mp hi with rfl | hi
      · exact hcur g hc'
      · exact hitems i hi
    · cases hw
  | lock hg hr hne =>
    have hg' : it.guard = none := hg
    rw [Iter.unlocked, hg'] at hle
    refine ⟨hcur, fun i hi => (Option.some.inj hi).symm, hitems, ?_, fun hw => ?_⟩
    · have hne' : it.shardI ≠ n := fun heq => hne (heq.trans hc.symm)
      exact lt_of_le_of_ne hle hne'
    · cases hw

theorem Session.Step.ordered (h : Session.Step K V n free x x') (ho : x.Ordered n) :
    x'.Ordered n := by
  obtain ⟨hstage, htodo⟩ := ho
  cases h with
  | call op hin => exact ⟨trivial, ApiCall.uses_inRange hin⟩
  | enter =>
    refine ⟨LockUse.start_ordered (htodo _ List.mem_cons_self), fun u hu => ?_⟩
    exact htodo u (List.mem_cons_of_mem _ hu)
  | sweepWait hlt => exact ⟨fun _ => hlt, htodo⟩
  | sweepTake => exact ⟨fun hw => (by cases hw), htodo⟩
  | sweepRelease => exact ⟨fun hw => (by cases hw), htodo⟩
  | next hc hs he => exact ⟨iterate_ordered hc hstage hs, htodo⟩
  | iterWait hc hs =>
    obtain ⟨hcur, hguard, hitems, hle, -⟩ := hstage
    refine ⟨⟨hcur, hguard, hitems, hle, fun _ => ?_⟩, htodo⟩
    have hnext : Iteration.Next ⟨_, _, []⟩ _ _ := Iteration.next_of_step hs
    cases hnext with
    | lock hg hr hne =>
      refine ⟨hg, lt_of_le_of_ne (le_trans (Nat.le_add_right _ _) hle) fun heq => ?_⟩
      exact hne (heq.trans hc.symm)
  | iterTake hc hs => exact ⟨iterate_ordered hc hstage hs, htodo⟩
  | dropItem hi =>
    obtain ⟨hcur, hguard, hitems, hle, hwait⟩ := hstage
    exact ⟨⟨hcur, hguard, fun i hi => hitems i (List.mem_of_mem_erase hi), hle, hwait⟩, htodo⟩
  | wait => exact ⟨hstage, htodo⟩
  | take => exact ⟨hstage, htodo⟩
  | tryTake => exact ⟨hstage, htodo⟩
  | downgrade => exact ⟨hstage, htodo⟩
  | _ => exact ⟨trivial, htodo⟩

/-- 待っている番号は、持っているどの番号よりも大きい。 -/
theorem Stage.Ordered.lt_wanted {g : Stage} (h : g.Ordered n) {r : Nat} (hr : g.wanted = some r) :
    r < n ∧ ∀ y ∈ g.held, y.1 < r := by
  cases g with
  | idle => cases hr
  | single i m b grip =>
    cases grip with
    | waiting =>
      cases hr
      exact ⟨h, fun y hy => (List.not_mem_nil hy).elim⟩
    | _ => cases hr
  | sweep m j grip =>
    cases grip with
    | waiting =>
      cases hr
      exact ⟨h rfl, fun y hy => (List.not_mem_nil hy).elim⟩
    | _ => cases hr
  | iterate m it items waiting =>
    cases waiting with
    | false => cases hr
    | true =>
      cases hr
      obtain ⟨hcur, -, hitems, -, hwait⟩ := h
      obtain ⟨hg, hlt⟩ := hwait rfl
      refine ⟨hlt, fun y hy => ?_⟩
      obtain ⟨i, hi, rfl⟩ := List.mem_map.mp hy
      rw [hg, Option.toList_none, List.nil_append] at hi
      rcases List.mem_append.mp hi with hi | hi
      · obtain ⟨g, hg', rfl⟩ := Option.map_eq_some_iff.mp (Option.mem_toList.mp hi)
        exact hcur g hg'
      · exact hitems i hi
  | leftover => cases hr

namespace Sessions

variable [DecidableEq T] {s : T → Session}

theorem ordered (h : (lts K V T n).Reachable s) : ∀ t, (s t).Ordered n := by
  refine h.invariant (P := fun s => ∀ t, (s t).Ordered n) ?_ ?_
  · rintro s rfl t
    exact ⟨trivial, fun u hu => (List.not_mem_nil hu).elim⟩
  · rintro s t s' - ho ⟨x, hstep, rfl⟩ u
    rw [Function.update_apply]
    split
    · exact hstep.ordered (ho t)
    · exact ho u

/-- thread が持っている shard。 -/
def heldBy (s : T → Session) (t : T) : Set Nat := {i | ∃ m, (i, m) ∈ (s t).stage.held}

/--
API だけで待ち合う輪はできない。

何個の thread が、どの操作をどの順に行い、lock の取得と解放がどう入り混じっても、互いの持つ shard の
lock を待ち合う thread の集まりは現れない。
-/
theorem no_deadlock (h : (lts K V T n).Reachable s) (D : Set T) :
    ¬ Locking.CircularWait (heldBy s) (fun t => (s t).stage.wanted) D := by
  refine Locking.not_circularWait ?_ ?_ D
  · refine (Set.finite_lt_nat n).subset ?_
    rintro r ⟨t, hr⟩
    exact ((ordered h t).stage.lt_wanted hr).1
  · rintro t r hr i ⟨m, hi⟩
    exact ((ordered h t).stage.lt_wanted hr).2 (i, m) hi

/-- 二つの thread の状態。 -/
def pair (x y : Session) : Bool → Session
  | true => x
  | false => y

theorem pair_step {x y x' y' : Session} (h : (lts K V Bool n).Reachable (pair x y))
    (hstep : (Session.Step K V n (Free (pair x y)) x x' ∧ y' = y) ∨
      (Session.Step K V n (Free (pair x y)) y y' ∧ x' = x)) :
    (lts K V Bool n).Reachable (pair x' y') := by
  rcases hstep with ⟨hx, rfl⟩ | ⟨hy, rfl⟩
  · refine .step (a := true) h ⟨x', hx, ?_⟩
    funext t
    cases t <;> rfl
  · refine .step (a := false) h ⟨y', hy, ?_⟩
    funext t
    cases t <;> rfl

/-- 番号 0 の shard にだけ entry のある cache。 -/
def firstShardOnly : NeoCache Nat Nat :=
  ⟨63, [(ShardData.new 2).register 0 0 7 .small, .new 2], UInt64.ofNat, 4⟩

/-- 番号 1 の guard を持つ thread と、番号 0 の item を残したまま番号 1 を待つ反復。 -/
def blockedIter : Bool → Session :=
  pair ⟨.single 1 .exclusive true .holding, []⟩
    ⟨.iterate .shared ⟨1, some ⟨0, 1⟩, none⟩ [0] true, []⟩

theorem blockedIter_reachable : (lts Nat Nat Bool 2).Reachable blockedIter := by
  have hstart : (lts Nat Nat Bool 2).Reachable (pair ⟨.idle, []⟩ ⟨.idle, []⟩) := by
    refine .init ?_
    funext t
    cases t <;> rfl
  have hwrite : (lts Nat Nat Bool 2).Reachable
      (pair ⟨.single 1 .exclusive true .holding, []⟩ ⟨.idle, []⟩) := by
    have h₁ := pair_step hstart (Or.inl ⟨.call (.key .getMut 1) (by simp), rfl⟩)
    have h₂ := pair_step h₁ (Or.inl ⟨.enter, rfl⟩)
    have h₃ := pair_step h₂ (Or.inl ⟨.wait, rfl⟩)
    refine pair_step h₃ (Or.inl ⟨.take ?_, rfl⟩)
    rintro (_ | _) m' hm
    · cases hm
    · cases hm
  have h₁ := pair_step hwrite (Or.inr ⟨.call .iter (by simp), rfl⟩)
  have h₂ := pair_step h₁ (Or.inr ⟨.enter, rfl⟩)
  have h₃ := pair_step h₂ (Or.inr ⟨.iterWait (c := firstShardOnly) rfl rfl, rfl⟩)
  have h₄ : (lts Nat Nat Bool 2).Reachable (pair ⟨.single 1 .exclusive true .holding, []⟩
      ⟨.iterate .shared ⟨0, none, some 0⟩ [] false, []⟩) := by
    refine pair_step h₃ (Or.inr ⟨.iterTake (c := firstShardOnly) rfl rfl ?_, rfl⟩)
    rintro (_ | _) m' hm
    · cases hm
    · simp [pair, Stage.held, Iter.new] at hm
  have h₅ : (lts Nat Nat Bool 2).Reachable (pair ⟨.single 1 .exclusive true .holding, []⟩
      ⟨.iterate .shared ⟨1, some ⟨0, 0⟩, none⟩ [] false, []⟩) :=
    pair_step h₄ (Or.inr ⟨.next (c := firstShardOnly) (e := .store) rfl rfl (by simp), rfl⟩)
  have h₆ : (lts Nat Nat Bool 2).Reachable (pair ⟨.single 1 .exclusive true .holding, []⟩
      ⟨.iterate .shared ⟨1, some ⟨0, 1⟩, none⟩ [0] false, []⟩) :=
    pair_step h₅ (Or.inr ⟨.next (c := firstShardOnly) (e := .yield 0 0 7) rfl rfl (by simp), rfl⟩)
  exact pair_step h₆ (Or.inr ⟨.iterWait (c := firstShardOnly) rfl rfl, rfl⟩)

theorem no_deadlock_blockedIter :
    ((lts Nat Nat Bool 2).Reachable blockedIter ∧ (blockedIter false).stage.wanted = some 1 ∧
      1 ∈ heldBy blockedIter true ∧ 0 ∈ heldBy blockedIter false) ∧
    ¬ Locking.CircularWait (heldBy blockedIter) (fun t => (blockedIter t).stage.wanted)
      Set.univ := by
  refine ⟨⟨blockedIter_reachable, rfl, ⟨.exclusive, ?_⟩, ⟨.shared, ?_⟩⟩,
    no_deadlock blockedIter_reachable _⟩
  · exact List.mem_singleton_self _
  · exact List.mem_cons_self

end Sessions

end Neocache
