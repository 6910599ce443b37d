import Mathlib.Logic.Relation

/-!
# label つき遷移系

初期状態と label つきの一歩からなる系と、その到達可能な状態。
一歩が保つ性質は到達可能な状態すべてで成り立つ（`Lts.Reachable.invariant`）。

`Lts.restrict` は、決まった条件を満たす一歩だけを許した系である。
「どの一歩もこの条件を満たす実行では」という形の主張を、制限した系の到達可能性として書く。
`Lts.Path` は途中の状態も残した実行の記録で、途中の時点に触れる主張に使う。
-/

namespace Infra

variable {σ α : Type*}

/-- 一歩が保つ性質は、何歩進んでも保たれる。 -/
theorem star_preserves {r : σ → σ → Prop} {P : σ → Prop} (step : ∀ s s', P s → r s s' → P s')
    {s s' : σ} (h : Relation.ReflTransGen r s s') (hs : P s) : P s' := by
  induction h with
  | refl => exact hs
  | tail _ hstep ih => exact step _ _ ih hstep

/-- 目標に居なければ何歩かで量を減らせるなら、目標に着ける。 -/
theorem star_of_decreasing {r : σ → σ → Prop} {P goal : σ → Prop} (μ : σ → Nat)
    (progress : ∀ s, P s → goal s ∨ ∃ s', Relation.ReflTransGen r s s' ∧ P s' ∧ μ s' < μ s)
    {s : σ} (hs : P s) : ∃ s', Relation.ReflTransGen r s s' ∧ P s' ∧ goal s' := by
  induction h : μ s using Nat.strongRecOn generalizing s with
  | _ n ih =>
    rcases progress s hs with hgoal | ⟨s₁, hrun, hs₁, hlt⟩
    · exact ⟨s, .refl, hs, hgoal⟩
    · obtain ⟨s₂, hrest, hs₂, hgoal⟩ := ih (μ s₁) (h ▸ hlt) hs₁ rfl
      exact ⟨s₂, hrun.trans hrest, hs₂, hgoal⟩

/-- 初期状態の集まりと、label つきの一歩。 -/
structure Lts (σ α : Type*) where
  init : σ → Prop
  step : σ → α → σ → Prop

namespace Lts

/-- 初期状態から有限歩で着く状態。 -/
inductive Reachable (M : Lts σ α) : σ → Prop
  | init {s : σ} (h : M.init s) : Reachable M s
  | step {s s' : σ} {a : α} (h : Reachable M s) (hs : M.step s a s') : Reachable M s'

/-- 条件 `ok` を満たす一歩だけを許した系。 -/
def restrict (M : Lts σ α) (ok : σ → α → Prop) : Lts σ α where
  init := M.init
  step s a s' := ok s a ∧ M.step s a s'

variable {M : Lts σ α}

/-- 初期状態で成り立ち一歩が保つ性質は、到達可能な状態すべてで成り立つ。 -/
theorem Reachable.invariant {P : σ → Prop} (init : ∀ s, M.init s → P s)
    (step : ∀ s a s', Reachable M s → P s → M.step s a s' → P s') {s : σ} (h : Reachable M s) :
    P s := by
  induction h with
  | init hi => exact init _ hi
  | step hr hs ih => exact step _ _ _ hr ih hs

/-- 制限した系で着く状態は、元の系でも着く。 -/
theorem Reachable.of_restrict {ok : σ → α → Prop} {s : σ} (h : Reachable (M.restrict ok) s) :
    Reachable M s := by
  induction h with
  | init hi => exact .init hi
  | step _ hs ih => exact .step ih hs.2

/-- 条件を強めて着く状態は、緩めても着く。 -/
theorem Reachable.mono {ok ok' : σ → α → Prop} (hok : ∀ s a s', ok s a → M.step s a s' → ok' s a)
    {s : σ} (h : Reachable (M.restrict ok) s) : Reachable (M.restrict ok') s := by
  induction h with
  | init hi => exact .init hi
  | step _ hs ih => exact .step ih ⟨hok _ _ _ hs.1 hs.2, hs.2⟩

/-- 一歩ごとに、動く前の状態と label を並べた記録。 -/
inductive Path (M : Lts σ α) (s : σ) : List (σ × α) → σ → Prop
  | nil : Path M s [] s
  | snoc {l : List (σ × α)} {s₁ s₂ : σ} {a : α} (h : Path M s l s₁) (hs : M.step s₁ a s₂) :
      Path M s (l ++ [(s₁, a)]) s₂

/-- 空の記録で成り立ち一歩が保つ、記録と状態の関係は、どの記録でも成り立つ。 -/
theorem Path.invariant {s : σ} {P : List (σ × α) → σ → Prop} (nil : P [] s)
    (snoc : ∀ l s₁ a s₂, Path M s l s₁ → P l s₁ → M.step s₁ a s₂ → P (l ++ [(s₁, a)]) s₂)
    {l : List (σ × α)} {s' : σ} (h : Path M s l s') : P l s' := by
  induction h with
  | nil => exact nil
  | snoc hp hs ih => exact snoc _ _ _ _ hp ih hs

theorem Path.reachable {s s' : σ} {l : List (σ × α)} (h : Path M s l s') (hs : Reachable M s) :
    Reachable M s' := by
  induction h with
  | nil => exact hs
  | snoc _ hstep ih => exact .step ih hstep

/-- 続けて行った二つの実行の記録は、つながる。 -/
theorem Path.append {s s₁ s₂ : σ} {l l' : List (σ × α)} (h : Path M s l s₁)
    (h' : Path M s₁ l' s₂) : Path M s (l ++ l') s₂ := by
  induction h' with
  | nil =>
    rw [List.append_nil]
    exact h
  | snoc _ hs ih =>
    rw [← List.append_assoc]
    exact .snoc ih hs

/-- 記録を途中で切ると、そこまでの記録になる。 -/
theorem Path.take {s s' : σ} {l : List (σ × α)} (h : Path M s l s') :
    ∀ {pre post : List (σ × α)} {x : σ × α}, l = pre ++ x :: post → Path M s pre x.1 := by
  induction h with
  | nil =>
    intro pre post x heq
    simp at heq
  | @snoc l s₁ s₂ a hp hs ih =>
    intro pre post x heq
    rcases List.eq_nil_or_concat post with rfl | ⟨post', y, rfl⟩
    · obtain ⟨rfl, hx⟩ := List.append_inj' heq rfl
      cases hx
      exact hp
    · have heq' : l ++ [(s₁, a)] = (pre ++ x :: post') ++ [y] := by
        rw [heq, List.concat_eq_append, List.append_assoc, List.cons_append]
      exact ih (List.append_inj' heq' rfl).1

end Lts

end Infra
