import Mathlib.Algebra.BigOperators.Group.List.Basic
import Mathlib.Algebra.GroupWithZero.Nat
import Neocache.Infra.Loop
import Neocache.Infra.Lts

/-!
# 費用を均す

一歩の費用は大きくても、費用と potential の増分の和がその一歩の持ち分を超えないなら、
実行全体の費用は持ち分の総和で抑えられる。この数え方の library。

* `loopCost` — `loop` が一周ごとに払う費用の和
* `loopCost_le` — 一周の費用を potential の減少で払う loop
* `Lts.Path.cost_le` — 遷移系の実行全体の費用
-/

namespace Infra

variable {σ α ε : Type*}

/-- `loop` が払う費用。一周を始めた状態ごとに `cost` を払う。 -/
def loopCost (body : σ → Except ε (Flow σ)) (cost : σ → Nat) : Nat → σ → Nat
  | 0, _ => 0
  | n + 1, s =>
    cost s + match body s with
      | .ok (.again s') => loopCost body cost n s'
      | _ => 0

/-- 一周の結果が、費用を potential の減少で払っている。 -/
def Pays (P : σ → Prop) (Φ : σ → Nat) (cost : Nat) (s : σ) : Flow σ → Prop
  | .again s' => P s' ∧ cost + Φ s' ≤ Φ s
  | .done s' => cost + Φ s' ≤ Φ s

/-- 一周ごとに払っている loop は、抜けた時点まで払い終えている。 -/
theorem loopCost_le {body : σ → Except ε (Flow σ)} {timeout : ε} {cost Φ : σ → Nat}
    {P : σ → Prop} (step : ∀ s r, P s → body s = .ok r → Pays P Φ (cost s) s r) :
    ∀ {n : Nat} {s s' : σ}, P s → loop body timeout n s = .ok s' →
      loopCost body cost n s + Φ s' ≤ Φ s := by
  intro n
  induction n with
  | zero => intro s s' _ h; simp [loop] at h
  | succ n ih =>
    intro s s' hs h
    cases hb : body s with
    | error e => rw [loop_succ_error hb] at h; cases h
    | ok r =>
      have hpay := step s r hs hb
      rw [loopCost, hb]
      cases r with
      | done t =>
        rw [loop_succ_done hb] at h
        cases h
        exact hpay
      | again t =>
        rw [loop_succ_again hb] at h
        have hrest := ih hpay.1 h
        have hround := hpay.2
        show cost s + loopCost body cost n t + Φ s' ≤ Φ s
        omega

/-- 一箇所を置き換えた列の和。 -/
theorem sum_map_set (f : α → Nat) : ∀ {l : List α} {i : Nat} {a : α} (b : α), l[i]? = some a →
    ((l.set i b).map f).sum + f a = (l.map f).sum + f b
  | [], i, a, b, h => by simp at h
  | x :: l, 0, a, b, h => by
    obtain rfl : x = a := by simpa using h
    simp only [List.set_cons_zero, List.map_cons, List.sum_cons]
    omega
  | x :: l, i + 1, a, b, h => by
    have ih := sum_map_set f (l := l) b (by simpa using h)
    simp only [List.set_cons_succ, List.map_cons, List.sum_cons]
    omega

/-- 一歩ごとに持ち分で払える実行は、全体でも持ち分の総和で払える。 -/
theorem Lts.Path.cost_le {M : Lts σ α} {cost budget : σ × α → Nat} {Φ : σ → Nat}
    (step : ∀ s a s', M.Reachable s → M.step s a s' →
      cost (s, a) + Φ s' ≤ Φ s + budget (s, a))
    {s s' : σ} {l : List (σ × α)} (hs : M.Reachable s) (h : M.Path s l s') :
    (l.map cost).sum + Φ s' ≤ Φ s + (l.map budget).sum := by
  induction h with
  | nil => simp
  | snoc hp hstep ih =>
    have hround := step _ _ _ (hp.reachable hs) hstep
    simp only [List.map_append, List.map_cons, List.map_nil, List.sum_append, List.sum_cons,
      List.sum_nil]
    omega

end Infra
