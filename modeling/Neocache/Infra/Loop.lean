import Mathlib.Tactic.TypeStar

/-!
# 抜けるまで回す loop

`loop { … return … }` と `while` を、残り回数つきの再帰で表す library。
一周ごとに `body` が「続ける」か「抜ける」かを返し、失敗（panic）すれば loop ごと失敗する。

残り回数は終わらない loop を値として表すためにある。回数は使う側が変量から決め、不変条件のもとで
使い切らないことは `loop_total` で示す。規則は次の三つである。

* `loop_total` — 不変条件と変量があれば loop は終わる（停止性つきの正当性）
* `loop_induct` — 終わったなら不変条件が残る（部分正当性）
* `loop_rel` — 歩調のそろった二つの loop は関係した結果を返す
-/

namespace Infra

variable {σ τ ε : Type*}

/-- 一周の結果。続けるか、抜けるか。 -/
inductive Flow (σ : Type*) where
  | again (s : σ)
  | done (s : σ)
  deriving DecidableEq, Repr

/-- 高々 `n` 周だけ回す。回り切ったら `timeout` で失敗する。 -/
def loop (body : σ → Except ε (Flow σ)) (timeout : ε) : Nat → σ → Except ε σ
  | 0, _ => .error timeout
  | n + 1, s =>
    match body s with
    | .error e => .error e
    | .ok (.done s') => .ok s'
    | .ok (.again s') => loop body timeout n s'

/-- 条件が成り立つあいだ `step` を繰り返す一周。 -/
def whileBody (cond : σ → Bool) (step : σ → Except ε σ) (s : σ) : Except ε (Flow σ) :=
  if cond s then (step s).map .again else .ok (.done s)

variable {body : σ → Except ε (Flow σ)} {timeout : ε}

theorem loop_succ_error {n : Nat} {s : σ} {e : ε} (h : body s = .error e) :
    loop body timeout (n + 1) s = .error e := by
  rw [loop, h]

theorem loop_succ_done {n : Nat} {s s' : σ} (h : body s = .ok (.done s')) :
    loop body timeout (n + 1) s = .ok s' := by
  rw [loop, h]

theorem loop_succ_again {n : Nat} {s s' : σ} (h : body s = .ok (.again s')) :
    loop body timeout (n + 1) s = loop body timeout n s' := by
  rw [loop, h]

/-! ## 部分正当性と停止性 -/

/-- 終わった loop の結果。一周が保つ性質は、抜けた時点まで運ばれる。 -/
theorem loop_induct {P : σ → Prop} {Q : σ → Prop}
    (again : ∀ s s', P s → body s = .ok (.again s') → P s')
    (done : ∀ s s', P s → body s = .ok (.done s') → Q s') :
    ∀ {n : Nat} {s s' : σ}, P s → loop body timeout n s = .ok s' → Q s' := by
  intro n
  induction n with
  | zero => intro s s' _ h; simp [loop] at h
  | succ n ih =>
    intro s s' hs h
    cases hb : body s with
    | error e => rw [loop_succ_error hb] at h; cases h
    | ok r =>
      cases r with
      | done t =>
        rw [loop_succ_done hb] at h
        cases h
        exact done s s' hs hb
      | again t =>
        rw [loop_succ_again hb] at h
        exact ih (again s t hs hb) h

/--
停止性つきの正当性。

不変条件 `P` のもとで一周が失敗せず、続けるときは `P` を保って変量 `μ` を減らすなら、
`μ s` より多い残り回数で loop は終わり、抜けるときの性質 `Q` が成り立つ。
-/
theorem loop_total {P : σ → Prop} {Q : σ → Prop} {μ : σ → Nat}
    (step : ∀ s, P s → (∃ s', body s = .ok (.again s') ∧ P s' ∧ μ s' < μ s) ∨
      ∃ s', body s = .ok (.done s') ∧ Q s') :
    ∀ {n : Nat} {s : σ}, P s → μ s < n → ∃ s', loop body timeout n s = .ok s' ∧ Q s' := by
  intro n
  induction n with
  | zero => intro s _ h; omega
  | succ n ih =>
    intro s hs hn
    rcases step s hs with ⟨t, hb, ht, hμ⟩ | ⟨t, hb, hq⟩
    · obtain ⟨u, hu, hq⟩ := ih ht (by omega)
      exact ⟨u, by rw [loop_succ_again hb]; exact hu, hq⟩
    · exact ⟨t, loop_succ_done hb, hq⟩

/-! ## 二つの loop -/

/-- 二つの結果が同じ失敗であるか、関係 `R` にある。 -/
def RelExcept (R : σ → τ → Prop) : Except ε σ → Except ε τ → Prop
  | .error e, .error e' => e = e'
  | .ok s, .ok t => R s t
  | _, _ => False

/-- 関係した二つの結果は、ともに失敗するか、ともに値を返す。 -/
theorem RelExcept.cases {R : σ → τ → Prop} {x : Except ε σ} {y : Except ε τ}
    (h : RelExcept R x y) :
    (∃ e, x = .error e ∧ y = .error e) ∨ ∃ s t, x = .ok s ∧ y = .ok t ∧ R s t := by
  cases x with
  | error e =>
    cases y with
    | error e' => exact Or.inl ⟨e, rfl, congrArg Except.error (Eq.symm h)⟩
    | ok t => exact h.elim
  | ok s =>
    cases y with
    | error e' => exact h.elim
    | ok t => exact Or.inr ⟨s, t, rfl, rfl, h⟩

/-- 一周の結果どうしの関係。続けるか抜けるかまで揃っていることを求める。 -/
def RelFlow (R Q : σ → τ → Prop) : Flow σ → Flow τ → Prop
  | .again s, .again t => R s t
  | .done s, .done t => Q s t
  | _, _ => False

/-- 歩調のそろった二つの loop は、同じ残り回数で関係した結果を返す。 -/
theorem loop_rel {body' : τ → Except ε (Flow τ)} {R Q : σ → τ → Prop}
    (h : ∀ s t, R s t → RelExcept (RelFlow R Q) (body s) (body' t)) :
    ∀ (n : Nat) (s : σ) (t : τ), R s t →
      RelExcept Q (loop body timeout n s) (loop body' timeout n t) := by
  intro n
  induction n with
  | zero => intro s t _; exact rfl
  | succ n ih =>
    intro s t hr
    rcases (h s t hr).cases with ⟨e, hs, ht⟩ | ⟨r, r', hs, ht, hflow⟩
    · rw [loop_succ_error hs, loop_succ_error ht]
      exact rfl
    · cases r with
      | again s' =>
        cases r' with
        | again t' =>
          rw [loop_succ_again hs, loop_succ_again ht]
          exact ih s' t' hflow
        | done _ => exact hflow.elim
      | done s' =>
        cases r' with
        | again _ => exact hflow.elim
        | done t' =>
          rw [loop_succ_done hs, loop_succ_done ht]
          exact hflow

end Infra
