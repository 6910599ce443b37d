import Mathlib.Data.List.Induction
import Mathlib.Data.List.Perm.Basic
import Mathlib.Logic.Function.Basic
import Neocache.Infra.Lts

/-!
# 読み書き lock の下の区間

対象ごとに読み書き lock が一つあり、操作はその lock を取ってから放すまでを何歩かに分けて行う。
共有で取った区間どうしは重なってよく、排他で取った区間は他と重ならない。排他の区間は途中で共有に
落としてよい。

排他の区間は一人で動くので、その歩みはそのまま「一つだけで行った」歩みである。共有の区間どうしは
重なるが、残りの変化が入れ替え可能で、返す値が互いの変化に左右されなければ（`Interleavable`）、
lock を取った順に一つずつ行ったのと見分けがつかない（`serializable`）。

証明は対象ごとに行う。lock を取った順に並べた操作の列について、「終わった操作は返した値で、動いている
共有の区間はこれから返す値で、順に一つずつ行ったものになっている」ことを不変条件にする。
-/

namespace Infra

open Relation

variable {I S O L R T : Type*}

/-- lock の下の区間の系。`obj` は操作の対象、`L` は区間の中のどこに居るか。 -/
structure Sections (I S O L R : Type*) where
  obj : O → I
  start : O → L
  shared : L → Prop
  step : L → S → L → S → Prop
  result : L → Option R

namespace Sections

/-- 始めた操作の今の様子。終わった操作は lock を放している。 -/
inductive Status (L R : Type*) where
  | running (l : L)
  | finished (r : R)

/-- 始めた操作の記録。 -/
structure Record (T O L R : Type*) where
  thread : T
  op : O
  status : Status L R

/-- 全体の状態。`records` は lock を取った順に並ぶ。 -/
structure World (I S T O L R : Type*) where
  data : I → S
  records : List (Record T O L R)

variable (M : Sections I S O L R)

/-! ## 一つずつ行う -/

/-- 一人で動いたときの一歩。 -/
def Alone (p q : L × S) : Prop := M.step p.1 p.2 q.1 q.2

/-- 操作を一つだけで最後まで行う。 -/
def Solo (op : O) (s : S) (r : R) (u : S) : Prop :=
  ∃ l, ReflTransGen M.Alone (M.start op, s) (l, u) ∧ M.result l = some r

/-- 一つの対象に、操作を順に一つずつ行う。 -/
inductive Chain (s : S) : List (O × R) → S → Prop
  | nil : Chain s [] s
  | snoc {ops : List (O × R)} {s₁ u : S} {op : O} {r : R} (h : Chain s ops s₁)
      (hs : M.Solo op s₁ r u) : Chain s (ops ++ [(op, r)]) u

/-- 操作を順に一つずつ行う。 -/
inductive Serial [DecidableEq I] (d : I → S) : List (O × R) → (I → S) → Prop
  | nil : Serial d [] d
  | snoc {ops : List (O × R)} {d₁ : I → S} {u : S} {op : O} {r : R} (h : Serial d ops d₁)
      (hs : M.Solo op (d₁ (M.obj op)) r u) :
      Serial d (ops ++ [(op, r)]) (Function.update d₁ (M.obj op) u)

variable {M} in
theorem Chain.eq_of_nil {s u : S} (h : M.Chain s [] u) : u = s := by
  generalize hl : ([] : List (O × R)) = l at h
  cases h with
  | nil => rfl
  | snoc => simp at hl

variable {M} in
/-- 最後の操作を外すと、その操作を始めた状態までの列になる。 -/
theorem Chain.of_snoc {s u : S} {ops : List (O × R)} {op : O} {r : R}
    (h : M.Chain s (ops ++ [(op, r)]) u) : ∃ s₁, M.Chain s ops s₁ ∧ M.Solo op s₁ r u := by
  generalize hl : ops ++ [(op, r)] = l at h
  cases h with
  | nil => simp at hl
  | @snoc ops' s₁ u op' r' hchain hsolo =>
    obtain ⟨rfl, hpair⟩ := List.append_inj' hl rfl
    cases hpair
    exact ⟨s₁, hchain, hsolo⟩

/-- 対象ごとに見て一つずつ行ったものは、全体でも一つずつ行ったものである。 -/
theorem serial_of_chains [DecidableEq I] {d₀ : I → S} (ops : List (O × R)) :
    ∀ {d : I → S}, (∀ i, M.Chain (d₀ i) (ops.filter fun p => M.obj p.1 = i) (d i)) →
      M.Serial d₀ ops d := by
  induction ops using List.reverseRecOn with
  | nil =>
    intro d h
    obtain rfl : d = d₀ := funext fun i => (h i).eq_of_nil
    exact .nil
  | append_singleton ops p ih =>
    intro d h
    obtain ⟨op, r⟩ := p
    -- 最後の操作の対象では、最後の一つを外した列の着く先から始める
    have hlast := h (M.obj op)
    rw [List.filter_append, List.filter_cons_of_pos (by simp), List.filter_nil] at hlast
    obtain ⟨s₁, hchain, hsolo⟩ := hlast.of_snoc
    have hrest : ∀ i, M.Chain (d₀ i) (ops.filter fun p => M.obj p.1 = i)
        (Function.update d (M.obj op) s₁ i) := by
      intro i
      by_cases hi : i = M.obj op
      · subst hi
        rw [Function.update_self]
        exact hchain
      · have hother := h i
        rw [List.filter_append, List.filter_cons_of_neg (by simpa using Ne.symm hi),
          List.filter_nil, List.append_nil] at hother
        rw [Function.update_of_ne hi]
        exact hother
    have hserial : M.Serial d₀ (ops ++ [(op, r)])
        (Function.update (Function.update d (M.obj op) s₁) (M.obj op) (d (M.obj op))) :=
      .snoc (ih hrest) (by rw [Function.update_self]; exact hsolo)
    rwa [Function.update_idem, Function.update_eq_self] at hserial

/-! ## 重ねて行う -/

/-- 動いている操作の一歩。区間を進めるか、終わった区間の lock を放す。 -/
inductive Advance : Status L R → S → Status L R → S → Prop
  | move {l l' : L} {s s' : S} (h : M.step l s l' s') : Advance (.running l) s (.running l') s'
  | release {l : L} {s : S} {r : R} (h : M.result l = some r) :
      Advance (.running l) s (.finished r) s

/-- 共有で持っているか、もう放している。 -/
def Status.Lenient : Status L R → Prop
  | .running l => M.shared l
  | .finished _ => True

/-- 全体の一歩。thread は、前の区間を終えないうちに次の区間を始めてもよい。 -/
inductive World.Step [DecidableEq I] (w : World I S T O L R) : T → World I S T O L R → Prop
  -- 対象の動いている区間がすべて共有のときに限り、共有の区間を始められる
  | share {t : T} {op : O} (h : M.shared (M.start op))
      (free : ∀ x ∈ w.records, M.obj x.op = M.obj op → x.status.Lenient M) :
      Step w t ⟨w.data, w.records ++ [⟨t, op, .running (M.start op)⟩]⟩
  -- 対象に動いている区間がないときに限り、排他の区間を始められる
  | exclude {t : T} {op : O} (h : ¬ M.shared (M.start op))
      (free : ∀ x ∈ w.records, M.obj x.op = M.obj op → ∃ r, x.status = .finished r) :
      Step w t ⟨w.data, w.records ++ [⟨t, op, .running (M.start op)⟩]⟩
  | advance {pre post : List (Record T O L R)} {t : T} {op : O} {st st' : Status L R} {s' : S}
      (hw : w.records = pre ++ ⟨t, op, st⟩ :: post)
      (h : M.Advance st (w.data (M.obj op)) st' s') :
      Step w t ⟨Function.update w.data (M.obj op) s', pre ++ ⟨t, op, st'⟩ :: post⟩

/-- まだ何も始めていない `d` から動く系。label は動く thread である。 -/
def lts [DecidableEq I] (T : Type*) (d : I → S) : Lts (World I S T O L R) T where
  init w := w = ⟨d, []⟩
  step w t w' := World.Step M w t w'

/-! ## 一つの対象から見た一歩 -/

/-- 対象 `i` の操作だけを残した記録。 -/
def World.on [DecidableEq I] (w : World I S T O L R) (i : I) : List (Record T O L R) :=
  w.records.filter fun x => M.obj x.op = i

/-- 一つの対象の、状態と記録の一歩。 -/
inductive Turn (s : S) : List (Record T O L R) → S → List (Record T O L R) → Prop
  | idle {rs : List (Record T O L R)} : Turn s rs s rs
  | share {rs : List (Record T O L R)} {t : T} {op : O} (h : M.shared (M.start op))
      (free : ∀ x ∈ rs, x.status.Lenient M) :
      Turn s rs s (rs ++ [⟨t, op, .running (M.start op)⟩])
  | exclude {rs : List (Record T O L R)} {t : T} {op : O} (h : ¬ M.shared (M.start op))
      (free : ∀ x ∈ rs, ∃ r, x.status = .finished r) :
      Turn s rs s (rs ++ [⟨t, op, .running (M.start op)⟩])
  | advance {pre post : List (Record T O L R)} {t : T} {op : O} {st st' : Status L R} {s' : S}
      (h : M.Advance st s st' s') :
      Turn s (pre ++ ⟨t, op, st⟩ :: post) s' (pre ++ ⟨t, op, st'⟩ :: post)

section Turns

variable {M} [DecidableEq I]

theorem mem_on {w : World I S T O L R} {i : I} {x : Record T O L R} :
    x ∈ w.on M i ↔ x ∈ w.records ∧ M.obj x.op = i := by
  simp [World.on]

theorem on_snoc {d : I → S} {rs : List (Record T O L R)} {x : Record T O L R} :
    World.on M ⟨d, rs ++ [x]⟩ (M.obj x.op) = World.on M ⟨d, rs⟩ (M.obj x.op) ++ [x] := by
  simp [World.on, List.filter_append]

theorem on_snoc_of_ne {d : I → S} {rs : List (Record T O L R)} {x : Record T O L R} {i : I}
    (hi : M.obj x.op ≠ i) : World.on M ⟨d, rs ++ [x]⟩ i = World.on M ⟨d, rs⟩ i := by
  simp [World.on, List.filter_append, hi]

/-- 全体の一歩は、どの対象から見てもその対象の一歩である。 -/
theorem World.Step.turn {w w' : World I S T O L R} {t : T} (h : World.Step M w t w') (i : I) :
    M.Turn (w.data i) (w.on M i) (w'.data i) (w'.on M i) := by
  cases h with
  | @share _ op hsh free =>
    by_cases hi : M.obj op = i
    · subst hi
      rw [on_snoc (x := ⟨t, op, .running (M.start op)⟩)]
      refine .share hsh fun x hx => ?_
      obtain ⟨hmem, hobj⟩ := mem_on.mp hx
      exact free x hmem hobj
    · rw [on_snoc_of_ne (x := ⟨t, op, .running (M.start op)⟩) hi]
      exact .idle
  | @exclude _ op hex free =>
    by_cases hi : M.obj op = i
    · subst hi
      rw [on_snoc (x := ⟨t, op, .running (M.start op)⟩)]
      refine .exclude hex fun x hx => ?_
      obtain ⟨hmem, hobj⟩ := mem_on.mp hx
      exact free x hmem hobj
    · rw [on_snoc_of_ne (x := ⟨t, op, .running (M.start op)⟩) hi]
      exact .idle
  | @advance pre post _ op st st' s' hw hadv =>
    by_cases hi : M.obj op = i
    · subst hi
      simp only [World.on, hw, List.filter_append, Function.update_self]
      rw [List.filter_cons_of_pos (by simp), List.filter_cons_of_pos (by simp)]
      exact .advance hadv
    · simp only [World.on, hw, List.filter_append, Function.update_of_ne (Ne.symm hi)]
      rw [List.filter_cons_of_neg (by simpa using hi), List.filter_cons_of_neg (by simpa using hi)]
      exact .idle

end Turns

/-! ## 重なってよい区間 -/

/--
共有の区間が互いに重なってよい条件。

`out l s` は `l` から一人で最後まで進めたときに返す値、`pend l s` はそのときの対象の状態である。
-/
structure Interleavable (out : L → S → R) (pend : L → S → S) : Prop where
  keep : ∀ {l s l' s'}, M.shared l → M.step l s l' s' → M.shared l'
  own : ∀ {l s l' s'}, M.shared l → M.step l s l' s' → out l' s' = out l s ∧ pend l' s' = pend l s
  finish : ∀ {l r} (s), M.shared l → M.result l = some r → out l s = r ∧ pend l s = s
  complete : ∀ {l} (s), M.shared l →
    ∃ l', ReflTransGen M.Alone (l, s) (l', pend l s) ∧ M.result l' = some (out l s)
  comm : ∀ {l m} (s), M.shared l → M.shared m → pend l (pend m s) = pend m (pend l s)
  out_pend : ∀ {l m} (s), M.shared l → M.shared m → out l (pend m s) = out l s
  out_step : ∀ {l m s m' s'}, M.shared l → M.shared m → M.step m s m' s' → out l s' = out l s

/-- 返した値か、これから返す値。 -/
def Status.out (out : L → S → R) : Status L R → S → R
  | .running l, s => out l s
  | .finished r, _ => r

/-- 残っている変化を行った後の状態。 -/
def Status.pend (pend : L → S → S) : Status L R → S → S
  | .running l, s => pend l s
  | .finished _, s => s

/-- 記録のすべての操作について、残っている変化を行った後の状態。 -/
def settle (pend : L → S → S) (rs : List (Record T O L R)) (s : S) : S :=
  rs.foldr (fun x s => x.status.pend pend s) s

/-- 操作と、返した値またはこれから返す値。 -/
def Record.expect (out : L → S → R) (s : S) (x : Record T O L R) : O × R :=
  (x.op, x.status.out out s)

/-- 共有の区間を順に行った後の状態。 -/
def readAll [DecidableEq I] (pend : L → S → S) (d : I → S) (ops : List O) : I → S :=
  ops.foldl (fun d op => Function.update d (M.obj op) (pend (M.start op) (d (M.obj op)))) d

section Commuting

variable {M} {out : L → S → R} {pend : L → S → S} (hM : M.Interleavable out pend)

include hM

theorem Interleavable.advance {st st' : Status L R} {s s' : S} (hst : st.Lenient M)
    (h : M.Advance st s st' s') :
    st'.Lenient M ∧ st'.out out s' = st.out out s ∧ st'.pend pend s' = st.pend pend s := by
  cases h with
  | move hstep => exact ⟨hM.keep hst hstep, hM.own hst hstep⟩
  | release hr =>
    obtain ⟨hout, hpend⟩ := hM.finish s hst hr
    exact ⟨trivial, hout.symm, hpend.symm⟩

theorem Interleavable.out_advance {st st' st₂ : Status L R} {s s' : S} (hst : st.Lenient M)
    (hst₂ : st₂.Lenient M) (h : M.Advance st s st' s') : st₂.out out s' = st₂.out out s := by
  cases st₂ with
  | finished r => rfl
  | running m =>
    cases h with
    | move hstep => exact hM.out_step hst₂ hst hstep
    | release => rfl

theorem Interleavable.pend_comm {st st₂ : Status L R} (s : S) (hst : st.Lenient M)
    (hst₂ : st₂.Lenient M) :
    st.pend pend (st₂.pend pend s) = st₂.pend pend (st.pend pend s) := by
  cases st with
  | finished r => rfl
  | running l =>
    cases st₂ with
    | finished r => rfl
    | running m => exact hM.comm s hst hst₂

theorem Interleavable.pend_settle {st : Status L R} (s : S) (hst : st.Lenient M) :
    ∀ {rs : List (Record T O L R)}, (∀ x ∈ rs, x.status.Lenient M) →
      st.pend pend (settle pend rs s) = settle pend rs (st.pend pend s)
  | [], _ => rfl
  | x :: rs, h => by
    have hx := h x List.mem_cons_self
    have ih := Interleavable.pend_settle s hst fun y hy => h y (List.mem_cons_of_mem _ hy)
    show st.pend pend (x.status.pend pend (settle pend rs s)) = _
    rw [hM.pend_comm _ hst hx, ih]
    rfl

theorem Interleavable.out_settle {l : L} (s : S) (hl : M.shared l) :
    ∀ {rs : List (Record T O L R)}, (∀ x ∈ rs, x.status.Lenient M) →
      out l (settle pend rs s) = out l s
  | [], _ => rfl
  | x :: rs, h => by
    have hx := h x List.mem_cons_self
    have ih := Interleavable.out_settle s hl fun y hy => h y (List.mem_cons_of_mem _ hy)
    show out l (x.status.pend pend (settle pend rs s)) = _
    cases hst : x.status with
    | finished r => exact ih
    | running m =>
      rw [hst] at hx
      exact (hM.out_pend _ hl hx).trans ih

/-- 記録の途中の操作の変化を、先に行ってよい。 -/
theorem Interleavable.settle_mid {pre post : List (Record T O L R)} {x : Record T O L R} (s : S)
    (h : ∀ y ∈ pre ++ x :: post, y.status.Lenient M) :
    settle pend (pre ++ x :: post) s = settle pend (pre ++ post) (x.status.pend pend s) := by
  have hx := h x (by simp)
  have hpost : ∀ y ∈ post, y.status.Lenient M := fun y hy => h y (by simp [hy])
  unfold settle
  rw [List.foldr_append, List.foldr_append, List.foldr_cons]
  congr 1
  exact hM.pend_settle s hx hpost

end Commuting

/-! ## 一つの対象の不変条件 -/

/-- 記録の操作がすべて lock を放している。 -/
def Settled (rs : List (Record T O L R)) : Prop := ∀ x ∈ rs, ∃ r, x.status = .finished r

theorem Settled.lenient {rs : List (Record T O L R)} (h : Settled rs) :
    ∀ x ∈ rs, x.status.Lenient M := by
  intro x hx
  obtain ⟨r, hr⟩ := h x hx
  rw [hr]
  trivial

/-- すべて終わった記録は、返した値の並びで書ける。 -/
theorem Settled.history {rs : List (Record T O L R)} (h : Settled rs) :
    ∃ hist : List (T × O × R), rs = hist.map fun x => ⟨x.1, x.2.1, .finished x.2.2⟩ := by
  induction rs with
  | nil => exact ⟨[], rfl⟩
  | cons x rs ih =>
    obtain ⟨hist, rfl⟩ := ih fun y hy => h y (List.mem_cons_of_mem _ hy)
    obtain ⟨r, hr⟩ := h x List.mem_cons_self
    refine ⟨(x.thread, x.op, r) :: hist, ?_⟩
    rw [List.map_cons, ← hr]

theorem Settled.settle {rs : List (Record T O L R)} (h : Settled rs) (pend : L → S → S) (s : S) :
    settle pend rs s = s := by
  induction rs with
  | nil => rfl
  | cons x rs ih =>
    obtain ⟨r, hr⟩ := h x List.mem_cons_self
    show x.status.pend pend (Sections.settle pend rs s) = s
    rw [hr, ih fun y hy => h y (List.mem_cons_of_mem _ hy)]
    rfl

theorem Settled.expect {rs : List (Record T O L R)} (h : Settled rs) (out : L → S → R) (s s' : S) :
    rs.map (Record.expect out s) = rs.map (Record.expect out s') := by
  refine List.map_congr_left fun x hx => ?_
  obtain ⟨r, hr⟩ := h x hx
  simp [Record.expect, hr, Status.out]

/-- lock を取った順に一つずつ行ったものになっている。 -/
inductive Consistent (out : L → S → R) (pend : L → S → S) (s₀ : S) :
    List (Record T O L R) → S → Prop
  /-- 動いている区間は共有のものだけである。 -/
  | opened {rs : List (Record T O L R)} {s : S} (free : ∀ x ∈ rs, x.status.Lenient M)
      (chain : M.Chain s₀ (rs.map (Record.expect out s)) (settle pend rs s)) :
      Consistent out pend s₀ rs s
  /-- 最後に始めた区間だけが動いていて、排他である。 -/
  | closed {rs : List (Record T O L R)} {t : T} {op : O} {l : L} {u s : S} (h : ¬ M.shared l)
      (settled : Settled rs) (chain : M.Chain s₀ (rs.map (Record.expect out u)) u)
      (alone : ReflTransGen M.Alone (M.start op, u) (l, s)) :
      Consistent out pend s₀ (rs ++ [⟨t, op, .running l⟩]) s

section Runs

variable {M} {out : L → S → R} {pend : L → S → S} (hM : M.Interleavable out pend)

include hM

/-- 共有の区間だけのときに一つ進めても、残りの変化も返す値も変わらない。 -/
theorem Consistent.advance_opened {s₀ s s' : S} {pre post : List (Record T O L R)} {t : T} {op : O}
    {st st' : Status L R} (free : ∀ x ∈ pre ++ ⟨t, op, st⟩ :: post, x.status.Lenient M)
    (chain : M.Chain s₀ ((pre ++ ⟨t, op, st⟩ :: post).map (Record.expect out s))
      (settle pend (pre ++ ⟨t, op, st⟩ :: post) s))
    (h : M.Advance st s st' s') :
    Consistent M out pend s₀ (pre ++ ⟨t, op, st'⟩ :: post) s' := by
  have hst : st.Lenient M := free ⟨t, op, st⟩ (by simp)
  obtain ⟨hst', hout, hpend⟩ := hM.advance hst h
  have free' : ∀ x ∈ pre ++ ⟨t, op, st'⟩ :: post, x.status.Lenient M := by
    intro x hx
    rcases List.mem_append.mp hx with hx | hx
    · exact free x (by simp [hx])
    · rcases List.mem_cons.mp hx with rfl | hx
      · exact hst'
      · exact free x (by simp [hx])
  have hother : ∀ x ∈ pre ++ post, Record.expect out s' x = Record.expect out s x := by
    intro x hx
    have hx' := free x (by rcases List.mem_append.mp hx with hx | hx <;> simp [hx])
    exact congrArg (Prod.mk x.op) (hM.out_advance hst hx' h)
  have hexpect : (pre ++ ⟨t, op, st'⟩ :: post).map (Record.expect out s')
      = (pre ++ ⟨t, op, st⟩ :: post).map (Record.expect out s) := by
    rw [List.map_append, List.map_append, List.map_cons, List.map_cons]
    congr 1
    · exact List.map_congr_left fun x hx => hother x (by simp [hx])
    · congr 1
      · exact congrArg (Prod.mk op) hout
      · exact List.map_congr_left fun x hx => hother x (by simp [hx])
  refine .opened free' ?_
  rw [hexpect, hM.settle_mid _ free']
  show M.Chain s₀ _ (settle pend (pre ++ post) (st'.pend pend s'))
  rw [hpend]
  rwa [hM.settle_mid _ free] at chain

/-- 排他の区間を一つ進める。共有に落とすと、残りはその区間を一人で終えたものになる。 -/
theorem Consistent.advance_closed {s₀ u s s' : S} {rs : List (Record T O L R)} {t : T} {op : O}
    {l : L} {st' : Status L R} (settled : Settled rs)
    (chain : M.Chain s₀ (rs.map (Record.expect out u)) u)
    (alone : ReflTransGen M.Alone (M.start op, u) (l, s))
    (h : M.Advance (.running l) s st' s') :
    Consistent M out pend s₀ (rs ++ [⟨t, op, st'⟩]) s' := by
  have hlenient : st'.Lenient M →
      ∀ x ∈ rs ++ [(⟨t, op, st'⟩ : Record T O L R)], x.status.Lenient M := by
    intro hst' x hx
    rcases List.mem_append.mp hx with hx | hx
    · exact settled.lenient M x hx
    · rw [List.mem_singleton.mp hx]
      exact hst'
  have hsettle : settle pend (rs ++ [⟨t, op, st'⟩]) s' = st'.pend pend s' := by
    unfold settle
    rw [List.foldr_append]
    exact settled.settle pend _
  have hexpect : List.map (Record.expect out s') (rs ++ [⟨t, op, st'⟩])
      = rs.map (Record.expect out u) ++ [(op, st'.out out s')] := by
    rw [List.map_append, settled.expect out s' u]
    rfl
  cases h with
  | @release _ _ r hr =>
    refine .opened (hlenient trivial) ?_
    rw [hsettle, hexpect]
    exact .snoc chain ⟨l, alone, hr⟩
  | @move _ l' _ _ hstep =>
    have alone' : ReflTransGen M.Alone (M.start op, u) (l', s') := alone.tail hstep
    by_cases hl' : M.shared l'
    · refine .opened (hlenient hl') ?_
      rw [hsettle, hexpect]
      obtain ⟨l₂, hsteps, hr⟩ := hM.complete s' hl'
      exact .snoc chain ⟨l₂, alone'.trans hsteps, hr⟩
    · exact .closed hl' settled chain alone'

/-- 一つの対象の一歩は、不変条件を保つ。 -/
theorem Consistent.turn {s₀ s s' : S} {rs rs' : List (Record T O L R)}
    (hc : Consistent M out pend s₀ rs s) (h : M.Turn s rs s' rs') :
    Consistent M out pend s₀ rs' s' := by
  cases h with
  | idle => exact hc
  | @share _ t op hsh free =>
    cases hc with
    | closed hl =>
      -- 排他の区間が動いている間は始められない
      exact absurd (free _ (List.mem_append_right _ List.mem_cons_self)) hl
    | opened _ chain =>
      have hsolo : M.Solo op (settle pend rs s) (out (M.start op) (settle pend rs s))
          (pend (M.start op) (settle pend rs s)) := hM.complete _ hsh
      refine .opened (fun x hx => ?_) ?_
      · rcases List.mem_append.mp hx with hx | hx
        · exact free x hx
        · rw [List.mem_singleton.mp hx]
          exact hsh
      · have hsettle : settle pend (rs ++ [⟨t, op, .running (M.start op)⟩]) s
            = pend (M.start op) (settle pend rs s) := by
          unfold settle
          rw [List.foldr_append]
          have hlenient : (Status.running (M.start op) : Status L R).Lenient M := hsh
          have hfirst := hM.pend_settle s hlenient free
          exact hfirst.symm
        rw [hsettle, List.map_append]
        have hout : out (M.start op) (settle pend rs s) = out (M.start op) s :=
          hM.out_settle s hsh free
        rw [hout] at hsolo
        exact .snoc chain hsolo
  | @exclude _ t op hex free =>
    have hsettled : Settled rs := free
    cases hc with
    | closed hl =>
      obtain ⟨r, hr⟩ := free _ (List.mem_append_right _ List.mem_cons_self)
      cases hr
    | opened _ chain =>
      rw [hsettled.settle] at chain
      exact .closed hex hsettled chain .refl
  | @advance pre post t op st st' _ hadv =>
    generalize hrs : pre ++ ⟨t, op, st⟩ :: post = rs at hc
    cases hc with
    | opened free chain =>
      subst hrs
      exact Consistent.advance_opened hM free chain hadv
    | @closed rs₀ t₀ op₀ l u _ hl settled chain alone =>
      -- 動いているのは最後の区間だけなので、進んだのはそれである
      rcases List.eq_nil_or_concat post with rfl | ⟨post', y, rfl⟩
      · obtain ⟨rfl, hlast⟩ := List.append_inj' hrs rfl
        cases hlast
        exact Consistent.advance_closed hM settled chain alone hadv
      · have heq : (pre ++ ⟨t, op, st⟩ :: post') ++ [y] = rs₀ ++ [⟨t₀, op₀, .running l⟩] := by
          rw [← hrs]
          simp
        obtain ⟨rfl, -⟩ := List.append_inj' heq rfl
        obtain ⟨r, hr⟩ := settled ⟨t, op, st⟩ (by simp)
        obtain rfl : st = .finished r := hr
        cases hadv

/-- 実行の途中も、対象ごとに見れば、lock を取った順に一つずつ行ったものになっている。 -/
theorem Interleavable.consistent [DecidableEq I] {d : I → S} {w : World I S T O L R}
    (h : (M.lts T d).Reachable w) (i : I) : Consistent M out pend (d i) (w.on M i) (w.data i) := by
  refine Lts.Reachable.invariant
    (P := fun w => Consistent M out pend (d i) (w.on M i) (w.data i)) ?_ ?_ h
  · rintro w rfl
    exact .opened (fun x hx => (by cases hx)) .nil
  · intro w t w' _ hc hstep
    exact Consistent.turn hM hc (hstep.turn i)

/--
どの実行でも、終わった時点の状態と返した値は、lock を取った順に一つずつ行ったものである。
-/
theorem serializable [DecidableEq I] {d : I → S} {w : World I S T O L R}
    (h : (M.lts T d).Reachable w) {hist : List (T × O × R)}
    (hw : w.records = hist.map fun x => ⟨x.1, x.2.1, .finished x.2.2⟩) :
    M.Serial d (hist.map Prod.snd) w.data := by
  refine serial_of_chains M _ fun i => ?_
  have hsettled : Settled (w.on M i) := by
    intro x hx
    have hmem := (mem_on.mp hx).1
    rw [hw] at hmem
    obtain ⟨y, -, rfl⟩ := List.mem_map.mp hmem
    exact ⟨_, rfl⟩
  have hexpect : (w.on M i).map (Record.expect out (w.data i))
      = (hist.map Prod.snd).filter fun p => M.obj p.1 = i := by
    rw [World.on, hw, List.filter_map, List.filter_map, List.map_map]
    rfl
  generalize hrs : w.on M i = rs at hsettled hexpect
  have hi := hM.consistent h i
  rw [hrs] at hi
  cases hi with
  | opened _ chain =>
    rw [hsettled.settle, hexpect] at chain
    exact chain
  | closed =>
    obtain ⟨r, hr⟩ := hsettled _ (List.mem_append_right _ List.mem_cons_self)
    cases hr

/-! ## 共有の区間だけの実行 -/

/-- 共有の区間を一人で行った結果は、始めから決まっている。 -/
theorem Interleavable.solo {op : O} {s u : S} {r : R} (hsh : M.shared (M.start op))
    (h : M.Solo op s r u) : out (M.start op) s = r ∧ pend (M.start op) s = u := by
  obtain ⟨l, hsteps, hr⟩ := h
  refine ReflTransGen.head_induction_on
    (motive := fun p _ => M.shared p.1 → out p.1 p.2 = r ∧ pend p.1 p.2 = u) hsteps ?_ ?_ hsh
  · exact fun hl => hM.finish u hl hr
  · intro p q hstep _ ih hp
    obtain ⟨hout, hpend⟩ := hM.own hp hstep
    rw [← hout, ← hpend]
    exact ih (hM.keep hp hstep)

theorem Interleavable.serial_shared [DecidableEq I] {d d' : I → S} {ops : List (O × R)}
    (h : M.Serial d ops d') (hsh : ∀ p ∈ ops, M.shared (M.start p.1)) :
    d' = M.readAll pend d (ops.map Prod.fst) ∧
      (∀ l i, M.shared l → out l (d' i) = out l (d i)) ∧
      ops = (ops.map Prod.fst).map fun op => (op, out (M.start op) (d (M.obj op))) := by
  induction h with
  | nil => exact ⟨rfl, fun _ _ _ => rfl, rfl⟩
  | @snoc ops d₁ u op r _ hsolo ih =>
    obtain ⟨hd, hsame, hops⟩ := ih fun p hp => hsh p (List.mem_append_left _ hp)
    have hop : M.shared (M.start op) := hsh (op, r) (by simp)
    obtain ⟨rfl, rfl⟩ := hM.solo hop hsolo
    refine ⟨?_, fun l i hl => ?_, ?_⟩
    · unfold readAll at hd ⊢
      rw [List.map_append, List.foldl_append, ← hd]
      rfl
    · rcases eq_or_ne i (M.obj op) with rfl | hi
      · rw [Function.update_self, hM.out_pend _ hl hop]
        exact hsame l _ hl
      · rw [Function.update_of_ne hi]
        exact hsame l i hl
    · rw [hsame _ _ hop, List.map_append, List.map_append, ← hops]
      rfl

theorem Interleavable.readAll_perm [DecidableEq I] {ops ops' : List O} (hp : ops.Perm ops')
    (hsh : ∀ op ∈ ops, M.shared (M.start op)) (d : I → S) :
    M.readAll pend d ops = M.readAll pend d ops' := by
  refine hp.foldl_eq' ?_ d
  intro x hx y hy d
  rcases eq_or_ne (M.obj x) (M.obj y) with hxy | hxy
  · rw [hxy, Function.update_self, Function.update_self, Function.update_idem,
      Function.update_idem, hM.comm _ (hsh x hx) (hsh y hy)]
  · rw [Function.update_of_ne (Ne.symm hxy), Function.update_of_ne hxy, Function.update_comm hxy]

/-- 共有の区間だけなら、どの順に行っても、着く状態も、それぞれの返す値も同じである。 -/
theorem Interleavable.serial_perm [DecidableEq I] {d d₁ d₂ : I → S} {ops₁ ops₂ : List (O × R)}
    (h₁ : M.Serial d ops₁ d₁) (h₂ : M.Serial d ops₂ d₂)
    (hsh : ∀ p ∈ ops₁, M.shared (M.start p.1))
    (hp : (ops₁.map Prod.fst).Perm (ops₂.map Prod.fst)) : d₁ = d₂ ∧ ops₁.Perm ops₂ := by
  have hsh₁ : ∀ op ∈ ops₁.map Prod.fst, M.shared (M.start op) := by
    intro op hop
    obtain ⟨p, hmem, rfl⟩ := List.mem_map.mp hop
    exact hsh p hmem
  have hsh₂ : ∀ p ∈ ops₂, M.shared (M.start p.1) := fun p hmem =>
    hsh₁ p.1 (hp.mem_iff.mpr (List.mem_map_of_mem hmem))
  obtain ⟨hd₁, -, hops₁⟩ := hM.serial_shared h₁ hsh
  obtain ⟨hd₂, -, hops₂⟩ := hM.serial_shared h₂ hsh₂
  refine ⟨?_, ?_⟩
  · rw [hd₁, hd₂]
    exact hM.readAll_perm hp hsh₁ d
  · rw [hops₁, hops₂]
    exact hp.map _

end Runs

end Sections

end Infra
