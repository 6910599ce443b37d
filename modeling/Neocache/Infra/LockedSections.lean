import Mathlib.Algebra.BigOperators.Group.List.Basic
import Mathlib.Algebra.Order.Group.Multiset
import Neocache.Infra.Parking
import Neocache.Infra.Sections

/-!
# lock の実装の上の区間

`Infra.Sections` は lock を「取れるときに一歩で取る」ものとして扱う。ここでは、対象ごとの lock を
`Infra.Parking` の program とし、取る、放す、共有に落とすの三つを、語への access を一歩とする
呼び出しに置き換える。thread は呼び出しの途中で何度でも割り込まれ、眠りもする。

区間の側で起きることは、呼び出しの中のただ一つの access で起きる（`World.follow`）。取れた access で
区間が始まり、手放した access で終わる。

program について要るのは、呼び出しの途中の居場所が何のための呼び出しかを覚えていること（`Phased`）と、
排他で持つ thread が居る間は他に持ち主が居ないこと（`Excludes`）である。このとき、どの実行も
`Infra.Sections` の実行になっている（`refines`）。
-/

namespace Infra.Locked

open Parking Sections

variable {I S O L R P W T : Type*}

/-! ## 呼び出しの種類 -/

/-- 何のための呼び出しの途中か。手放した後に起こすだけの所は `waking` である。 -/
inductive Phase
  | idle
  | lockShared
  | lockExclusive
  | unlockShared
  | unlockExclusive
  | downgrade
  | waking
  deriving DecidableEq, Repr

/-- 呼び出しの中の一歩に許されること。 -/
inductive Phase.Step : Phase → Effect → Phase → Prop
  | quiet {p : Phase} (h : p ≠ .idle) : Step p .quiet p
  | refuse {p : Phase} (h : p = .lockShared ∨ p = .lockExclusive) : Step p .refuse .idle
  | panic {p : Phase} (h : p ≠ .idle) : Step p .panic .idle
  | takeShared : Step .lockShared .takeShared .idle
  | takeExclusive : Step .lockExclusive .takeExclusive .idle
  | parkReader : Step .lockShared .parkReader .lockShared
  | parkWriter : Step .lockExclusive .parkWriter .lockExclusive
  | dropShared {q : Phase} (hq : q = .idle ∨ q = .waking) : Step .unlockShared .dropShared q
  | dropExclusive {q : Phase} (hq : q = .idle ∨ q = .waking) :
    Step .unlockExclusive .dropExclusive q
  | downgrade {q : Phase} (hq : q = .idle ∨ q = .waking) : Step .downgrade .downgrade q
  | unpark {e : Effect} (he : e = .unparkOne ∨ e = .unparkAll) : Step .waking e .idle
  | rest : Step .waking .quiet .idle

/-- 呼び出しの入口。取る入口は、待つものと待たないものの二つがあってよい。 -/
structure Doors (P : Type*) where
  lockShared : P → Prop
  lockExclusive : P → Prop
  unlockShared : P
  unlockExclusive : P
  downgrade : P

/-- program の居場所は、何のための呼び出しの途中かを覚えている。 -/
structure Phased (N : Program P W) (doors : Doors P) (phase : P → Phase) : Prop where
  idle : phase N.idle = .idle
  writerWoken : phase N.writerWoken = phase N.writerParked
  readerWoken : phase N.readerWoken = phase N.readerParked
  access : ∀ {p v o}, N.access p v o → (phase p).Step o.effect (phase o.next)
  lockShared : ∀ {p}, doors.lockShared p → N.enter N.idle .nothing p ∧ phase p = .lockShared
  lockExclusive : ∀ {p}, doors.lockExclusive p →
    N.enter N.idle .nothing p ∧ phase p = .lockExclusive
  unlockShared : N.enter N.idle .shared doors.unlockShared ∧
    phase doors.unlockShared = .unlockShared
  unlockExclusive : N.enter N.idle .exclusive doors.unlockExclusive ∧
    phase doors.unlockExclusive = .unlockExclusive
  downgrade : N.enter N.idle .exclusive doors.downgrade ∧ phase doors.downgrade = .downgrade

/-- 排他で持つ thread が居れば、他に持ち主は居ない。 -/
def Excludes (T : Type*) [DecidableEq T] (N : Program P W) : Prop :=
  ∀ s : Threads T P W, N.lts.Reachable s → ∀ t ∈ s.exclusive, s.exclusive = {t} ∧ s.shared = 0

/-! ## 系 -/

/-- thread の lock の呼び出し。区間は、始まった順の番号で指す。 -/
inductive Call (O L R : Type*) where
  | acquire (op : O)
  | release (n : Nat) (r : R)
  | downgrade (n : Nat) (l : L)

/-- 区間と、対象ごとの lock。`call` は thread が最後に始めた呼び出しと、その対象である。 -/
structure State (I S T O L R P W : Type*) where
  locks : I → Threads T P W
  world : World I S T O L R
  call : T → Option (I × Call O L R)

/-- 区間の今の様子を置き換える。 -/
def setStatus (rs : List (Record T O L R)) (n : Nat) (st : Status L R) : List (Record T O L R) :=
  rs.modify n fun x => { x with status := st }

section System

variable (M : Sections I S O L R) (N : Program P W) (doors : Doors P)

/-- 呼び出しの中の一つの access に伴って、区間の側で起きること。 -/
def World.follow (w : World I S T O L R) (t : T) : Call O L R → Effect → World I S T O L R
  | .acquire op, .takeShared | .acquire op, .takeExclusive =>
    { w with records := w.records ++ [⟨t, op, .running (M.start op)⟩] }
  | .release n r, .dropShared | .release n r, .dropExclusive =>
    { w with records := setStatus w.records n (.finished r) }
  | .downgrade n l, .downgrade => { w with records := setStatus w.records n (.running l) }
  | _, _ => w

/-- thread はどの lock の呼び出しの途中でもない。 -/
def State.Idle (s : State I S T O L R P W) (t : T) : Prop := ∀ i, (s.locks i).pc t = N.idle

variable [DecidableEq I] [DecidableEq T]

/-- 呼び出しを始めた状態。 -/
def State.enter (s : State I S T O L R P W) (t : T) (i : I) (p : P) (c : Call O L R) :
    State I S T O L R P W :=
  { s with
    locks := Function.update s.locks i ((s.locks i).goto t p)
    call := Function.update s.call t (some (i, c)) }

/-- 呼び出しの中の access を一つ行った状態。 -/
def State.access (s : State I S T O L R P W) (t : T) (i : I) (c : Call O L R)
    (o : StepResult P W) : State I S T O L R P W :=
  { s with
    locks := Function.update s.locks i ((s.locks i).after N t o)
    world := World.follow M s.world t c o.effect }

/-- 区間の中の一歩を行った状態。 -/
def State.move (s : State I S T O L R P W) (n : Nat) (i : I) (u : S) (l : L) :
    State I S T O L R P W :=
  { s with world := ⟨Function.update s.world.data i u, setStatus s.world.records n (.running l)⟩ }

/-- 始めた操作の続きの一歩。 -/
inductive Proceed (s : State I S T O L R P W) (t : T) : State I S T O L R P W → Prop
  | unlockShared {n : Nat} {op : O} {l : L} {r : R} (hidle : s.Idle N t)
      (hn : s.world.records[n]? = some ⟨t, op, .running l⟩) (hl : M.shared l)
      (hr : M.result l = some r) :
      Proceed s t (s.enter t (M.obj op) doors.unlockShared (.release n r))
  | unlockExclusive {n : Nat} {op : O} {l : L} {r : R} (hidle : s.Idle N t)
      (hn : s.world.records[n]? = some ⟨t, op, .running l⟩) (hl : ¬ M.shared l)
      (hr : M.result l = some r) :
      Proceed s t (s.enter t (M.obj op) doors.unlockExclusive (.release n r))
  | downgrade {n : Nat} {op : O} {l l' : L} (hidle : s.Idle N t)
      (hn : s.world.records[n]? = some ⟨t, op, .running l⟩) (hl : ¬ M.shared l)
      (hl' : M.shared l') (h : M.step l (s.world.data (M.obj op)) l' (s.world.data (M.obj op))) :
      Proceed s t (s.enter t (M.obj op) doors.downgrade (.downgrade n l'))
  | access {i : I} {c : Call O L R} {o : StepResult P W} (hc : s.call t = some (i, c))
      (ha : N.access ((s.locks i).pc t) (s.locks i).word o) : Proceed s t (s.access M N t i c o)
  -- 区間の中の一歩。lock には触れない
  | move {n : Nat} {op : O} {l l' : L} {u : S} (hidle : s.Idle N t)
      (hn : s.world.records[n]? = some ⟨t, op, .running l⟩)
      (h : M.step l (s.world.data (M.obj op)) l' u) (hl : M.shared l' ↔ M.shared l) :
      Proceed s t (s.move n (M.obj op) u l')

/-- 全体の一歩。 -/
inductive Step (s : State I S T O L R P W) (t : T) : State I S T O L R P W → Prop
  -- 区間を共有で始めるか排他で始めるかは、操作で決まっている
  | lock {op : O} {p : P} (hidle : s.Idle N t)
      (hp : M.shared (M.start op) ∧ doors.lockShared p ∨
        ¬ M.shared (M.start op) ∧ doors.lockExclusive p) :
      Step s t (s.enter t (M.obj op) p (.acquire op))
  | proceed {s' : State I S T O L R P W} (h : Proceed M N doors s t s') : Step s t s'

/-- まだ何も始めていない `d` から動く系。 -/
def lts (T : Type*) [DecidableEq T] (d : I → S) : Lts (State I S T O L R P W) T where
  init s := s = ⟨fun _ => N.init, ⟨d, []⟩, fun _ => none⟩
  step s t s' := Step M N doors s t s'

variable {M N} {s : State I S T O L R P W} {t : T} {i j : I} {p : P} {c : Call O L R}
  {o : StepResult P W}

omit [DecidableEq I] [DecidableEq T] in
/-- 持ち主を変えない access では、区間の側では何も起きない。 -/
theorem follow_still {w : World I S T O L R} {e : Effect}
    (h : e ≠ .takeShared ∧ e ≠ .takeExclusive ∧ e ≠ .dropShared ∧ e ≠ .dropExclusive ∧
      e ≠ .downgrade) : World.follow M w t c e = w := by
  obtain ⟨h₁, h₂, h₃, h₄, h₅⟩ := h
  cases e <;> first | contradiction | cases c <;> rfl

theorem State.enter_locks_self : (s.enter t i p c).locks i = (s.locks i).goto t p :=
  Function.update_self i _ _

theorem State.enter_locks_of_ne (h : j ≠ i) : (s.enter t i p c).locks j = s.locks j :=
  Function.update_of_ne h _ _

theorem State.access_locks_self : (s.access M N t i c o).locks i = (s.locks i).after N t o :=
  Function.update_self i _ _

theorem State.access_locks_of_ne (h : j ≠ i) : (s.access M N t i c o).locks j = s.locks j :=
  Function.update_of_ne h _ _

end System

/-! ## 区間から数えた持ち主 -/

/-- 性質 `Q` を満たす所に居る、対象 `i` の区間の thread。 -/
noncomputable def holder (M : Sections I S O L R) (Q : L → Prop) (i : I) (x : Record T O L R) :
    Multiset T :=
  open Classical in
  if M.obj x.op = i ∧ ∃ l, x.status = .running l ∧ Q l then {x.thread} else 0

noncomputable def holders (M : Sections I S O L R) (Q : L → Prop) (i : I)
    (rs : List (Record T O L R)) : Multiset T :=
  (rs.map (holder M Q i)).sum

section Holders

variable {M : Sections I S O L R} {Q : L → Prop} {i : I} {t : T} {op : O} {l : L}
  {rs : List (Record T O L R)} {n : Nat} {st : Status L R}

theorem holder_running (h : Q l) : holder M Q (M.obj op) ⟨t, op, .running l⟩ = {t} :=
  if_pos ⟨rfl, l, rfl, h⟩

theorem holder_running_not (h : ¬ Q l) : holder M Q i ⟨t, op, .running l⟩ = 0 := by
  refine if_neg ?_
  rintro ⟨-, l', hl', hq⟩
  cases hl'
  exact h hq

theorem holder_finished {r : R} : holder M Q i ⟨t, op, .finished r⟩ = 0 := by
  refine if_neg ?_
  rintro ⟨-, l', hl', -⟩
  cases hl'

theorem holder_of_ne {x : Record T O L R} (h : M.obj x.op ≠ i) : holder M Q i x = 0 :=
  if_neg fun hx => h hx.1

theorem holders_nil : holders M Q i ([] : List (Record T O L R)) = 0 := rfl

theorem holders_snoc (x : Record T O L R) :
    holders M Q i (rs ++ [x]) = holder M Q i x + holders M Q i rs := by
  simp [holders, add_comm]

theorem holders_mid (pre post : List (Record T O L R)) (x : Record T O L R) :
    holders M Q i (pre ++ x :: post) = holder M Q i x + holders M Q i (pre ++ post) := by
  simp [holders, add_left_comm]

theorem mem_holders : t ∈ holders M Q i rs ↔
    ∃ x ∈ rs, x.thread = t ∧ M.obj x.op = i ∧ ∃ l, x.status = .running l ∧ Q l := by
  induction rs with
  | nil => simp [holders_nil]
  | cons x rs ih =>
    have hcons : holders M Q i (x :: rs) = holder M Q i x + holders M Q i rs := by simp [holders]
    rw [hcons, Multiset.mem_add, ih]
    by_cases hx : M.obj x.op = i ∧ ∃ l, x.status = .running l ∧ Q l
    · rw [holder, if_pos hx, Multiset.mem_singleton]
      constructor
      · rintro (rfl | ⟨y, hy, hrest⟩)
        · exact ⟨x, List.mem_cons_self, rfl, hx⟩
        · exact ⟨y, List.mem_cons_of_mem _ hy, hrest⟩
      · rintro ⟨y, hy, rfl, hrest⟩
        rcases List.mem_cons.mp hy with rfl | hy
        · exact Or.inl rfl
        · exact Or.inr ⟨y, hy, rfl, hrest⟩
    · rw [holder, if_neg hx]
      constructor
      · rintro (h | ⟨y, hy, hrest⟩)
        · exact (Multiset.notMem_zero t h).elim
        · exact ⟨y, List.mem_cons_of_mem _ hy, hrest⟩
      · rintro ⟨y, hy, hthread, hrest⟩
        rcases List.mem_cons.mp hy with rfl | hy
        · exact (hx hrest).elim
        · exact Or.inr ⟨y, hy, hthread, hrest⟩

/-- 区間が動いている thread は、その区間の lock を持っている。 -/
theorem mem_holders_of_running (h : rs[n]? = some ⟨t, op, .running l⟩) (hl : Q l) :
    t ∈ holders M Q (M.obj op) rs :=
  mem_holders.mpr ⟨_, List.mem_of_getElem? h, rfl, rfl, l, rfl, hl⟩

/-- 番号の指す所で記録を分ける。 -/
theorem split_setStatus (h : rs[n]? = some ⟨t, op, st⟩) :
    ∃ pre post, rs = pre ++ ⟨t, op, st⟩ :: post ∧
      ∀ st', setStatus rs n st' = pre ++ ⟨t, op, st'⟩ :: post := by
  obtain ⟨hlt, hx⟩ := List.getElem?_eq_some_iff.mp h
  refine ⟨rs.take n, rs.drop (n + 1), ?_, fun st' => ?_⟩
  · rw [← hx, List.getElem_cons_drop, List.take_append_drop]
  · rw [setStatus, List.modify_eq_take_cons_drop hlt, hx]

theorem setStatus_of_thread {u : T} (hne : u ≠ t) (h : rs[n]? = some ⟨t, op, st⟩)
    {st' : Status L R} {m : Nat} {x : Record T O L R} (hx : x.thread = u) (hm : rs[m]? = some x) :
    (setStatus rs n st')[m]? = some x := by
  rw [setStatus, List.getElem?_modify]
  by_cases hnm : n = m
  · subst hnm
    rw [h] at hm
    cases hm
    exact (hne hx.symm).elim
  · simpa [hnm] using hm

theorem mem_setStatus (h : rs[n]? = some ⟨t, op, st⟩) {st' : Status L R} {x : Record T O L R}
    (hx : x ∈ setStatus rs n st') : x ∈ rs ∨ x.thread = t := by
  obtain ⟨pre, post, hrs, hset⟩ := split_setStatus h
  rw [hset, List.mem_append, List.mem_cons] at hx
  rw [hrs, List.mem_append, List.mem_cons]
  rcases hx with hx | rfl | hx
  · exact Or.inl (Or.inl hx)
  · exact Or.inr rfl
  · exact Or.inl (Or.inr (Or.inr hx))

/-- 一つの区間の様子を置き換えても、他の区間の持ち主は変わらない。 -/
theorem holders_setStatus (h : rs[n]? = some ⟨t, op, st⟩) :
    ∃ m, holders M Q i rs = holder M Q i ⟨t, op, st⟩ + m ∧
      ∀ st', holders M Q i (setStatus rs n st') = holder M Q i ⟨t, op, st'⟩ + m := by
  obtain ⟨pre, post, hrs, hset⟩ := split_setStatus h
  refine ⟨holders M Q i (pre ++ post), ?_, fun st' => ?_⟩
  · rw [hrs, holders_mid]
  · rw [hset, holders_mid]

/-- 数え方の変わらない置き換え。 -/
theorem holders_setStatus_of_eq (h : rs[n]? = some ⟨t, op, st⟩) {st' : Status L R}
    (heq : holder M Q i ⟨t, op, st'⟩ = holder M Q i ⟨t, op, st⟩) :
    holders M Q i (setStatus rs n st') = holders M Q i rs := by
  obtain ⟨m, hm, hset⟩ := holders_setStatus (M := M) (Q := Q) (i := i) h
  rw [hset, hm, heq]

theorem holders_setStatus_of_ne (h : rs[n]? = some ⟨t, op, st⟩) (hi : M.obj op ≠ i)
    (st' : Status L R) : holders M Q i (setStatus rs n st') = holders M Q i rs :=
  holders_setStatus_of_eq h ((holder_of_ne hi).trans (holder_of_ne hi).symm)

/-- 数えられていた区間が数えられなくなる置き換え。 -/
theorem holders_setStatus_erase [DecidableEq T] (h : rs[n]? = some ⟨t, op, .running l⟩) (hl : Q l)
    {st' : Status L R} (hzero : holder M Q (M.obj op) ⟨t, op, st'⟩ = 0) :
    holders M Q (M.obj op) (setStatus rs n st') = (holders M Q (M.obj op) rs).erase t := by
  obtain ⟨m, hm, hset⟩ := holders_setStatus (M := M) (Q := Q) (i := M.obj op) h
  rw [hset, hm, hzero, holder_running hl, Multiset.singleton_add, Multiset.erase_cons_head,
    zero_add]

/-- 数えられていなかった区間が数えられるようになる置き換え。 -/
theorem holders_setStatus_cons (h : rs[n]? = some ⟨t, op, st⟩) (hl : Q l)
    (hzero : holder M Q (M.obj op) ⟨t, op, st⟩ = 0) :
    holders M Q (M.obj op) (setStatus rs n (.running l)) = t ::ₘ holders M Q (M.obj op) rs := by
  obtain ⟨m, hm, hset⟩ := holders_setStatus (M := M) (Q := Q) (i := M.obj op) h
  rw [hset, hm, hzero, holder_running hl, Multiset.singleton_add, zero_add]

end Holders

/-! ## 区間を一人で進める -/

/-- lock に触れない、区間の中の一歩。 -/
def Inner (M : Sections I S O L R) (p q : L × S) : Prop :=
  M.Alone p q ∧ (M.shared q.1 ↔ M.shared p.1)

/-- 誰かが、始めた操作の続きの一歩を行う。 -/
def Proceeds [DecidableEq I] [DecidableEq T] (M : Sections I S O L R) (N : Program P W)
    (doors : Doors P) (s s' : State I S T O L R P W) : Prop :=
  ∃ t, Proceed M N doors s t s'

/-- 呼び出しの外に居る thread は、自分の区間を一人で進められる。 -/
theorem proceeds_inner [DecidableEq I] [DecidableEq T] {M : Sections I S O L R} {N : Program P W}
    {doors : Doors P} {s : State I S T O L R P W} {t : T} {n : Nat} {op : O} {p q : L × S}
    (hidle : s.Idle N t) (hn : s.world.records[n]? = some ⟨t, op, .running p.1⟩)
    (hp : s.world.data (M.obj op) = p.2) (hsteps : Relation.ReflTransGen (Inner M) p q) :
    ∃ s', Relation.ReflTransGen (Proceeds M N doors) s s' ∧ s'.locks = s.locks ∧
      s'.call = s.call ∧ s'.world.data = Function.update s.world.data (M.obj op) q.2 ∧
      s'.world.records = setStatus s.world.records n (.running q.1) := by
  induction hsteps with
  | refl =>
    obtain ⟨pre, post, hrs, hset⟩ := split_setStatus hn
    refine ⟨s, .refl, rfl, rfl, ?_, ?_⟩
    · rw [← hp, Function.update_eq_self]
    · rw [hset, ← hrs]
  | @tail q q' _ hstep ih =>
    obtain ⟨s₁, hrun, hlocks, hcall, hdata, hrecords⟩ := ih
    have hn' : s₁.world.records[n]? = some ⟨t, op, .running q.1⟩ := by
      rw [hrecords, setStatus, List.getElem?_modify_eq, hn]
      rfl
    have hnow : M.step q.1 (s₁.world.data (M.obj op)) q'.1 q'.2 := by
      rw [hdata, Function.update_self]
      exact hstep.1
    have hidle' : s₁.Idle N t := by
      intro i
      rw [hlocks]
      exact hidle i
    refine ⟨_, hrun.tail ⟨t, .move hidle' hn' hnow hstep.2⟩, hlocks, hcall, ?_, ?_⟩
    · show Function.update s₁.world.data (M.obj op) q'.2 = _
      rw [hdata, Function.update_idem]
    · show setStatus s₁.world.records n (.running q'.1) = _
      rw [hrecords, setStatus, setStatus, List.modify_modify_eq]
      rfl

/-! ## 不変条件 -/

/-- 排他で持つ所。 -/
def Exclusive (M : Sections I S O L R) (l : L) : Prop := ¬ M.shared l

/-- thread の呼び出しは、lock の居場所の種類に合っている。 -/
inductive Agrees (M : Sections I S O L R) (s : State I S T O L R P W) (t : T) (i : I) : Phase → Prop
  | idle : Agrees M s t i .idle
  | lockShared {op : O} (hc : s.call t = some (i, .acquire op)) (hi : M.obj op = i)
      (hl : M.shared (M.start op)) : Agrees M s t i .lockShared
  | lockExclusive {op : O} (hc : s.call t = some (i, .acquire op)) (hi : M.obj op = i)
      (hl : ¬ M.shared (M.start op)) : Agrees M s t i .lockExclusive
  | unlockShared {n : Nat} {op : O} {l : L} {r : R} (hc : s.call t = some (i, .release n r))
      (hn : s.world.records[n]? = some ⟨t, op, .running l⟩) (hi : M.obj op = i) (hl : M.shared l)
      (hr : M.result l = some r) : Agrees M s t i .unlockShared
  | unlockExclusive {n : Nat} {op : O} {l : L} {r : R} (hc : s.call t = some (i, .release n r))
      (hn : s.world.records[n]? = some ⟨t, op, .running l⟩) (hi : M.obj op = i) (hl : ¬ M.shared l)
      (hr : M.result l = some r) : Agrees M s t i .unlockExclusive
  | downgrade {n : Nat} {op : O} {l l' : L} (hc : s.call t = some (i, .downgrade n l'))
      (hn : s.world.records[n]? = some ⟨t, op, .running l⟩) (hi : M.obj op = i) (hl : ¬ M.shared l)
      (hl' : M.shared l') (h : M.step l (s.world.data i) l' (s.world.data i)) :
      Agrees M s t i .downgrade
  | waking {c : Call O L R} (hc : s.call t = some (i, c)) : Agrees M s t i .waking

section Agrees

variable {M : Sections I S O L R} {s s' : State I S T O L R P W} {t u : T} {i : I} {p : Phase}

/-- 呼び出しと区間が変わらなければ、合ったままである。 -/
theorem Agrees.keep (h : Agrees M s u i p) (hcall : s'.call u = s.call u)
    (hrec : ∀ (n : Nat) (x : Record T O L R), x.thread = u → s.world.records[n]? = some x →
      s'.world.records[n]? = some x)
    (hdata : u ∈ holders M (Exclusive M) i s.world.records → s'.world.data i = s.world.data i) :
    Agrees M s' u i p := by
  cases h with
  | idle => exact .idle
  | lockShared hc hi hl => exact .lockShared (hcall.trans hc) hi hl
  | lockExclusive hc hi hl => exact .lockExclusive (hcall.trans hc) hi hl
  | unlockShared hc hn hi hl hr =>
    exact .unlockShared (hcall.trans hc) (hrec _ _ rfl hn) hi hl hr
  | unlockExclusive hc hn hi hl hr =>
    exact .unlockExclusive (hcall.trans hc) (hrec _ _ rfl hn) hi hl hr
  | downgrade hc hn hi hl hl' hstep =>
    subst hi
    have hsame := hdata (mem_holders_of_running hn hl)
    exact .downgrade (hcall.trans hc) (hrec _ _ rfl hn) rfl hl hl' (by rw [hsame]; exact hstep)
  | waking hc => exact .waking (hcall.trans hc)

/-- 呼び出しの途中に居るのは、その呼び出しの lock でだけである。 -/
theorem Agrees.index (h : Agrees M s t i p) (hp : p ≠ .idle) : ∃ c, s.call t = some (i, c) := by
  cases h with
  | idle => exact (hp rfl).elim
  | lockShared hc | lockExclusive hc | unlockShared hc | unlockExclusive hc | downgrade hc
  | waking hc => exact ⟨_, hc⟩

/-- 一歩の後の呼び出しの種類。途中のままなら、区間の側では何も起きていない。 -/
theorem Phase.Step.next {w : World I S T O L R} {e : Effect} {q : Phase} (h : p.Step e q)
    (c : Call O L R) :
    q = .idle ∨ q = .waking ∨ q = p ∧ World.follow M w t c e = w := by
  cases h with
  | quiet | parkReader | parkWriter => exact Or.inr (Or.inr ⟨rfl, follow_still (by simp)⟩)
  | refuse | panic | takeShared | takeExclusive | unpark | rest => exact Or.inl rfl
  | dropShared hq | dropExclusive hq | downgrade hq => exact hq.imp_right Or.inl

end Agrees

section Invariant

variable [DecidableEq I] [DecidableEq T] (M : Sections I S O L R) (N : Program P W)
  (phase : P → Phase) (d : I → S)

/-- 到達可能な状態で成り立つこと。 -/
structure Inv (s : State I S T O L R P W) : Prop where
  locks : ∀ i, N.lts.Reachable (s.locks i)
  shared : ∀ i, (s.locks i).shared = holders M M.shared i s.world.records
  exclusive : ∀ i, (s.locks i).exclusive = holders M (Exclusive M) i s.world.records
  agrees : ∀ t i, Agrees M s t i (phase ((s.locks i).pc t))
  world : (M.lts T d).Reachable s.world

variable {M N phase d} {doors : Doors P} {s s' : State I S T O L R P W} {t u : T} {i : I}

/-- 排他の区間が動いている対象では、他の区間は動いていない。 -/
theorem Inv.alone (hN : Excludes T N) (h : Inv M N phase d s) {pre post : List (Record T O L R)}
    {op : O} {l : L} (hs : s.world.records = pre ++ ⟨t, op, .running l⟩ :: post)
    (hl : ¬ M.shared l) : ∀ x ∈ pre ++ post, M.obj x.op = M.obj op →
      ∃ r, x.status = .finished r := by
  have hmem : t ∈ holders M (Exclusive M) (M.obj op) s.world.records :=
    mem_holders.mpr ⟨⟨t, op, .running l⟩, by rw [hs]; simp, rfl, rfl, l, rfl, hl⟩
  rw [← h.exclusive] at hmem
  obtain ⟨hx, hz⟩ := hN _ (h.locks _) t hmem
  rw [h.exclusive, hs, holders_mid, holder_running (Q := Exclusive M) hl, Multiset.singleton_add,
    ← Multiset.cons_zero, Multiset.cons_inj_right] at hx
  rw [h.shared, hs, holders_mid, holder_running_not hl, zero_add] at hz
  intro x hmem hobj
  cases hst : x.status with
  | finished r => exact ⟨r, rfl⟩
  | running m =>
    exfalso
    by_cases hm : M.shared m
    · have hin := mem_holders (Q := M.shared).mpr ⟨x, hmem, rfl, hobj, m, hst, hm⟩
      rw [hz] at hin
      exact Multiset.notMem_zero _ hin
    · have hin := mem_holders (Q := Exclusive M).mpr ⟨x, hmem, rfl, hobj, m, hst, hm⟩
      rw [hx] at hin
      exact Multiset.notMem_zero _ hin

/-- 呼び出しを始める一歩。 -/
theorem Inv.enter (hP : Phased N doors phase) (h : Inv M N phase d s) (hidle : s.Idle N t)
    {p : P} {n : Need} {c : Call O L R} (he : N.enter N.idle n p) (hn : n.Met (s.locks i) t)
    (hagree : Agrees M (s.enter t i p c) t i (phase p)) : Inv M N phase d (s.enter t i p c) := by
  refine ⟨fun j => ?_, fun j => ?_, fun j => ?_, fun v j => ?_, h.world⟩
  · rcases eq_or_ne j i with rfl | hj
    · rw [State.enter_locks_self]
      exact .step (h.locks j) (.enter (by rw [hidle j]; exact he) hn)
    · rw [State.enter_locks_of_ne hj]
      exact h.locks j
  · rcases eq_or_ne j i with rfl | hj
    · rw [State.enter_locks_self]
      exact h.shared j
    · rw [State.enter_locks_of_ne hj]
      exact h.shared j
  · rcases eq_or_ne j i with rfl | hj
    · rw [State.enter_locks_self]
      exact h.exclusive j
    · rw [State.enter_locks_of_ne hj]
      exact h.exclusive j
  · rcases eq_or_ne v t with rfl | hv
    · rcases eq_or_ne j i with rfl | hj
      · have hpc : ((s.locks j).goto v p).pc v = p := Function.update_self v _ _
        rw [State.enter_locks_self, hpc]
        exact hagree
      · rw [State.enter_locks_of_ne hj, hidle j, hP.idle]
        exact .idle
    · have hpc : ((s.enter t i p c).locks j).pc v = (s.locks j).pc v := by
        rcases eq_or_ne j i with rfl | hj
        · rw [State.enter_locks_self]
          exact Function.update_of_ne hv _ _
        · rw [State.enter_locks_of_ne hj]
      rw [hpc]
      exact (h.agrees v j).keep (Function.update_of_ne hv _ _) (fun _ _ _ hx => hx) fun _ => rfl

/-! ## access に伴う変化 -/

/-- 区間の側の変化が、access の effect に合っている。 -/
structure Followed (M : Sections I S O L R) (d : I → S) (w : World I S T O L R) (t : T) (i : I)
    (e : Effect) (w' : World I S T O L R) : Prop where
  world : (M.lts T d).Reachable w'
  data : w'.data = w.data
  kept : ∀ u, u ≠ t → ∀ (n : Nat) (x : Record T O L R), x.thread = u → w.records[n]? = some x →
    w'.records[n]? = some x
  shared : holders M M.shared i w'.records = e.sharedAfter t (holders M M.shared i w.records)
  exclusive : holders M (Exclusive M) i w'.records
    = e.exclusiveAfter t (holders M (Exclusive M) i w.records)
  other : ∀ j, j ≠ i → ∀ Q, holders M Q j w'.records = holders M Q j w.records
  back : ∀ x ∈ w'.records, x ∈ w.records ∨ x.thread = t

variable {w : World I S T O L R} {e : Effect}

theorem Followed.still (hw : (M.lts T d).Reachable w) (hs : ∀ m : Multiset T, e.sharedAfter t m = m)
    (hx : ∀ m : Multiset T, e.exclusiveAfter t m = m) : Followed M d w t i e w :=
  ⟨hw, rfl, fun _ _ _ _ _ h => h, (hs _).symm, (hx _).symm, fun _ _ _ => rfl, fun _ => Or.inl⟩

/-- 取れた access で、区間が始まる。 -/
theorem Followed.push {op : O} (hw : (M.lts T d).Reachable
      ⟨w.data, w.records ++ [⟨t, op, .running (M.start op)⟩]⟩)
    (hs : holder M M.shared (M.obj op) ⟨t, op, .running (M.start op)⟩
        + holders M M.shared (M.obj op) w.records
      = e.sharedAfter t (holders M M.shared (M.obj op) w.records))
    (hx : holder M (Exclusive M) (M.obj op) ⟨t, op, .running (M.start op)⟩
        + holders M (Exclusive M) (M.obj op) w.records
      = e.exclusiveAfter t (holders M (Exclusive M) (M.obj op) w.records)) :
    Followed M d w t (M.obj op) e
      ⟨w.data, w.records ++ [⟨t, op, .running (M.start op)⟩]⟩ := by
  refine ⟨hw, rfl, fun u _ n x _ hx => ?_, ?_, ?_, fun j hj Q => ?_, fun x hx => ?_⟩
  · rw [List.getElem?_append_left (List.getElem?_eq_some_iff.mp hx).1]
    exact hx
  · rw [holders_snoc]
    exact hs
  · rw [holders_snoc]
    exact hx
  · rw [holders_snoc, holder_of_ne (Ne.symm hj), zero_add]
  · rcases List.mem_append.mp hx with hx | hx
    · exact Or.inl hx
    · rw [List.mem_singleton.mp hx]
      exact Or.inr rfl

/-- 手放した access で、区間の様子が変わる。 -/
theorem Followed.set {n : Nat} {op : O} {st st' : Status L R} (hw : (M.lts T d).Reachable w)
    (hn : w.records[n]? = some ⟨t, op, st⟩)
    (hadv : M.Advance st (w.data (M.obj op)) st' (w.data (M.obj op)))
    (hs : holders M M.shared (M.obj op) (setStatus w.records n st')
      = e.sharedAfter t (holders M M.shared (M.obj op) w.records))
    (hx : holders M (Exclusive M) (M.obj op) (setStatus w.records n st')
      = e.exclusiveAfter t (holders M (Exclusive M) (M.obj op) w.records)) :
    Followed M d w t (M.obj op) e ⟨w.data, setStatus w.records n st'⟩ := by
  obtain ⟨pre, post, hrs, hset⟩ := split_setStatus hn
  refine ⟨?_, rfl, fun u hu m x hxu hm => setStatus_of_thread hu hn hxu hm, hs, hx,
    fun j hj Q => holders_setStatus_of_ne hn (Ne.symm hj) st', fun x => mem_setStatus hn⟩
  have hstep := Lts.Reachable.step hw (World.Step.advance hrs hadv)
  change (M.lts T d).Reachable ⟨_, _⟩ at hstep
  rw [Function.update_eq_self] at hstep
  rwa [hset]

/-- 取れた access の後に排他の持ち主が居なければ、動いている区間はすべて共有である。 -/
theorem Inv.lenient (h : Inv M N phase d s) (hx : (s.locks i).exclusive = 0) :
    ∀ x ∈ s.world.records, M.obj x.op = i → x.status.Lenient M := by
  intro x hmem hobj
  cases hst : x.status with
  | finished r => trivial
  | running l =>
    by_contra hl
    have hin := mem_holders (Q := Exclusive M).mpr ⟨x, hmem, rfl, hobj, l, hst, hl⟩
    rw [← h.exclusive, hx] at hin
    exact Multiset.notMem_zero _ hin

theorem Inv.settled (h : Inv M N phase d s) (hx : (s.locks i).exclusive = 0)
    (hs : (s.locks i).shared = 0) :
    ∀ x ∈ s.world.records, M.obj x.op = i → ∃ r, x.status = .finished r := by
  intro x hmem hobj
  have hlenient := h.lenient hx x hmem hobj
  cases hst : x.status with
  | finished r => exact ⟨r, rfl⟩
  | running l =>
    rw [hst] at hlenient
    have hin := mem_holders (Q := M.shared).mpr ⟨x, hmem, rfl, hobj, l, hst, hlenient⟩
    rw [← h.shared, hs] at hin
    exact (Multiset.notMem_zero _ hin).elim

/-- access の effect は、呼び出しの種類に合った変化を区間の側に起こす。 -/
theorem Inv.follow (hN : Excludes T N) (h : Inv M N phase d s) {c : Call O L R} {o : StepResult P W}
    {p q : Phase} (hc : s.call t = some (i, c)) (hstep : p.Step o.effect q)
    (hagree : Agrees M s t i p) (hafter : N.lts.Reachable ((s.locks i).after N t o)) :
    Followed M d s.world t i o.effect (World.follow M s.world t c o.effect) := by
  have hexcl := hN _ hafter
  change ∀ u ∈ o.effect.exclusiveAfter t (s.locks i).exclusive,
    o.effect.exclusiveAfter t (s.locks i).exclusive = {u} ∧
      o.effect.sharedAfter t (s.locks i).shared = 0 at hexcl
  generalize o.effect = e at hstep hexcl
  cases hstep with
  | quiet | rest | refuse | panic | parkReader | parkWriter =>
    rw [follow_still (by simp)]
    exact .still h.world (fun _ => rfl) fun _ => rfl
  | unpark he =>
    rw [follow_still (by rcases he with rfl | rfl <;> simp)]
    rcases he with rfl | rfl <;> exact .still h.world (fun _ => rfl) fun _ => rfl
  | takeShared =>
    cases hagree with
    | @lockShared op hc' hi hl =>
      obtain rfl : c = .acquire op := congrArg Prod.snd (Option.some.inj (hc.symm.trans hc'))
      subst hi
      -- 読み手が増えた後なので、書き手は居ない
      have hx : (s.locks (M.obj op)).exclusive = 0 := by
        by_contra hne
        obtain ⟨u, hu⟩ := Multiset.exists_mem_of_ne_zero hne
        exact Multiset.cons_ne_zero (hexcl u hu).2
      refine .push (.step h.world (.share hl (h.lenient hx))) ?_ ?_
      · rw [holder_running hl, Multiset.singleton_add]
        rfl
      · rw [holder_running_not (Q := Exclusive M) (not_not_intro hl), zero_add]
        rfl
  | takeExclusive =>
    cases hagree with
    | @lockExclusive op hc' hi hl =>
      obtain rfl : c = .acquire op := congrArg Prod.snd (Option.some.inj (hc.symm.trans hc'))
      subst hi
      obtain ⟨hx, hz⟩ := hexcl t (Multiset.mem_cons_self _ _)
      change t ::ₘ (s.locks (M.obj op)).exclusive = {t} at hx
      rw [← Multiset.cons_zero, Multiset.cons_inj_right] at hx
      refine .push (.step h.world (.exclude hl (h.settled hx hz))) ?_ ?_
      · rw [holder_running_not hl, zero_add]
        rfl
      · rw [holder_running (Q := Exclusive M) hl, Multiset.singleton_add]
        rfl
  | dropShared =>
    cases hagree with
    | @unlockShared n op l r hc' hn hi hl hr =>
      obtain rfl : c = .release n r := congrArg Prod.snd (Option.some.inj (hc.symm.trans hc'))
      subst hi
      refine .set h.world hn (.release hr) (holders_setStatus_erase hn hl holder_finished) ?_
      exact holders_setStatus_of_eq hn (holder_finished.trans
        (holder_running_not (Q := Exclusive M) (not_not_intro hl)).symm)
  | dropExclusive =>
    cases hagree with
    | @unlockExclusive n op l r hc' hn hi hl hr =>
      obtain rfl : c = .release n r := congrArg Prod.snd (Option.some.inj (hc.symm.trans hc'))
      subst hi
      refine .set h.world hn (.release hr) ?_
        (holders_setStatus_erase (Q := Exclusive M) hn hl holder_finished)
      exact holders_setStatus_of_eq hn (holder_finished.trans (holder_running_not hl).symm)
  | downgrade =>
    cases hagree with
    | @downgrade n op l l' hc' hn hi hl hl' hmove =>
      obtain rfl : c = .downgrade n l' := congrArg Prod.snd (Option.some.inj (hc.symm.trans hc'))
      subst hi
      exact .set h.world hn (.move hmove) (holders_setStatus_cons hn hl' (holder_running_not hl))
        (holders_setStatus_erase (Q := Exclusive M) hn hl
          (holder_running_not (Q := Exclusive M) (not_not_intro hl')))

/-- 語への access の一歩。 -/
theorem Inv.access (hM : N.Lawful) (hP : Phased N doors phase) (hN : Excludes T N)
    (h : Inv M N phase d s) {c : Call O L R} {o : StepResult P W} (hc : s.call t = some (i, c))
    (ha : N.access ((s.locks i).pc t) (s.locks i).word o) :
    Inv M N phase d (s.access M N t i c o) := by
  have hworld : (s.access M N t i c o).world = World.follow M s.world t c o.effect := rfl
  have hafter : N.lts.Reachable ((s.locks i).after N t o) := .step (h.locks i) (.access ha)
  have hstep := hP.access ha
  have hagree := h.agrees t i
  have hf := h.follow hN hc hstep hagree hafter
  have hq := hM.queued (h.locks i)
  obtain ⟨hw, hr⟩ := hM.access_ne ha
  -- 他の thread は、起こされても呼び出しの種類を変えない
  have hother : ∀ v, v ≠ t → phase (((s.locks i).after N t o).pc v) = phase ((s.locks i).pc v) := by
    intro v hv
    rcases hq.pc_other (o := o) hv with hsame | ⟨hp, hp'⟩ | ⟨hp, hp'⟩
    · rw [hsame]
    · rw [hp', hp, hP.writerWoken]
    · rw [hp', hp, hP.readerWoken]
  refine ⟨fun j => ?_, fun j => ?_, fun j => ?_, fun v j => ?_, hf.world⟩
  · rcases eq_or_ne j i with rfl | hj
    · rw [State.access_locks_self]
      exact hafter
    · rw [State.access_locks_of_ne hj]
      exact h.locks j
  · rcases eq_or_ne j i with rfl | hj
    · rw [State.access_locks_self, hworld, hf.shared, ← h.shared]
      rfl
    · rw [State.access_locks_of_ne hj, hworld, hf.other j hj]
      exact h.shared j
  · rcases eq_or_ne j i with rfl | hj
    · rw [State.access_locks_self, hworld, hf.exclusive, ← h.exclusive]
      rfl
    · rw [State.access_locks_of_ne hj, hworld, hf.other j hj]
      exact h.exclusive j
  · have hdata : (s.access M N t i c o).world.data j = s.world.data j := congrFun hf.data j
    rcases eq_or_ne v t with rfl | hv
    · rcases eq_or_ne j i with rfl | hj
      · rw [State.access_locks_self, hq.pc_self hw hr]
        rcases hstep.next (M := M) (w := s.world) (t := v) c with hidle | hwaking | ⟨hsame, hstill⟩
        · rw [hidle]
          exact .idle
        · rw [hwaking]
          exact .waking hc
        · rw [hsame]
          refine hagree.keep rfl (fun n x _ hx => ?_) fun _ => hdata
          rw [hworld, hstill]
          exact hx
      · -- 呼び出しは一つなので、他の lock では操作の外に居る
        rw [State.access_locks_of_ne hj]
        have hidle : phase ((s.locks j).pc v) = .idle := by
          by_contra hbusy
          obtain ⟨c', hc'⟩ := (h.agrees v j).index hbusy
          rw [hc] at hc'
          cases hc'
          exact hj rfl
        rw [hidle]
        exact .idle
    · have hphase : phase (((s.access M N t i c o).locks j).pc v) = phase ((s.locks j).pc v) := by
        rcases eq_or_ne j i with rfl | hj
        · rw [State.access_locks_self]
          exact hother v hv
        · rw [State.access_locks_of_ne hj]
      rw [hphase]
      exact (h.agrees v j).keep rfl (hf.kept v hv) fun _ => hdata

/-- 区間の中の一歩。 -/
theorem Inv.move (hP : Phased N doors phase) (hN : Excludes T N) (h : Inv M N phase d s)
    (hidle : s.Idle N t) {n : Nat} {op : O} {l l' : L} {u : S}
    (hn : s.world.records[n]? = some ⟨t, op, .running l⟩)
    (hstep : M.step l (s.world.data (M.obj op)) l' u) (hl : M.shared l' ↔ M.shared l) :
    Inv M N phase d (s.move n (M.obj op) u l') := by
  obtain ⟨pre, post, hrs, hset⟩ := split_setStatus hn
  have hcount : ∀ (Q : L → Prop) (j : I), (Q l' ↔ Q l) →
      holders M Q j (setStatus s.world.records n (.running l'))
        = holders M Q j s.world.records := by
    intro Q j hQ
    by_cases hj : M.obj op = j
    · subst hj
      by_cases hl : Q l
      · exact holders_setStatus_of_eq hn
          ((holder_running (hQ.mpr hl)).trans (holder_running hl).symm)
      · exact holders_setStatus_of_eq hn ((holder_running_not fun hl' => hl (hQ.mp hl')).trans
          (holder_running_not hl).symm)
    · exact holders_setStatus_of_ne hn hj _
  refine ⟨h.locks, fun j => ?_, fun j => ?_, fun v j => ?_, ?_⟩
  · exact (h.shared j).trans (hcount _ j hl).symm
  · exact (h.exclusive j).trans (hcount (Exclusive M) j (not_congr hl)).symm
  · rcases eq_or_ne v t with rfl | hv
    · show Agrees M _ v j (phase ((s.locks j).pc v))
      rw [hidle j, hP.idle]
      exact .idle
    · refine (h.agrees v j).keep rfl (fun m x hx hm => setStatus_of_thread hv hn hx hm)
        fun hmem => ?_
      -- 排他の持ち主が他に居る対象では、この thread は動けない
      refine Function.update_of_ne ?_ _ _
      rintro rfl
      rw [← h.exclusive] at hmem
      obtain ⟨hx, hz⟩ := hN _ (h.locks _) v hmem
      by_cases hm : M.shared l
      · have hin := mem_holders_of_running (M := M) hn hm
        rw [← h.shared, hz] at hin
        exact Multiset.notMem_zero _ hin
      · have hin := mem_holders_of_running (M := M) (Q := Exclusive M) hn hm
        rw [← h.exclusive, hx, Multiset.mem_singleton] at hin
        exact hv hin.symm
  · have hmove := Lts.Reachable.step h.world (World.Step.advance hrs (.move hstep))
    rwa [← hset] at hmove

/-- 始めた操作の続きは、不変条件を保つ。 -/
theorem Inv.proceed (hM : N.Lawful) (hP : Phased N doors phase) (hN : Excludes T N)
    (h : Inv M N phase d s) (hs : Proceed M N doors s t s') : Inv M N phase d s' := by
  have hcall : ∀ {i p c}, (s.enter t i p c).call t = some (i, c) := Function.update_self t _ _
  cases hs with
  | unlockShared hidle hn hl hr =>
    obtain ⟨he, hphase⟩ := hP.unlockShared
    refine h.enter hP hidle he ?_ (by rw [hphase]; exact .unlockShared hcall hn rfl hl hr)
    show t ∈ (s.locks _).shared
    rw [h.shared]
    exact mem_holders_of_running hn hl
  | unlockExclusive hidle hn hl hr =>
    obtain ⟨he, hphase⟩ := hP.unlockExclusive
    refine h.enter hP hidle he ?_ (by rw [hphase]; exact .unlockExclusive hcall hn rfl hl hr)
    show t ∈ (s.locks _).exclusive
    rw [h.exclusive]
    exact mem_holders_of_running hn hl
  | downgrade hidle hn hl hl' hmove =>
    obtain ⟨he, hphase⟩ := hP.downgrade
    refine h.enter hP hidle he ?_ (by rw [hphase]; exact .downgrade hcall hn rfl hl hl' hmove)
    show t ∈ (s.locks _).exclusive
    rw [h.exclusive]
    exact mem_holders_of_running hn hl
  | access hc ha => exact h.access hM hP hN hc ha
  | move hidle hn hmove hl => exact h.move hP hN hidle hn hmove hl

/-- どの一歩も不変条件を保つ。 -/
theorem Inv.step (hM : N.Lawful) (hP : Phased N doors phase) (hN : Excludes T N)
    (h : Inv M N phase d s) (hs : Step M N doors s t s') : Inv M N phase d s' := by
  have hcall : ∀ {i p c}, (s.enter t i p c).call t = some (i, c) := Function.update_self t _ _
  cases hs with
  | lock hidle hp =>
    rcases hp with ⟨hl, hp⟩ | ⟨hl, hp⟩
    · obtain ⟨he, hphase⟩ := hP.lockShared hp
      exact h.enter hP hidle he trivial (by rw [hphase]; exact .lockShared hcall rfl hl)
    · obtain ⟨he, hphase⟩ := hP.lockExclusive hp
      exact h.enter hP hidle he trivial (by rw [hphase]; exact .lockExclusive hcall rfl hl)
  | proceed hgo => exact h.proceed hM hP hN hgo

theorem Inv.init (hP : Phased N doors phase) :
    Inv M N phase d (⟨fun _ => N.init, ⟨d, []⟩, fun _ => none⟩ : State I S T O L R P W) := by
  refine ⟨fun _ => .init rfl, fun _ => rfl, fun _ => rfl, fun t i => ?_, .init rfl⟩
  show Agrees M _ t i (phase N.idle)
  rw [hP.idle]
  exact .idle

theorem inv_of_reachable (hM : N.Lawful) (hP : Phased N doors phase) (hN : Excludes T N)
    (h : (lts M N doors T d).Reachable s) : Inv M N phase d s := by
  refine h.invariant (fun s hs => ?_) fun s t s' _ hi hstep => hi.step hM hP hN hstep
  rw [show s = _ from hs]
  exact .init hP

theorem reachable_proceeds (h : (lts M N doors T d).Reachable s)
    (hs : Relation.ReflTransGen (Proceeds M N doors) s s') : (lts M N doors T d).Reachable s' :=
  star_preserves (P := (lts M N doors T d).Reachable)
    (fun _ _ hr ⟨_, hgo⟩ => .step hr (.proceed hgo)) hs h

/-- lock の実装の上の実行は、区間の系の実行になっている。 -/
theorem refines (hM : N.Lawful) (hP : Phased N doors phase) (hN : Excludes T N)
    (h : (lts M N doors T d).Reachable s) : (M.lts T d).Reachable s.world :=
  (inv_of_reachable hM hP hN h).world

end Invariant

end Infra.Locked
