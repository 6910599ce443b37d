import Neocache.Cache.Ops
import Neocache.Properties.LockExclusion

/-!
# 待たない操作の答え

`try_lock_shared` と `try_lock_exclusive` が偽を返したとき、本当に lock が塞がっていたかどうか。

`try_lock_shared` は、書き手が居るか、読み手が上限まで居るときにしか断らない。
`try_lock_exclusive` の CAS は語が 0 のときにしか通らないので、書き手の印だけが残った語
（`WRITERS_PARKED`）でも断る。この語では誰も lock を持っていない（`not_held_of_writersParked`）。
語が 0 でなく誰も持っていないのはこの語に限るので（`held_of_ne`）、この語で CAS をしないことが、
答えの正しい実行をちょうど表す。
-/

namespace Neocache

open Infra

/-! ## API の答え -/

section Api

variable {K V : Type*} [DecidableEq K] {w : Word} {c c' : NeoCache K V} {k : K} {busy : Bool}

omit [DecidableEq K] in
/-- lock を取った後の `get` と `get_mut` は、`Locked` を返さない。 -/
theorem keyOp_not_locked {r : Except Fault (Ret K V × NeoCache K V)} :
    (r.map fun
      | (.value (some v), c') => (TryResult.present v, c')
      | (_, c') => (.absent, c')) ≠ .ok (.locked, c') := by
  intro h
  cases r with
  | error f => cases h
  | ok p =>
    simp only [Except.map] at h
    split at h <;> cases h

theorem tryGet_locked (h : c.tryGet w busy k = .ok (.locked, c')) : busy = true := by
  cases busy with
  | true => rfl
  | false => exact (keyOp_not_locked h).elim

theorem tryGetMut_locked {f : K → V → V} (h : c.tryGetMut w busy k f = .ok (.locked, c')) :
    busy = true := by
  cases busy with
  | true => rfl
  | false => exact (keyOp_not_locked h).elim

theorem tryEntry_none {use : Entry K V → Except Fault (ShardData K V)}
    (h : c.tryEntry w busy k use = .ok (false, c')) : busy = true := by
  cases busy with
  | true => rfl
  | false =>
    unfold NeoCache.tryEntry at h
    simp only [Bool.false_eq_true, if_false] at h
    split at h
    · cases h
    · split at h
      · cases h
      · next σ _ => cases hu : use (σ.entry (c.hasher k) k) <;> rw [hu] at h <;> cases h

end Api

namespace RawRwLock

open Infra.Parking Infra.Packed LockProtocol

variable {T : Type*} [DecidableEq T] {w : Word} {s : System T w} {t : T}

/-! ## 断る一歩 -/

/-- `try_lock_shared` の途中。 -/
def Pc.inTryLockShared : Pc w → Bool
  | .tryLockSharedFast .tryLock | .tryLockSharedFastCas .tryLock _ => true
  | .tryLockSharedSlow | .tryLockSharedSlowCas _ => true
  | _ => false

/-- `try_lock` がこの一歩で返す答え。まだ返さなければ `none`。 -/
def Pc.answer (c : Chance) (word : BitVec w.bits) (p : Pc w) : Option Bool :=
  match p.access c word with
  | some ⟨_, _, .refuse⟩ => some false
  | some ⟨_, _, .takeShared⟩ | some ⟨_, _, .takeExclusive⟩ => some true
  | _ => none

/-- 桁をすべて立てた値は書き手を表すので、読み手はその手前までである。 -/
def maxReaders (w : Word) : Nat := maxCount w.bits - 1

/-- 誰かが持っている。 -/
def Held (s : System T w) : Prop := s.shared ≠ 0 ∨ s.exclusive ≠ 0

/-- `try_lock_exclusive` は、語が 0 でなければ断る。 -/
theorem answer_tryLockExclusive {c : Chance} {v : BitVec w.bits} :
    (Pc.tryLockExclusive : Pc w).answer c v = some (decide (v = 0)) := by
  unfold Pc.answer Pc.access
  by_cases hv : v = 0
  · rw [if_pos hv, decide_eq_true hv]
  · rw [if_neg hv, decide_eq_false hv]

theorem tryLockSharedNext_refuse {v : BitVec w.bits} (h : (tryLockSharedNext v).effect = .refuse) :
    count v = maxCount w.bits ∨ count v + 1 = maxCount w.bits := by
  unfold tryLockSharedNext at h
  split at h
  · cases h
  · next hnone =>
    cases hadd : checkedAdd w v (oneReader w) with
    | none => exact Or.inl (checkedAdd_eq_none hadd)
    | some u => exact Or.inr (increment_eq_none hadd hnone)

/-- `try_lock_shared` が断るのは、最後に読んだ語が書き手か、上限の読み手を表すときに限る。 -/
theorem answer_tryLockShared {c : Chance} {v : BitVec w.bits} {p : Pc w}
    (hp : p.inTryLockShared = true) (h : p.answer c v = some false) :
    count v = maxCount w.bits ∨ count v + 1 = maxCount w.bits := by
  have hrefuse : ∃ o, p.access c v = some o ∧ o.effect = .refuse := by
    unfold Pc.answer at h
    split at h
    · exact ⟨_, ‹_›, rfl⟩
    · cases h
    · cases h
    · cases h
  obtain ⟨o, ho, heff⟩ := hrefuse
  cases p with
  | tryLockSharedFast call =>
    simp only [Pc.access] at ho
    split at ho <;> obtain rfl := Option.some.inj ho <;> cases heff
  | tryLockSharedFastCas call inc =>
    simp only [Pc.access] at ho
    split at ho <;> obtain rfl := Option.some.inj ho <;> cases heff
  | tryLockSharedSlow =>
    obtain rfl := Option.some.inj ho
    exact tryLockSharedNext_refuse heff
  | tryLockSharedSlowCas inc =>
    simp only [Pc.access] at ho
    split at ho <;> obtain rfl := Option.some.inj ho
    · cases heff
    · exact tryLockSharedNext_refuse heff
  | _ => cases hp

/-! ## 語と持ち主 -/

/-- 書き手の印だけの語では、誰も持っていない。 -/
theorem not_held_of_writersParked (h : (program w).lts.Reachable s)
    (hw : s.word = writersParked w) : ¬ Held s := by
  have hdecode : decode s.word = ⟨0, true, false⟩ := by rw [hw, decode_writersParked]
  have hlim := (limit w).one_lt
  have hzero : (decode s.word).readers = 0 := by rw [hdecode]
  obtain ⟨hx, hcard, -⟩ := (sound_of_reachable h).holding.of_ne_max
    (show (decode s.word).readers ≠ _ by omega)
  have hcard' : s.shared.card = 0 := hcard.symm.trans hzero
  rintro (hs | hs)
  · exact hs (Multiset.card_eq_zero.mp hcard')
  · exact hs hx

/-- 誰も持っていない語は、0 と、書き手の印だけの語の二つである。 -/
theorem held_of_ne (h : (program w).lts.Reachable s) (h0 : s.word ≠ 0)
    (hw : s.word ≠ writersParked w) : Held s := by
  by_contra hnone
  obtain ⟨hshared, hexclusive⟩ := not_or.mp hnone
  rcases (sound_of_reachable h).holding with ⟨hx, -, -⟩ | ⟨-, hcard, -, hreaders⟩
  · refine hexclusive ?_
    rw [show s.exclusive = _ from hx]
    exact Multiset.singleton_ne_zero _
  · have hempty : s.shared = 0 := not_not.mp hshared
    have hzero : (decode s.word).readers = 0 := by
      rw [show (decode s.word).readers = s.shared.card from hcard, hempty, Multiset.card_zero]
    -- 読み手の印は書き手が居る間にしか立たないので、残るのは書き手の印だけである
    have hdecode : decode s.word = ⟨0, (decode s.word).writersParked, false⟩ := by
      rw [← hzero, ← show (decode s.word).readersParked = false from hreaders]
    cases hp : (decode s.word).writersParked with
    | false => exact h0 (decode_inj (by rw [hdecode, hp, decode_zero]))
    | true => exact hw (decode_inj (by rw [hdecode, hp, decode_writersParked]))

theorem holder_of_tryLockShared (h : (program w).lts.Reachable s)
    (hc : count s.word = maxCount w.bits ∨ count s.word + 1 = maxCount w.bits) :
    s.exclusive ≠ 0 ∨ s.shared.card = maxReaders w := by
  rcases word_of_reachable h with ⟨-, ⟨u, hu⟩, -⟩ | ⟨hne, hcard, -⟩
  · rw [hu]
    exact Or.inl (Multiset.singleton_ne_zero u)
  · rcases hc with hmax | hmax
    · exact (hne (and_oneWriter_eq_self.mpr hmax)).elim
    · refine Or.inr (hcard.symm.trans ?_)
      unfold maxReaders
      rw [← hmax]
      rfl

/-! ## 正しい答え -/

/--
thread `t` がこれから行う一歩で、待たない操作が「塞がっている」と答えるなら、本当に塞がっている。

`try_get` は `try_lock_shared` の、`try_get_mut` と `try_entry` は `try_lock_exclusive` の答え `b` を
受けて、取れなければそのまま戻る。
-/
structure Reports (K V : Type*) [DecidableEq K] (s : System T w) (t : T) : Prop where
  exclusive : s.pc t = .tryLockExclusive → ∀ c, (s.pc t).answer c s.word = some false → Held s
  shared : (s.pc t).inTryLockShared = true → ∀ c, (s.pc t).answer c s.word = some false →
    s.exclusive ≠ 0 ∨ s.shared.card = maxReaders w
  tryGet : (s.pc t).inTryLockShared = true → ∀ c b, (s.pc t).answer c s.word = some b →
    ∀ (m m' : NeoCache K V) (k : K), m.tryGet w (!b) k = .ok (.locked, m') → Held s
  tryGetMut : s.pc t = .tryLockExclusive → ∀ c b, (s.pc t).answer c s.word = some b →
    ∀ (m m' : NeoCache K V) (k : K) (f : K → V → V),
      m.tryGetMut w (!b) k f = .ok (.locked, m') → Held s
  tryEntry : s.pc t = .tryLockExclusive → ∀ c b, (s.pc t).answer c s.word = some b →
    ∀ (m m' : NeoCache K V) (k : K) (use : Entry K V → Except Fault (ShardData K V)),
      m.tryEntry w (!b) k use = .ok (false, m') → Held s

/-- 印だけの語で CAS をする一歩。 -/
def MeetsFlag (s : System T w) (t : T) : Prop :=
  s.pc t = .tryLockExclusive ∧ s.word = writersParked w

theorem writersParked_ne_zero : writersParked w ≠ 0 := by
  intro h
  have hdecode := congrArg decode h
  rw [decode_writersParked, decode_zero] at hdecode
  cases hdecode

theorem reports_of_not_meetsFlag (K V : Type*) [DecidableEq K] (h : (program w).lts.Reachable s)
    (hflag : ¬ MeetsFlag s t) : Reports K V s t := by
  have hexclusive : s.pc t = .tryLockExclusive → ∀ c, (s.pc t).answer c s.word = some false →
      Held s := by
    intro ht c hc
    rw [ht, answer_tryLockExclusive] at hc
    exact held_of_ne h (of_decide_eq_false (Option.some.inj hc)) fun hw => hflag ⟨ht, hw⟩
  have hshared : (s.pc t).inTryLockShared = true → ∀ c, (s.pc t).answer c s.word = some false →
      s.exclusive ≠ 0 ∨ s.shared.card = maxReaders w :=
    fun ht c hc => holder_of_tryLockShared h (answer_tryLockShared ht hc)
  have hrefused : ∀ {b : Bool}, (!b) = true → b = false := by simp
  refine ⟨hexclusive, hshared, ?_, ?_, ?_⟩
  · intro ht c b hb m m' k hlocked
    rw [hrefused (tryGet_locked hlocked)] at hb
    rcases hshared ht c hb with hx | hcard
    · exact Or.inr hx
    · refine Or.inl fun hnone => ?_
      rw [hnone, Multiset.card_zero] at hcard
      have hmax : 1 < maxCount w.bits := (limit w).one_lt
      unfold maxReaders at hcard
      omega
  · intro ht c b hb m m' k f hlocked
    rw [hrefused (tryGetMut_locked hlocked)] at hb
    exact hexclusive ht c hb
  · intro ht c b hb m m' k use hnone
    rw [hrefused (tryEntry_none hnone)] at hb
    exact hexclusive ht c hb

/--
どの実行でも、待たない操作の答えがすべて正しいのは、`try_lock_exclusive` の CAS が書き手の印だけの
語に当たらないとき、またそのときに限る。
-/
theorem tryLock_reports_iff (K V : Type*) [DecidableEq K] {tr : List (System T w × T)}
    (h : (program w).lts.Path (program w).init tr s) :
    (∀ x ∈ tr, Reports K V x.1 x.2) ↔ ∀ x ∈ tr, ¬ MeetsFlag x.1 x.2 := by
  have hreach : ∀ x ∈ tr, (program w).lts.Reachable x.1 := by
    intro x hx
    obtain ⟨pre, post, heq⟩ := List.append_of_mem hx
    exact (h.take heq).reachable (.init rfl)
  constructor
  · rintro hall x hx ⟨hpc, hword⟩
    refine not_held_of_writersParked (hreach x hx) hword ?_
    refine (hall x hx).exclusive hpc ⟨false, false⟩ ?_
    rw [hpc, answer_tryLockExclusive, hword, decide_eq_false writersParked_ne_zero]
  · exact fun hall x hx => reports_of_not_meetsFlag K V (hreach x hx) (hall x hx)

/-- 書き手 0 が持つ間に、thread 1 が待たずに取ろうとする。 -/
def busyRun : List (Nat × Sched) :=
  [(0, .enter .lockExclusive), (0, .access ⟨false, false⟩), (1, .enter .tryLockExclusive)]

theorem tryLock_reports_iff_busy : ∃ s s' : System Nat usize64, ∃ tr,
    ((program usize64).lts.Path (program usize64).init (tr ++ [(s, 1)]) s' ∧
      s.exclusive = {0} ∧ (s.pc 1).answer ⟨false, false⟩ s.word = some false) ∧
    ((∀ x ∈ tr ++ [(s, 1)], Reports Nat Nat x.1 x.2) ↔
      ∀ x ∈ tr ++ [(s, 1)], ¬ MeetsFlag x.1 x.2) := by
  obtain ⟨s, s', hrun, hstep, hx, ha⟩ : ∃ s s' : System Nat usize64,
      run busyRun (program usize64).init = some s ∧ perform s 1 (.access ⟨false, false⟩) = some s' ∧
        s.exclusive = {0} ∧ (s.pc 1).answer ⟨false, false⟩ s.word = some false :=
    ⟨_, _, rfl, rfl, rfl, rfl⟩
  obtain ⟨tr, htr⟩ := path_run hrun
  have hpath := htr.snoc (step_iff_perform.mpr ⟨_, hstep⟩)
  exact ⟨s, s', tr, ⟨hpath, hx, ha⟩, tryLock_reports_iff Nat Nat hpath⟩

/-- 書き手 0 が持つ間に読み手 1 と書き手 2 が眠り、0 が放す。読み手が動き出す前に 3 が取ろうとする。 -/
def bareFlagRun : List (Nat × Sched) :=
  [(0, .enter .lockExclusive), (0, .access ⟨false, false⟩)]
    ++ (1, .enter .lockShared) :: List.replicate 5 (1, .access ⟨false, false⟩)
    ++ (2, .enter .lockExclusive) :: List.replicate 5 (2, .access ⟨false, false⟩)
    ++ (0, .enter .unlockExclusive) :: List.replicate 4 (0, .access ⟨false, false⟩)
    ++ [(3, .enter .tryLockExclusive)]

/-- 放された後の lock を、`try_lock_exclusive` は断る。 -/
theorem tryLock_reports_bareFlag : ¬ ∀ (tr : List (System Nat usize64 × Nat)) s,
    (program usize64).lts.Path (program usize64).init tr s → ∀ x ∈ tr, Reports Nat Nat x.1 x.2 := by
  obtain ⟨s, s', hrun, hstep, hpc, hword⟩ : ∃ s s' : System Nat usize64,
      run bareFlagRun (program usize64).init = some s ∧
        perform s 3 (.access ⟨false, false⟩) = some s' ∧ s.pc 3 = .tryLockExclusive ∧
        s.word = writersParked usize64 := ⟨_, _, rfl, rfl, rfl, rfl⟩
  obtain ⟨tr, htr⟩ := path_run hrun
  have hpath := htr.snoc (step_iff_perform.mpr ⟨_, hstep⟩)
  intro hall
  refine not_held_of_writersParked (htr.reachable (.init rfl)) hword ?_
  refine (hall _ _ hpath (s, 3) (by simp)).exclusive hpc ⟨false, false⟩ ?_
  show (s.pc 3).answer ⟨false, false⟩ s.word = some false
  rw [hpc, answer_tryLockExclusive, hword, decide_eq_false writersParked_ne_zero]

end RawRwLock

end Neocache
