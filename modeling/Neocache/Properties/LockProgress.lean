import Mathlib.Algebra.BigOperators.Group.Finset.Basic
import Neocache.Properties.LockRelease

/-!
# lock は片付けられる

到達可能などの状態からも、誰も新しく取りに行かず、途中の操作を進めて、持っているものを手放すだけで、
語が 0 で待ち行列も空の初めの状態に戻れる。眠っている thread は、その間に起こされて取り、手放す。
前提は、持ったまま同じ lock を待つ thread が居ないことだけである。

一人で動けば終わる thread（`Pc.Ready`）を、終わるまで続けて動かす。どの thread にもその余地が
なければ、持ち主に手放させる。持ち主も居なければ、眠っている thread が居ないことを
`waker_of_parked` が言い、語に印が残っていないことを `Wakes` が言う。
-/

namespace Neocache.LockProtocol

open Infra.Parking

/-- 持ち主が減る一歩は、持ち主の立場から行う。 -/
theorem Access.drops {L : Limit} {r : Role} {v : LockWord} {o : StepResult Role LockWord}
    (h : Access L r v o) :
    (o.effect = .dropShared → r = .releasingShared) ∧
      (o.effect = .dropExclusive ∨ o.effect = .downgrade → r = .releasing ∨ r = .storing) := by
  cases h with
  | @stay r v e hr he => cases e <;> first | exact he.elim | simp
  | _ => simp

end Neocache.LockProtocol

namespace Neocache.RawRwLock

open Infra Infra.Parking LockProtocol Relation

variable {w : Word} {v : BitVec w.bits}

/-! ## 一人で終わる操作 -/

/-- `lock_exclusive` の途中。眠っているものも含む。 -/
def Pc.inLockExclusive : Pc w → Bool
  | .lockExclusive _ | .lockExclusiveSlow _ | .lockExclusiveCas _ _ _ => true
  | .lockExclusiveFlag _ _ _ | .lockExclusivePark | .lockExclusiveParked => true
  | _ => false

/-- `try_lock_shared_fast` を `lock_shared` から呼んだ。 -/
def FastCall.inLockShared : FastCall → Bool
  | .tryLock => false
  | .first | .second => true

/-- `lock_shared` の途中。眠っているものも含む。 -/
def Pc.inLockShared : Pc w → Bool
  | .tryLockSharedFast call | .tryLockSharedFastCas call _ => call.inLockShared
  | .lockSharedSlow | .lockSharedCas _ | .lockSharedFlag _ _ => true
  | .lockSharedPark | .lockSharedParked => true
  | _ => false

/-- 待つ操作の途中で、待ち行列に居る。 -/
def Pc.asleep : Pc w → Bool
  | .lockExclusiveParked | .lockSharedParked => true
  | _ => false

/-- 語がこのままなら、他の thread が動かなくても操作を終えられる。 -/
structure Pc.Ready (v : BitVec w.bits) (p : Pc w) : Prop where
  busy : p ≠ .idle
  awake : p.asleep = false
  exclusive : p.inLockExclusive = true → (decode v).readers = 0
  shared : p.inLockShared = true → (decode v).readers ≠ (limit w).max

def FastCall.rank : FastCall → Nat
  | .tryLock | .second => 3
  | .first => 4

/-- 一人で動いたとき、操作を終えるまでの歩数の上限。 -/
def Pc.rank (v : BitVec w.bits) : Pc w → Nat
  | .idle | .lockExclusiveParked | .lockSharedParked => 0
  | .tryLockExclusive => 1
  | .lockExclusive retry => if retry then 4 else 5
  | .lockExclusiveSlow _ | .lockExclusiveFlag _ _ _ => 2
  | .lockExclusiveCas _ state _ => if v = state then 1 else 2
  | .lockExclusivePark => 3
  | .unlockExclusive => 5
  | .unlockExclusiveSlow => 4
  | .unlockExclusiveCas _ _ _ => 3
  | .unlockExclusiveStore => 2
  | .unlockExclusiveUnpark _ => 1
  | .tryLockSharedFast call => call.rank
  | .tryLockSharedFastCas call inc => if v = inc.state then 1 else call.rank
  | .tryLockSharedSlow => 2
  | .tryLockSharedSlowCas inc => if v = inc.state then 1 else 2
  | .lockSharedSlow | .lockSharedFlag _ _ => 2
  | .lockSharedCas inc => if v = inc.state then 1 else 3
  | .lockSharedPark => 3
  | .unlockShared => 3
  | .unlockSharedSlow => 2
  | .unlockSharedUnpark => 1
  | .downgrade => 2
  | .downgradeUnpark => 1

theorem Pc.rank_le (p : Pc w) : p.rank v ≤ 5 := by
  cases p with
  | lockExclusive retry => cases retry <;> simp [Pc.rank]
  | lockExclusiveCas a state free => simp only [Pc.rank]; split <;> omega
  | tryLockSharedFast call => cases call <;> simp [Pc.rank, FastCall.rank]
  | tryLockSharedFastCas call inc =>
    simp only [Pc.rank]
    split
    · omega
    · cases call <;> simp [FastCall.rank]
  | tryLockSharedSlowCas inc => simp only [Pc.rank]; split <;> omega
  | lockSharedCas inc => simp only [Pc.rank]; split <;> omega
  | _ => simp [Pc.rank]

/-- 一歩で操作を終えるか、終わりに近づく。 -/
def Nears (v : BitVec w.bits) (p : Pc w) (o : StepResult (Pc w) (BitVec w.bits)) : Prop :=
  o.next = .idle ∨ (o.next.Ready o.word ∧ o.next.rank o.word < p.rank v)

/-- 空いていれば、読んだ値のまま取りに行く。 -/
theorem lockExclusiveNext_free (hfree : (decode v).readers = 0) (a : AcquireWith) (spin : Bool) :
    lockExclusiveNext a v spin = .lockExclusiveCas a v (and_oneWriter_eq_zero.mpr hfree) := by
  unfold lockExclusiveNext
  rw [dif_pos (and_oneWriter_eq_zero.mpr hfree)]

/-- 読んだ値のまま取りに行く書き手は、次の一歩で取る。 -/
theorem lockExclusiveNext_nears {p : Pc w} (hfree : (decode v).readers = 0) (a : AcquireWith)
    (hp : 1 < p.rank v) : Nears v p ⟨lockExclusiveNext a v false, v, .quiet⟩ := by
  rw [lockExclusiveNext_free hfree]
  refine Or.inr ⟨⟨by simp, rfl, fun _ => hfree, by simp [Pc.inLockShared]⟩, ?_⟩
  simpa [Pc.rank] using hp

/-- 書き手が持っていなければ、読み手は読んだ値のまま取りに行くか、溢れて止まる。 -/
theorem lockSharedNext_nears {p : Pc w} (hroom : (decode v).readers ≠ (limit w).max)
    (hp : 1 < p.rank v) : Nears v p (lockSharedNext v false) := by
  unfold lockSharedNext
  split
  · split
    · next inc hinc =>
      have hstate := increment_state hinc
      refine Or.inr ⟨⟨by simp, rfl, by simp [Pc.inLockExclusive], fun _ => hroom⟩, ?_⟩
      simpa [Pc.rank, hstate] using hp
    · exact Or.inl rfl
  · next full => exact (hroom (checkedAdd_eq_none full)).elim

theorem tryLockSharedNext_nears {p : Pc w} (hp : 1 < p.rank v) :
    Nears v p (tryLockSharedNext v) := by
  unfold tryLockSharedNext
  split
  · next inc hinc =>
    have hstate := increment_state hinc
    refine Or.inr ⟨⟨by simp, rfl, by simp [Pc.inLockExclusive], by simp [Pc.inLockShared]⟩, ?_⟩
    simpa [Pc.rank, hstate] using hp
  · exact Or.inl rfl

/-- `try_lock_shared_fast` が偽を返しても、次の試みがある。 -/
theorem FastCall.next_nears {p : Pc w} {call : FastCall}
    (hroom : call.inLockShared = true → (decode v).readers ≠ (limit w).max)
    (hp : p.rank v = call.rank) : Nears v p ⟨call.next, v, .quiet⟩ := by
  refine Or.inr ⟨⟨?_, ?_, ?_, ?_⟩, ?_⟩
  · cases call <;> simp [FastCall.next]
  · cases call <;> rfl
  · cases call <;> simp [FastCall.next, Pc.inLockExclusive]
  · cases call
    · simp [FastCall.next, Pc.inLockShared]
    · exact fun _ => hroom rfl
    · exact fun _ => hroom rfl
  · rw [hp]
    cases call <;> simp [FastCall.next, Pc.rank, FastCall.rank]

/-- 解放と降格の続きは、語がどう変わっても終えられる。 -/
theorem Pc.Ready.of_release {p : Pc w} (hbusy : p ≠ .idle) (hawake : p.asleep = false)
    (hx : p.inLockExclusive = false) (hs : p.inLockShared = false) (u : BitVec w.bits) :
    p.Ready u := ⟨hbusy, hawake, by simp [hx], by simp [hs]⟩

/-- 一人で終えられる thread の、弱い CAS が失敗しない一歩。 -/
theorem Pc.Ready.access {p : Pc w} (h : p.Ready v) :
    ∃ o, p.access ⟨false, false⟩ v = some o ∧ Nears v p o := by
  cases p with
  | idle => exact (h.busy rfl).elim
  | lockExclusiveParked => cases h.awake
  | lockSharedParked => cases h.awake
  | tryLockExclusive =>
    simp only [Pc.access]
    split <;> exact ⟨_, rfl, Or.inl rfl⟩
  | lockExclusive retry =>
    have hfree := h.exclusive rfl
    simp only [Pc.access]
    split
    · exact ⟨_, rfl, Or.inl rfl⟩
    · refine ⟨_, rfl, Or.inr ⟨⟨?_, ?_, fun _ => hfree, ?_⟩, ?_⟩⟩ <;>
        cases retry <;> simp [Pc.asleep, Pc.inLockShared, Pc.rank]
  | lockExclusiveSlow a =>
    exact ⟨_, rfl, lockExclusiveNext_nears (h.exclusive rfl) a (by simp [Pc.rank])⟩
  | lockExclusiveCas a state free =>
    simp only [Pc.access]
    split
    · exact ⟨_, rfl, Or.inl rfl⟩
    · next hne =>
      have hstale : ¬ v = state := fun heq => hne ⟨heq, trivial⟩
      exact ⟨_, rfl, lockExclusiveNext_nears (h.exclusive rfl) a (by simp [Pc.rank, hstale])⟩
  | lockExclusiveFlag a state held =>
    -- 塞がっていると見た値は、空いている今の語とは違う
    have hstale : ¬ v = state := fun heq =>
      held (and_oneWriter_eq_zero.mpr (heq ▸ h.exclusive rfl))
    simp only [Pc.access, if_neg fun hc : v = state ∧ _ => hstale hc.1]
    exact ⟨_, rfl, lockExclusiveNext_nears (h.exclusive rfl) a (by simp [Pc.rank])⟩
  | lockExclusivePark =>
    have hfree := h.exclusive rfl
    have hno : ¬ (v &&& oneWriter w ≠ 0 ∧ v &&& writersParked w ≠ 0) := fun hc =>
      hc.1 (and_oneWriter_eq_zero.mpr hfree)
    simp only [Pc.access, if_neg hno]
    exact ⟨_, rfl, Or.inr ⟨⟨by simp, rfl, fun _ => hfree, by simp [Pc.inLockShared]⟩,
      by simp [Pc.rank]⟩⟩
  | unlockExclusive =>
    simp only [Pc.access]
    split
    · exact ⟨_, rfl, Or.inl rfl⟩
    · exact ⟨_, rfl, Or.inr ⟨.of_release (by simp) rfl rfl rfl _, by simp [Pc.rank]⟩⟩
  | unlockExclusiveSlow =>
    simp only [Pc.access]
    split
    · split
      · exact ⟨_, rfl, Or.inl rfl⟩
      · split <;> exact ⟨_, rfl, Or.inr ⟨.of_release (by simp) rfl rfl rfl _, by simp [Pc.rank]⟩⟩
    · exact ⟨_, rfl, Or.inl rfl⟩
  | unlockExclusiveCas state held one =>
    simp only [Pc.access]
    split
    · exact ⟨_, rfl, Or.inr ⟨.of_release (by simp) rfl rfl rfl _, by simp [Pc.rank]⟩⟩
    · split
      · exact ⟨_, rfl, Or.inr ⟨.of_release (by simp) rfl rfl rfl _, by simp [Pc.rank]⟩⟩
      · exact ⟨_, rfl, Or.inl rfl⟩
  | unlockExclusiveStore =>
    exact ⟨_, rfl, Or.inr ⟨.of_release (by simp) rfl rfl rfl _, by simp [Pc.rank]⟩⟩
  | unlockExclusiveUnpark parked =>
    simp only [Pc.access]
    split
    · exact ⟨_, rfl, Or.inl rfl⟩
    · split <;> exact ⟨_, rfl, Or.inl rfl⟩
  | tryLockSharedFast call =>
    simp only [Pc.access]
    split
    · next inc hinc =>
      have hstate := increment_state hinc
      refine ⟨_, rfl, Or.inr ⟨⟨by simp, rfl, by simp [Pc.inLockExclusive], h.shared⟩, ?_⟩⟩
      cases call <;> simp [Pc.rank, FastCall.rank, hstate]
    · exact ⟨_, rfl, FastCall.next_nears h.shared rfl⟩
  | tryLockSharedFastCas call inc =>
    simp only [Pc.access]
    split
    · exact ⟨_, rfl, Or.inl rfl⟩
    · next hne =>
      have hstale : ¬ v = inc.state := fun heq => hne ⟨heq, trivial⟩
      exact ⟨_, rfl, FastCall.next_nears h.shared (by simp [Pc.rank, hstale])⟩
  | tryLockSharedSlow => exact ⟨_, rfl, tryLockSharedNext_nears (by simp [Pc.rank])⟩
  | tryLockSharedSlowCas inc =>
    simp only [Pc.access]
    split
    · exact ⟨_, rfl, Or.inl rfl⟩
    · next hne =>
      have hstale : ¬ v = inc.state := fun heq => hne ⟨heq, trivial⟩
      exact ⟨_, rfl, tryLockSharedNext_nears (by simp [Pc.rank, hstale])⟩
  | lockSharedSlow => exact ⟨_, rfl, lockSharedNext_nears (h.shared rfl) (by simp [Pc.rank])⟩
  | lockSharedCas inc =>
    simp only [Pc.access]
    split
    · exact ⟨_, rfl, Or.inl rfl⟩
    · next hne =>
      have hstale : ¬ v = inc.state := fun heq => hne ⟨heq, trivial⟩
      exact ⟨_, rfl, Or.inr ⟨⟨by simp, rfl, by simp [Pc.inLockExclusive], fun _ => h.shared rfl⟩,
        by simp [Pc.rank, hstale]⟩⟩
  | lockSharedFlag state full =>
    -- 足し算が溢れるのは書き手の値だけなので、今の語とは違う
    have hstale : ¬ v = state := fun heq => h.shared rfl (heq ▸ checkedAdd_eq_none full)
    simp only [Pc.access, if_neg fun hc : v = state ∧ _ => hstale hc.1]
    exact ⟨_, rfl, lockSharedNext_nears (h.shared rfl) (by simp [Pc.rank])⟩
  | lockSharedPark =>
    have hno : ¬ (v &&& oneWriter w = oneWriter w ∧ v &&& readersParked w ≠ 0) := fun hc =>
      h.shared rfl (and_oneWriter_eq_self.mp hc.1)
    simp only [Pc.access, if_neg hno]
    exact ⟨_, rfl, Or.inr ⟨⟨by simp, rfl, by simp [Pc.inLockExclusive], fun _ => h.shared rfl⟩,
      by simp [Pc.rank]⟩⟩
  | unlockShared =>
    refine ⟨_, rfl, ?_⟩
    by_cases hlast : v = oneReader w ||| writersParked w
    · exact Or.inr ⟨by rw [if_pos hlast]; exact .of_release (by simp) rfl rfl rfl _,
        by simp [Pc.rank, hlast]⟩
    · exact Or.inl (if_neg hlast)
  | unlockSharedSlow =>
    simp only [Pc.access]
    split
    · exact ⟨_, rfl, Or.inr ⟨.of_release (by simp) rfl rfl rfl _, by simp [Pc.rank]⟩⟩
    · exact ⟨_, rfl, Or.inl rfl⟩
  | unlockSharedUnpark => exact ⟨_, rfl, Or.inl rfl⟩
  | downgrade =>
    refine ⟨_, rfl, ?_⟩
    by_cases hr : v &&& readersParked w ≠ 0
    · exact Or.inr ⟨by rw [if_pos hr]; exact .of_release (by simp) rfl rfl rfl _,
        by rw [if_pos hr]; simp [Pc.rank]⟩
    · exact Or.inl (if_neg hr)
  | downgradeUnpark => exact ⟨_, rfl, Or.inl rfl⟩

/-! ## 残った仕事 -/

/-- 操作を終えるまでに残った仕事。取る操作は、取った後に手放す分まで数える。 -/
def Pc.weight : Pc w → Nat
  | .idle | .unlockShared | .unlockExclusive => 0
  | .unlockExclusiveSlow | .unlockExclusiveCas _ _ _ | .unlockExclusiveStore => 0
  | .unlockExclusiveUnpark _ | .unlockSharedSlow | .unlockSharedUnpark | .downgradeUnpark => 1
  | .downgrade => 2
  | _ => 3

/-- 一歩で増える持ち主。 -/
def gain : Effect → Nat
  | .takeShared | .takeExclusive | .downgrade => 1
  | _ => 0

/-- 一歩で減る持ち主。 -/
def loss : Effect → Nat
  | .dropShared | .dropExclusive | .downgrade => 1
  | _ => 0

/-- 取る操作の一歩は、同じ操作に留まるか、操作を終える。 -/
def Stays (p : Pc w) (o : StepResult (Pc w) (BitVec w.bits)) : Prop :=
  (o.next.weight = 3 ∧ o.next.inLockExclusive = p.inLockExclusive ∧
    o.next.inLockShared = p.inLockShared ∧ gain o.effect = 0 ∧ loss o.effect = 0) ∨
  (o.next = .idle ∧ gain o.effect ≤ 1 ∧ loss o.effect = 0)

theorem lockExclusiveNext_stays {p : Pc w} (hx : p.inLockExclusive = true)
    (hs : p.inLockShared = false) (a : AcquireWith) (spin : Bool) (u : BitVec w.bits) :
    Stays p ⟨lockExclusiveNext a v spin, u, .quiet⟩ := by
  unfold lockExclusiveNext
  split
  · exact Or.inl ⟨rfl, hx.symm, hs.symm, rfl, rfl⟩
  · split
    · split <;> exact Or.inl ⟨rfl, hx.symm, hs.symm, rfl, rfl⟩
    · exact Or.inl ⟨rfl, hx.symm, hs.symm, rfl, rfl⟩

theorem lockSharedNext_stays {p : Pc w} (hx : p.inLockExclusive = false)
    (hs : p.inLockShared = true) (spin : Bool) : Stays p (lockSharedNext v spin) := by
  unfold lockSharedNext
  split
  · split
    · exact Or.inl ⟨rfl, hx.symm, hs.symm, rfl, rfl⟩
    · exact Or.inr ⟨rfl, by simp [gain], rfl⟩
  · split
    · split <;> exact Or.inl ⟨rfl, hx.symm, hs.symm, rfl, rfl⟩
    · exact Or.inl ⟨rfl, hx.symm, hs.symm, rfl, rfl⟩

theorem tryLockSharedNext_stays {p : Pc w} (hx : p.inLockExclusive = false)
    (hs : p.inLockShared = false) : Stays p (tryLockSharedNext v) := by
  unfold tryLockSharedNext
  split
  · exact Or.inl ⟨rfl, hx.symm, hs.symm, rfl, rfl⟩
  · exact Or.inr ⟨rfl, by simp [gain], rfl⟩

theorem FastCall.next_stays {p : Pc w} (call : FastCall) (hx : p.inLockExclusive = false)
    (hs : p.inLockShared = call.inLockShared) (u : BitVec w.bits) :
    Stays p ⟨call.next, u, .quiet⟩ := by
  cases call <;> exact Or.inl ⟨rfl, hx.symm, hs.symm, rfl, rfl⟩

theorem acquire_access {p : Pc w} {c : Chance} {o : StepResult (Pc w) (BitVec w.bits)}
    (h : p.access c v = some o) (hp : p.weight = 3) : Stays p o := by
  cases p with
  | tryLockExclusive =>
    simp only [Pc.access] at h
    split at h <;> obtain rfl := Option.some.inj h <;> exact Or.inr ⟨rfl, by simp [gain], rfl⟩
  | lockExclusive retry =>
    simp only [Pc.access] at h
    split at h <;> obtain rfl := Option.some.inj h
    · exact Or.inr ⟨rfl, by simp [gain], rfl⟩
    · cases retry <;> exact Or.inl ⟨rfl, rfl, rfl, rfl, rfl⟩
  | lockExclusiveSlow a =>
    obtain rfl := Option.some.inj h
    exact lockExclusiveNext_stays rfl rfl a _ _
  | lockExclusiveCas a state free =>
    simp only [Pc.access] at h
    split at h <;> obtain rfl := Option.some.inj h
    · exact Or.inr ⟨rfl, by simp [gain], rfl⟩
    · exact lockExclusiveNext_stays rfl rfl a _ _
  | lockExclusiveFlag a state held =>
    simp only [Pc.access] at h
    split at h <;> obtain rfl := Option.some.inj h
    · exact Or.inl ⟨rfl, rfl, rfl, rfl, rfl⟩
    · exact lockExclusiveNext_stays rfl rfl a _ _
  | lockExclusivePark =>
    simp only [Pc.access] at h
    split at h <;> obtain rfl := Option.some.inj h <;> exact Or.inl ⟨rfl, rfl, rfl, rfl, rfl⟩
  | tryLockSharedFast call =>
    simp only [Pc.access] at h
    split at h <;> obtain rfl := Option.some.inj h
    · exact Or.inl ⟨rfl, rfl, rfl, rfl, rfl⟩
    · exact call.next_stays rfl rfl _
  | tryLockSharedFastCas call inc =>
    simp only [Pc.access] at h
    split at h <;> obtain rfl := Option.some.inj h
    · exact Or.inr ⟨rfl, by simp [gain], rfl⟩
    · exact call.next_stays rfl rfl _
  | tryLockSharedSlow =>
    obtain rfl := Option.some.inj h
    exact tryLockSharedNext_stays rfl rfl
  | tryLockSharedSlowCas inc =>
    simp only [Pc.access] at h
    split at h <;> obtain rfl := Option.some.inj h
    · exact Or.inr ⟨rfl, by simp [gain], rfl⟩
    · exact tryLockSharedNext_stays rfl rfl
  | lockSharedSlow =>
    obtain rfl := Option.some.inj h
    exact lockSharedNext_stays rfl rfl _
  | lockSharedCas inc =>
    simp only [Pc.access] at h
    split at h <;> obtain rfl := Option.some.inj h
    · exact Or.inr ⟨rfl, by simp [gain], rfl⟩
    · exact Or.inl ⟨rfl, rfl, rfl, rfl, rfl⟩
  | lockSharedFlag state full =>
    simp only [Pc.access] at h
    split at h <;> obtain rfl := Option.some.inj h
    · exact Or.inl ⟨rfl, rfl, rfl, rfl, rfl⟩
    · exact lockSharedNext_stays rfl rfl _
  | lockSharedPark =>
    simp only [Pc.access] at h
    split at h <;> obtain rfl := Option.some.inj h <;> exact Or.inl ⟨rfl, rfl, rfl, rfl, rfl⟩
  | lockExclusiveParked => cases h
  | lockSharedParked => cases h
  | _ => cases hp

/-- 待つ操作の途中なら、取る操作である。 -/
theorem Pc.not_inLock {p : Pc w} (h : p.weight ≠ 3) :
    p.inLockExclusive = false ∧ p.inLockShared = false := by
  cases p <;> first | exact ⟨rfl, rfl⟩ | exact (h rfl).elim

/-- 手放す操作の一歩は、取る操作には移らず、終われば仕事が減っている。 -/
theorem release_access {p : Pc w} {c : Chance} {o : StepResult (Pc w) (BitVec w.bits)}
    (h : p.access c v = some o) (hp : p.weight ≠ 3) :
    o.next.weight ≠ 3 ∧ o.next.weight + 2 * gain o.effect ≤ p.weight + 2 * loss o.effect ∧
      (o.next = .idle → (p.inUnlockExclusive = true → o.effect ≠ .panic) →
        2 * gain o.effect < p.weight + 2 * loss o.effect) := by
  cases p with
  | idle => cases h
  | unlockExclusive =>
    simp only [Pc.access] at h
    split at h <;> obtain rfl := Option.some.inj h <;> simp [Pc.weight, gain, loss]
  | unlockExclusiveSlow =>
    simp only [Pc.access] at h
    split at h
    · split at h
      · obtain rfl := Option.some.inj h
        simp [Pc.weight, gain, loss, Pc.inUnlockExclusive]
      · split at h <;> obtain rfl := Option.some.inj h <;> simp [Pc.weight, gain, loss]
    · obtain rfl := Option.some.inj h
      simp [Pc.weight, gain, loss, Pc.inUnlockExclusive]
  | unlockExclusiveCas state held one =>
    simp only [Pc.access] at h
    split at h
    · obtain rfl := Option.some.inj h
      simp [Pc.weight, gain, loss]
    · split at h <;> obtain rfl := Option.some.inj h <;>
        simp [Pc.weight, gain, loss, Pc.inUnlockExclusive]
  | unlockExclusiveStore =>
    obtain rfl := Option.some.inj h
    simp [Pc.weight, gain, loss]
  | unlockExclusiveUnpark parked =>
    simp only [Pc.access] at h
    split at h
    · obtain rfl := Option.some.inj h
      simp [Pc.weight, gain, loss]
    · split at h <;> obtain rfl := Option.some.inj h <;> simp [Pc.weight, gain, loss]
  | unlockShared =>
    obtain rfl := Option.some.inj h
    simp only
    split <;> simp [Pc.weight, gain, loss]
  | unlockSharedSlow =>
    simp only [Pc.access] at h
    split at h <;> obtain rfl := Option.some.inj h <;> simp [Pc.weight, gain, loss]
  | unlockSharedUnpark =>
    obtain rfl := Option.some.inj h
    simp [Pc.weight, gain, loss]
  | downgrade =>
    obtain rfl := Option.some.inj h
    simp only
    split <;> simp [Pc.weight, gain, loss]
  | downgradeUnpark =>
    obtain rfl := Option.some.inj h
    simp [Pc.weight, gain, loss]
  | _ => exact (hp rfl).elim

/-- 一歩で仕事は増えず、操作を終えれば減る。 -/
theorem access_weight {p : Pc w} {c : Chance} {o : StepResult (Pc w) (BitVec w.bits)}
    (h : p.access c v = some o) (hpanic : p.inUnlockExclusive = true → o.effect ≠ .panic) :
    o.next.weight + 2 * gain o.effect ≤ p.weight + 2 * loss o.effect ∧
      (o.next = .idle → 2 * gain o.effect < p.weight + 2 * loss o.effect) := by
  by_cases hp : p.weight = 3
  · rcases acquire_access h hp with ⟨hw, -, -, hg, hl⟩ | ⟨hnext, hg, hl⟩
    · refine ⟨by omega, fun hidle => ?_⟩
      rw [hidle] at hw
      cases hw
    · rw [hnext, hp, hl]
      simp only [Pc.weight]
      omega
  · obtain ⟨-, hle, hlt⟩ := release_access h hp
    exact ⟨hle, fun hidle => hlt hidle hpanic⟩

/-- 取る操作に移るのは、その操作の途中からだけである。 -/
theorem access_inLock {p : Pc w} {c : Chance} {o : StepResult (Pc w) (BitVec w.bits)}
    (h : p.access c v = some o) :
    (o.next.inLockExclusive = true → p.inLockExclusive = true ∧ gain o.effect = 0) ∧
      (o.next.inLockShared = true → p.inLockShared = true ∧ gain o.effect = 0) := by
  by_cases hp : p.weight = 3
  · rcases acquire_access h hp with ⟨-, hx, hs, hg, -⟩ | ⟨hnext, -, -⟩
    · exact ⟨fun hin => ⟨hx ▸ hin, hg⟩, fun hin => ⟨hs ▸ hin, hg⟩⟩
    · rw [hnext]
      simp [Pc.inLockExclusive, Pc.inLockShared]
  · obtain ⟨hx, hs⟩ := Pc.not_inLock (release_access h hp).1
    simp [hx, hs]

/-! ## 状態の量 -/

theorem access_drops {p : Pc w} {c : Chance} {o : StepResult (Pc w) (BitVec w.bits)}
    (h : p.access c v = some o) :
    (o.effect = .dropShared → p.role = .releasingShared) ∧
      (o.effect = .dropExclusive ∨ o.effect = .downgrade →
        p.role = .releasing ∨ p.role = .storing) := (access_obeys h).drops

variable {T : Type*} [DecidableEq T] {s s' : System T w} {t : T} {F : Finset T}

/-- 減る持ち主が実際に持っているなら、持ち主の数は増減の分だけ変わる。 -/
theorem card_after {e : Effect} {m n : Multiset T} (hs : e = .dropShared → t ∈ m)
    (hx : e = .dropExclusive ∨ e = .downgrade → t ∈ n) :
    (e.sharedAfter t m).card + (e.exclusiveAfter t n).card + loss e
      = m.card + n.card + gain e := by
  cases e with
  | dropShared =>
    have hcard := Multiset.card_erase_add_one (hs rfl)
    simp only [Effect.sharedAfter, Effect.exclusiveAfter, loss, gain]
    omega
  | dropExclusive =>
    have hcard := Multiset.card_erase_add_one (hx (Or.inl rfl))
    simp only [Effect.sharedAfter, Effect.exclusiveAfter, loss, gain]
    omega
  | downgrade =>
    have hcard := Multiset.card_erase_add_one (hx (Or.inr rfl))
    simp only [Effect.sharedAfter, Effect.exclusiveAfter, loss, gain, Multiset.card_cons]
    omega
  | takeShared =>
    simp only [Effect.sharedAfter, Effect.exclusiveAfter, loss, gain, Multiset.card_cons]
    omega
  | takeExclusive =>
    simp only [Effect.sharedAfter, Effect.exclusiveAfter, loss, gain, Multiset.card_cons]
    omega
  | _ => rfl

/-- `F` の外の thread は何もしておらず、何も持っていない。 -/
def Within (F : Finset T) (s : System T w) : Prop :=
  ∀ t, t ∉ F → s.pc t = .idle ∧ t ∉ s.shared ∧ t ∉ s.exclusive

/-- 残った仕事と、持ち主の数の二倍。 -/
def pending (F : Finset T) (s : System T w) : Nat :=
  ∑ t ∈ F, (s.pc t).weight + 2 * (s.shared.card + s.exclusive.card)

omit [DecidableEq T] in
theorem awake_of_access {c : Chance} {o : StepResult (Pc w) (BitVec w.bits)}
    (hc : (s.pc t).access c s.word = some o) :
    s.pc t ≠ (program w).writerParked ∧ s.pc t ≠ (program w).readerParked :=
  ⟨fun hp => (by rw [hp] at hc; cases hc), fun hp => (by rw [hp] at hc; cases hc)⟩

/-- 書き手の解放は表明を破らない。 -/
theorem no_panic (h : (program w).lts.Reachable s) {c : Chance}
    {o : StepResult (Pc w) (BitVec w.bits)} (hc : (s.pc t).access c s.word = some o)
    (hin : (s.pc t).inUnlockExclusive = true) : o.effect ≠ .panic :=
  (unlockExclusive_access hc hin (grounded h t) fun hrel =>
    readers_of_releasing h (Or.inl hrel)).1

/-- 起こされても、残った仕事は変わらない。 -/
theorem weight_other (h : (program w).lts.Reachable s) {u : T} (hne : u ≠ t)
    {o : StepResult (Pc w) (BitVec w.bits)} :
    ((s.after (program w) t o).pc u).weight = (s.pc u).weight := by
  rcases (queued_of_reachable h).pc_other (o := o) hne with hpc | ⟨hp, hpc⟩ | ⟨hp, hpc⟩
  · rw [hpc]
  · rw [hpc, hp]
    rfl
  · rw [hpc, hp]
    rfl

theorem pending_after (h : (program w).lts.Reachable s) (ht : t ∈ F) {c : Chance}
    {o : StepResult (Pc w) (BitVec w.bits)} (hc : (s.pc t).access c s.word = some o) :
    pending F (s.after (program w) t o) ≤ pending F s ∧
      (o.next = .idle → pending F (s.after (program w) t o) < pending F s) := by
  obtain ⟨hw, hr⟩ := awake_of_access hc
  have hself : (s.after (program w) t o).pc t = o.next := (queued_of_reachable h).pc_self hw hr
  obtain ⟨hle, hlt⟩ := access_weight hc (no_panic h hc)
  obtain ⟨hshared, hexclusive⟩ := access_drops hc
  have howned := (sound_of_reachable h).owned
  have hcard := card_after (fun he => howned.shared t (hshared he))
    (fun he => howned.exclusive t (hexclusive he))
  have hothers : ∑ u ∈ F.erase t, ((s.after (program w) t o).pc u).weight
      = ∑ u ∈ F.erase t, (s.pc u).weight :=
    Finset.sum_congr rfl fun u hu => weight_other h (Finset.ne_of_mem_erase hu)
  have hbefore := Finset.add_sum_erase F (fun u => (s.pc u).weight) ht
  have hafter := Finset.add_sum_erase F (fun u => ((s.after (program w) t o).pc u).weight) ht
  simp only [hself] at hafter
  unfold pending
  change _ + 2 * ((o.effect.sharedAfter t s.shared).card
    + (o.effect.exclusiveAfter t s.exclusive).card) ≤ _ ∧ (_ → _ + 2 *
    ((o.effect.sharedAfter t s.shared).card + (o.effect.exclusiveAfter t s.exclusive).card) < _)
  change (o.effect.sharedAfter t s.shared).card + (o.effect.exclusiveAfter t s.exclusive).card + _
    = s.shared.card + s.exclusive.card + _ at hcard
  refine ⟨by omega, fun hidle => ?_⟩
  have hstrict := hlt hidle
  have hzero : o.next.weight = 0 := by
    rw [hidle]
    rfl
  omega

/-! ## 持ったまま待たない -/

theorem sharedAfter_of_still {e : Effect} {m : Multiset T} (hg : gain e = 0) (hl : loss e = 0) :
    e.sharedAfter t m = m := by
  cases e with
  | takeShared => cases hg
  | downgrade => cases hg
  | dropShared => cases hl
  | _ => rfl

/-- 書き手が放すのを待つ所。印を立てる手前から、眠っている所まで。 -/
def Pc.waits : Pc w → Bool
  | .lockSharedFlag _ _ | .lockSharedPark | .lockSharedParked => true
  | _ => false

theorem Pc.inLockShared_of_waits {p : Pc w} (h : p.waits = true) : p.inLockShared = true := by
  cases p <;> first | rfl | cases h

theorem Pc.awake_of_inLockShared {p : Pc w} (h : p.inLockShared = true) (hw : p.waits = false) :
    p.asleep = false := by
  cases p with
  | lockExclusiveParked => cases h
  | lockSharedParked => cases hw
  | _ => rfl

theorem Pc.weight_of_inLockShared {p : Pc w} (h : p.inLockShared = true) : p.weight = 3 := by
  cases p <;> first | rfl | cases h

/-- 待ち始める読み手は、書き手が持っているのを見ている。 -/
theorem waits_access {p : Pc w} {c : Chance} {o : StepResult (Pc w) (BitVec w.bits)}
    (h : p.access c v = some o) (hin : p.inLockShared = true) (hw : o.next.waits = true) :
    p.waits = true ∨ (decode v).readers = (limit w).max := by
  cases p with
  | tryLockSharedFast call =>
    simp only [Pc.access] at h
    split at h <;> obtain rfl := Option.some.inj h
    · cases hw
    · cases call <;> cases hw
  | tryLockSharedFastCas call inc =>
    simp only [Pc.access] at h
    split at h <;> obtain rfl := Option.some.inj h
    · cases hw
    · cases call <;> cases hw
  | lockSharedSlow =>
    obtain rfl := Option.some.inj h
    unfold lockSharedNext at hw
    split at hw
    · split at hw <;> cases hw
    · next full => exact Or.inr (checkedAdd_eq_none full)
  | lockSharedCas inc =>
    simp only [Pc.access] at h
    split at h <;> obtain rfl := Option.some.inj h <;> cases hw
  | lockSharedFlag | lockSharedPark | lockSharedParked => exact Or.inl rfl
  | _ => cases hin

/-- 読み手として持つ thread は、書き手を待たない。 -/
theorem not_waits_of_shared (h : (program w).lts.Reachable s) (ht : t ∈ s.shared) :
    (s.pc t).waits = false := by
  refine h.invariant (P := fun s => ∀ t ∈ s.shared, (s.pc t).waits = false)
    (fun s hs t ht => ?_) (fun s u s' hr hi hstep t ht => ?_) t ht
  · subst hs
    exact (Multiset.notMem_zero t ht).elim
  · cases hstep with
    | enter he hn =>
      obtain ⟨op, -, -, rfl⟩ := he
      show (Function.update s.pc u _ t).waits = false
      rw [Function.update_apply]
      split
      · cases op <;> rfl
      · exact hi t ht
    | @access o ha =>
      obtain ⟨c, hc⟩ := ha
      rcases eq_or_ne t u with rfl | hne
      · obtain ⟨hw, hr'⟩ := awake_of_access hc
        rw [(queued_of_reachable hr).pc_self hw hr']
        refine Bool.eq_false_of_not_eq_true fun hnext => ?_
        have hin := Pc.inLockShared_of_waits hnext
        -- 取る操作の途中の一歩なので、持ち物は変わっていない
        have hweight : (s.pc t).weight = 3 := by
          by_contra hweight
          rw [(Pc.not_inLock (release_access hc hweight).1).2] at hin
          cases hin
        rcases acquire_access hc hweight with ⟨-, -, hsh, hg, hl⟩ | ⟨hidle, -, -⟩
        · have hmem : t ∈ s.shared := by
            have hmem : t ∈ o.effect.sharedAfter t s.shared := ht
            rwa [sharedAfter_of_still hg hl] at hmem
          rcases waits_access hc (hsh ▸ hin) hnext with hwait | hfull
          · rw [hi t hmem] at hwait
            cases hwait
          · exact Nat.ne_of_lt ((sound_of_reachable hr).holding.of_mem_shared hmem).2.2.1 hfull
        · rw [hidle] at hnext
          cases hnext
      · have hmem : t ∈ s.shared := (Effect.mem_sharedAfter hne).mp ht
        rcases (queued_of_reachable hr).pc_other (o := o) hne with hpc | ⟨-, hpc⟩ | ⟨-, hpc⟩
        · rw [hpc]
          exact hi t hmem
        · rw [hpc]
          rfl
        · rw [hpc]
          rfl

/-- 持ったまま同じ lock を待つ thread が居ない。読み手が重ねて読むのはよい。 -/
structure Disciplined (s : System T w) : Prop where
  exclusive : ∀ t ∈ s.exclusive, (s.pc t).inLockExclusive = false ∧ (s.pc t).inLockShared = false
  shared : ∀ t ∈ s.shared, (s.pc t).inLockExclusive = false

theorem mem_of_exclusiveAfter {e : Effect} {m : Multiset T} (h : t ∈ e.exclusiveAfter t m)
    (hg : gain e = 0) : t ∈ m := by
  cases e with
  | takeExclusive => cases hg
  | dropExclusive => exact Multiset.mem_of_mem_erase h
  | downgrade => exact Multiset.mem_of_mem_erase h
  | _ => exact h

theorem mem_of_sharedAfter {e : Effect} {m : Multiset T} (h : t ∈ e.sharedAfter t m)
    (hg : gain e = 0) : t ∈ m := by
  cases e with
  | takeShared => cases hg
  | downgrade => cases hg
  | dropShared => exact Multiset.mem_of_mem_erase h
  | _ => exact h

/-- 起こされた thread は、眠る前と同じ操作の途中に居る。 -/
theorem inLock_other (h : (program w).lts.Reachable s) {u : T} (hne : u ≠ t)
    {o : StepResult (Pc w) (BitVec w.bits)} :
    ((s.after (program w) t o).pc u).inLockExclusive = (s.pc u).inLockExclusive ∧
      ((s.after (program w) t o).pc u).inLockShared = (s.pc u).inLockShared := by
  rcases (queued_of_reachable h).pc_other (o := o) hne with hpc | ⟨hp, hpc⟩ | ⟨hp, hpc⟩
  · rw [hpc]
    exact ⟨rfl, rfl⟩
  · rw [hpc, hp]
    exact ⟨rfl, rfl⟩
  · rw [hpc, hp]
    exact ⟨rfl, rfl⟩

theorem Disciplined.after (hd : Disciplined s) (h : (program w).lts.Reachable s) {c : Chance}
    {o : StepResult (Pc w) (BitVec w.bits)} (hc : (s.pc t).access c s.word = some o) :
    Disciplined (s.after (program w) t o) := by
  obtain ⟨hw, hr⟩ := awake_of_access hc
  have hself : (s.after (program w) t o).pc t = o.next := (queued_of_reachable h).pc_self hw hr
  obtain ⟨hx, hs⟩ := access_inLock hc
  refine ⟨fun u hu => ?_, fun u hu => ?_⟩
  · rcases eq_or_ne u t with rfl | hne
    · rw [hself]
      refine ⟨Bool.eq_false_of_not_eq_true fun hin => ?_,
        Bool.eq_false_of_not_eq_true fun hin => ?_⟩
      · obtain ⟨hin, hg⟩ := hx hin
        simp [(hd.exclusive u (mem_of_exclusiveAfter hu hg)).1] at hin
      · obtain ⟨hin, hg⟩ := hs hin
        simp [(hd.exclusive u (mem_of_exclusiveAfter hu hg)).2] at hin
    · rw [(inLock_other h hne).1, (inLock_other h hne).2]
      exact hd.exclusive u ((Effect.mem_exclusiveAfter hne).mp hu)
  · rcases eq_or_ne u t with rfl | hne
    · rw [hself]
      refine Bool.eq_false_of_not_eq_true fun hin => ?_
      obtain ⟨hin, hg⟩ := hx hin
      simp [hd.shared u (mem_of_sharedAfter hu hg)] at hin
    · rw [(inLock_other h hne).1]
      exact hd.shared u ((Effect.mem_sharedAfter hne).mp hu)

/-! ## 片付け -/

/-- 新しく取りに行かない一歩。途中の操作を進めるか、持っているものを手放し始める。 -/
def Sched.unwinds : Sched → Bool
  | .access _ | .enter .unlockShared | .enter .unlockExclusive => true
  | _ => false

def Unwinds (s s' : System T w) : Prop := ∃ t a, a.unwinds = true ∧ perform s t a = some s'

/-- 片付けの途中の状態。 -/
structure Settling (F : Finset T) (s : System T w) : Prop where
  reachable : (program w).lts.Reachable s
  disciplined : Disciplined s
  within : Within F s

theorem Settling.mem (hs : Settling F s) (ht : s.pc t ≠ .idle ∨ t ∈ s.shared ∨ t ∈ s.exclusive) :
    t ∈ F := by
  by_contra hF
  obtain ⟨hidle, hshared, hexclusive⟩ := hs.within t hF
  rcases ht with ht | ht | ht
  · exact ht hidle
  · exact hshared ht
  · exact hexclusive ht

theorem Within.after (hF : Within F s) (h : (program w).lts.Reachable s) (ht : t ∈ F)
    {o : StepResult (Pc w) (BitVec w.bits)} : Within F (s.after (program w) t o) := by
  intro u hu
  have hne : u ≠ t := fun heq => hu (heq ▸ ht)
  obtain ⟨hidle, hshared, hexclusive⟩ := hF u hu
  refine ⟨?_, fun hm => hshared ((Effect.mem_sharedAfter hne).mp hm),
    fun hm => hexclusive ((Effect.mem_exclusiveAfter hne).mp hm)⟩
  rcases (queued_of_reachable h).pc_other (o := o) hne with hpc | ⟨hp, -⟩ | ⟨hp, -⟩
  · rw [hpc, hidle]
  · cases hidle.symm.trans hp
  · cases hidle.symm.trans hp

theorem Within.goto (hF : Within F s) (ht : t ∈ F) (p : Pc w) : Within F (s.goto t p) := by
  intro u hu
  have hne : u ≠ t := fun heq => hu (heq ▸ ht)
  obtain ⟨hidle, hholds⟩ := hF u hu
  exact ⟨(Function.update_of_ne hne _ _).trans hidle, hholds⟩

/-- 動いたことのある thread は有限個である。 -/
theorem exists_within (h : (program w).lts.Reachable s) : ∃ F : Finset T, Within F s := by
  induction h with
  | init hi =>
    obtain rfl : _ = (program w).init := hi
    exact ⟨∅, fun t _ => ⟨rfl, Multiset.notMem_zero t, Multiset.notMem_zero t⟩⟩
  | @step s s' t hr hstep ih =>
    obtain ⟨F, hF⟩ := ih
    have hinsert : Within (insert t F) s := fun u hu =>
      hF u fun hm => hu (Finset.mem_insert_of_mem hm)
    refine ⟨insert t F, ?_⟩
    cases hstep with
    | enter => exact hinsert.goto (Finset.mem_insert_self t F) _
    | access => exact hinsert.after hr (Finset.mem_insert_self t F)

/-- 一人で終えられる thread に、終わるまで続けて動いてもらう。 -/
theorem Settling.solo (hs : Settling F s) (hready : (s.pc t).Ready s.word) :
    ∃ s', ReflTransGen Unwinds s s' ∧ Settling F s' ∧ pending F s' < pending F s := by
  induction hn : (s.pc t).rank s.word using Nat.strongRecOn generalizing s with
  | _ n ih =>
    obtain ⟨o, ho, hnear⟩ := hready.access
    have ht := hs.mem (Or.inl hready.busy)
    have hstep : Unwinds s (s.after (program w) t o) :=
      ⟨t, .access ⟨false, false⟩, rfl, by simp only [perform, ho, Option.map_some]⟩
    have hs' : Settling F (s.after (program w) t o) :=
      ⟨.step hs.reachable (Program.Step.access ⟨_, ho⟩), hs.disciplined.after hs.reachable ho,
        hs.within.after hs.reachable ht⟩
    obtain ⟨hle, hlt⟩ := pending_after hs.reachable ht ho
    rcases hnear with hidle | ⟨hnext, hrank⟩
    · exact ⟨_, .single hstep, hs', hlt hidle⟩
    · obtain ⟨hw, hr⟩ := awake_of_access ho
      have hself : (s.after (program w) t o).pc t = o.next :=
        (queued_of_reachable hs.reachable).pc_self hw hr
      obtain ⟨s₁, hrun, hs₁, hlt₁⟩ :=
        ih (o.next.rank o.word) (hn ▸ hrank) hs' (by rw [hself]; exact hnext) (by rw [hself]; rfl)
      exact ⟨s₁, .head hstep hrun, hs₁, by omega⟩

/-- 操作の外に居る持ち主に、手放してもらう。 -/
theorem Settling.unlock (hs : Settling F s) (hidle : s.pc t = .idle) {op : LockOp}
    (hop : (Sched.enter op).unwinds = true) (hn : op.need.Met s t) :
    ∃ s', ReflTransGen Unwinds s s' ∧ Settling F s' ∧ pending F s' < pending F s := by
  have hpc : (s.goto t (op.entry w)).pc t = op.entry w := Function.update_self t _ _
  have hentry : (op.entry w).weight = 0 ∧ (op.entry w).inLockExclusive = false ∧
      (op.entry w).inLockShared = false ∧ (op.entry w).Ready s.word := by
    cases op with
    | unlockShared => exact ⟨rfl, rfl, rfl, .of_release (by simp [LockOp.entry]) rfl rfl rfl _⟩
    | unlockExclusive => exact ⟨rfl, rfl, rfl, .of_release (by simp [LockOp.entry]) rfl rfl rfl _⟩
    | _ => cases hop
  obtain ⟨hweight, hx, hsh, hready⟩ := hentry
  have hmem : t ∈ F := by
    refine hs.mem (Or.inr ?_)
    cases op with
    | unlockShared => exact Or.inl hn
    | unlockExclusive => exact Or.inr hn
    | _ => cases hop
  have hstep : Unwinds s (s.goto t (op.entry w)) := by
    refine ⟨t, .enter op, hop, ?_⟩
    simp only [perform, hidle]
    exact if_pos hn
  have hlocks : ∀ u, ((s.goto t (op.entry w)).pc u).inLockExclusive = (s.pc u).inLockExclusive ∧
      ((s.goto t (op.entry w)).pc u).inLockShared = (s.pc u).inLockShared ∧
      ((s.goto t (op.entry w)).pc u).weight = (s.pc u).weight := by
    intro u
    rcases eq_or_ne u t with rfl | hne
    · rw [hpc, hidle, hx, hsh, hweight]
      exact ⟨rfl, rfl, rfl⟩
    · rw [show (s.goto t (op.entry w)).pc u = s.pc u from Function.update_of_ne hne _ _]
      exact ⟨rfl, rfl, rfl⟩
  have hs' : Settling F (s.goto t (op.entry w)) := by
    refine ⟨.step hs.reachable (Program.Step.enter ⟨op, hidle, rfl, rfl⟩ hn), ⟨fun u hu => ?_,
      fun u hu => ?_⟩, hs.within.goto hmem _⟩
    · rw [(hlocks u).1, (hlocks u).2.1]
      exact hs.disciplined.exclusive u hu
    · rw [(hlocks u).1]
      exact hs.disciplined.shared u hu
  obtain ⟨s₁, hrun, hs₁, hlt⟩ := hs'.solo (t := t) (by rw [hpc]; exact hready)
  have hsame : pending F (s.goto t (op.entry w)) = pending F s := by
    unfold pending
    rw [Finset.sum_congr rfl fun u _ => (hlocks u).2.2]
    rfl
  exact ⟨s₁, .head hstep hrun, hs₁, hsame ▸ hlt⟩

omit [DecidableEq T] in
theorem asleep_iff : (s.pc t).asleep = true ↔
    s.pc t = .lockExclusiveParked ∨ s.pc t = .lockSharedParked := by
  generalize s.pc t = p
  cases p <;> simp [Pc.asleep]

/-- 誰も持っておらず、一人で終えられる thread も居なければ、初めの状態である。 -/
theorem init_of_stuck (h : (program w).lts.Reachable s) (hx : s.exclusive = 0)
    (hz : s.shared = 0) (hstuck : ∀ t, ¬ (s.pc t).Ready s.word) : s = (program w).init := by
  have hlim := (limit w).one_lt
  obtain ⟨hfree, hr⟩ : (decode s.word).readers = 0 ∧ (decode s.word).readersParked = false := by
    rcases (sound_of_reachable h).holding with ⟨hx', -, -⟩ | ⟨-, hw, -, hr⟩
    · rw [show (s.map Pc.role decode).exclusive = 0 from hx] at hx'
      exact (Multiset.singleton_ne_zero _ hx'.symm).elim
    · rw [show (s.map Pc.role decode).shared = 0 from hz, Multiset.card_zero] at hw
      exact ⟨hw, hr⟩
  have hquiet : ∀ t, (s.pc t).asleep = false → s.pc t = .idle := by
    intro t hawake
    by_contra hbusy
    refine hstuck t ⟨hbusy, hawake, fun _ => hfree, fun _ => ?_⟩
    omega
  have hawake : ∀ t, (s.pc t).asleep = false := by
    intro t
    refine Bool.eq_false_of_not_eq_true fun hasleep => ?_
    obtain ⟨u, hu⟩ := waker_of_parked h ((parked_iff_asleep h t).mpr (asleep_iff.mp hasleep)) hx hz
    obtain ⟨hbusy, hw, hr⟩ := Pc.not_idle_or_parked hu
    refine hbusy (hquiet u (Bool.eq_false_of_not_eq_true fun hs => ?_))
    exact (asleep_iff.mp hs).elim hw hr
  have hidle : ∀ t, s.pc t = .idle := fun t => hquiet t (hawake t)
  have hword : s.word = 0 := by
    refine decode_inj (Eq.trans ?_ decode_zero.symm)
    rw [show decode s.word = ⟨(decode s.word).readers, (decode s.word).writersParked,
      (decode s.word).readersParked⟩ from rfl, hfree, hr]
    cases hf : (decode s.word).writersParked with
    | false => rfl
    | true =>
      -- 書き手の印だけが残っていれば、それを片付ける者が操作の途中に居る
      have honly : (s.map Pc.role decode).word = ⟨0, true, false⟩ := by
        show decode s.word = _
        rw [← hfree, ← hf, ← hr]
      obtain ⟨u, hu⟩ := (wakes ((sim w).reachable h)).writersOnly honly
      have hrole : (s.map Pc.role decode).pc u = .outside := by
        show (s.pc u).role = _
        rw [hidle u]
        rfl
      rw [hrole] at hu
      rcases hu with (hu | hu) | hu <;> cases hu
  have hq := queued_of_reachable h
  obtain ⟨word, pc, shared, exclusive, writers, readers⟩ := s
  have hempty : writers = [] ∧ readers = [] := by
    refine ⟨List.eq_nil_iff_forall_not_mem.mpr fun t ht => ?_,
      List.eq_nil_iff_forall_not_mem.mpr fun t ht => ?_⟩
    · cases (hidle t).symm.trans ((hq.writer t).mp ht)
    · cases (hidle t).symm.trans ((hq.reader t).mp ht)
  simp only at hword hx hz
  obtain ⟨rfl, rfl⟩ := hempty
  rw [hword, hx, hz, show pc = fun _ => Pc.idle from funext hidle]
  rfl

/-- 持ち主は、一人で終えられるのでなければ、操作の外に居る。 -/
theorem Settling.idle_of_holder (hs : Settling F s) (ht : t ∈ s.exclusive ∨ t ∈ s.shared)
    (hstuck : ¬ (s.pc t).Ready s.word) : s.pc t = .idle := by
  by_contra hbusy
  refine hstuck ⟨hbusy, Bool.eq_false_of_not_eq_true fun hasleep => ?_, fun hin => ?_,
    fun hin => ?_⟩
  · rcases ht with ht | ht
    · obtain ⟨hx, hsh⟩ := hs.disciplined.exclusive t ht
      rcases asleep_iff.mp hasleep with hp | hp
      · simp [hp, Pc.inLockExclusive] at hx
      · simp [hp, Pc.inLockShared] at hsh
    · have hx := hs.disciplined.shared t ht
      rcases asleep_iff.mp hasleep with hp | hp
      · simp [hp, Pc.inLockExclusive] at hx
      · have hawake := not_waits_of_shared hs.reachable ht
        rw [hp] at hawake
        cases hawake
  · rcases ht with ht | ht
    · simp [(hs.disciplined.exclusive t ht).1] at hin
    · simp [hs.disciplined.shared t ht] at hin
  · rcases ht with ht | ht
    · simp [(hs.disciplined.exclusive t ht).2] at hin
    · obtain ⟨-, -, hlt, -⟩ := (sound_of_reachable hs.reachable).holding.of_mem_shared ht
      exact Nat.ne_of_lt hlt

theorem Settling.progress (hs : Settling F s) : s = (program w).init ∨
    ∃ s', ReflTransGen Unwinds s s' ∧ Settling F s' ∧ pending F s' < pending F s := by
  by_cases hready : ∃ t, (s.pc t).Ready s.word
  · obtain ⟨t, ht⟩ := hready
    exact Or.inr (hs.solo ht)
  have hstuck : ∀ t, ¬ (s.pc t).Ready s.word := fun t ht => hready ⟨t, ht⟩
  by_cases hx : s.exclusive = 0
  · by_cases hz : s.shared = 0
    · exact Or.inl (init_of_stuck hs.reachable hx hz hstuck)
    · obtain ⟨t, ht⟩ := Multiset.exists_mem_of_ne_zero hz
      have hneed : LockOp.unlockShared.need.Met s t := ht
      exact Or.inr (hs.unlock (hs.idle_of_holder (Or.inr ht) (hstuck t)) rfl hneed)
  · obtain ⟨t, ht⟩ := Multiset.exists_mem_of_ne_zero hx
    have hneed : LockOp.unlockExclusive.need.Met s t := ht
    exact Or.inr (hs.unlock (hs.idle_of_holder (Or.inl ht) (hstuck t)) rfl hneed)

/--
lock はいつでも片付けられる。

何個の thread がどの順に動いた後でも、持ったまま同じ lock を待つ thread が居なければ、途中の操作を
進めて持ち主が手放すだけで、初めの状態に戻れる。語に印も読み手の数も残らず、どちらの待ち行列にも
thread は残らない。
-/
theorem lock_drains (h : (program w).lts.Reachable s) (hd : Disciplined s) :
    ReflTransGen Unwinds s (program w).init := by
  obtain ⟨F, hF⟩ := exists_within h
  obtain ⟨s', hrun, -, rfl⟩ := star_of_decreasing (P := Settling F) (pending F)
    (fun _ hs => hs.progress) ⟨h, hd, hF⟩
  exact hrun

/-- 書き手 0 が持ち、書き手 1 と読み手 2 が眠っている。 -/
def crowdedRun : List (Nat × Sched) :=
  [(0, .enter .lockExclusive), (0, .access ⟨false, false⟩)]
    ++ (1, .enter .lockExclusive) :: List.replicate 5 (1, .access ⟨false, false⟩)
    ++ (2, .enter .lockShared) :: List.replicate 5 (2, .access ⟨false, false⟩)

theorem lock_drains_crowded : ∃ s : System Nat usize64,
    ((program usize64).lts.Reachable s ∧ s.exclusive = {0} ∧ s.writersQueue = [1] ∧
      s.readersQueue = [2]) ∧ ReflTransGen Unwinds s (program usize64).init := by
  obtain ⟨s, hrun, hx, hz, hpc, hw, hr⟩ : ∃ s : System Nat usize64,
      run crowdedRun (program usize64).init = some s ∧ s.exclusive = {0} ∧ s.shared = 0 ∧
        s.pc 0 = .idle ∧ s.writersQueue = [1] ∧ s.readersQueue = [2] :=
    ⟨_, rfl, rfl, rfl, rfl, rfl, rfl⟩
  have hreach := reachable_run (.init rfl) hrun
  refine ⟨s, ⟨hreach, hx, hw, hr⟩, lock_drains hreach ⟨fun t ht => ?_, fun t ht => ?_⟩⟩
  · rw [hx, Multiset.mem_singleton] at ht
    rw [ht, hpc]
    exact ⟨rfl, rfl⟩
  · rw [hz] at ht
    exact (Multiset.notMem_zero t ht).elim

/-! ## 重ねて読む -/

/-- `lock_shared` は、取るか、読み手の数が溢れて止まるかで終わる。 -/
theorem lockShared_access {p : Pc w} {c : Chance} {o : StepResult (Pc w) (BitVec w.bits)}
    (h : p.access c v = some o) (hp : p.inLockShared = true) (hidle : o.next = .idle) :
    o.effect = .takeShared ∨ (decode v).readers + 1 = (limit w).max := by
  have hnext : ∀ spin, (lockSharedNext v spin).next = .idle →
      (decode v).readers + 1 = (limit w).max := by
    intro spin hidle
    unfold lockSharedNext at hidle
    split at hidle
    · next hadd =>
      split at hidle
      · cases hidle
      · next hnone => exact increment_eq_none hadd hnone
    · split at hidle
      · split at hidle <;> cases hidle
      · cases hidle
  cases p with
  | tryLockSharedFast call =>
    simp only [Pc.access] at h
    split at h <;> obtain rfl := Option.some.inj h
    · cases hidle
    · cases call <;> cases hidle
  | tryLockSharedFastCas call inc =>
    simp only [Pc.access] at h
    split at h <;> obtain rfl := Option.some.inj h
    · exact Or.inl rfl
    · cases call <;> cases hidle
  | lockSharedSlow =>
    obtain rfl := Option.some.inj h
    exact Or.inr (hnext _ hidle)
  | lockSharedCas inc =>
    simp only [Pc.access] at h
    split at h <;> obtain rfl := Option.some.inj h
    · exact Or.inl rfl
    · cases hidle
  | lockSharedFlag state full =>
    simp only [Pc.access] at h
    split at h <;> obtain rfl := Option.some.inj h
    · cases hidle
    · exact Or.inr (hnext _ hidle)
  | lockSharedPark =>
    simp only [Pc.access] at h
    split at h <;> obtain rfl := Option.some.inj h <;> cases hidle
  | lockSharedParked => cases h
  | _ => cases hp

theorem Pc.rank_of_inLockShared {p : Pc w} (h : p.inLockShared = true) (ha : p.asleep = false) :
    1 ≤ p.rank v ∧ p.rank v ≤ 4 := by
  cases p with
  | tryLockSharedFast call => cases call <;> simp [Pc.rank, FastCall.rank]
  | tryLockSharedFastCas call inc =>
    simp only [Pc.rank]
    split
    · omega
    · cases call <;> simp [FastCall.rank]
  | lockSharedCas inc => simp only [Pc.rank]; split <;> omega
  | lockSharedParked => cases ha
  | lockSharedSlow | lockSharedFlag | lockSharedPark => simp [Pc.rank]
  | _ => cases h

/-- 読み手の弱い CAS が、値が等しいのに失敗する。 -/
def Pc.misfires (c : Chance) (v : BitVec w.bits) : Pc w → Bool
  | .tryLockSharedFastCas _ inc | .lockSharedCas inc => decide (v = inc.state) && c.spurious
  | _ => false

/-- 書き手が持っていない間の、`lock_shared` の一歩。待つ所には入らず、見かけの失敗でなければ進む。 -/
theorem nested_access {p : Pc w} (hin : p.inLockShared = true) (hw : p.waits = false)
    (hroom : (decode v).readers ≠ (limit w).max) (c : Chance) :
    ∃ o, p.access c v = some o ∧ (o.next = .idle ∨ o.next.inLockShared = true ∧
      o.next.waits = false ∧ o.word = v ∧
        o.next.rank v + 1 ≤ p.rank v + 3 * if p.misfires c v then 1 else 0) := by
  cases p with
  | tryLockSharedFast call =>
    simp only [Pc.access]
    split
    · next inc hinc =>
      have hstate := increment_state hinc
      refine ⟨_, rfl, Or.inr ⟨hin, rfl, rfl, ?_⟩⟩
      cases call <;> simp [Pc.rank, FastCall.rank, Pc.misfires, hstate]
    · refine ⟨_, rfl, Or.inr ?_⟩
      cases call with
      | tryLock => cases hin
      | first => exact ⟨rfl, rfl, rfl, by simp [FastCall.next, Pc.rank, FastCall.rank]⟩
      | second => exact ⟨rfl, rfl, rfl, by simp [FastCall.next, Pc.rank, FastCall.rank]⟩
  | tryLockSharedFastCas call inc =>
    simp only [Pc.access]
    split
    · exact ⟨_, rfl, Or.inl rfl⟩
    · next hne =>
      refine ⟨_, rfl, Or.inr ?_⟩
      have hrank : (call.next : Pc w).rank v + 1
          ≤ (if v = inc.state then 1 else call.rank)
            + 3 * if decide (v = inc.state) && c.spurious then 1 else 0 := by
        by_cases hv : v = inc.state
        · have hsp : c.spurious = true := Bool.eq_true_of_not_eq_false fun hsp => hne ⟨hv, hsp⟩
          cases call <;> simp [hv, hsp, FastCall.next, Pc.rank, FastCall.rank]
        · cases call <;> simp [hv, FastCall.next, Pc.rank, FastCall.rank]
      cases call with
      | tryLock => cases hin
      | first => exact ⟨rfl, rfl, rfl, hrank⟩
      | second => exact ⟨rfl, rfl, rfl, hrank⟩
  | lockSharedSlow =>
    refine ⟨_, rfl, ?_⟩
    unfold lockSharedNext
    split
    · split
      · next inc hinc =>
        have hstate := increment_state hinc
        exact Or.inr ⟨rfl, rfl, rfl, by simp [Pc.rank, hstate]⟩
      · exact Or.inl rfl
    · next full => exact (hroom (checkedAdd_eq_none full)).elim
  | lockSharedCas inc =>
    simp only [Pc.access]
    split
    · exact ⟨_, rfl, Or.inl rfl⟩
    · next hne =>
      refine ⟨_, rfl, Or.inr ⟨rfl, rfl, rfl, ?_⟩⟩
      by_cases hv : v = inc.state
      · have hsp : c.spurious = true := Bool.eq_true_of_not_eq_false fun hsp => hne ⟨hv, hsp⟩
        simp [hv, hsp, Pc.rank, Pc.misfires]
      · simp [hv, Pc.rank]
  | lockSharedFlag | lockSharedPark | lockSharedParked => cases hw
  | _ => cases hin

/-- 邪魔の入った一歩。他の thread が語を変えたか、`t` の CAS が見かけの失敗をした。 -/
def disturbed (t : T) (s s' : System T w) (x : T × Sched) : Bool :=
  if x.1 = t then
    match x.2 with
    | .access c => (s.pc t).misfires c s.word
    | .enter _ => false
  else decide (s'.word ≠ s.word)

/-- 実行の間に邪魔の入った回数。 -/
def disturbances (t : T) : List (T × Sched) → System T w → Nat
  | [], _ => 0
  | x :: l, s =>
    match perform s x.1 x.2 with
    | some s' => (if disturbed t s s' x then 1 else 0) + disturbances t l s'
    | none => 0

theorem Effect.count_sharedAfter {e : Effect} {m : Multiset T} {u : T} (hne : u ≠ t) :
    (e.sharedAfter t m).count u = m.count u := by
  cases e <;> simp [Effect.sharedAfter, hne, Multiset.count_erase_of_ne hne]

/-- 他の thread の一歩は、眠っていない thread の居場所も持ち物も変えない。 -/
theorem perform_other (h : (program w).lts.Reachable s) {u : T} (hne : u ≠ t)
    (hawake : (s.pc t).asleep = false) {a : Sched} (hp : perform s u a = some s') :
    s'.pc t = s.pc t ∧ s'.shared.count t = s.shared.count t := by
  cases step_iff_perform.mpr ⟨a, hp⟩ with
  | enter he hn => exact ⟨Function.update_of_ne hne.symm _ _, rfl⟩
  | @access o ha =>
    refine ⟨?_, Effect.count_sharedAfter hne.symm⟩
    rcases (queued_of_reachable h).pc_other (o := o) hne.symm with hpc | ⟨hpc, -⟩ | ⟨hpc, -⟩
    · exact hpc
    · rw [hpc] at hawake
      cases hawake
    · rw [hpc] at hawake
      cases hawake

/-- 呼び出しを終えた thread は、自分から動かない限り、終えたままである。 -/
theorem run_idle {l : List (T × Sched)} :
    ∀ {s : System T w}, (program w).lts.Reachable s → s.pc t = .idle →
      (∀ x ∈ l, x.1 = t → ∃ c, x.2 = .access c) → run l s = some s' →
      s'.pc t = .idle ∧ s'.shared.count t = s.shared.count t := by
  induction l with
  | nil =>
    intro s _ hidle _ hrun
    obtain rfl := Option.some.inj hrun
    exact ⟨hidle, rfl⟩
  | cons x l ih =>
    intro s hr hidle hown hrun
    obtain ⟨s₁, hperform, hrest⟩ := Option.bind_eq_some_iff.mp hrun
    have hne : x.1 ≠ t := by
      intro heq
      obtain ⟨c, hc⟩ := hown x List.mem_cons_self heq
      rw [heq, hc] at hperform
      simp only [perform, hidle] at hperform
      cases hperform
    obtain ⟨hpc, hcount⟩ := perform_other hr hne (by rw [hidle]; rfl) hperform
    have hr₁ : (program w).lts.Reachable s₁ := .step hr (step_iff_perform.mpr ⟨_, hperform⟩)
    obtain ⟨hpc', hcount'⟩ := ih hr₁ (hpc.trans hidle)
      (fun y hy => hown y (List.mem_cons_of_mem _ hy)) hrest
    exact ⟨hpc', hcount'.trans hcount⟩

/-- `lock_shared` を終えた。取っているか、途中で読み手の数が上限に達していた。 -/
def NestedDone (t : T) (s s' : System T w) (l : List (T × Sched)) : Prop :=
  s'.pc t = .idle ∧ (s'.shared.count t = s.shared.count t + 1 ∨
    ∃ l₁ x l₂ s₁, l = l₁ ++ x :: l₂ ∧ x.1 = t ∧ run l₁ s = some s₁ ∧
      s₁.shared.card + 1 = (limit w).max)

/-- 重ねて読む thread の自分の一歩。 -/
theorem nested_own (h : (program w).lts.Reachable s) (ht : t ∈ s.shared)
    (hin : (s.pc t).inLockShared = true) {c : Chance}
    (hp : perform s t (.access c) = some s') :
    (s'.pc t = .idle ∧ (s'.shared.count t = s.shared.count t + 1 ∨
      s.shared.card + 1 = (limit w).max)) ∨
    (s'.pc t).inLockShared = true ∧ s'.shared.count t = s.shared.count t ∧
      1 + (s'.pc t).rank s'.word
        ≤ (s.pc t).rank s.word + 3 * if (s.pc t).misfires c s.word then 1 else 0 := by
  obtain ⟨-, hcard, hlt, -⟩ := (sound_of_reachable h).holding.of_mem_shared ht
  obtain ⟨o, ho, hnext⟩ := nested_access hin (not_waits_of_shared h ht) (Nat.ne_of_lt hlt) c
  obtain ⟨hw, hr⟩ := awake_of_access ho
  have hself : (s.after (program w) t o).pc t = o.next := (queued_of_reachable h).pc_self hw hr
  obtain rfl : s.after (program w) t o = s' := by
    simpa only [perform, ho, Option.map_some, Option.some.injEq] using hp
  rw [hself]
  rcases hnext with hidle | ⟨hin', -, hword, hrank⟩
  · refine Or.inl ⟨hidle, ?_⟩
    rcases lockShared_access ho hin hidle with he | hfull
    · refine Or.inl ?_
      show (o.effect.sharedAfter t s.shared).count t = _
      rw [he]
      exact Multiset.count_cons_self t _
    · exact Or.inr (by rw [← hfull]; exact congrArg (· + 1) hcard.symm)
  · refine Or.inr ⟨hin', ?_, ?_⟩
    · have hweight := Pc.weight_of_inLockShared hin
      rcases acquire_access ho hweight with ⟨-, -, -, hg, hl⟩ | ⟨hidle, -, -⟩
      · exact congrArg (Multiset.count t) (sharedAfter_of_still hg hl)
      · rw [hidle] at hin'
        cases hin'
    · show 1 + o.next.rank o.word ≤ _
      rw [hword]
      omega

/-- 他の thread の一歩。語が変わって CAS が無駄になっても、やり直しは 3 歩で済む。 -/
theorem nested_other (h : (program w).lts.Reachable s) (ht : t ∈ s.shared)
    (hin : (s.pc t).inLockShared = true) {u : T} (hne : u ≠ t) {a : Sched}
    (hp : perform s u a = some s') :
    (s'.pc t).inLockShared = true ∧ s'.shared.count t = s.shared.count t ∧
      (s'.pc t).rank s'.word
        ≤ (s.pc t).rank s.word + 3 * if s'.word ≠ s.word then 1 else 0 := by
  have hawake := Pc.awake_of_inLockShared hin (not_waits_of_shared h ht)
  obtain ⟨hpc, hcount⟩ := perform_other h hne hawake hp
  rw [hpc]
  refine ⟨hin, hcount, ?_⟩
  by_cases hword : s'.word = s.word
  · rw [hword]
    exact Nat.le_add_right _ _
  · have hbefore := Pc.rank_of_inLockShared (v := s.word) hin hawake
    have hafter := Pc.rank_of_inLockShared (v := s'.word) hin hawake
    rw [if_pos hword]
    omega

/-- 実行の一歩。終えるか、残りの歩数が減る。邪魔が入れば 3 まで戻る。 -/
theorem nested_step (h : (program w).lts.Reachable s) (ht : t ∈ s.shared)
    (hin : (s.pc t).inLockShared = true) {x : T × Sched}
    (hown : x.1 = t → ∃ c, x.2 = .access c) (hp : perform s x.1 x.2 = some s') :
    (x.1 = t ∧ s'.pc t = .idle ∧ (s'.shared.count t = s.shared.count t + 1 ∨
      s.shared.card + 1 = (limit w).max)) ∨
    (s'.pc t).inLockShared = true ∧ s'.shared.count t = s.shared.count t ∧
      (if x.1 = t then 1 else 0) + (s'.pc t).rank s'.word
        ≤ (s.pc t).rank s.word + 3 * if disturbed t s s' x then 1 else 0 := by
  rcases eq_or_ne x.1 t with heq | hne
  · obtain ⟨c, hc⟩ := hown heq
    rw [heq, hc] at hp
    have hdisturbed : disturbed t s s' x = (s.pc t).misfires c s.word := by
      simp [disturbed, heq, hc]
    rw [hdisturbed, if_pos heq]
    exact (nested_own h ht hin hp).imp_left fun hend => ⟨heq, hend⟩
  · have hdisturbed : disturbed t s s' x = decide (s'.word ≠ s.word) := by simp [disturbed, hne]
    rw [hdisturbed, if_neg hne, Nat.zero_add]
    simpa only [decide_eq_true_eq] using Or.inr (nested_other h ht hin hne hp)

/-- 呼び出しの途中の歩数は、残りの歩数と邪魔の回数で抑えられる。 -/
theorem nested_run {l : List (T × Sched)} :
    ∀ {s : System T w}, (program w).lts.Reachable s → t ∈ s.shared →
      (s.pc t).inLockShared = true → (∀ x ∈ l, x.1 = t → ∃ c, x.2 = .access c) →
      run l s = some s' → NestedDone t s s' l ∨ t ∈ s'.shared ∧ (s'.pc t).inLockShared = true ∧
        l.countP (fun x => x.1 = t) + (s'.pc t).rank s'.word
          ≤ (s.pc t).rank s.word + 3 * disturbances t l s := by
  induction l with
  | nil =>
    intro s _ ht hin _ hrun
    obtain rfl := Option.some.inj hrun
    exact Or.inr ⟨ht, hin, by simp [disturbances]⟩
  | cons x l ih =>
    intro s hr ht hin hown hrun
    obtain ⟨s₁, hperform, hrest⟩ := Option.bind_eq_some_iff.mp hrun
    have hr₁ : (program w).lts.Reachable s₁ := .step hr (step_iff_perform.mpr ⟨_, hperform⟩)
    have hown' : ∀ y ∈ l, y.1 = t → ∃ c, y.2 = .access c :=
      fun y hy => hown y (List.mem_cons_of_mem _ hy)
    rcases nested_step hr ht hin (hown x List.mem_cons_self) hperform with
      ⟨heq, hidle, hend⟩ | ⟨hin₁, hsame, hrank⟩
    · obtain ⟨hidle', hcount⟩ := run_idle hr₁ hidle hown' hrest
      exact Or.inl ⟨hidle', hend.imp (fun hheld => hcount.trans hheld)
        fun hfull => ⟨[], x, l, s, rfl, heq, rfl, hfull⟩⟩
    have ht₁ : t ∈ s₁.shared := by
      rw [← Multiset.count_pos, hsame, Multiset.count_pos]
      exact ht
    rcases ih hr₁ ht₁ hin₁ hown' hrest with ⟨hidle, hend⟩ | ⟨ht', hin', hcount⟩
    · refine Or.inl ⟨hidle, ?_⟩
      rcases hend with hheld | ⟨l₁, y, l₂, s₂, rfl, hy, hrun₂, hfull⟩
      · exact Or.inl (by rw [hheld, hsame])
      · exact Or.inr ⟨x :: l₁, y, l₂, s₂, rfl, hy,
          Option.bind_eq_some_iff.mpr ⟨s₁, hperform, hrun₂⟩, hfull⟩
    · refine Or.inr ⟨ht', hin', ?_⟩
      simp only [disturbances, hperform, List.countP_cons, decide_eq_true_eq]
      omega

/--
読み手は、自分が持っている lock を重ねて読むときに待たない。

他の thread がどう動き、弱い CAS がいつ見かけの失敗をしても、読み手として持つ thread の `lock_shared`
の途中では、その thread は眠りも眠る支度もせず、いつでも次の一歩を行える。それまでの自分の歩数は、
他の thread が語を変えた回数と自分の CAS の見かけの失敗の回数を `d` として、`4 + 3 * d` より少ない。
終えたときは、もう一つ取っているか、途中で読み手の数が上限に達して表明に反したかである。
-/
theorem nested_read_never_waits (h : (program w).lts.Reachable s) (ht : t ∈ s.shared)
    (hin : (s.pc t).inLockShared = true) {l : List (T × Sched)}
    (hown : ∀ x ∈ l, x.1 = t → ∃ c, x.2 = .access c) (hrun : run l s = some s') :
    (s'.pc t = .idle ∧ (s'.shared.count t = s.shared.count t + 1 ∨
      ∃ l₁ x l₂ s₁, l = l₁ ++ x :: l₂ ∧ x.1 = t ∧ run l₁ s = some s₁ ∧
        s₁.shared.card + 1 = (limit w).max)) ∨
    (s'.pc t).inLockShared = true ∧ (s'.pc t).waits = false ∧ ¬ s'.Parked t ∧
      l.countP (fun x => x.1 = t) < 4 + 3 * disturbances t l s ∧
      ∀ c, ∃ o, (s'.pc t).access c s'.word = some o ∧ o.effect ≠ .parkReader := by
  rcases nested_run h ht hin hown hrun with hdone | ⟨ht', hin', hcount⟩
  · exact Or.inl hdone
  have hr' := reachable_run h hrun
  have hwait' := not_waits_of_shared hr' ht'
  have hawake' := Pc.awake_of_inLockShared hin' hwait'
  obtain ⟨-, -, hlt, -⟩ := (sound_of_reachable hr').holding.of_mem_shared ht'
  refine Or.inr ⟨hin', hwait', fun hparked => ?_, ?_, fun c => ?_⟩
  · have hq := queued_of_reachable hr'
    rcases hparked with hp | hp
    · rw [(hq.writer t).mp hp] at hawake'
      cases hawake'
    · rw [(hq.reader t).mp hp] at hawake'
      cases hawake'
  · have hstart := Pc.rank_of_inLockShared (v := s.word) hin
      (Pc.awake_of_inLockShared hin (not_waits_of_shared h ht))
    have hend := Pc.rank_of_inLockShared (v := s'.word) hin' hawake'
    omega
  · obtain ⟨o, ho, hnext⟩ := nested_access hin' hwait' (Nat.ne_of_lt hlt) c
    refine ⟨o, ho, fun hpark => ?_⟩
    -- 眠る効果は、眠る所へ移る一歩だけにある
    have hparked := Pc.role_parked.2.mp ((Access.parks ((sim w).access ⟨c, ho⟩)).2.mp hpark)
    rcases hnext with hidle | ⟨-, hw, -⟩
    · rw [hidle] at hparked
      cases hparked
    · rw [hparked] at hw
      cases hw

/-- 読み手 0 が持ち、書き手 1 が眠り、0 が重ねて読み始める。 -/
def nestedStartRun : List (Nat × Sched) :=
  [(0, .enter .lockShared), (0, .access ⟨false, false⟩), (0, .access ⟨false, false⟩)]
    ++ (1, .enter .lockExclusive) :: List.replicate 5 (1, .access ⟨false, false⟩)
    ++ [(0, .enter .lockShared)]

/-- 読み手 2 が先に取って 0 の CAS を無駄にし、0 の次の CAS は見かけの失敗をする。 -/
def nestedRestRun : List (Nat × Sched) :=
  [(0, .access ⟨false, false⟩), (2, .enter .lockShared), (2, .access ⟨false, false⟩),
    (2, .access ⟨false, false⟩), (0, .access ⟨false, false⟩), (0, .access ⟨false, false⟩),
    (0, .access ⟨true, false⟩)]

theorem nested_read_never_waits_behind : ∃ s s' : System Nat usize64,
    ((program usize64).lts.Reachable s ∧ s.writersQueue = [1] ∧ s.shared = {0} ∧
      run nestedRestRun s = some s' ∧ s'.shared = {2, 0} ∧ s'.pc 0 = .lockSharedSlow ∧
        disturbances 0 nestedRestRun s = 2) ∧
      ((s'.pc 0 = .idle ∧ (s'.shared.count 0 = s.shared.count 0 + 1 ∨
        ∃ l₁ x l₂ s₁, nestedRestRun = l₁ ++ x :: l₂ ∧ x.1 = 0 ∧ run l₁ s = some s₁ ∧
          s₁.shared.card + 1 = (limit usize64).max)) ∨
      (s'.pc 0).inLockShared = true ∧ (s'.pc 0).waits = false ∧ ¬ s'.Parked 0 ∧
        nestedRestRun.countP (fun x => x.1 = 0) < 4 + 3 * disturbances 0 nestedRestRun s ∧
        ∀ c, ∃ o, (s'.pc 0).access c s'.word = some o ∧ o.effect ≠ .parkReader) := by
  obtain ⟨s, s', hrun, hrest, hq, hsh, hpc, hsh', hpc', hd⟩ : ∃ s s' : System Nat usize64,
      run nestedStartRun (program usize64).init = some s ∧ run nestedRestRun s = some s' ∧
        s.writersQueue = [1] ∧ s.shared = {0} ∧ s.pc 0 = .tryLockSharedFast .first ∧
        s'.shared = {2, 0} ∧ s'.pc 0 = .lockSharedSlow ∧ disturbances 0 nestedRestRun s = 2 :=
    ⟨_, _, rfl, rfl, rfl, rfl, rfl, rfl, rfl, rfl⟩
  have hreach := reachable_run (.init rfl) hrun
  refine ⟨s, s', ⟨hreach, hq, hsh, hrest, hsh', hpc', hd⟩,
    nested_read_never_waits hreach ?_ ?_ (by simp [nestedRestRun]) hrest⟩
  · rw [hsh]
    exact Multiset.mem_singleton_self 0
  · rw [hpc]
    rfl

/-! ## 手放す操作 -/

/-- 解放か降格の途中。 -/
def Pc.inRelease : Pc w → Bool
  | .unlockExclusive | .unlockExclusiveSlow | .unlockExclusiveCas _ _ _ => true
  | .unlockExclusiveStore | .unlockExclusiveUnpark _ => true
  | .unlockShared | .unlockSharedSlow | .unlockSharedUnpark => true
  | .downgrade | .downgradeUnpark => true
  | _ => false

theorem Pc.inRelease_iff {p : Pc w} : p.inRelease = true ↔ p ≠ .idle ∧ p.weight ≠ 3 := by
  cases p <;> simp [Pc.inRelease, Pc.weight]

/-- 手放す操作は、いつでも一人で終えられる。 -/
theorem Pc.Ready.of_inRelease {p : Pc w} (h : p.inRelease = true) (u : BitVec w.bits) :
    p.Ready u := by
  obtain ⟨hbusy, hweight⟩ := Pc.inRelease_iff.mp h
  obtain ⟨hx, hs⟩ := Pc.not_inLock hweight
  have hawake : p.asleep = false := by
    cases p <;> first | rfl | cases h
  exact .of_release hbusy hawake hx hs u

/-- 手放す操作は、弱い CAS を使わず、待ちもしない。 -/
theorem release_chance {p : Pc w} (h : p.inRelease = true) (c : Chance) :
    p.access c v = p.access ⟨false, false⟩ v := by
  cases p <;> first | rfl | cases h

/-- 手放す操作の一歩は、必ず行えて、操作を終えるか終わりに近づく。 -/
theorem release_step {p : Pc w} (h : p.inRelease = true) (c : Chance) :
    ∃ o, p.access c v = some o ∧
      (o.next = .idle ∨ (o.next.inRelease = true ∧ o.next.rank o.word < p.rank v)) := by
  obtain ⟨-, hweight⟩ := Pc.inRelease_iff.mp h
  obtain ⟨o, ho, hnear⟩ := (Pc.Ready.of_inRelease h v).access
  refine ⟨o, (release_chance h c).trans ho, hnear.imp_right fun ⟨hnext, hrank⟩ => ?_⟩
  exact ⟨Pc.inRelease_iff.mpr ⟨hnext.busy, (release_access ho hweight).1⟩, hrank⟩

/-- 手放す操作の残りの歩数は、語に依らない。 -/
theorem Pc.rank_of_inRelease {p : Pc w} (h : p.inRelease = true) (u : BitVec w.bits) :
    p.rank u = p.rank v := by
  cases p <;> first | rfl | cases h

/-- 手放す操作で表明を置くのは、書き手の解放だけである。 -/
theorem release_panic {p : Pc w} (h : p.inRelease = true) {c : Chance}
    {o : StepResult (Pc w) (BitVec w.bits)} (hc : p.access c v = some o)
    (hpanic : o.effect = .panic) : p.inUnlockExclusive = true := by
  cases p with
  | unlockShared | unlockSharedUnpark | downgrade | downgradeUnpark =>
    obtain rfl := Option.some.inj hc
    cases hpanic
  | unlockSharedSlow =>
    simp only [Pc.access] at hc
    split at hc <;> obtain rfl := Option.some.inj hc <;> cases hpanic
  | _ => first | rfl | cases h

/-- 手放す途中の thread は、自分の一歩で終わりに近づき、他の thread の一歩では動かない。 -/
theorem inRelease_step (h : (program w).lts.Reachable s) (hin : (s.pc t).inRelease = true) {u : T}
    (hstep : (program w).Step s u s') :
    (u ≠ t ∧ s'.pc t = s.pc t) ∨
      (u = t ∧ (s'.pc t = .idle ∨
        (s'.pc t).inRelease = true ∧ (s'.pc t).rank s'.word < (s.pc t).rank s.word)) := by
  have hq := queued_of_reachable h
  cases hstep with
  | enter he hn =>
    obtain ⟨op, hidle, -, rfl⟩ := he
    have hne : u ≠ t := fun heq => by
      rw [← heq, hidle] at hin
      cases hin
    exact Or.inl ⟨hne, Function.update_of_ne hne.symm _ _⟩
  | @access o ha =>
    obtain ⟨c, hc⟩ := ha
    rcases eq_or_ne u t with rfl | hne
    · obtain ⟨hw, hr⟩ := awake_of_access hc
      obtain ⟨o', ho', hnext⟩ := release_step hin c (v := s.word)
      obtain rfl : o' = o := Option.some.inj (ho'.symm.trans hc)
      rw [hq.pc_self hw hr]
      exact Or.inr ⟨rfl, hnext⟩
    · refine Or.inl ⟨hne, ?_⟩
      rcases hq.pc_other (o := o) hne.symm with hpc | ⟨hp, -⟩ | ⟨hp, -⟩
      · exact hpc
      · rw [hp] at hin
        cases hin
      · rw [hp] at hin
        cases hin

/--
手放す操作は待たない。

`unlock_shared`・`unlock_exclusive`・`downgrade` の途中の thread は、他の thread がどう動いても、
いつでも次の一歩を行え、その一歩は表明を破らない。自分が 5 歩動くまでに、操作を終えている。
-/
theorem release_wait_free (h : (program w).lts.Reachable s) (hin : (s.pc t).inRelease = true)
    {tr : List (System T w × T)} (hp : (program w).lts.Path s tr s') :
    (∃ x ∈ tr, x.1.pc t = .idle) ∨ s'.pc t = .idle ∨
      tr.countP (fun x => x.2 = t) < 5 ∧
        ∀ c, ∃ o, (s'.pc t).access c s'.word = some o ∧ o.effect ≠ .panic := by
  have hinv : (∃ x ∈ tr, x.1.pc t = .idle) ∨ s'.pc t = .idle ∨ (s'.pc t).inRelease = true ∧
      tr.countP (fun x => x.2 = t) + (s'.pc t).rank s'.word ≤ 5 := by
    refine hp.invariant (P := fun tr s' => (∃ x ∈ tr, x.1.pc t = .idle) ∨ s'.pc t = .idle ∨
      (s'.pc t).inRelease = true ∧ tr.countP (fun x => x.2 = t) + (s'.pc t).rank s'.word ≤ 5) ?_ ?_
    · refine Or.inr (Or.inr ⟨hin, ?_⟩)
      rw [List.countP_nil, Nat.zero_add]
      exact Pc.rank_le _
    · intro l s₁ u s₂ hpath hi hstep
      rcases hi with ⟨x, hx, hidle⟩ | hidle | ⟨hrel, hcount⟩
      · exact Or.inl ⟨x, List.mem_append_left _ hx, hidle⟩
      · exact Or.inl ⟨(s₁, u), List.mem_append_right _ (List.mem_singleton_self _), hidle⟩
      · rw [List.countP_append, List.countP_singleton]
        refine Or.inr ?_
        rcases inRelease_step (hpath.reachable h) hrel hstep with
          ⟨hne, hpc⟩ | ⟨rfl, hidle | ⟨hrel', hrank⟩⟩
        · rw [hpc, if_neg (by simpa using hne), Pc.rank_of_inRelease hrel s₂.word]
          exact Or.inr ⟨hrel, hcount⟩
        · exact Or.inl hidle
        · rw [if_pos (by simp)]
          exact Or.inr ⟨hrel', by omega⟩
  rcases hinv with hpast | hidle | ⟨hrel, hcount⟩
  · exact Or.inl hpast
  · exact Or.inr (Or.inl hidle)
  · have hpos : 0 < (s'.pc t).rank s'.word := by
      generalize s'.pc t = p at hrel
      cases p <;> first | cases hrel; done | simp [Pc.rank]
    refine Or.inr (Or.inr ⟨by omega, fun c => ?_⟩)
    obtain ⟨o, ho, -⟩ := release_step hrel c (v := s'.word)
    exact ⟨o, ho, fun hpanic => no_panic (hp.reachable h) ho (release_panic hrel ho hpanic) hpanic⟩

/-- 書き手 0 が持ち、書き手 1 が眠り、0 が手放し始める。 -/
def releaseStartRun : List (Nat × Sched) :=
  [(0, .enter .lockExclusive), (0, .access ⟨false, false⟩)]
    ++ (1, .enter .lockExclusive) :: List.replicate 5 (1, .access ⟨false, false⟩)
    ++ [(0, .enter .unlockExclusive)]

/-- 読み手 2 が割り込む間に、0 が 2 歩動く。 -/
def releaseRestRun : List (Nat × Sched) :=
  [(0, .access ⟨false, false⟩), (2, .enter .lockShared), (2, .access ⟨false, false⟩),
    (0, .access ⟨false, false⟩)]

theorem release_wait_free_raced : ∃ (s s' : System Nat usize64) (tr : List (System Nat usize64 × Nat)),
    ((program usize64).lts.Reachable s ∧ s.pc 0 = .unlockExclusive ∧
      (program usize64).lts.Path s tr s' ∧ (s'.pc 0).inRelease = true) ∧
      ((∃ x ∈ tr, x.1.pc 0 = .idle) ∨ s'.pc 0 = .idle ∨ tr.countP (fun x => x.2 = 0) < 5 ∧
        ∀ c, ∃ o, (s'.pc 0).access c s'.word = some o ∧ o.effect ≠ .panic) := by
  obtain ⟨s, s', hrun, hrest, hpc, hpc'⟩ : ∃ s s' : System Nat usize64,
      run releaseStartRun (program usize64).init = some s ∧ run releaseRestRun s = some s' ∧
        s.pc 0 = .unlockExclusive ∧ (s'.pc 0).inRelease = true := ⟨_, _, rfl, rfl, rfl, rfl⟩
  have hreach := reachable_run (.init rfl) hrun
  obtain ⟨tr, htr⟩ := path_run hrest
  exact ⟨s, s', tr, ⟨hreach, hpc, htr, hpc'⟩, release_wait_free hreach (by rw [hpc]; rfl) htr⟩

end Neocache.RawRwLock
