import Neocache.Properties.LockWakeup

/-!
# 書き手の解放

`unlock_exclusive` と `unlock_exclusive_slow` は、読み込み・CAS・書き込みの間に他の thread が語を
変えうるのに、四つの表明を置き、最後は CAS でなく `store` で語を書き替える。表明が破れず、`store`
が他の thread の変更を消さないことを示す。

書き手が持つ間、他の thread は印を立てることしかできない（`Access.grows`）。そこで、解放の途中の
thread が前に見たことを `Pc.Grounded` として持ち、それが後の語についても正しいことを不変条件に
する。
-/

namespace Neocache.RawRwLock

open Infra.Parking LockProtocol

variable {w : Word} {v : BitVec w.bits}

/-- `unlock_exclusive` の途中。 -/
def Pc.inUnlockExclusive : Pc w → Bool
  | .unlockExclusive | .unlockExclusiveSlow | .unlockExclusiveCas _ _ _ => true
  | .unlockExclusiveStore | .unlockExclusiveUnpark _ => true
  | _ => false

/-- 眠っている thread が居るという印が、少なくとも一つ立っている。 -/
def Flagged (v : BitVec w.bits) : Prop :=
  (decode v).writersParked = true ∨ (decode v).readersParked = true

/-- 解放の途中の thread が前に見たことは、語についてまだ正しい。 -/
def Pc.Grounded (word : BitVec w.bits) : Pc w → Prop
  | .unlockExclusiveSlow => Flagged word
  | .unlockExclusiveCas state _ _ => Flagged state ∧
    ((decode state).writersParked = true → (decode word).writersParked = true) ∧
    ((decode state).readersParked = true → (decode word).readersParked = true)
  | .unlockExclusiveUnpark parked => parked = readersParked w ∨ parked = writersParked w
  | _ => True

/-! ## 一歩ごとの事実 -/

theorem flagged_iff : Flagged v ↔ v &&& (readersParked w ||| writersParked w) ≠ 0 := by
  have hparked := decode_and_parked v
  have hzero : v &&& (readersParked w ||| writersParked w) = 0 ↔
      (decode v).writersParked = false ∧ (decode v).readersParked = false := by
    constructor
    · intro h
      rw [h, decode_zero] at hparked
      obtain ⟨-, h1, h0⟩ := LockWord.mk.inj hparked
      exact ⟨h1.symm, h0.symm⟩
    · rintro ⟨h1, h0⟩
      refine decode_inj (hparked.trans ?_)
      simp only [decode_zero, h1, h0]
  unfold Flagged
  rw [Ne, hzero]
  cases (decode v).writersParked <;> cases (decode v).readersParked <;> simp

/-- 書き手の値で、印が一つもなければ `ONE_WRITER` である。 -/
theorem flagged_of_ne (hmax : (decode v).readers = (limit w).max) (hne : v ≠ oneWriter w) :
    Flagged v := by
  by_contra hf
  obtain ⟨h1, h0⟩ := not_or.mp hf
  refine hne (decode_inj ?_)
  rw [decode_oneWriter, show decode v = ⟨(decode v).readers, (decode v).writersParked,
    (decode v).readersParked⟩ from rfl, hmax, Bool.eq_false_of_not_eq_true h1,
    Bool.eq_false_of_not_eq_true h0]

/-- 一つだけ立っている印は、読み手のものか書き手のものである。 -/
theorem parked_of_one (hf : Flagged v)
    (one : ¬ v &&& (readersParked w ||| writersParked w) = readersParked w ||| writersParked w) :
    v &&& (readersParked w ||| writersParked w) = readersParked w ∨
      v &&& (readersParked w ||| writersParked w) = writersParked w := by
  have hparked := decode_and_parked v
  generalize v &&& (readersParked w ||| writersParked w) = parked at hparked one
  unfold Flagged at hf
  generalize decode v = d at hf hparked
  obtain ⟨c, a, b⟩ := d
  cases a with
  | false =>
    cases b with
    | false => simp at hf
    | true => exact Or.inl (decode_inj (hparked.trans decode_readersParked.symm))
  | true =>
    cases b with
    | false => exact Or.inr (decode_inj (hparked.trans decode_writersParked.symm))
    | true =>
      exact (one (decode_inj (hparked.trans decode_readersParked_or_writersParked.symm))).elim

/-- 前に見た語から印が増えていれば、両方の印が立っている。 -/
theorem eq_both_of_grown {state : BitVec w.bits} (hmax : (decode v).readers = (limit w).max)
    (held : state &&& oneWriter w = oneWriter w) (hf : Flagged state)
    (hw : (decode state).writersParked = true → (decode v).writersParked = true)
    (hr : (decode state).readersParked = true → (decode v).readersParked = true)
    (hne : v ≠ state) : v = oneWriter w ||| readersParked w ||| writersParked w := by
  have hheld : (decode state).readers = (limit w).max := and_oneWriter_eq_self.mp held
  have hne' : decode v ≠ decode state := fun h => hne (decode_inj h)
  refine decode_inj (Eq.trans ?_ decode_both.symm)
  unfold Flagged at hf
  generalize decode v = d, decode state = e at hmax hheld hf hw hr hne'
  obtain ⟨c, a, b⟩ := d
  obtain ⟨c', a', b'⟩ := e
  obtain rfl : c = (limit w).max := hmax
  obtain rfl : c' = (limit w).max := hheld
  cases a <;> cases b <;> cases a' <;> cases b' <;> simp_all

theorem lockExclusiveNext_grounded (a : AcquireWith) (state : BitVec w.bits) (spin : Bool) :
    (lockExclusiveNext a state spin).Grounded v := by
  unfold lockExclusiveNext
  split
  · exact trivial
  · split
    · split <;> exact trivial
    · exact trivial

theorem FastCall.next_grounded (call : FastCall) : (call.next : Pc w).Grounded v := by
  cases call <;> exact trivial

theorem tryLockSharedNext_grounded (state : BitVec w.bits) :
    (tryLockSharedNext state).next.Grounded v := by
  unfold tryLockSharedNext
  split <;> exact trivial

theorem lockSharedNext_grounded (state : BitVec w.bits) (spin : Bool) :
    (lockSharedNext state spin).next.Grounded v := by
  unfold lockSharedNext
  split
  · split <;> exact trivial
  · split
    · split <;> exact trivial
    · exact trivial

/-- 解放の途中の一歩は、表明を破らず、次に見ることの根拠を残す。 -/
theorem unlockExclusive_access {p : Pc w} {c : Chance} {o : StepResult (Pc w) (BitVec w.bits)}
    (h : p.access c v = some o) (hp : p.inUnlockExclusive = true) (hg : p.Grounded v)
    (hmax : p.role = .releasing → (decode v).readers = (limit w).max) :
    o.effect ≠ .panic ∧ o.next.Grounded o.word := by
  cases p with
  | unlockExclusive =>
    simp only [Pc.access] at h
    split at h <;> obtain rfl := Option.some.inj h
    · exact ⟨by simp, trivial⟩
    · next hne => exact ⟨by simp, flagged_of_ne (hmax rfl) hne⟩
  | unlockExclusiveSlow =>
    have held : v &&& oneWriter w = oneWriter w := and_oneWriter_eq_self.mpr (hmax rfl)
    simp only [Pc.access, dif_pos held, if_neg (flagged_iff.mp hg)] at h
    split at h <;> obtain rfl := Option.some.inj h
    · exact ⟨by simp, hg, id, id⟩
    · exact ⟨by simp, trivial⟩
  | unlockExclusiveCas state held one =>
    obtain ⟨hf, hw, hr⟩ := hg
    simp only [Pc.access] at h
    split at h
    · obtain rfl := Option.some.inj h
      exact ⟨by simp, parked_of_one hf one⟩
    · next hne =>
      -- 値が変わったのなら、立っていなかった方の印が立った
      rw [if_pos (eq_both_of_grown (hmax rfl) held hf hw hr hne)] at h
      obtain rfl := Option.some.inj h
      exact ⟨by simp, trivial⟩
  | unlockExclusiveStore =>
    obtain rfl := Option.some.inj h
    exact ⟨by simp, Or.inl rfl⟩
  | unlockExclusiveUnpark parked =>
    simp only [Pc.access] at h
    split at h
    · obtain rfl := Option.some.inj h
      exact ⟨by simp, trivial⟩
    · next hne =>
      rw [if_pos (Or.resolve_left hg hne)] at h
      obtain rfl := Option.some.inj h
      exact ⟨by simp, trivial⟩
  | _ => cases hp

/-- 解放の途中の thread は止まっていない。 -/
theorem unlockExclusive_total {p : Pc w} (hp : p.inUnlockExclusive = true) (c : Chance)
    (v : BitVec w.bits) : ∃ o, p.access c v = some o := by
  cases p with
  | unlockExclusive =>
    simp only [Pc.access]
    split <;> exact ⟨_, rfl⟩
  | unlockExclusiveSlow =>
    simp only [Pc.access]
    split
    · split
      · exact ⟨_, rfl⟩
      · split <;> exact ⟨_, rfl⟩
    · exact ⟨_, rfl⟩
  | unlockExclusiveCas state held one =>
    simp only [Pc.access]
    split
    · exact ⟨_, rfl⟩
    · split <;> exact ⟨_, rfl⟩
  | unlockExclusiveStore => exact ⟨_, rfl⟩
  | unlockExclusiveUnpark parked =>
    simp only [Pc.access]
    split
    · exact ⟨_, rfl⟩
    · split <;> exact ⟨_, rfl⟩
  | _ => cases hp

/-- 他の操作の一歩は、解放の途中には着かない。 -/
theorem other_access {p : Pc w} {c : Chance} {o : StepResult (Pc w) (BitVec w.bits)}
    (h : p.access c v = some o) (hp : p.inUnlockExclusive = false) (u : BitVec w.bits) :
    o.next.Grounded u := by
  cases p with
  | idle => cases h
  | lockExclusiveParked => cases h
  | lockSharedParked => cases h
  | lockExclusive retry =>
    simp only [Pc.access] at h
    split at h <;> obtain rfl := Option.some.inj h
    · exact trivial
    · cases retry <;> exact trivial
  | lockExclusiveSlow a =>
    obtain rfl := Option.some.inj h
    exact lockExclusiveNext_grounded a v c.spin
  | lockExclusiveCas a state free =>
    simp only [Pc.access] at h
    split at h <;> obtain rfl := Option.some.inj h
    · exact trivial
    · exact lockExclusiveNext_grounded a v c.spin
  | lockExclusiveFlag a state held =>
    simp only [Pc.access] at h
    split at h <;> obtain rfl := Option.some.inj h
    · exact trivial
    · exact lockExclusiveNext_grounded a v c.spin
  | tryLockSharedFast call =>
    simp only [Pc.access] at h
    split at h <;> obtain rfl := Option.some.inj h
    · exact trivial
    · exact call.next_grounded
  | tryLockSharedFastCas call inc =>
    simp only [Pc.access] at h
    split at h <;> obtain rfl := Option.some.inj h
    · exact trivial
    · exact call.next_grounded
  | tryLockSharedSlow =>
    obtain rfl := Option.some.inj h
    exact tryLockSharedNext_grounded v
  | tryLockSharedSlowCas inc =>
    simp only [Pc.access] at h
    split at h <;> obtain rfl := Option.some.inj h
    · exact trivial
    · exact tryLockSharedNext_grounded v
  | lockSharedSlow =>
    obtain rfl := Option.some.inj h
    exact lockSharedNext_grounded v c.spin
  | lockSharedFlag state full =>
    simp only [Pc.access] at h
    split at h <;> obtain rfl := Option.some.inj h
    · exact trivial
    · exact lockSharedNext_grounded v c.spin
  | unlockShared =>
    obtain rfl := Option.some.inj h
    show (ite _ _ _ : Pc w).Grounded u
    split <;> exact trivial
  | unlockSharedUnpark =>
    obtain rfl := Option.some.inj h
    exact trivial
  | downgrade =>
    obtain rfl := Option.some.inj h
    show (ite _ _ _ : Pc w).Grounded u
    split <;> exact trivial
  | downgradeUnpark =>
    obtain rfl := Option.some.inj h
    exact trivial
  | tryLockExclusive | lockExclusivePark | lockSharedCas | lockSharedPark | unlockSharedSlow =>
    simp only [Pc.access] at h
    split at h <;> obtain rfl := Option.some.inj h <;> exact trivial
  | _ => cases hp

/-! ## 不変条件 -/

section Run

variable {T : Type*} [DecidableEq T] {s : System T w} {t : T}

/-- 持ち主でない thread の一歩の後も、見たことは正しい。 -/
theorem Pc.Grounded.other {p : Pc w} {u : BitVec w.bits} (hg : p.Grounded v)
    (hgrow : p.role = .releasing →
      ((decode v).writersParked = true → (decode u).writersParked = true) ∧
        ((decode v).readersParked = true → (decode u).readersParked = true)) :
    p.Grounded u := by
  cases p with
  | unlockExclusiveSlow =>
    obtain ⟨hw, hr⟩ := hgrow rfl
    exact Or.imp hw hr hg
  | unlockExclusiveCas state held one =>
    obtain ⟨hw, hr⟩ := hgrow rfl
    exact ⟨hg.1, hw ∘ hg.2.1, hr ∘ hg.2.2⟩
  | unlockExclusiveUnpark parked => exact hg
  | _ => exact trivial

/-- 待ち行列に居るのは、ちょうど眠っている thread である。 -/
theorem queued_of_reachable (h : (program w).lts.Reachable s) : Queued (program w) s := by
  have hq := (sound_of_reachable h).queued
  refine ⟨fun t => ?_, fun t => ?_, hq.nodup⟩
  · exact Iff.trans (hq.writer t) Pc.role_parked.1
  · exact Iff.trans (hq.reader t) Pc.role_parked.2

/-- 解放の途中の書き手が持つ間、語は書き手の値である。 -/
theorem readers_of_releasing (h : (program w).lts.Reachable s)
    (ht : (s.pc t).role = .releasing ∨ (s.pc t).role = .storing) :
    (decode s.word).readers = (limit w).max := by
  have hs := sound_of_reachable h
  exact (hs.holding.of_mem_exclusive (hs.owned.exclusive t ht)).2.2

theorem grounded (h : (program w).lts.Reachable s) : ∀ t, (s.pc t).Grounded s.word := by
  refine h.invariant (P := fun s => ∀ t, (s.pc t).Grounded s.word) (fun s hs t => ?_)
    (fun s t s' hr hi hstep u => ?_)
  · subst hs
    exact trivial
  · cases hstep with
    | enter he hn =>
      obtain ⟨op, -, -, rfl⟩ := he
      show (Function.update s.pc t _ u).Grounded s.word
      rw [Function.update_apply]
      split
      · cases op <;> exact trivial
      · exact hi u
    | @access o ha =>
      have hq := queued_of_reachable hr
      obtain ⟨c, hc⟩ := ha
      rcases eq_or_ne u t with rfl | hne
      · have hself : (s.after (program w) u o).pc u = o.next :=
          hq.pc_self (fun hp => by rw [hp] at hc; cases hc) fun hp => by rw [hp] at hc; cases hc
        rw [hself]
        cases hb : (s.pc u).inUnlockExclusive with
        | true =>
          exact (unlockExclusive_access hc hb (hi u) fun hrel =>
            readers_of_releasing hr (Or.inl hrel)).2
        | false => exact other_access hc hb _
      · rcases hq.pc_other (o := o) hne with hpc | ⟨-, hpc⟩ | ⟨-, hpc⟩
        · rw [hpc]
          refine (hi u).other fun hrel => ?_
          have hby := (sound_of_reachable hr).bystander (Or.inl hrel) hne
          exact ((access_obeys hc).grows (readers_of_releasing hr (Or.inl hrel)) hby).2
        · rw [hpc]
          exact trivial
        · rw [hpc]
          exact trivial

/-- 書き替える手前の書き手が持つ間、語は両方の印を立てた書き手の値である。 -/
theorem word_of_store (h : (program w).lts.Reachable s) (ht : s.pc t = .unlockExclusiveStore) :
    s.word = oneWriter w ||| readersParked w ||| writersParked w := by
  have hrole : (s.map Pc.role decode).pc t = .storing := by
    show (s.pc t).role = .storing
    rw [ht]
    rfl
  exact decode_inj (((wakes ((sim w).reachable h)).stored t hrole).trans decode_both.symm)

/-- 解放の途中の thread は、他の thread が動いても同じところに居る。 -/
theorem store_of_step (h : (program w).lts.Reachable s) (ht : s.pc t = .unlockExclusiveStore)
    {u : T} (hne : u ≠ t) {s' : System T w} (hstep : (program w).Step s u s') :
    s'.pc t = .unlockExclusiveStore := by
  cases hstep with
  | enter => exact (Function.update_of_ne hne.symm _ _).trans ht
  | access ha =>
    rcases (queued_of_reachable h).pc_other hne.symm with hpc | ⟨hp, -⟩ | ⟨hp, -⟩
    · exact hpc.trans ht
    · cases ht.symm.trans hp
    · cases ht.symm.trans hp

/-- 書き替える手前に着く一歩は、語を読むだけである。 -/
theorem word_of_arrival (h : (program w).lts.Reachable s) {s' : System T w}
    (hstep : (program w).Step s t s') (ht : s'.pc t = .unlockExclusiveStore) :
    s'.word = s.word := by
  cases hstep with
  | enter => rfl
  | @access o ha =>
    obtain ⟨c, hc⟩ := ha
    have hself : (s.after (program w) t o).pc t = o.next :=
      (queued_of_reachable h).pc_self (fun hp => by rw [hp] at hc; cases hc)
        fun hp => by rw [hp] at hc; cases hc
    have hrole : o.next.role = .storing := by
      rw [← hself, ht]
      rfl
    exact (decode_inj ((access_obeys hc).storing hrole).2).symm

/--
書き手の解放は表明を破らず、他の thread の変更を失わない。

`unlock_exclusive` の途中の thread は、いつでも次の一歩を行え、その一歩は表明を破らない。`store` の
手前に居る間、語は `ONE_WRITER | READERS_PARKED | WRITERS_PARKED` である。`store` の手前に着いてから、
他の thread が何歩動いても、語は着く前の load か CAS が見た値のままである。
-/
theorem unlock_exclusive_safe (h : (program w).lts.Reachable s) (t : T) :
    ((s.pc t).inUnlockExclusive = true →
      ∀ c, ∃ o, (s.pc t).access c s.word = some o ∧ o.effect ≠ .panic) ∧
    (s.pc t = .unlockExclusiveStore →
      s.word = oneWriter w ||| readersParked w ||| writersParked w) ∧
    ∀ s₁ s₂, (program w).Step s t s₁ → s₁.pc t = .unlockExclusiveStore →
      Relation.ReflTransGen (fun a b => ∃ u, u ≠ t ∧ (program w).Step a u b) s₁ s₂ →
      s₂.pc t = .unlockExclusiveStore ∧ s₂.word = s.word := by
  refine ⟨fun ht c => ?_, word_of_store h, fun s₁ s₂ hstep ht hothers => ?_⟩
  · obtain ⟨o, ho⟩ := unlockExclusive_total ht c s.word
    exact ⟨o, ho, (unlockExclusive_access ho ht (grounded h t) fun hrel =>
      readers_of_releasing h (Or.inl hrel)).1⟩
  · have hr₁ : (program w).lts.Reachable s₁ := .step h hstep
    obtain ⟨hr₂, ht₂⟩ : (program w).lts.Reachable s₂ ∧ s₂.pc t = .unlockExclusiveStore := by
      refine Infra.star_preserves
        (P := fun a => (program w).lts.Reachable a ∧ a.pc t = .unlockExclusiveStore)
        (fun a b ha hab => ?_) hothers ⟨hr₁, ht⟩
      obtain ⟨u, hne, hu⟩ := hab
      exact ⟨.step ha.1 hu, store_of_step ha.1 ha.2 hne hu⟩
    exact ⟨ht₂, (word_of_store hr₂ ht₂).trans ((word_of_store hr₁ ht).symm.trans
      (word_of_arrival h hstep ht))⟩

/-- 書き手 0 が持つ間に、書き手 1 と読み手 2 が印を立てて眠る。0 は書き手の印だけを見て CAS に
向かい、その間に読み手の印が立つ。 -/
def storeRun : List (Nat × Sched) :=
  [(0, .enter .lockExclusive), (0, .access ⟨false, false⟩)]
    ++ (1, .enter .lockExclusive) :: List.replicate 5 (1, .access ⟨false, false⟩)
    ++ (0, .enter .unlockExclusive) :: List.replicate 2 (0, .access ⟨false, false⟩)
    ++ (2, .enter .lockShared) :: List.replicate 5 (2, .access ⟨false, false⟩)
    ++ [(0, .access ⟨false, false⟩)]

theorem unlock_exclusive_safe_raced : ∃ s : System Nat usize64,
    ((program usize64).lts.Reachable s ∧ s.pc 0 = .unlockExclusiveStore ∧
      s.writersQueue = [1] ∧ s.readersQueue = [2]) ∧
    (∀ c, ∃ o, (s.pc 0).access c s.word = some o ∧ o.effect ≠ .panic) ∧
    s.word = oneWriter usize64 ||| readersParked usize64 ||| writersParked usize64 := by
  obtain ⟨s, hrun, hpc, hw, hq⟩ : ∃ s : System Nat usize64,
      run storeRun (program usize64).init = some s ∧ s.pc 0 = .unlockExclusiveStore ∧
        s.writersQueue = [1] ∧ s.readersQueue = [2] := ⟨_, rfl, rfl, rfl, rfl⟩
  have hr := reachable_run (.init rfl) hrun
  obtain ⟨hsafe, hword, -⟩ := unlock_exclusive_safe hr 0
  exact ⟨s, ⟨hr, hpc, hw, hq⟩, hsafe (by rw [hpc]; rfl), hword hpc⟩

end Run

end Neocache.RawRwLock
