import Neocache.Properties.LockExclusion

/-!
# 起こし忘れがない

眠っている thread が居るのに lock が空いていて、残りの thread がみな操作の外に居る、という
状態には着かない。

印を消した thread は起こす側に回り（`wakingReaders`・`wakingWriter`）、起こされた書き手は取る
ときに印を立て直す。難しいのは、書き手の印だけが残った語 `⟨0, true, false⟩` である。この語は、
最後の読み手が手放したときか、両方の印を見た書き手が手放したときにだけ現れる。前者ではその
読み手が `checking` に居る。後者では、読み手の印を立てた読み手がまだ取っていない。
-/

namespace Neocache.LockProtocol

open Infra.Parking

variable {L : Limit} {r : Role} {v : LockWord} {o : StepResult Role LockWord}

/-! ## 一歩ごとの事実 -/

/-- 読み手の印を消した thread は、読み手を起こしに行く。 -/
theorem Access.readersParked (h : Access L r v o) (hv : v.readersParked = true) :
    o.word.readersParked = true ∨ o.next = .wakingReaders := by
  cases h with
  | flagReaders => exact Or.inl rfl
  | store => exact Or.inr rfl
  | downgrade => exact Or.inr (if_pos hv)
  | release => cases hv
  | releaseReaders => exact Or.inr rfl
  | releaseWriter => cases hv
  | unflag => cases hv
  | _ => exact Or.inl hv

/-- 書き手の印を消した thread は、書き手を起こしに行く。 -/
theorem Access.writersParked (h : Access L r v o) (hv : v.writersParked = true) :
    o.word.writersParked = true ∨ o.next = .wakingWriter := by
  cases h with
  | retakeExclusive => exact Or.inl rfl
  | flagWriters => exact Or.inl rfl
  | store => exact Or.inl rfl
  | release => cases hv
  | releaseReaders => cases hv
  | releaseWriter => exact Or.inr rfl
  | unflag => exact Or.inr rfl
  | _ => exact Or.inl hv

/-- 眠った thread の印は立っている。 -/
theorem Access.parked (h : Access L r v o) :
    (o.next = .readerParked → o.word.readersParked = true) ∧
      (o.next = .writerParked → o.word.writersParked = true) := by
  cases h with
  | stay hr => cases r <;> first | exact hr.elim | simp
  | parkWriter held flag => exact ⟨by simp, fun _ => flag⟩
  | parkReader held flag => exact ⟨fun _ => flag, by simp⟩
  | downgrade => split <;> simp
  | dropShared => split <;> simp
  | _ => simp

/-- 起こされた書き手は、印を立てるまで立場を変えない。 -/
theorem Access.writing (h : Access L .writing v o) :
    o.next = .writing ∨ o.word.writersParked = true := by
  cases h with
  | stay => exact Or.inl rfl
  | retakeExclusive => exact Or.inr rfl
  | takeShared hr => rcases hr with h | h <;> cases h
  | flagWriters => exact Or.inl rfl
  | parkWriter held flag => exact Or.inr flag

/-- 取るか溢れるかでなければ、読み手は立場を保つか眠る。 -/
theorem Access.reading (h : Access L .reading v o) :
    (o.next = .reading ∨ o.next = .readerParked) ∨
      (v.readers < L.max ∧ o.next = .outside ∧ (o.word = v → v.readers + 1 = L.max)) := by
  cases h with
  | stay => exact Or.inl (Or.inl rfl)
  | overflow h => exact Or.inr ⟨by omega, rfl, fun _ => h⟩
  | takeShared hr room =>
    refine Or.inr ⟨by omega, rfl, fun h => ?_⟩
    have hreaders := congrArg LockWord.readers h
    simp at hreaders
  | flagWriters hr => rcases hr with h | h <;> cases h
  | flagReaders => exact Or.inl (Or.inl rfl)
  | parkReader => exact Or.inl (Or.inr rfl)

/-- 読み手の印は、読み手が立てる。 -/
theorem Access.readersParked_before (h : Access L r v o) (ho : o.word.readersParked = true) :
    v.readersParked = true ∨ o.next = .reading := by
  cases h with
  | flagReaders => exact Or.inr rfl
  | release => cases ho
  | releaseReaders => cases ho
  | releaseWriter => cases ho
  | store => cases ho
  | downgrade => cases ho
  | unflag => cases ho
  | seeBoth => exact Or.inl rfl
  | _ => exact Or.inl ho

/-- 書き手の印だけの語が現れるのは、最後の読み手が手放すか、語を書き替えるかしたときである。 -/
theorem Access.writersOnly (h : Access L r v o) (ho : o.word = ⟨0, true, false⟩)
    (hmax : r = .releasing → v.readers = L.max) :
    v = o.word ∨ o.next = .checking ∨ r = .storing := by
  have hlim := L.one_lt
  have hodd := L.odd
  cases h with
  | takeExclusive => simp at ho; omega
  | retakeExclusive => simp at ho; omega
  | takeShared => simp at ho
  | flagWriters hr held => simp at ho; omega
  | flagReaders => simp at ho
  | release => cases ho
  | releaseReaders => cases ho
  | releaseWriter => cases ho
  | store => exact Or.inr (Or.inr rfl)
  | downgrade =>
    have hz := congrArg LockWord.readers ho
    have hm := hmax rfl
    simp at hz
    omega
  | dropShared =>
    obtain ⟨c, a, b⟩ := v
    simp only [LockWord.mk.injEq] at ho
    obtain ⟨hc, rfl, rfl⟩ := ho
    have h1 : c = 1 := by
      split at hc <;> omega
    subst h1
    exact Or.inr (Or.inl rfl)
  | unflag => cases ho
  | _ => exact Or.inl rfl

/-- 語を書き替える手前に着くのは、両方の印を見たときである。見る一歩は語を変えない。 -/
theorem Access.storing (h : Access L r v o) (hn : o.next = .storing) :
    o.word = ⟨L.max, true, true⟩ ∧ v = o.word := by
  cases h with
  | stay hr =>
    subst hn
    exact hr.elim
  | seeBoth => exact ⟨rfl, rfl⟩
  | downgrade => simp only at hn; split at hn <;> cases hn
  | dropShared => simp only at hn; split at hn <;> cases hn
  | _ => cases hn

/-- 解放にも降格にも関わっていない立場。 -/
def Role.Bystander (r : Role) : Prop := r ≠ .releasing ∧ r ≠ .storing ∧ r ≠ .releasingShared

/-- 書き手が持つ間、持ち主でない thread は印を立てることしかしない。 -/
theorem Access.grows (h : Access L r v o) (hmax : v.readers = L.max) (hr : r.Bystander) :
    o.word.readers = L.max ∧ (v.writersParked = true → o.word.writersParked = true) ∧
      (v.readersParked = true → o.word.readersParked = true) := by
  have hlim := L.one_lt
  cases h with
  | takeExclusive free => omega
  | retakeExclusive free => omega
  | takeShared _ room => omega
  | flagWriters => exact ⟨hmax, fun _ => rfl, id⟩
  | flagReaders => exact ⟨hmax, id, fun _ => rfl⟩
  | release => exact (hr.1 rfl).elim
  | releaseReaders => exact (hr.1 rfl).elim
  | releaseWriter => exact (hr.1 rfl).elim
  | downgrade => exact (hr.1 rfl).elim
  | store => exact (hr.2.1 rfl).elim
  | dropShared => exact (hr.2.2 rfl).elim
  | unflag =>
    have hz : 0 = L.max := hmax
    omega
  | _ => exact ⟨hmax, id, id⟩

/-- 両方の印が立っている間、持ち主でない thread は語を変えない。 -/
theorem Access.both (h : Access L r v o) (hv : v = ⟨L.max, true, true⟩) (hr : r.Bystander) :
    o.word = v := by
  obtain ⟨hmax, hw, hf⟩ := h.grows (by rw [hv]) hr
  rw [hv] at hw hf ⊢
  rw [show o.word = ⟨o.word.readers, o.word.writersParked, o.word.readersParked⟩ from rfl, hmax,
    hw rfl, hf rfl]

/-! ## 不変条件 -/

section Wakes

variable {T : Type*}

/-- 取るか眠るかする読み手。眠っているものも含む。 -/
def Role.Committed (r : Role) : Prop := r = .reading ∨ r = .readerParked

/-- 書き手を起こすか、起こされて印を立て直す。 -/
def Role.WakesWriter (r : Role) : Prop := r = .wakingWriter ∨ r = .writing

/-- 書き手の印だけが残っているとき、それを片付ける。 -/
def Role.Settles (r : Role) : Prop := r.Committed ∨ r = .checking

/-- 眠っている thread を起こす者が、いつもどこかに居る。 -/
structure Wakes (L : Limit) (s : Threads T Role LockWord) : Prop where
  reader : s.Has (· = .readerParked) → s.word.readersParked = true ∨ s.Has (· = .wakingReaders)
  writer : s.Has (· = .writerParked) → s.word.writersParked = true ∨ s.Has Role.WakesWriter
  stored : ∀ t, s.pc t = .storing → s.word = ⟨L.max, true, true⟩
  flagged : s.word.readersParked = true → s.Has Role.Committed
  writersOnly : s.word = ⟨0, true, false⟩ → s.Has Role.Settles

theorem Wakes.init : Wakes L ((program L).init : Threads T Role LockWord) where
  reader h := by obtain ⟨t, ht⟩ := h; cases ht
  writer h := by obtain ⟨t, ht⟩ := h; cases ht
  stored t h := by cases h
  flagged h := by cases h
  writersOnly h := by cases h

variable {s : Threads T Role LockWord} {t : T}

/-- 眠っている thread が居れば、lock は持たれているか、起こす者が居る。 -/
theorem Wakes.someone (hi : Wakes L s) (hs : Sound L s) (hp : s.Parked t) (hx : s.exclusive = 0)
    (hz : s.shared = 0) :
    s.Has (· = .wakingReaders) ∨ s.Has Role.WakesWriter ∨ s.Has (· = .reading) ∨
      (s.word = ⟨0, true, false⟩ ∧ s.Has (· = .checking)) := by
  have hlim := L.one_lt
  have hfree : s.word.readers = 0 ∧ s.word.readersParked = false := by
    rcases hs.holding with ⟨hx', -, -⟩ | ⟨-, hw, -, hr⟩
    · rw [hx] at hx'
      exact (Multiset.singleton_ne_zero _ hx'.symm).elim
    · rw [hz, Multiset.card_zero] at hw
      exact ⟨hw, hr⟩
  have hreader : s.Has (· = .readerParked) → s.Has (· = .wakingReaders) := fun he =>
    (hi.reader he).resolve_left (by simp [hfree.2])
  rcases hp with hp | hp
  · rcases hi.writer ⟨t, (hs.queued.writer t).mp hp⟩ with hf | hk
    · -- 空いた lock に残る印は書き手のものだけなので、片付ける者を探せばよい。
      have hword : s.word = ⟨0, true, false⟩ := by
        rw [← hfree.1, ← hf, ← hfree.2]
      obtain ⟨u, (hu | hu) | hu⟩ := hi.writersOnly hword
      · exact Or.inr (Or.inr (Or.inl ⟨u, hu⟩))
      · exact Or.inl (hreader ⟨u, hu⟩)
      · exact Or.inr (Or.inr (Or.inr ⟨hword, u, hu⟩))
    · exact Or.inr (Or.inl hk)
  · exact Or.inl (hreader ⟨t, (hs.queued.reader t).mp hp⟩)

/-- 手放す途中の書き手のほかに、持ち主は居ない。 -/
theorem Sound.bystander (hs : Sound L s) {u : T} (hu : s.pc u = .releasing ∨ s.pc u = .storing)
    (hne : u ≠ t) : (s.pc t).Bystander := by
  obtain ⟨hx, hz, -⟩ := hs.holding.of_mem_exclusive (hs.owned.exclusive u hu)
  have hnot : t ∉ s.exclusive := by
    rw [hx, Multiset.mem_singleton]
    exact hne.symm
  refine ⟨fun hr => ?_, fun hr => ?_, fun hr => ?_⟩
  · exact hnot (hs.owned.exclusive t (Or.inl hr))
  · exact hnot (hs.owned.exclusive t (Or.inr hr))
  · have hmem := hs.owned.shared t hr
    rw [hz] at hmem
    exact Multiset.notMem_zero t hmem

variable [DecidableEq T]

/-- 操作を始めた thread は、まだ何も担っていない。 -/
theorem Wakes.goto (hi : Wakes L s) {n : Need} {p : Role} (h : Enter (s.pc t) n p) :
    Wakes L (s.goto t p) := by
  have hout : s.pc t = .outside := by
    generalize s.pc t = q at h
    cases h <;> rfl
  have hne : p ≠ .readerParked ∧ p ≠ .writerParked ∧ p ≠ .storing := by
    generalize s.pc t = q at h
    cases h <;> simp
  have hkeep : ∀ {A : Role → Prop}, ¬ A .outside → s.Has A → (s.goto t p).Has A := fun hA he =>
    Threads.has_goto (fun hk => (hA (hout ▸ hk)).elim) he
  refine ⟨fun he => ?_, fun he => ?_, fun u hu => ?_, fun hf => ?_, fun hw => ?_⟩
  · rcases Threads.has_of_goto he with hx | hx
    · exact (hne.1 hx).elim
    · exact (hi.reader hx).imp_right (hkeep (by simp))
  · rcases Threads.has_of_goto he with hx | hx
    · exact (hne.2.1 hx).elim
    · exact (hi.writer hx).imp_right (hkeep (by simp [Role.WakesWriter]))
  · have he : (s.goto t p).Has (· = .storing) := ⟨u, hu⟩
    rcases Threads.has_of_goto he with hx | ⟨x, hx⟩
    · exact (hne.2.2 hx).elim
    · exact hi.stored x hx
  · exact hkeep (by simp [Role.Committed]) (hi.flagged hf)
  · exact hkeep (by simp [Role.Settles, Role.Committed]) (hi.writersOnly hw)

/-- 起こす一歩の効果。 -/
theorem Access.wakingReaders (h : Access L .wakingReaders v o) : o.effect = .unparkAll := by
  cases h with
  | stay hr => exact hr.elim
  | takeShared hr => rcases hr with h | h <;> cases h
  | flagWriters hr => rcases hr with h | h <;> cases h
  | unparkReaders => rfl

theorem Access.wakingWriter (h : Access L .wakingWriter v o) : o.effect = .unparkOne := by
  cases h with
  | stay hr => exact hr.elim
  | takeShared hr => rcases hr with h | h <;> cases h
  | flagWriters hr => rcases hr with h | h <;> cases h
  | unparkWriter => rfl

theorem Wakes.reader_after (hi : Wakes L s) (hq : Queued (program L) s)
    (h : Access L (s.pc t) s.word o)
    (he : (s.after (program L) t o).Has (· = .readerParked)) :
    o.word.readersParked = true ∨ (s.after (program L) t o).Has (· = .wakingReaders) := by
  have hself := hq.pc_self (o := o) h.not_parked.1 h.not_parked.2
  rcases hq.has_of_after lawful h (by simp [program]) (by simp [program]) he with hnext | hx
  · exact Or.inl (h.parked.1 hnext)
  rcases hi.reader hx with hf | hk
  · rcases h.readersParked hf with hf' | hk
    · exact Or.inl hf'
    · exact Or.inr ⟨t, hself.trans hk⟩
  by_cases hw : s.pc t = .wakingReaders
  · -- 動いた thread が起こすなら、眠っている読み手は残らない。
    have hall : o.effect = .unparkAll := Access.wakingReaders (hw ▸ h)
    obtain ⟨u, hu⟩ := he
    have hmem := (hq.reader_after lawful h).mpr hu
    rw [show (s.after (program L) t o).readersQueue = o.effect.readersQueueAfter t s.readersQueue
      from rfl, hall] at hmem
    exact (List.not_mem_nil hmem).elim
  · exact Or.inr (hq.has_after lawful h (by simp [program]) (by simp [program])
      (fun hk => (hw hk).elim) hk)

theorem Wakes.writer_after (hi : Wakes L s) (hq : Queued (program L) s)
    (h : Access L (s.pc t) s.word o)
    (he : (s.after (program L) t o).Has (· = .writerParked)) :
    o.word.writersParked = true ∨ (s.after (program L) t o).Has Role.WakesWriter := by
  have hself := hq.pc_self (o := o) h.not_parked.1 h.not_parked.2
  rcases hq.has_of_after lawful h (by simp [program]) (by simp [program]) he with hnext | hx
  · exact Or.inl (h.parked.2 hnext)
  rcases hi.writer hx with hf | hk
  · rcases h.writersParked hf with hf' | hk
    · exact Or.inl hf'
    · exact Or.inr ⟨t, Or.inl (hself.trans hk)⟩
  by_cases hw : s.pc t = .wakingWriter
  · -- 動いた thread が起こすなら、列の先頭の書き手が動き出す。
    have hone : o.effect = .unparkOne := Access.wakingWriter (hw ▸ h)
    obtain ⟨u, hu⟩ := hx
    have hmem := (hq.writer u).mpr hu
    cases hl : s.writersQueue with
    | nil =>
      rw [hl] at hmem
      exact (List.not_mem_nil hmem).elim
    | cons x q =>
      refine Or.inr ⟨x, Or.inr ?_⟩
      show (o.effect.wakes (program L) s x).getD _ = _
      simp [hone, Effect.wakes, hl, program]
  by_cases hwr : s.pc t = .writing
  · -- 起こされた書き手が取るか眠るかするなら、その一歩が印を立てている。
    rcases Access.writing (hwr ▸ h) with hn | hf
    · exact Or.inr ⟨t, Or.inr (hself.trans hn)⟩
    · exact Or.inl hf
  · refine Or.inr (hq.has_after lawful h (by simp [Role.WakesWriter, program])
      (by simp [Role.WakesWriter, program]) (fun hk => ?_) hk)
    rcases hk with hk | hk
    · exact (hw hk).elim
    · exact (hwr hk).elim

/-- 書き替える手前の書き手が持つ間、語は動かない。 -/
theorem Wakes.stored_after (hi : Wakes L s) (hs : Sound L s) (h : Access L (s.pc t) s.word o)
    {u : T} (hu : (s.after (program L) t o).pc u = .storing) : o.word = ⟨L.max, true, true⟩ := by
  have hq := hs.queued
  rcases eq_or_ne u t with rfl | hne
  · rw [hq.pc_self h.not_parked.1 h.not_parked.2] at hu
    exact (h.storing hu).1
  · have hpc : s.pc u = .storing :=
      (role_other hq hne (by rw [hu]; simp) (by rw [hu]; simp)).symm.trans hu
    have hword := hi.stored u hpc
    exact (h.both hword (hs.bystander (Or.inr hpc) hne)).trans hword

/-- 読み手の印が立っている間、読み手は取れも溢れもしない。 -/
theorem Wakes.flagged_after (hi : Wakes L s) (hs : Sound L s) (h : Access L (s.pc t) s.word o)
    (hf : o.word.readersParked = true) : (s.after (program L) t o).Has Role.Committed := by
  have hq := hs.queued
  have hself := hq.pc_self (o := o) h.not_parked.1 h.not_parked.2
  rcases h.readersParked_before hf with hv | hn
  · refine hq.has_after lawful h (by simp [Role.Committed, program])
      (by simp [Role.Committed, program]) (fun hk => ?_) (hi.flagged hv)
    rcases hk with hk | hk
    · rcases Access.reading (hk ▸ h) with hn | ⟨hlt, -⟩
      · exact hn
      · -- 取れたか溢れたかなら書き手は居らず、読み手の印も立っていなかった。
        obtain ⟨-, -, -, hfalse⟩ := hs.holding.of_ne_max (by omega)
        rw [hfalse] at hv
        cases hv
    · exact (h.not_parked.2 hk).elim
  · exact ⟨t, Or.inl (hself.trans hn)⟩

/-- 書き手の印だけが残った語を片付ける者は、片付けるまで残る。 -/
theorem Wakes.writersOnly_after (hi : Wakes L s) (hs : Sound L s)
    (h : Access L (s.pc t) s.word o) (hw : o.word = ⟨0, true, false⟩) :
    (s.after (program L) t o).Has Role.Settles := by
  have hlim := L.one_lt
  have hq := hs.queued
  have hself := hq.pc_self (o := o) h.not_parked.1 h.not_parked.2
  have hwriter : Role.Settles (program L).writerParked → Role.Settles (program L).writerWoken := by
    simp [Role.Settles, Role.Committed, program]
  have hreader : Role.Settles (program L).readerParked → Role.Settles (program L).readerWoken := by
    simp [Role.Settles, Role.Committed, program]
  rcases h.writersOnly hw fun hr =>
    (hs.holding.of_mem_exclusive (hs.owned.exclusive t (Or.inl hr))).2.2 with hsame | hn | hr
  · refine hq.has_after lawful h hwriter hreader (fun hk => ?_) (hi.writersOnly (hsame.trans hw))
    have hzero : s.word.readers = 0 := by rw [hsame, hw]
    rcases hk with (hk | hk) | hk
    · rcases Access.reading (hk ▸ h) with hn | ⟨-, -, hover⟩
      · exact Or.inl hn
      · have hone := hover hsame.symm
        omega
    · exact (h.not_parked.2 hk).elim
    · -- 印を消せば語が変わる。追い越されていれば語は元から違う。
      rw [hk] at h
      have hv := hsame.trans hw
      generalize s.word = v at h hsame hv
      cases h with
      | stay hr => exact hr.elim
      | takeShared hr => rcases hr with h | h <;> cases h
      | flagWriters hr => rcases hr with h | h <;> cases h
      | unflag => cases hsame
      | overtaken hne => exact (hne hv).elim
  · exact ⟨t, Or.inr (hself.trans hn)⟩
  · -- 書き替えで消えた読み手の印には、立てた読み手が付いている。
    have hflag : s.word.readersParked = true := by rw [hi.stored t hr]
    obtain ⟨u, hu⟩ := hi.flagged hflag
    refine hq.has_after lawful h hwriter hreader (fun hk => ?_) ⟨u, Or.inl hu⟩
    rw [hr] at hk
    rcases hk with (hk | hk) | hk <;> cases hk

theorem wakes (h : (program L).lts.Reachable s) : Wakes L s := by
  refine h.invariant (fun s hs => ?_) fun s t s' hr hi hstep => ?_
  · subst hs
    exact Wakes.init
  · have hs := sound hr
    cases hstep with
    | enter he => exact hi.goto he
    | access ha =>
      exact ⟨hi.reader_after hs.queued ha, hi.writer_after hs.queued ha,
        fun _ => hi.stored_after hs ha, hi.flagged_after hs ha, hi.writersOnly_after hs ha⟩

end Wakes

end Neocache.LockProtocol

namespace Neocache.RawRwLock

open Infra.Parking LockProtocol

variable {T : Type*} {w : Word} {s : System T w}

/-! ## 実装の系 -/

/-- lock を取る操作の途中で、眠っていない。 -/
def Pc.inLock : Pc w → Bool
  | .tryLockExclusive | .lockExclusive _ => true
  | .lockExclusiveSlow _ | .lockExclusiveCas _ _ _ | .lockExclusiveFlag _ _ _ => true
  | .lockExclusivePark => true
  | .tryLockSharedFast _ | .tryLockSharedFastCas _ _ => true
  | .tryLockSharedSlow | .tryLockSharedSlowCas _ => true
  | .lockSharedSlow | .lockSharedCas _ | .lockSharedFlag _ _ | .lockSharedPark => true
  | _ => false

/-- 解放か降格の途中で、これから起こす。`unlock_shared_slow` は、語がまだ `WRITERS_PARKED` の
ときに起こす。 -/
def Pc.YetToUnpark (word : BitVec w.bits) : Pc w → Prop
  | .unlockExclusiveUnpark parked => parked = readersParked w ∨ parked = writersParked w
  | .unlockSharedSlow => word = writersParked w
  | .unlockSharedUnpark | .downgradeUnpark => True
  | _ => False

theorem unparkRole_cases (parked : BitVec w.bits) :
    (parked = readersParked w ∧ unparkRole parked = .wakingReaders) ∨
      (parked = writersParked w ∧ unparkRole parked = .wakingWriter) ∨
      unparkRole parked = .outside := by
  unfold unparkRole
  split
  · next h => exact Or.inl ⟨h, rfl⟩
  · split
    · next h => exact Or.inr (Or.inl ⟨h, rfl⟩)
    · exact Or.inr (Or.inr rfl)

theorem Pc.inLock_of_role {p : Pc w} (h : p.role = .writing ∨ p.role = .reading) :
    p.inLock = true := by
  cases p with
  | unlockExclusiveUnpark parked =>
    have hne : unparkRole parked ≠ .writing ∧ unparkRole parked ≠ .reading := by
      rcases unparkRole_cases parked with ⟨-, hu⟩ | ⟨-, hu⟩ | hu <;> rw [hu] <;> simp
    exact (h.elim hne.1 hne.2).elim
  | _ => first | rfl | (rcases h with h | h <;> cases h)

theorem Pc.yetToUnpark_of_role {p : Pc w} (h : p.role = .wakingReaders ∨ p.role = .wakingWriter)
    (word : BitVec w.bits) : p.YetToUnpark word := by
  cases p with
  | unlockExclusiveUnpark parked =>
    rcases unparkRole_cases parked with ⟨hp, -⟩ | ⟨hp, -⟩ | hu
    · exact Or.inl hp
    · exact Or.inr hp
    · rw [show Pc.role (.unlockExclusiveUnpark parked) = .outside from hu] at h
      rcases h with h | h <;> cases h
  | unlockSharedUnpark => exact trivial
  | downgradeUnpark => exact trivial
  | lockExclusiveSlow a => cases a <;> rcases h with h | h <;> cases h
  | lockExclusiveCas a => cases a <;> rcases h with h | h <;> cases h
  | lockExclusiveFlag a => cases a <;> rcases h with h | h <;> cases h
  | _ => rcases h with h | h <;> cases h

theorem Pc.eq_of_role_checking {p : Pc w} (h : p.role = .checking) : p = .unlockSharedSlow := by
  cases p with
  | unlockSharedSlow => rfl
  | unlockExclusiveUnpark parked =>
    rcases unparkRole_cases parked with ⟨-, hu⟩ | ⟨-, hu⟩ | hu <;>
      cases hu.symm.trans (show unparkRole parked = .checking from h)
  | lockExclusiveSlow a => cases a <;> cases h
  | lockExclusiveCas a => cases a <;> cases h
  | lockExclusiveFlag a => cases a <;> cases h
  | _ => cases h

theorem Pc.role_parked {p : Pc w} :
    (p.role = .writerParked ↔ p = .lockExclusiveParked) ∧
      (p.role = .readerParked ↔ p = .lockSharedParked) := by
  cases p with
  | unlockExclusiveUnpark parked =>
    show (unparkRole parked = _ ↔ _) ∧ (unparkRole parked = _ ↔ _)
    rcases unparkRole_cases parked with ⟨-, hu⟩ | ⟨-, hu⟩ | hu <;> simp [hu]
  | lockExclusiveSlow a => cases a <;> simp [Pc.role, AcquireWith.role]
  | lockExclusiveCas a => cases a <;> simp [Pc.role, AcquireWith.role]
  | lockExclusiveFlag a => cases a <;> simp [Pc.role, AcquireWith.role]
  | _ => simp [Pc.role]

variable [DecidableEq T]

/-- 待ち行列に居ることと、眠っていることは同じである。 -/
theorem parked_iff_asleep (h : (program w).lts.Reachable s) (t : T) :
    s.Parked t ↔ s.pc t = .lockExclusiveParked ∨ s.pc t = .lockSharedParked := by
  have hq := (sound_of_reachable h).queued
  have hw : t ∈ s.writersQueue ↔ (s.pc t).role = .writerParked := hq.writer t
  have hr : t ∈ s.readersQueue ↔ (s.pc t).role = .readerParked := hq.reader t
  unfold Threads.Parked
  rw [hw, hr, Pc.role_parked.1, Pc.role_parked.2]

/-- lock が空いているのに眠っている thread が居れば、起こす者が動いている。 -/
theorem waker_of_parked (h : (program w).lts.Reachable s) {t : T} (hp : s.Parked t)
    (hx : s.exclusive = 0) (hz : s.shared = 0) :
    ∃ u, (s.pc u).inLock = true ∨ (s.pc u).YetToUnpark s.word := by
  have hr := (sim w).reachable h
  rcases (wakes hr).someone (sound hr) hp hx hz with ⟨u, hu⟩ | ⟨u, hu | hu⟩ | ⟨u, hu⟩ | ⟨hw, u, hu⟩
  · exact ⟨u, Or.inr (Pc.yetToUnpark_of_role (Or.inl hu) _)⟩
  · exact ⟨u, Or.inr (Pc.yetToUnpark_of_role (Or.inr hu) _)⟩
  · exact ⟨u, Or.inl (Pc.inLock_of_role (Or.inl hu))⟩
  · exact ⟨u, Or.inl (Pc.inLock_of_role (Or.inr hu))⟩
  · refine ⟨u, Or.inr ?_⟩
    rw [Pc.eq_of_role_checking hu]
    exact decode_inj (Eq.trans hw decode_writersParked.symm)

/-- 起こす者は眠っておらず、操作の外にも居ない。 -/
theorem Pc.not_idle_or_parked {p : Pc w} {word : BitVec w.bits}
    (h : p.inLock = true ∨ p.YetToUnpark word) :
    p ≠ .idle ∧ p ≠ .lockExclusiveParked ∧ p ≠ .lockSharedParked := by
  refine ⟨?_, ?_, ?_⟩ <;> rintro rfl <;>
    exact h.elim (by simp [Pc.inLock]) (by simp [Pc.YetToUnpark])

/--
起こし忘れがない。

眠っている thread が居れば、lock が持たれているか、眠っていない thread が、取る操作の途中に居るか、
解放・降格の途中でこれから起こす。したがって、lock が空いていて誰かが眠り、残りがみな操作の外に
居る状態には着かない。
-/
theorem no_lost_wakeup (h : (program w).lts.Reachable s) :
    (∀ t, s.Parked t ↔ s.pc t = .lockExclusiveParked ∨ s.pc t = .lockSharedParked) ∧
    (∀ t, s.Parked t → s.exclusive ≠ 0 ∨ s.shared ≠ 0 ∨
      ∃ u, ¬ s.Parked u ∧ ((s.pc u).inLock = true ∨ (s.pc u).YetToUnpark s.word)) ∧
    ¬ (s.exclusive = 0 ∧ s.shared = 0 ∧ (∃ t, s.Parked t) ∧
      ∀ u, ¬ s.Parked u → s.pc u = .idle) := by
  have hawake : ∀ {t}, s.Parked t → s.exclusive = 0 → s.shared = 0 → ∃ u, ¬ s.Parked u ∧
      ((s.pc u).inLock = true ∨ (s.pc u).YetToUnpark s.word) := fun hp hx hz => by
    obtain ⟨u, hu⟩ := waker_of_parked h hp hx hz
    obtain ⟨-, hw, hr⟩ := Pc.not_idle_or_parked hu
    exact ⟨u, fun hpu => ((parked_iff_asleep h u).mp hpu).elim hw hr, hu⟩
  refine ⟨parked_iff_asleep h, fun t hp => ?_, ?_⟩
  · by_cases hx : s.exclusive = 0
    · by_cases hz : s.shared = 0
      · exact Or.inr (Or.inr (hawake hp hx hz))
      · exact Or.inr (Or.inl hz)
    · exact Or.inl hx
  · rintro ⟨hx, hz, ⟨t, hp⟩, hidle⟩
    obtain ⟨u, hu, hbusy⟩ := hawake hp hx hz
    exact (Pc.not_idle_or_parked hbusy).1 (hidle u hu)

/-- 書き手 0 が手放した直後。書き手 1 が眠り、0 はまだ起こしていない。 -/
def releaseRun : List (Nat × Sched) :=
  [(0, .enter .lockExclusive), (0, .access ⟨false, false⟩)]
    ++ (1, .enter .lockExclusive) :: List.replicate 5 (1, .access ⟨false, false⟩)
    ++ (0, .enter .unlockExclusive) :: List.replicate 3 (0, .access ⟨false, false⟩)

theorem no_lost_wakeup_release : ∃ s : System Nat usize64,
    ((program usize64).lts.Reachable s ∧ s.exclusive = 0 ∧ s.shared = 0 ∧ s.writersQueue = [1]) ∧
      ∃ u, ¬ s.Parked u ∧ ((s.pc u).inLock = true ∨ (s.pc u).YetToUnpark s.word) := by
  obtain ⟨s, hrun, hx, hz, hq⟩ : ∃ s : System Nat usize64,
      run releaseRun (program usize64).init = some s ∧ s.exclusive = 0 ∧ s.shared = 0 ∧
        s.writersQueue = [1] := ⟨_, rfl, by decide +kernel, rfl, rfl⟩
  have hr := reachable_run (.init rfl) hrun
  have hp : s.Parked 1 := Or.inl (by rw [hq]; exact List.mem_singleton_self 1)
  refine ⟨s, ⟨hr, hx, hz, hq⟩, ?_⟩
  rcases (no_lost_wakeup hr).2.1 1 hp with h | h | h
  · exact (h hx).elim
  · exact (h hz).elim
  · exact h

end Neocache.RawRwLock
