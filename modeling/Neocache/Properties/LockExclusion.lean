import Neocache.Properties.LockRefinement

/-!
# lock の排他

語の値と、lock を持っている thread の対応。書き手の値は読み手の数の上限と同じ桁の並びなので、
読み手が上限に達しないこと（`Holding` の `hlt`）まで含めて不変条件にする。

対応は約束の系で示し、模倣で実装の系に移す。
-/

namespace Neocache.LockProtocol

open Infra.Parking

variable {T : Type*} {L : Limit}

/-! ## 約束の上での対応 -/

/-- 語が、持ち主の数をそのまま表している。読み手の印は、書き手が持つ間にしか立たない。 -/
inductive Holding (L : Limit) (v : LockWord) (shared exclusive : Multiset T) : Prop
  | exclusive {t : T} (hx : exclusive = {t}) (hs : shared = 0) (hw : v.readers = L.max)
  | shared (hx : exclusive = 0) (hw : v.readers = shared.card) (hlt : v.readers < L.max)
    (hr : v.readersParked = false)

/-- 解放や降格の途中に居る thread は、まだ持っている。 -/
structure Owned (s : Threads T Role LockWord) : Prop where
  shared : ∀ t, s.pc t = .releasingShared → t ∈ s.shared
  exclusive : ∀ t, s.pc t = .releasing ∨ s.pc t = .storing → t ∈ s.exclusive

section Holding

variable {v : LockWord} {shared exclusive : Multiset T} {t : T}

theorem Holding.of_mem_exclusive (h : Holding L v shared exclusive) (ht : t ∈ exclusive) :
    exclusive = {t} ∧ shared = 0 ∧ v.readers = L.max := by
  cases h with
  | exclusive hx hs hw =>
    subst hx
    rw [Multiset.mem_singleton] at ht
    subst ht
    exact ⟨rfl, hs, hw⟩
  | shared hx =>
    subst hx
    exact (Multiset.notMem_zero t ht).elim

theorem Holding.of_mem_shared (h : Holding L v shared exclusive) (ht : t ∈ shared) :
    exclusive = 0 ∧ v.readers = shared.card ∧ v.readers < L.max ∧ v.readersParked = false := by
  cases h with
  | exclusive _ hs =>
    subst hs
    exact (Multiset.notMem_zero t ht).elim
  | shared hx hw hlt hr => exact ⟨hx, hw, hlt, hr⟩

/-- 数が上限でないなら、書き手は居ない。 -/
theorem Holding.of_ne_max (h : Holding L v shared exclusive) (hne : v.readers ≠ L.max) :
    exclusive = 0 ∧ v.readers = shared.card ∧ v.readers < L.max ∧ v.readersParked = false := by
  cases h with
  | exclusive _ _ hw => exact (hne hw).elim
  | shared hx hw hlt hr => exact ⟨hx, hw, hlt, hr⟩

theorem Holding.of_eq_max (h : Holding L v shared exclusive) (heq : v.readers = L.max) :
    ∃ u, exclusive = {u} ∧ shared = 0 := by
  cases h with
  | exclusive hx hs => exact ⟨_, hx, hs⟩
  | shared _ _ hlt => omega

/-- 誰も持っていなければ、書き手が取れる。 -/
theorem Holding.takeExclusive (h : Holding L v shared exclusive) (free : v.readers = 0)
    {v' : LockWord} (hv : v'.readers = L.max) : Holding L v' shared (t ::ₘ exclusive) := by
  have hlim := L.one_lt
  obtain ⟨h0, hw, -, -⟩ := h.of_ne_max (by omega)
  have hz : shared = 0 := Multiset.card_eq_zero.mp (by omega)
  subst h0
  exact .exclusive rfl hz hv

variable [DecidableEq T]

/-- 書き手が手放すと、誰も持っていない。 -/
theorem Holding.dropExclusive (h : Holding L v shared exclusive) (ht : t ∈ exclusive)
    {v' : LockWord} (hv : v'.readers = 0) (hr : v'.readersParked = false) :
    Holding L v' shared (exclusive.erase t) := by
  have hlim := L.one_lt
  obtain ⟨hu, hz, -⟩ := h.of_mem_exclusive ht
  subst hu hz
  exact .shared (Multiset.erase_singleton t) hv (by omega) hr

/-- 一歩は対応を保つ。 -/
theorem Holding.access {r : Role} {o : StepResult Role LockWord}
    (h : Holding L v shared exclusive) (ha : Access L r v o)
    (hs : r = .releasingShared → t ∈ shared)
    (hx : r = .releasing ∨ r = .storing → t ∈ exclusive) :
    Holding L o.word (o.effect.sharedAfter t shared) (o.effect.exclusiveAfter t exclusive) := by
  have hlim := L.one_lt
  cases ha with
  | stay hr he =>
    rw [he.sharedAfter, he.exclusiveAfter]
    exact h
  | announce => exact h
  | commit => exact h
  | overflow => exact h
  | takeExclusive free => exact h.takeExclusive free rfl
  | retakeExclusive free => exact h.takeExclusive free rfl
  | takeShared hr room =>
    -- 足した後も上限に届かないので、書き手の値とは区別がつく
    obtain ⟨h0, hw, -, hf⟩ := h.of_ne_max (by omega)
    refine .shared h0 ?_ room hf
    show v.readers + 1 = (t ::ₘ shared).card
    rw [Multiset.card_cons, hw]
  | flagWriters hr held =>
    cases h with
    | exclusive hx hs hw => exact .exclusive hx hs hw
    | shared hx hw hlt hr => exact .shared hx hw hlt hr
  | flagReaders held =>
    -- 足し算が溢れるのは書き手の値だけなので、印は書き手が居る間に立つ
    obtain ⟨u, hu, hz⟩ := h.of_eq_max held
    exact .exclusive hu hz held
  | parkWriter => exact h
  | parkReader => exact h
  | release => exact h.dropExclusive (hx (Or.inl rfl)) rfl rfl
  | releaseReaders => exact h.dropExclusive (hx (Or.inl rfl)) rfl rfl
  | releaseWriter => exact h.dropExclusive (hx (Or.inl rfl)) rfl rfl
  | seeBoth => exact h
  | giveUp => exact h
  | store => exact h.dropExclusive (hx (Or.inr rfl)) rfl rfl
  | downgrade =>
    obtain ⟨hu, hz, hw⟩ := h.of_mem_exclusive (hx (Or.inl rfl))
    subst hu hz
    -- 上限は奇数なので、残った最下位の桁は読み手一人を表す
    have h1 : v.readers % 2 = 1 := by rw [hw, L.odd]
    refine .shared (Multiset.erase_singleton t) ?_ ?_ rfl
    · show v.readers % 2 = 1
      exact h1
    · show v.readers % 2 < L.max
      omega
  | dropShared =>
    obtain ⟨h0, hw, hlt, hf⟩ := h.of_mem_shared (hs rfl)
    have hpos : 0 < shared.card := Multiset.card_pos_iff_exists_mem.mpr ⟨t, hs rfl⟩
    have hcard := Multiset.card_erase_of_mem (hs rfl)
    -- 引く thread 自身が数に入っているので、0 からは引かない
    have hne : ¬ v.readers = 0 := by omega
    simp only [if_neg hne]
    refine .shared h0 ?_ ?_ hf
    · show v.readers - 1 = (shared.erase t).card
      rw [hcard, hw]
      rfl
    · show v.readers - 1 < L.max
      omega
  | unflag =>
    obtain ⟨h0, hw, hlt, -⟩ := h.of_ne_max (by show 0 ≠ _; omega)
    exact .shared h0 hw hlt rfl
  | overtaken => exact h
  | unparkReaders => exact h
  | unparkWriter => exact h

end Holding

section Owned

variable [DecidableEq T] {s s' : Threads T Role LockWord} {t u : T} {o : StepResult Role LockWord}

/-- 解放の途中の立場には、操作の始まりか、解放の途中からしか移らない。 -/
theorem Access.next_releasing {r : Role} {v : LockWord} (h : Access L r v o) :
    o.next ≠ .releasingShared ∧
      (o.next = .releasing ∨ o.next = .storing → r = .releasing ∧ o.effect.Silent) := by
  cases h with
  | stay hr he =>
    cases r with
    | releasing => exact ⟨by simp, fun _ => ⟨rfl, he⟩⟩
    | _ => first | exact hr.elim | simp
  | seeBoth => exact ⟨by simp, fun _ => ⟨rfl, trivial⟩⟩
  | downgrade => split <;> simp
  | dropShared => split <;> simp
  | _ => simp

/-- 他の thread の一歩の後も、眠っていない立場はそのままである。 -/
theorem role_other (hq : Queued (program L) s) (hne : u ≠ t)
    (hw : (s.after (program L) t o).pc u ≠ .writing)
    (hr : (s.after (program L) t o).pc u ≠ .reading) :
    (s.after (program L) t o).pc u = s.pc u := by
  rcases hq.pc_other (o := o) hne with h | ⟨-, h⟩ | ⟨-, h⟩
  · exact h
  · exact (hw h).elim
  · exact (hr h).elim

theorem Owned.access (ho : Owned s) (hq : Queued (program L) s)
    (ha : Access L (s.pc t) s.word o) : Owned (s.after (program L) t o) := by
  obtain ⟨hw, hr⟩ := ha.not_parked
  have hself := hq.pc_self (o := o) hw hr
  obtain ⟨hshared, hexclusive⟩ := ha.next_releasing
  refine ⟨fun u hu => ?_, fun u hu => ?_⟩
  · rcases eq_or_ne u t with rfl | hne
    · exact (hshared (hself ▸ hu)).elim
    · have hrole := role_other hq hne (by rw [hu]; simp) (by rw [hu]; simp)
      exact (Effect.mem_sharedAfter hne).mpr (ho.shared u (hrole ▸ hu))
  · rcases eq_or_ne u t with rfl | hne
    · obtain ⟨hrel, hsilent⟩ := hexclusive (hself ▸ hu)
      show u ∈ o.effect.exclusiveAfter u s.exclusive
      rw [hsilent.exclusiveAfter]
      exact ho.exclusive u (Or.inl hrel)
    · have hrole := role_other hq hne (by rcases hu with h | h <;> rw [h] <;> simp)
        (by rcases hu with h | h <;> rw [h] <;> simp)
      exact (Effect.mem_exclusiveAfter hne).mpr (ho.exclusive u (hrole ▸ hu))

theorem Owned.goto (ho : Owned s) {n : Need} {p : Role} (h : Enter (s.pc t) n p)
    (hn : n.Met s t) : Owned (s.goto t p) := by
  have hpc : ∀ u, (s.goto t p).pc u = if u = t then p else s.pc u := fun u => by
    show Function.update s.pc t p u = _
    rw [Function.update_apply]
  refine ⟨fun u hu => ?_, fun u hu => ?_⟩
  · rw [hpc] at hu
    split at hu
    · next heq =>
      subst heq hu
      generalize s.pc u = r at h
      cases h
      exact hn
    · exact ho.shared u hu
  · rw [hpc] at hu
    split at hu
    · next heq =>
      subst heq
      generalize s.pc u = r at h
      cases h with
      | unlockExclusive => exact hn
      | _ => rcases hu with h | h <;> cases h
    · exact ho.exclusive u hu

end Owned

/-- 到達可能な状態で、語と持ち主の対応が成り立つ。 -/
structure Sound (L : Limit) (s : Threads T Role LockWord) : Prop where
  holding : Holding L s.word s.shared s.exclusive
  owned : Owned s
  queued : Queued (program L) s

theorem sound [DecidableEq T] {s : Threads T Role LockWord}
    (h : (program L).lts.Reachable s) : Sound L s := by
  refine h.invariant (fun s hs => ?_) fun s t s' hr hi hstep => ?_
  · subst hs
    have hlim := L.one_lt
    refine ⟨.shared rfl rfl (by show 0 < L.max; omega) rfl, ⟨?_, ?_⟩, lawful.queued (.init rfl)⟩
    · intro t ht
      cases ht
    · intro t ht
      rcases ht with h | h <;> cases h
  · refine ⟨?_, ?_, lawful.queued (.step hr hstep)⟩
    · cases hstep with
      | enter => exact hi.holding
      | access ha => exact hi.holding.access ha (hi.owned.shared t) (hi.owned.exclusive t)
    · cases hstep with
      | enter he hn => exact hi.owned.goto he hn
      | access ha => exact hi.owned.access hi.queued ha

end Neocache.LockProtocol

namespace Neocache.RawRwLock

open Infra.Parking Infra.Packed LockProtocol

variable {T : Type*} [DecidableEq T] {w : Word} {s : System T w}

/-! ## 実装の系 -/

theorem sound_of_reachable (h : (program w).lts.Reachable s) :
    Sound (limit w) (s.map Pc.role decode) := sound ((sim w).reachable h)

/-- 語は、書き手一人か、読み手の数かのどちらかを表す。 -/
theorem word_of_reachable (h : (program w).lts.Reachable s) :
    (s.word &&& oneWriter w = oneWriter w ∧ (∃ t, s.exclusive = {t}) ∧ s.shared = 0) ∨
      (s.word &&& oneWriter w ≠ oneWriter w ∧ (s.word >>> 2).toNat = s.shared.card ∧
        s.exclusive = 0) := by
  rcases (sound_of_reachable h).holding with ⟨hx, hs, hw⟩ | ⟨hx, hw, hlt, -⟩
  · exact Or.inl ⟨and_oneWriter_eq_self.mpr hw, ⟨_, hx⟩, hs⟩
  · refine Or.inr ⟨fun h => ?_, hw, hx⟩
    have hmax := and_oneWriter_eq_self.mp h
    have hlt' : count s.word < maxCount w.bits := hlt
    omega

/-- 読み手の印は、書き手が持つ間にしか立たない。 -/
theorem exclusive_of_readersParked (h : (program w).lts.Reachable s)
    (hr : s.word &&& readersParked w ≠ 0) : ∃ t, t ∈ s.exclusive := by
  rcases (sound_of_reachable h).holding with @⟨t, hx, -, -⟩ | ⟨-, -, -, hf⟩
  · refine ⟨t, ?_⟩
    rw [show s.exclusive = {t} from hx]
    exact Multiset.mem_singleton_self t
  · exact (hr (and_readersParked_eq_zero.mpr hf)).elim

/-- 降格の一歩は、書き手一人から読み手一人へ直に移る。 -/
theorem downgrade_step (h : (program w).lts.Reachable s) {t : T} (ht : s.pc t = .downgrade) :
    (s.exclusive = {t} ∧ s.shared = 0) ∧ (∃ s', (program w).Step s t s') ∧
      ∀ s', (program w).Step s t s' → s'.exclusive = 0 ∧ s'.shared = {t} := by
  have hs := sound_of_reachable h
  have hown : t ∈ s.exclusive :=
    hs.owned.exclusive t (Or.inl (show (s.pc t).role = .releasing by rw [ht]; rfl))
  obtain ⟨hx, hz, -⟩ := hs.holding.of_mem_exclusive hown
  have hx' : s.exclusive = {t} := hx
  have hz' : s.shared = 0 := hz
  refine ⟨⟨hx', hz'⟩, ?_, fun s' hstep => ?_⟩
  · obtain ⟨o, ho⟩ : ∃ o, Pc.access ⟨false, false⟩ s.word (s.pc t) = some o := by
      rw [ht]
      exact ⟨_, rfl⟩
    exact ⟨_, .access ⟨_, ho⟩⟩
  · cases hstep with
    | enter he =>
      obtain ⟨op, hidle, -⟩ := he
      rw [ht] at hidle
      cases hidle
    | access ha =>
      obtain ⟨c, hc⟩ := ha
      rw [ht] at hc
      obtain rfl := Option.some.inj hc
      show s.exclusive.erase t = 0 ∧ t ::ₘ s.shared = {t}
      rw [hx', hz']
      exact ⟨Multiset.erase_singleton t, rfl⟩

/--
何個の thread がどの順に動いても、語は持ち主を正確に表す。

書き手の桁がすべて立っていれば持ち主は書き手一人だけで、そうでなければ上の桁は読み手の数に等しく
書き手は居ない。読み手の印は書き手が持つ間にしか立たず、降格は一歩で書き手一人から読み手一人に移る。
-/
theorem lock_excludes (h : (program w).lts.Reachable s) :
    ((s.word &&& oneWriter w = oneWriter w ∧ (∃ t, s.exclusive = {t}) ∧ s.shared = 0) ∨
      (s.word &&& oneWriter w ≠ oneWriter w ∧ (s.word >>> 2).toNat = s.shared.card ∧
        s.exclusive = 0)) ∧
    (s.word &&& readersParked w ≠ 0 → ∃ t, t ∈ s.exclusive) ∧
    ∀ t, s.pc t = .downgrade →
      (s.exclusive = {t} ∧ s.shared = 0) ∧ (∃ s', (program w).Step s t s') ∧
        ∀ s', (program w).Step s t s' → s'.exclusive = 0 ∧ s'.shared = {t} :=
  ⟨word_of_reachable h, exclusive_of_readersParked h, fun _ => downgrade_step h⟩

/-- 64 bit の `usize`。 -/
def usize64 : Word := ⟨64, by decide⟩

/-- 書き手 0 が持ち、読み手 1 が眠ったところで、書き手が降格を始める。 -/
def downgradeRun : List (Nat × Sched) :=
  [(0, .enter .lockExclusive), (0, .access ⟨false, false⟩)]
    ++ (1, .enter .lockShared) :: List.replicate 5 (1, .access ⟨false, false⟩)
    ++ [(0, .enter .downgrade)]

theorem lock_excludes_downgrade : ∃ s : System Nat usize64,
    ((program usize64).lts.Reachable s ∧ s.pc 0 = .downgrade ∧ s.readersQueue = [1]) ∧
      ∀ s', (program usize64).Step s 0 s' → s'.exclusive = 0 ∧ s'.shared = {0} := by
  obtain ⟨s, hrun, hpc, hq⟩ : ∃ s : System Nat usize64,
      run downgradeRun (program usize64).init = some s ∧ s.pc 0 = .downgrade ∧
        s.readersQueue = [1] := ⟨_, rfl, rfl, rfl⟩
  have hr := reachable_run (.init rfl) hrun
  exact ⟨s, ⟨hr, hpc, hq⟩, ((lock_excludes hr).2.2 0 hpc).2.2⟩

end Neocache.RawRwLock
