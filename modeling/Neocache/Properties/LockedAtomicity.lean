import Neocache.Cache.Locked
import Neocache.Properties.Atomicity
import Neocache.Properties.LockWakeup

/-!
# lock の実装の上での atomic 性

`Neocache/Properties/Atomicity.lean` の定理は、lock が約束どおりに働くことを前提にしていた。ここでは
`src/lock.rs` の code の上で同じことを示す。一般論（`Infra.Locked.refines`）に渡すのは次の三つである。

* 眠っている thread は動かず、眠るのは待ち行列に並ぶときに限る（`lawful`）
* code のどの場所も、何のための呼び出しの途中かを覚えている（`phased`）
* 書き手が持つ間は他に持ち主が居ない（`excludes`）
-/

namespace Neocache

open Infra Relation Parking

/-! ## 呼び出しの種類 -/

namespace RawRwLock

open LockProtocol Locked

variable {w : Word}

/-- 何のための呼び出しの途中か。 -/
def Pc.phase : Pc w → Phase
  | .idle => .idle
  | .tryLockExclusive | .lockExclusive _ | .lockExclusiveSlow _ => .lockExclusive
  | .lockExclusiveCas _ _ _ | .lockExclusiveFlag _ _ _ => .lockExclusive
  | .lockExclusivePark | .lockExclusiveParked => .lockExclusive
  | .unlockExclusive | .unlockExclusiveSlow | .unlockExclusiveCas _ _ _ => .unlockExclusive
  | .unlockExclusiveStore => .unlockExclusive
  | .unlockExclusiveUnpark _ => .waking
  | .tryLockSharedFast _ | .tryLockSharedFastCas _ _ => .lockShared
  | .tryLockSharedSlow | .tryLockSharedSlowCas _ => .lockShared
  | .lockSharedSlow | .lockSharedCas _ | .lockSharedFlag _ _ => .lockShared
  | .lockSharedPark | .lockSharedParked => .lockShared
  | .unlockShared => .unlockShared
  | .unlockSharedSlow | .unlockSharedUnpark => .waking
  | .downgrade => .downgrade
  | .downgradeUnpark => .waking

theorem lockExclusiveNext_phase (a : AcquireWith) (v : BitVec w.bits) (spin : Bool) :
    (lockExclusiveNext a v spin).phase = .lockExclusive := by
  unfold lockExclusiveNext
  split
  · rfl
  · split
    · split <;> rfl
    · rfl

theorem FastCall.next_phase (call : FastCall) : (call.next : Pc w).phase = .lockShared := by
  cases call <;> rfl

theorem tryLockSharedNext_phase (v : BitVec w.bits) :
    Phase.Step .lockShared (tryLockSharedNext v).effect (tryLockSharedNext v).next.phase := by
  unfold tryLockSharedNext
  split
  · exact .quiet (by simp)
  · exact .refuse (Or.inl rfl)

theorem lockSharedNext_phase (v : BitVec w.bits) (spin : Bool) :
    Phase.Step .lockShared (lockSharedNext v spin).effect (lockSharedNext v spin).next.phase := by
  unfold lockSharedNext
  split
  · split
    · exact .quiet (by simp)
    · exact .panic (by simp)
  · split
    · split <;> exact .quiet (by simp)
    · exact .quiet (by simp)

/-- 一回の access は、呼び出しの種類に許されたことだけをする。 -/
theorem access_phase {p : Pc w} {c : Chance} {v : BitVec w.bits}
    {o : StepResult (Pc w) (BitVec w.bits)} (h : p.access c v = some o) :
    p.phase.Step o.effect o.next.phase := by
  have hexclusive : ∀ (a : AcquireWith) (spin : Bool), Phase.Step .lockExclusive .quiet
      (lockExclusiveNext a v spin).phase := by
    intro a spin
    rw [lockExclusiveNext_phase]
    exact .quiet (by simp)
  have hfast : ∀ call : FastCall, Phase.Step .lockShared .quiet (call.next : Pc w).phase := by
    intro call
    rw [FastCall.next_phase]
    exact .quiet (by simp)
  cases p with
  | idle | lockExclusiveParked | lockSharedParked => cases h
  | tryLockExclusive =>
    simp only [Pc.access] at h
    split at h <;> obtain rfl := Option.some.inj h
    · exact .takeExclusive
    · exact .refuse (Or.inr rfl)
  | lockExclusive retry =>
    simp only [Pc.access] at h
    split at h <;> obtain rfl := Option.some.inj h
    · exact .takeExclusive
    · cases retry <;> exact .quiet (by simp [Pc.phase])
  | lockExclusiveSlow a =>
    obtain rfl := Option.some.inj h
    exact hexclusive a _
  | lockExclusiveCas a state free =>
    simp only [Pc.access] at h
    split at h <;> obtain rfl := Option.some.inj h
    · exact .takeExclusive
    · exact hexclusive a _
  | lockExclusiveFlag a state held =>
    simp only [Pc.access] at h
    split at h <;> obtain rfl := Option.some.inj h
    · exact .quiet (by simp [Pc.phase])
    · exact hexclusive a _
  | lockExclusivePark =>
    simp only [Pc.access] at h
    split at h <;> obtain rfl := Option.some.inj h
    · exact .parkWriter
    · exact .quiet (by simp [Pc.phase])
  | unlockExclusive =>
    simp only [Pc.access] at h
    split at h <;> obtain rfl := Option.some.inj h
    · exact .dropExclusive (Or.inl rfl)
    · exact .quiet (by simp [Pc.phase])
  | unlockExclusiveSlow =>
    simp only [Pc.access] at h
    split at h
    · split at h
      · obtain rfl := Option.some.inj h
        exact .panic (by simp [Pc.phase])
      · split at h <;> obtain rfl := Option.some.inj h <;> exact .quiet (by simp [Pc.phase])
    · obtain rfl := Option.some.inj h
      exact .panic (by simp [Pc.phase])
  | unlockExclusiveCas state held one =>
    simp only [Pc.access] at h
    split at h
    · obtain rfl := Option.some.inj h
      exact .dropExclusive (Or.inr rfl)
    · split at h <;> obtain rfl := Option.some.inj h
      · exact .quiet (by simp [Pc.phase])
      · exact .panic (by simp [Pc.phase])
  | unlockExclusiveStore =>
    obtain rfl := Option.some.inj h
    exact .dropExclusive (Or.inr rfl)
  | unlockExclusiveUnpark parked =>
    simp only [Pc.access] at h
    split at h
    · obtain rfl := Option.some.inj h
      exact .unpark (Or.inr rfl)
    · split at h <;> obtain rfl := Option.some.inj h
      · exact .unpark (Or.inl rfl)
      · exact .panic (by simp [Pc.phase])
  | tryLockSharedFast call =>
    simp only [Pc.access] at h
    split at h <;> obtain rfl := Option.some.inj h
    · exact .quiet (by simp [Pc.phase])
    · exact hfast call
  | tryLockSharedFastCas call inc =>
    simp only [Pc.access] at h
    split at h <;> obtain rfl := Option.some.inj h
    · exact .takeShared
    · exact hfast call
  | tryLockSharedSlow =>
    obtain rfl := Option.some.inj h
    exact tryLockSharedNext_phase v
  | tryLockSharedSlowCas inc =>
    simp only [Pc.access] at h
    split at h <;> obtain rfl := Option.some.inj h
    · exact .takeShared
    · exact tryLockSharedNext_phase v
  | lockSharedSlow =>
    obtain rfl := Option.some.inj h
    exact lockSharedNext_phase v _
  | lockSharedCas inc =>
    simp only [Pc.access] at h
    split at h <;> obtain rfl := Option.some.inj h
    · exact .takeShared
    · exact .quiet (by simp [Pc.phase])
  | lockSharedFlag state full =>
    simp only [Pc.access] at h
    split at h <;> obtain rfl := Option.some.inj h
    · exact .quiet (by simp [Pc.phase])
    · exact lockSharedNext_phase v _
  | lockSharedPark =>
    simp only [Pc.access] at h
    split at h <;> obtain rfl := Option.some.inj h
    · exact .parkReader
    · exact .quiet (by simp [Pc.phase])
  | unlockShared =>
    obtain rfl := Option.some.inj h
    refine .dropShared ?_
    show (if v = oneReader w ||| writersParked w then (.unlockSharedSlow : Pc w) else .idle).phase
      = _ ∨ _
    split
    · exact Or.inr rfl
    · exact Or.inl rfl
  | unlockSharedSlow =>
    simp only [Pc.access] at h
    split at h <;> obtain rfl := Option.some.inj h
    · exact .quiet (by simp [Pc.phase])
    · exact .rest
  | unlockSharedUnpark =>
    obtain rfl := Option.some.inj h
    exact .unpark (Or.inl rfl)
  | downgrade =>
    obtain rfl := Option.some.inj h
    refine .downgrade ?_
    show (if v &&& readersParked w ≠ 0 then (.downgradeUnpark : Pc w) else .idle).phase = _ ∨ _
    split
    · exact Or.inr rfl
    · exact Or.inl rfl
  | downgradeUnpark =>
    obtain rfl := Option.some.inj h
    exact .unpark (Or.inr rfl)

theorem phased (w : Word) : Phased (program w) (doors w) Pc.phase where
  idle := rfl
  writerWoken := rfl
  readerWoken := rfl
  access h := by
    obtain ⟨c, hc⟩ := h
    exact access_phase hc
  lockShared h := by
    rcases h with rfl | rfl
    · exact ⟨⟨.lockShared, rfl, rfl, rfl⟩, rfl⟩
    · exact ⟨⟨.tryLockShared, rfl, rfl, rfl⟩, rfl⟩
  lockExclusive h := by
    rcases h with rfl | rfl
    · exact ⟨⟨.lockExclusive, rfl, rfl, rfl⟩, rfl⟩
    · exact ⟨⟨.tryLockExclusive, rfl, rfl, rfl⟩, rfl⟩
  unlockShared := ⟨⟨.unlockShared, rfl, rfl, rfl⟩, rfl⟩
  unlockExclusive := ⟨⟨.unlockExclusive, rfl, rfl, rfl⟩, rfl⟩
  downgrade := ⟨⟨.downgrade, rfl, rfl, rfl⟩, rfl⟩

/-! ## 待ち行列と排他 -/

/-- 眠っている thread は動かず、眠るのは待ち行列に並ぶときに限る。 -/
theorem lawful (w : Word) : (program w).Lawful where
  enter_ne h := by
    obtain ⟨op, rfl, rfl, rfl⟩ := h
    cases op <;> simp [program, LockOp.entry]
  access_ne h := by
    obtain ⟨c, hc⟩ := h
    refine ⟨?_, ?_⟩ <;> rintro rfl <;> cases hc
  writer h := (Access.parks ((sim w).access h)).1.trans Pc.role_parked.1
  reader h := (Access.parks ((sim w).access h)).2.trans Pc.role_parked.2
  parked_ne := by simp [program]
  idle_ne := by simp [program]
  writerWoken_ne := by simp [program]
  readerWoken_ne := by simp [program]

/-- 書き手が持つ間は、他に持ち主が居ない。 -/
theorem excludes (T : Type*) [DecidableEq T] (w : Word) : Excludes T (program w) := by
  intro s h t ht
  obtain ⟨hx, hs, -⟩ := (sound_of_reachable h).holding.of_mem_exclusive ht
  exact ⟨hx, hs⟩

end RawRwLock

/-! ## まとめ -/

variable {K V A T : Type*} [DecidableEq K] [DecidableEq T] {w : Word} {cap requested : Nat}
  {hasher : K → UInt64} {c : NeoCache K V}

/-- lock の実装の上で全ての操作が終わった実行は、lock を一歩で取る系の、終わった実行である。 -/
theorem NeoCache.Finishes.of_locked {s : NeoCache.Concurrent K V T A w}
    (h : (c.lockedLts T A w).Reachable s) {hist : List (T × (K × GuardedOp K V A) × A)}
    (hs : s.world.records = hist.map fun x => ⟨x.1, x.2.1, .finished x.2.2⟩) :
    c.Finishes w hist s.world.data := by
  have hworld := Locked.refines (RawRwLock.lawful w) (RawRwLock.phased w)
    (RawRwLock.excludes T w) h
  unfold NeoCache.Finishes NeoCache.guardLts
  rw [← hs]
  exact hworld

/--
`src/lock.rs` の lock の上で、key 一つの操作は atomic である。

thread が何個で、lock の code の access、見かけの CAS の失敗、`park` と `unpark`、区間の中の計算が
どう交ざっても、書き込み lock の下の計算が動いている shard では他の計算は動いておらず、始まった操作が
すべて終わった時点の cache と返り値は、操作を lock を取った順に一つずつ行ったものと同じである。
-/
theorem locked_atomic (hsize : cap < w.size) (hreq : NeoCache.Accepted w requested)
    (hr : CacheReachable w cap hasher requested c) {s : NeoCache.Concurrent K V T A w}
    (h : (c.lockedLts T A w).Reachable s) :
    (∀ pre t op code post, s.world.records = pre ++ ⟨t, op, .running (.exclusive code)⟩ :: post →
      ∀ x ∈ pre ++ post, c.home w x.op.1 = c.home w op.1 → ∃ a, x.status = .finished a) ∧
    ∀ hist : List (T × (K × GuardedOp K V A) × A),
      s.world.records = (hist.map fun x => ⟨x.1, x.2.1, .finished x.2.2⟩) →
      NeoCache.runGuarded w (hist.map fun x => x.2.1) c
        = .ok (hist.map fun x => x.2.2, c.withShards s.world.data) := by
  refine ⟨fun pre t op code post hs x hx hhome => ?_, fun hist hs => ?_⟩
  · have hinv := Locked.inv_of_reachable (RawRwLock.lawful w) (RawRwLock.phased w)
      (RawRwLock.excludes T w) h
    refine hinv.alone (RawRwLock.excludes T w) hs ?_ x hx hhome
    rintro ⟨code', hcode⟩
    cases hcode
  · exact (NeoCache.Finishes.of_locked h hs).run (hr.ready hsize hreq)

/-! ## 二つの操作が重なる実行の例 -/

variable {home : K → Nat} {hash : K → UInt64} {d : Nat → ShardData K V}
  {s s' : NeoCache.Concurrent K V T A w} {t : T} {i : Nat} {p q : RawRwLock.Pc w}
  {call : Locked.Call (K × GuardedOp K V A) (Section K V A) A} {v : BitVec w.bits} {e : Effect}

/-- 一つの lock での `t` の居場所のほかは、`s` と同じである。 -/
structure OnlyMoves (t : T) (i : Nat) (p : RawRwLock.Pc w) (s s' : NeoCache.Concurrent K V T A w) :
    Prop where
  here : (s'.locks i).pc = Function.update (s.locks i).pc t p
  other : ∀ j ≠ i, s'.locks j = s.locks j

omit [DecidableEq K] in
theorem OnlyMoves.idle (h : OnlyMoves t i .idle s s') {u : T}
    (hu : s.Idle (RawRwLock.program w) u) : s'.Idle (RawRwLock.program w) u := by
  intro j
  rcases eq_or_ne j i with rfl | hj
  · rw [h.here, Function.update_apply]
    split
    · rfl
    · exact hu j
  · rw [h.other j hj]
    exact hu j

/-- 呼び出しの中の、起こす相手のない access。 -/
theorem locked_access (home : K → Nat) (hash : K → UInt64) {s₀ : NeoCache.Concurrent K V T A w}
    (hcall : s.call t = some (i, call)) (hs : OnlyMoves t i p s₀ s)
    (ha : p.access ⟨false, false⟩ (s.locks i).word = some ⟨q, v, e⟩)
    (he : e ≠ .unparkOne ∧ e ≠ .unparkAll) :
    ∃ s' : NeoCache.Concurrent K V T A w,
      Locked.Proceeds (guardSections home hash) (RawRwLock.program w) (RawRwLock.doors w) s s' ∧
      s'.call t = some (i, call) ∧ OnlyMoves t i q s₀ s' ∧ (s'.locks i).word = v ∧
      s'.world = Locked.World.follow (guardSections home hash) s.world t call e := by
  have haccess : (RawRwLock.program w).access ((s.locks i).pc t) (s.locks i).word ⟨q, v, e⟩ := by
    rw [hs.here, Function.update_self]
    exact ⟨_, ha⟩
  refine ⟨_, ⟨t, .access hcall haccess⟩, hcall, ⟨funext fun u => ?_,
    fun j hj => (Locked.State.access_locks_of_ne hj).trans (hs.other j hj)⟩, ?_, rfl⟩
  · rw [Locked.State.access_locks_self, ← Function.update_idem, ← hs.here]
    show (e.wakes (RawRwLock.program w) (s.locks i) u).getD (Function.update (s.locks i).pc t q u)
      = Function.update (s.locks i).pc t q u
    cases e <;> first | rfl | exact (he.1 rfl).elim | exact (he.2 rfl).elim
  · rw [Locked.State.access_locks_self]
    rfl

omit [DecidableEq K] in
theorem onlyMoves_enter : OnlyMoves t i p s (s.enter t i p call) :=
  ⟨by rw [Locked.State.enter_locks_self]; rfl, fun _ => Locked.State.enter_locks_of_ne⟩

/-- 始めた呼び出しが、待たずに一回の access で終わる。 -/
theorem locked_call (home : K → Nat) (hash : K → UInt64)
    (call : Locked.Call (K × GuardedOp K V A) (Section K V A) A)
    (ha : p.access ⟨false, false⟩ (s.locks i).word = some ⟨.idle, v, e⟩)
    (he : e ≠ .unparkOne ∧ e ≠ .unparkAll) :
    ∃ s' : NeoCache.Concurrent K V T A w,
      Locked.Proceeds (guardSections home hash) (RawRwLock.program w) (RawRwLock.doors w)
        (s.enter t i p call) s' ∧
      OnlyMoves t i .idle s s' ∧ (s'.locks i).word = v ∧
      s'.world = Locked.World.follow (guardSections home hash) s.world t call e := by
  have hword : p.access ⟨false, false⟩ ((s.enter t i p call).locks i).word
      = some ⟨.idle, v, e⟩ := by
    rw [Locked.State.enter_locks_self]
    exact ha
  obtain ⟨s', hgo, -, hs', hword', hworld'⟩ :=
    locked_access home hash (Function.update_self t _ _) onlyMoves_enter hword he
  exact ⟨s', hgo, hs', hword', hworld'⟩

/-- 読み出し lock を、`load` と CAS の二回の access で取る。 -/
theorem locked_lockShared (op : K × GuardedOp K V A) {code : ReadCode K V A}
    {inc : RawRwLock.Increment w} (h : (lockedGuards T A w home hash d).Reachable s)
    (hidle : s.Idle (RawRwLock.program w) t) (hi : home op.1 = i)
    (hcode : op.2.code (hash op.1) op.1 = .shared code)
    (hinc : RawRwLock.increment (s.locks i).word = some inc) :
    ∃ s' : NeoCache.Concurrent K V T A w, (lockedGuards T A w home hash d).Reachable s' ∧
      OnlyMoves t i .idle s s' ∧ (s'.locks i).word = inc.newState ∧
      s'.world = ⟨s.world.data, s.world.records ++ [⟨t, op, .running (.shared code)⟩]⟩ := by
  subst hi
  let s₁ := s.enter t (home op.1) (.tryLockSharedFast .first) (.acquire op)
  have h₁ : (lockedGuards T A w home hash d).Reachable s₁ :=
    .step h (.lock hidle (Or.inl ⟨⟨code, hcode⟩, Or.inl rfl⟩))
  have hword₁ : (s₁.locks (home op.1)).word = (s.locks (home op.1)).word := by
    rw [Locked.State.enter_locks_self]
    rfl
  have hload : (RawRwLock.Pc.tryLockSharedFast .first).access ⟨false, false⟩
      (s₁.locks (home op.1)).word
        = some ⟨.tryLockSharedFastCas .first inc, (s₁.locks (home op.1)).word, .quiet⟩ := by
    rw [hword₁]
    simp only [RawRwLock.Pc.access, hinc]
  obtain ⟨s₂, ⟨_, hgo₂⟩, hcall₂, hs₂, hword₂, hworld₂⟩ :=
    locked_access home hash (Function.update_self t _ _) onlyMoves_enter hload (by decide)
  have hcas : (RawRwLock.Pc.tryLockSharedFastCas .first inc).access ⟨false, false⟩
      (s₂.locks (home op.1)).word = some ⟨.idle, inc.newState, .takeShared⟩ := by
    rw [hword₂, hword₁, ← RawRwLock.increment_state hinc]
    exact if_pos ⟨rfl, rfl⟩
  obtain ⟨s₃, ⟨_, hgo₃⟩, -, hs₃, hword₃, hworld₃⟩ :=
    locked_access home hash hcall₂ hs₂ hcas (by decide)
  refine ⟨s₃, .step (.step h₁ (.proceed hgo₂)) (.proceed hgo₃), hs₃, hword₃, ?_⟩
  rw [hworld₃, hworld₂, ← hcode]
  rfl

/-- 共有の区間は、lock に触れずに最後まで進められる。 -/
theorem inner_shared (c : ReadCode K V A) (σ : ShardData K V) :
    ReflTransGen (Locked.Inner (guardSections home hash))
      (.shared c, σ) (.shared (.ret (c.out σ)), c.pend σ) := by
  have hkept : ∀ q, ReflTransGen (guardSections home hash).Alone (.shared c, σ) q →
      ReflTransGen (Locked.Inner (guardSections home hash)) (.shared c, σ) q ∧
        ∃ r, q.1 = .shared r := by
    intro q hq
    induction hq with
    | refl => exact ⟨.refl, c, rfl⟩
    | @tail q q' _ hstep ih =>
      obtain ⟨hsteps, hr⟩ := ih
      have hr' := (guardSections_interleavable home hash).keep hr hstep
      exact ⟨hsteps.tail ⟨hstep, fun _ => hr, fun _ => hr'⟩, hr'⟩
  exact (hkept _ (c.completes σ)).1

/-- 共有の区間を最後まで進め、読み出し lock を放す。 -/
theorem locked_finishRead (hash : K → UInt64) {op : K × GuardedOp K V A} {code : ReadCode K V A}
    {n : Nat} {σ : ShardData K V} (hidle : s.Idle (RawRwLock.program w) t)
    (hn : s.world.records[n]? = some ⟨t, op, .running (.shared code)⟩)
    (hi : home op.1 = i) (hσ : s.world.data i = σ)
    (ha : RawRwLock.Pc.unlockShared.access ⟨false, false⟩ (s.locks i).word
      = some ⟨.idle, v, .dropShared⟩) :
    ∃ s' : NeoCache.Concurrent K V T A w,
      ReflTransGen (Locked.Proceeds (guardSections home hash) (RawRwLock.program w)
        (RawRwLock.doors w)) s s' ∧
      OnlyMoves t i .idle s s' ∧ (s'.locks i).word = v ∧ s'.world.data i = code.pend σ ∧
      s'.world.records = Locked.setStatus s.world.records n (.finished (code.out σ)) := by
  subst hi
  have hsteps : ReflTransGen (Locked.Inner (guardSections home hash))
      (.shared code, σ) (.shared (.ret (code.out σ)), code.pend σ) := inner_shared code σ
  obtain ⟨s₁, hrun, hlocks, -, hdata, hrecords⟩ := Locked.proceeds_inner hidle hn hσ hsteps
  have hidle₁ : s₁.Idle (RawRwLock.program w) t := fun i => hlocks ▸ hidle i
  have hn₁ : s₁.world.records[n]?
      = some ⟨t, op, .running (.shared (.ret (code.out σ)))⟩ := by
    rw [hrecords, Locked.setStatus, List.getElem?_modify_eq, hn]
    rfl
  obtain ⟨s₂, hgo, hs₂, hword₂, hworld₂⟩ := locked_call home hash (s := s₁) (t := t)
    (.release n (code.out σ)) (by rw [hlocks]; exact ha) (by decide)
  refine ⟨s₂, (hrun.tail ⟨t, .unlockShared hidle₁ hn₁ ⟨_, rfl⟩ rfl⟩).tail hgo,
    ⟨by rw [hs₂.here, hlocks], fun j hj => by rw [hs₂.other j hj, hlocks]⟩, hword₂, ?_, ?_⟩
  · rw [hworld₂]
    show s₁.world.data (home op.1) = _
    rw [hdata]
    exact Function.update_self (home op.1) _ _
  · rw [hworld₂]
    show Locked.setStatus s₁.world.records n _ = _
    rw [hrecords, Locked.setStatus, Locked.setStatus, List.modify_modify_eq]
    rfl

theorem inner_exclusive {c c' : WriteCode K V A} {σ σ' : ShardData K V}
    (h : WriteCode.Step σ c c' σ') :
    Locked.Inner (guardSections home hash) (.exclusive c, σ) (.exclusive c', σ') :=
  ⟨.exclusive h, by simp [guardSections]⟩

/-- 排他の間に値を増やし、降格の手前まで進める。 -/
theorem incrThenRead_writes {home : Nat → Nat} {hash : Nat → UInt64} : ReflTransGen
    (Locked.Inner (guardSections (V := Nat) (A := Option Nat) home hash))
    (incrThenRead.code 0 0, entryShard) (.exclusive (.downgrade readBack), raisedShard) := by
  let rest : WriteCode Nat Nat (Option Nat) := .edit (.store 0 8) (.downgrade readBack)
  let code : WriteCode Nat Nat (Option Nat) :=
    (RefMutUse.read fun v => .write (v + 1) (.downgrade (.read fun v => .drop (some v)))).code 0 7
  have hfind : Locked.Inner (guardSections home hash) (incrThenRead.code 0 0, entryShard)
      (.exclusive (.bump 0 none code), entryShard) := inner_exclusive .find
  have hread : WriteCode.Step (entryShard.updateEntry 0 .bumpFreq) code rest
      (entryShard.updateEntry 0 .bumpFreq) := .read
  have hwrite : WriteCode.Step (entryShard.updateEntry 0 .bumpFreq) rest (.downgrade readBack)
      raisedShard := .edit
  have hafter : ReflTransGen (Locked.Inner (guardSections home hash))
      (.exclusive code, entryShard.updateEntry 0 .bumpFreq)
      (.exclusive (.downgrade readBack), raisedShard) :=
    (ReflTransGen.single (inner_exclusive hread)).tail (inner_exclusive hwrite)
  have hbefore := ReflTransGen.single hfind
  rcases exists_bumpStep entryShard 0 none with hb | ⟨f, hretry, hb⟩
  · exact (hbefore.tail (inner_exclusive (.bumped hb))).trans hafter
  · have hload := hbefore.tail (inner_exclusive (.retry hretry))
    exact (hload.tail (inner_exclusive (.bumped hb))).trans hafter

/-- 書き手が値を 8 に増やし、共有に落とした所。 -/
theorem oneEntry_downgraded : ∃ s : NeoCache.Concurrent Nat Nat Bool (Option Nat) RawRwLock.usize64,
    (oneEntry.lockedLts Bool (Option Nat) RawRwLock.usize64).Reachable s ∧
      (∀ u, s.Idle (RawRwLock.program _) u) ∧ (s.locks 0).word = RawRwLock.oneReader _ ∧
      s.world.data 0 = raisedShard ∧
      s.world.records = [⟨true, (0, incrThenRead), .running (.shared readBack)⟩] := by
  let M : Sections Nat (ShardData Nat Nat) (Nat × GuardedOp Nat Nat (Option Nat))
    (Section Nat Nat (Option Nat)) (Option Nat) :=
    guardSections (oneEntry.home RawRwLock.usize64) oneEntry.hasher
  let N := RawRwLock.program RawRwLock.usize64
  let s₀ : NeoCache.Concurrent Nat Nat Bool (Option Nat) RawRwLock.usize64 :=
    ⟨fun _ => N.init, ⟨oneEntry.shardData, []⟩, fun _ => none⟩
  have hexclusive : ∀ code, ¬ M.shared (.exclusive code) := by
    rintro code ⟨r, hr⟩
    cases hr
  have hlock : Locked.Step M N (RawRwLock.doors _) s₀ true
      (s₀.enter true 0 (.lockExclusive false) (.acquire (0, incrThenRead))) := by
    have hstart : ¬ M.shared (M.start (0, incrThenRead)) := hexclusive _
    have hdoor : (RawRwLock.doors RawRwLock.usize64).lockExclusive (.lockExclusive false) :=
      Or.inl rfl
    exact .lock (fun _ => rfl) (Or.inr ⟨hstart, hdoor⟩)
  obtain ⟨s₁, ⟨_, hgo₁⟩, hs₁, hword₁, hworld₁⟩ := locked_call (oneEntry.home RawRwLock.usize64)
    oneEntry.hasher (s := s₀) (t := true) (i := 0) (p := .lockExclusive false)
    (.acquire (0, incrThenRead)) rfl (by decide)
  have h₁ : (oneEntry.lockedLts Bool (Option Nat) RawRwLock.usize64).Reachable s₁ :=
    .step (.step (.init rfl) hlock) (.proceed hgo₁)
  change s₁.world = ⟨oneEntry.shardData,
    [⟨true, (0, incrThenRead), .running (incrThenRead.code 0 0)⟩]⟩ at hworld₁
  have hidle₁ : ∀ u, s₁.Idle N u := fun u => hs₁.idle fun _ => rfl
  obtain ⟨s₂, hrun₂, hlocks₂, -, hdata₂, hrecords₂⟩ := Locked.proceeds_inner (M := M) (n := 0)
    (hidle₁ true) (by rw [hworld₁]; rfl) (by rw [hworld₁]; rfl) incrThenRead_writes
  have hidle₂ : ∀ u, s₂.Idle N u := fun u i => hlocks₂ ▸ hidle₁ u i
  rw [hworld₁] at hdata₂ hrecords₂
  change s₂.world.records
    = [⟨true, (0, incrThenRead), .running (.exclusive (.downgrade readBack))⟩] at hrecords₂
  have hdown : Locked.Step M N (RawRwLock.doors _) s₂ true
      (s₂.enter true 0 .downgrade (.downgrade 0 (.shared readBack))) := by
    have hn : s₂.world.records[0]?
        = some ⟨true, (0, incrThenRead), .running (.exclusive (.downgrade readBack))⟩ := by
      rw [hrecords₂]
      rfl
    have hshared : M.shared (.shared readBack) := ⟨_, rfl⟩
    exact .proceed (.downgrade (hidle₂ true) hn (hexclusive _) hshared .downgrade)
  obtain ⟨s₃, ⟨_, hgo₃⟩, hs₃, hword₃, hworld₃⟩ := locked_call (oneEntry.home RawRwLock.usize64)
    oneEntry.hasher (s := s₂) (t := true) (i := 0) (p := .downgrade)
    (.downgrade 0 (.shared readBack)) (v := RawRwLock.oneReader _) (e := .downgrade)
    (by rw [hlocks₂, hword₁]; rfl) (by decide)
  have h₂ := Locked.reachable_proceeds h₁ hrun₂
  refine ⟨s₃, .step (.step h₂ hdown) (.proceed hgo₃), fun u => hs₃.idle (hidle₂ u), hword₃, ?_, ?_⟩
  · rw [hworld₃]
    show s₂.world.data 0 = _
    rw [hdata₂]
    rfl
  · rw [hworld₃]
    show Locked.setStatus s₂.world.records 0 _ = _
    rw [hrecords₂]
    rfl

/-- 降格した書き手が持っている間に、別の thread が読み出し lock を取り、先に放す。 -/
theorem oneEntry_overlap : ∃ m s : NeoCache.Concurrent Nat Nat Bool (Option Nat) RawRwLock.usize64,
    (oneEntry.lockedLts Bool (Option Nat) RawRwLock.usize64).Reachable m ∧
      (m.world.records = [⟨true, (0, incrThenRead), .running (.shared readBack)⟩,
        ⟨false, (0, readOnce), .running (readOnce.code 0 0)⟩]) ∧
      ReflTransGen (Locked.Proceeds (guardSections (oneEntry.home RawRwLock.usize64)
        oneEntry.hasher) (RawRwLock.program _) (RawRwLock.doors _)) m s ∧
      s.world.records = [⟨true, (0, incrThenRead), .finished (some 8)⟩,
        ⟨false, (0, readOnce), .finished (some 8)⟩] := by
  have hhome : oneEntry.home RawRwLock.usize64 0 = 0 := rfl
  obtain ⟨code, hcode, hout, hlookup⟩ : ∃ code, readOnce.code 0 0 = .shared code ∧
      code.out raisedShard = some 8 ∧ (code.pend raisedShard).lookup 0 = some 8 :=
    ⟨_, rfl, rfl, rfl⟩
  obtain ⟨inc, hinc, hnew⟩ : ∃ inc, RawRwLock.increment (RawRwLock.oneReader RawRwLock.usize64)
      = some inc ∧ inc.newState = RawRwLock.oneReader _ + RawRwLock.oneReader _ := ⟨_, rfl, rfl⟩
  obtain ⟨s₁, h₁, hidle₁, hword₁, hdata₁, hrecords₁⟩ := oneEntry_downgraded
  rw [← hword₁] at hinc
  obtain ⟨s₂, h₂, hs₂, hword₂, hworld₂⟩ := locked_lockShared (t := false) (0, readOnce)
    h₁ (hidle₁ false) hhome hcode hinc
  rw [hrecords₁] at hworld₂
  have hrecords₂ : s₂.world.records = [⟨true, (0, incrThenRead), .running (.shared readBack)⟩,
      ⟨false, (0, readOnce), .running (.shared code)⟩] := by
    rw [hworld₂]
    rfl
  -- 読み手が先に終わる
  have hn₂ : s₂.world.records[1]? = some ⟨false, (0, readOnce), .running (.shared code)⟩ := by
    rw [hrecords₂]
    rfl
  have hdata₂ : s₂.world.data 0 = raisedShard := by
    rw [hworld₂]
    exact hdata₁
  obtain ⟨s₃, hgo₃, hs₃, hword₃, hdata₃, hrecords₃⟩ := locked_finishRead oneEntry.hasher
    (v := RawRwLock.oneReader _) (hs₂.idle (hidle₁ false)) hn₂ hhome hdata₂
    (by rw [hword₂, hnew]; rfl)
  rw [hrecords₂, hout] at hrecords₃
  have hback : readBack.out (code.pend raisedShard) = some 8 := by
    show some (((code.pend raisedShard).lookup 0).getD 8) = some 8
    rw [hlookup]
    rfl
  have hn₃ : s₃.world.records[0]?
      = some ⟨true, (0, incrThenRead), .running (.shared readBack)⟩ := by
    rw [hrecords₃]
    rfl
  obtain ⟨s₄, hgo₄, -, -, -, hrecords₄⟩ := locked_finishRead oneEntry.hasher (v := 0)
    (hs₃.idle (hs₂.idle (hidle₁ true))) hn₃ hhome hdata₃ (by rw [hword₃]; rfl)
  rw [hrecords₃, hback] at hrecords₄
  exact ⟨s₂, s₄, h₂, hcode ▸ hrecords₂, hgo₃.trans hgo₄, hrecords₄⟩

/-- 降格した書き手と、その間に入って先に終わった読み手。 -/
theorem locked_atomic_downgrading :
    ∃ m s : NeoCache.Concurrent Nat Nat Bool (Option Nat) RawRwLock.usize64,
      ((oneEntry.lockedLts Bool (Option Nat) RawRwLock.usize64).Reachable m ∧
        (m.world.records = [⟨true, (0, incrThenRead), .running (.shared readBack)⟩,
          ⟨false, (0, readOnce), .running (readOnce.code 0 0)⟩]) ∧
        ReflTransGen (Locked.Proceeds (guardSections (oneEntry.home RawRwLock.usize64)
          oneEntry.hasher) (RawRwLock.program _) (RawRwLock.doors _)) m s ∧
        s.world.records = [⟨true, (0, incrThenRead), .finished (some 8)⟩,
          ⟨false, (0, readOnce), .finished (some 8)⟩]) ∧
      NeoCache.runGuarded RawRwLock.usize64 [(0, incrThenRead), (0, readOnce)] oneEntry
        = .ok ([some 8, some 8], oneEntry.withShards s.world.data) := by
  obtain ⟨m, s, hm, hrunning, hgo, hrecords⟩ := oneEntry_overlap
  have hs : (oneEntry.lockedLts Bool (Option Nat) RawRwLock.usize64).Reachable s :=
    Locked.reachable_proceeds hm hgo
  exact ⟨m, s, ⟨hm, hrunning, hgo, hrecords⟩,
    (locked_atomic (by decide) (by decide) oneEntry_reachable hs).2
      [(true, (0, incrThenRead), some 8), (false, (0, readOnce), some 8)] hrecords⟩

end Neocache
