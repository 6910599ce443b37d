import Neocache.Infra.LockedDrain
import Neocache.Properties.LockProgress
import Neocache.Properties.LockedAtomicity

/-!
# 始まった操作はすべて終えられる

guard を持ったまま次の lock を取りに行く thread が居なければ、到達可能などの状態からも、始まった操作を
すべて終えて、どの shard の lock も初めの状態に戻せる。一般論（`Infra.Locked.drains`）に渡すのは
次の二つである。

* lock の code は、一人で動けば終えられる所を `Pc.Ready` で言い当てている（`drainable`）
* lock の下の計算は、途中のどこからでも、一人で進めれば放す所か降格の所に着く（`completes`）

二つ目の要は追い出しの `while` で、始めた時点の shard が `Intact` なら終わる。途中の shard は操作の
境目の条件を満たさないので、「最後まで進めた結果がある」こと（`WriteCode.Runs`）を始めから運ぶ。
-/

namespace Neocache

open Infra Relation Parking

/-! ## lock の code -/

namespace RawRwLock

open Locked

variable {w : Word}

theorem Pc.inRelease_of_phase {p : Pc w} (hbusy : p.phase ≠ .idle) (h : ¬ p.phase.Acquires) :
    p.inRelease = true := by
  have hacq : p.phase.Acquires → p.inRelease = true := fun hp => (h hp).elim
  cases p <;> first | rfl | exact (hbusy rfl).elim | exact hacq (by simp [Pc.phase, Phase.Acquires])

/-- 途中の呼び出しを終えられること。 -/
theorem drainable (T : Type*) [DecidableEq T] (w : Word) :
    Drains T (program w) Pc.phase (fun p v => p.Ready v) fun p v => p.rank v where
  idle := by
    intro p h
    cases p <;> first | rfl | cases h
  busy h := h.busy rfl
  solo h := by
    obtain ⟨o, ho, hnear⟩ := h.access
    exact ⟨o, ⟨_, ho⟩, hnear⟩
  release hbusy hacq := .of_inRelease (Pc.inRelease_of_phase hbusy hacq) _
  calm h ha hrel hpanic := by
    obtain ⟨c, hc⟩ := ha
    obtain ⟨hbusy, hacq, -, -⟩ := hrel.spec
    have hin := Pc.inRelease_of_phase hbusy hacq
    exact no_panic h hc (release_panic hin hc hpanic) hpanic
  stuck h hx hz hstuck := init_of_stuck h hx hz hstuck

end RawRwLock

/-! ## lock の下の計算 -/

variable {K V A T : Type*} [DecidableEq K] [DecidableEq T] {hash : K → UInt64} {home : K → Nat}
  {σ σ' : ShardData K V} {k : K}

section Forward

open ShardData

/-- 空きができたら、追い出しは続かない。 -/
theorem evictCall_stop (hroom : ¬ σ.Over) (h : ReflTransGen EvictCall σ σ') : σ' = σ := by
  rcases h.cases_head with heq | ⟨τ, hcall, -⟩
  · exact heq.symm
  · exact absurd hcall.1 hroom

/-- 一歩進めても、最後まで進めた結果は変わらない。 -/
theorem WriteCode.Runs.step {c c' : WriteCode K V A} {p : A × ShardData K V} (hr : c.Runs σ p)
    (h : WriteCode.Step σ c c' σ') : c'.Runs σ' p := by
  cases h with
  | find => exact hr
  | read => exact hr
  | retry hb =>
    obtain rfl := hb.retried
    exact hr
  | bumped hb =>
    obtain rfl := hb.bumped
    exact hr
  | edit => exact hr
  | takeGhost => exact hr
  | evictOne full hone =>
    obtain ⟨τ, hcalls, hroom, hrest⟩ := hr
    rcases hcalls.cases_head with rfl | ⟨σ₁, ⟨-, hone'⟩, hcalls'⟩
    · exact (hroom (overCap_iff.mp full)).elim
    · obtain rfl : σ₁ = σ' := Except.ok.inj (hone'.symm.trans hone)
      exact ⟨τ, hcalls', hroom, hrest⟩
  | evicted room =>
    obtain ⟨τ, hcalls, -, hrest⟩ := hr
    have hstop : ¬ σ.Over := fun hover => by
      rw [overCap_iff.mpr hover] at room
      cases room
    rw [evictCall_stop hstop hcalls] at hrest
    exact hrest

theorem Section.Runs.step {l l' : Section K V A} {p : A × ShardData K V} (hr : l.Runs σ p)
    (h : Section.Step σ l l' σ') : l'.Runs σ' p := by
  cases h with
  | shared hstep =>
    obtain ⟨-, hout, hpend⟩ := hstep.spec
    show p = _
    rw [hout, hpend]
    exact hr
  | exclusive hstep => exact WriteCode.Runs.step hr hstep
  | downgrade => exact hr

/-- 追い出しの `while` を、空きができるまで進める。 -/
theorem inner_evict {next : WriteCode K V A} (h : ReflTransGen EvictCall σ σ') :
    ReflTransGen (Locked.Inner (guardSections home hash))
      (.exclusive (.evict next), σ) (.exclusive (.evict next), σ') := by
  induction h with
  | refl => exact .refl
  | tail _ hcall ih => exact ih.tail (inner_exclusive (.evictOne (overCap_iff.mpr hcall.1) hcall.2))

/-- 結果のある計算は、放す所か降格の所まで、lock に触れずに進められる。 -/
theorem WriteCode.Runs.inner (c : WriteCode K V A) {p : A × ShardData K V} :
    ∀ {σ : ShardData K V}, c.Runs σ p → ∃ c' σ',
      ReflTransGen (Locked.Inner (guardSections home hash)) (.exclusive c, σ) (.exclusive c', σ') ∧
        ((∃ a, c' = .ret a) ∨ ∃ r, c' = .downgrade r) := by
  induction c with
  | ret a => exact fun _ => ⟨_, _, .refl, Or.inl ⟨a, rfl⟩⟩
  | downgrade r => exact fun _ => ⟨_, _, .refl, Or.inr ⟨r, rfl⟩⟩
  | find h k next ih =>
    intro σ hr
    obtain ⟨c', σ', hsteps, hlast⟩ := ih _ hr
    exact ⟨c', σ', hsteps.head (inner_exclusive .find), hlast⟩
  | read k next ih =>
    intro σ hr
    obtain ⟨c', σ', hsteps, hlast⟩ := ih _ hr
    exact ⟨c', σ', hsteps.head (inner_exclusive .read), hlast⟩
  | bump k seen next ih =>
    intro σ hr
    obtain ⟨c', σ', hsteps, hlast⟩ := ih hr
    refine ⟨c', σ', ?_, hlast⟩
    rcases exists_bumpStep σ k seen with hb | ⟨f, hretry, hb⟩
    · exact hsteps.head (inner_exclusive (.bumped hb))
    · exact (hsteps.head (inner_exclusive (.bumped hb))).head (inner_exclusive (.retry hretry))
  | edit step next ih =>
    intro σ hr
    obtain ⟨c', σ', hsteps, hlast⟩ := ih hr
    exact ⟨c', σ', hsteps.head (inner_exclusive .edit), hlast⟩
  | takeGhost h next ih =>
    intro σ hr
    obtain ⟨c', σ', hsteps, hlast⟩ := ih _ hr
    exact ⟨c', σ', hsteps.head (inner_exclusive .takeGhost), hlast⟩
  | evict next ih =>
    intro σ hr
    obtain ⟨τ, hcalls, hroom, hrest⟩ := hr
    obtain ⟨c', σ', hsteps, hlast⟩ := ih hrest
    have hstop : τ.overCap = false :=
      Bool.eq_false_of_not_eq_true fun hover => hroom (overCap_iff.mp hover)
    exact ⟨c', σ', (inner_evict hcalls).trans (hsteps.head (inner_exclusive (.evicted hstop))),
      hlast⟩

/-! ## 始めた計算は最後まで進む -/

theorem RefMutUse.exists_runs (use : RefMutUse V A) :
    ∀ (σ : ShardData K V) (v : V), ∃ p, (use.code k v).Runs σ p := by
  induction use with
  | drop a => exact fun σ v => ⟨_, rfl⟩
  | read next ih => exact fun σ v => ih _ σ v
  | write v' next ih => exact fun σ v => ih _ v'
  | downgrade next => exact fun σ v => ⟨_, rfl⟩

theorem OccupiedUse.exists_runs (use : OccupiedUse K V A) :
    ∀ (σ : ShardData K V) (e : CacheEntry V), ∃ p, (use.code k e).Runs σ p := by
  induction use with
  | drop a => exact fun σ e => ⟨_, rfl⟩
  | read next ih => exact fun σ e => ih _ σ e
  | write v next ih => exact fun σ e => ih _ _
  | intoRef next => exact fun σ e => next.exists_runs σ e.value
  | remove ret => exact fun σ e => ⟨_, rfl⟩
  | replaceEntry v ret => exact fun σ e => ⟨_, rfl⟩

/-- 表に無い key の挿入。追い出しの `while` は終わる。 -/
theorem insertVacant_exists_runs {h : UInt64} {v : V} {next : Loc → WriteCode K V A}
    (hs : Intact hash σ) (hnext : ∀ loc τ, ∃ p, (next loc).Runs τ p) :
    ∃ p, (WriteCode.insertVacant h k v next).Runs σ p := by
  have hghost : Intact hash (σ.ghostCheck h).2 := Move.intact (Or.inr (.takeGhost h)) hs
  obtain ⟨τ, hcalls, hroom⟩ : ∃ τ, ReflTransGen EvictCall (σ.ghostCheck h).2 τ ∧ ¬ τ.Over := by
    by_cases full : (σ.ghostCheck h).2.Over
    · obtain ⟨τ, -, hcalls, hroom, -⟩ := evictLoop_total (hghost.healthy full.1) full
      exact ⟨τ, hcalls, hroom⟩
    · exact ⟨_, .refl, full⟩
  obtain ⟨p, hp⟩ := hnext (σ.ghostCheck h).1 _
  exact ⟨p, τ, hcalls, hroom, hp⟩

theorem VacantUse.exists_runs (use : VacantUse K V A) {h : UInt64} (hs : Intact hash σ) :
    ∃ p, (use.code h k).Runs σ p := by
  cases use with
  | drop a => exact ⟨_, rfl⟩
  | insert v next => exact insertVacant_exists_runs hs fun _ τ => next.exists_runs τ v
  | insertEntry v next => exact insertVacant_exists_runs hs fun loc τ => next.exists_runs τ _

/-- 操作の境目の条件を満たす shard では、どの操作も最後まで進む。 -/
theorem GuardedOp.exists_runs (op : GuardedOp K V A) (hs : Intact hash σ) :
    ∃ p, (op.code (hash k) k).Runs σ p := by
  cases op with
  | get absent use => exact ⟨_, rfl⟩
  | insert v ret =>
    simp only [GuardedOp.code, Section.Runs, WriteCode.Runs]
    split
    · exact ⟨_, rfl⟩
    · exact insertVacant_exists_runs hs fun _ τ => ⟨_, rfl⟩
  | remove ret =>
    simp only [GuardedOp.code, Section.Runs, WriteCode.Runs]
    split <;> exact ⟨_, rfl⟩
  | removeIf f ret =>
    simp only [GuardedOp.code, Section.Runs, WriteCode.Runs]
    split
    · split <;> exact ⟨_, rfl⟩
    · exact ⟨_, rfl⟩
  | removeIfMut f ret =>
    simp only [GuardedOp.code, Section.Runs, WriteCode.Runs]
    split
    · simp only [WriteCode.Runs]
      split <;> exact ⟨_, rfl⟩
    · exact ⟨_, rfl⟩
  | getMut absent use =>
    simp only [GuardedOp.code, Section.Runs, WriteCode.Runs]
    split
    · exact use.exists_runs _ _
    · exact ⟨_, rfl⟩
  | entry occupied vacant =>
    simp only [GuardedOp.code, Section.Runs, WriteCode.Runs]
    split
    · exact occupied.exists_runs σ _
    · exact vacant.exists_runs hs

/-- 操作を順に一つずつ行った shard は、操作の境目の条件を満たす。 -/
theorem Intact.chain {ops : List ((K × GuardedOp K V A) × A)} (hs : Intact hash σ)
    (h : (guardSections home hash).Chain σ ops σ') : Intact hash σ' := by
  induction h with
  | nil => exact hs
  | @snoc ops σ₁ τ op a _ hsolo ih => exact ih.guarded (op.2.runs ih (solo_runs hsolo))

/-- 途中のどこからでも、放す所か降格の所まで進められる。 -/
theorem completes (T : Type*) {d : Nat → ShardData K V} (hd : ∀ i, Intact hash (d i)) :
    Locked.Completes T (guardSections (A := A) home hash) d := by
  intro w hw n t op l hn
  cases l with
  | shared c => exact ⟨_, inner_shared c _, Or.inl ⟨_, rfl⟩⟩
  | exclusive c =>
    have hlater : ∃ p, c.Runs (w.data (home op.1)) p := by
      have hcons := (guardSections_interleavable home hash).consistent hw (home op.1)
      have hmem := Sections.mem_on (M := guardSections home hash).mpr
        ⟨List.mem_of_getElem? hn, rfl⟩
      change _ ∈ w.on _ (home op.1) at hmem
      generalize w.on (guardSections home hash) (home op.1) = rs at hcons hmem
      generalize w.data (home op.1) = σ at hcons
      cases hcons with
      | opened free =>
        obtain ⟨r, hr⟩ := free _ hmem
        cases hr
      | @closed rs t' op' l u _ hl settled chain alone =>
        rcases List.mem_append.mp hmem with hmem | hmem
        · obtain ⟨a, ha⟩ := settled _ hmem
          cases ha
        · -- 動いている排他の区間は最後のもので、境目の条件を満たす shard から始まっている
          cases List.mem_singleton.mp hmem
          obtain ⟨p, hp⟩ := op.2.exists_runs ((hd _).chain chain) (k := op.1)
          exact ⟨p, star_preserves (P := fun q : Section K V A × ShardData K V => q.1.Runs q.2 p)
            (fun _ _ hq hstep => hq.step hstep) alone hp⟩
    obtain ⟨p, hp⟩ := hlater
    obtain ⟨c', σ', hsteps, ⟨a, rfl⟩ | ⟨r, rfl⟩⟩ := hp.inner c
    · exact ⟨_, hsteps, Or.inl ⟨a, rfl⟩⟩
    · refine ⟨_, hsteps, Or.inr ⟨?_, .shared r, ⟨r, rfl⟩, .downgrade⟩⟩
      rintro ⟨r', hr⟩
      cases hr

end Forward

/-! ## まとめ -/

variable {w : Word} {cap requested : Nat} {hasher : K → UInt64} {c : NeoCache K V}

/--
guard を持ったまま次の lock を取りに行く thread が居なければ、始まった操作はすべて終えられる。

何個の thread がどの順に動いた後でも、新しい操作を始めず、途中の呼び出しと計算を続けるだけで、
始まった操作がすべて終わり、どの shard の lock も初めの状態に戻る。始まった操作は失われず、
そのときの cache と返り値は、操作を lock を取った順に一つずつ行ったものと同じである。
-/
theorem operations_finish (hsize : cap < w.size) (hreq : NeoCache.Accepted w requested)
    (hr : CacheReachable w cap hasher requested c) {s : NeoCache.Concurrent K V T A w}
    (h : (c.lockedLts T A w).Reachable s) (hone : Locked.OneGuard RawRwLock.Pc.phase s) :
    ∃ (s' : NeoCache.Concurrent K V T A w) (hist : List (T × (K × GuardedOp K V A) × A)),
      ReflTransGen (Locked.Proceeds (guardSections (c.home w) c.hasher) (RawRwLock.program w)
        (RawRwLock.doors w)) s s' ∧
      s'.world.records = (hist.map fun x => ⟨x.1, x.2.1, .finished x.2.2⟩) ∧
      s.started <+: (hist.map fun x => (x.1, x.2.1)) ∧
      (∀ i, s'.locks i = (RawRwLock.program w).init) ∧
      NeoCache.runGuarded w (hist.map fun x => x.2.1) c
        = .ok (hist.map fun x => x.2.2, c.withShards s'.world.data) := by
  have hready := hr.ready hsize hreq
  obtain ⟨s', hrun, hkept, hdone, hlocks⟩ := Locked.drains (RawRwLock.lawful w)
    (RawRwLock.phased w) (RawRwLock.excludes T w) (RawRwLock.drainable T w)
    (completes T hready.intact) h hone
  obtain ⟨hist, hhist⟩ := Sections.Settled.history hdone
  refine ⟨s', hist, hrun, hhist, ?_, hlocks, ?_⟩
  · have hstarted : s'.started = hist.map fun x => (x.1, x.2.1) := by
      rw [Locked.State.started, hhist, List.map_map]
      rfl
    rw [← hstarted]
    exact hkept
  · exact (NeoCache.Finishes.of_locked (Locked.reachable_proceeds h hrun) hhist).run hready

/-- 読み手が取りに行く途中で、書き手が値を増やし始めている。 -/
theorem operations_finish_crowded :
    ∃ s : NeoCache.Concurrent Nat Nat Bool (Option Nat) RawRwLock.usize64,
      ((oneEntry.lockedLts Bool (Option Nat) RawRwLock.usize64).Reachable s ∧
        Locked.OneGuard RawRwLock.Pc.phase s ∧
        s.world.records = [⟨true, (0, incrThenRead), .running (incrThenRead.code 0 0)⟩]) ∧
      ∃ (s' : NeoCache.Concurrent Nat Nat Bool (Option Nat) RawRwLock.usize64)
        (hist : List (Bool × (Nat × GuardedOp Nat Nat (Option Nat)) × Option Nat)),
        ReflTransGen (Locked.Proceeds (guardSections (oneEntry.home RawRwLock.usize64)
          oneEntry.hasher) (RawRwLock.program RawRwLock.usize64)
          (RawRwLock.doors RawRwLock.usize64)) s s' ∧
        s'.world.records = (hist.map fun x => ⟨x.1, x.2.1, .finished x.2.2⟩) ∧
        s.started <+: (hist.map fun x => (x.1, x.2.1)) ∧
        (∀ i, s'.locks i = (RawRwLock.program RawRwLock.usize64).init) ∧
        NeoCache.runGuarded RawRwLock.usize64 (hist.map fun x => x.2.1) oneEntry
          = .ok (hist.map fun x => x.2.2, oneEntry.withShards s'.world.data) := by
  let M : Sections Nat (ShardData Nat Nat) (Nat × GuardedOp Nat Nat (Option Nat))
    (Section Nat Nat (Option Nat)) (Option Nat) :=
    guardSections (oneEntry.home RawRwLock.usize64) oneEntry.hasher
  let N := RawRwLock.program RawRwLock.usize64
  let s₀ : NeoCache.Concurrent Nat Nat Bool (Option Nat) RawRwLock.usize64 :=
    ⟨fun _ => N.init, ⟨oneEntry.shardData, []⟩, fun _ => none⟩
  let s₁ := s₀.enter false 0 (.tryLockSharedFast .first) (.acquire (0, readOnce))
  -- 読み手が入口に入る
  have hread : Locked.Step M N (RawRwLock.doors _) s₀ false s₁ := by
    have hshared : M.shared (M.start (0, readOnce)) := ⟨_, rfl⟩
    have hdoor : (RawRwLock.doors RawRwLock.usize64).lockShared (.tryLockSharedFast .first) :=
      Or.inl rfl
    exact .lock (fun _ => rfl) (Or.inl ⟨hshared, hdoor⟩)
  have hidle₁ : s₁.Idle N true := by
    intro i
    rcases eq_or_ne i 0 with rfl | hi
    · rw [Locked.State.enter_locks_self]
      rfl
    · rw [Locked.State.enter_locks_of_ne hi]
      rfl
  -- 書き手が先に取る
  have hwrite : Locked.Step M N (RawRwLock.doors _) s₁ true
      (s₁.enter true 0 (.lockExclusive false) (.acquire (0, incrThenRead))) := by
    have hexclusive : ¬ M.shared (M.start (0, incrThenRead)) := by
      rintro ⟨r, hr⟩
      cases hr
    have hdoor : (RawRwLock.doors RawRwLock.usize64).lockExclusive (.lockExclusive false) :=
      Or.inl rfl
    exact .lock hidle₁ (Or.inr ⟨hexclusive, hdoor⟩)
  obtain ⟨s₂, ⟨_, hgo⟩, hs₂, -, hworld₂⟩ := locked_call (oneEntry.home RawRwLock.usize64)
    oneEntry.hasher (s := s₁) (t := true) (i := 0) (p := .lockExclusive false)
    (.acquire (0, incrThenRead)) rfl (by decide)
  have h₂ : (oneEntry.lockedLts Bool (Option Nat) RawRwLock.usize64).Reachable s₂ :=
    .step (.step (.step (.init rfl) hread) hwrite) (.proceed hgo)
  have hidle₂ := hs₂.idle hidle₁
  change s₂.world = ⟨oneEntry.shardData,
    [⟨true, (0, incrThenRead), .running (incrThenRead.code 0 0)⟩]⟩ at hworld₂
  have hrecords := congrArg Sections.World.records hworld₂
  have hone : Locked.OneGuard RawRwLock.Pc.phase s₂ := by
    intro x hx hacq
    rw [hrecords] at hx
    rw [List.mem_singleton.mp hx, Locked.phase_of_idle (N := N) rfl hidle₂] at hacq
    exact (Locked.Phase.not_acquires_idle hacq).elim
  exact ⟨s₂, ⟨h₂, hone, hrecords⟩,
    operations_finish (by decide) (by decide) oneEntry_reachable h₂ hone⟩

end Neocache
