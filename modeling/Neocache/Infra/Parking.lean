import Mathlib.Data.Multiset.AddSub
import Neocache.Infra.Lts

/-!
# 一語を共有する thread たちと待ち行列

一つの語を atomic に読み書きする thread たちの系。読み手と書き手の待ち行列を一本ずつ持ち、
眠っている thread は、他の thread が起こすまで動かない。

thread が一歩ですることを `Program` で与えると、系の遷移 `Program.lts` が決まる。
誰が何を持っているかは、一歩ごとの `Effect` から数える。

`Queued` は待ち行列と眠っている thread の一致で、`Lawful` な program なら到達可能な状態で
常に成り立つ。`Sim` は thread ごとの模倣であり、系どうしの模倣に持ち上がる。
-/

namespace Infra.Parking

/-- 一歩が共有の状態に及ぼすこと。 -/
inductive Effect
  | quiet
  /-- `try_` の操作が取れずに終わった。 -/
  | refuse
  /-- 表明に反して止まった。 -/
  | panic
  | takeShared
  | takeExclusive
  | dropShared
  | dropExclusive
  | downgrade
  | parkWriter
  | parkReader
  | unparkOne
  | unparkAll
  deriving DecidableEq, Repr

/-- 持ち主にも待ち行列にも触れない。 -/
def Effect.Silent : Effect → Prop
  | .quiet | .refuse | .panic => True
  | _ => False

/-- 一歩の結果。 -/
structure StepResult (P W : Type*) where
  next : P
  word : W
  effect : Effect

/-- 操作を始めるのに持っていなければならないもの。 -/
inductive Need
  | nothing
  | shared
  | exclusive
  deriving DecidableEq, Repr

/-- 系の状態。`T` は thread、`P` は thread の居場所、`W` は語である。 -/
structure Threads (T P W : Type*) where
  word : W
  pc : T → P
  shared : Multiset T
  exclusive : Multiset T
  writersQueue : List T
  readersQueue : List T

/-- thread 一つの動き。起こされた thread は `writerWoken`・`readerWoken` から動き出す。 -/
structure Program (P W : Type*) where
  start : W
  idle : P
  writerParked : P
  readerParked : P
  writerWoken : P
  readerWoken : P
  enter : P → Need → P → Prop
  access : P → W → StepResult P W → Prop

variable {T P W Q V : Type*}

def Need.Met (s : Threads T P W) (t : T) : Need → Prop
  | .nothing => True
  | .shared => t ∈ s.shared
  | .exclusive => t ∈ s.exclusive

/-- 待ち行列に居る。 -/
def Threads.Parked (s : Threads T P W) (t : T) : Prop := t ∈ s.writersQueue ∨ t ∈ s.readersQueue

/-- 居場所が性質を満たす thread が居る。 -/
def Threads.Has (s : Threads T P W) (A : P → Prop) : Prop := ∃ t, A (s.pc t)

section Step

variable [DecidableEq T]

/-! ## 一歩 -/

def Effect.sharedAfter (t : T) (m : Multiset T) : Effect → Multiset T
  | .takeShared | .downgrade => t ::ₘ m
  | .dropShared => m.erase t
  | _ => m

def Effect.exclusiveAfter (t : T) (m : Multiset T) : Effect → Multiset T
  | .takeExclusive => t ::ₘ m
  | .dropExclusive | .downgrade => m.erase t
  | _ => m

def Effect.writersQueueAfter (t : T) (q : List T) : Effect → List T
  | .parkWriter => q ++ [t]
  | .unparkOne => q.tail
  | _ => q

def Effect.readersQueueAfter (t : T) (q : List T) : Effect → List T
  | .parkReader => q ++ [t]
  | .unparkAll => []
  | _ => q

/-- 起こされた thread の行き先。起こされていなければ `none`。 -/
def Effect.wakes (M : Program P W) (s : Threads T P W) (u : T) : Effect → Option P
  | .unparkOne => if s.writersQueue.head? = some u then some M.writerWoken else none
  | .unparkAll => if u ∈ s.readersQueue then some M.readerWoken else none
  | _ => none

/-- 語への一回の access の後の状態。 -/
def Threads.after (M : Program P W) (s : Threads T P W) (t : T) (o : StepResult P W) :
    Threads T P W where
  word := o.word
  pc u := (o.effect.wakes M s u).getD (Function.update s.pc t o.next u)
  shared := o.effect.sharedAfter t s.shared
  exclusive := o.effect.exclusiveAfter t s.exclusive
  writersQueue := o.effect.writersQueueAfter t s.writersQueue
  readersQueue := o.effect.readersQueueAfter t s.readersQueue

/-- 操作を始めて、最初の access の手前に居る状態。 -/
def Threads.goto (s : Threads T P W) (t : T) (p : P) : Threads T P W :=
  { s with pc := Function.update s.pc t p }

inductive Program.Step (M : Program P W) (s : Threads T P W) (t : T) : Threads T P W → Prop
  | enter {n : Need} {p : P} (h : M.enter (s.pc t) n p) (hn : n.Met s t) : Step M s t (s.goto t p)
  | access {o : StepResult P W} (h : M.access (s.pc t) s.word o) : Step M s t (s.after M t o)

def Program.init (M : Program P W) : Threads T P W where
  word := M.start
  pc := fun _ => M.idle
  shared := 0
  exclusive := 0
  writersQueue := []
  readersQueue := []

/-- thread たちの系。label は動く thread である。 -/
def Program.lts (M : Program P W) : Lts (Threads T P W) T where
  init s := s = M.init
  step s t s' := M.Step s t s'

/-! ## 持ち主 -/

variable {M : Program P W} {s : Threads T P W} {t u : T} {o : StepResult P W}

theorem Effect.Silent.sharedAfter {e : Effect} (h : e.Silent) (m : Multiset T) :
    e.sharedAfter t m = m := by
  cases e <;> first | rfl | exact h.elim

theorem Effect.Silent.exclusiveAfter {e : Effect} (h : e.Silent) (m : Multiset T) :
    e.exclusiveAfter t m = m := by
  cases e <;> first | rfl | exact h.elim

/-- 他の thread の持ち物は変わらない。 -/
theorem Effect.mem_sharedAfter {e : Effect} {m : Multiset T} (hne : u ≠ t) :
    u ∈ e.sharedAfter t m ↔ u ∈ m := by
  cases e <;> simp [Effect.sharedAfter, hne, Multiset.mem_erase_of_ne hne]

theorem Effect.mem_exclusiveAfter {e : Effect} {m : Multiset T} (hne : u ≠ t) :
    u ∈ e.exclusiveAfter t m ↔ u ∈ m := by
  cases e <;> simp [Effect.exclusiveAfter, hne, Multiset.mem_erase_of_ne hne]

end Step

/-! ## 待ち行列と眠っている thread -/

/-- 眠っている thread は動かず、眠るのは待ち行列に並ぶときに限る。 -/
structure Program.Lawful (M : Program P W) : Prop where
  enter_ne : ∀ {p n p'}, M.enter p n p' →
    p ≠ M.writerParked ∧ p ≠ M.readerParked ∧ p' ≠ M.writerParked ∧ p' ≠ M.readerParked
  access_ne : ∀ {p v o}, M.access p v o → p ≠ M.writerParked ∧ p ≠ M.readerParked
  writer : ∀ {p v o}, M.access p v o → (o.effect = .parkWriter ↔ o.next = M.writerParked)
  reader : ∀ {p v o}, M.access p v o → (o.effect = .parkReader ↔ o.next = M.readerParked)
  parked_ne : M.writerParked ≠ M.readerParked
  idle_ne : M.idle ≠ M.writerParked ∧ M.idle ≠ M.readerParked
  writerWoken_ne : M.writerWoken ≠ M.writerParked ∧ M.writerWoken ≠ M.readerParked
  readerWoken_ne : M.readerWoken ≠ M.writerParked ∧ M.readerWoken ≠ M.readerParked

/-- 待ち行列に居るのは、ちょうど眠っている thread である。 -/
structure Queued (M : Program P W) (s : Threads T P W) : Prop where
  writer : ∀ t, t ∈ s.writersQueue ↔ s.pc t = M.writerParked
  reader : ∀ t, t ∈ s.readersQueue ↔ s.pc t = M.readerParked
  nodup : s.writersQueue.Nodup

theorem Queued.init {M : Program P W} (hM : M.Lawful) : Queued M (M.init : Threads T P W) where
  writer _ := ⟨fun h => (List.not_mem_nil h).elim, fun h => (hM.idle_ne.1 h).elim⟩
  reader _ := ⟨fun h => (List.not_mem_nil h).elim, fun h => (hM.idle_ne.2 h).elim⟩
  nodup := List.nodup_nil

section Queued

variable [DecidableEq T] {M : Program P W} {s : Threads T P W} {t u : T} {o : StepResult P W}

/-- 動いた thread は、自分の一歩の行き先に居る。 -/
theorem Queued.pc_self (hq : Queued M s) (hw : s.pc t ≠ M.writerParked)
    (hr : s.pc t ≠ M.readerParked) : (s.after M t o).pc t = o.next := by
  have h1 : ¬ s.writersQueue.head? = some t := fun h =>
    hw ((hq.writer t).mp (List.mem_of_mem_head? h))
  have h2 : t ∉ s.readersQueue := fun h => hr ((hq.reader t).mp h)
  show (o.effect.wakes M s t).getD (Function.update s.pc t o.next t) = o.next
  rw [Function.update_self]
  cases he : o.effect <;> simp [Effect.wakes, h1, h2]

/-- 他の thread の居場所は、起こされた場合を除いて変わらない。 -/
theorem Queued.pc_other (hq : Queued M s) (hne : u ≠ t) :
    (s.after M t o).pc u = s.pc u ∨
      (s.pc u = M.writerParked ∧ (s.after M t o).pc u = M.writerWoken) ∨
      (s.pc u = M.readerParked ∧ (s.after M t o).pc u = M.readerWoken) := by
  show (o.effect.wakes M s u).getD (Function.update s.pc t o.next u) = _ ∨ _
  rw [Function.update_of_ne hne]
  cases he : o.effect with
  | unparkOne =>
    by_cases h : s.writersQueue.head? = some u
    · refine Or.inr (Or.inl ⟨(hq.writer u).mp (List.mem_of_mem_head? h), ?_⟩)
      show (o.effect.wakes M s u).getD _ = _
      simp [he, Effect.wakes, h]
    · simp [Effect.wakes, h]
  | unparkAll =>
    by_cases h : u ∈ s.readersQueue
    · refine Or.inr (Or.inr ⟨(hq.reader u).mp h, ?_⟩)
      show (o.effect.wakes M s u).getD _ = _
      simp [he, Effect.wakes, h]
    · simp [Effect.wakes, h]
  | _ => exact Or.inl rfl

/-- 性質を満たす thread は、起こされても自分で動いても性質を失わないなら、一歩の後も居る。 -/
theorem Queued.has_after (hM : M.Lawful) (hq : Queued M s) (h : M.access (s.pc t) s.word o)
    {A : P → Prop} (hw : A M.writerParked → A M.writerWoken)
    (hr : A M.readerParked → A M.readerWoken) (hself : A (s.pc t) → A o.next)
    (he : s.Has A) : (s.after M t o).Has A := by
  obtain ⟨u, hu⟩ := he
  refine ⟨u, ?_⟩
  rcases eq_or_ne u t with rfl | hne
  · obtain ⟨h1, h2⟩ := hM.access_ne h
    rw [hq.pc_self h1 h2]
    exact hself hu
  · rcases hq.pc_other (o := o) hne with h1 | ⟨h1, h2⟩ | ⟨h1, h2⟩
    · rwa [h1]
    · rw [h2]
      exact hw (h1 ▸ hu)
    · rw [h2]
      exact hr (h1 ▸ hu)

/-- 起こされた thread が満たさない性質は、一歩の前から居た thread か、動いた thread が満たす。 -/
theorem Queued.has_of_after (hM : M.Lawful) (hq : Queued M s)
    (h : M.access (s.pc t) s.word o) {A : P → Prop} (hw : ¬ A M.writerWoken)
    (hr : ¬ A M.readerWoken) (he : (s.after M t o).Has A) : A o.next ∨ s.Has A := by
  obtain ⟨u, hu⟩ := he
  rcases eq_or_ne u t with rfl | hne
  · obtain ⟨h1, h2⟩ := hM.access_ne h
    rw [hq.pc_self h1 h2] at hu
    exact Or.inl hu
  · rcases hq.pc_other (o := o) hne with h1 | ⟨-, h2⟩ | ⟨-, h2⟩
    · exact Or.inr ⟨u, h1 ▸ hu⟩
    · exact (hw (h2 ▸ hu)).elim
    · exact (hr (h2 ▸ hu)).elim

theorem Threads.has_goto {p : P} {A : P → Prop} (hself : A (s.pc t) → A p)
    (he : s.Has A) : (s.goto t p).Has A := by
  obtain ⟨u, hu⟩ := he
  refine ⟨u, ?_⟩
  show A (Function.update s.pc t p u)
  rcases eq_or_ne u t with rfl | hne
  · rw [Function.update_self]
    exact hself hu
  · rwa [Function.update_of_ne hne]

theorem Threads.has_of_goto {p : P} {A : P → Prop} (he : (s.goto t p).Has A) :
    A p ∨ s.Has A := by
  obtain ⟨u, hu⟩ := he
  have hu' : A (Function.update s.pc t p u) := hu
  rcases eq_or_ne u t with rfl | hne
  · rw [Function.update_self] at hu'
    exact Or.inl hu'
  · rw [Function.update_of_ne hne] at hu'
    exact Or.inr ⟨u, hu'⟩

theorem Queued.goto (hq : Queued M s) {p : P} (hw : s.pc t ≠ M.writerParked)
    (hr : s.pc t ≠ M.readerParked) (hw' : p ≠ M.writerParked) (hr' : p ≠ M.readerParked) :
    Queued M (s.goto t p) := by
  refine ⟨fun u => ?_, fun u => ?_, hq.nodup⟩
  · show u ∈ s.writersQueue ↔ Function.update s.pc t p u = _
    rcases eq_or_ne u t with rfl | hne
    · rw [Function.update_self, hq.writer]
      exact ⟨fun h => (hw h).elim, fun h => (hw' h).elim⟩
    · rw [Function.update_of_ne hne, hq.writer]
  · show u ∈ s.readersQueue ↔ Function.update s.pc t p u = _
    rcases eq_or_ne u t with rfl | hne
    · rw [Function.update_self, hq.reader]
      exact ⟨fun h => (hr h).elim, fun h => (hr' h).elim⟩
    · rw [Function.update_of_ne hne, hq.reader]

theorem Queued.writer_after (hM : M.Lawful) (hq : Queued M s) (h : M.access (s.pc t) s.word o) :
    u ∈ (s.after M t o).writersQueue ↔ (s.after M t o).pc u = M.writerParked := by
  obtain ⟨hw, hr⟩ := hM.access_ne h
  rcases eq_or_ne u t with rfl | hne
  · have hmem : u ∉ s.writersQueue := fun hm => hw ((hq.writer u).mp hm)
    have htail : u ∉ s.writersQueue.tail := fun hm => hmem (List.mem_of_mem_tail hm)
    show u ∈ o.effect.writersQueueAfter u s.writersQueue ↔ _
    rw [hq.pc_self hw hr, ← hM.writer h]
    cases he : o.effect <;> simp [Effect.writersQueueAfter, hmem, htail]
  · show u ∈ o.effect.writersQueueAfter t s.writersQueue ↔
      (o.effect.wakes M s u).getD (Function.update s.pc t o.next u) = _
    rw [Function.update_of_ne hne]
    have hu := hq.writer u
    cases he : o.effect with
    | unparkOne =>
      -- 起こされた先頭は列の残りにも居ないので、重複のなさが要る
      have hnd := hq.nodup
      cases hl : s.writersQueue with
      | nil => simpa [Effect.writersQueueAfter, Effect.wakes, hl] using hu
      | cons x q =>
        rw [hl] at hu hnd
        by_cases hx : x = u
        · subst hx
          simpa [Effect.writersQueueAfter, Effect.wakes, hl, hM.writerWoken_ne.1]
            using (List.nodup_cons.mp hnd).1
        · simpa [Effect.writersQueueAfter, Effect.wakes, hl, hx, Ne.symm hx] using hu
    | unparkAll =>
      -- 読み手の列に居る thread は書き手の列には居ない
      by_cases hm : u ∈ s.readersQueue
      · have hnw : ¬ s.pc u = M.writerParked := fun hp =>
          hM.parked_ne (hp.symm.trans ((hq.reader u).mp hm))
        simp [Effect.writersQueueAfter, Effect.wakes, hm, hM.readerWoken_ne.1, hu, hnw]
      · simpa [Effect.writersQueueAfter, Effect.wakes, hm] using hu
    | parkWriter => simpa [Effect.writersQueueAfter, Effect.wakes, hne] using hu
    | _ => simpa [Effect.writersQueueAfter, Effect.wakes] using hu

theorem Queued.reader_after (hM : M.Lawful) (hq : Queued M s) (h : M.access (s.pc t) s.word o) :
    u ∈ (s.after M t o).readersQueue ↔ (s.after M t o).pc u = M.readerParked := by
  obtain ⟨hw, hr⟩ := hM.access_ne h
  rcases eq_or_ne u t with rfl | hne
  · have hmem : u ∉ s.readersQueue := fun hm => hr ((hq.reader u).mp hm)
    show u ∈ o.effect.readersQueueAfter u s.readersQueue ↔ _
    rw [hq.pc_self hw hr, ← hM.reader h]
    cases he : o.effect <;> simp [Effect.readersQueueAfter, hmem]
  · show u ∈ o.effect.readersQueueAfter t s.readersQueue ↔
      (o.effect.wakes M s u).getD (Function.update s.pc t o.next u) = _
    rw [Function.update_of_ne hne]
    have hu := hq.reader u
    cases he : o.effect with
    | unparkOne =>
      by_cases hx : s.writersQueue.head? = some u
      · have hnr : ¬ s.pc u = M.readerParked := fun hp =>
          hM.parked_ne (((hq.writer u).mp (List.mem_of_mem_head? hx)).symm.trans hp)
        simp [Effect.readersQueueAfter, Effect.wakes, hx, hM.writerWoken_ne.2, hu, hnr]
      · simpa [Effect.readersQueueAfter, Effect.wakes, hx] using hu
    | unparkAll =>
      by_cases hm : u ∈ s.readersQueue
      · simp [Effect.readersQueueAfter, Effect.wakes, hm, hM.readerWoken_ne.2]
      · simpa [Effect.readersQueueAfter, Effect.wakes, hm] using hu
    | parkReader => simpa [Effect.readersQueueAfter, Effect.wakes, hne] using hu
    | _ => simpa [Effect.readersQueueAfter, Effect.wakes] using hu

theorem Queued.nodup_after (hM : M.Lawful) (hq : Queued M s) (h : M.access (s.pc t) s.word o) :
    (s.after M t o).writersQueue.Nodup := by
  have hmem : t ∉ s.writersQueue := fun hm => (hM.access_ne h).1 ((hq.writer t).mp hm)
  show (o.effect.writersQueueAfter t s.writersQueue).Nodup
  cases he : o.effect with
  | unparkOne => exact hq.nodup.tail
  | parkWriter => exact List.nodup_append_comm.mp (List.nodup_cons.mpr ⟨hmem, hq.nodup⟩)
  | _ => exact hq.nodup

/-- 並んだ thread は眠り、起こされた thread は列を離れる。 -/
theorem Queued.step (hM : M.Lawful) (hq : Queued M s) {s' : Threads T P W} (h : M.Step s t s') :
    Queued M s' := by
  cases h with
  | enter h hn =>
    obtain ⟨hw, hr, hw', hr'⟩ := hM.enter_ne h
    exact hq.goto hw hr hw' hr'
  | access h =>
    exact ⟨fun _ => hq.writer_after hM h, fun _ => hq.reader_after hM h, hq.nodup_after hM h⟩

theorem Program.Lawful.queued (hM : M.Lawful) (h : M.lts.Reachable s) : Queued M s := by
  refine h.invariant (fun s hs => ?_) fun s t s' _ hq hstep => hq.step hM hstep
  subst hs
  exact Queued.init hM

end Queued

/-! ## 模倣 -/

variable {M : Program P W} {N : Program Q V} {f : P → Q} {g : W → V}

def StepResult.map (f : P → Q) (g : W → V) (o : StepResult P W) : StepResult Q V where
  next := f o.next
  word := g o.word
  effect := o.effect

def Threads.map (f : P → Q) (g : W → V) (s : Threads T P W) : Threads T Q V where
  word := g s.word
  pc t := f (s.pc t)
  shared := s.shared
  exclusive := s.exclusive
  writersQueue := s.writersQueue
  readersQueue := s.readersQueue

/-- 居場所を `f`、語を `g` で写した一歩が、相手の program の一歩になっている。 -/
structure Sim (M : Program P W) (N : Program Q V) (f : P → Q) (g : W → V) : Prop where
  start : g M.start = N.start
  idle : f M.idle = N.idle
  writerWoken : f M.writerWoken = N.writerWoken
  readerWoken : f M.readerWoken = N.readerWoken
  enter : ∀ {p n p'}, M.enter p n p' → N.enter (f p) n (f p')
  access : ∀ {p v o}, M.access p v o → N.access (f p) (g v) (o.map f g)

theorem Sim.init (h : Sim M N f g) : (M.init : Threads T P W).map f g = N.init := by
  unfold Threads.map Program.init
  simp [h.start, h.idle]

section Sim

variable [DecidableEq T] {s s' : Threads T P W} {t : T}

theorem Sim.after (h : Sim M N f g) (o : StepResult P W) :
    (s.after M t o).map f g = (s.map f g).after N t (o.map f g) := by
  have hpc : ∀ u, f ((o.effect.wakes M s u).getD (Function.update s.pc t o.next u))
      = (o.effect.wakes N (s.map f g) u).getD
          (Function.update (fun u => f (s.pc u)) t (f o.next) u) := by
    intro u
    rw [← Function.comp_def f s.pc, ← Function.comp_update, Function.comp_apply]
    cases o.effect with
    | unparkOne =>
      by_cases hu : s.writersQueue.head? = some u <;>
        simp [Effect.wakes, Threads.map, hu, h.writerWoken]
    | unparkAll =>
      by_cases hu : u ∈ s.readersQueue <;> simp [Effect.wakes, Threads.map, hu, h.readerWoken]
    | _ => rfl
  unfold Threads.after Threads.map
  simp only [Threads.mk.injEq]
  exact ⟨rfl, funext hpc, rfl, rfl, rfl, rfl⟩

theorem Sim.step (h : Sim M N f g) (hs : M.Step s t s') : N.Step (s.map f g) t (s'.map f g) := by
  cases hs with
  | @enter n p he hn =>
    have hgoto : (s.goto t p).map f g = (s.map f g).goto t (f p) := by
      unfold Threads.goto Threads.map
      simp only [Threads.mk.injEq, true_and, and_true]
      rw [← Function.comp_def f s.pc, ← Function.comp_update]
      rfl
    rw [hgoto]
    refine .enter (h.enter he) ?_
    cases n <;> exact hn
  | access ha =>
    rw [h.after]
    exact .access (h.access ha)

/-- 到達可能な状態を写すと、相手の系で到達可能である。 -/
theorem Sim.reachable (h : Sim M N f g) (hr : M.lts.Reachable s) :
    N.lts.Reachable (s.map f g) := by
  induction hr with
  | init hi =>
    rw [show _ = M.init from hi, h.init]
    exact .init rfl
  | step _ hs ih => exact .step ih (h.step hs)

end Sim

end Infra.Parking
