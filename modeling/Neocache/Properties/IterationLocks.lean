import Neocache.Properties.ExactlyOnce

/-!
# 反復が持つ lock

`next` は、次の shard の lock を取った後で `current` を置き換える。前の guard はその代入で落ちるので、
間は二つの lock を持つ。全ての shard を過ぎても `current` は残り、`None` を返した後も最後の shard の
lock を持ち続ける。

どちらも最初の shard を離れるときに初めて起こる。最初の shard に居る間（`AtFirst`）は持つ lock は
高々一つで、離れるのは、その表を返し尽くした後にもう一度 `next` を呼んだときである。
-/

namespace Neocache

open Infra IterTrace

variable {K V : Type*} [DecidableEq K] {w : Word} {m : LockMode} {c : NeoCache K V}

/-! ## 反復の側の不変条件 -/

namespace Iteration

variable {s : Iteration K V} {tr : IterTrace K V}

/-- 一度 store した `current` は、空に戻らない。 -/
theorem current_of_path (h : (lts w m c).Path (start c) tr s) (hc : s.iter.current = none) :
    s.iter.shardI = 0 := by
  refine h.invariant (P := fun _ s => s.iter.current = none → s.iter.shardI = 0) (fun _ => rfl)
    ?_ hc
  rintro tr s a s' - ih hstep hc
  cases hstep with
  | next hn =>
    cases next_of_step hn with
    | store => cases hc
    | yield => cases hc
    | lock => exact ih hc
  | write => exact ih hc
  | drop => exact ih hc
  | other => exact ih hc

omit [DecidableEq K] in
theorem Tracked.current_none (ht : Tracked tr s) (h : s.iter.shardI = 0) :
    s.iter.current = none := by
  cases hc : s.iter.current with
  | none => rfl
  | some g =>
    have hshard := ht.current g hc
    omega

omit [DecidableEq K] in
/-- lock を一つも取っていなければ、一つも持っていない。 -/
theorem Tracked.held_nil (ht : Tracked tr s) (h : s.iter.unlocked = 0) : s.iter.held = [] := by
  unfold Iter.unlocked at h
  unfold Iter.held
  rw [ht.current_none (by omega)]
  cases hg : s.iter.guard with
  | none => rfl
  | some i =>
    rw [hg] at h
    simp at h

omit [DecidableEq K] in
/-- 取った lock が一つなら、持っている lock も高々一つである。 -/
theorem Tracked.held_le (ht : Tracked tr s) (h : s.iter.unlocked ≤ 1) : s.iter.held.length ≤ 1 := by
  unfold Iter.unlocked at h
  unfold Iter.held
  cases hg : s.iter.guard with
  | none => cases s.iter.current <;> simp
  | some i =>
    rw [hg] at h
    have hzero : s.iter.shardI = 0 := by simpa using h
    rw [ht.current_none hzero]
    simp

omit [DecidableEq K] in
/-- 最初の shard だけを訪ねた記録では、返した対と残りを合わせると、その表になる。 -/
theorem Tracked.first (ht : Tracked tr s) (h : s.iter.unlocked = 1) :
    ∃ ps, visits tr = [(0, ps)] ∧ yields tr ++ s.remaining ++ s.pending = ps := by
  have horder := ht.order
  rw [h, List.range_one] at horder
  obtain ⟨⟨i, ps⟩, hv, hi⟩ := List.map_eq_singleton_iff.mp horder
  have hflow := ht.flow
  rw [hv, List.flatMap_cons, List.flatMap_nil, List.append_nil] at hflow
  cases hi
  exact ⟨ps, hv, hflow⟩

end Iteration

/-! ## 呼び出しの区切り -/

namespace IterCalls

variable {s s' : IterCalls K V} {tr : List (IterCalls K V × CallAct K V)} {a : CallAct K V}

omit [DecidableEq K] in
theorem ofCalls_act (tr : List (IterCalls K V × CallAct K V)) (s : IterCalls K V)
    (b : IterAct K V) : ofCalls (tr ++ [(s, .act b)]) = ofCalls tr ++ [(s.run, b)] := by
  unfold ofCalls
  rw [List.filterMap_append]
  rfl

omit [DecidableEq K] in
theorem ofCalls_other (tr : List (IterCalls K V × CallAct K V)) (s : IterCalls K V)
    (ha : ∀ b, a ≠ .act b) : ofCalls (tr ++ [(s, a)]) = ofCalls tr := by
  unfold ofCalls
  rw [List.filterMap_append]
  cases a with
  | act b => exact (ha b rfl).elim
  | call => exact List.append_nil _
  | none => exact List.append_nil _

/-- 呼び出しの区切りを除けば、反復の記録である。 -/
theorem run_path (h : (lts w m c).Path (start c) tr s) :
    (Iteration.lts w m c).Path (.start c) (ofCalls tr) s.run := by
  refine h.invariant (P := fun tr s => (Iteration.lts w m c).Path (.start c) (ofCalls tr) s.run)
    .nil ?_
  rintro tr s a s' - ih hstep
  cases hstep with
  | call =>
    rw [ofCalls_other tr s (by simp)]
    exact ih
  | act hact =>
    rw [ofCalls_act]
    exact .snoc ih hact
  | none =>
    rw [ofCalls_other tr s (by simp)]
    exact ih

theorem Step.calls_le (h : Step w m s a s') : s.calls ≤ s'.calls := by
  cases h with
  | call => exact Nat.le_succ _
  | act => exact Nat.le_refl _
  | none => exact Nat.le_refl _

/-! ## 最初の shard に居る間 -/

/--
最初の shard をまだ離れていない。

`None` を返していなければ、呼び出しの数は返した対の数に、途中の一つを足したものである。
shard が一つも無い cache だけは、lock を取らずに `None` を返す。
-/
structure AtFirst (tr : List (IterCalls K V × CallAct K V)) (s : IterCalls K V) : Prop where
  unlocked : s.run.iter.unlocked ≤ 1
  counted : s.ended = false → s.calls = (yields (ofCalls tr)).length + s.inside.toNat
  ended : s.ended = true → s.run.iter.unlocked = 0 ∧ s.run.cache.shards.length = 0

omit [DecidableEq K] in
/-- lock を一つ取っていれば、まだ `None` を返していない。 -/
theorem AtFirst.not_ended (h : AtFirst tr s) (hone : s.run.iter.unlocked = 1) : s.ended = false := by
  cases he : s.ended with
  | false => rfl
  | true =>
    have hzero := (h.ended he).1
    omega

/-- 最初の shard を離れる一歩。 -/
def Leaves (s : IterCalls K V) : CallAct K V → Prop
  | .act (.next (.lock _)) | .none => s.run.iter.unlocked = 1
  | _ => False

/--
離れるのは、呼び出しの途中で、表を返し尽くしているときである。

次の lock を取るか、何も動かさずに `None` を返すかの二通りがある。
-/
theorem Leaves.spec (hl : Leaves s a) (h : Step w m s a s') :
    (s.run.iter.unlocked = 1 ∧ s.inside = true ∧ s.run.iter.guard = none ∧ s.run.remaining = []) ∧
      s'.calls = s.calls ∧ s'.run.iter.current = s.run.iter.current ∧
      (s'.run.iter.guard = some s.run.iter.shardI ∨ s'.ended = true) := by
  cases h with
  | call => exact hl.elim
  | @act b run hact hin =>
    cases hact with
    | next hn =>
      cases Iteration.next_of_step hn with
      | store => exact hl.elim
      | yield => exact hl.elim
      | lock hg hr => exact ⟨⟨hl, hin _ rfl, hg, hr⟩, rfl, rfl, Or.inl rfl⟩
    | write => exact hl.elim
    | drop => exact hl.elim
    | other => exact hl.elim
  | none hin hf =>
    obtain ⟨hg, hr, -⟩ := hf.exhausted
    exact ⟨⟨hl, hin, hg, hr⟩, rfl, rfl, Or.inr rfl⟩

omit [DecidableEq K] in
theorem atFirst_start (c : NeoCache K V) : AtFirst [] (start c) where
  unlocked := Nat.zero_le 1
  counted _ := rfl
  ended h := by cases h

/-- loop の外の動きは、反復の位置も、返した対の数も変えない。 -/
theorem AtFirst.keep (h : AtFirst tr s) {b : IterAct K V} {run : Iteration K V}
    (hact : Iteration.Step w m s.run b run) (hb : ∀ e, b ≠ .next e) :
    AtFirst (tr ++ [(s, .act b)]) { s with run, inside := insideAfter s.inside b } := by
  have hiter : run.iter = s.run.iter := by
    cases hact with
    | next => exact (hb _ rfl).elim
    | _ => rfl
  have hinside : insideAfter s.inside b = s.inside := by
    cases b with
    | next e => exact (hb e rfl).elim
    | _ => rfl
  have hyields : yields (ofCalls (tr ++ [(s, .act b)])) = yields (ofCalls tr) := by
    rw [ofCalls_act]
    exact (Iteration.snoc_other _ _ hb).1
  refine ⟨?_, fun he => ?_, fun he => ?_⟩
  · rw [hiter]
    exact h.unlocked
  · rw [hyields, hinside]
    exact h.counted he
  · rw [hiter, hact.length_eq]
    exact h.ended he

omit [DecidableEq K] in
theorem AtFirst.next (h : AtFirst tr s) {e : IterEvent K V} {it : Iter}
    (hn : Iteration.Next s.run e it) (hin : s.inside = true)
    (hstay : ¬ Leaves s (.act (.next e))) :
    AtFirst (tr ++ [(s, .act (.next e))])
      { s with
        run := ⟨s.run.cache, it, Iteration.itemsAfter s.run.items e⟩
        inside := insideAfter s.inside (.next e) } := by
  have hyields : yields (ofCalls (tr ++ [(s, .act (.next e))]))
      = yields (ofCalls tr) ++ e.emitted := by
    rw [ofCalls_act, Iteration.yields_snoc]
  have hcalls : s.ended = false → s.calls = (yields (ofCalls tr)).length + 1 := by
    intro he
    rw [h.counted he, hin]
    rfl
  cases hn with
  | @store i hg =>
    have hsame : Iter.unlocked ⟨s.run.iter.shardI + 1, some ⟨i, 0⟩, none⟩
        = s.run.iter.unlocked := by
      unfold Iter.unlocked
      rw [hg]
      rfl
    refine ⟨hsame.le.trans h.unlocked, fun he => ?_, fun he => ?_⟩
    · rw [hyields]
      show s.calls = (_ ++ []).length + s.inside.toNat
      rw [List.append_nil, hin]
      exact hcalls he
    · exact ⟨hsame.trans (h.ended he).1, (h.ended he).2⟩
  | yield =>
    refine ⟨h.unlocked, fun he => ?_, h.ended⟩
    rw [hyields, List.length_append]
    exact hcalls he
  | lock hg hr hne =>
    have hunlocked : s.run.iter.unlocked = s.run.iter.shardI := by
      unfold Iter.unlocked
      rw [hg]
      rfl
    have hzero : s.run.iter.unlocked = 0 := by
      have hle := h.unlocked
      have hne1 : s.run.iter.unlocked ≠ 1 := hstay
      omega
    refine ⟨?_, fun he => ?_, fun he => ?_⟩
    · show s.run.iter.shardI + 1 ≤ 1
      omega
    · rw [hyields]
      show s.calls = (_ ++ []).length + s.inside.toNat
      rw [List.append_nil, hin]
      exact hcalls he
    · obtain ⟨-, hlen⟩ := h.ended he
      exact (hne (by omega)).elim

/-- 離れる一歩でなければ、最初の shard に留まる。 -/
theorem AtFirst.step (h : AtFirst tr s) (hstep : Step w m s a s') (hstay : ¬ Leaves s a) :
    AtFirst (tr ++ [(s, a)]) s' := by
  cases hstep with
  | call hin =>
    refine ⟨h.unlocked, fun he => ?_, h.ended⟩
    have hcalls := h.counted he
    rw [hin] at hcalls
    rw [ofCalls_other tr s (by simp)]
    show s.calls + 1 = _ + 1
    rw [hcalls]
    rfl
  | @act b run hact hin =>
    cases b with
    | next e =>
      cases hact with
      | next hn => exact h.next (Iteration.next_of_step hn) (hin _ rfl) hstay
    | write => exact h.keep hact (by simp)
    | drop => exact h.keep hact (by simp)
    | other => exact h.keep hact (by simp)
  | none hin hf =>
    obtain ⟨-, -, hend⟩ := hf.exhausted
    have hle := h.unlocked
    have hne : s.run.iter.unlocked ≠ 1 := hstay
    have hzero : s.run.iter.unlocked = 0 := by omega
    refine ⟨h.unlocked, fun he => ?_, fun _ => ⟨hzero, ?_⟩⟩
    · cases he
    · show s.run.cache.shards.length = 0
      rw [← hend]
      unfold Iter.unlocked at hzero
      omega

/-! ## 持っている lock -/

/--
反復の持つ lock が高々一つで、`None` を返した後は一つも持たない。

返した item も残っていなければ、thread はどの shard の lock も持たず、どの shard にも書ける。
-/
structure Light (s : IterCalls K V) : Prop where
  one : s.run.iter.held.length ≤ 1
  done : s.ended = true → s.run.iter.held = []
  free : s.ended = true → s.run.items = [] → ∀ i, ¬ s.run.Holds i

/-- どの時点でも。 -/
def OneLock (tr : List (IterCalls K V × CallAct K V)) (s : IterCalls K V) : Prop :=
  (∀ x ∈ tr, Light x.1) ∧ Light s

/-- `next` を呼んだ回数が、最初の shard の lock を取った時点でその表にあった対の数以下である。 -/
def Within (tr : List (IterCalls K V × CallAct K V)) (s : IterCalls K V) : Prop :=
  ∀ p ∈ (visits (ofCalls tr)).head?, s.calls ≤ p.2.length

omit [DecidableEq K] in
theorem not_holds {r : Iteration K V} (hheld : r.iter.held = []) (hitems : r.items = []) (i : Nat) :
    ¬ r.Holds i := by
  obtain ⟨hguard, hcurrent⟩ := List.append_eq_nil_iff.mp hheld
  rintro (hg | ⟨pos, hc⟩ | ⟨k, hk⟩)
  · rw [hg] at hguard
    cases hguard
  · rw [hc] at hcurrent
    cases hcurrent
  · rw [hitems] at hk
    cases hk

theorem AtFirst.light (h : AtFirst tr s) (hp : (lts w m c).Path (start c) tr s) : Light s := by
  have ht := Iteration.tracked_of_path (run_path hp)
  have hdone : s.ended = true → s.run.iter.held = [] := fun he => ht.held_nil (h.ended he).1
  exact ⟨ht.held_le h.unlocked, hdone, fun he hitems => not_holds (hdone he) hitems⟩

/-- 最初の shard を離れる一歩の後は、二つの lock を持つか、終わっても一つ持っている。 -/
theorem Light.not_leaves (h : Light s') (hp : (lts w m c).Path (start c) tr s)
    (hstep : Step w m s a s') : ¬ Leaves s a := by
  intro hl
  obtain ⟨⟨hone, -, hg, -⟩, -, hcurrent, hafter⟩ := hl.spec hstep
  have hshard : s.run.iter.shardI = 1 := by
    unfold Iter.unlocked at hone
    rw [hg] at hone
    exact hone
  obtain ⟨g, hc⟩ : ∃ g, s'.run.iter.current = some g := by
    rw [hcurrent]
    cases hc : s.run.iter.current with
    | none =>
      have hzero := Iteration.current_of_path (run_path hp) hc
      omega
    | some g => exact ⟨g, rfl⟩
  rcases hafter with hguard | hended
  · have htwo := h.one
    unfold Iter.held at htwo
    rw [hguard, hc] at htwo
    simp at htwo
  · have hheld := h.done hended
    unfold Iter.held at hheld
    rw [hc] at hheld
    simp at hheld

/-- 返し尽くした後にもう一度呼べば、回数は表の対の数を超える。 -/
theorem Within.not_leaves (h : Within (tr ++ [(s, a)]) s') (hfirst : AtFirst tr s)
    (hp : (lts w m c).Path (start c) tr s) (hstep : Step w m s a s') : ¬ Leaves s a := by
  intro hl
  obtain ⟨⟨hone, hin, hg, hr⟩, hcalls, -, -⟩ := hl.spec hstep
  have ht := Iteration.tracked_of_path (run_path hp)
  obtain ⟨ps, hvisits, hflow⟩ := ht.first hone
  rw [hr, Iteration.pending_of_none hg, List.append_nil, List.append_nil] at hflow
  have hcounted := hfirst.counted (hfirst.not_ended hone)
  rw [hin, hflow] at hcounted
  have hle : s'.calls ≤ ps.length := by
    refine h (0, ps) ?_
    unfold ofCalls visits at hvisits ⊢
    rw [List.filterMap_append, List.filterMap_append, hvisits]
    rfl
  rw [hcalls, hcounted] at hle
  exact absurd hle (Nat.not_succ_le_self _)

theorem Within.tail (h : Within (tr ++ [(s, a)]) s') (hstep : Step w m s a s') : Within tr s := by
  intro p hp
  refine hstep.calls_le.trans (h p ?_)
  unfold ofCalls visits at hp ⊢
  rw [List.filterMap_append, List.filterMap_append, List.head?_append, Option.mem_def.mp hp]
  rfl

theorem atFirst_of_oneLock (hp : (lts w m c).Path (start c) tr s) (h : OneLock tr s) :
    AtFirst tr s := by
  refine hp.invariant (P := fun tr s => OneLock tr s → AtFirst tr s) (fun _ => atFirst_start c)
    ?_ h
  rintro tr s a s' hp ih hstep ⟨hall, hlight⟩
  have hbefore : OneLock tr s :=
    ⟨fun x hx => hall x (List.mem_append_left _ hx), hall (s, a) (by simp)⟩
  exact (ih hbefore).step hstep (hlight.not_leaves hp hstep)

theorem atFirst_of_within (hp : (lts w m c).Path (start c) tr s) (h : Within tr s) :
    AtFirst tr s ∧ OneLock tr s := by
  refine hp.invariant (P := fun tr s => Within tr s → AtFirst tr s ∧ OneLock tr s) (fun _ => ?_)
    ?_ h
  · exact ⟨atFirst_start c, by simp, (atFirst_start c).light (w := w) (m := m) .nil⟩
  · rintro tr s a s' hp ih hstep hw
    obtain ⟨hfirst, hall, hlight⟩ := ih (hw.tail hstep)
    have hfirst' := hfirst.step hstep (hw.not_leaves hfirst hp hstep)
    refine ⟨hfirst', fun x hx => ?_, hfirst'.light (hp.snoc hstep)⟩
    rcases List.mem_append.mp hx with hx | hx
    · exact hall x hx
    · rw [List.mem_singleton.mp hx]
      exact hlight

/-- 最初の shard に居るまま呼び出しが済んでいれば、回数は表の対の数以下である。 -/
theorem AtFirst.within (h : AtFirst tr s) (hp : (lts w m c).Path (start c) tr s)
    (hin : s.inside = false) : Within tr s := by
  intro p hv
  have ht := Iteration.tracked_of_path (run_path hp)
  have hone : s.run.iter.unlocked = 1 := by
    have hle := h.unlocked
    have horder := ht.order
    by_contra hne
    have hzero : s.run.iter.unlocked = 0 := by omega
    rw [hzero, List.range_zero, List.map_eq_nil_iff] at horder
    rw [horder] at hv
    cases hv
  obtain ⟨ps, hvisits, hflow⟩ := ht.first hone
  have hcounted := h.counted (h.not_ended hone)
  rw [hvisits] at hv
  cases hv
  rw [hin] at hcounted
  rw [hcounted, ← hflow, List.length_append, List.length_append]
  show (yields (ofCalls tr)).length + 0 ≤ _
  omega

/--
`next` を何度呼んでも、他の thread がどう動いても、反復の持つ lock が一つ以下で終われば一つも残らない
のは、呼び出しの回数が最初の shard の対の数以下のとき、またそのときに限る。

後半は、呼び出しの途中の状態も含めて言う。
-/
theorem iter_oneLock_iff (hp : (lts w m c).Path (start c) tr s) :
    (s.inside = false → (OneLock tr s ↔ Within tr s)) ∧ (Within tr s → OneLock tr s) :=
  ⟨fun hin => ⟨fun h => (atFirst_of_oneLock hp h).within hp hin,
    fun h => (atFirst_of_within hp h).2⟩, fun h => (atFirst_of_within hp h).2⟩

/-- `oneEntry` の対を返し終えたところ。 -/
def yieldedOne : IterCalls Nat Nat :=
  ⟨⟨oneEntry, ⟨1, some ⟨0, 1⟩, none⟩, [(0, 0)]⟩, 1, false, false⟩

theorem yieldedOne_path (w : Word) (m : LockMode) :
    ∃ tr, (lts w m oneEntry).Path (start oneEntry) tr yieldedOne ∧
      visits (ofCalls tr) = [(0, [(0, 7)])] := by
  have hcall : Step w m (start oneEntry) .call ⟨.start oneEntry, 1, true, false⟩ := .call rfl
  have hlock : Step w m ⟨.start oneEntry, 1, true, false⟩ (.act (.next (.lock 0)))
      ⟨⟨oneEntry, ⟨0, none, some 0⟩, []⟩, 1, true, false⟩ := .act (.next rfl) fun _ _ => rfl
  have hstore : Step w m ⟨⟨oneEntry, ⟨0, none, some 0⟩, []⟩, 1, true, false⟩ (.act (.next .store))
      ⟨⟨oneEntry, ⟨1, some ⟨0, 0⟩, none⟩, []⟩, 1, true, false⟩ := .act (.next rfl) fun _ _ => rfl
  have hyield : Step w m ⟨⟨oneEntry, ⟨1, some ⟨0, 0⟩, none⟩, []⟩, 1, true, false⟩
      (.act (.next (.yield 0 0 7))) yieldedOne := .act (.next rfl) fun _ _ => rfl
  exact ⟨_, ((((Lts.Path.nil.snoc hcall).snoc hlock).snoc hstore).snoc hyield), rfl⟩

theorem iter_oneLock_iff_first : ∃ tr,
    ((lts ⟨64, by decide⟩ .shared oneEntry).Path (start oneEntry) tr yieldedOne ∧
      yieldedOne.inside = false) ∧ OneLock tr yieldedOne := by
  obtain ⟨tr, hpath, hvisits⟩ := yieldedOne_path ⟨64, by decide⟩ .shared
  refine ⟨tr, ⟨hpath, rfl⟩, ((iter_oneLock_iff hpath).1 rfl).mpr ?_⟩
  intro p hp
  rw [hvisits] at hp
  cases hp
  exact Nat.le_refl 1

/-- 二度目の `next` は、shard 0 の lock を持ったまま shard 1 の lock を取り、`None` を返しても放さない。 -/
theorem iter_oneLock_second : ∃ tr s,
    ((lts ⟨64, by decide⟩ .shared oneEntry).Path (start oneEntry) tr s ∧
      s.inside = false ∧ s.ended = true ∧ s.run.items = []) ∧
    (∃ x ∈ tr, x.1.run.iter.held = [1, 0]) ∧ s.run.Holds 1 ∧ ¬ OneLock tr s := by
  let w : Word := ⟨64, by decide⟩
  obtain ⟨tr, hpath, -⟩ := yieldedOne_path w .shared
  have hdrop : Step w .shared yieldedOne (.act (.drop 0 0))
      ⟨⟨oneEntry, ⟨1, some ⟨0, 1⟩, none⟩, []⟩, 1, false, false⟩ :=
    .act (.drop (by simp [yieldedOne])) fun _ h => by cases h
  have hcall : Step w .shared ⟨⟨oneEntry, ⟨1, some ⟨0, 1⟩, none⟩, []⟩, 1, false, false⟩ .call
      ⟨⟨oneEntry, ⟨1, some ⟨0, 1⟩, none⟩, []⟩, 2, true, false⟩ := .call rfl
  have hlock : Step w .shared ⟨⟨oneEntry, ⟨1, some ⟨0, 1⟩, none⟩, []⟩, 2, true, false⟩
      (.act (.next (.lock 1)))
      ⟨⟨oneEntry, ⟨1, some ⟨0, 1⟩, some 1⟩, []⟩, 2, true, false⟩ := .act (.next rfl) fun _ _ => rfl
  have hstore : Step w .shared ⟨⟨oneEntry, ⟨1, some ⟨0, 1⟩, some 1⟩, []⟩, 2, true, false⟩
      (.act (.next .store))
      ⟨⟨oneEntry, ⟨2, some ⟨1, 0⟩, none⟩, []⟩, 2, true, false⟩ := .act (.next rfl) fun _ _ => rfl
  have hnone : Step w .shared ⟨⟨oneEntry, ⟨2, some ⟨1, 0⟩, none⟩, []⟩, 2, true, false⟩ .none
      ⟨⟨oneEntry, ⟨2, some ⟨1, 0⟩, none⟩, []⟩, 2, false, true⟩ := .none rfl rfl
  have hend := ((((hpath.snoc hdrop).snoc hcall).snoc hlock).snoc hstore).snoc hnone
  refine ⟨_, _, ⟨hend, rfl, rfl, rfl⟩, ⟨_, List.mem_append_left _ (List.mem_append_right _
    (List.mem_singleton_self _)), rfl⟩, Or.inr (Or.inl ⟨0, rfl⟩), fun h => ?_⟩
  cases h.2.done rfl

end IterCalls

end Neocache
