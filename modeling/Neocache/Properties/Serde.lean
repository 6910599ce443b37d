import Mathlib.Algebra.BigOperators.Intervals
import Neocache.Cache.Serde
import Neocache.Properties.ExactlyOnce

/-!
# serialize した長さと、読み戻した中身

`serialize` が告げる長さは、対を渡すのとは別の巡回で数えたものである。間に他の thread が挿入すれば、
告げた長さと渡した対の個数は食い違う（`serialize_length_raced`）。`len` が読んでから反復が lock を
取るまでの間に個数を変えられた shard がなければ、二つは一致する（`serialize_length`）。

`visit_map` は容量 0 の cache に順に挿入するので、何も落とさず、同じ key については後のものが残る。
他の thread が書かない cache を serialize して読み戻すと、中身は元に戻る（`serde_roundtrip`）。
-/

namespace Neocache

open Infra Relation ShardData IterTrace

variable {K V : Type*} [DecidableEq K] {w : Word} {cap requested : Nat} {hasher : K → UInt64}
  {c c' : NeoCache K V} {s s' : Serializing K V} {a : SerializeAct K V}

/-! ## 告げた長さ -/

namespace Serializing

/-- 番号が `lo` 以上 `hi` 未満の shard にある対の個数。 -/
def entriesBetween (c : NeoCache K V) (lo hi : Nat) : Nat :=
  ∑ i ∈ Finset.Ico lo hi, (pairsAt c i).length

/-- 数えた個数は、渡した対と、これから渡す対の個数に等しい。 -/
structure Counted (s : Serializing K V) : Prop where
  tracked : ∃ tr, Iteration.Tracked tr s.run
  bound : s.counted ≤ s.run.cache.shards.length
  counting : ¬ s.Announced → s.run.iter = .new
  total : s.len = s.entries.length + (s.run.remaining ++ s.run.pending).length
    + entriesBetween s.run.cache s.run.iter.unlocked s.counted

omit [DecidableEq K] in
theorem counted_start (c : NeoCache K V) : Counted (start c) where
  tracked := ⟨[], Iteration.tracked_start c⟩
  bound := Nat.zero_le _
  counting _ := rfl
  total := rfl

omit [DecidableEq K] in
/-- lock を取ると、その shard の分だけ残りの個数が減る。 -/
theorem entriesBetween_next {s : Iteration K V} {e : IterEvent K V} {it : Iter} {n : Nat}
    (hn : Iteration.Next s e it) (hbound : it.unlocked ≤ n) :
    entriesBetween s.cache s.iter.unlocked n
      = (e.taken s.cache).length + entriesBetween s.cache it.unlocked n := by
  unfold Iter.unlocked at hbound ⊢
  cases hn with
  | store hg =>
    rw [hg]
    exact (Nat.zero_add _).symm
  | yield => exact (Nat.zero_add _).symm
  | lock hg =>
    rw [hg]
    exact Finset.sum_eq_sum_Ico_succ_bot hbound _

omit [DecidableEq K] in
/-- loop の一歩は、これから渡す対を渡した対に移すだけである。 -/
theorem Counted.next (h : Counted s) (ha : s.Announced) {e : IterEvent K V} {it : Iter}
    (hn : Iteration.Next s.run e it) :
    Counted { s with
      run := ⟨s.run.cache, it, Iteration.itemsAfter s.run.items e⟩
      entries := s.entries ++ e.emitted } := by
  obtain ⟨tr, ht⟩ := h.tracked
  have ht' := ht.next hn
  refine ⟨⟨_, ht'⟩, h.bound, fun hna => (hna ha).elim, ?_⟩
  have htotal := h.total
  have hflow := congrArg List.length
    (hn.flow (Iteration.itemsAfter s.run.items e) fun i hg => (ht.guard i hg).2)
  have hbetween := entriesBetween_next (n := s.counted) hn (by
    rw [show s.counted = s.run.cache.shards.length from ha]
    exact ht'.bound)
  rw [hbetween] at htotal
  simp only [List.length_append] at htotal hflow ⊢
  omega

omit [DecidableEq K] in
/-- shard を一つ読むと、数えた個数もその shard の分だけ増える。 -/
theorem Counted.count (h : Counted s) {σ : ShardData K V}
    (hσ : s.run.cache.shards[s.counted]? = some σ) :
    Counted { s with counted := s.counted + 1, len := s.len + σ.map.len } := by
  have hlt := (List.getElem?_eq_some_iff.mp hσ).1
  have hnew := h.counting (Nat.ne_of_lt hlt)
  refine ⟨h.tracked, hlt, fun _ => hnew, ?_⟩
  have htotal := h.total
  have hlen : (pairsAt s.run.cache s.counted).length = σ.map.len := by
    rw [pairsAt_of_shard hσ]
    exact List.length_map _
  unfold entriesBetween at htotal ⊢
  rw [hnew] at htotal ⊢
  show s.len + σ.map.len = s.entries.length + (s.run.remaining ++ s.run.pending).length
    + ∑ i ∈ Finset.Ico (Iter.new).unlocked (s.counted + 1), (pairsAt s.run.cache i).length
  rw [Finset.sum_Ico_succ_top (show (Iter.new).unlocked ≤ s.counted from Nat.zero_le _), hlen]
  omega

/-- 個数を変えない一歩は、数えた個数との対応を保つ。 -/
theorem Counted.other (h : Counted s) {i : Nat} {op : ShardOp K V} {run : Iteration K V}
    (hstep : Iteration.Step w .shared s.run (.other i op) run)
    (hsteady : s.Undisturbed (.other i op)) : Counted { s with run := run } := by
  obtain ⟨tr, ht⟩ := h.tracked
  have hlen := hstep.length_eq
  cases hstep with
  | @other _ _ r c htarget hfree hop =>
    obtain ⟨hr, hp⟩ := Iteration.other_pairs hfree hop
    refine ⟨⟨_, ht.step (.other htarget hfree hop)⟩, ?_, fun hna => h.counting fun ha => hna ?_, ?_⟩
    · show s.counted ≤ c.shards.length
      rw [hlen]
      exact h.bound
    · exact Eq.trans ha hlen.symm
    · have hsum : entriesBetween c s.run.iter.unlocked s.counted
          = entriesBetween s.run.cache s.run.iter.unlocked s.counted := by
        refine Finset.sum_congr rfl fun j hj => ?_
        obtain ⟨hlo, hhi⟩ := Finset.mem_Ico.mp hj
        rcases eq_or_ne j i with rfl | hne
        · exact hsteady hlo hhi r c hop
        · rw [onShard_pairsAt hop (Or.inl hne)]
      show s.len = s.entries.length + (Iteration.remaining ⟨c, s.run.iter, s.run.items⟩
        ++ Iteration.pending ⟨c, s.run.iter, s.run.items⟩).length
        + entriesBetween c s.run.iter.unlocked s.counted
      rw [hr, hp, hsum]
      exact h.total

theorem Counted.step (h : Counted s) (hsteady : s.Undisturbed a) (hstep : Step w s a s') :
    Counted s' := by
  cases hstep with
  | count hσ => exact h.count hσ
  | next ha hn =>
    cases hn with
    | next hn => exact h.next ha (Iteration.next_of_step hn)
  | drop hd =>
    obtain ⟨tr, ht⟩ := h.tracked
    have ht' := ht.step hd
    cases hd with
    | drop => exact ⟨⟨_, ht'⟩, h.bound, h.counting, h.total⟩
  | other ho => exact h.other ho hsteady

theorem counted_of_reachable (h : ((lts w c).restrict Undisturbed).Reachable s) : Counted s := by
  refine h.invariant (P := Counted) ?_ ?_
  · rintro s rfl
    exact counted_start c
  · rintro s a s' - hc ⟨hsteady, hstep⟩
    exact hc.step hsteady hstep

omit [DecidableEq K] in
theorem Counted.len_eq (h : Counted s) (he : s.Ended) : s.len = s.entries.length := by
  obtain ⟨hg, hr, hend⟩ := he.2.exhausted
  have htotal := h.total
  rw [hr, Iteration.pending_of_none hg, Iter.unlocked, hg, hend, he.1] at htotal
  unfold entriesBetween at htotal
  rw [show s.run.cache.shards.length + (Option.elim none 0 fun _ => 1)
    = s.run.cache.shards.length from rfl, Finset.Ico_self, Finset.sum_empty] at htotal
  exact htotal

/--
`len` が読んでから反復が lock を取るまでの間に、他の thread が shard の個数を変えなければ、
`serialize_map` に告げた長さは `serialize_entry` に渡した対の個数に等しい。
-/
theorem serialize_length (h : ((lts w c).restrict Undisturbed).Reachable s) (he : s.Ended) :
    s.len = s.entries.length := (counted_of_reachable h).len_eq he

/-- 空の cache。 -/
def noEntry : NeoCache Nat Nat := ⟨63, [.new 2, .new 2], UInt64.ofNat, 4⟩

theorem noEntry_reachable : CacheReachable ⟨64, by decide⟩ 4 UInt64.ofNat 2 noEntry := .init rfl

/-- `len` が読む前の挿入は、告げる長さにも入る。 -/
theorem serialize_length_before : ∃ s : Serializing Nat Nat,
    ((lts ⟨64, by decide⟩ noEntry).restrict Undisturbed).Reachable s ∧ s.Ended ∧
      s.entries = [(0, 7)] ∧ s.len = s.entries.length := by
  have hinsert : ((lts ⟨64, by decide⟩ noEntry).restrict Undisturbed).Reachable
      ⟨.start oneEntry, 0, 0, []⟩ := by
    refine .step (a := .other 0 (.key 0 (.insert 7))) (.init rfl)
      ⟨fun _ hlt => (Nat.not_lt_zero _ hlt).elim, .other (.other rfl (Or.inl ?_) rfl)⟩
    rintro (h | ⟨_, h⟩ | ⟨_, h⟩)
    · cases h
    · cases h
    · cases h
  have hcount : ((lts ⟨64, by decide⟩ noEntry).restrict Undisturbed).Reachable
      ⟨.start oneEntry, 1, 1, []⟩ :=
    .step (a := .count) hinsert ⟨trivial, Step.count (σ := (ShardData.new 2).register 0 0 7 .small) rfl⟩
  have hsecond : ((lts ⟨64, by decide⟩ noEntry).restrict Undisturbed).Reachable
      ⟨.start oneEntry, 2, 1, []⟩ :=
    .step (a := .count) hcount ⟨trivial, Step.count (σ := .new 2) rfl⟩
  have hyield : ((lts ⟨64, by decide⟩ noEntry).restrict Undisturbed).Reachable
      ⟨⟨oneEntry, ⟨1, some ⟨0, 1⟩, none⟩, [(0, 0)]⟩, 2, 1, [(0, 7)]⟩ :=
    .step (a := .next (.yield 0 0 7)) (.step (a := .next .store) (.step (a := .next (.lock 0))
      hsecond ⟨trivial, .next rfl (.next rfl)⟩) ⟨trivial, .next rfl (.next rfl)⟩)
      ⟨trivial, .next rfl (.next rfl)⟩
  have hend : ((lts ⟨64, by decide⟩ noEntry).restrict Undisturbed).Reachable
      ⟨⟨oneEntry, ⟨2, some ⟨1, 0⟩, none⟩, [(0, 0)]⟩, 2, 1, [(0, 7)]⟩ :=
    .step (a := .next .store) (.step (a := .next (.lock 1)) hyield ⟨trivial, .next rfl (.next rfl)⟩)
      ⟨trivial, .next rfl (.next rfl)⟩
  exact ⟨_, hend, ⟨rfl, rfl⟩, rfl, serialize_length hend ⟨rfl, rfl⟩⟩

/-- `len` が二つの shard を読み終えた後に、他の thread が挿入する。 -/
theorem serialize_length_raced : ∃ s : Serializing Nat Nat,
    CacheReachable ⟨64, by decide⟩ 4 UInt64.ofNat 2 noEntry ∧
      (lts ⟨64, by decide⟩ noEntry).Reachable s ∧ s.Ended ∧ s.len = 0 ∧ s.entries = [(0, 7)] := by
  have hfirst : (lts ⟨64, by decide⟩ noEntry).Reachable ⟨.start noEntry, 1, 0, []⟩ :=
    .step (.init rfl) (Step.count (σ := .new 2) rfl)
  have hcount : (lts ⟨64, by decide⟩ noEntry).Reachable ⟨.start noEntry, 2, 0, []⟩ :=
    .step hfirst (Step.count (σ := .new 2) rfl)
  have hinsert : (lts ⟨64, by decide⟩ noEntry).Reachable ⟨.start oneEntry, 2, 0, []⟩ := by
    refine .step (a := .other 0 (.key 0 (.insert 7))) hcount (.other (.other rfl (Or.inl ?_) rfl))
    rintro (h | ⟨_, h⟩ | ⟨_, h⟩)
    · cases h
    · cases h
    · cases h
  have hyield : (lts ⟨64, by decide⟩ noEntry).Reachable
      ⟨⟨oneEntry, ⟨1, some ⟨0, 1⟩, none⟩, [(0, 0)]⟩, 2, 0, [(0, 7)]⟩ :=
    .step (a := .next (.yield 0 0 7)) (.step (a := .next .store) (.step (a := .next (.lock 0))
      hinsert (.next rfl (.next rfl))) (.next rfl (.next rfl))) (.next rfl (.next rfl))
  have hdrop : (lts ⟨64, by decide⟩ noEntry).Reachable
      ⟨⟨oneEntry, ⟨1, some ⟨0, 1⟩, none⟩, []⟩, 2, 0, [(0, 7)]⟩ :=
    .step (a := .drop 0 0) hyield (.drop (.drop (List.mem_singleton_self _)))
  have hend : (lts ⟨64, by decide⟩ noEntry).Reachable
      ⟨⟨oneEntry, ⟨2, some ⟨1, 0⟩, none⟩, []⟩, 2, 0, [(0, 7)]⟩ :=
    .step (a := .next .store) (.step (a := .next (.lock 1)) hdrop (.next rfl (.next rfl)))
      (.next rfl (.next rfl))
  exact ⟨_, noEntry_reachable, hend, ⟨rfl, rfl⟩, rfl, rfl⟩

/-! ## 渡した対 -/

/-- 他の thread が読むだけの間、渡した対とこれから渡す対を並べると `iter` になる。 -/
structure Carried (c : NeoCache K V) (s : Serializing K V) : Prop where
  tracked : ∃ tr, Iteration.Tracked tr s.run
  length : s.run.cache.shards.length = c.shards.length
  same : ∀ j, pairsAt s.run.cache j = pairsAt c j
  flow : s.entries ++ (s.run.remaining ++ s.run.pending)
    ++ ((List.range c.shards.length).drop s.run.iter.unlocked).flatMap (pairsAt c) = c.iter

omit [DecidableEq K] in
theorem carried_start (c : NeoCache K V) : Carried c (start c) where
  tracked := ⟨[], Iteration.tracked_start c⟩
  length := rfl
  same _ := rfl
  flow := Iteration.flatMap_pairsAt c

omit [DecidableEq K] in
/-- lock を取った shard の対は、これから訪ねる shard の先頭のものである。 -/
theorem taken_next {s : Iteration K V} {e : IterEvent K V} {it : Iter} {n : Nat}
    (hn : Iteration.Next s e it) (hbound : it.unlocked ≤ n) :
    ((List.range n).drop s.iter.unlocked).flatMap (pairsAt s.cache)
      = e.taken s.cache ++ ((List.range n).drop it.unlocked).flatMap (pairsAt s.cache) := by
  unfold Iter.unlocked at hbound ⊢
  cases hn with
  | store hg =>
    rw [hg]
    rfl
  | yield => rfl
  | lock hg =>
    rw [hg]
    have hlt : s.iter.shardI < (List.range n).length := by
      rw [List.length_range]
      exact hbound
    show ((List.range n).drop s.iter.shardI).flatMap _ = _
    rw [List.drop_eq_getElem_cons hlt, List.getElem_range, List.flatMap_cons]
    rfl

omit [DecidableEq K] in
theorem Carried.next (h : Carried c s) {e : IterEvent K V} {it : Iter}
    (hn : Iteration.Next s.run e it) :
    Carried c { s with
      run := ⟨s.run.cache, it, Iteration.itemsAfter s.run.items e⟩
      entries := s.entries ++ e.emitted } := by
  obtain ⟨tr, ht⟩ := h.tracked
  have ht' := ht.next hn
  refine ⟨⟨_, ht'⟩, h.length, h.same, ?_⟩
  have hbound : it.unlocked ≤ c.shards.length := by
    rw [← h.length]
    exact ht'.bound
  have hpairs : pairsAt s.run.cache = pairsAt c := funext h.same
  have htaken := taken_next hn hbound
  have hflow := hn.flow (Iteration.itemsAfter s.run.items e) fun i hg => (ht.guard i hg).2
  rw [hpairs] at htaken
  rw [← h.flow, htaken]
  show s.entries ++ e.emitted ++ _ ++ _ = _
  rw [List.append_assoc s.entries e.emitted, ← hflow]
  simp only [List.append_assoc]

theorem Carried.step (h : Carried c s) (hread : s.ReadsOnly a) (hstep : Step w s a s') :
    Carried c s' := by
  cases hstep with
  | count => exact ⟨h.tracked, h.length, h.same, h.flow⟩
  | next ha hn =>
    cases hn with
    | next hn => exact h.next (Iteration.next_of_step hn)
  | drop hd =>
    obtain ⟨tr, ht⟩ := h.tracked
    have ht' := ht.step hd
    cases hd with
    | drop => exact ⟨⟨_, ht'⟩, h.length, h.same, h.flow⟩
  | other ho =>
    obtain ⟨tr, ht⟩ := h.tracked
    have ht' := ht.step ho
    have hlen := ho.length_eq
    cases ho with
    | other htarget hfree hop =>
      obtain ⟨hr, hp⟩ := Iteration.other_pairs hfree hop
      refine ⟨⟨_, ht'⟩, hlen.trans h.length, fun j => ?_, ?_⟩
      · exact (onShard_pairsAt hop (Or.inr hread)).trans (h.same j)
      · rw [hr, hp]
        exact h.flow

/-- 読むだけの一歩は、個数を変えない。 -/
theorem ReadsOnly.undisturbed (h : s.ReadsOnly a) : s.Undisturbed a := by
  cases a with
  | other i op =>
    intro _ _ r c hop
    rw [onShard_pairsAt hop (Or.inr h)]
  | _ => trivial

/-- 他の thread が読むだけなら、渡した対は `iter` の返すもので、告げた長さはその個数である。 -/
theorem entries_of_readsOnly (h : ((lts w c).restrict ReadsOnly).Reachable s) (he : s.Ended) :
    s.entries = c.iter ∧ s.len = s.entries.length := by
  have hcarried : Carried c s := by
    refine h.invariant (P := Carried c) ?_ ?_
    · rintro s rfl
      exact carried_start c
    · rintro s a s' - hc ⟨hread, hstep⟩
      exact hc.step hread hstep
  have hcounted := counted_of_reachable (h.mono fun s a s' hread _ => ReadsOnly.undisturbed hread)
  refine ⟨?_, hcounted.len_eq he⟩
  obtain ⟨hg, hr, hend⟩ := he.2.exhausted
  have hflow := hcarried.flow
  have hdrop : (List.range c.shards.length).drop s.run.iter.unlocked = [] := by
    rw [Iter.unlocked, hg, hend, hcarried.length]
    exact List.drop_of_length_le (by rw [List.length_range]; exact le_rfl)
  rw [hr, Iteration.pending_of_none hg, hdrop] at hflow
  simpa using hflow

/-! ## 終わること -/

/-- 他の thread が割り込まずに、shard を数え終える。 -/
theorem exists_announced (c : NeoCache K V) :
    ∀ n ≤ c.shards.length, ∃ len, ((lts w c).restrict ReadsOnly).Reachable
      ⟨.start c, n, len, []⟩
  | 0, _ => ⟨0, .init rfl⟩
  | n + 1, hn => by
    obtain ⟨len, h⟩ := exists_announced c n (Nat.le_of_succ_le hn)
    have hσ : c.shards[n]? = some c.shards[n] := List.getElem?_eq_getElem hn
    exact ⟨_, .step (a := .count) h ⟨trivial, .count hσ⟩⟩

theorem reachable_advance {run : Iteration K V} {len : Nat} (n : Nat) (entries : List (K × V))
    (h : ((lts w c).restrict ReadsOnly).Reachable ⟨run, c.shards.length, len, entries⟩)
    (hlen : run.cache.shards.length = c.shards.length) :
    ∃ entries', ((lts w c).restrict ReadsOnly).Reachable
      ⟨(Iteration.advance n run).2, c.shards.length, len, entries'⟩ ∧
      (Iteration.advance n run).2.cache.shards.length = c.shards.length := by
  induction n generalizing run entries with
  | zero => exact ⟨entries, h, hlen⟩
  | succ n ih =>
    unfold Iteration.advance
    split
    · exact ⟨entries, h, hlen⟩
    · next e it hs =>
      exact ih _ (.step (a := .next e) h ⟨trivial, .next hlen.symm (.next hs)⟩) hlen

/-- 他の thread が割り込まなければ、`serialize` は終わる。 -/
theorem exists_ended (w : Word) (c : NeoCache K V) :
    ∃ s, ((lts w c).restrict ReadsOnly).Reachable s ∧ s.Ended := by
  obtain ⟨len, h⟩ := exists_announced (w := w) c c.shards.length le_rfl
  obtain ⟨n, hdone⟩ := Iteration.exists_advance_finished _ (Iteration.tracked_start c)
  obtain ⟨entries, h', hlen⟩ := reachable_advance n [] h rfl
  exact ⟨_, h', hlen.symm, hdone⟩

end Serializing

/-! ## `visit_map` -/

/-- 対を順に書いた写像。同じ key については後のものが残る。 -/
def lastWriteWins (A : K → Option V) (l : List (K × V)) : K → Option V :=
  l.foldl (fun A p => Function.update A p.1 (some p.2)) A

theorem lastWriteWins_of_notMem (l : List (K × V)) (A : K → Option V) {k : K}
    (hk : k ∉ l.map Prod.fst) : lastWriteWins A l k = A k := by
  induction l generalizing A with
  | nil => rfl
  | cons p l ih =>
    rw [List.map_cons, List.mem_cons, not_or] at hk
    exact (ih _ hk.2).trans (Function.update_of_ne hk.1 _ _)

theorem lastWriteWins_of_mem (l : List (K × V)) (A : K → Option V)
    (hnd : (l.map Prod.fst).Nodup) {k : K} {v : V} (hk : (k, v) ∈ l) :
    lastWriteWins A l k = some v := by
  induction l generalizing A with
  | nil => cases hk
  | cons p l ih =>
    rw [List.map_cons, List.nodup_cons] at hnd
    rcases List.mem_cons.mp hk with rfl | hk
    · exact (lastWriteWins_of_notMem l _ hnd.1).trans (Function.update_self _ _ _)
    · exact ih _ hnd.2 hk

/-- 写像の対を一度ずつ並べたものを書けば、その写像になる。 -/
theorem lastWriteWins_enumerates {l : List (K × V)} {A : K → Option V}
    (h : LossyMap.Enumerates l A) : lastWriteWins (fun _ => none) l = A := by
  funext k
  cases hA : A k with
  | some v => exact lastWriteWins_of_mem l _ h.1 ((h.2 k v).mpr hA)
  | none =>
    refine lastWriteWins_of_notMem l _ fun hmem => ?_
    obtain ⟨⟨k', v⟩, hp, rfl⟩ := List.mem_map.mp hmem
    cases hA.symm.trans ((h.2 k' v).mp hp)

variable {ε α : Type*} {parallelism : Nat}

/-- 既定の shard の数は、2 以上の 2 冪である。 -/
theorem defaultShardAmount_ok (hp : 1 ≤ parallelism) (hfit : parallelism * 16 ≤ 2 ^ (w.bits - 1)) :
    ∃ n, defaultShardAmount w parallelism = .ok n ∧ NeoCache.Accepted w n := by
  have hbits := w.sixteen_le
  have hsize : 2 ^ (w.bits - 1) < w.size := Nat.pow_lt_pow_right (by omega) (by omega)
  have hclog : Nat.clog 2 (parallelism * 16) ≤ w.bits - 1 := Nat.clog_le_of_le_pow hfit
  have hpos : 0 < Nat.clog 2 (parallelism * 16) := Nat.clog_pos (by omega) (by omega)
  have hle : 2 ^ Nat.clog 2 (parallelism * 16) ≤ 2 ^ (w.bits - 1) :=
    Nat.pow_le_pow_right (by omega) hclog
  refine ⟨2 ^ Nat.clog 2 (parallelism * 16), ?_, NeoCache.accepted_iff.mpr ⟨_, hpos, by omega, rfl⟩⟩
  unfold defaultShardAmount Word.nextPowerOfTwo
  rw [if_pos (lt_of_le_of_lt hfit hsize), if_pos (lt_of_le_of_lt hle hsize)]

/-- 容量 0 の cache への挿入は、何も落とさずに書く。 -/
theorem insert_unbounded (hreq : NeoCache.Accepted w requested)
    (hr : CacheReachable w 0 hasher requested c) (k : K) (v : V) :
    ∃ r c', c.keyOp w k (.insert v) = .ok (r, c') ∧ CacheReachable w 0 hasher requested c' ∧
      c'.contents = Function.update c.contents k (some v) := by
  have hsize : 0 < w.size := Nat.two_pow_pos _
  obtain ⟨i, -, -, hl⟩ := NeoCache.layout_ok hsize hreq
  obtain ⟨r, c', hop, hstep⟩ := keyOp_refines hsize hreq hl hr k (.insert v)
  have hr' : CacheReachable w 0 hasher requested c' := by
    have hexec : c.exec w (.key k (.insert v)) = .ok (.key r, c') := by
      rw [NeoCache.exec, hop]
      rfl
    exact hr.exec hl hexec
  refine ⟨r, c', hop, hr', ?_⟩
  generalize CacheRet.key r = r' at hstep
  generalize c'.contents = A' at hstep ⊢
  cases hstep with
  | present => rfl
  | absent _ hv => cases hv
  | fresh lost hk hv hlost hbounded =>
    cases hv
    rw [hbounded (lt_irrefl 0), drop_empty]

theorem visitEntries_ok (hreq : NeoCache.Accepted w requested) (l : List (K × V))
    (hr : CacheReachable w 0 hasher requested c) :
    ∃ c', visitEntries (ε := ε) w c (l.map .ok) = .ok c' ∧
      c'.contents = lastWriteWins c.contents l := by
  induction l generalizing c with
  | nil => exact ⟨c, rfl, rfl⟩
  | cons p l ih =>
    obtain ⟨k, v⟩ := p
    obtain ⟨r, c₁, hop, hr₁, hput⟩ := insert_unbounded hreq hr k v
    obtain ⟨c', hvisit, hcontents⟩ := ih hr₁
    refine ⟨c', ?_, ?_⟩
    · rw [List.map_cons, visitEntries, hop]
      exact hvisit
    · rw [hcontents, hput]
      rfl

/-- 作ったばかりの cache は空である。 -/
theorem withHasher_ok (hp : 1 ≤ parallelism) (hfit : parallelism * 16 ≤ 2 ^ (w.bits - 1))
    (hasher : K → UInt64) :
    ∃ n, NeoCache.Accepted w n ∧ ∃ c : NeoCache K V, NeoCache.withHasher w parallelism hasher = .ok c ∧
      CacheReachable w 0 hasher n c ∧ c.contents = fun _ => none := by
  obtain ⟨n, hn, hreq⟩ := defaultShardAmount_ok hp hfit
  obtain ⟨i, -, -, hl⟩ := NeoCache.layout_ok (show 0 < w.size from Nat.two_pow_pos _) hreq
  have hnew : ∃ c : NeoCache K V,
      NeoCache.withCapacityAndHasherAndShardAmount w 0 hasher n = .ok c ∧
        c.contents = fun _ => none := by
    unfold NeoCache.withCapacityAndHasherAndShardAmount
    rw [hl]
    refine ⟨_, rfl, ?_⟩
    funext k
    refine List.findSome?_eq_none_iff.mpr fun σ hσ => ?_
    obtain ⟨-, rfl⟩ := List.mem_replicate.mp hσ
    rfl
  obtain ⟨c, hc, hempty⟩ := hnew
  refine ⟨n, hreq, c, ?_, .init hc, hempty⟩
  rw [NeoCache.withHasher, NeoCache.withCapacityAndHasher, hn]
  exact hc

/-- `visit_map` は失敗せず、対の列を順に書いた写像を作る。 -/
theorem visitMap_ok (hp : 1 ≤ parallelism) (hfit : parallelism * 16 ≤ 2 ^ (w.bits - 1))
    (hasher : K → UInt64) (l : List (K × V)) :
    ∃ c, visitMap (ε := ε) w parallelism hasher (l.map .ok) = .ok c ∧
      c.contents = lastWriteWins (fun _ => none) l := by
  obtain ⟨n, hreq, c, hnew, hr, hempty⟩ := withHasher_ok (V := V) hp hfit hasher
  obtain ⟨c', hvisit, hcontents⟩ := visitEntries_ok (ε := ε) hreq l hr
  rw [hempty] at hcontents
  refine ⟨c', ?_, hcontents⟩
  rw [visitMap, hnew]
  exact hvisit

/--
serialize したものを読み戻すと、中身は元に戻る。

他の thread が読むだけの間の `serialize` は終わり、渡した対を忠実な書式で運んで `visit_map` に
与えると、hash も shard の数も違ってよい cache に同じ中身ができる。どんな対の列を与えても、
`visit_map` は何も落とさず、同じ key については後の対を残す。

`parallelism` は `available_parallelism` の返す値で、1 以上であり、その 16 倍を 2 冪に切り上げた値が
`usize` に収まるものとする。
-/
theorem serde_roundtrip (hp : 1 ≤ parallelism) (hfit : parallelism * 16 ≤ 2 ^ (w.bits - 1))
    (hsize : cap < w.size) (hreq : NeoCache.Accepted w requested)
    (hr : CacheReachable w cap hasher requested c) (fmt : Format K V ε α) (hasher' : K → UInt64) :
    (∃ s, ((Serializing.lts w c).restrict Serializing.ReadsOnly).Reachable s ∧ s.Ended) ∧
    (∀ s, ((Serializing.lts w c).restrict Serializing.ReadsOnly).Reachable s → s.Ended →
      ∃ c', visitMap w parallelism hasher' (fmt.decode (fmt.encode s.len s.entries)) = .ok c' ∧
        c'.contents = c.contents) ∧
    ∀ l : List (K × V), ∃ c', visitMap (ε := ε) w parallelism hasher' (l.map .ok) = .ok c' ∧
      c'.contents = lastWriteWins (fun _ => none) l := by
  obtain ⟨i, -, -, hl⟩ := NeoCache.layout_ok hsize hreq
  refine ⟨Serializing.exists_ended w c, fun s hs he => ?_, visitMap_ok hp hfit hasher'⟩
  obtain ⟨hentries, hlen⟩ := Serializing.entries_of_readsOnly hs he
  obtain ⟨c', hvisit, hcontents⟩ := visitMap_ok (ε := ε) hp hfit hasher' s.entries
  refine ⟨c', ?_, ?_⟩
  · rw [hlen, fmt.faithful]
    exact hvisit
  · rw [hcontents, hentries]
    exact lastWriteWins_enumerates (iter_enumerates (hr.routed hl))

/-- 先頭に個数を書く書式。読むときは、書いてある個数だけ読む。 -/
def withCount : Format Nat Nat Empty (Nat × List (Nat × Nat)) where
  encode n l := (n, l)
  decode x := (x.2.take x.1).map .ok
  faithful l := by rw [List.take_length]

theorem serde_roundtrip_oneEntry :
    ∃ (s : Serializing Nat Nat) (c' : NeoCache Nat Nat),
      ((Serializing.lts ⟨64, by decide⟩ oneEntry).restrict Serializing.ReadsOnly).Reachable s ∧
      s.Ended ∧
      visitMap ⟨64, by decide⟩ 1 (fun _ => 0) (withCount.decode (withCount.encode s.len s.entries))
        = .ok c' ∧
      c'.contents 0 = some 7 := by
  obtain ⟨⟨s, hs, he⟩, hback, -⟩ := serde_roundtrip (w := ⟨64, by decide⟩) (by decide : 1 ≤ 1)
    (by decide) (by decide) (by decide) oneEntry_reachable withCount fun _ => 0
  obtain ⟨c', hvisit, hcontents⟩ := hback s hs he
  refine ⟨s, c', hs, he, hvisit, ?_⟩
  rw [hcontents]
  rfl

end Neocache
