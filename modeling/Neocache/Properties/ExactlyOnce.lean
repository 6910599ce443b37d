import Neocache.Properties.Iteration

/-!
# 反復の使い方ごとの帰結

`alter_all` は返った対に一度ずつ closure を施す。他の thread が読むだけの間なら、`Iter`・`IterMut`・
`OwningIter`・`ReadOnlyView::iter` はみな同じ対を返し、その個数は `len` である。
-/

namespace Neocache

open Infra Relation ShardData IterTrace

variable {K V : Type*} {w : Word} {m : LockMode} {cap requested : Nat} {hasher : K → UInt64}
  {c : NeoCache K V} {s s' : Iteration K V} {tr : IterTrace K V} {a : IterAct K V}

/-! ## `alter_all` -/

/-- 自分の動きから読み取った、返した対と書いた対。 -/
def IterAct.yielded : IterAct K V → Option (K × V)
  | .next (.yield _ k v) => some (k, v)
  | _ => none

def IterAct.written : IterAct K V → Option (K × V)
  | .write _ k v => some (k, v)
  | _ => none

theorem yields_eq_own (tr : IterTrace K V) : yields tr = (own tr).filterMap IterAct.yielded := by
  unfold yields own
  rw [List.filterMap_filterMap]
  congr 1
  funext ⟨s, a⟩
  cases a with
  | next e => cases e <;> rfl
  | _ => rfl

theorem writes_eq_own (tr : IterTrace K V) : writes tr = (own tr).filterMap IterAct.written := by
  unfold writes own
  rw [List.filterMap_filterMap]
  congr 1
  funext ⟨s, a⟩
  cases a <;> rfl

/-- closure は、返った対に返った順に一度ずつ施される。 -/
theorem AlterAll.written_eq {f : Nat → K → V → V} {n : Nat} {acts : List (IterAct K V)}
    (h : AlterAll f n acts) :
    acts.filterMap IterAct.written
      = (acts.filterMap IterAct.yielded).mapIdx fun j p => (p.1, f (n + j) p.1 p.2) := by
  induction h with
  | nil => rfl
  | lock _ ih => exact ih
  | store _ ih => exact ih
  | @visit n i k v rest _ ih =>
    show (k, f n k v) :: rest.filterMap IterAct.written
      = ((k, v) :: rest.filterMap IterAct.yielded).mapIdx _
    rw [ih, List.mapIdx_cons]
    congr 1
    refine congrArg (fun g => List.mapIdx g _) ?_
    funext j p
    rw [show n + 1 + j = n + (j + 1) by omega]

/-- 書き込みの直前には、その対を返している。 -/
theorem AlterAll.yield_before {f : Nat → K → V → V} {n : Nat} {acts pre post : List (IterAct K V)}
    {i : Nat} {k : K} {x : V} (h : AlterAll f n acts) (hacts : acts = pre ++ .write i k x :: post) :
    ∃ j v, pre.getLast? = some (.next (.yield i k v)) ∧ x = f j k v := by
  induction h generalizing pre with
  | nil => simp at hacts
  | lock _ ih =>
    cases pre with
    | nil => cases hacts
    | cons b pre =>
      obtain ⟨rfl, hrest⟩ := List.cons.inj hacts
      obtain ⟨j, v, hlast, hx⟩ := ih hrest
      exact ⟨j, v, by rw [List.getLast?_cons, hlast]; rfl, hx⟩
  | store _ ih =>
    cases pre with
    | nil => cases hacts
    | cons b pre =>
      obtain ⟨rfl, hrest⟩ := List.cons.inj hacts
      obtain ⟨j, v, hlast, hx⟩ := ih hrest
      exact ⟨j, v, by rw [List.getLast?_cons, hlast]; rfl, hx⟩
  | @visit n i' k' v rest _ ih =>
    match pre, hacts with
    | [], hacts => cases hacts
    | [b], hacts =>
      obtain ⟨rfl, hrest⟩ := List.cons.inj hacts
      obtain ⟨heq, -⟩ := List.cons.inj hrest
      cases heq
      exact ⟨n, v, rfl, rfl⟩
    | [b, b'], hacts =>
      obtain ⟨-, hrest⟩ := List.cons.inj hacts
      obtain ⟨-, hrest⟩ := List.cons.inj hrest
      cases hrest
    | b :: b' :: b'' :: pre, hacts =>
      obtain ⟨-, hrest⟩ := List.cons.inj hacts
      obtain ⟨-, hrest⟩ := List.cons.inj hrest
      obtain ⟨-, hrest⟩ := List.cons.inj hrest
      obtain ⟨j, v, hlast, hx⟩ := ih hrest
      refine ⟨j, v, ?_, hx⟩
      rw [List.getLast?_cons, List.getLast?_cons, List.getLast?_cons, hlast]
      rfl

variable [DecidableEq K]

omit [DecidableEq K] in
theorem own_snoc (tr : IterTrace K V) (s : Iteration K V) (a : IterAct K V) :
    own (tr ++ [(s, a)]) = own tr ++ match a with
      | .other _ _ => []
      | a => [a] := by
  unfold own
  rw [List.filterMap_append]
  cases a <;> rfl

namespace Iteration

/-- 返したばかりの対は、次に自分が動くまで表にそのまま残る。 -/
theorem fresh_item (h : (lts w m c).Path (start c) tr s) :
    ∀ i k v, (own tr).getLast? = some (.next (.yield i k v)) →
      (i, k) ∈ s.items ∧ (k, v) ∈ pairsAt s.cache i := by
  refine h.invariant (P := fun tr s => ∀ i k v, (own tr).getLast? = some (.next (.yield i k v)) →
    (i, k) ∈ s.items ∧ (k, v) ∈ pairsAt s.cache i) (fun i k v hlast => by cases hlast) ?_
  rintro tr s a s' - hi hstep i k v hlast
  rw [own_snoc] at hlast
  cases hstep with
  | next hn =>
    rw [List.getLast?_append] at hlast
    cases Option.some.inj hlast
    cases next_of_step hn with
    | @yield g _ _ rest hg hc hr =>
      refine ⟨List.mem_cons_self, ?_⟩
      have hmem : (k, v) ∈ s.remaining := by
        rw [hr]
        exact List.mem_cons_self
      unfold remaining at hmem
      rw [hc] at hmem
      exact List.mem_of_mem_drop hmem
  | write =>
    rw [List.getLast?_append] at hlast
    cases Option.some.inj hlast
  | drop =>
    rw [List.getLast?_append] at hlast
    cases Option.some.inj hlast
  | other htarget hfree hop =>
    rw [List.append_nil] at hlast
    obtain ⟨hitem, hmem⟩ := hi i k v hlast
    refine ⟨hitem, ?_⟩
    -- item が lock を持ち続けるので、他の thread はこの shard を書き換えられない
    rw [onShard_pairsAt hop]
    · exact hmem
    · rcases hfree with hfree | ⟨-, hget⟩
      · exact Or.inl fun heq => hfree (heq ▸ Or.inr (Or.inr ⟨k, hitem⟩))
      · exact Or.inr hget

section Reachable

variable {l : NeoCache.Layout} (hl : NeoCache.layout w cap requested = .ok l)

include hl

theorem contents_of_pairsAt (hr : CacheReachable w cap hasher requested c) {i : Nat} {k : K}
    {v : V} (h : (k, v) ∈ pairsAt c i) : c.contents k = some v := by
  have hi := Routed.pairsAt (hr.routed hl) h
  cases hσ : c.shards[i]? with
  | none =>
    unfold pairsAt at h
    rw [hσ] at h
    exact (List.not_mem_nil h).elim
  | some σ =>
    rw [(hr.routed hl).contents_eq hi hσ]
    rw [pairsAt_of_shard hσ] at h
    exact mem_pairs.mp h

/-- `alter_all` の書き込みは、その時点の値に closure を施したものである。 -/
theorem alterAll_write {f : Nat → K → V → V} (hr : CacheReachable w cap hasher requested c)
    (h : (lts w m c).Path (start c) tr s) (ha : AlterAll f 0 (own tr)) {s₁ : Iteration K V}
    {i : Nat} {k : K} {x : V} (hmem : (s₁, .write i k x) ∈ tr) :
    ∃ j v, x = f j k v ∧ s₁.cache.contents k = some v := by
  obtain ⟨pre, post, rfl⟩ := List.append_of_mem hmem
  have hown : own (pre ++ (s₁, .write i k x) :: post) = own pre ++ .write i k x :: own post := by
    unfold own
    rw [List.filterMap_append]
    rfl
  obtain ⟨j, v, hlast, hx⟩ := ha.yield_before hown
  have hr₁ := (reachable_of_path hl hr h).2 _ hmem
  have hfresh := fresh_item (h.take rfl) i k v hlast
  exact ⟨j, v, hx, contents_of_pairsAt hl hr₁ hfresh.2⟩

end Reachable

/-! ## 他の thread が書かない場合 -/

omit [DecidableEq K] in
/-- 番号の順に並べた shard の対は、`iter` が返すものである。 -/
theorem flatMap_pairsAt (c : NeoCache K V) :
    (List.range c.shards.length).flatMap (pairsAt c) = c.iter :=
  flatMap_range (fun σ : ShardData K V => σ.pairs) c.shards

/-- これから訪ねる shard の対は、始めのままである。 -/
theorem untouched (h : (lts w m c).Path (start c) tr s) (hu : Unmodified tr) :
    (∀ j, s.iter.shardI ≤ j → pairsAt s.cache j = pairsAt c j) ∧
      ∀ x ∈ visits tr, x.2 = pairsAt c x.1 := by
  refine h.invariant (P := fun tr s => Unmodified tr →
    (∀ j, s.iter.shardI ≤ j → pairsAt s.cache j = pairsAt c j) ∧
      ∀ x ∈ visits tr, x.2 = pairsAt c x.1) (fun _ => ⟨fun _ _ => rfl, by simp [visits]⟩) ?_ hu
  intro tr s a s' hp hi hstep hu
  obtain ⟨hrest, hvisits⟩ := hi fun s₁ i op hmem => hu s₁ i op (List.mem_append_left _ hmem)
  have hsame := snoc_other (a := a) tr s
  cases hstep with
  | @next e it hn =>
    rw [visits_snoc]
    cases next_of_step hn with
    | store =>
      refine ⟨fun j hj => hrest j (Nat.le_of_succ_le hj), ?_⟩
      simpa [IterEvent.locks] using hvisits
    | yield => exact ⟨hrest, by simpa [IterEvent.locks] using hvisits⟩
    | lock =>
      refine ⟨hrest, fun x hx => ?_⟩
      rcases List.mem_append.mp hx with hx | hx
      · exact hvisits x hx
      · rw [List.mem_singleton.mp hx]
        exact hrest _ le_rfl
  | @write i k v σ hm hitem hσ =>
    rw [(hsame (by simp)).2]
    refine ⟨fun j hj => ?_, hvisits⟩
    have hlt := ((tracked_of_path hp).items i k hitem).1
    have hj' : s.iter.shardI ≤ j := hj
    rw [pairsAt_set (List.getElem?_eq_some_iff.mp hσ).1, if_neg (by omega)]
    exact hrest j hj
  | drop =>
    rw [(hsame (by simp)).2]
    exact ⟨hrest, hvisits⟩
  | @other i op r c' htarget hfree hop =>
    rw [(hsame (by simp)).2]
    refine ⟨fun j hj => ?_, hvisits⟩
    have hget := hu s i op (List.mem_append_right _ (List.mem_singleton_self _))
    exact (onShard_pairsAt hop (Or.inr hget)).trans (hrest j hj)

theorem length_of_path (h : (lts w m c).Path (start c) tr s) :
    s.cache.shards.length = c.shards.length :=
  h.invariant (P := fun _ s => s.cache.shards.length = c.shards.length) rfl
    fun _ _ _ _ _ hi hstep => (Step.length_eq hstep).trans hi

/-- 他の thread が読むだけなら、反復は始めの対をそのまま返す。 -/
theorem yields_unmodified (h : (lts w m c).Path (start c) tr s) (hf : s.Finished)
    (hu : Unmodified tr) : yields tr = c.iter := by
  obtain ⟨hall, hy⟩ := complete_of_finished h hf
  rw [hy, ← flatMap_pairsAt c, ← length_of_path h, ← hall, List.flatMap_map]
  exact List.flatMap_congr fun x hx => (untouched h hu).2 x hx

end Iteration

/-! ## 所有する反復と読み出し専用の view -/

namespace OwningIter

variable {it : OwningIter K V}

/-- まだ返していない対。 -/
def left (it : OwningIter K V) : List (K × V) :=
  ((it.current.getD []).map fun p => (p.1, p.2.value))
    ++ (it.map.shards.drop it.shardI).flatMap ShardData.pairs

omit [DecidableEq K] in
theorem takeTable_left {σ : ShardData K V} (hσ : it.map.shards[it.shardI]? = some σ)
    (hc : (it.current.getD []).map (fun p => (p.1, p.2.value)) = []) :
    (it.takeTable σ).left = it.left := by
  obtain ⟨hlt, rfl⟩ := List.getElem?_eq_some_iff.mp hσ
  unfold left
  rw [hc, List.nil_append, List.drop_eq_getElem_cons hlt, List.flatMap_cons]
  show ((it.map.shards[it.shardI].map.slots.map _).map _)
    ++ ((it.map.shards.set it.shardI _).drop (it.shardI + 1)).flatMap _ = _
  rw [List.drop_set_of_lt (Nat.lt_succ_self _), List.map_map]
  rfl

omit [DecidableEq K] in
theorem current_exhausted
    (h : ∀ k entry rest, it.current = some ((k, entry) :: rest) → False) :
    (it.current.getD []).map (fun p => (p.1, p.2.value)) = [] := by
  cases hc : it.current with
  | none => rfl
  | some l =>
    cases l with
    | nil => rfl
    | cons p rest => exact (h p.1 p.2 rest hc).elim

omit [DecidableEq K] in
/-- `next` は、まだ返していない対の先頭を返す。 -/
theorem next_left (it : OwningIter K V) (hle : it.shardI ≤ it.map.shards.length) :
    (it.left = [] ∧ it.next = none) ∨
      ∃ p it', it.next = some (p, it') ∧ it.left = p :: it'.left ∧
        it'.shardI ≤ it'.map.shards.length := by
  fun_induction next it with
  | case1 it k entry rest hc =>
    refine Or.inr ⟨_, _, rfl, ?_, hle⟩
    unfold left
    rw [hc]
    rfl
  | case2 it hend hc =>
    refine Or.inl ⟨?_, rfl⟩
    unfold left
    rw [current_exhausted hc, hend, List.drop_length]
    rfl
  | case3 it hne hσ =>
    have hge := List.getElem?_eq_none_iff.mp hσ
    omega
  | case4 it hne σ hσ hc ih =>
    have hlt := (List.getElem?_eq_some_iff.mp hσ).1
    have hle' : (it.takeTable σ).shardI ≤ (it.takeTable σ).map.shards.length := by
      show it.shardI + 1 ≤ (it.map.shards.set _ _).length
      rw [List.length_set]
      exact hlt
    rw [← takeTable_left hσ (current_exhausted hc)]
    exact ih hle'

omit [DecidableEq K] in
theorem drains_left (n : Nat) (it : OwningIter K V) (hn : it.left.length = n)
    (hle : it.shardI ≤ it.map.shards.length) (l : List (K × V)) : it.Drains l ↔ l = it.left := by
  induction n generalizing it l with
  | zero =>
    have hnil := List.length_eq_zero_iff.mp hn
    rcases next_left it hle with ⟨-, hnone⟩ | ⟨p, it', -, hcons, -⟩
    · rw [hnil]
      constructor
      · intro h
        cases h with
        | done => rfl
        | item hsome => cases hnone.symm.trans hsome
      · rintro rfl
        exact .done hnone
    · cases hnil.symm.trans hcons
  | succ n ih =>
    rcases next_left it hle with ⟨hnil, -⟩ | ⟨p, it', hsome, hcons, hle'⟩
    · rw [hnil] at hn
      cases hn
    · rw [hcons, List.length_cons] at hn
      have hrest := ih it' (Nat.succ.inj hn) hle'
      rw [hcons]
      constructor
      · intro h
        cases h with
        | done hnone => cases hnone.symm.trans hsome
        | item hsome' hdrain =>
          cases hsome.symm.trans hsome'
          rw [(hrest _).mp hdrain]
      · rintro rfl
        exact .item hsome ((hrest _).mpr rfl)

omit [DecidableEq K] in
/-- `OwningIter` は必ず終わり、`iter` と同じ対を返す。 -/
theorem drains_iter (c : NeoCache K V) (l : List (K × V)) : (new c).Drains l ↔ l = c.iter :=
  drains_left _ (new c) rfl (Nat.zero_le _) l

end OwningIter

omit [DecidableEq K] in
theorem readOnlyView_iter (c : NeoCache K V) : ReadOnlyView.iter ⟨c⟩ = c.iter := by
  rw [← Iteration.flatMap_pairsAt]
  unfold ReadOnlyView.iter pairsAt
  congr 1
  funext i
  cases c.shards[i]? <;> rfl

omit [DecidableEq K] in
theorem iter_length (c : NeoCache K V) : c.iter.length = c.len := by
  unfold NeoCache.iter NeoCache.len
  rw [List.length_flatMap]
  congr 1
  refine List.map_congr_left fun σ _ => ?_
  exact List.length_map _

/-! ## まとめ -/

/-- 記録 `tr` を残して `s` に着いた反復について言えること。 -/
structure ExactlyOnce (w : Word) (m : LockMode) (c : NeoCache K V) (tr : IterTrace K V)
    (s : Iteration K V) : Prop where
  progress : s.Finished ∨ ∃ e s', Iteration.Step w m s (.next e) s'
  distinct : ((yields tr).map Prod.fst).Nodup
  snapshot : yields tr <+: (visits tr).flatMap Prod.snd
  complete : s.Finished → (visits tr).map Prod.fst = List.range c.shards.length ∧
    yields tr = (visits tr).flatMap Prod.snd
  live : s.Finished → ∀ k, (∀ x ∈ tr, x.1.cache.contents k ≠ none) →
    ((yields tr).map Prod.fst).count k = 1
  altered : ∀ f, AlterAll f 0 (own tr) →
    writes tr = (yields tr).mapIdx (fun n p => (p.1, f n p.1 p.2)) ∧
    (∀ s₁ i k x, (s₁, .write i k x) ∈ tr → ∃ n v, x = f n k v ∧ s₁.cache.contents k = some v) ∧
    (s.Finished → ∀ k, (∀ x ∈ tr, x.1.cache.contents k ≠ none) →
      ((writes tr).map Prod.fst).count k = 1)
  unmodified : s.Finished → Unmodified tr → yields tr = c.iter

/--
反復は、他の thread がどこに割り込んでも一度ずつ返す。

反復する thread が動き続ける限り、反復は終わる。途中のどの時点でも、返した key は重ならず、返した
対は、shard を番号の順に訪ねて lock を取った時点の対を並べたものの先頭である。終わったときには
全ての shard を訪ね、取った対を残らず返しているので、始めから終わりまで表にある key はちょうど
一度返る。`alter_all` は、返った対のその時点の値に一度ずつ closure を施す。

他の thread が読むだけなら、四つの反復はどれも `len` 個の同じ対を返す。
-/
theorem iteration_exactlyOnce (m : LockMode) (hsize : cap < w.size)
    (hreq : NeoCache.Accepted w requested) (hr : CacheReachable w cap hasher requested c) :
    (∀ (run : Nat → Iteration K V) (act : Nat → IterAct K V), run 0 = .start c →
      (∀ n, Iteration.Step w m (run n) (act n) (run (n + 1))) →
      (∀ n, ∃ j ≥ n, (run j).Finished ∨ ∃ e, act j = .next e) → ∃ n, (run n).Finished) ∧
    (∀ tr s, (Iteration.lts w m c).Path (.start c) tr s → ExactlyOnce w m c tr s) ∧
    (∀ l, (OwningIter.new c).Drains l ↔ l = c.iter) ∧ ReadOnlyView.iter ⟨c⟩ = c.iter ∧
    c.iter.length = c.len := by
  obtain ⟨i, -, -, hl⟩ := NeoCache.layout_ok hsize hreq
  refine ⟨fun run act => Iteration.finishes, fun tr s h => ?_, OwningIter.drains_iter c,
    readOnlyView_iter c, iter_length c⟩
  have hlive := fun hf k => Iteration.yields_once (k := k) hl hsize hreq hr h hf
  refine ⟨?_, Iteration.yields_nodup hl hr h, ?_, fun hf => ?_, hlive, fun f ha => ?_,
    Iteration.yields_unmodified h⟩
  · cases hs : s.iter.step s.cache with
    | none => exact Or.inl hs
    | some p => exact Or.inr ⟨p.1, _, .next hs⟩
  · have hflow := (Iteration.tracked_of_path h).flow
    rw [List.append_assoc] at hflow
    exact ⟨_, hflow⟩
  · rw [← Iteration.length_of_path h]
    exact Iteration.complete_of_finished h hf
  · have hwrites : writes tr = (yields tr).mapIdx fun n p => (p.1, f n p.1 p.2) := by
      have hscript := ha.written_eq
      rw [← writes_eq_own, ← yields_eq_own] at hscript
      simpa only [Nat.zero_add] using hscript
    refine ⟨hwrites, fun s₁ i k x hmem => Iteration.alterAll_write hl hr h ha hmem,
      fun hf k hk => ?_⟩
    have hkeys : (writes tr).map Prod.fst = (yields tr).map Prod.fst := by
      refine List.ext_getElem? fun n => ?_
      rw [hwrites, List.getElem?_map, List.getElem?_mapIdx, List.getElem?_map, Option.map_map]
      rfl
    rw [hkeys]
    exact hlive hf k hk

/-- 番号 0 の shard に key を一つ入れた cache。 -/
def oneEntry : NeoCache Nat Nat :=
  ⟨63, [(ShardData.new 2).register 0 0 7 .small, .new 2], UInt64.ofNat, 4⟩

/-- 番号 0 の shard を読んでいる間に、他の thread が番号 1 の shard に入れた cache。 -/
def otherEntry : NeoCache Nat Nat :=
  { oneEntry with shards := [(ShardData.new 2).register 0 0 7 .small,
      (ShardData.new 2).register (UInt64.ofNat (2 ^ 56)) (2 ^ 56) 9 .small] }

theorem oneEntry_reachable : CacheReachable ⟨64, by decide⟩ 4 UInt64.ofNat 2 oneEntry := by
  have hnew : NeoCache.withCapacityAndHasherAndShardAmount ⟨64, by decide⟩ 4 UInt64.ofNat 2
      = .ok (⟨63, [.new 2, .new 2], UInt64.ofNat, 4⟩ : NeoCache Nat Nat) := rfl
  exact .step (.init hnew) (a := (0, .key 0 (.insert 7))) ⟨rfl, .value none, rfl⟩

theorem iteration_exactlyOnce_raced : ∃ (tr : IterTrace Nat Nat) (s : Iteration Nat Nat),
    (CacheReachable ⟨64, by decide⟩ 4 UInt64.ofNat 2 oneEntry ∧
      (Iteration.lts ⟨64, by decide⟩ .shared oneEntry).Path (.start oneEntry) tr s ∧ s.Finished) ∧
    ExactlyOnce ⟨64, by decide⟩ .shared oneEntry tr s ∧
    yields tr = [(0, 7), (2 ^ 56, 9)] := by
  have hinsert : Iteration.Step ⟨64, by decide⟩ .shared
      (⟨oneEntry, ⟨1, some ⟨0, 1⟩, none⟩, [(0, 0)]⟩ : Iteration Nat Nat)
      (.other 1 (.key (2 ^ 56) (.insert 9)))
      ⟨otherEntry, ⟨1, some ⟨0, 1⟩, none⟩, [(0, 0)]⟩ := by
    refine .other rfl (Or.inl ?_) rfl
    rintro (h | ⟨_, h⟩ | ⟨_, h⟩)
    · cases h
    · cases h
    · simp at h
  have hpath := ((Iteration.advance_path (w := ⟨64, by decide⟩) (m := .shared) (c := oneEntry) 3
    (.start oneEntry)).snoc hinsert).append (Iteration.advance_path 3 _)
  exact ⟨_, _, ⟨oneEntry_reachable, hpath, rfl⟩,
    (iteration_exactlyOnce .shared (by decide) (by decide) oneEntry_reachable).2.1 _ _ hpath, rfl⟩

end Neocache
