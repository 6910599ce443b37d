import Mathlib.Data.Prod.Lex
import Mathlib.Order.WellFounded
import Neocache.Cache.Iter
import Neocache.Properties.Routing

/-!
# 反復は一度ずつ返す

他の thread がどこに割り込んでも、`Iter` と `IterMut` は終わり、shard ごとに lock を取った時点の対を
一度ずつ返す（`iteration_exactlyOnce`）。

不変条件は一本の等式である（`Tracked.flow`）。返した対、いまの表の残り、取ったばかりの表を並べた
ものが、lock を取った時点の対を並べたものに等しい。残りの表が動かないのは lock を持っているから
であり、返した item を通した書き込みが残りに触れないのは、表の中で key が重ならないからである。
異なる shard の間で key が重ならないことは、key が hash の選ぶ shard にしか入らないことによる。
-/

namespace Neocache

open Infra Relation ShardData IterTrace

variable {K V : Type*} [DecidableEq K] {w : Word} {m : LockMode} {cap requested : Nat}
  {hasher : K → UInt64} {c c' : NeoCache K V} {σ : ShardData K V} {s s' : Iteration K V}
  {tr : IterTrace K V} {a : IterAct K V}

/-! ## 表にある対 -/

omit [DecidableEq K] in
theorem pairsAt_of_shard {i : Nat} (hσ : c.shards[i]? = some σ) : pairsAt c i = σ.pairs := by
  unfold pairsAt
  rw [hσ]
  rfl

omit [DecidableEq K] in
theorem pairsAt_set {i j : Nat} (hi : i < c.shards.length) :
    pairsAt { c with shards := c.shards.set i σ } j
      = if i = j then σ.pairs else pairsAt c j := by
  unfold pairsAt
  rw [List.getElem?_set]
  by_cases h : i = j
  · subst h
    rw [if_pos rfl, if_pos rfl, if_pos hi]
    rfl
  · rw [if_neg h, if_neg h]

omit [DecidableEq K] in
theorem nodup_pairsAt (c : NeoCache K V) (i : Nat) : ((pairsAt c i).map Prod.fst).Nodup := by
  unfold pairsAt
  cases c.shards[i]? with
  | none => exact List.nodup_nil
  | some σ =>
    show ((σ.map.slots.map fun s => (s.key, s.val.value)).map Prod.fst).Nodup
    rw [List.map_map]
    exact σ.map.nodup_keys

/-- 値を変えない書き換えでは、対は動かない。 -/
theorem updateEntry_pairs (k : K) {f : CacheEntry V → CacheEntry V}
    (hf : ∀ e, (f e).value = e.value) : (σ.updateEntry k f).pairs = σ.pairs := by
  unfold pairs updateEntry Table.modify
  rw [List.map_map]
  refine List.map_congr_left fun s _ => ?_
  simp only [Function.comp]
  split
  · rw [hf]
  · rfl

theorem setValue_pairs (k : K) (v : V) :
    (σ.setValue k v).pairs = σ.pairs.map fun p => if p.1 = k then (p.1, v) else p := by
  unfold pairs setValue updateEntry Table.modify
  rw [List.map_map, List.map_map]
  refine List.map_congr_left fun s _ => ?_
  simp only [Function.comp]
  split <;> rfl

theorem get_pairs (h : UInt64) (k : K) : (σ.get h k).2.pairs = σ.pairs := by
  unfold ShardData.get
  split
  · exact updateEntry_pairs k CacheEntry.bumpFreq_value
  · rfl

/-- 一つの shard への操作は、他の shard の対を動かさない。 -/
theorem onShard_pairsAt {i j : Nat} {op : ShardOp K V} {r : Ret K V}
    (h : c.onShard i op = .ok (r, c')) (hj : j ≠ i ∨ ∃ k, op = .key k .get) :
    pairsAt c' j = pairsAt c j := by
  obtain ⟨σ, σ', hσ, hexec, rfl⟩ := onShard_ok h
  rw [pairsAt_set (List.getElem?_eq_some_iff.mp hσ).1]
  split
  · next hij =>
    subst hij
    rcases hj with hj | ⟨k, rfl⟩
    · exact (hj rfl).elim
    · rw [pairsAt_of_shard hσ]
      have hget : σ.get (c.hasher k) k = (r, σ') := Except.ok.inj hexec
      rw [show σ' = (σ.get (c.hasher k) k).2 from (congrArg Prod.snd hget).symm]
      exact get_pairs _ _
  · rfl

/-! ## 一歩 -/

namespace Iteration

/-- いまの表のまだ返していない対。 -/
def remaining (s : Iteration K V) : List (K × V) :=
  s.iter.current.elim [] fun g => (pairsAt s.cache g.shard).drop g.pos

/-- 取ったばかりで `current` に入れていない表の対。 -/
def pending (s : Iteration K V) : List (K × V) := s.iter.guard.elim [] (pairsAt s.cache)

omit [DecidableEq K] in
/-- `RawIter` が次に返すのは、残りの先頭である。 -/
theorem peek_eq (s : Iteration K V) :
    s.iter.peek s.cache = s.iter.current.bind fun g => s.remaining.head?.map fun p => (g, p) := by
  unfold Iter.peek remaining
  cases s.iter.current with
  | none => rfl
  | some g =>
    show ((s.cache.shards[g.shard]?).bind fun σ => _) = ((pairsAt s.cache g.shard).drop g.pos).head?.map _
    rw [List.head?_drop]
    unfold pairsAt
    cases s.cache.shards[g.shard]? with
    | none => rfl
    | some σ =>
      show (σ.map.slots[g.pos]?).map _ = ((σ.map.slots.map _)[g.pos]?).map _
      rw [List.getElem?_map, Option.map_map]
      rfl

/-- loop の一歩は、置き換え・返却・lock の取得のどれかである。 -/
inductive Next (s : Iteration K V) : IterEvent K V → Iter → Prop
  | store {i : Nat} (hg : s.iter.guard = some i) :
      Next s .store ⟨s.iter.shardI + 1, some ⟨i, 0⟩, none⟩
  | yield {g : GuardIter} {k : K} {v : V} {rest : List (K × V)} (hg : s.iter.guard = none)
      (hc : s.iter.current = some g) (hr : s.remaining = (k, v) :: rest) :
      Next s (.yield g.shard k v) { s.iter with current := some ⟨g.shard, g.pos + 1⟩ }
  | lock (hg : s.iter.guard = none) (hr : s.remaining = [])
      (hne : s.iter.shardI ≠ s.cache.shards.length) :
      Next s (.lock s.iter.shardI) { s.iter with guard := some s.iter.shardI }

omit [DecidableEq K] in
theorem next_of_step {e : IterEvent K V} {it : Iter} (h : s.iter.step s.cache = some (e, it)) :
    Next s e it := by
  unfold Iter.step at h
  split at h
  · next i hg =>
    cases h
    exact .store hg
  · next hg =>
    rw [peek_eq] at h
    cases hc : s.iter.current with
    | none =>
      have hr : s.remaining = [] := by
        unfold remaining
        rw [hc]
        rfl
      rw [hc] at h
      simp only [Option.bind_none] at h
      split at h
      · cases h
      · next hne =>
        cases h
        rw [← hc]
        exact .lock hg hr hne
    | some g =>
      rw [hc] at h
      simp only [Option.bind_some] at h
      cases hr : s.remaining with
      | nil =>
        rw [hr] at h
        simp only [List.head?_nil, Option.map_none] at h
        split at h
        · cases h
        · next hne =>
          cases h
          rw [← hc]
          exact .lock hg hr hne
      | cons p rest =>
        rw [hr] at h
        simp only [List.head?_cons, Option.map_some, Option.some.injEq] at h
        cases h
        exact .yield hg hc hr

end Iteration

/-- lock を取った時点で表にあった対。 -/
def IterEvent.taken (c : NeoCache K V) : IterEvent K V → List (K × V)
  | .lock i => pairsAt c i
  | _ => []

/-- 取った lock の番号。 -/
def IterEvent.locks : IterEvent K V → List Nat
  | .lock i => [i]
  | _ => []

namespace Iteration

omit [DecidableEq K] in
theorem pending_of_none (h : s.iter.guard = none) : s.pending = [] := by
  unfold pending
  rw [h]
  rfl

omit [DecidableEq K] in
/-- bucket を一つ進めると、残りの先頭が落ちる。 -/
theorem remaining_succ {g : GuardIter} {p : K × V} {rest : List (K × V)}
    (hc : s.iter.current = some g) (hr : s.remaining = p :: rest) (items : List (Nat × K)) :
    remaining ⟨s.cache, { s.iter with current := some ⟨g.shard, g.pos + 1⟩ }, items⟩ = rest := by
  have hdrop : (pairsAt s.cache g.shard).drop g.pos = p :: rest := by
    rw [← hr]
    unfold remaining
    rw [hc]
    rfl
  show (pairsAt s.cache g.shard).drop (g.pos + 1) = rest
  rw [← List.tail_drop, hdrop]
  rfl

omit [DecidableEq K] in
/-- loop の一歩は、取った対を末尾に足し、先頭の対を返すだけである。 -/
theorem Next.flow {e : IterEvent K V} {it : Iter} (h : Next s e it) (items : List (Nat × K))
    (hguard : ∀ i, s.iter.guard = some i → s.remaining = []) :
    s.remaining ++ s.pending ++ e.taken s.cache
      = e.emitted ++ (remaining ⟨s.cache, it, items⟩ ++ pending ⟨s.cache, it, items⟩) := by
  cases h with
  | @store i hg =>
    have hpend : s.pending = pairsAt s.cache i := by
      unfold pending
      rw [hg]
      rfl
    rw [hguard i hg, hpend]
    show pairsAt s.cache i ++ [] = pairsAt s.cache i ++ []
    rfl
  | @yield g k v rest hg hc hr =>
    rw [remaining_succ hc hr, hr]
    show (k, v) :: rest ++ s.pending ++ [] = (k, v) :: (rest ++ s.pending)
    rw [List.append_nil, List.cons_append]
  | lock hg hr =>
    rw [pending_of_none hg, hr, List.append_nil]
    show pairsAt s.cache s.iter.shardI = s.remaining ++ pairsAt s.cache s.iter.shardI
    rw [hr, List.nil_append]

omit [DecidableEq K] in
/-- lock は番号の順に取る。 -/
theorem Next.unlocked {e : IterEvent K V} {it : Iter} (h : Next s e it) :
    List.range it.unlocked = List.range s.iter.unlocked ++ e.locks := by
  unfold Iter.unlocked
  cases h with
  | store hg =>
    rw [hg]
    exact (List.append_nil _).symm
  | yield => exact (List.append_nil _).symm
  | lock hg =>
    rw [hg]
    exact List.range_succ

omit [DecidableEq K] in
/-- 終わったときは、lock を取りかけておらず、残りもなく、全ての shard を過ぎている。 -/
theorem Finished.exhausted (h : s.Finished) :
    s.iter.guard = none ∧ s.remaining = [] ∧ s.iter.shardI = s.cache.shards.length := by
  unfold Finished Iter.step at h
  split at h
  · cases h
  · next hg =>
    rw [peek_eq] at h
    split at h
    · cases h
    · next hp =>
      split at h
      · next hend =>
        refine ⟨hg, ?_, hend⟩
        cases hc : s.iter.current with
        | none =>
          unfold remaining
          rw [hc]
          rfl
        | some g =>
          rw [hc] at hp
          cases hr : s.remaining with
          | nil => rfl
          | cons p rest =>
            rw [hr] at hp
            cases hp
      · cases h

/-! ## cache の側 -/

section Cache

variable {l : NeoCache.Layout} (hl : NeoCache.layout w cap requested = .ok l)

include hl

/-- 返した item を通した書き込みは、他の操作でも行える書き込みである。 -/
theorem reachable_write (h : CacheReachable w cap hasher requested c) {i : Nat}
    (hσ : c.shards[i]? = some σ) (k : K) (v : V) :
    CacheReachable w cap hasher requested
      { c with shards := c.shards.set i (σ.setValue k v) } := by
  cases hk : σ.map.get? k with
  | none =>
    have hsame : σ.setValue k v = σ := by
      unfold setValue updateEntry
      rw [Table.modify_of_not_mem hk]
    obtain ⟨hlt, rfl⟩ := List.getElem?_eq_some_iff.mp hσ
    rw [hsame, List.set_getElem_self hlt]
    exact h
  | some e =>
    have hc := h.laid hl
    have hlive : σ.lookup k ≠ none := by
      rw [Ne, lookup_eq_none, hk]
      simp
    refine .step (a := (i, .key k (.andModify fun _ => v))) h
      ⟨h.routed hl i σ hσ k hlive, .unit, ?_⟩
    have hexec := exec_present (hc.shards i σ hσ).linked hk (.andModify fun _ => v)
    rw [← hc.hasher_eq] at hexec
    simp only [NeoCache.onShard, hσ, ShardOp.exec, hexec, Except.map]
    rw [setValue_eq hk]
    rfl

/-- 反復の途中でも、cache は到達可能である。 -/
theorem Step.reachable (h : Step w m s a s') (hr : CacheReachable w cap hasher requested s.cache) :
    CacheReachable w cap hasher requested s'.cache := by
  cases h with
  | next => exact hr
  | write v hm hitem hσ => exact reachable_write hl hr hσ _ v
  | drop => exact hr
  | @other i op r c htarget hfree hstep => exact .step (a := (i, op)) hr ⟨htarget, r, hstep⟩

/-- 記録に残る cache は、どれも到達可能である。 -/
theorem reachable_of_path (hr : CacheReachable w cap hasher requested c)
    (h : (lts w m c).Path (start c) tr s) :
    CacheReachable w cap hasher requested s.cache ∧
      ∀ x ∈ tr, CacheReachable w cap hasher requested x.1.cache := by
  refine h.invariant (P := fun tr s => CacheReachable w cap hasher requested s.cache ∧
    ∀ x ∈ tr, CacheReachable w cap hasher requested x.1.cache) ⟨hr, by simp⟩ ?_
  rintro tr s a s' - ⟨hs, htr⟩ hstep
  refine ⟨Step.reachable hl hstep hs, fun x hx => ?_⟩
  rcases List.mem_append.mp hx with hx | hx
  · exact htr x hx
  · rw [List.mem_singleton.mp hx]
    exact hs

end Cache

/-- 一歩で shard の数は変わらない。 -/
theorem Step.length_eq (h : Step w m s a s') :
    s'.cache.shards.length = s.cache.shards.length := by
  cases h with
  | next => rfl
  | write => exact List.length_set
  | drop => rfl
  | other htarget hfree hstep =>
    obtain ⟨σ, σ', -, -, rfl⟩ := onShard_ok hstep
    exact List.length_set

/-! ## 記録の不変条件 -/

/-- 反復が記録どおりに進んでいる。 -/
structure Tracked (tr : IterTrace K V) (s : Iteration K V) : Prop where
  flow : yields tr ++ s.remaining ++ s.pending = (visits tr).flatMap Prod.snd
  order : (visits tr).map Prod.fst = List.range s.iter.unlocked
  guard : ∀ i, s.iter.guard = some i → i = s.iter.shardI ∧ s.remaining = []
  current : ∀ g, s.iter.current = some g → g.shard + 1 = s.iter.shardI
  bound : s.iter.unlocked ≤ s.cache.shards.length
  items : ∀ i k, (i, k) ∈ s.items → i < s.iter.shardI ∧
    ∀ pos, s.iter.current = some ⟨i, pos⟩ → k ∉ s.remaining.map Prod.fst

omit [DecidableEq K] in
theorem tracked_start (c : NeoCache K V) : Tracked [] (start c) where
  flow := rfl
  order := rfl
  guard _ h := by cases h
  current _ h := by cases h
  bound := Nat.zero_le _
  items _ _ h := (List.not_mem_nil h).elim

omit [DecidableEq K] in
theorem yields_snoc (tr : IterTrace K V) (s : Iteration K V) (e : IterEvent K V) :
    yields (tr ++ [(s, .next e)]) = yields tr ++ e.emitted := by
  unfold yields
  rw [List.filterMap_append]
  cases e <;> rfl

omit [DecidableEq K] in
theorem visits_snoc (tr : IterTrace K V) (s : Iteration K V) (e : IterEvent K V) :
    visits (tr ++ [(s, .next e)]) = visits tr ++ e.locks.map fun i => (i, pairsAt s.cache i) := by
  unfold visits
  rw [List.filterMap_append]
  cases e <;> rfl

omit [DecidableEq K] in
/-- 反復の他の動きは、返した対にも取った lock にも現れない。 -/
theorem snoc_other (tr : IterTrace K V) (s : Iteration K V) (ha : ∀ e, a ≠ .next e) :
    yields (tr ++ [(s, a)]) = yields tr ∧ visits (tr ++ [(s, a)]) = visits tr := by
  unfold yields visits
  rw [List.filterMap_append, List.filterMap_append]
  cases a with
  | next e => exact (ha e rfl).elim
  | _ => exact ⟨List.append_nil _, List.append_nil _⟩

omit [DecidableEq K] in
/-- 反復の残りが動かない一歩は、記録との対応を保つ。 -/
theorem Tracked.keep (h : Tracked tr s) {cache : NeoCache K V} {items : List (Nat × K)}
    (hitems : items ⊆ s.items) (hlen : cache.shards.length = s.cache.shards.length)
    (hr : Iteration.remaining ⟨cache, s.iter, items⟩ = s.remaining)
    (hp : Iteration.pending ⟨cache, s.iter, items⟩ = s.pending)
    (hy : yields (tr ++ [(s, a)]) = yields tr) (hv : visits (tr ++ [(s, a)]) = visits tr) :
    Tracked (tr ++ [(s, a)]) ⟨cache, s.iter, items⟩ where
  flow := by rw [hy, hv, hr, hp]; exact h.flow
  order := by rw [hv]; exact h.order
  guard i hi := by rw [hr]; exact h.guard i hi
  current := h.current
  bound := by rw [hlen]; exact h.bound
  items i k hi := by rw [hr]; exact h.items i k (hitems hi)

omit [DecidableEq K] in
/-- loop の一歩の後も、返した item の key は残りに無い。 -/
theorem Tracked.items_next (h : Tracked tr s) {e : IterEvent K V} {it : Iter} (hn : Next s e it)
    {i : Nat} {k : K} (hi : (i, k) ∈ itemsAfter s.items e) :
    i < it.shardI ∧ ∀ pos, it.current = some ⟨i, pos⟩ →
      k ∉ (remaining ⟨s.cache, it, itemsAfter s.items e⟩).map Prod.fst := by
  cases hn with
  | store hg =>
    obtain ⟨rfl, -⟩ := h.guard _ hg
    obtain ⟨hlt, -⟩ := h.items i k hi
    refine ⟨Nat.lt_succ_of_lt hlt, fun pos hc => ?_⟩
    have heq : s.iter.shardI = i := congrArg GuardIter.shard (Option.some.inj hc)
    omega
  | @yield g k₀ v rest hg hc hr =>
    have hnodup : (s.remaining.map Prod.fst).Nodup := by
      unfold remaining
      rw [hc]
      exact (nodup_pairsAt s.cache g.shard).sublist ((List.drop_sublist _ _).map _)
    rw [hr, List.map_cons] at hnodup
    rw [remaining_succ hc hr]
    rcases List.mem_cons.mp hi with heq | hi
    · -- 返したばかりの key は、同じ表の残りには無い
      cases heq
      exact ⟨Nat.lt_of_succ_le (h.current g hc).le, fun _ _ => (List.nodup_cons.mp hnodup).1⟩
    · obtain ⟨hlt, hfar⟩ := h.items i k hi
      refine ⟨hlt, fun pos hpos hmem => ?_⟩
      have hshard : g.shard = i := congrArg GuardIter.shard (Option.some.inj hpos)
      have hcur : s.iter.current = some ⟨i, g.pos⟩ := by rw [hc, ← hshard]
      refine hfar g.pos hcur ?_
      rw [hr]
      exact List.mem_cons_of_mem _ hmem
  | lock => exact h.items i k hi

omit [DecidableEq K] in
/-- loop の一歩は記録との対応を保つ。 -/
theorem Tracked.next (h : Tracked tr s) {e : IterEvent K V} {it : Iter} (hn : Next s e it) :
    Tracked (tr ++ [(s, .next e)]) ⟨s.cache, it, itemsAfter s.items e⟩ := by
  have hflow := hn.flow (itemsAfter s.items e) fun i hg => (h.guard i hg).2
  have hbound := h.bound
  refine ⟨?_, ?_, fun i hi => ?_, fun g hc => ?_, ?_, fun i k hi => h.items_next hn hi⟩
  · have htaken : (e.locks.map fun i => (i, pairsAt s.cache i)).flatMap Prod.snd
        = e.taken s.cache := by
      cases e with
      | lock => exact List.append_nil _
      | _ => rfl
    rw [yields_snoc, visits_snoc, List.flatMap_append, htaken, ← h.flow]
    simp only [List.append_assoc] at hflow ⊢
    rw [hflow]
  · rw [visits_snoc, List.map_append, List.map_map, h.order, hn.unlocked]
    show _ ++ e.locks.map id = _
    rw [List.map_id]
  · cases hn with
    | store => cases hi
    | yield hg => cases hg.symm.trans hi
    | lock hg hr => exact ⟨(Option.some.inj hi).symm, hr⟩
  · cases hn with
    | store hg =>
      cases hc
      rw [(h.guard _ hg).1]
    | @yield g₀ _ _ _ hg hc' =>
      cases hc
      exact h.current g₀ hc'
    | lock => exact h.current g hc
  · unfold Iter.unlocked at hbound ⊢
    cases hn with
    | store hg =>
      rw [hg] at hbound
      exact hbound
    | yield => exact hbound
    | lock hg hr hne =>
      rw [hg] at hbound
      exact lt_of_le_of_ne hbound hne

/-- 返した item を通した書き込みは、残りの対に触れない。 -/
theorem Tracked.write_pairs (h : Tracked tr s) {i : Nat} {k : K} (hitem : (i, k) ∈ s.items)
    (hσ : s.cache.shards[i]? = some σ) (v : V) :
    Iteration.remaining ⟨{ s.cache with shards := s.cache.shards.set i (σ.setValue k v) }, s.iter,
        s.items⟩ = s.remaining ∧
      Iteration.pending ⟨{ s.cache with shards := s.cache.shards.set i (σ.setValue k v) }, s.iter,
        s.items⟩ = s.pending := by
  have hlt := (List.getElem?_eq_some_iff.mp hσ).1
  obtain ⟨hi, hfar⟩ := h.items i k hitem
  constructor
  · unfold remaining
    cases hc : s.iter.current with
    | none => rfl
    | some g =>
      show (pairsAt _ g.shard).drop g.pos = (pairsAt s.cache g.shard).drop g.pos
      rw [pairsAt_set hlt]
      split
      · next heq =>
        subst heq
        rw [setValue_pairs, pairsAt_of_shard hσ, ← List.map_drop]
        -- 書く key は残りに無いので、書き換えは残りを動かさない
        have hkeep : ∀ p ∈ σ.pairs.drop g.pos, (if p.1 = k then (p.1, v) else p) = id p := by
          intro p hp
          refine if_neg fun hk => hfar g.pos hc ?_
          rw [← hk]
          refine List.mem_map_of_mem ?_
          unfold remaining
          rw [hc]
          show p ∈ (pairsAt s.cache g.shard).drop g.pos
          rw [pairsAt_of_shard hσ]
          exact hp
        rw [List.map_congr_left hkeep, List.map_id]
      · rfl
  · unfold pending
    cases hg : s.iter.guard with
    | none => rfl
    | some j =>
      have hj := (h.guard j hg).1
      show pairsAt _ j = pairsAt s.cache j
      rw [pairsAt_set hlt, if_neg (by omega)]

/-- 他の thread は、反復が持つ shard の対を動かせない。 -/
theorem other_pairs {i : Nat} {op : ShardOp K V} {r : Ret K V}
    (hfree : ¬ s.Holds i ∨ m = .shared ∧ ∃ k, op = .key k .get)
    (h : s.cache.onShard i op = .ok (r, c)) :
    Iteration.remaining ⟨c, s.iter, s.items⟩ = s.remaining ∧
      Iteration.pending ⟨c, s.iter, s.items⟩ = s.pending := by
  have hheld : ∀ j, s.Holds j → pairsAt c j = pairsAt s.cache j := by
    intro j hj
    refine onShard_pairsAt h ?_
    rcases hfree with hfree | ⟨-, hget⟩
    · exact Or.inl fun heq => hfree (heq ▸ hj)
    · exact Or.inr hget
  constructor
  · unfold remaining
    cases hc : s.iter.current with
    | none => rfl
    | some g =>
      show (pairsAt c g.shard).drop g.pos = (pairsAt s.cache g.shard).drop g.pos
      rw [hheld g.shard (Or.inr (Or.inl ⟨g.pos, hc⟩))]
  · unfold pending
    cases hg : s.iter.guard with
    | none => rfl
    | some j => exact hheld j (Or.inl hg)

theorem Tracked.step (h : Tracked tr s) (hstep : Step w m s a s') :
    Tracked (tr ++ [(s, a)]) s' := by
  have hlen := hstep.length_eq
  have hsame := snoc_other (a := a) tr s
  cases hstep with
  | next hn => exact h.next (next_of_step hn)
  | write v hm hitem hσ =>
    obtain ⟨hy, hv⟩ := hsame (by simp)
    obtain ⟨hr, hp⟩ := h.write_pairs hitem hσ v
    exact h.keep (List.Subset.refl _) hlen hr hp hy hv
  | drop hitem =>
    obtain ⟨hy, hv⟩ := hsame (by simp)
    exact h.keep List.erase_subset rfl rfl rfl hy hv
  | other htarget hfree hop =>
    obtain ⟨hy, hv⟩ := hsame (by simp)
    obtain ⟨hr, hp⟩ := other_pairs hfree hop
    exact h.keep (List.Subset.refl _) hlen hr hp hy hv

theorem tracked_of_path (h : (lts w m c).Path (start c) tr s) : Tracked tr s :=
  h.invariant (tracked_start c) fun _ _ _ _ _ ht hstep => ht.step hstep

/-! ## 一度ずつ -/

section Once

variable {l : NeoCache.Layout} (hl : NeoCache.layout w cap requested = .ok l)

/-- 到達可能な cache は、どれも同じ番号に key を割り当てる。 -/
theorem shardIndex_eq (hl : NeoCache.layout w cap requested = .ok l)
    (hr : CacheReachable w cap hasher requested c) (hr' : CacheReachable w cap hasher requested c')
    (k : K) : c'.shardIndex w k = c.shardIndex w k := by
  have hc := hr.laid hl
  have hc' := hr'.laid hl
  unfold NeoCache.shardIndex NeoCache.determineShard NeoCache.hashUsize
  rw [hc.hasher_eq, hc.shift, hc'.hasher_eq, hc'.shift]

/-- 表にある key は、hash の選ぶ番号の shard にある。 -/
theorem Routed.pairsAt (h : Routed w c) {i : Nat} {p : K × V} (hp : p ∈ pairsAt c i) :
    c.shardIndex w p.1 = .ok i := by
  unfold IterTrace.pairsAt at hp
  cases hσ : c.shards[i]? with
  | none =>
    rw [hσ] at hp
    exact (List.not_mem_nil hp).elim
  | some σ =>
    rw [hσ] at hp
    obtain ⟨s, hs, rfl⟩ := List.mem_map.mp hp
    exact h.slot hσ hs

omit [DecidableEq K] in
theorem mem_visits {i : Nat} {ps : List (K × V)} :
    (i, ps) ∈ visits tr ↔ ∃ s, (s, .next (.lock i)) ∈ tr ∧ ps = pairsAt s.cache i := by
  unfold visits
  rw [List.mem_filterMap]
  constructor
  · rintro ⟨⟨s, a⟩, hmem, heq⟩
    cases a with
    | next e =>
      cases e with
      | lock j =>
        cases heq
        exact ⟨s, hmem, rfl⟩
      | _ => cases heq
    | _ => cases heq
  · rintro ⟨s, hmem, rfl⟩
    exact ⟨_, hmem, rfl⟩

include hl

/-- lock を取った時点の対は、どれもその番号に割り当てられる key を持つ。 -/
theorem visits_home (hr : CacheReachable w cap hasher requested c)
    (h : (lts w m c).Path (start c) tr s) {i : Nat} {ps : List (K × V)} (hv : (i, ps) ∈ visits tr)
    {p : K × V} (hp : p ∈ ps) : c.shardIndex w p.1 = .ok i := by
  obtain ⟨s₁, hmem, rfl⟩ := mem_visits.mp hv
  have hr₁ := (reachable_of_path hl hr h).2 _ hmem
  rw [← shardIndex_eq hl hr hr₁]
  exact Routed.pairsAt (hr₁.routed hl) hp

/-- lock を取った時点の対を並べても、key は重ならない。 -/
theorem nodup_visits (hr : CacheReachable w cap hasher requested c)
    (h : (lts w m c).Path (start c) tr s) :
    (((visits tr).flatMap Prod.snd).map Prod.fst).Nodup := by
  rw [List.map_flatMap, List.nodup_flatMap]
  constructor
  · rintro ⟨i, ps⟩ hv
    obtain ⟨s₁, -, rfl⟩ := mem_visits.mp hv
    exact nodup_pairsAt s₁.cache i
  · have hne : (visits tr).Pairwise fun x y => x.1 ≠ y.1 := by
      have hnd : ((visits tr).map Prod.fst).Nodup := by
        rw [(tracked_of_path h).order]
        exact List.nodup_range
      exact List.pairwise_map.mp hnd
    refine hne.imp_of_mem ?_
    rintro ⟨i, ps⟩ ⟨j, qs⟩ hx hy hij k hki hkj
    obtain ⟨p, hp, rfl⟩ := List.mem_map.mp hki
    obtain ⟨q, hq, hpq⟩ := List.mem_map.mp hkj
    -- 同じ key が二つの shard にあれば、選ばれる番号が二つになる
    have hi := visits_home hl hr h hx hp
    have hj := visits_home hl hr h hy hq
    rw [hpq, hi] at hj
    exact hij (Except.ok.inj hj)

theorem yields_nodup (hr : CacheReachable w cap hasher requested c)
    (h : (lts w m c).Path (start c) tr s) : ((yields tr).map Prod.fst).Nodup := by
  have hflow := (tracked_of_path h).flow
  rw [List.append_assoc] at hflow
  have hnd := nodup_visits hl hr h
  rw [← hflow, List.map_append] at hnd
  exact (List.nodup_append.mp hnd).1

omit hl in
/-- 終わったときには、全ての shard を番号の順に訪ね、取った対を残らず返している。 -/
theorem complete_of_finished (h : (lts w m c).Path (start c) tr s) (hf : s.Finished) :
    (visits tr).map Prod.fst = List.range s.cache.shards.length ∧
      yields tr = (visits tr).flatMap Prod.snd := by
  have ht := tracked_of_path h
  obtain ⟨hg, hr, hend⟩ := hf.exhausted
  have hflow := ht.flow
  have horder := ht.order
  rw [hr, pending_of_none hg, List.append_nil, List.append_nil] at hflow
  rw [Iter.unlocked, hg, hend] at horder
  exact ⟨horder, hflow⟩

/-- 始めから終わりまで表にある key は、ちょうど一度返る。 -/
theorem yields_once (hsize : cap < w.size) (hreq : NeoCache.Accepted w requested)
    (hr : CacheReachable w cap hasher requested c) (h : (lts w m c).Path (start c) tr s)
    (hf : s.Finished) {k : K} (hk : ∀ x ∈ tr, x.1.cache.contents k ≠ none) :
    ((yields tr).map Prod.fst).count k = 1 := by
  obtain ⟨hall, hy⟩ := complete_of_finished h hf
  obtain ⟨hreach, htr⟩ := reachable_of_path hl hr h
  obtain ⟨i, σ, hi, hσ⟩ := hreach.home hsize hreq hl k
  have hlt : i ∈ (visits tr).map Prod.fst := by
    rw [hall]
    exact List.mem_range.mpr (List.getElem?_eq_some_iff.mp hσ).1
  obtain ⟨⟨j, ps⟩, hv, rfl⟩ := List.mem_map.mp hlt
  obtain ⟨s₁, hmem, rfl⟩ := mem_visits.mp hv
  have hr₁ := htr _ hmem
  have hi₁ : s₁.cache.shardIndex w k = .ok j := (shardIndex_eq hl hreach hr₁ k).trans hi
  have hlive := hk _ hmem
  obtain ⟨v, hv₁⟩ := Option.ne_none_iff_exists'.mp hlive
  refine List.count_eq_one_of_mem (yields_nodup hl hr h) ?_
  rw [hy]
  refine List.mem_map_of_mem (a := (k, v)) (List.mem_flatMap.mpr ⟨_, hv, ?_⟩)
  obtain ⟨j', τ, hj', hτ⟩ := hr₁.home hsize hreq hl k
  rw [hi₁] at hj'
  cases hj'
  rw [(hr₁.routed hl).contents_eq hi₁ hτ] at hv₁
  show (k, v) ∈ pairsAt s₁.cache j
  rw [pairsAt_of_shard hτ]
  exact mem_pairs.mpr hv₁

end Once

/-! ## 終わること -/

/-- loop の一歩ごとに下がる量。訪ねていない shard の数、lock を取りかけているか、残りの数の順に比べる。 -/
def rank (s : Iteration K V) : Nat ×ₗ Nat ×ₗ Nat :=
  toLex (s.cache.shards.length - s.iter.shardI,
    toLex (s.iter.guard.elim 1 fun _ => 0, s.remaining.length))

omit [DecidableEq K] in
theorem rank_next (h : Tracked tr s) {e : IterEvent K V} {it : Iter} (hn : Next s e it) :
    rank ⟨s.cache, it, itemsAfter s.items e⟩ < s.rank := by
  have hbound := h.bound
  unfold rank
  rw [Prod.Lex.toLex_lt_toLex]
  cases hn with
  | store hg =>
    left
    rw [Iter.unlocked, hg] at hbound
    show s.cache.shards.length - (s.iter.shardI + 1) < s.cache.shards.length - s.iter.shardI
    have hlt : s.iter.shardI + 1 ≤ s.cache.shards.length := hbound
    omega
  | @yield g k v rest hg hc hr =>
    refine Or.inr ⟨rfl, ?_⟩
    rw [Prod.Lex.toLex_lt_toLex]
    refine Or.inr ⟨rfl, ?_⟩
    rw [remaining_succ hc hr, hr]
    exact Nat.lt_succ_self _
  | lock hg =>
    refine Or.inr ⟨rfl, ?_⟩
    rw [Prod.Lex.toLex_lt_toLex]
    left
    show 0 < s.iter.guard.elim 1 fun _ => 0
    rw [hg]
    exact Nat.one_pos

/-- どの一歩も量を増やさず、loop の一歩は減らす。 -/
theorem rank_step (h : Tracked tr s) (hstep : Step w m s a s') :
    s'.rank ≤ s.rank ∧ ((∃ e, a = .next e) → s'.rank < s.rank) := by
  have hlen := hstep.length_eq
  have hkeep : s'.iter = s.iter → s'.remaining = s.remaining → s'.rank = s.rank := by
    intro hi hr
    unfold rank
    rw [hlen, hi, hr]
  cases hstep with
  | next hn =>
    have hlt := rank_next h (next_of_step hn)
    exact ⟨hlt.le, fun _ => hlt⟩
  | write v hm hitem hσ =>
    exact ⟨(hkeep rfl (h.write_pairs hitem hσ v).1).le, fun ⟨_, he⟩ => by cases he⟩
  | drop => exact ⟨le_rfl, fun ⟨_, he⟩ => by cases he⟩
  | other htarget hfree hop =>
    exact ⟨(hkeep rfl (other_pairs hfree hop).1).le, fun ⟨_, he⟩ => by cases he⟩

/-- 他の thread がいくら割り込んでも、反復する thread が動き続ければ反復は終わる。 -/
theorem finishes {run : Nat → Iteration K V} {act : Nat → IterAct K V} (h0 : run 0 = start c)
    (hrun : ∀ n, Step w m (run n) (act n) (run (n + 1)))
    (hfair : ∀ n, ∃ j ≥ n, (run j).Finished ∨ ∃ e, act j = .next e) :
    ∃ n, (run n).Finished := by
  have hpath : ∀ n, ∃ tr, (lts w m c).Path (start c) tr (run n) := by
    intro n
    induction n with
    | zero => exact ⟨[], h0 ▸ .nil⟩
    | succ n ih =>
      obtain ⟨tr, htr⟩ := ih
      exact ⟨_, .snoc htr (hrun n)⟩
  have hstep : ∀ n, (run (n + 1)).rank ≤ (run n).rank ∧
      ((∃ e, act n = .next e) → (run (n + 1)).rank < (run n).rank) := by
    intro n
    obtain ⟨tr, htr⟩ := hpath n
    exact rank_step (tracked_of_path htr) (hrun n)
  have hanti : Antitone fun n => (run n).rank := antitone_nat_of_succ_le fun n => (hstep n).1
  -- 量が最も小さい時点から先では、loop の一歩はもう行えない
  obtain ⟨_, ⟨n, rfl⟩, hmin⟩ := WellFounded.has_min (wellFounded_lt (α := Nat ×ₗ Nat ×ₗ Nat))
    (Set.range fun n => (run n).rank) ⟨_, 0, rfl⟩
  obtain ⟨j, hj, hdone | hnext⟩ := hfair n
  · exact ⟨j, hdone⟩
  · have hlt : (run (j + 1)).rank < (run n).rank := lt_of_lt_of_le ((hstep j).2 hnext) (hanti hj)
    exact (hmin _ ⟨j + 1, rfl⟩ hlt).elim

theorem advance_path (n : Nat) (s : Iteration K V) :
    (lts w m c).Path s (advance n s).1 (advance n s).2 := by
  induction n generalizing s with
  | zero => exact .nil
  | succ n ih =>
    unfold advance
    split
    · exact .nil
    · next e it hs =>
      have hstep : Step w m s (.next e) ⟨s.cache, it, itemsAfter s.items e⟩ := .next hs
      exact Lts.Path.append (.snoc .nil hstep) (ih _)

omit [DecidableEq K] in
/-- 他の thread が割り込まなければ、反復は有限歩で終わる。 -/
theorem exists_advance_finished (s : Iteration K V) {tr : IterTrace K V} (h : Tracked tr s) :
    ∃ n, (advance n s).2.Finished := by
  induction hk : s.rank using WellFoundedLT.induction generalizing s tr with
  | _ r ih =>
    cases hs : s.iter.step s.cache with
    | none => exact ⟨0, hs⟩
    | some p =>
      have hn := next_of_step hs
      subst hk
      obtain ⟨n, hdone⟩ := ih _ (rank_next h hn) _ (h.next hn) rfl
      refine ⟨n + 1, ?_⟩
      unfold advance
      rw [hs]
      exact hdone

end Iteration

end Neocache
