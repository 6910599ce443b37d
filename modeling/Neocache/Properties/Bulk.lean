import Neocache.Cache.Bulk
import Neocache.Properties.ExactlyOnce
import Neocache.Properties.Refinement
import Neocache.Properties.Upheld

/-!
# 他の thread と並ぶ `retain` と `clear`

shard を順に訪ねる操作は、全体としては一つの時点で起きない。それでも、key ごとに見れば次が言える。

* 除くべき key が終わりに残っているなら、その shard を訪ね終えた後に、他の thread が入れ直した
* 他の thread が触らない key には、closure は高々一度、残るなら丁度一度だけ呼ばれる

key は hash の選ぶ shard にしか居ないので、その shard を訪ねた一歩の前後に分けて考えればよい。
-/

namespace Neocache

open Infra Relation ShardData

variable {K V : Type*} [DecidableEq K] {hasher : K → UInt64} {w : Word} {cap requested : Nat}
  {c : NeoCache K V} {op : BulkOp K V} {s s' : Bulk K V}
  {tr : List (Bulk K V × Option (Nat × ShardOp K V))} {x : K}

/-! ## 訪ねる一歩 -/

/-- 訪ねる一歩も他の thread の一歩も、cache への一操作である。 -/
theorem Bulk.Step.onShard {a : Option (Nat × ShardOp K V)} (h : Bulk.Step w op s a s') :
    ∃ (b : Nat × ShardOp K V) (r : Ret K V), b.2.Targets w s.cache b.1 ∧
      s.cache.onShard b.1 b.2 = .ok (r, s'.cache) := by
  cases h with
  | @visit σ hσ =>
    refine ⟨(s.shardI, op.shardOp s.calls), .unit, ?_, ?_⟩
    · cases op <;> trivial
    · unfold NeoCache.onShard
      rw [hσ]
      cases op <;> rfl
  | @other a r c' ht h => exact ⟨a, r, ht, h⟩

theorem bulk_reachable (hc : CacheReachable w cap hasher requested c)
    (hp : (Bulk.lts w op c).Path (.start c) tr s) :
    CacheReachable w cap hasher requested s.cache := by
  refine hp.invariant (P := fun _ s => CacheReachable w cap hasher requested s.cache) hc ?_
  intro l s₁ a s₂ _ hr hstep
  obtain ⟨b, r, ht, hb⟩ := Bulk.Step.onShard hstep
  exact .step hr ⟨ht, r, hb⟩

/-- 到達可能な cache の配置は決まっている。 -/
theorem CacheReachable.exists_layout (hc : CacheReachable w cap hasher requested c) :
    ∃ l, NeoCache.layout w cap requested = .ok l := by
  induction hc with
  | init h =>
    obtain ⟨l, hl, -⟩ := built_ok h
    exact ⟨l, hl⟩
  | step _ _ ih => exact ih

theorem lookup_of_contents {v : V} (h : c.contents x = some v) :
    ∃ (i : Nat) (σ : ShardData K V), c.shards[i]? = some σ ∧ σ.lookup x = some v := by
  obtain ⟨σ, hmem, hσ⟩ := List.exists_of_findSome?_eq_some h
  obtain ⟨i, hi⟩ := List.getElem?_of_mem hmem
  exact ⟨i, σ, hi, hσ⟩

omit [DecidableEq K] in
/-- 終わったときには、どの shard も訪ね終えている。 -/
theorem Bulk.Finished.lt (h : s.Finished) {i : Nat} {σ : ShardData K V}
    (hσ : s.cache.shards[i]? = some σ) : i < s.shardI := by
  rw [show s.shardI = s.cache.shards.length from h]
  exact (List.getElem?_eq_some_iff.mp hσ).1

/-! ## 割り込みのない実行 -/

theorem bulk_exec_shards (op : BulkOp K V) (c : NeoCache K V) :
    op.exec c = { c with shards := (NeoCache.visitShards op.visit 0 c.shards).2 } := by
  cases op with
  | retain f => rfl
  | clear =>
    have hvisit : ∀ (n : Nat) (l : List (ShardData K V)),
        (NeoCache.visitShards (BulkOp.clear : BulkOp K V).visit n l).2 = l.map .clearAll := by
      intro n l
      induction l generalizing n with
      | nil => rfl
      | cons σ l ih =>
        rw [NeoCache.visitShards, ih, List.map_cons]
        rfl
    rw [hvisit]
    rfl

/-- 他の thread が動かなければ、訪ね終えた cache は一人で行った結果である。 -/
theorem bulk_quiet (hp : (Bulk.lts w op c).Path (.start c) tr s) (hfin : s.Finished)
    (hquiet : ∀ y ∈ tr, y.2 = none) : s.cache = op.exec c := by
  -- 訪ね終えた shard と、残りを訪ねた結果を並べたものは、どの一歩でも変わらない
  have hinv : (∀ y ∈ tr, y.2 = none) → { s.cache with shards := s.cache.shards.take s.shardI ++
      (NeoCache.visitShards op.visit s.calls (s.cache.shards.drop s.shardI)).2 } = op.exec c := by
    refine hp.invariant (P := fun tr s => (∀ y ∈ tr, y.2 = none) →
      { s.cache with shards := s.cache.shards.take s.shardI ++
        (NeoCache.visitShards op.visit s.calls (s.cache.shards.drop s.shardI)).2 } = op.exec c)
      (fun _ => (bulk_exec_shards op c).symm) ?_
    intro tr s₁ a s₂ _ ih hstep hquiet
    have ih := ih fun y hy => hquiet y (List.mem_append_left _ hy)
    cases hstep with
    | @visit σ hσ =>
      rw [← ih]
      have hlt := (List.getElem?_eq_some_iff.mp hσ).1
      have hdrop : s₁.cache.shards.drop s₁.shardI = σ :: s₁.cache.shards.drop (s₁.shardI + 1) := by
        rw [List.drop_eq_getElem_cons hlt, (List.getElem?_eq_some_iff.mp hσ).2]
      have hset : ∀ τ, s₁.cache.shards.set s₁.shardI τ
          = s₁.cache.shards.take s₁.shardI ++ [τ] ++ s₁.cache.shards.drop (s₁.shardI + 1) := by
        intro τ
        rw [List.set_eq_take_append_cons_drop, if_pos hlt, List.append_assoc]
        rfl
      have hlen : ∀ τ, (s₁.cache.shards.take s₁.shardI ++ [τ]).length = s₁.shardI + 1 := by
        intro τ
        rw [List.length_append, List.length_take, Nat.min_eq_left (Nat.le_of_lt hlt)]
        rfl
      simp only [hdrop, NeoCache.visitShards, hset]
      rw [List.take_left' (hlen _), List.drop_left' (hlen _), List.append_assoc]
      rfl
    | @other b r c' ht h =>
      cases hquiet _ (List.mem_append_right _ (List.mem_singleton_self _))
  have hdone := hinv hquiet
  rw [show s.shardI = s.cache.shards.length from hfin, List.take_length, List.drop_length] at hdone
  rw [← hdone]
  simp [NeoCache.visitShards]

/-! ## closure の呼び出し -/

/-- 番号 `n` から順に、slot ごとに一度呼ぶ。 -/
def callsFrom : Nat → List (Slot UInt64 K (CacheEntry V)) → List (Nat × K × V)
  | _, [] => []
  | n, s :: l => (n, s.key, s.val.value) :: callsFrom (n + 1) l

theorem retainCalls_eq (σ : ShardData K V) (f : Nat → K → V → Bool × V) (n : Nat) :
    σ.retainCalls f n = callsFrom n σ.map.slots ∧ (σ.retain f n).1 = n + σ.map.len := by
  have hfold : ∀ (l : List (Slot UInt64 K (CacheEntry V))) (log : List (Nat × K × V)) n τ,
      (l.foldl (fun acc s => (acc.1 ++ [(acc.2.1, s.key, s.val.value)], retainOne f acc.2 s))
        (log, n, τ)).1 = log ++ callsFrom n l ∧
      (l.foldl (retainOne f) (n, τ)).1 = n + l.length := by
    intro l
    induction l with
    | nil => simp [callsFrom]
    | cons s l ih =>
      intro log n τ
      obtain ⟨hlog, hcount⟩ :=
        ih (log ++ [(n, s.key, s.val.value)]) (n + 1) (retainOne f (n, τ) s).2
      refine ⟨?_, ?_⟩
      · rw [callsFrom, List.append_cons]
        exact hlog
      · rw [List.length_cons, Nat.add_comm l.length 1, ← Nat.add_assoc]
        exact hcount
  exact hfold σ.map.slots [] n σ

omit [DecidableEq K] in
theorem callsFrom_numbers :
    ∀ (n : Nat) (l : List (Slot UInt64 K (CacheEntry V))),
      (callsFrom n l).map Prod.fst = List.range' n l.length
  | _, [] => rfl
  | n, s :: l => by
    rw [callsFrom, List.map_cons, callsFrom_numbers, List.length_cons, List.range'_succ]

theorem callsFrom_absent : ∀ {n : Nat} {l : List (Slot UInt64 K (CacheEntry V))},
    (∀ s ∈ l, s.key ≠ x) → (callsFrom n l).filter (fun call => call.2.1 = x) = []
  | _, [], _ => rfl
  | n, s :: l, h => by
    have hs : ¬ s.key = x := h s List.mem_cons_self
    rw [callsFrom, List.filter_cons_of_neg (by simpa using hs)]
    exact callsFrom_absent fun t ht => h t (List.mem_cons_of_mem _ ht)

/-- 表にある key には丁度一度呼び、残る値はその呼び出しが書いたものである。 -/
theorem callsFrom_present {f : Nat → K → V → Bool × V} {s : Slot UInt64 K (CacheEntry V)} :
    ∀ {n : Nat} {l : List (Slot UInt64 K (CacheEntry V))}, (l.map Slot.key).Nodup → s ∈ l →
      ∃ m, (callsFrom n l).filter (fun call => call.2.1 = s.key) = [(m, s.key, s.val.value)] ∧
        ∀ t ∈ retainSlots f n l, t.key = s.key → f m s.key s.val.value = (true, t.val.value)
  | n, s₀ :: l, hnd, hs => by
    obtain ⟨hhead, htail⟩ := List.nodup_cons.mp hnd
    have hother : ∀ t ∈ l, t.key ≠ s₀.key := fun t ht heq =>
      hhead (List.mem_map.mpr ⟨t, ht, heq⟩)
    rcases List.mem_cons.mp hs with rfl | hs
    · refine ⟨n, ?_, fun t ht hkey => ?_⟩
      · rw [callsFrom, List.filter_cons_of_pos (by simp), callsFrom_absent hother]
      · -- 同じ key の slot は先頭だけなので、残ったのは先頭である
        have hrest : t ∉ retainSlots f (n + 1) l := fun ht => by
          obtain ⟨t₀, ht₀, hkey₀, -⟩ := mem_retainSlots ht
          exact hother t₀ ht₀ (hkey₀.trans hkey)
        unfold retainSlots at ht
        split at ht
        · next hkeep =>
          rcases List.mem_cons.mp ht with rfl | ht
          · exact Prod.ext hkeep rfl
          · exact (hrest ht).elim
        · exact (hrest ht).elim
    · obtain ⟨m, hcalls, hvalue⟩ := callsFrom_present (n := n + 1) htail hs
      have hne : ¬ s₀.key = s.key := fun heq => hother s hs heq.symm
      refine ⟨m, ?_, fun t ht hkey => hvalue t ?_ hkey⟩
      · rw [callsFrom, List.filter_cons_of_neg (by simpa using hne)]
        exact hcalls
      · unfold retainSlots at ht
        split at ht
        · rcases List.mem_cons.mp ht with rfl | ht
          · exact (hne hkey).elim
          · exact ht
        · exact ht

theorem retainCalls_present {σ : ShardData K V} {f : Nat → K → V → Bool × V} {n : Nat} {v : V}
    (h : σ.lookup x = some v) :
    ∃ m, (σ.retainCalls f n).filter (fun call => call.2.1 = x) = [(m, x, v)] ∧
      ∀ v', (σ.retain f n).2.lookup x = some v' → f m x v = (true, v') := by
  obtain ⟨e, hget, rfl⟩ := Option.map_eq_some_iff.mp h
  obtain ⟨s, hs, rfl, rfl⟩ := Table.get?_eq_some.mp hget
  obtain ⟨m, hcalls, hvalue⟩ := callsFrom_present (f := f) (n := n) σ.map.nodup hs
  rw [(retainCalls_eq σ f n).1]
  refine ⟨m, hcalls, fun v' hv' => ?_⟩
  obtain ⟨e', hget', rfl⟩ := Option.map_eq_some_iff.mp hv'
  obtain ⟨t, ht, hkey, rfl⟩ := Table.get?_eq_some.mp hget'
  rw [(retain_spec σ f n).1] at ht
  exact hvalue t ht hkey

theorem retainCalls_absent {σ : ShardData K V} {f : Nat → K → V → Bool × V} {n : Nat}
    (h : σ.lookup x = none) :
    (σ.retainCalls f n).filter (fun call => call.2.1 = x) = [] ∧
      (σ.retain f n).2.lookup x = none := by
  have hnone := lookup_eq_none.mp h
  refine ⟨?_, ?_⟩
  · rw [(retainCalls_eq σ f n).1]
    refine callsFrom_absent fun s hs heq => ?_
    rw [← heq, Table.get?_of_mem hs] at hnone
    cases hnone
  · refine lookup_eq_none.mpr (Option.eq_none_iff_forall_ne_some.mpr fun e' he' => ?_)
    obtain ⟨e, he, -⟩ := retain_old σ f n he'
    rw [hnone] at he
    cases he

/-! ## 除くべき key -/

/-- どの時点のどの値でも、その key を除く。 -/
def BulkOp.Drops (op : BulkOp K V) (x : K) : Prop :=
  match op with
  | .retain f => ∀ n v, (f n x v).1 = false
  | .clear => True

/-- 訪ね終えた後に、他の thread が key を入れた一歩。 -/
def Reinserts (x : K) (y : Bulk K V × Option (Nat × ShardOp K V)) : Prop :=
  ∃ i kop, y.2 = some (i, .key x kop) ∧ kop.newValue ≠ none ∧ i < y.1.shardI

theorem BulkOp.Drops.visit_absent (h : op.Drops x) (n : Nat) (σ : ShardData K V) :
    (op.visit n σ).2.lookup x = none := by
  cases op with
  | clear => rfl
  | retain f =>
    cases hl : σ.lookup x with
    | none => exact (retainCalls_absent hl).2
    | some v =>
      obtain ⟨m, -, hvalue⟩ := retainCalls_present (f := f) (n := n) hl
      refine Option.eq_none_iff_forall_ne_some.mpr fun v' hv' => ?_
      have hdrop := h m v
      rw [hvalue v' hv'] at hdrop
      cases hdrop

/-- 訪ね終えた shard に除くべき key があるなら、入れ直されている。 -/
theorem reinserted_of_live (hc : CacheReachable w cap hasher requested c) (hdrop : op.Drops x)
    (hp : (Bulk.lts w op c).Path (.start c) tr s) {i : Nat} {σ : ShardData K V}
    (hi : i < s.shardI) (hσ : s.cache.shards[i]? = some σ) (hx : σ.lookup x ≠ none) :
    ∃ y ∈ tr, Reinserts x y := by
  obtain ⟨l, hl⟩ := hc.exists_layout
  have hinv : ∀ i σ, i < s.shardI → s.cache.shards[i]? = some σ → σ.lookup x ≠ none →
      ∃ y ∈ tr, Reinserts x y := by
    refine hp.invariant (P := fun tr s => ∀ i σ, i < s.shardI → s.cache.shards[i]? = some σ →
      σ.lookup x ≠ none → ∃ y ∈ tr, Reinserts x y) ?_ ?_
    · intro i σ hi
      exact (Nat.not_lt_zero i hi).elim
    intro tr s₁ a s₂ hpath ih hstep i τ hi hτ hx
    have hkeep : (∃ y ∈ tr, Reinserts x y) → ∃ y ∈ tr ++ [(s₁, a)], Reinserts x y :=
      fun ⟨y, hy, hre⟩ => ⟨y, List.mem_append_left _ hy, hre⟩
    cases hstep with
    | @visit σ hσ =>
      rcases getElem?_set_cases hσ hτ with ⟨-, rfl⟩ | ⟨hne, hτ⟩
      · exact (hx (hdrop.visit_absent _ _)).elim
      · have hi' : i < s₁.shardI + 1 := hi
        exact hkeep (ih i τ (by omega) hτ hx)
    | @other b r c' ht h =>
      obtain ⟨σ, σ', hσ, hexec, rfl⟩ := onShard_ok h
      rcases getElem?_set_cases hσ hτ with ⟨rfl, rfl⟩ | ⟨-, hτ⟩
      · by_cases hold : σ.lookup x = none
        · -- 無かった key が現れたのなら、この一歩が入れている
          have hlaid := CacheReachable.laid hl (bulk_reachable hc hpath)
          have hlinked := (hlaid.shards _ σ hσ).linked
          rw [hlaid.hasher_eq] at hexec
          by_cases hop : ∃ kop, b.2 = .key x kop ∧ kop.newValue ≠ none
          · obtain ⟨kop, hkop, hnew⟩ := hop
            exact ⟨_, List.mem_append_right _ (List.mem_singleton_self _), b.1, kop,
              by rw [← hkop], hnew, hi⟩
          · refine (hx (lookup_eq_none.mpr (exec_keeps_absent hlinked hexec ?_
              (lookup_eq_none.mp hold)))).elim
            intro kop hkop
            by_contra hnew
            exact hop ⟨kop, hkop, hnew⟩
        · exact hkeep (ih b.1 σ hi hσ hold)
      · exact hkeep (ih i τ hi hτ hx)
  exact hinv i σ hi hσ hx

/--
`retain` と `clear` は、除くべき key を取り残さない。

他の thread の操作がどのように挟まっても、終わりに残っている除くべき key は、その key の shard を
訪ね終えた後に、他の thread が入れ直したものである。
-/
theorem bulk_complete (hc : CacheReachable w cap hasher requested c)
    (hp : (Bulk.lts w op c).Path (.start c) tr s) (hfin : s.Finished) (hdrop : op.Drops x)
    (hx : s.cache.contents x ≠ none) : ∃ y ∈ tr, Reinserts x y := by
  obtain ⟨v, hv⟩ := Option.ne_none_iff_exists'.mp hx
  obtain ⟨i, σ, hσ, hlookup⟩ := lookup_of_contents hv
  exact reinserted_of_live hc hdrop hp (hfin.lt hσ) hσ (by rw [hlookup]; simp)

/-- 番号 1 の shard が空の cache。 -/
def firstShard (σ : ShardData Nat Nat) : NeoCache Nat Nat := ⟨63, [σ, .new 2], UInt64.ofNat, 4⟩

/-- `clear` が番号 0 の shard を訪ね終えた後に、他の thread が key 0 を入れ直す。 -/
theorem bulk_complete_raced : ∃ (s : Bulk Nat Nat)
    (tr : List (Bulk Nat Nat × Option (Nat × ShardOp Nat Nat))),
    ((Bulk.lts ⟨64, by decide⟩ .clear oneEntry).Path (.start oneEntry) tr s ∧ s.Finished ∧
      s.cache.contents 0 = some 8) ∧ ∃ y ∈ tr, Reinserts 0 y := by
  have hfirst : Bulk.Step ⟨64, by decide⟩ .clear (.start oneEntry) none
      ⟨firstShard (.new 2), 1, 0⟩ :=
    .visit (σ := (ShardData.new 2).register 0 0 7 .small) rfl
  have hinsert : Bulk.Step ⟨64, by decide⟩ .clear
      ⟨firstShard (.new 2), 1, 0⟩ (some (0, .key 0 (.insert 8)))
      ⟨firstShard ((ShardData.new 2).register 0 0 8 .small), 1, 0⟩ :=
    .other rfl (r := .value none) rfl
  have hsecond : Bulk.Step ⟨64, by decide⟩ .clear
      ⟨firstShard ((ShardData.new 2).register 0 0 8 .small), 1, 0⟩ none
      ⟨firstShard ((ShardData.new 2).register 0 0 8 .small), 2, 0⟩ :=
    .visit (σ := .new 2) rfl
  have hpath := ((Lts.Path.nil.snoc (M := Bulk.lts ⟨64, by decide⟩ .clear oneEntry) hfirst).snoc
    hinsert).snoc hsecond
  exact ⟨_, _, ⟨hpath, rfl, rfl⟩, bulk_complete oneEntry_reachable hpath rfl trivial
    (Option.some_ne_none 8)⟩

/-! ## 触られない key -/

/-- 他の key への操作である。追い出しで落とすことはある。 -/
def ShardOp.Spares (op : ShardOp K V) (x : K) : Prop := ∃ k kop, op = .key k kop ∧ k ≠ x

/-- 他の key への操作は、その key の値を変えない。落とすことはある。 -/
theorem exec_spares {σ σ' : ShardData K V} {sop : ShardOp K V} {r : Ret K V} {v : V}
    (hr : ShardReachable hasher cap σ) (hop : sop.Spares x)
    (h : sop.exec hasher σ = .ok (r, σ')) (hx : σ'.lookup x = some v) : σ.lookup x = some v := by
  obtain ⟨k, kop, rfl, hne⟩ := hop
  generalize hop : ShardOp.key k kop = sop at h
  cases exec_outcome hr.linked h with
  | @present k' kop' e hk =>
    cases hop
    rwa [put_lookup hk, Function.update_of_ne hne.symm] at hx
  | idle => exact hx
  | @fresh k' kop' v' σ₁ hk hv hev =>
    cases hop
    obtain ⟨σ₂, hexec, hlookup⟩ := fresh_lookup hr hk hv
    have hsame : (ShardOp.key k kop).exec hasher σ = .ok (kop.absentRet, σ₂) := hexec
    rw [h] at hsame
    obtain rfl := (Prod.ext_iff.mp (Except.ok.inj hsame)).2
    rcases hlookup with hlookup | ⟨-, k₀, -, -, hlookup⟩
    · rwa [hlookup, Function.update_of_ne hne.symm] at hx
    · rw [hlookup, Function.update_of_ne hne.symm] at hx
      by_cases hk₀ : x = k₀
      · rw [hk₀, Function.update_self] at hx
        cases hx
      · rwa [Function.update_of_ne hk₀] at hx
  | retain => cases hop
  | alterAll => cases hop
  | clearAll => cases hop

/-- 呼び出しの番号は、実行を通して 0 から順に振られる。 -/
theorem callLog_numbers {f : Nat → K → V → Bool × V}
    (hp : (Bulk.lts w (.retain f) c).Path (.start c) tr s) :
    (Bulk.callLog (.retain f) tr).map Prod.fst = List.range s.calls := by
  refine hp.invariant
    (P := fun tr s => (Bulk.callLog (.retain f) tr).map Prod.fst = List.range s.calls) rfl ?_
  intro tr s₁ a s₂ _ ih hstep
  rw [Bulk.callLog, List.flatMap_append, List.map_append, List.flatMap_singleton]
  change (Bulk.callLog (.retain f) tr).map Prod.fst ++ _ = _
  rw [ih]
  cases hstep with
  | @visit σ hσ =>
    obtain ⟨hcalls, hcount⟩ := retainCalls_eq σ f s₁.calls
    simp only [Bulk.stepCalls, hσ, BulkOp.calls, BulkOp.visit]
    rw [hcalls, callsFrom_numbers, hcount, List.range_eq_range', List.range_eq_range']
    have happend := List.range'_append_1 (s := 0) (m := s₁.calls) (n := σ.map.slots.length)
    rwa [Nat.zero_add] at happend
  | other => exact List.append_nil _

/--
他の thread が触らない key の、途中の姿。shard を訪ねる前は呼び出しがなく元の値のままで、訪ねた後は
呼び出しが丁度一つで、残っていればその呼び出しの書いた値を持つ。
-/
def OnceCalled (f : Nat → K → V → Bool × V) (x : K) (v : V)
    (tr : List (Bulk K V × Option (Nat × ShardOp K V))) (s : Bulk K V) : Prop :=
  ((Bulk.callLog (.retain f) tr).filter (fun call => call.2.1 = x) = [] ∧
    ∀ (i : Nat) σ v', s.cache.shards[i]? = some σ → σ.lookup x = some v' →
      s.shardI ≤ i ∧ v' = v) ∨
  ∃ n, (Bulk.callLog (.retain f) tr).filter (fun call => call.2.1 = x) = [(n, x, v)] ∧
    ∀ (i : Nat) σ v', s.cache.shards[i]? = some σ → σ.lookup x = some v' →
      i < s.shardI ∧ f n x v = (true, v')

/-- 訪ねる一歩。 -/
theorem OnceCalled.visit {f : Nat → K → V → Bool × V} {v : V} {σ : ShardData K V}
    (h : OnceCalled f x v tr s) (hrouted : Routed w s.cache)
    (hσ : s.cache.shards[s.shardI]? = some σ) :
    OnceCalled f x v (tr ++ [(s, none)]) ⟨{ s.cache with
      shards := s.cache.shards.set s.shardI (σ.retain f s.calls).2 }, s.shardI + 1,
      (σ.retain f s.calls).1⟩ := by
  have hlog : (Bulk.callLog (.retain f) (tr ++ [(s, none)])).filter (fun call => call.2.1 = x)
      = (Bulk.callLog (.retain f) tr).filter (fun call => call.2.1 = x)
        ++ (σ.retainCalls f s.calls).filter (fun call => call.2.1 = x) := by
    rw [Bulk.callLog, List.flatMap_append, List.filter_append, List.flatMap_singleton]
    simp only [Bulk.stepCalls, hσ, BulkOp.calls]
    rfl
  cases hx : σ.lookup x with
  | none =>
    -- この shard に居ないなら、呼び出しも増えず、他の shard も変わらない
    obtain ⟨hcalls, hgone⟩ := retainCalls_absent (f := f) (n := s.calls) hx
    rw [OnceCalled, hlog, hcalls, List.append_nil]
    refine h.imp (fun ⟨hnil, hrest⟩ => ⟨hnil, fun i τ v' hτ hv' => ?_⟩)
      fun ⟨n, hone, hrest⟩ => ⟨n, hone, fun i τ v' hτ hv' => ?_⟩
    · rcases getElem?_set_cases hσ hτ with ⟨-, rfl⟩ | ⟨hne, hτ⟩
      · rw [hgone] at hv'
        cases hv'
      · obtain ⟨hle, heq⟩ := hrest i τ v' hτ hv'
        exact ⟨by show s.shardI + 1 ≤ i; omega, heq⟩
    · rcases getElem?_set_cases hσ hτ with ⟨-, rfl⟩ | ⟨-, hτ⟩
      · rw [hgone] at hv'
        cases hv'
      · obtain ⟨hlt, hcall⟩ := hrest i τ v' hτ hv'
        exact ⟨Nat.lt_succ_of_lt hlt, hcall⟩
  | some v₀ =>
    obtain ⟨n, hcalls, hvalue⟩ := retainCalls_present (f := f) (n := s.calls) hx
    rcases h with ⟨hnil, hrest⟩ | ⟨n₀, -, hrest⟩
    · obtain ⟨-, rfl⟩ := hrest _ σ v₀ hσ hx
      refine Or.inr ⟨n, by rw [hlog, hnil, hcalls]; rfl, fun i τ v' hτ hv' => ?_⟩
      rcases getElem?_set_cases hσ hτ with ⟨rfl, rfl⟩ | ⟨hne, hτ⟩
      · exact ⟨Nat.lt_succ_self _, hvalue v' hv'⟩
      · -- 同じ key が二つの shard に居ることはない
        have hi := hrouted i τ hτ x (by rw [hv']; simp)
        rw [hrouted _ σ hσ x (by rw [hx]; simp)] at hi
        exact (hne (Except.ok.inj hi).symm).elim
    · exact (Nat.lt_irrefl _ (hrest _ σ v₀ hσ hx).1).elim

/-- 他の key への一歩。その後に居る key は、前にも同じ値で居た。 -/
theorem OnceCalled.other {f : Nat → K → V → Bool × V} {v : V} (h : OnceCalled f x v tr s)
    {b : Nat × ShardOp K V} {c' : NeoCache K V}
    (hback : ∀ (i : Nat) τ v', c'.shards[i]? = some τ → τ.lookup x = some v' →
      ∃ τ', s.cache.shards[i]? = some τ' ∧ τ'.lookup x = some v') :
    OnceCalled f x v (tr ++ [(s, some b)]) { s with cache := c' } := by
  have hlog : Bulk.callLog (.retain f) (tr ++ [(s, some b)]) = Bulk.callLog (.retain f) tr := by
    rw [Bulk.callLog, List.flatMap_append]
    exact List.append_nil _
  rw [OnceCalled, hlog]
  refine h.imp (fun ⟨hnil, hrest⟩ => ⟨hnil, fun i τ v' hτ hv' => ?_⟩)
    fun ⟨n, hone, hrest⟩ => ⟨n, hone, fun i τ v' hτ hv' => ?_⟩
  · obtain ⟨τ', hτ', hx⟩ := hback i τ v' hτ hv'
    exact hrest i τ' v' hτ' hx
  · obtain ⟨τ', hτ', hx⟩ := hback i τ v' hτ hv'
    exact hrest i τ' v' hτ' hx

/--
他の thread が触らない key には、`retain` の closure が高々一度、終わりに残るなら丁度一度呼ばれる。

closure の呼び出しには、実行を通して 0 から順に番号が振られる。始まりに値 `v` を持ち、他の thread の
操作の対象にならない key への呼び出しは、あるとしても一つだけで、`v` を受け取る。呼び出しが無いのは、
その key が訪ねる前に追い出されたときに限る。終わりに残っている値は、その呼び出しが真を返して
書いたものである。他の key への操作と、そこで起きる追い出しは、いくつ挟まってもよい。挟まなければ、
着く cache は `retain` を一息に行ったものである。
-/
theorem retain_once (hc : CacheReachable w cap hasher requested c) {f : Nat → K → V → Bool × V}
    (hp : (Bulk.lts w (.retain f) c).Path (.start c) tr s) (hfin : s.Finished)
    (hspare : ∀ y ∈ tr, ∀ a, y.2 = some a → a.2.Spares x) {v : V} (hv : c.contents x = some v) :
    (Bulk.callLog (.retain f) tr).map Prod.fst = List.range s.calls ∧
    (((Bulk.callLog (.retain f) tr).filter (fun call => call.2.1 = x) = [] ∧
        s.cache.contents x = none) ∨
      ∃ n, (Bulk.callLog (.retain f) tr).filter (fun call => call.2.1 = x) = [(n, x, v)] ∧
        ∀ v', s.cache.contents x = some v' → f n x v = (true, v')) ∧
    ((∀ y ∈ tr, y.2 = none) → s.cache = c.retain f) := by
  obtain ⟨l, hl⟩ := hc.exists_layout
  have hinv : (∀ y ∈ tr, ∀ a, y.2 = some a → a.2.Spares x) → OnceCalled f x v tr s := by
    refine hp.invariant (P := fun tr s => (∀ y ∈ tr, ∀ a, y.2 = some a → a.2.Spares x) →
      OnceCalled f x v tr s) ?_ ?_
    · intro _
      refine Or.inl ⟨rfl, fun i σ v' hσ hx => ⟨Nat.zero_le i, ?_⟩⟩
      have hrouted := CacheReachable.routed hl hc
      have hsame := hrouted.contents_eq (hrouted i σ hσ x (by rw [hx]; simp)) hσ
      rw [hv, hx] at hsame
      exact (Option.some.inj hsame).symm
    intro tr s₁ a s₂ hpath ih hstep hspare
    have ih := ih fun y hy => hspare y (List.mem_append_left _ hy)
    have hr := bulk_reachable hc hpath
    cases hstep with
    | @visit σ hσ => exact ih.visit (hr.routed hl) hσ
    | @other b r c' ht h =>
      obtain ⟨σ, σ', hσ, hexec, rfl⟩ := onShard_ok h
      have hlaid := hr.laid hl
      rw [hlaid.hasher_eq] at hexec
      have hop := hspare _ (List.mem_append_right _ (List.mem_singleton_self _)) b rfl
      exact ih.other fun i τ v' hτ hv' => by
        rcases getElem?_set_cases hσ hτ with ⟨rfl, rfl⟩ | ⟨-, hτ⟩
        · exact ⟨σ, hσ, exec_spares (hlaid.shards _ σ hσ) hop hexec hv'⟩
        · exact ⟨τ, hτ, hv'⟩
  refine ⟨callLog_numbers hp, ?_, bulk_quiet hp hfin⟩
  refine (hinv hspare).imp (fun ⟨hnil, hrest⟩ => ⟨hnil, ?_⟩)
    fun ⟨n, hone, hrest⟩ => ⟨n, hone, fun v' hv' => ?_⟩
  · refine Option.eq_none_iff_forall_ne_some.mpr fun v' hv' => ?_
    obtain ⟨i, σ, hσ, hlookup⟩ := lookup_of_contents hv'
    have hle := (hrest i σ v' hσ hlookup).1
    have hlt := hfin.lt hσ
    omega
  · obtain ⟨i, σ, hσ, hlookup⟩ := lookup_of_contents hv'
    exact (hrest i σ v' hσ hlookup).2

/-- 値を一つ増やして残す。 -/
def succValue : Nat → Nat → Nat → Bool × Nat := fun _ _ v => (true, v + 1)

/-- 値を増やす `retain` の途中で、訪ね終えた shard に他の thread が別の key を入れる。 -/
theorem retain_once_raced : ∃ (s : Bulk Nat Nat)
    (tr : List (Bulk Nat Nat × Option (Nat × ShardOp Nat Nat))),
    ((Bulk.lts ⟨64, by decide⟩ (.retain succValue) oneEntry).Path (.start oneEntry) tr s ∧
      s.Finished ∧ s.cache.contents 0 = some 8 ∧ s.cache.contents 1 = some 9) ∧
      (Bulk.callLog (.retain succValue) tr).map Prod.fst = List.range s.calls ∧
      (((Bulk.callLog (.retain succValue) tr).filter (fun call => call.2.1 = 0) = [] ∧
          s.cache.contents 0 = none) ∨
        ∃ n, (Bulk.callLog (.retain succValue) tr).filter (fun call => call.2.1 = 0) = [(n, 0, 7)] ∧
          ∀ v', s.cache.contents 0 = some v' → succValue n 0 7 = (true, v')) ∧
      ((∀ y ∈ tr, y.2 = none) → s.cache = oneEntry.retain succValue) := by
  have hfirst : Bulk.Step ⟨64, by decide⟩ (.retain succValue) (.start oneEntry) none
      ⟨firstShard ((ShardData.new 2).register 0 0 8 .small), 1, 1⟩ :=
    .visit (σ := (ShardData.new 2).register 0 0 7 .small) rfl
  have hinsert : Bulk.Step ⟨64, by decide⟩ (.retain succValue)
      ⟨firstShard ((ShardData.new 2).register 0 0 8 .small), 1, 1⟩
      (some (0, .key 1 (.insert 9)))
      ⟨firstShard (((ShardData.new 2).register 0 0 8 .small).register 1 1 9 .small), 1, 1⟩ :=
    .other rfl (r := .value none) rfl
  have hsecond : Bulk.Step ⟨64, by decide⟩ (.retain succValue)
      ⟨firstShard (((ShardData.new 2).register 0 0 8 .small).register 1 1 9 .small), 1, 1⟩ none
      ⟨firstShard (((ShardData.new 2).register 0 0 8 .small).register 1 1 9 .small), 2, 1⟩ :=
    .visit (σ := .new 2) rfl
  have hpath := ((Lts.Path.nil.snoc
    (M := Bulk.lts ⟨64, by decide⟩ (.retain succValue) oneEntry) hfirst).snoc
      hinsert).snoc hsecond
  refine ⟨_, _, ⟨hpath, rfl, rfl, rfl⟩, retain_once oneEntry_reachable hpath rfl ?_ rfl⟩
  intro y hy a ha
  simp only [List.mem_append, List.mem_singleton, List.nil_append] at hy
  rcases hy with (rfl | rfl) | rfl
  · cases ha
  · cases ha
    exact ⟨1, .insert 9, rfl, by decide⟩
  · cases ha

end Neocache
