import Neocache.Properties.Eviction

/-!
# counter は表の実数と一致するか

`smallLive` と `mainLive` は「生きた entry の個数」を手で数えたものである。
文書（`docs/architecture.md`）は、queue に残った古い node はこれに数えないと言う。

ところが古い node は、同じ key が入れ直されると新しい node と区別が付かない。
追い出しは key で表を引いて生死を決めるので、古い node を新しい entry の node と見なし、
small から取り出した key が実は main にいる、ということが起こる。
このとき counter だけが動いて実数とずれる（`counters_drift`）。

* `counters_exact` — 追い出しをする挿入の直前に古い node が残っていなければ（`Tidy`）、
  counter は実数と一致し続ける
* `noPrematureEviction` — 除去のときに counter が 0 で止まらなければ、合計は表の個数と一致し、
  空きのある shard への挿入は何も追い出さない
-/

namespace Neocache

open Infra Relation ShardData

variable {K V : Type*} [DecidableEq K] {hash : K → UInt64} {σ σ' : ShardData K V} {cap : Nat}

/-! ## ずれる実行 -/

/-- 除いて入れ直した key を読んでから、満杯の shard に別の key を入れる。 -/
def driftRun : List (ShardOp Nat Nat) :=
  [.key 0 (.insert 0), .key 0 .remove, .key 0 (.insert 0), .key 1 (.insert 1), .key 0 .get,
    .key 2 (.insert 2)]

/-- 同じ node が二度昇格し、small の counter が実数より少なく、main の counter が多くなる。 -/
theorem counters_drift :
    ∃ rs σ, runOps UInt64.ofNat driftRun (ShardData.new 2) = .ok (rs, σ) ∧
      ¬ (σ.smallLive = σ.countLoc .small ∧ σ.mainLive = σ.countLoc .main) := by
  have hrun : runOps UInt64.ofNat driftRun (ShardData.new 2) = .ok (_, _) := rfl
  exact ⟨_, _, hrun, by decide⟩

/-! ## 古い node が残っていないこと -/

/--
生きた entry の key に、追い出しが取り違える node が無い。

main の entry は small queue に node を持たない。small の entry は main queue に node を持たず、
昇格する entry（`freq` が正）なら small queue の node も一つだけである。
-/
def TidyEntry (σ : ShardData K V) (k : K) (e : CacheEntry V) : Prop :=
  (e.loc = .main → k ∉ σ.smallKeys) ∧
    (e.loc = .small → k ∉ σ.mainKeys ∧ (σ.smallKeys.count k ≤ 1 ∨ e.freq = 0))

instance (σ : ShardData K V) (k : K) (e : CacheEntry V) : Decidable (TidyEntry σ k e) :=
  inferInstanceAs (Decidable (_ ∧ _))

def Tidy (σ : ShardData K V) : Prop := ∀ s ∈ σ.map.slots, TidyEntry σ s.key s.val

instance (σ : ShardData K V) : Decidable (Tidy σ) :=
  inferInstanceAs (Decidable (∀ s ∈ σ.map.slots, TidyEntry σ s.key s.val))

theorem tidy_iff : Tidy σ ↔ ∀ k e, σ.map.get? k = some e → TidyEntry σ k e := by
  constructor
  · intro h k e hk
    obtain ⟨s, hs, rfl, rfl⟩ := Table.get?_eq_some.mp hk
    exact h s hs
  · intro h s hs
    exact h _ _ (Table.get?_of_mem hs)

/-- 片付いていれば、queue から取り出した生きた key の entry はその queue に属する。 -/
theorem Tidy.loc_eq {k : K} {e : CacheEntry V} (h : Tidy σ) (hk : σ.map.get? k = some e)
    (loc : Loc) (hmem : k ∈ σ.queueKeys loc) : e.loc = loc := by
  have ht := tidy_iff.mp h k e hk
  cases hloc : e.loc <;> cases loc
  · rfl
  · exact absurd hmem (ht.2 hloc).1
  · exact absurd hmem (ht.1 hloc)
  · rfl

/-- queue が縮んだだけなら、片付いた entry は片付いたままである。 -/
theorem TidyEntry.mono {k : K} {e e' : CacheEntry V} (h : TidyEntry σ k e) (hloc : e'.loc = e.loc)
    (hfreq : e.freq = 0 → e'.freq = 0) (hsmall : σ'.smallKeys.count k ≤ σ.smallKeys.count k)
    (hmain : k ∈ σ'.mainKeys → k ∈ σ.mainKeys) : TidyEntry σ' k e' := by
  have hmem : k ∈ σ'.smallKeys → k ∈ σ.smallKeys := by
    intro hk
    have hpos := List.count_pos_iff.mpr hk
    exact List.count_pos_iff.mp (by omega)
  refine ⟨fun hl hk => h.1 (hloc ▸ hl) (hmem hk), fun hl => ?_⟩
  obtain ⟨hm, hc⟩ := h.2 (hloc ▸ hl)
  refine ⟨fun hk => hm (hmain hk), ?_⟩
  rcases hc with hc | hz
  · exact Or.inl (by omega)
  · exact Or.inr (hfreq hz)

theorem ShardData.Sweep.tidy (h : Sweep hash σ σ') (ht : Tidy σ) : Tidy σ' := by
  have hget := tidy_iff.mp ht
  rw [tidy_iff]
  intro x e' hx
  cases h with
  | @skip loc k ks hq dead =>
    rw [setQueue_map] at hx
    refine (hget x e' hx).mono rfl id ?_ ?_
    · cases loc with
      | small =>
        change σ.smallKeys = _ at hq
        show ks.count x ≤ _
        rw [hq]
        exact List.count_le_count_cons
      | main => exact Nat.le_refl _
    · cases loc with
      | small => exact id
      | main =>
        change σ.mainKeys = _ at hq
        intro hmem
        rw [hq]
        exact List.mem_cons_of_mem _ hmem
  | @promote k ks e full quota pos hq hk hot =>
    have hloc : e.loc = .small := ht.loc_eq hk .small (by simp [queueKeys, hq])
    rw [Table.get?_modify] at hx
    split at hx
    · next hxk =>
      -- 昇格した key の node は一つだけだったので、small queue にはもう無い
      subst hxk
      rw [hk] at hx
      cases hx
      refine ⟨fun _ hmem => ?_, fun hl => (by cases hl)⟩
      change x ∈ ks at hmem
      have hcount := List.count_pos_iff.mpr hmem
      rcases ((hget x e hk).2 hloc).2 with hc | hz
      · rw [hq, List.count_cons_self] at hc
        omega
      · omega
    · next hxk =>
      have hold := hget x e' hx
      refine ⟨fun hl hmem => hold.1 hl ?_, fun hl => ⟨fun hmem => ?_, ?_⟩⟩
      · rw [hq]
        exact List.mem_cons_of_mem _ hmem
      · rcases List.mem_append.mp hmem with hmem | hmem
        · exact (hold.2 hl).1 hmem
        · exact hxk (List.mem_singleton.mp hmem)
      · have hle : ks.count x ≤ σ.smallKeys.count x := by
          rw [hq]
          exact List.count_le_count_cons
        rcases (hold.2 hl).2 with hc | hz
        · exact Or.inl (Nat.le_trans hle hc)
        · exact Or.inr hz
  | @evictSmall k ks e full quota pos hq hk cold =>
    simp only [addToGhost, Table.get?_remove] at hx
    split at hx
    · cases hx
    · refine (hget x e' hx).mono rfl id ?_ id
      show ks.count x ≤ _
      rw [hq]
      exact List.count_le_count_cons
  | @secondChance k ks e hq hk hot =>
    -- 末尾に回しただけなので、main queue に居る key は変わらない
    have hmain : ∀ y, y ∈ ks ++ [k] → y ∈ σ.mainKeys := by
      intro y hy
      rw [hq]
      simpa [or_comm] using hy
    rw [Table.get?_modify] at hx
    split at hx
    · next hxk =>
      subst hxk
      rw [hk] at hx
      cases hx
      exact (hget x e hk).mono rfl (fun hz => (by simp [hz])) (Nat.le_refl _) (hmain x)
    · exact (hget x e' hx).mono rfl id (Nat.le_refl _) (hmain x)
  | @evictMain k ks e full side pos hq hk cold =>
    simp only [Table.get?_remove] at hx
    split at hx
    · cases hx
    · refine (hget x e' hx).mono rfl id (Nat.le_refl _) ?_
      intro hmem
      rw [hq]
      exact List.mem_cons_of_mem _ hmem

/-! ## 一致が保たれること -/

/-- counter が表の実数と一致している。 -/
def Exact (σ : ShardData K V) : Prop := ∀ loc, σ.live loc = σ.countLoc loc

theorem ShardData.Sweep.exact (h : Sweep hash σ σ') (ht : Tidy σ) (hx : Exact σ) : Exact σ' := by
  have hs : σ.smallLive = σ.countLoc .small := hx .small
  have hm : σ.mainLive = σ.countLoc .main := hx .main
  have key : σ'.smallLive = σ'.countLoc .small ∧ σ'.mainLive = σ'.countLoc .main := by
    rcases h.counts with ⟨hs', hm', hcount⟩ | ⟨k, e, full, hk, hcase⟩
    · rw [hs', hm', hcount, hcount]
      exact ⟨hs, hm⟩
    · have hw := locWeight_add e
      rcases hcase with ⟨-, -, hmem, -, hs', hm', h1, h2⟩ | ⟨hcount, hside⟩
      · -- 片付いていれば、small queue で見つけた entry は small の一つとして数えられている
        have hone : locWeight .small e = 1 := if_pos (ht.loc_eq hk .small hmem)
        omega
      · have h1 := hcount .small
        have h2 := hcount .main
        rcases hside with ⟨-, -, hmem, -, hs', hm'⟩ | ⟨-, -, hmem, hs', hm'⟩
        · have hone : locWeight .small e = 1 := if_pos (ht.loc_eq hk .small hmem)
          omega
        · have hone : locWeight .main e = 1 := if_pos (ht.loc_eq hk .main hmem)
          omega
  intro loc
  cases loc
  · exact key.1
  · exact key.2

theorem sweep_exact (h : ReflTransGen (Sweep hash) σ σ') (ht : Tidy σ) (hx : Exact σ) : Exact σ' :=
  (star_preserves (P := fun σ => Tidy σ ∧ Exact σ)
    (fun _ _ hp hstep => ⟨hstep.tidy hp.1, hstep.exact hp.1 hp.2⟩) h ⟨ht, hx⟩).2

theorem ShardData.Edit.exact (h : Edit hash σ σ') (hx : Exact σ) : Exact σ' := by
  intro loc'
  have hx' := hx loc'
  rcases h.counts with ⟨hs, hm, hcount⟩ | ⟨loc, -, hl, hn, hrest⟩ | ⟨loc, hl, hn, hrest⟩ | hzero
  · rw [hcount, ← hx']
    cases loc'
    · exact hs
    · exact hm
  · by_cases he : loc' = loc
    · subst he; omega
    · obtain ⟨hl', hn'⟩ := hrest loc' he
      omega
  · by_cases he : loc' = loc
    · subst he; omega
    · obtain ⟨hl', hn'⟩ := hrest loc' he
      omega
  · obtain ⟨hl, hn⟩ := hzero loc'
    omega

/-- 一操作の条件。追い出しを起こすなら、その直前の状態が片付いている。 -/
def SweepsTidy (σ : ShardData K V) (op : ShardOp K V) : Prop := op.Evicting σ → Tidy σ

theorem exec_exact {op : ShardOp K V} {r : Ret K V} (hl : Linked hash σ) (hx : Exact σ)
    (hok : SweepsTidy σ op) (h : op.exec hash σ = .ok (r, σ')) : Exact σ' := by
  have hedits : ∀ {τ}, ReflTransGen (Edit hash) σ τ → Exact τ :=
    fun hτ => star_preserves (P := Exact) (fun _ _ hx hstep => hstep.exact hx) hτ hx
  cases exec_outcome hl h with
  | present hk => exact hedits (.single (put_edit hk _))
  | idle => exact hx
  | @fresh k op v σ₁ hk hv hev =>
    obtain ⟨hg, hsw, hreg⟩ := fresh_moves (v := v) hl hk hev
    refine hreg.exact ?_
    by_cases hover : σ.Over
    · -- ghost を見るだけでは queue も表も動かないので、条件は loop の手前でも同じである
      have ht : Tidy σ := hok ⟨hk, by simp [hv], hover⟩
      exact sweep_exact hsw ht (hg.exact hx)
    · -- 満杯でなければ追い出しの loop は回らない
      have hroom : ¬ (σ.ghostCheck (hash k)).2.Over := hover
      rw [evictLoop_room hroom] at hev
      cases hev
      exact hg.exact hx
  | retain f n => exact hedits (retain_edits σ f n)
  | alterAll f n => exact hedits (retain_edits σ _ n)
  | clearAll => exact hedits (.single .clear)

/-- 追い出しの直前がいつも片付いている実行では、counter は表の実数と一致する。 -/
theorem counters_exact (h : ((shardLts K V hash cap).restrict SweepsTidy).Reachable σ) :
    σ.smallLive = σ.countLoc .small ∧ σ.mainLive = σ.countLoc .main ∧
      σ.totalLive = σ.map.len := by
  have hx : Exact σ := by
    refine Lts.Reachable.invariant (P := Exact) ?_ ?_ h
    · rintro _ rfl
      intro loc
      cases loc <;> rfl
    · rintro τ op τ' hr hx ⟨hok, r, hexec⟩
      exact exec_exact (ShardReachable.linked hr.of_restrict) hx hok hexec
  have hs : σ.smallLive = σ.countLoc .small := hx .small
  have hm : σ.mainLive = σ.countLoc .main := hx .main
  refine ⟨hs, hm, ?_⟩
  rw [totalLive, hs, hm, countLoc_add]

/-- 満杯の shard への挿入を含む実行でも、片付いていれば一致する。 -/
theorem counters_exact_afterEviction :
    ∃ σ : ShardData Nat Nat,
      ((shardLts Nat Nat UInt64.ofNat 2).restrict SweepsTidy).Reachable σ ∧
      σ.map.keys = [1, 2] ∧ σ.smallLive = σ.countLoc .small ∧ σ.mainLive = σ.countLoc .main ∧
      σ.totalLive = σ.map.len := by
  have h0 : ((shardLts Nat Nat UInt64.ofNat 2).restrict SweepsTidy).Reachable (.new 2) := .init rfl
  have h1 := Lts.Reachable.step (a := .key 0 (.insert 0)) h0 ⟨fun _ => (by decide), _, rfl⟩
  have h2 := Lts.Reachable.step (a := .key 1 (.insert 1)) h1 ⟨fun _ => (by decide), _, rfl⟩
  have h3 := Lts.Reachable.step (a := .key 2 (.insert 2)) h2 ⟨fun _ => (by decide), _, rfl⟩
  exact ⟨_, h3, rfl, counters_exact h3⟩

/-! ## 空きのある shard への挿入 -/

/-- 操作が除くその loc の entry の個数。全消去は counter も 0 に戻すので数えない。 -/
def ShardOp.drops (op : ShardOp K V) (σ : ShardData K V) (loc : Loc) : Nat :=
  match op with
  | .key k kop =>
    match σ.map.get? k with
    | some e => if (kop.onPresent k e).2.isNone ∧ e.loc = loc then 1 else 0
    | none => 0
  | .retain f n => dropped f loc n σ.map.slots
  | .alterAll _ _ | .clearAll => 0

/-- 一操作の条件。除く個数だけ counter が残っていて、0 で止まる引き算にならない。 -/
def NoSaturation (σ : ShardData K V) (op : ShardOp K V) : Prop :=
  ∀ loc, op.drops σ loc ≤ σ.live loc

/-- 古い node のせいで main の counter が実数より一つ多いまま残る。 -/
def leakRun : List (ShardOp Nat Nat) :=
  driftRun ++ [.key 1 .remove, .key 2 .remove, .key 3 (.insert 3)]

/-- 表の entry は一つで空きがあるのに、次の挿入がそれを追い出す。 -/
theorem premature_eviction :
    ∃ rs σ, runOps UInt64.ofNat leakRun (ShardData.new 2) = .ok (rs, σ) ∧ σ.map.len < 2 ∧
      σ.map.get? 4 = none ∧ σ.lookup 3 = some 3 ∧
      ∃ r σ', (ShardOp.key 4 (.insert 4)).exec UInt64.ofNat σ = .ok (r, σ') ∧
        σ'.lookup 3 = none := by
  have hrun : runOps UInt64.ofNat leakRun (ShardData.new 2) = .ok (_, _) := rfl
  exact ⟨_, _, hrun, by decide, by decide, by decide, _, _, rfl, by decide⟩

/-- counter の合計が表の個数と一致している。 -/
def Balanced (σ : ShardData K V) : Prop := σ.totalLive = σ.map.len

/-- 追い出しは合計と個数を同じだけ動かす。取り違えがあっても合計には出ない。 -/
theorem ShardData.Sweep.balanced (h : Sweep hash σ σ') (hb : Balanced σ) : Balanced σ' := by
  have hlen := countLoc_add σ
  have hlen' := countLoc_add σ'
  unfold Balanced totalLive at hb ⊢
  rcases h.counts with ⟨hs, hm, hcount⟩ | ⟨k, e, full, hk, hcase⟩
  · have h1 := hcount .small
    have h2 := hcount .main
    omega
  · have hw := locWeight_add e
    rcases hcase with ⟨-, pos, -, -, hs, hm, h1, h2⟩ | ⟨hcount, hside⟩
    · omega
    · have h1 := hcount .small
      have h2 := hcount .main
      rcases hside with ⟨-, pos, -, -, hs, hm⟩ | ⟨-, pos, -, hs, hm⟩
      · omega
      · omega

theorem unlink_balanced {k : K} {e : CacheEntry V} (hk : σ.map.get? k = some e)
    (hpos : 0 < σ.live e.loc) (hb : Balanced σ) : Balanced (σ.unlink k e.loc) := by
  have hlen := Table.len_remove hk
  unfold Balanced totalLive at hb ⊢
  rw [unlink_map]
  cases hloc : e.loc <;> rw [hloc] at hpos <;> simp only [live] at hpos <;>
    simp only [ShardData.unlink] <;> omega

theorem register_balanced {k : K} (h : UInt64) (v : V) (loc : Loc) (hk : σ.map.get? k = none)
    (hb : Balanced σ) : Balanced (σ.register h k v loc) := by
  have hlen := Table.len_insert h (CacheEntry.new v loc) hk
  unfold Balanced totalLive at hb ⊢
  rw [register_map, hlen]
  cases loc <;> simp only [ShardData.register] <;> omega

omit [DecidableEq K] in
theorem retainSlots_dropped (f : Nat → K → V → Bool × V) :
    ∀ (n : Nat) (l : List (Slot UInt64 K (CacheEntry V))),
      (retainSlots f n l).length + dropped f .small n l + dropped f .main n l = l.length
  | _, [] => rfl
  | n, s :: l => by
    have ih := retainSlots_dropped f (n + 1) l
    unfold retainSlots dropped
    by_cases hkeep : (f n s.key s.val.value).1 = true
    · simp only [hkeep, if_true, List.length_cons]
      simp
      omega
    · simp only [hkeep, List.length_cons]
      cases s.val.loc <;> simp <;> omega

theorem retain_balanced {f : Nat → K → V → Bool × V} {n : Nat}
    (hsat : ∀ loc, dropped f loc n σ.map.slots ≤ σ.live loc) (hb : Balanced σ) :
    Balanced (σ.retain f n).2 := by
  obtain ⟨hslots, heq⟩ := retain_spec σ f n
  have hcount := retainSlots_dropped f n σ.map.slots
  have hs : dropped f .small n σ.map.slots ≤ σ.smallLive := hsat .small
  have hm : dropped f .main n σ.map.slots ≤ σ.mainLive := hsat .main
  have htotal : (σ.retain f n).2.totalLive
      = σ.smallLive - dropped f .small n σ.map.slots
        + (σ.mainLive - dropped f .main n σ.map.slots) := by rw [heq]; rfl
  unfold Balanced Table.len at hb ⊢
  rw [htotal, hslots]
  unfold totalLive at hb
  omega

omit [DecidableEq K] in
theorem dropped_keepAll (g : Nat → K → V → V) (loc : Loc) :
    ∀ (n : Nat) (l : List (Slot UInt64 K (CacheEntry V))),
      dropped (fun n k v => (true, g n k v)) loc n l = 0
  | _, [] => rfl
  | n, s :: l => by
    unfold dropped
    rw [dropped_keepAll g loc (n + 1) l]
    simp

theorem exec_balanced {op : ShardOp K V} {r : Ret K V} (hl : Linked hash σ) (hb : Balanced σ)
    (hok : NoSaturation σ op) (h : op.exec hash σ = .ok (r, σ')) : Balanced σ' := by
  cases exec_outcome hl h with
  | @present k op e hk =>
    cases ho : (op.onPresent k e).2 with
    | some e' =>
      show σ.totalLive = (σ.map.modify k fun _ => e').len
      rw [Table.len_modify]
      exact hb
    | none =>
      -- counter が 1 以上あるので、0 で止まる引き算でも一つ減る
      have hpos := hok e.loc
      simp only [ShardOp.drops, hk, ho, Option.isNone_none] at hpos
      exact unlink_balanced hk (by simpa [Nat.succ_le_iff] using hpos) hb
  | idle => exact hb
  | @fresh k op v σ₁ hk hv hev =>
    obtain ⟨-, hsw, -⟩ := fresh_moves (v := v) hl hk hev
    have hg : Balanced (σ.ghostCheck (hash k)).2 := hb
    have hb₁ : Balanced σ₁ :=
      star_preserves (P := Balanced) (fun _ _ hb hstep => hstep.balanced hb) hsw hg
    exact register_balanced _ v _ (sweep_absent hsw hk) hb₁
  | retain f n => exact retain_balanced hok hb
  | alterAll f n =>
    refine retain_balanced (fun loc => ?_) hb
    rw [dropped_keepAll]
    exact Nat.zero_le _
  | clearAll => rfl

theorem balanced_of_noSaturation (h : ((shardLts K V hash cap).restrict NoSaturation).Reachable σ) :
    Balanced σ := by
  refine Lts.Reachable.invariant (P := Balanced) ?_ ?_ h
  · rintro _ rfl
    rfl
  · rintro τ op τ' hr hb ⟨hok, r, hexec⟩
    exact exec_balanced (ShardReachable.linked hr.of_restrict) hb hok hexec

/--
除去がいつも counter に収まる実行では、空きのある shard への新しい key の挿入は何も追い出さない。

容量が戻ることは `totalLive` と表の個数の一致として言う。
-/
theorem noPrematureEviction {v : V} (k : K) (op : KeyOp K V)
    (h : ((shardLts K V hash cap).restrict NoSaturation).Reachable σ)
    (hk : σ.map.get? k = none) (hv : op.newValue = some v) (hroom : σ.map.len < cap) :
    σ.totalLive = σ.map.len ∧
      ∃ σ', op.exec (hash k) k σ = .ok (op.absentRet, σ') ∧
        σ'.lookup = Function.update σ.lookup k (some v) := by
  have hr : ShardReachable hash cap σ := h.of_restrict
  have hb := balanced_of_noSaturation h
  have hnot : ¬ σ.Over := by
    rintro ⟨-, hle⟩
    rw [hr.caps.1, hb] at hle
    omega
  exact ⟨hb, _, (insertion_room hr.linked hk hv hnot).2, lookup_register _ _ _ _ _⟩

/-- 除いた分の空きに入れ直すと、残りの entry はそのままである。 -/
theorem noPrematureEviction_afterRemove :
    ∃ σ : ShardData Nat Nat,
      ((shardLts Nat Nat UInt64.ofNat 2).restrict NoSaturation).Reachable σ ∧ σ.map.keys = [1] ∧
      ∃ σ', (KeyOp.insert 2).exec (UInt64.ofNat 2) 2 σ = .ok (.value none, σ') ∧
        σ'.lookup = Function.update σ.lookup 2 (some 2) := by
  have h0 : ((shardLts Nat Nat UInt64.ofNat 2).restrict NoSaturation).Reachable (.new 2) := .init rfl
  have h1 := Lts.Reachable.step (a := .key 0 (.insert 0)) h0
    ⟨fun loc => (by cases loc <;> decide), _, rfl⟩
  have h2 := Lts.Reachable.step (a := .key 1 (.insert 1)) h1
    ⟨fun loc => (by cases loc <;> decide), _, rfl⟩
  have h3 := Lts.Reachable.step (a := .key 0 .remove) h2
    ⟨fun loc => (by cases loc <;> decide), _, rfl⟩
  exact ⟨_, h3, rfl, (noPrematureEviction 2 (.insert 2) h3 rfl rfl (by decide)).2⟩

end Neocache
