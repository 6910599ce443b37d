import Neocache.Shard.Exec

/-!
# queue の整合と counter の幅

到達可能な shard の状態すべてで成り立つ二つの不変条件。

* `Covered` — 表にある entry は、自分の loc の queue に node を持つ。
  だから追い出しの候補から漏れることはない
* `Bounds` — counter は表の実数とは一致しないことがあるが、外れる幅は決まっている

`Bounds` の各行は単独では保たれない。たとえば main の行は、昇格した key が既に main にいた場合に
「いま丁度 `shardCap` である」ことを使う。small の行は、main から追い出した key が small にいた場合に、
small queue が空なら small の entry も無いという `Covered` を使う。
-/

namespace Neocache

open Infra Relation ShardData

variable {K V : Type*} [DecidableEq K] {hash : K → UInt64} {σ σ' : ShardData K V} {cap : Nat}

/-! ## 定数の field -/

/-- 容量の field は、どの変化でも変わらない。 -/
theorem Move.caps (h : Move hash σ σ') :
    σ'.shardCap = σ.shardCap ∧ σ'.smallCap = σ.smallCap := by
  rcases h with h | h
  · cases h with
    | @skip loc => cases loc <;> exact ⟨rfl, rfl⟩
    | promote => exact ⟨rfl, rfl⟩
    | evictSmall => exact ⟨rfl, rfl⟩
    | secondChance => exact ⟨rfl, rfl⟩
    | evictMain => exact ⟨rfl, rfl⟩
  · cases h with
    | takeGhost => exact ⟨rfl, rfl⟩
    | register k v loc => cases loc <;> exact ⟨rfl, rfl⟩
    | update => exact ⟨rfl, rfl⟩
    | @unlink k e => cases h : e.loc <;> exact ⟨rfl, rfl⟩
    | clear => exact ⟨rfl, rfl⟩

theorem sweep_caps (h : ReflTransGen (Sweep hash) σ σ') :
    σ'.shardCap = σ.shardCap ∧ σ'.smallCap = σ.smallCap := by
  refine star_preserves (P := fun τ => τ.shardCap = σ.shardCap ∧ τ.smallCap = σ.smallCap) ?_ h
    ⟨rfl, rfl⟩
  rintro τ τ' ⟨h1, h2⟩ hstep
  obtain ⟨h1', h2'⟩ := Move.caps (Or.inl hstep)
  exact ⟨h1'.trans h1, h2'.trans h2⟩

theorem ShardReachable.caps (h : ShardReachable hash cap σ) :
    σ.shardCap = cap ∧ σ.smallCap = (ShardData.new cap : ShardData K V).smallCap := by
  refine (h.invariant (P := fun σ => σ.shardCap = cap ∧
    σ.smallCap = (ShardData.new cap : ShardData K V).smallCap) ⟨rfl, rfl⟩ ?_).2
  rintro τ τ' - ⟨h1, h2⟩ hm
  obtain ⟨h1', h2'⟩ := hm.caps
  exact ⟨h1'.trans h1, h2'.trans h2⟩

/-! ## 候補から漏れないこと -/

/-- 表にある entry の key は、その loc の queue にある。 -/
def Covered (σ : ShardData K V) : Prop :=
  ∀ k e, σ.map.get? k = some e → k ∈ σ.queueKeys e.loc

theorem ShardData.Sweep.covered (h : Sweep hash σ σ') (hc : Covered σ) : Covered σ' := by
  intro x e' hx
  cases h with
  | @skip loc k ks hq dead =>
    rw [setQueue_map] at hx
    have hmem := hc x e' hx
    by_cases hloc : e'.loc = loc
    · subst hloc
      rw [hq] at hmem
      rcases List.mem_cons.mp hmem with rfl | hmem
      · rw [dead] at hx; cases hx
      · simpa using hmem
    · rw [queueKeys_setQueue_ne σ hloc]; exact hmem
  | @promote k ks e full quota pos hq hk hot =>
    by_cases hxk : x = k
    · subst hxk
      rw [Table.get?_modify, if_pos rfl, hk] at hx
      cases hx
      simp [queueKeys]
    · rw [Table.get?_modify, if_neg hxk] at hx
      have hmem := hc x e' hx
      cases hloc : e'.loc with
      | small => rw [hloc] at hmem; simpa [queueKeys, hq, hxk] using hmem
      | main => rw [hloc] at hmem; simpa [queueKeys, hxk] using hmem
  | @evictSmall k ks e full quota pos hq hk cold =>
    simp only [addToGhost, Table.get?_remove] at hx
    split at hx
    · cases hx
    · next hxk =>
      have hmem := hc x e' hx
      cases hloc : e'.loc with
      | small => rw [hloc] at hmem; simpa [queueKeys, addToGhost, hq, hxk] using hmem
      | main => rw [hloc] at hmem; simpa [queueKeys, addToGhost] using hmem
  | @secondChance k ks e hq hk hot =>
    -- freq を減らしても loc は変わらないので、元の entry の node がそのまま使える。
    have hold : ∃ e₀, σ.map.get? x = some e₀ ∧ e₀.loc = e'.loc := by
      rw [Table.get?_modify] at hx
      split at hx
      · obtain ⟨e₀, he₀, rfl⟩ := Option.map_eq_some_iff.mp hx
        exact ⟨e₀, he₀, rfl⟩
      · exact ⟨e', hx, rfl⟩
    obtain ⟨e₀, he₀, hloc₀⟩ := hold
    have hmem := hc x e₀ he₀
    rw [hloc₀] at hmem
    cases hloc : e'.loc with
    | small => rw [hloc] at hmem; exact hmem
    | main => rw [hloc] at hmem; simpa [queueKeys, hq, or_comm] using hmem
  | @evictMain k ks e full side pos hq hk cold =>
    simp only [Table.get?_remove] at hx
    split at hx
    · cases hx
    · next hxk =>
      have hmem := hc x e' hx
      cases hloc : e'.loc with
      | small => rw [hloc] at hmem; exact hmem
      | main => rw [hloc] at hmem; simpa [queueKeys, hq, hxk] using hmem

theorem ShardData.Edit.covered (h : Edit hash σ σ') (hc : Covered σ) : Covered σ' := by
  intro x e' hx
  cases h with
  | takeGhost => exact hc x e' hx
  | register k v loc hk room =>
    rw [register_map, Table.get?_insert] at hx
    rw [register_queueKeys]
    split at hx
    · next hxk =>
      cases hx
      subst hxk
      simp [CacheEntry.new]
    · have hmem := hc x e' hx
      split
      · exact List.mem_append_left _ hmem
      · exact hmem
  | update k f hloc =>
    rw [updateEntry, Table.get?_modify] at hx
    split at hx
    · next hxk =>
      obtain ⟨e₀, he₀, rfl⟩ := Option.map_eq_some_iff.mp hx
      subst hxk
      rw [hloc e₀ he₀]
      exact hc x e₀ he₀
    · exact hc x e' hx
  | @unlink k e hk =>
    rw [unlink_map, Table.get?_remove] at hx
    rw [unlink_queueKeys]
    split at hx
    · cases hx
    · exact hc x e' hx
  | clear => cases hx

theorem ShardReachable.covered (h : ShardReachable hash cap σ) : Covered σ := by
  refine (h.invariant (P := Covered) ?_ ?_).2
  · intro k e hk; cases hk
  · rintro τ τ' - hc (hs | he)
    · exact hs.covered hc
    · exact he.covered hc

/-- 到達可能な状態では、二本の列が揃い、表の entry はどれも自分の queue に node を持つ。 -/
theorem queues_wellFormed (h : ShardReachable hash cap σ) :
    (σ.smallHashes.length = σ.smallKeys.length ∧ σ.mainHashes.length = σ.mainKeys.length) ∧
      (∀ i : Nat, σ.smallHashes[i]? = σ.smallKeys[i]?.map hash) ∧
      (∀ i : Nat, σ.mainHashes[i]? = σ.mainKeys[i]?.map hash) ∧
      (∀ k e, σ.map.get? k = some e → e.loc = .small → k ∈ σ.smallKeys) ∧
      ∀ k e, σ.map.get? k = some e → e.loc = .main → k ∈ σ.mainKeys := by
  have hs : σ.smallHashes = σ.smallKeys.map hash := h.linked.queue .small
  have hm : σ.mainHashes = σ.mainKeys.map hash := h.linked.queue .main
  refine ⟨⟨by simp [hs], by simp [hm]⟩, fun i => by simp [hs], fun i => by simp [hm], ?_, ?_⟩
  · intro k e hk hloc
    have hmem := h.covered k e hk
    rw [hloc] at hmem
    exact hmem
  · intro k e hk hloc
    have hmem := h.covered k e hk
    rw [hloc] at hmem
    exact hmem

/-- 除いて入れ直した key は、small queue に node を二つ持つ。 -/
theorem queues_wellFormed_reinsert :
    ∃ rs σ, runOps UInt64.ofNat [.key 0 (.insert 7), .key 0 .remove, .key 0 (.insert 8)]
        (ShardData.new 2 : ShardData Nat Nat) = .ok (rs, σ) ∧
      σ.smallKeys = [0, 0] ∧ (∃ e, σ.map.get? 0 = some e ∧ e.loc = .small) ∧
      σ.smallHashes.length = σ.smallKeys.length ∧
      ∀ k e, σ.map.get? k = some e → e.loc = .small → k ∈ σ.smallKeys := by
  have hrun : runOps UInt64.ofNat [.key 0 (.insert 7), .key 0 .remove, .key 0 (.insert 8)]
      (ShardData.new 2 : ShardData Nat Nat) = .ok (_, _) := rfl
  obtain ⟨⟨hlen, -⟩, -, -, hsmall, -⟩ := queues_wellFormed (reachable_runOps reachable_new hrun)
  exact ⟨_, _, hrun, rfl, ⟨_, rfl, rfl⟩, hlen, hsmall⟩

/-! ## counter の幅 -/

/--
counter と表の実数の間の不等式。

`small` は「small の counter は実数より `smallCap - 1` までしか多くない」、
`main` は「main の counter は実数より `shardCap - smallCap` までしか多くない」と読む。
-/
structure Bounds (σ : ShardData K V) : Prop where
  total : σ.smallLive + σ.mainLive ≤ σ.shardCap
  population : σ.countLoc .small + σ.countLoc .main ≤ σ.smallLive + σ.mainLive
  small : σ.smallLive + 1 ≤ σ.countLoc .small + σ.smallCap
  main : σ.mainLive + σ.smallCap ≤ σ.countLoc .main + σ.shardCap
  quota_pos : 1 ≤ σ.smallCap
  quota_le : σ.smallCap ≤ σ.shardCap

theorem divCeil_le (n : Nat) : divCeil n 10 ≤ n := by
  unfold divCeil
  split <;> omega

omit [DecidableEq K] in
theorem bounds_new (hcap : 0 < cap) : Bounds (ShardData.new cap : ShardData K V) := by
  have hd := divCeil_le cap
  have hz : cap ≠ 0 := by omega
  have hq : (ShardData.new cap : ShardData K V).smallCap = max (divCeil cap 10) 1 := by
    simp [ShardData.new, hz]
  have hc : (ShardData.new cap : ShardData K V).shardCap = cap := rfl
  constructor
  · show 0 + 0 ≤ cap
    omega
  · exact Nat.le_refl _
  · rw [hq]
    show 0 + 1 ≤ 0 + max (divCeil cap 10) 1
    omega
  · rw [hq, hc]
    show 0 + max (divCeil cap 10) 1 ≤ 0 + cap
    omega
  · rw [hq]; omega
  · rw [hq, hc]; omega

omit [DecidableEq K] in
theorem Bounds.len_le (hb : Bounds σ) : σ.map.len ≤ σ.totalLive := by
  rw [← countLoc_add]
  exact hb.population

/-- loc ごとの重み。`countLoc` はこの総和である。 -/
def locWeight (loc : Loc) (e : CacheEntry V) : Nat := if e.loc = loc then 1 else 0

omit [DecidableEq K] in
theorem countLoc_eq (σ : ShardData K V) (loc : Loc) : σ.countLoc loc = σ.map.sum (locWeight loc) :=
  rfl

/-- loc を変えない書き換えでは個数は動かない。 -/
theorem sum_locWeight_modify {t : RawTable K V} {k : K} {f : CacheEntry V → CacheEntry V}
    (hf : ∀ e, t.get? k = some e → (f e).loc = e.loc) (loc : Loc) :
    (t.modify k f).sum (locWeight loc) = t.sum (locWeight loc) := by
  cases hk : t.get? k with
  | none => rw [Table.modify_of_not_mem hk]
  | some e =>
    have h := Table.sum_modify hk f (locWeight loc)
    simp only [locWeight, hf e hk] at h
    omega

/--
追い出しの一歩で counter と表の実数がどう動くか。

候補になった entry の loc は、取り出した queue と食い違うことがある。
食い違いは `locWeight` に残るので、実数の側だけが別の loc で動く。
-/
theorem ShardData.Sweep.counts (h : Sweep hash σ σ') :
    (σ'.smallLive = σ.smallLive ∧ σ'.mainLive = σ.mainLive ∧
      ∀ loc, σ'.countLoc loc = σ.countLoc loc) ∨
    ∃ k e, σ.Over ∧ σ.map.get? k = some e ∧
      ((σ.smallCap ≤ σ.smallLive ∧ 0 < σ.smallLive ∧ k ∈ σ.smallKeys ∧ 0 < e.freq ∧
          σ'.smallLive = σ.smallLive - 1 ∧ σ'.mainLive = σ.mainLive + 1 ∧
          σ'.countLoc .small + locWeight .small e = σ.countLoc .small ∧
          σ'.countLoc .main = σ.countLoc .main + locWeight .small e) ∨
        ((∀ loc, σ'.countLoc loc + locWeight loc e = σ.countLoc loc) ∧
          (σ.smallCap ≤ σ.smallLive ∧ 0 < σ.smallLive ∧ k ∈ σ.smallKeys ∧ e.freq = 0 ∧
              σ'.smallLive = σ.smallLive - 1 ∧ σ'.mainLive = σ.mainLive ∨
            (σ.smallLive < σ.smallCap ∨ σ.smallKeys = []) ∧ 0 < σ.mainLive ∧ k ∈ σ.mainKeys ∧
              σ'.smallLive = σ.smallLive ∧ σ'.mainLive = σ.mainLive - 1))) := by
  cases h with
  | @skip loc =>
    exact Or.inl ⟨by cases loc <;> rfl, by cases loc <;> rfl, fun _ => by simp [countLoc_eq]⟩
  | @promote k ks e full quota pos hq hk hot =>
    refine Or.inr ⟨k, e, full, hk, Or.inl ⟨quota, pos, by simp [hq], hot, rfl, rfl, ?_, ?_⟩⟩
    · exact Table.sum_modify hk (fun e => { e with loc := .main }) (locWeight .small)
    · have h : (σ.map.modify k fun e => { e with loc := .main }).sum (locWeight .main)
          + locWeight .main e = σ.countLoc .main + 1 :=
        Table.sum_modify hk (fun e => { e with loc := .main }) (locWeight .main)
      show (σ.map.modify k fun e => { e with loc := .main }).sum (locWeight .main) = _
      -- 既に main に居た key の昇格では、表の側は動かない。
      cases hloc : e.loc <;> simp only [locWeight, hloc] at h ⊢ <;> simp at h ⊢ <;> omega
  | @evictSmall k ks e full quota pos hq hk cold =>
    exact Or.inr ⟨k, e, full, hk, Or.inr ⟨fun loc => Table.sum_remove hk (locWeight loc),
      Or.inl ⟨quota, pos, by simp [hq], cold, rfl, rfl⟩⟩⟩
  | @secondChance k ks e hq hk hot =>
    exact Or.inl ⟨rfl, rfl, sum_locWeight_modify fun _ _ => rfl⟩
  | @evictMain k ks e full side pos hq hk cold =>
    exact Or.inr ⟨k, e, full, hk, Or.inr ⟨fun loc => Table.sum_remove hk (locWeight loc),
      Or.inr ⟨side, pos, by simp [hq], rfl, rfl⟩⟩⟩

/-- 追い出しの外の変化で counter と表の実数がどう動くか。 -/
theorem ShardData.Edit.counts (h : Edit hash σ σ') :
    (σ'.smallLive = σ.smallLive ∧ σ'.mainLive = σ.mainLive ∧
      ∀ loc, σ'.countLoc loc = σ.countLoc loc) ∨
    (∃ loc, ¬ σ.Over ∧ σ'.live loc = σ.live loc + 1 ∧ σ'.countLoc loc = σ.countLoc loc + 1 ∧
      ∀ loc', loc' ≠ loc → σ'.live loc' = σ.live loc' ∧ σ'.countLoc loc' = σ.countLoc loc') ∨
    (∃ loc, σ'.live loc = σ.live loc - 1 ∧ σ'.countLoc loc + 1 = σ.countLoc loc ∧
      ∀ loc', loc' ≠ loc → σ'.live loc' = σ.live loc' ∧ σ'.countLoc loc' = σ.countLoc loc') ∨
    ∀ loc, σ'.live loc = 0 ∧ σ'.countLoc loc = 0 := by
  cases h with
  | takeGhost => exact Or.inl ⟨rfl, rfl, fun _ => rfl⟩
  | register k v loc hk room =>
    have hsum : ∀ loc', (σ.register (hash k) k v loc).countLoc loc'
        = σ.countLoc loc' + locWeight loc' (CacheEntry.new v loc) := by
      intro loc'
      rw [countLoc_eq, register_map]
      exact Table.sum_insert _ _ hk _
    refine Or.inr (Or.inl ⟨loc, room, by simp [register_live],
      by simp [hsum, locWeight, CacheEntry.new], ?_⟩)
    intro loc' hne
    exact ⟨by simp [register_live, hne], by simp [hsum, locWeight, CacheEntry.new, Ne.symm hne]⟩
  | update k f hloc => exact Or.inl ⟨rfl, rfl, sum_locWeight_modify hloc⟩
  | @unlink k e hk =>
    have hsum : ∀ loc', (σ.unlink k e.loc).countLoc loc' + locWeight loc' e = σ.countLoc loc' := by
      intro loc'
      rw [countLoc_eq, unlink_map]
      exact Table.sum_remove hk _
    refine Or.inr (Or.inr (Or.inl ⟨e.loc, by simp [unlink_live], ?_, ?_⟩))
    · have h := hsum e.loc
      simp only [locWeight] at h
      simpa using h
    · intro loc' hne
      have h := hsum loc'
      simp only [locWeight, if_neg (Ne.symm hne)] at h
      exact ⟨by simp [unlink_live, hne], by simpa using h⟩
  | clear => exact Or.inr (Or.inr (Or.inr fun loc => ⟨by cases loc <;> rfl, rfl⟩))

theorem locWeight_add (e : CacheEntry V) : locWeight .small e + locWeight .main e = 1 := by
  unfold locWeight
  cases e.loc <;> rfl

theorem locWeight_le_countLoc {k : K} {e : CacheEntry V} (hk : σ.map.get? k = some e) (loc : Loc) :
    locWeight loc e ≤ σ.countLoc loc := by
  have h := Table.sum_remove hk (locWeight loc)
  rw [countLoc_eq]
  omega

/-- 追い出しの一歩は `Bounds` を保つ。 -/
theorem ShardData.Sweep.bounds (h : Sweep hash σ σ') (hc : Covered σ) (hb : Bounds σ) :
    Bounds σ' := by
  obtain ⟨hcap, hquota⟩ := Move.caps (Or.inl h)
  obtain ⟨hbt, hbl, hbs, hbm, hq1, hq2⟩ := hb
  rcases h.counts with ⟨hs, hm, hcount⟩ | ⟨k, e, full, hk, hcase⟩
  · have h1 := hcount .small
    have h2 := hcount .main
    constructor <;> omega
  · -- counter が動くのは満杯のときだけなので、その合計は丁度 `shardCap` である
    have hover : σ.shardCap ≤ σ.smallLive + σ.mainLive := full.2
    have hw := locWeight_add e
    have hpos1 := locWeight_le_countLoc hk .small
    have hpos2 := locWeight_le_countLoc hk .main
    rcases hcase with ⟨quota, pos, -, -, hs, hm, h1, h2⟩ | ⟨hcount, hside⟩
    · constructor <;> omega
    · have h1 := hcount .small
      have h2 := hcount .main
      rcases hside with ⟨quota, pos, -, -, hs, hm⟩ | ⟨side, pos, -, hs, hm⟩
      · constructor <;> omega
      · -- small queue が空なら、候補は small の entry ではない
        have hside : σ.smallLive < σ.smallCap ∨ locWeight .small e = 0 := by
          rcases side with hlt | hnil
          · exact Or.inl hlt
          · right
            unfold locWeight
            split
            · next hloc =>
              have hmem := hc k e hk
              rw [hloc] at hmem
              simp [queueKeys, hnil] at hmem
            · rfl
        constructor <;> omega

theorem ShardData.Edit.bounds (h : Edit hash σ σ') (hpos : 0 < σ.shardCap) (hb : Bounds σ) :
    Bounds σ' := by
  obtain ⟨hcap, hquota⟩ := Move.caps (Or.inr h)
  obtain ⟨hbt, hbl, hbs, hbm, hq1, hq2⟩ := hb
  rcases h.counts with ⟨hs, hm, hcount⟩ | ⟨loc, room, hl, hn, hrest⟩ | ⟨loc, hl, hn, hrest⟩ | hzero
  · have h1 := hcount .small
    have h2 := hcount .main
    constructor <;> omega
  · have hroom : σ.smallLive + σ.mainLive < σ.shardCap := by
      by_contra hc
      exact room ⟨hpos, Nat.le_of_not_lt hc⟩
    cases loc with
    | small =>
      obtain ⟨hl', hn'⟩ := hrest .main (by simp)
      simp only [live] at hl hl'
      constructor <;> omega
    | main =>
      obtain ⟨hl', hn'⟩ := hrest .small (by simp)
      simp only [live] at hl hl'
      constructor <;> omega
  · cases loc with
    | small =>
      obtain ⟨hl', hn'⟩ := hrest .main (by simp)
      simp only [live] at hl hl'
      constructor <;> omega
    | main =>
      obtain ⟨hl', hn'⟩ := hrest .small (by simp)
      simp only [live] at hl hl'
      constructor <;> omega
  · obtain ⟨hl1, hn1⟩ := hzero .small
    obtain ⟨hl2, hn2⟩ := hzero .main
    simp only [live] at hl1 hl2
    constructor <;> omega

/-! ## 追い出しをする shard の不変条件 -/

/-- 追い出しをする shard で、どの変化も保つ条件をまとめたもの。 -/
structure Healthy (hash : K → UInt64) (σ : ShardData K V) : Prop where
  linked : Linked hash σ
  covered : Covered σ
  bounds : Bounds σ
  cap_pos : 0 < σ.shardCap

theorem Move.healthy (h : Move hash σ σ') (hs : Healthy hash σ) : Healthy hash σ' where
  linked := h.linked hs.linked
  covered := h.elim (fun hw => hw.covered hs.covered) fun he => he.covered hs.covered
  bounds := h.elim (fun hw => hw.bounds hs.covered hs.bounds) fun he => he.bounds hs.cap_pos hs.bounds
  cap_pos := by rw [h.caps.1]; exact hs.cap_pos

theorem sweep_healthy (h : ReflTransGen (Sweep hash) σ σ') (hs : Healthy hash σ) :
    Healthy hash σ' :=
  star_preserves (P := Healthy hash) (fun _ _ hs hstep => Move.healthy (Or.inl hstep) hs) h hs

theorem ShardReachable.healthy (h : ShardReachable hash cap σ) (hcap : 0 < cap) :
    Healthy hash σ := by
  refine (h.invariant (P := Healthy hash) ?_ ?_).2
  · exact ⟨linked_new cap, fun _ _ hk => (by cases hk), bounds_new hcap, hcap⟩
  · intro τ τ' _ hs hm
    exact hm.healthy hs

/-- 追い出しをする shard の表は `shardCap` 個を超えない。 -/
theorem ShardReachable.len_le (h : ShardReachable hash cap σ) (hcap : 0 < cap) :
    σ.map.len ≤ cap := by
  have hb := (h.healthy hcap).bounds
  have hle := Nat.le_trans hb.len_le hb.total
  rwa [h.caps.1] at hle

end Neocache
