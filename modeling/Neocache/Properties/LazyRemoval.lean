import Neocache.Infra.Lists
import Neocache.Spec.EagerRemoval

/-!
# 残した node は観測に出るか

除いた key が入れ直されると、前の node が新しい entry の node として働き、
本来より早い番で追い出される（`lazy_differs`）。

追い出しをする挿入の直前に、どの生きた key も node を一つしか持たなければ（`Single`）、
残した node は全て死んでいて読み飛ばされるだけになり、除去で node も消す shard
（`Neocache/Spec/EagerRemoval.lean`）と観測が一致する（`lazy_eq_eager`）。

対応は二段で述べる。操作の間では `Mirrors`（参照側の queue は、こちらの queue から各 key の
最後の node だけを残し、その loc に属する生きた key に絞ったもの）、
追い出しの loop の中では `Aligned`（生きた key に絞っただけのもの）である。
-/

namespace Neocache

open Infra Relation ShardData

variable {K V : Type*} [DecidableEq K] {hash : K → UInt64} {σ σ' τ τ' : ShardData K V} {cap : Nat}

/-! ## 観測が食い違う実行 -/

/-- 除いて入れ直した key より先に、間に入れた key がある。 -/
def reinsertRun : List (ShardOp Nat Nat) :=
  [.key 0 (.insert 0), .key 0 .remove, .key 1 (.insert 1), .key 0 (.insert 0), .key 2 (.insert 2)]

/-- 最後の挿入で、こちらは入れ直した key を、参照側は間に入れた key を追い出す。 -/
theorem lazy_differs :
    observe (ShardOp.exec UInt64.ofNat) reinsertRun (ShardData.new 2)
      ≠ observe (ShardOp.execEager UInt64.ofNat) reinsertRun (ShardData.new 2) := by
  intro h
  have hlast := congrArg (fun trace => trace.map fun o => o.toOption.map fun p => p.2 0) h
  exact absurd hlast (by decide)

/-! ## node の個数 -/

/-- 二本の queue を合わせた、その key の node の個数。 -/
def ShardData.nodes (σ : ShardData K V) (k : K) : Nat := σ.smallKeys.count k + σ.mainKeys.count k

/-- どの生きた key も node を高々一つしか持たない。 -/
def Single (σ : ShardData K V) : Prop := ∀ s ∈ σ.map.slots, σ.nodes s.key ≤ 1

instance (σ : ShardData K V) : Decidable (Single σ) :=
  inferInstanceAs (Decidable (∀ s ∈ σ.map.slots, σ.nodes s.key ≤ 1))

theorem single_iff : Single σ ↔ ∀ k e, σ.map.get? k = some e → σ.nodes k ≤ 1 := by
  constructor
  · intro h k e hk
    obtain ⟨s, hs, rfl, rfl⟩ := Table.get?_eq_some.mp hk
    exact h s hs
  · intro h s hs
    exact h _ _ (Table.get?_of_mem hs)

/-- 追い出しの一歩は、どの key の node も増やさない。 -/
theorem ShardData.Sweep.nodes_le (h : Sweep hash σ σ') (x : K) : σ'.nodes x ≤ σ.nodes x := by
  unfold nodes
  cases h with
  | @skip loc k ks hq dead =>
    cases loc with
    | small =>
      change σ.smallKeys = _ at hq
      show ks.count x + σ.mainKeys.count x ≤ _
      rw [hq, List.count_cons]
      omega
    | main =>
      change σ.mainKeys = _ at hq
      show σ.smallKeys.count x + ks.count x ≤ _
      rw [hq, List.count_cons]
      omega
  | @promote k ks e full quota pos hq hk hot =>
    simp only [hq, List.count_cons, List.count_append, List.count_nil]
    omega
  | @evictSmall k ks e full quota pos hq hk cold =>
    simp only [addToGhost, hq, List.count_cons]
    omega
  | @secondChance k ks e hq hk hot =>
    simp only [hq, List.count_cons, List.count_append, List.count_nil]
    omega
  | @evictMain k ks e full side pos hq hk cold =>
    simp only [hq, List.count_cons]
    omega

theorem sweep_single (h : ReflTransGen (Sweep hash) σ σ') (hs : Single σ) : Single σ' := by
  refine star_preserves (P := Single) ?_ h hs
  intro τ τ' hτ hstep
  rw [single_iff] at hτ ⊢
  intro k e hk
  cases hold : τ.map.get? k with
  | none =>
    rw [hstep.absent hold] at hk
    cases hk
  | some e₀ => exact Nat.le_trans (hstep.nodes_le k) (hτ k e₀ hold)

/-! ## 対応 -/

/-- 表に entry があること。 -/
def ShardData.isLive (σ : ShardData K V) (k : K) : Bool := (σ.map.get? k).isSome

/-- 表にあり、その loc に属すること。 -/
def ShardData.ownedBy (σ : ShardData K V) (loc : Loc) (k : K) : Bool :=
  (σ.map.get? k).any fun e => e.loc = loc

/-- queue 以外が一致していること。 -/
structure Same (σ τ : ShardData K V) : Prop where
  map : τ.map = σ.map
  smallLive : τ.smallLive = σ.smallLive
  mainLive : τ.mainLive = σ.mainLive
  ghostSet : τ.ghostSet = σ.ghostSet
  shardCap : τ.shardCap = σ.shardCap
  smallCap : τ.smallCap = σ.smallCap
  ghostCap : τ.ghostCap = σ.ghostCap

omit [DecidableEq K] in
theorem Same.full (h : Same σ τ) : τ.Over ↔ σ.Over := by
  unfold Over totalLive
  rw [h.shardCap, h.smallLive, h.mainLive]

omit [DecidableEq K] in
theorem Same.trans {υ : ShardData K V} (h : Same σ τ) (h' : Same τ υ) : Same σ υ :=
  ⟨h'.map.trans h.map, h'.smallLive.trans h.smallLive, h'.mainLive.trans h.mainLive,
    h'.ghostSet.trans h.ghostSet, h'.shardCap.trans h.shardCap, h'.smallCap.trans h.smallCap,
    h'.ghostCap.trans h.ghostCap⟩

/-- 追い出しの loop の中での対応。`τ` の queue は `σ` の queue から死んだ node を除いたもの。 -/
structure Aligned (hash : K → UInt64) (σ τ : ShardData K V) : Prop where
  same : Same σ τ
  linked : Linked hash σ
  linked' : Linked hash τ
  covered : Covered σ
  single : Single σ
  queue : ∀ loc, τ.queueKeys loc = (σ.queueKeys loc).filter σ.isLive

/-- 操作の間での対応。`τ` の queue は、各 key の最後の node のうちその loc に属するもの。 -/
structure Mirrors (hash : K → UInt64) (σ τ : ShardData K V) : Prop where
  same : Same σ τ
  linked' : Linked hash τ
  queue : ∀ loc, τ.queueKeys loc = (σ.queueKeys loc).dedup.filter (σ.ownedBy loc)

theorem isLive_of_get? {k : K} {e : CacheEntry V} (hk : σ.map.get? k = some e) :
    σ.isLive k = true := by
  simp [isLive, hk]

theorem filter_isLive_dead {l : List K} (h : ∀ k ∈ l, σ.map.get? k = none) :
    l.filter σ.isLive = [] := by
  rw [List.filter_eq_nil_iff]
  intro k hk
  simp [isLive, h k hk]

/-- 表から除いた key が列に無ければ、絞り込みの結果は変わらない。 -/
theorem filter_isLive_remove {k : K} {l : List K} (hmap : σ'.map = σ.map.remove k) (hk : k ∉ l) :
    l.filter σ'.isLive = l.filter σ.isLive := by
  refine List.filter_congr ?_
  intro x hx
  have hne : x ≠ k := by rintro rfl; exact hk hx
  simp [isLive, hmap, Table.get?_remove, hne]

/-- 表の書き換えでは、絞り込みの結果は変わらない。 -/
theorem filter_isLive_modify (t : RawTable K V) (k : K) (f : CacheEntry V → CacheEntry V)
    (l : List K) :
    l.filter (fun x => ((t.modify k f).get? x).isSome) = l.filter fun x => (t.get? x).isSome := by
  refine List.filter_congr ?_
  intro x _
  rw [Table.get?_modify]
  split <;> simp

/-- 片方の queue の先頭で見つけた生きた key は、残りにも他方の queue にも無い。 -/
theorem Single.unique {loc : Loc} {dead rest : List K} {k : K} {e : CacheEntry V} (hs : Single σ)
    (hk : σ.map.get? k = some e) (hq : σ.queueKeys loc = dead ++ k :: rest) :
    k ∉ rest ∧ ∀ loc', loc' ≠ loc → k ∉ σ.queueKeys loc' := by
  have hn := single_iff.mp hs k e hk
  unfold nodes at hn
  have hone : 1 ≤ (σ.queueKeys loc).count k := by
    rw [hq]
    exact List.count_pos_iff.mpr (by simp)
  constructor
  · -- 残りにもあれば、この queue だけで二つになる
    intro hmem
    have htwo : 2 ≤ (σ.queueKeys loc).count k := by
      have hpos := List.count_pos_iff.mpr hmem
      rw [hq, List.count_append, List.count_cons_self]
      omega
    cases loc <;> simp only [queueKeys] at htwo <;> omega
  · -- 他方にもあれば、合わせて二つになる
    intro loc' hne hmem
    have hpos := List.count_pos_iff.mpr hmem
    cases loc <;> cases loc' <;> simp only [queueKeys] at hone hpos <;>
      first
        | exact hne rfl
        | omega

/-! ## 追い出しの loop は歩調がそろう -/

/-- こちらが死んだ node を読み飛ばして見つける候補は、参照側の先頭である。 -/
theorem Aligned.popLive_cases (h : Aligned hash σ τ) (loc : Loc) :
    ((∀ k ∈ σ.queueKeys loc, σ.map.get? k = none) ∧
      popLive σ.map (σ.queueHashes loc) (σ.queueKeys loc) = (none, [], []) ∧
      popLive τ.map (τ.queueHashes loc) (τ.queueKeys loc) = (none, [], [])) ∨
    ∃ dead k e rest, σ.queueKeys loc = dead ++ k :: rest ∧ σ.map.get? k = some e ∧
      popLive σ.map (σ.queueHashes loc) (σ.queueKeys loc)
        = (some (hash k, k, e), rest.map hash, rest) ∧
      popLive τ.map (τ.queueHashes loc) (τ.queueKeys loc)
        = (some (hash k, k, e), (rest.filter σ.isLive).map hash, rest.filter σ.isLive) := by
  rw [h.linked.queue loc, h.linked'.queue loc, h.queue loc, h.same.map]
  rcases ShardData.popLive_cases h.linked.table (σ.queueKeys loc) with
    ⟨hp, hdead⟩ | ⟨dead, k, e, rest, hq, hdead, hk, hp⟩
  · refine Or.inl ⟨hdead, hp, ?_⟩
    rw [filter_isLive_dead hdead]
    rfl
  · refine Or.inr ⟨dead, k, e, rest, hq, hk, hp, ?_⟩
    have hfilter : (σ.queueKeys loc).filter σ.isLive = k :: rest.filter σ.isLive := by
      rw [hq, List.filter_append, filter_isLive_dead hdead, List.nil_append,
        List.filter_cons_of_pos (isLive_of_get? hk)]
    rw [hfilter, List.map_cons, ShardData.popLive, Table.find_eq_get? h.linked.table, hk]

/-- こちらの一歩が `Sweep` に分かれるなら、残りは queue 以外の一致と queue の絞り込みだけである。 -/
theorem Aligned.next (h : Aligned hash σ τ) (hsw : ReflTransGen (Sweep hash) σ σ')
    (hsame : Same σ' τ') (hlinked : Linked hash τ')
    (hq : ∀ loc, τ'.queueKeys loc = (σ'.queueKeys loc).filter σ'.isLive) : Aligned hash σ' τ' where
  same := hsame
  linked := sweep_linked hsw h.linked
  linked' := hlinked
  covered := star_preserves (P := Covered) (fun _ _ hc hstep => hstep.covered hc) hsw h.covered
  single := sweep_single hsw h.single
  queue := hq

theorem evictFromMainBody_aligned (h : Aligned hash σ τ) (full : σ.Over)
    (side : σ.smallLive < σ.smallCap ∨ σ.smallKeys = []) :
    RelExcept (RelFlow
        (fun σ' τ' => Aligned hash σ' τ' ∧ σ'.Over ∧
          (σ'.smallLive < σ'.smallCap ∨ σ'.smallKeys = []))
        (Aligned hash))
      (evictFromMainBody σ) (evictFromMainBody τ) := by
  obtain ⟨hdone, hagain⟩ := evictFromMainBody_sweep h.linked full side
  have hs := h.queue .small
  have hls := h.linked'.queue .small
  rcases h.popLive_cases .main with ⟨-, hσ, hτ⟩ | ⟨dead, k, e, rest, hq, hk, hσ, hτ⟩
  · -- 双方とも main queue を使い切り、何も追い出さずに抜ける
    simp only [queueHashes, queueKeys] at hσ hτ hs hls
    simp only [evictFromMainBody, hσ, hτ] at hdone ⊢
    refine h.next (hdone _ rfl) ⟨h.same.map, h.same.smallLive, h.same.mainLive, h.same.ghostSet,
      h.same.shardCap, h.same.smallCap, h.same.ghostCap⟩ ⟨?_, h.linked'.table⟩ ?_
    · intro loc
      cases loc
      · exact hls
      · rfl
    · intro loc
      cases loc
      · exact hs
      · rfl
  · obtain ⟨hrest, hother⟩ := h.single.unique hk hq
    have hsmall : k ∉ σ.smallKeys := hother .small (by simp)
    simp only [queueHashes, queueKeys] at hσ hτ hs hls
    simp only [evictFromMainBody, hσ, hτ, h.same.mainLive] at hdone hagain ⊢
    by_cases hot : 0 < e.freq
    · -- 二度目の機会。node は双方とも末尾へ回り、key の生死は変わらない
      simp only [if_pos hot] at hagain ⊢
      obtain ⟨hsw, hover, hside⟩ := hagain _ rfl
      refine ⟨h.next hsw ⟨by rw [h.same.map], h.same.smallLive, rfl, h.same.ghostSet,
        h.same.shardCap, h.same.smallCap, h.same.ghostCap⟩ ⟨?_, ?_⟩ ?_, hover, hside⟩
      · intro loc
        cases loc
        · exact hls
        · simp [queueHashes, queueKeys]
      · rw [h.same.map]
        exact Table.hashed_modify h.linked.table _ _
      · intro loc
        cases loc
        · exact hs.trans (filter_isLive_modify σ.map k _ σ.smallKeys).symm
        · refine Eq.trans ?_ (filter_isLive_modify σ.map k _ (rest ++ [k])).symm
          show rest.filter σ.isLive ++ [k] = (rest ++ [k]).filter σ.isLive
          simp [isLive_of_get? hk]
    · -- 除く key の node は取り出した一つだけなので、残りの絞り込みは動かない
      simp only [if_neg hot] at hdone ⊢
      cases hn : subOne σ.mainLive with
      | error f => exact rfl
      | ok n =>
        rw [hn] at hdone
        refine h.next (hdone _ rfl) ⟨by rw [h.same.map], h.same.smallLive, rfl, h.same.ghostSet,
          h.same.shardCap, h.same.smallCap, h.same.ghostCap⟩ ⟨?_, ?_⟩ ?_
        · intro loc
          cases loc
          · exact hls
          · rfl
        · rw [h.same.map]
          exact Table.hashed_remove h.linked.table _
        · intro loc
          cases loc
          · exact hs.trans (filter_isLive_remove rfl hsmall).symm
          · exact (filter_isLive_remove rfl hrest).symm

theorem evictFromMain_aligned (h : Aligned hash σ τ) (full : σ.Over)
    (side : σ.smallLive < σ.smallCap ∨ σ.smallKeys = []) :
    RelExcept (Aligned hash) σ.evictFromMain τ.evictFromMain := by
  have hfuel : τ.totalFreq = σ.totalFreq := by
    unfold totalFreq
    rw [h.same.map]
  unfold evictFromMain
  rw [hfuel]
  refine loop_rel (R := fun σ τ => Aligned hash σ τ ∧ σ.Over ∧
    (σ.smallLive < σ.smallCap ∨ σ.smallKeys = [])) (Q := Aligned hash) ?_ _ σ τ ⟨h, full, side⟩
  rintro σ τ ⟨h, full, side⟩
  exact evictFromMainBody_aligned h full side

theorem evictFromSmall_aligned (h : Aligned hash σ τ) (full : σ.Over)
    (quota : σ.smallCap ≤ σ.smallLive) :
    RelExcept (Aligned hash) σ.evictFromSmall τ.evictFromSmall := by
  have hsweep : ∀ σ', σ.evictFromSmall = .ok σ' → ReflTransGen (Sweep hash) σ σ' :=
    fun _ => evictFromSmall_sweep h.linked full quota
  have hm := h.queue .main
  have hlm := h.linked'.queue .main
  rcases h.popLive_cases .small with ⟨hdead, hσ, hτ⟩ | ⟨dead, k, e, rest, hq, hk, hσ, hτ⟩
  · -- 双方とも small queue を使い切り、同じ main queue に移る
    have hskip := sweep_skip .small σ.smallKeys [] h.linked (by simp [queueKeys]) hdead
    simp only [queueHashes, queueKeys] at hσ hτ hm hlm
    simp only [evictFromSmall, hσ, hτ]
    refine evictFromMain_aligned (h.next hskip ⟨h.same.map, h.same.smallLive, h.same.mainLive,
      h.same.ghostSet, h.same.shardCap, h.same.smallCap, h.same.ghostCap⟩ ⟨?_, h.linked'.table⟩ ?_)
      full (Or.inr rfl)
    · intro loc
      cases loc
      · rfl
      · exact hlm
    · intro loc
      cases loc
      · rfl
      · exact hm
  · obtain ⟨hrest, hother⟩ := h.single.unique hk hq
    have hmain : k ∉ σ.mainKeys := hother .main (by simp)
    simp only [queueHashes, queueKeys] at hσ hτ hm hlm
    simp only [evictFromSmall, hσ, hτ, h.same.smallLive] at hsweep ⊢
    cases hn : subOne σ.smallLive with
    | error f => exact rfl
    | ok n =>
      simp only [hn] at hsweep
      by_cases hot : 0 < e.freq
      · -- 昇格。node は双方の main queue の末尾に移る
        simp only [if_pos hot] at hsweep ⊢
        refine h.next (hsweep _ rfl) ⟨by rw [h.same.map], rfl, by rw [h.same.mainLive],
          h.same.ghostSet, h.same.shardCap, h.same.smallCap, h.same.ghostCap⟩ ⟨?_, ?_⟩ ?_
        · intro loc
          cases loc
          · rfl
          · simp [queueHashes, queueKeys, hlm]
        · rw [h.same.map]
          exact Table.hashed_modify h.linked.table _ _
        · intro loc
          cases loc
          · exact (filter_isLive_modify σ.map k _ rest).symm
          · refine Eq.trans ?_ (filter_isLive_modify σ.map k _ (σ.mainKeys ++ [k])).symm
            show τ.mainKeys ++ [k] = (σ.mainKeys ++ [k]).filter σ.isLive
            simp [hm, isLive_of_get? hk]
      · -- 追い出し。ghost への記録も双方で同じになる
        simp only [if_neg hot] at hsweep ⊢
        refine h.next (hsweep _ rfl) ⟨by simp [addToGhost, h.same.map], rfl, h.same.mainLive, ?_,
          h.same.shardCap, h.same.smallCap, h.same.ghostCap⟩ ⟨?_, ?_⟩ ?_
        · simp [addToGhost, h.same.ghostSet, h.same.ghostCap]
        · intro loc
          cases loc
          · rfl
          · exact hlm
        · simp only [addToGhost, h.same.map]
          exact Table.hashed_remove h.linked.table _
        · intro loc
          cases loc
          · exact (filter_isLive_remove rfl hrest).symm
          · exact hm.trans (filter_isLive_remove rfl hmain).symm

theorem evictOne_aligned (h : Aligned hash σ τ) (full : σ.Over) :
    RelExcept (Aligned hash) σ.evictOne τ.evictOne := by
  unfold evictOne
  rw [h.same.smallCap, h.same.smallLive]
  split
  · next quota => exact evictFromSmall_aligned h full quota
  · next quota => exact evictFromMain_aligned h full (Or.inl (by omega))

/-- 追い出しの loop は、双方が同じ結果で終わるか、同じ失敗で終わる。 -/
theorem evictLoop_aligned (h : Aligned hash σ τ) :
    RelExcept (Aligned hash) σ.evictLoop τ.evictLoop := by
  have hfuel : τ.evictFuel = σ.evictFuel := by
    unfold evictFuel
    rw [h.same.smallLive, h.same.mainLive]
  unfold evictLoop
  rw [hfuel]
  refine loop_rel (R := Aligned hash) (Q := Aligned hash) ?_ _ σ τ h
  intro σ τ h
  unfold whileBody
  by_cases full : σ.Over
  · rw [if_pos (overCap_iff.mpr full), if_pos (overCap_iff.mpr (h.same.full.mpr full))]
    rcases (evictOne_aligned h full).cases with ⟨f, hσ, hτ⟩ | ⟨σ', τ', hσ, hτ, hone⟩
    · rw [hσ, hτ]
      exact rfl
    · rw [hσ, hτ]
      exact hone
  · rw [if_neg fun hc => full (overCap_iff.mp hc),
      if_neg fun hc => full (h.same.full.mp (overCap_iff.mp hc))]
    exact h

/-! ## 二つの対応の行き来 -/

/-- node が一つずつなら、生きた key はその loc の queue にしか居ない。 -/
theorem filter_ownedBy (hc : Covered σ) (hs : Single σ) (loc : Loc) :
    (σ.queueKeys loc).dedup.filter (σ.ownedBy loc) = (σ.queueKeys loc).filter σ.isLive := by
  have hcount : ∀ k ∈ σ.queueKeys loc, ∀ e, σ.map.get? k = some e →
      (σ.queueKeys loc).count k ≤ 1 ∧ e.loc = loc := by
    intro k hmem e hk
    have hn := single_iff.mp hs k e hk
    have hpos := List.count_pos_iff.mpr hmem
    -- 自分の loc の queue に必ず一つあるので、それ以外の queue には居られない
    have hown := List.count_pos_iff.mpr (hc k e hk)
    unfold nodes at hn
    have hle : (σ.queueKeys loc).count k ≤ 1 := by
      cases loc <;> simp only [queueKeys] <;> omega
    refine ⟨hle, ?_⟩
    cases loc <;> cases hloc : e.loc <;> rw [hloc] at hown <;> simp only [queueKeys] at hpos hown <;>
      first
        | rfl
        | omega
  rw [filter_dedup_of_count]
  · refine List.filter_congr ?_
    intro k hmem
    unfold ownedBy isLive
    cases hk : σ.map.get? k with
    | none => rfl
    | some e => simp [(hcount k hmem e hk).2]
  · intro k hmem hp
    unfold ownedBy at hp
    cases hk : σ.map.get? k with
    | none => rw [hk] at hp; cases hp
    | some e => exact (hcount k hmem e hk).1

theorem Mirrors.aligned (h : Mirrors hash σ τ) (hl : Linked hash σ) (hc : Covered σ)
    (hs : Single σ) : Aligned hash σ τ where
  same := h.same
  linked := hl
  linked' := h.linked'
  covered := hc
  single := hs
  queue loc := by rw [h.queue loc, filter_ownedBy hc hs loc]

theorem Aligned.mirrors (h : Aligned hash σ τ) : Mirrors hash σ τ where
  same := h.same
  linked' := h.linked'
  queue loc := by rw [h.queue loc, filter_ownedBy h.covered h.single loc]

/-! ## 操作ごとの対応 -/

theorem Mirrors.register {k : K} (h : Mirrors hash σ τ) (hk : σ.map.get? k = none) (v : V)
    (loc : Loc) : Mirrors hash (σ.register (hash k) k v loc) (τ.register (hash k) k v loc) where
  same := by
    obtain ⟨hmap, hs, hm, hg, h1, h2, h3⟩ := h.same
    cases loc <;>
      exact ⟨by simp [ShardData.register, hmap], by simp [ShardData.register, hs],
        by simp [ShardData.register, hm], hg, h1, h2, h3⟩
  linked' := h.linked'.register k v loc
  queue loc' := by
    have hnone : ∀ loc', σ.ownedBy loc' k = false := fun loc' => by simp [ownedBy, hk]
    have hown : ∀ loc' x, (σ.register (hash k) k v loc).ownedBy loc' x
        = if x = k then decide (loc = loc') else σ.ownedBy loc' x := by
      intro loc' x
      unfold ownedBy
      rw [register_map, Table.get?_insert]
      by_cases hx : x = k
      · simp [hx, CacheEntry.new]
      · simp [hx]
    rw [register_queueKeys, register_queueKeys, h.queue loc']
    by_cases hloc : loc' = loc
    · -- 足した node が最後の node になり、前の出現は消える
      subst hloc
      rw [if_pos rfl, if_pos rfl, dedup_concat, List.filter_append, List.filter_filter]
      have hlast : [k].filter ((σ.register (hash k) k v loc').ownedBy loc') = [k] := by
        simp [hown]
      rw [hlast]
      congr 1
      refine List.filter_congr ?_
      intro x _
      rw [hown]
      by_cases hx : x = k
      · simp [hx, hnone]
      · simp [hx]
    · rw [if_neg hloc, if_neg hloc]
      refine List.filter_congr ?_
      intro x _
      rw [hown]
      by_cases hx : x = k
      · simp [hx, hnone, Ne.symm hloc]
      · simp [hx]

theorem purgeNodes_map (hash : K → UInt64) (k : K) (ks : List K) :
    purgeNodes k (ks.map hash) ks
      = ((ks.filter fun x => x ≠ k).map hash, ks.filter fun x => x ≠ k) := by
  have hzip : (ks.map hash).zip ks = ks.map fun x => (hash x, x) := by
    induction ks with
    | nil => rfl
    | cons a ks ih => simp [ih]
  unfold purgeNodes
  rw [hzip, List.filter_map]
  simp [List.unzip_eq_map, Function.comp_def]

/-- 一つの key の node を消した結果。queue 以外は触らない。 -/
theorem purge_spec (h : Linked hash τ) (k : K) :
    Same τ (τ.purge k) ∧ Linked hash (τ.purge k) ∧
      ∀ loc, (τ.purge k).queueKeys loc = (τ.queueKeys loc).filter fun x => x ≠ k := by
  have hs := purgeNodes_map hash k τ.smallKeys
  have hm := purgeNodes_map hash k τ.mainKeys
  rw [← show τ.smallHashes = τ.smallKeys.map hash from h.queue .small] at hs
  rw [← show τ.mainHashes = τ.mainKeys.map hash from h.queue .main] at hm
  refine ⟨⟨rfl, rfl, rfl, rfl, rfl, rfl, rfl⟩, ⟨fun loc => ?_, h.table⟩, fun loc => ?_⟩
  · cases loc
    · simp [purge, queueHashes, queueKeys, hs]
    · simp [purge, queueHashes, queueKeys, hm]
  · cases loc
    · simp [purge, queueKeys, hs]
    · simp [purge, queueKeys, hm]

theorem foldl_purge_spec : ∀ (rm : List K) {τ : ShardData K V}, Linked hash τ →
    Same τ (rm.foldl purge τ) ∧ Linked hash (rm.foldl purge τ) ∧
      ∀ loc, (rm.foldl purge τ).queueKeys loc = (τ.queueKeys loc).filter fun x => x ∉ rm
  | [], τ, h => ⟨⟨rfl, rfl, rfl, rfl, rfl, rfl, rfl⟩, h, fun loc => by simp⟩
  | k :: rm, τ, h => by
    obtain ⟨hsame, hl, hq⟩ := purge_spec h k
    obtain ⟨hsame', hl', hq'⟩ := foldl_purge_spec rm hl
    refine ⟨hsame.trans hsame', hl', fun loc => ?_⟩
    rw [List.foldl_cons, hq', hq, List.filter_filter]
    refine List.filter_congr ?_
    intro x _
    by_cases hx : x = k <;> simp [hx]

/--
entry を除くか書き換えるだけの操作での対応。

`rm` は、生きていた key のうち操作で消えたものを過不足なく挙げた列である。
-/
theorem Mirrors.edit {rm : List K} {τ₁ : ShardData K V} (h : Mirrors hash σ τ) (hsame : Same σ' τ₁)
    (hl : Linked hash τ₁) (hσ : ∀ loc, σ'.queueKeys loc = σ.queueKeys loc)
    (hτ : ∀ loc, τ₁.queueKeys loc = τ.queueKeys loc)
    (hown : ∀ loc k, σ'.ownedBy loc k = (σ.ownedBy loc k && σ'.isLive k))
    (hrm : ∀ k, σ.isLive k = true → (k ∈ rm ↔ σ'.isLive k = false)) :
    Mirrors hash σ' (rm.foldl purge τ₁) := by
  obtain ⟨hsame', hl', hq'⟩ := foldl_purge_spec rm hl
  refine ⟨hsame.trans hsame', hl', fun loc => ?_⟩
  rw [hq', hτ, h.queue loc, hσ, List.filter_filter]
  refine List.filter_congr ?_
  intro k _
  rw [hown]
  cases hk : σ.ownedBy loc k with
  | false => simp
  | true =>
    have hlive : σ.isLive k = true := by
      unfold ownedBy at hk
      unfold isLive
      cases hget : σ.map.get? k with
      | none => rw [hget] at hk; cases hk
      | some e => rfl
    have hiff := hrm k hlive
    cases hdead : σ'.isLive k with
    | false => simpa [hdead] using hiff
    | true => simpa [hdead] using hiff

/-- 残った entry の loc が元のままなら、属する queue の判定は生死だけで変わる。 -/
theorem ownedBy_of_loc
    (h : ∀ k e', σ'.map.get? k = some e' → ∃ e, σ.map.get? k = some e ∧ e.loc = e'.loc)
    (loc : Loc) (k : K) : σ'.ownedBy loc k = (σ.ownedBy loc k && σ'.isLive k) := by
  unfold ownedBy isLive
  cases hk : σ'.map.get? k with
  | none => simp
  | some e' =>
    obtain ⟨e, he, hloc⟩ := h k e' hk
    simp [he, hloc]

theorem Same.put (h : Same σ τ) (k : K) (e : CacheEntry V) (o : Option (CacheEntry V)) :
    Same (σ.put k e o) (τ.put k e o) := by
  obtain ⟨hmap, hs, hm, hg, h1, h2, h3⟩ := h
  cases o with
  | some e' => exact ⟨by simp [ShardData.put, updateEntry, hmap], hs, hm, hg, h1, h2, h3⟩
  | none =>
    cases hloc : e.loc <;> simp only [ShardData.put, hloc] <;>
      exact ⟨by simp [hmap], by simp [ShardData.unlink, hs], by simp [ShardData.unlink, hm],
        hg, h1, h2, h3⟩

theorem Mirrors.present {k : K} {e : CacheEntry V} (h : Mirrors hash σ τ)
    (hk : σ.map.get? k = some e) (op : KeyOp K V) :
    Mirrors hash (σ.put k e (op.onPresent k e).2)
      (((ShardOp.key k op).removedKeys τ (τ.put k e (op.onPresent k e).2)).foldl purge
        (τ.put k e (op.onPresent k e).2)) := by
  have hk' : τ.map.get? k = some e := by rw [h.same.map, hk]
  have hedit : Edit hash τ (τ.put k e (op.onPresent k e).2) := put_edit hk' op
  refine h.edit (h.same.put k e _) (hedit.linked h.linked') (put_queueKeys σ k e _)
    (put_queueKeys τ k e _) ?_ ?_
  · refine ownedBy_of_loc ?_
    intro x e' hx
    rw [put_get? hk] at hx
    split at hx
    · next hxk =>
      subst hxk
      exact ⟨e, hk, (KeyOp.onPresent_loc hx).symm⟩
    · exact ⟨e', hx, rfl⟩
  · intro x hx
    simp only [ShardOp.removedKeys, isLive, put_get? hk, put_get? hk']
    by_cases hxk : x = k
    · cases ho : (op.onPresent k e).2 <;> simp [hxk, hk']
    · have hlive : (σ.map.get? x).isSome = true := hx
      cases ho : (op.onPresent k e).2 <;> simp [hxk, hk', hlive]

theorem Same.retain (h : Same σ τ) (f : Nat → K → V → Bool × V) (n : Nat) :
    Same (σ.retain f n).2 (τ.retain f n).2 := by
  obtain ⟨hσ, heσ⟩ := retain_spec σ f n
  obtain ⟨hτ, heτ⟩ := retain_spec τ f n
  have hmap : (τ.retain f n).2.map = (σ.retain f n).2.map := by
    refine Table.ext ?_
    rw [hσ, hτ, h.map]
  rw [heσ, heτ]
  exact ⟨hmap, by simp only [h.smallLive, h.map], by simp only [h.mainLive, h.map], h.ghostSet,
    h.shardCap, h.smallCap, h.ghostCap⟩

theorem Mirrors.retain (h : Mirrors hash σ τ) (f : Nat → K → V → Bool × V) (n : Nat) :
    Mirrors hash (σ.retain f n).2
      ((τ.map.keys.filter fun k => ((τ.retain f n).2.map.get? k).isNone).foldl purge
        (τ.retain f n).2) := by
  have hsame := h.same.retain f n
  have hl : Linked hash (τ.retain f n).2 :=
    star_preserves (P := Linked hash) (fun _ _ hl hstep => hstep.linked hl) (retain_edits τ f n)
      h.linked'
  refine h.edit hsame hl (retain_queueKeys σ f n) (retain_queueKeys τ f n)
    (ownedBy_of_loc fun k e' hk => retain_loc σ f n hk) ?_
  intro k hk
  have hmem : k ∈ τ.map.keys := by
    rw [h.same.map]
    exact Table.mem_keys_iff.mpr (Option.isSome_iff_exists.mp hk)
  rw [List.mem_filter, hsame.map]
  simp [isLive, hmem]

/-- 空にした shard どうしは対応する。 -/
theorem Mirrors.clearAll (h : Mirrors hash σ τ) (rm : List K) :
    Mirrors hash σ.clearAll (rm.foldl purge τ.clearAll) := by
  have hlinked : Linked hash τ.clearAll := Linked.clearAll
  obtain ⟨hsame, hl, hq⟩ := foldl_purge_spec rm hlinked
  have hclear : Same σ.clearAll τ.clearAll :=
    ⟨rfl, rfl, rfl, rfl, h.same.shardCap, h.same.smallCap, h.same.ghostCap⟩
  refine ⟨hclear.trans hsame, hl, fun loc => ?_⟩
  rw [hq]
  cases loc <;> rfl

/-- 一操作の条件。追い出しを起こすなら、どの生きた key も node を一つしか持たない。 -/
def SweepsSingle (σ : ShardData K V) (op : ShardOp K V) : Prop := op.Evicting σ → Single σ

theorem Mirrors.ghostCheck (h : Mirrors hash σ τ) (x : UInt64) :
    (τ.ghostCheck x).1 = (σ.ghostCheck x).1 ∧
      Mirrors hash (σ.ghostCheck x).2 (τ.ghostCheck x).2 := by
  obtain ⟨hmap, hs, hm, hg, h1, h2, h3⟩ := h.same
  refine ⟨by simp [ShardData.ghostCheck, hg], ⟨hmap, hs, hm, ?_, h1, h2, h3⟩, ?_, h.queue⟩
  · simp [ShardData.ghostCheck, hg]
  · exact ⟨h.linked'.queue, h.linked'.table⟩

/-- 追い出しの loop での対応。満杯でなければ双方とも何もしない。 -/
theorem Mirrors.evictLoop (h : Mirrors hash σ τ) (hl : Linked hash σ) (hc : Covered σ)
    (hs : σ.Over → Single σ) : RelExcept (Mirrors hash) σ.evictLoop τ.evictLoop := by
  by_cases full : σ.Over
  · rcases (evictLoop_aligned (h.aligned hl hc (hs full))).cases with
      ⟨f, hσ, hτ⟩ | ⟨σ', τ', hσ, hτ, hal⟩
    · rw [hσ, hτ]
      exact rfl
    · rw [hσ, hτ]
      exact hal.mirrors
  · rw [evictLoop_room full, evictLoop_room fun hτ => full (h.same.full.mp hτ)]
    exact h

/-- 一操作は同じ値を返し、対応を保つ。 -/
theorem exec_mirrors {op : ShardOp K V} (h : Mirrors hash σ τ) (hl : Linked hash σ)
    (hc : Covered σ) (hok : SweepsSingle σ op) :
    RelExcept (fun p q => p.1 = q.1 ∧ Mirrors hash p.2 q.2) (op.exec hash σ)
      (op.execEager hash τ) := by
  unfold ShardOp.execEager
  cases op with
  | key k op =>
    simp only [ShardOp.exec]
    cases hk : σ.map.get? k with
    | some e =>
      have hk' : τ.map.get? k = some e := by rw [h.same.map, hk]
      rw [exec_present hl hk op, exec_present h.linked' hk' op]
      exact ⟨rfl, h.present hk op⟩
    | none =>
      have hk' : τ.map.get? k = none := by rw [h.same.map, hk]
      -- 表に無い key への操作は何も除かないので、参照側も node を消さない
      have hrm : ∀ τ', (ShardOp.key k op).removedKeys τ τ' = [] := fun τ' => by
        simp [ShardOp.removedKeys, hk']
      rw [exec_absent hl hk op, exec_absent h.linked' hk' op]
      cases hv : op.newValue with
      | none => exact ⟨rfl, by rw [hrm]; exact h⟩
      | some v =>
        obtain ⟨hloc, hg⟩ := h.ghostCheck (hash k)
        have hlg : Linked hash (σ.ghostCheck (hash k)).2 := ⟨hl.queue, hl.table⟩
        have hloop := hg.evictLoop hlg hc fun hover => hok ⟨hk, by simp [hv], hover⟩
        simp only [insertVacant, hloc]
        rcases hloop.cases with ⟨f, hσ, hτ⟩ | ⟨σ', τ', hσ, hτ, hnext⟩
        · rw [hσ, hτ]
          exact rfl
        · rw [hσ, hτ]
          have hk₁ := sweep_absent (evictLoop_sweep hlg hσ).1 hk
          refine ⟨rfl, ?_⟩
          rw [hrm]
          exact hnext.register hk₁ v _
  | retain f n => exact ⟨rfl, h.retain f n⟩
  | alterAll f n =>
    simp only [ShardOp.exec, alterAll_eq_retain]
    exact ⟨rfl, h.retain _ n⟩
  | clearAll => exact ⟨rfl, h.clearAll _⟩

/-! ## 実行全体 -/

/-- 列を行う間、どの操作の直前でも条件が成り立つ。 -/
def AllSteps (hash : K → UInt64) (ok : ShardData K V → ShardOp K V → Prop) :
    List (ShardOp K V) → ShardData K V → Prop
  | [], _ => True
  | op :: ops, σ => ok σ op ∧
    match op.exec hash σ with
    | .error _ => True
    | .ok (_, σ') => AllSteps hash ok ops σ'

theorem Mirrors.observe : ∀ {ops : List (ShardOp K V)} {σ τ : ShardData K V},
    ShardReachable hash cap σ → Mirrors hash σ τ → AllSteps hash SweepsSingle ops σ →
    Neocache.observe (ShardOp.exec hash) ops σ = Neocache.observe (ShardOp.execEager hash) ops τ
  | [], σ, τ, _, _, _ => rfl
  | op :: ops, σ, τ, hr, h, hok => by
    unfold Neocache.observe
    rcases (exec_mirrors h hr.linked hr.covered hok.1).cases with
      ⟨f, hσ, hτ⟩ | ⟨⟨r, σ'⟩, ⟨r', τ'⟩, hσ, hτ, rfl, h'⟩
    · rw [hσ, hτ]
    · have hnext := hok.2
      rw [hσ] at hnext
      have hrest := Mirrors.observe (.step hr ⟨r, hσ⟩) h' hnext
      have hlookup : τ'.lookup = σ'.lookup := by
        unfold lookup
        rw [h'.same.map]
      simp only [hσ, hτ, hrest, hlookup]

/--
追い出しの直前にいつも node が一つずつである実行では、
各操作の返り値とその後の写像が、除去で node も消す shard と一致する。
-/
theorem lazy_eq_eager {ops : List (ShardOp K V)}
    (h : AllSteps hash SweepsSingle ops (ShardData.new cap)) :
    observe (ShardOp.exec hash) ops (ShardData.new cap)
      = observe (ShardOp.execEager hash) ops (ShardData.new cap) := by
  have hinit : Mirrors hash (ShardData.new cap : ShardData K V) (ShardData.new cap) :=
    ⟨⟨rfl, rfl, rfl, rfl, rfl, rfl, rfl⟩, linked_new cap, fun loc => by cases loc <;> rfl⟩
  exact hinit.observe reachable_new h

/-- 除いた key の node が残ったまま追い出しが起こる実行。その key は入れ直されない。 -/
theorem lazy_eq_eager_afterRemove :
    AllSteps UInt64.ofNat SweepsSingle
        [.key 0 (.insert 0), .key 1 (.insert 1), .key 0 .remove, .key 2 (.insert 2),
          .key 3 (.insert 3)] (ShardData.new 2 : ShardData Nat Nat) ∧
      observe (ShardOp.exec UInt64.ofNat)
          [.key 0 (.insert 0), .key 1 (.insert 1), .key 0 .remove, .key 2 (.insert 2),
            .key 3 (.insert 3)] (ShardData.new 2 : ShardData Nat Nat)
        = observe (ShardOp.execEager UInt64.ofNat)
          [.key 0 (.insert 0), .key 1 (.insert 1), .key 0 .remove, .key 2 (.insert 2),
            .key 3 (.insert 3)] (ShardData.new 2) := by
  have h : AllSteps UInt64.ofNat SweepsSingle
      [.key 0 (.insert 0), .key 1 (.insert 1), .key 0 .remove, .key 2 (.insert 2),
        .key 3 (.insert 3)] (ShardData.new 2 : ShardData Nat Nat) :=
    ⟨fun _ => (by decide), fun _ => (by decide), fun _ => (by decide), fun _ => (by decide),
      fun _ => (by decide), trivial⟩
  exact ⟨h, lazy_eq_eager h⟩

end Neocache
