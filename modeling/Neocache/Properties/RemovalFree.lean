import Mathlib.Data.List.Perm.Lattice
import Neocache.Properties.Counters
import Neocache.Properties.LazyRemoval
import Neocache.Properties.SecondChance
import Neocache.Spec.S3Fifo

/-!
# 除去の無い実行は S3-FIFO そのものである

明示的な除去が無ければ、queue の node が entry より長生きすることはない。
だから二本の queue はそれぞれの loc の生きた key を丁度一度ずつ並べ（`Faithful`）、
counter は実数と一致し、古い node の読み飛ばしは起こらない。

このとき shard の状態から key と freq の列を読み取ったもの（`ShardData.policy`）は、
参照の S3-FIFO（`Neocache/Spec/S3Fifo.lean`）の状態として一操作ずつ同じに動く。
追い出しの loop の中でも、`evict_one` の一回が参照の一歩に対応する（`evictOne_policy`）。
-/

namespace Neocache

open Infra Relation ShardData

variable {K V : Type*} [DecidableEq K] {hash : K → UInt64} {σ σ' : ShardData K V} {cap : Nat}

/-! ## 古い node が無いこと -/

/-- queue の node はどれもその loc の生きた key のもので、一つずつしか無い。 -/
structure Faithful (σ : ShardData K V) : Prop where
  listed : ∀ loc k, k ∈ σ.queueKeys loc → ∃ e, σ.map.get? k = some e ∧ e.loc = loc
  nodup : ∀ loc, (σ.queueKeys loc).Nodup

namespace Faithful

variable {k : K} {e : CacheEntry V}

/-- queue に node のある entry は、その queue の loc を持つ。 -/
theorem loc_eq (h : Faithful σ) {loc : Loc} (hk : σ.map.get? k = some e)
    (hm : k ∈ σ.queueKeys loc) : e.loc = loc := by
  obtain ⟨e', he', hloc⟩ := h.listed loc k hm
  rw [hk] at he'
  cases he'
  exact hloc

/-- 片方の queue にある key は、他方の queue に無い。 -/
theorem apart (h : Faithful σ) (hs : k ∈ σ.smallKeys) : k ∉ σ.mainKeys := by
  intro hm
  obtain ⟨e, he, hloc⟩ := h.listed .small k hs
  have hloc' : e.loc = .main := h.loc_eq he hm
  rw [hloc] at hloc'
  cases hloc'

theorem fresh (h : Faithful σ) (hk : σ.map.get? k = none) (loc : Loc) : k ∉ σ.queueKeys loc := by
  intro hmem
  obtain ⟨e, he, -⟩ := h.listed loc k hmem
  rw [hk] at he
  cases he

theorem tidy (h : Faithful σ) : Tidy σ := by
  rw [tidy_iff]
  intro k e hk
  refine ⟨fun hloc hs => ?_, fun hloc => ⟨fun hm => ?_, Or.inl ?_⟩⟩
  · have hsmall : e.loc = .small := h.loc_eq hk hs
    cases hloc.symm.trans hsmall
  · have hmain : e.loc = .main := h.loc_eq hk hm
    cases hloc.symm.trans hmain
  · exact List.nodup_iff_count_le_one.mp (h.nodup .small) k

theorem uniqueMain (h : Faithful σ) : UniqueMain σ :=
  fun k _ _ => List.nodup_iff_count_le_one.mp (h.nodup .main) k

theorem mem_iff (h : Faithful σ) (hc : Covered σ) (loc : Loc) (k : K) :
    k ∈ σ.queueKeys loc ↔ ∃ e, σ.map.get? k = some e ∧ e.loc = loc := by
  refine ⟨h.listed loc k, ?_⟩
  rintro ⟨e, he, rfl⟩
  exact hc k e he

/-- queue の長さは、その loc の entry の個数である。 -/
theorem length_eq (h : Faithful σ) (hc : Covered σ) (loc : Loc) :
    (σ.queueKeys loc).length = σ.countLoc loc := by
  have hcount : ∀ l : List (Slot UInt64 K (CacheEntry V)),
      (l.map fun s => if s.val.loc = loc then 1 else 0).sum
        = ((l.filter fun s => s.val.loc = loc).map Slot.key).length := by
    intro l
    induction l with
    | nil => rfl
    | cons s l ih => by_cases hs : s.val.loc = loc <;> simp [hs, ih, Nat.add_comm]
  have hperm : (σ.queueKeys loc).Perm
      ((σ.map.slots.filter fun s => s.val.loc = loc).map Slot.key) := by
    refine (List.perm_ext_iff_of_nodup (h.nodup loc)
      (σ.map.nodup.sublist (List.filter_sublist.map _))).mpr ?_
    intro k
    rw [h.mem_iff hc loc k, List.mem_map]
    constructor
    · rintro ⟨e, he, hloc⟩
      obtain ⟨s, hs, rfl, rfl⟩ := Table.get?_eq_some.mp he
      exact ⟨s, List.mem_filter.mpr ⟨hs, by simpa using hloc⟩, rfl⟩
    · rintro ⟨s, hs, rfl⟩
      obtain ⟨hs, hloc⟩ := List.mem_filter.mp hs
      exact ⟨s.val, Table.get?_of_mem hs, by simpa using hloc⟩
  rw [hperm.length_eq]
  exact (hcount σ.map.slots).symm

/-- 表からも queue からも key を除いた状態。 -/
theorem of_remove (h : Faithful σ) (hmap : σ'.map = σ.map.remove k)
    (hsub : ∀ loc, (σ'.queueKeys loc).Sublist (σ.queueKeys loc))
    (hk : ∀ loc, k ∉ σ'.queueKeys loc) : Faithful σ' where
  listed loc x hx := by
    obtain ⟨e, he, hloc⟩ := h.listed loc x ((hsub loc).mem hx)
    have hxk : x ≠ k := fun hc => hk loc (hc ▸ hx)
    exact ⟨e, by rw [hmap, Table.get?_remove, if_neg hxk]; exact he, hloc⟩
  nodup loc := (h.nodup loc).sublist (hsub loc)

/-- queue の先頭の key を、表からも除いた状態。 -/
theorem of_pop (h : Faithful σ) {loc : Loc} {ks : List K} (hq : σ.queueKeys loc = k :: ks)
    (hmap : σ'.map = σ.map.remove k) (hown : σ'.queueKeys loc = ks)
    (hother : ∀ loc', loc' ≠ loc → σ'.queueKeys loc' = σ.queueKeys loc') : Faithful σ' := by
  have hnd := h.nodup loc
  rw [hq, List.nodup_cons] at hnd
  obtain ⟨e, he, hloc⟩ := h.listed loc k (by rw [hq]; exact List.mem_cons_self)
  refine h.of_remove hmap (fun loc' => ?_) fun loc' => ?_
  · by_cases heq : loc' = loc
    · subst heq
      rw [hown, hq]
      exact List.sublist_cons_self k ks
    · exact hother loc' heq ▸ List.Sublist.refl _
  · by_cases heq : loc' = loc
    · subst heq
      rw [hown]
      exact hnd.1
    · -- 一つの key が二本の queue に並ぶことはない
      rw [hother loc' heq]
      exact fun hx => heq ((h.loc_eq he hx).symm.trans hloc)

end Faithful

/-- 追い出しの一歩は、古い node を作らない。 -/
theorem ShardData.Sweep.faithful (h : Sweep hash σ σ') (hf : Faithful σ) : Faithful σ' := by
  cases h with
  | @skip loc k ks hq dead =>
    -- 死んだ node は無い
    obtain ⟨e, he, -⟩ := hf.listed loc k (by rw [hq]; exact List.mem_cons_self)
    rw [dead] at he
    cases he
  | @promote k ks e full quota pos hq hk hot =>
    have hs := hf.nodup .small
    change σ.smallKeys.Nodup at hs
    rw [hq, List.nodup_cons] at hs
    have hkm : k ∉ σ.mainKeys := hf.apart (by rw [hq]; exact List.mem_cons_self)
    constructor
    · intro loc x hx
      have hne : loc = .small → x ≠ k := by
        rintro rfl rfl
        exact hs.1 hx
      cases loc with
      | small =>
        obtain ⟨e', he', hloc⟩ := hf.listed .small x (by
          show x ∈ σ.smallKeys
          rw [hq]
          exact List.mem_cons_of_mem _ hx)
        exact ⟨e', by rw [Table.get?_modify, if_neg (hne rfl)]; exact he', hloc⟩
      | main =>
        rcases List.mem_append.mp hx with hx | hx
        · obtain ⟨e', he', hloc⟩ := hf.listed .main x hx
          have hxk : x ≠ k := fun hc => hkm (hc ▸ hx)
          exact ⟨e', by rw [Table.get?_modify, if_neg hxk]; exact he', hloc⟩
        · rw [List.mem_singleton.mp hx]
          exact ⟨{ e with loc := .main }, by rw [Table.get?_modify, if_pos rfl, hk]; rfl, rfl⟩
    · intro loc
      cases loc with
      | small => exact hs.2
      | main =>
        show (σ.mainKeys ++ [k]).Nodup
        exact List.nodup_append_comm.mp (List.nodup_cons.mpr ⟨hkm, hf.nodup .main⟩)
  | @evictSmall k ks e full quota pos hq hk cold =>
    refine hf.of_pop (show σ.queueKeys .small = k :: ks from hq) rfl rfl fun loc' hne => ?_
    cases loc' with
    | small => exact (hne rfl).elim
    | main => rfl
  | @secondChance k ks e hq hk hot =>
    have hm := hf.nodup .main
    change σ.mainKeys.Nodup at hm
    have hperm : (ks ++ [k]).Perm σ.mainKeys := by
      rw [hq]
      exact List.perm_append_singleton k ks
    constructor
    · intro loc x hx
      have hold : x ∈ σ.queueKeys loc := by
        cases loc with
        | small => exact hx
        | main => exact hperm.mem_iff.mp hx
      obtain ⟨e', he', hloc⟩ := hf.listed loc x hold
      by_cases hxk : x = k
      · exact ⟨{ e' with freq := e'.freq - 1 },
          by rw [Table.get?_modify, if_pos hxk, he']; rfl, hloc⟩
      · exact ⟨e', by rw [Table.get?_modify, if_neg hxk]; exact he', hloc⟩
    · intro loc
      cases loc with
      | small => exact hf.nodup .small
      | main => exact hperm.nodup_iff.mpr hm
  | @evictMain k ks e full side pos hq hk cold =>
    refine hf.of_pop (show σ.queueKeys .main = k :: ks from hq) rfl rfl fun loc' hne => ?_
    cases loc' with
    | small => rfl
    | main => exact (hne rfl).elim

/-! ## 入れた順 -/

/-- small queue は、入れた順に並べた key のうち、いま small に属するものを並べている。 -/
def Ordered (log : List K) (σ : ShardData K V) : Prop :=
  σ.smallKeys = log.dedup.filter (σ.ownedBy .small)

theorem ownedBy_iff {loc : Loc} {k : K} :
    σ.ownedBy loc k = true ↔ ∃ e, σ.map.get? k = some e ∧ e.loc = loc := by
  unfold ownedBy
  cases σ.map.get? k <;> simp

section Ordered

variable {log : List K}

/-- small に属する key が変わらなければ、並びも変わらない。 -/
theorem Ordered.keep (h : Ordered log σ) (hq : σ'.smallKeys = σ.smallKeys)
    (hown : ∀ x, σ'.ownedBy .small x = true ↔ σ.ownedBy .small x = true) : Ordered log σ' := by
  unfold Ordered at *
  rw [hq, h]
  refine List.filter_congr ?_
  intro x _
  exact (Bool.eq_iff_iff.mpr (hown x)).symm

/-- 先頭の key だけが small を離れるなら、並びはその残りになる。 -/
theorem Ordered.pop {k : K} {ks : List K} (h : Ordered log σ) (hq : σ.smallKeys = k :: ks)
    (hnot : k ∉ ks) (hq' : σ'.smallKeys = ks)
    (hown : ∀ x, σ'.ownedBy .small x = true ↔ σ.ownedBy .small x = true ∧ x ≠ k) :
    Ordered log σ' := by
  unfold Ordered at *
  have hrest : ks = (k :: ks).filter fun x => x ≠ k := by
    rw [List.filter_cons_of_neg (by simp)]
    refine (List.filter_eq_self.mpr ?_).symm
    intro x hx
    have : x ≠ k := fun hc => hnot (hc ▸ hx)
    simpa using this
  rw [hq', hrest, ← hq, h, List.filter_filter]
  refine List.filter_congr ?_
  intro x _
  rw [Bool.eq_iff_iff, hown x, Bool.and_eq_true, decide_eq_true_eq, and_comm]

/-- 新しく入れた key は並びの末尾に付く。 -/
theorem Ordered.register {k : K} (h : Ordered log σ) (hk : σ.map.get? k = none) (v : V)
    (loc : Loc) : Ordered (log ++ [k]) (σ.register (hash k) k v loc) := by
  have hown : ∀ x, x ≠ k →
      ((σ.register (hash k) k v loc).ownedBy .small x = true ↔ σ.ownedBy .small x = true) := by
    intro x hx
    rw [ownedBy_iff, ownedBy_iff, register_map, Table.get?_insert, if_neg hx]
  have hold : (log.dedup.filter fun x => x ≠ k).filter ((σ.register (hash k) k v loc).ownedBy .small)
      = σ.smallKeys := by
    rw [h, List.filter_filter]
    refine List.filter_congr ?_
    intro x _
    rw [Bool.eq_iff_iff, Bool.and_eq_true, decide_eq_true_eq]
    constructor
    · rintro ⟨hx, hne⟩
      exact (hown x hne).mp hx
    · intro hx
      have hne : x ≠ k := by
        rintro rfl
        obtain ⟨e, he, -⟩ := ownedBy_iff.mp hx
        rw [hk] at he
        cases he
      exact ⟨(hown x hne).mpr hx, hne⟩
  have hself : (σ.register (hash k) k v loc).ownedBy .small k = true ↔ loc = .small := by
    rw [ownedBy_iff, register_map, Table.get?_insert, if_pos rfl]
    simp [CacheEntry.new]
  unfold Ordered
  rw [dedup_concat, List.filter_append, hold]
  cases loc with
  | small => rw [List.filter_cons_of_pos (hself.mpr rfl)]; rfl
  | main =>
    rw [List.filter_cons_of_neg fun hc => by cases hself.mp hc]
    simp [ShardData.register]

theorem ShardData.Sweep.ordered (h : Sweep hash σ σ') (hf : Faithful σ) (ho : Ordered log σ) :
    Ordered log σ' := by
  have hsmall : ∀ {k ks}, σ.smallKeys = k :: ks → k ∉ ks := by
    intro k ks hq
    have hs := hf.nodup .small
    change σ.smallKeys.Nodup at hs
    rw [hq] at hs
    exact (List.nodup_cons.mp hs).1
  cases h with
  | @skip loc k ks hq dead =>
    obtain ⟨e, he, -⟩ := hf.listed loc k (by rw [hq]; exact List.mem_cons_self)
    rw [dead] at he
    cases he
  | @promote k ks e full quota pos hq hk hot =>
    refine ho.pop hq (hsmall hq) rfl ?_
    intro x
    rw [ownedBy_iff, ownedBy_iff, Table.get?_modify]
    by_cases hx : x = k
    · simp [hx, hk]
    · simp [hx]
  | @evictSmall k ks e full quota pos hq hk cold =>
    refine ho.pop hq (hsmall hq) rfl ?_
    intro x
    rw [ownedBy_iff, ownedBy_iff]
    show (∃ e, (σ.map.remove k).get? x = some e ∧ _) ↔ _
    rw [Table.get?_remove]
    by_cases hx : x = k <;> simp [hx]
  | @secondChance k ks e hq hk hot =>
    refine ho.keep rfl ?_
    intro x
    rw [ownedBy_iff, ownedBy_iff, Table.get?_modify]
    by_cases hx : x = k
    · simp [hx, hk]
    · simp [hx]
  | @evictMain k ks e full side pos hq hk cold =>
    -- 追い出される key は main に属するので、small の並びには出てこない
    obtain ⟨e', he', hloc⟩ := hf.listed .main k (by
      show k ∈ σ.mainKeys
      rw [hq]
      exact List.mem_cons_self)
    refine ho.keep rfl ?_
    intro x
    rw [ownedBy_iff, ownedBy_iff, Table.get?_remove]
    by_cases hx : x = k
    · simp [hx, he', hloc]
    · simp [hx]

end Ordered

/-! ## 方針として見た状態 -/

/-- shard の状態から、key と freq の列と ghost を読み取ったもの。 -/
def ShardData.policy (σ : ShardData K V) : S3Fifo.Policy K where
  small := liveNodes σ.map σ.smallKeys
  main := liveNodes σ.map σ.mainKeys
  ghost := σ.ghostSet

/-- 容量 `cap` の shard の上限。 -/
def shardLimits (cap : Nat) : S3Fifo.Limits where
  total := cap
  small := max (divCeil cap 10) 1
  ghost := cap

/-- 除去の無い実行の間、追い出しの loop の中でも成り立つこと。 -/
structure Steady (hash : K → UInt64) (cap : Nat) (log : List K) (σ : ShardData K V) : Prop where
  healthy : Healthy hash σ
  faithful : Faithful σ
  exact : Exact σ
  ordered : Ordered log σ
  shardCap : σ.shardCap = cap
  smallCap : σ.smallCap = (shardLimits cap).small
  ghostCap : σ.ghostCap = cap

omit [DecidableEq K] in
theorem smallCap_new (hcap : 1 ≤ cap) :
    (ShardData.new cap : ShardData K V).smallCap = (shardLimits cap).small := by
  have hz : cap ≠ 0 := by omega
  simp [ShardData.new, shardLimits, hz]

theorem Move.ghostCap (h : Move hash σ σ') : σ'.ghostCap = σ.ghostCap := by
  rcases h with h | h
  · cases h with
    | @skip loc => cases loc <;> rfl
    | promote => rfl
    | evictSmall => rfl
    | secondChance => rfl
    | evictMain => rfl
  · cases h with
    | takeGhost => rfl
    | register k v loc => cases loc <;> rfl
    | update => rfl
    | @unlink k e => cases h : e.loc <;> rfl
    | clear => rfl

section Steady

variable {log : List K}

theorem Steady.sweep (h : Steady hash cap log σ) (hs : Sweep hash σ σ') :
    Steady hash cap log σ' := by
  obtain ⟨hcap, hsmall⟩ := Move.caps (Or.inl hs)
  exact ⟨Move.healthy (Or.inl hs) h.healthy, hs.faithful h.faithful,
    hs.exact h.faithful.tidy h.exact, hs.ordered h.faithful h.ordered, hcap.trans h.shardCap,
    hsmall.trans h.smallCap, (Move.ghostCap (Or.inl hs)).trans h.ghostCap⟩

theorem Steady.sweeps (h : Steady hash cap log σ) (hs : ReflTransGen (Sweep hash) σ σ') :
    Steady hash cap log σ' :=
  star_preserves (P := Steady hash cap log) (fun _ _ h hstep => h.sweep hstep) hs h

theorem Steady.live_keys (h : Steady hash cap log σ) (loc : Loc) :
    ∀ k ∈ σ.queueKeys loc, ∃ e, σ.map.get? k = some e := by
  intro k hk
  obtain ⟨e, he, -⟩ := h.faithful.listed loc k hk
  exact ⟨e, he⟩

/-- 列の長さは counter と一致する。 -/
theorem Steady.nodes_length (h : Steady hash cap log σ) (loc : Loc) :
    (liveNodes σ.map (σ.queueKeys loc)).length = σ.live loc := by
  have hkeys := congrArg List.length (liveNodes_keys (h.live_keys loc))
  rw [List.length_map, h.faithful.length_eq h.healthy.covered] at hkeys
  rw [hkeys, h.exact loc]

theorem Steady.size_eq (h : Steady hash cap log σ) : σ.policy.size = σ.totalLive := by
  have hs : (liveNodes σ.map σ.smallKeys).length = σ.smallLive := h.nodes_length .small
  have hm : (liveNodes σ.map σ.mainKeys).length = σ.mainLive := h.nodes_length .main
  show (liveNodes σ.map σ.smallKeys).length + (liveNodes σ.map σ.mainKeys).length = _
  rw [hs, hm]
  rfl

theorem Steady.over_iff (h : Steady hash cap log σ) :
    σ.Over ↔ (shardLimits cap).total ≤ σ.policy.size := by
  have hpos := h.healthy.cap_pos
  rw [h.size_eq]
  show 0 < σ.shardCap ∧ σ.shardCap ≤ σ.totalLive ↔ cap ≤ σ.totalLive
  rw [h.shardCap] at hpos ⊢
  exact ⟨fun hov => hov.2, fun hle => ⟨hpos, hle⟩⟩

theorem Steady.mem_keys (h : Steady hash cap log σ) (k : K) :
    k ∈ σ.policy.keys ↔ ∃ e, σ.map.get? k = some e := by
  show k ∈ (liveNodes σ.map (σ.queueKeys .small)).map Prod.fst
    ++ (liveNodes σ.map (σ.queueKeys .main)).map Prod.fst ↔ _
  rw [liveNodes_keys (h.live_keys .small), liveNodes_keys (h.live_keys .main), List.mem_append]
  constructor
  · rintro (hk | hk)
    · exact h.live_keys .small k hk
    · exact h.live_keys .main k hk
  · rintro ⟨e, he⟩
    have hmem := h.healthy.covered k e he
    cases hloc : e.loc with
    | small => rw [hloc] at hmem; exact Or.inl hmem
    | main => rw [hloc] at hmem; exact Or.inr hmem

end Steady

/-! ## 追い出しの一歩 -/

/-- 一回の `evict_one` が実際にしたこと。 -/
def Shows (ev : S3Fifo.Event K) (σ σ' : ShardData K V) : Prop :=
  match ev with
  | .promoted k => ∃ e, σ.map.get? k = some e ∧ e.loc = .small ∧
      σ'.map.get? k = some { e with loc := .main } ∧ σ'.lookup = σ.lookup
  | .evicted k => σ.lookup k ≠ none ∧ σ'.lookup = Function.update σ.lookup k none

section

variable {log : List K}

/-- small を見る側。先頭は生きているので、読み飛ばしは起こらない。 -/
theorem evictFromSmall_policy (h : Steady hash cap log σ) (quota : σ.smallCap ≤ σ.smallLive) :
    ∃ ev σ', σ.evictFromSmall = .ok σ' ∧ Shows ev σ σ' ∧
      S3Fifo.evictOne (shardLimits cap) hash σ.policy = some (ev, σ'.policy) := by
  obtain ⟨hcount, hlive⟩ := small_candidate h.healthy quota
  obtain ⟨dead, k, e, rest, hq, hdead, hk, hpop⟩ := popLive_candidate h.healthy hcount
  -- 死んだ node は無いので、見つかったのは先頭である
  obtain rfl : dead = [] := by
    rw [List.eq_nil_iff_forall_not_mem]
    intro x hx
    obtain ⟨e', he'⟩ := h.live_keys .small x (by rw [hq]; exact List.mem_append_left _ hx)
    rw [hdead x hx] at he'
    cases he'
  rw [List.nil_append] at hq
  change σ.smallKeys = k :: rest at hq
  change popLive σ.map σ.smallHashes σ.smallKeys = _ at hpop
  have hnd := h.faithful.nodup .small
  change σ.smallKeys.Nodup at hnd
  rw [hq] at hnd
  have hnot := (List.nodup_cons.mp hnd).1
  have hmem : k ∈ σ.smallKeys := by rw [hq]; exact List.mem_cons_self
  have hkm : k ∉ σ.mainKeys := h.faithful.apart hmem
  have hloc : e.loc = .small := h.faithful.tidy.loc_eq hk .small hmem
  have hnodes : σ.policy.small = (k, e.freq) :: liveNodes σ.map rest := by
    show liveNodes σ.map σ.smallKeys = _
    rw [hq, liveNodes_cons hk]
  have hquota : (shardLimits cap).small ≤ σ.policy.small.length := by
    show _ ≤ (liveNodes σ.map (σ.queueKeys .small)).length
    rw [h.nodes_length .small, ← h.smallCap]
    exact quota
  unfold evictFromSmall S3Fifo.evictOne
  rw [if_pos hquota, hnodes]
  simp only [hpop, subOne_pos hlive]
  cases hfreq : e.freq with
  | zero =>
    have hsame : ∀ y, y ≠ k → (σ.map.remove k).get? y = σ.map.get? y :=
      fun y hy => by rw [Table.get?_remove, if_neg hy]
    refine ⟨.evicted k, _, rfl, ⟨?_, lookup_remove k rfl⟩, ?_⟩
    · rw [Ne, lookup_eq_none, hk]; simp
    · simp only [Option.some.injEq, Prod.mk.injEq, true_and]
      show S3Fifo.Policy.mk _ _ _ = S3Fifo.Policy.mk (liveNodes (σ.map.remove k) rest)
        (liveNodes (σ.map.remove k) σ.mainKeys) _
      rw [liveNodes_congr fun y hy => congrArg _ (hsame y fun hc => hnot (hc ▸ hy)),
        liveNodes_congr fun y hy => congrArg _ (hsame y fun hc => hkm (hc ▸ hy))]
      congr 1
      show insert (hash k) (if cap ≤ _ then _ else _) = insert (hash k) (if σ.ghostCap ≤ _ then _ else _)
      rw [h.ghostCap]
      rfl
  | succ n =>
    have hsame : ∀ y, ((σ.map.modify k fun e => { e with loc := .main }).get? y).map CacheEntry.freq
        = (σ.map.get? y).map CacheEntry.freq := by
      intro y
      rw [Table.get?_modify]
      split
      · rw [Option.map_map]; rfl
      · rfl
    have hself : (σ.map.modify k fun e => { e with loc := .main }).get? k
        = some { e with loc := .main } := by
      rw [Table.get?_modify, if_pos rfl, hk]
      rfl
    refine ⟨.promoted k, _, rfl, ⟨e, hk, hloc, ?_, ?_⟩, ?_⟩
    · exact hself
    · exact lookup_modify (f := fun e => { e with loc := .main }) k rfl fun _ => rfl
    · simp only [Option.some.injEq, Prod.mk.injEq, true_and]
      show S3Fifo.Policy.mk _ _ _ = S3Fifo.Policy.mk
        (liveNodes (σ.map.modify k fun e => { e with loc := .main }) rest)
        (liveNodes (σ.map.modify k fun e => { e with loc := .main }) (σ.mainKeys ++ [k])) σ.ghostSet
      rw [liveNodes_append, liveNodes_cons hself, liveNodes_congr fun y _ => hsame y,
        liveNodes_congr fun y _ => hsame y, ← hfreq]
      rfl

/-- main を見る側。列を `secondChance` で回したものになる。 -/
theorem evictFromMain_policy (h : Steady hash cap log σ) (full : σ.Over)
    (side : σ.smallLive < σ.smallCap) :
    ∃ ev σ', σ.evictFromMain = .ok σ' ∧ Shows ev σ σ' ∧
      S3Fifo.evictOne (shardLimits cap) hash σ.policy = some (ev, σ'.policy) := by
  obtain ⟨hcount, hlive⟩ := main_candidate h.healthy full side
  have hlen : (liveNodes σ.map σ.mainKeys).length = σ.mainLive := h.nodes_length .main
  obtain ⟨before, x, m, after, hsplit, hf⟩ := exists_firstLeast (l := liveNodes σ.map σ.mainKeys) (by
    intro hnil
    rw [hnil, List.length_nil] at hlen
    omega)
  have hchance := secondChance_eq hsplit hf
  obtain ⟨t, ks, hev, -, hloop⟩ := evictFromMain_run hchance h.healthy.linked
    h.faithful.uniqueMain rfl (Nat.lt_succ_self _)
  rw [subOne_pos hlive] at hloop
  have hquota : ¬ (shardLimits cap).small ≤ σ.policy.small.length := by
    show ¬ _ ≤ (liveNodes σ.map (σ.queueKeys .small)).length
    rw [h.nodes_length .small, ← h.smallCap]
    show ¬ σ.smallCap ≤ σ.smallLive
    omega
  have hxm : x ∈ σ.mainKeys := by
    have : (x, m) ∈ liveNodes σ.map σ.mainKeys := by rw [hsplit]; simp
    exact (mem_liveNodes.mp this).1
  refine ⟨.evicted x, _, hloop, ⟨?_, ?_⟩, ?_⟩
  · obtain ⟨e, he⟩ := h.live_keys .main x hxm
    rw [Ne, lookup_eq_none, he]
    simp
  · funext y
    by_cases hy : y = x
    · rw [hy, Function.update_self]
      exact lookup_eq_none.mpr hev.gone
    · rw [Function.update_of_ne hy]
      cases hk : σ.map.get? y with
      | none => rw [lookup_eq_none.mpr hk]; exact lookup_eq_none.mpr (hev.absent y hk)
      | some e =>
        obtain ⟨n, hn⟩ := hev.kept y hy e hk
        show (t.get? y).map _ = (σ.map.get? y).map _
        rw [hn, hk]
        rfl
  · unfold S3Fifo.evictOne
    rw [if_neg hquota]
    show (secondChance (liveNodes σ.map σ.mainKeys)).map _ = _
    rw [hchance]
    simp only [Option.map_some, Option.some.injEq, Prod.mk.injEq, true_and]
    show S3Fifo.Policy.mk (liveNodes σ.map σ.smallKeys) _ _
      = S3Fifo.Policy.mk (liveNodes t σ.smallKeys) (liveNodes t ks) σ.ghostSet
    -- small queue の key は main queue に居ないので、freq は動いていない
    rw [hev.nodes, liveNodes_congr fun y hy => congrArg _
      (hev.other y (fun hc => h.faithful.apart hy (hc ▸ hxm)) (h.faithful.apart hy))]
    rfl

/-- `evict_one` の一回は、参照の一歩である。 -/
theorem evictOne_policy (h : Steady hash cap log σ) (full : σ.Over) :
    ∃ ev σ', σ.evictOne = .ok σ' ∧ Shows ev σ σ' ∧ Steady hash cap log σ' ∧
      S3Fifo.evictOne (shardLimits cap) hash σ.policy = some (ev, σ'.policy) := by
  have hcase : ∃ ev σ', σ.evictOne = .ok σ' ∧ Shows ev σ σ' ∧
      S3Fifo.evictOne (shardLimits cap) hash σ.policy = some (ev, σ'.policy) := by
    unfold evictOne
    split
    · next quota => exact evictFromSmall_policy h quota
    · next quota => exact evictFromMain_policy h full (by omega)
  obtain ⟨ev, σ', hcall, hshow, hpol⟩ := hcase
  exact ⟨ev, σ', hcall, hshow, h.sweeps (evictOne_sweep h.healthy.linked full hcall), hpol⟩

/-- 追い出しの loop が実際にしたことの列。 -/
inductive EvictTrace : ShardData K V → List (S3Fifo.Event K) → ShardData K V → Prop
  | room {σ : ShardData K V} (h : ¬ σ.Over) : EvictTrace σ [] σ
  | call {σ σ₁ σ' : ShardData K V} {ev : S3Fifo.Event K} {evs : List (S3Fifo.Event K)}
      (full : σ.Over) (h : σ.evictOne = .ok σ₁) (hev : Shows ev σ σ₁)
      (rest : EvictTrace σ₁ evs σ') : EvictTrace σ (ev :: evs) σ'

/-- 空きができるまでの呼び出しの列は、参照が空きを作る列と一致する。 -/
theorem evictCalls_policy (h : Steady hash cap log σ) (hcalls : ReflTransGen EvictCall σ σ')
    (hroom : ¬ σ'.Over) :
    ∃ evs, EvictTrace σ evs σ' ∧ Steady hash cap log σ' ∧
      S3Fifo.MakeRoom (shardLimits cap) hash σ.policy evs σ'.policy := by
  induction hcalls using ReflTransGen.head_induction_on with
  | refl =>
    refine ⟨[], .room hroom, h, .room ?_⟩
    rw [h.over_iff] at hroom
    omega
  | @head τ τ₁ hcall _ ih =>
    obtain ⟨full, hone⟩ := hcall
    obtain ⟨ev, τ', hone', hshow, hsteady, hpol⟩ := evictOne_policy h full
    obtain rfl : τ₁ = τ' := Except.ok.inj (hone.symm.trans hone')
    obtain ⟨evs, htrace, hlast, hmake⟩ := ih hsteady
    exact ⟨ev :: evs, .call full hone hshow htrace, hlast, .step (h.over_iff.mp full) hpol hmake⟩

theorem evictLoop_policy (h : Steady hash cap log σ) :
    ∃ evs σ', σ.evictLoop = .ok σ' ∧ EvictTrace σ evs σ' ∧ Steady hash cap log σ' ∧ ¬ σ'.Over ∧
      S3Fifo.MakeRoom (shardLimits cap) hash σ.policy evs σ'.policy := by
  by_cases full : σ.Over
  · obtain ⟨σ', hloop, hcalls, hroom, -⟩ := evictLoop_total h.healthy full
    obtain ⟨evs, htrace, hsteady, hmake⟩ := evictCalls_policy h hcalls hroom
    exact ⟨evs, σ', hloop, htrace, hsteady, hroom, hmake⟩
  · obtain ⟨evs, htrace, hsteady, hmake⟩ := evictCalls_policy h .refl full
    exact ⟨evs, σ, evictLoop_room full, htrace, hsteady, full, hmake⟩

end

/-! ## 操作 -/

/-- freq を増やす読み出し。 -/
def KeyOp.reads : KeyOp K V → Bool
  | .get | .getMut _ => true
  | _ => false

/-- 方針から見た操作。 -/
def ShardOp.request : ShardOp K V → S3Fifo.Request K
  | .key k op => if op.reads then .read k else if op.newValue.isSome then .write k else .other
  | .retain _ _ | .alterAll _ _ => .other
  | .clearAll => .clear

omit [DecidableEq K] in
theorem ShardOp.request_key (k : K) (op : KeyOp K V) :
    (ShardOp.key k op).request =
      if op.reads then .read k else if op.newValue.isSome then .write k else .other :=
  rfl

/-- 操作が新しく入れる key。 -/
def ShardOp.inserted (op : ShardOp K V) (σ : ShardData K V) : List K :=
  match op with
  | .key k kop => if (σ.map.get? k).isNone ∧ kop.newValue.isSome then [k] else []
  | _ => []

/-- 操作の中で追い出しの loop が実際にしたこと。新しい key を入れなければ loop は回らない。 -/
def ShardOp.Evictions (hash : K → UInt64) (op : ShardOp K V) (σ : ShardData K V)
    (evs : List (S3Fifo.Event K)) : Prop :=
  match op.inserted σ with
  | [] => evs = []
  | k :: _ => ∃ σ₁, (σ.ghostCheck (hash k)).2.evictLoop = .ok σ₁ ∧
      EvictTrace (σ.ghostCheck (hash k)).2 evs σ₁

/-- 操作が明示的な除去をしないこと。 -/
def NoRemoval (σ : ShardData K V) (op : ShardOp K V) : Prop := ∀ loc, op.drops σ loc = 0

omit [DecidableEq K] in
/-- 残す操作のうち、freq を動かすのは読み出しだけである。 -/
theorem KeyOp.onPresent_freq {op : KeyOp K V} {k : K} {e e' : CacheEntry V}
    (h : (op.onPresent k e).2 = some e') :
    e'.freq = if op.reads then e.bumpFreq.freq else e.freq := by
  cases op <;> simp only [onPresent] at h
  case removeIf f => split at h <;> cases h; rfl
  case removeIfMut f => split at h <;> cases h; rfl
  all_goals cases h; try rfl

theorem liveNodes_modify {t : RawTable K V} {k : K} {e : CacheEntry V} (hk : t.get? k = some e)
    (e' : CacheEntry V) (ks : List K) :
    liveNodes (t.modify k fun _ => e') ks
      = (liveNodes t ks).map fun p => if p.1 = k then (p.1, e'.freq) else p := by
  induction ks with
  | nil => rfl
  | cons x ks ih =>
    have hx : (t.modify k fun _ => e').get? x = if x = k then some e' else t.get? x := by
      rw [Table.get?_modify]
      by_cases hxk : x = k
      · rw [if_pos hxk, if_pos hxk, hxk, hk]; rfl
      · rw [if_neg hxk, if_neg hxk]
    by_cases hxk : x = k
    · subst hxk
      rw [if_pos rfl] at hx
      rw [liveNodes_cons hx, liveNodes_cons hk, ih]
      simp
    · rw [if_neg hxk] at hx
      cases hget : t.get? x with
      | none =>
        rw [hget] at hx
        unfold liveNodes at ih ⊢
        rw [List.filterMap_cons, List.filterMap_cons, hx, hget]
        exact ih
      | some e₀ =>
        rw [hget] at hx
        rw [liveNodes_cons hx, liveNodes_cons hget, ih]
        simp [hxk]

/-- 読まれた key の freq を書き換えた列は、参照の `bump` である。 -/
theorem liveNodes_bump {t : RawTable K V} {k : K} {e e' : CacheEntry V} (hk : t.get? k = some e)
    (he : e'.freq = e.bumpFreq.freq) (ks : List K) :
    liveNodes (t.modify k fun _ => e') ks = S3Fifo.bump k (liveNodes t ks) := by
  rw [liveNodes_modify hk]
  refine List.map_congr_left ?_
  rintro ⟨x, n⟩ hp
  obtain ⟨-, e₀, he₀, rfl⟩ := mem_liveNodes.mp hp
  by_cases hx : x = k
  · subst hx
    rw [hk] at he₀
    cases he₀
    by_cases hlt : e.freq < 3 <;> simp [he, CacheEntry.bumpFreq, maxFreq, hlt]
  · simp [hx]

theorem liveNodes_same {t : RawTable K V} {k : K} {e e' : CacheEntry V} (hk : t.get? k = some e)
    (he : e'.freq = e.freq) (ks : List K) :
    liveNodes (t.modify k fun _ => e') ks = liveNodes t ks := by
  refine liveNodes_congr ?_
  intro x _
  rw [Table.get?_modify]
  split
  · next hx => rw [hx, hk]; simp [he]
  · rfl

theorem bump_of_not_mem {k : K} {l : List (K × Nat)} (h : k ∉ l.map Prod.fst) :
    S3Fifo.bump k l = l := by
  refine (List.map_congr_left ?_).trans (List.map_id _)
  intro p hp
  have hne : p.1 ≠ k := fun hc => h (hc ▸ List.mem_map_of_mem hp)
  simp [hne]

section

variable {log : List K}

/-- queue にも loc にも触らない変化の後。 -/
theorem Steady.edits (h : Steady hash cap log σ) (he : ReflTransGen (Edit hash) σ σ')
    (hq : ∀ loc, σ'.queueKeys loc = σ.queueKeys loc)
    (hloc : ∀ x, (σ'.map.get? x).map CacheEntry.loc = (σ.map.get? x).map CacheEntry.loc) :
    Steady hash cap log σ' := by
  have hget : ∀ x loc, (∃ e, σ.map.get? x = some e ∧ e.loc = loc) ↔
      ∃ e, σ'.map.get? x = some e ∧ e.loc = loc := by
    intro x loc
    rw [← Option.map_eq_some_iff, ← Option.map_eq_some_iff, hloc]
  have hcaps : σ'.shardCap = cap ∧ σ'.smallCap = (shardLimits cap).small ∧ σ'.ghostCap = cap := by
    refine star_preserves (P := fun τ => τ.shardCap = cap ∧ τ.smallCap = (shardLimits cap).small ∧
      τ.ghostCap = cap) ?_ he ⟨h.shardCap, h.smallCap, h.ghostCap⟩
    rintro τ τ' ⟨h1, h2, h3⟩ hstep
    obtain ⟨h1', h2'⟩ := Move.caps (Or.inr hstep)
    exact ⟨h1'.trans h1, h2'.trans h2, (Move.ghostCap (Or.inr hstep)).trans h3⟩
  refine ⟨star_preserves (P := Healthy hash) (fun _ _ hs hstep => Move.healthy (Or.inr hstep) hs)
      he h.healthy, ⟨?_, ?_⟩,
    star_preserves (P := Exact) (fun _ _ hx hstep => hstep.exact hx) he h.exact, ?_, hcaps.1, hcaps.2.1, hcaps.2.2⟩
  · intro loc x hx
    rw [hq] at hx
    exact (hget x loc).mp (h.faithful.listed loc x hx)
  · intro loc
    rw [hq]
    exact h.faithful.nodup loc
  · refine h.ordered.keep (hq .small) ?_
    intro x
    rw [ownedBy_iff, ownedBy_iff, hget]

theorem Steady.register (h : Steady hash cap log σ) {k : K} (hk : σ.map.get? k = none)
    (hroom : ¬ σ.Over) (v : V) (loc : Loc) :
    Steady hash cap (log ++ [k]) (σ.register (hash k) k v loc) := by
  have he : Edit hash σ (σ.register (hash k) k v loc) := .register k v loc hk hroom
  obtain ⟨hcap, hsmall⟩ := Move.caps (Or.inr he)
  refine ⟨Move.healthy (Or.inr he) h.healthy, ⟨?_, ?_⟩, he.exact h.exact, h.ordered.register hk v loc,
    hcap.trans h.shardCap, hsmall.trans h.smallCap, (Move.ghostCap (Or.inr he)).trans h.ghostCap⟩
  · intro loc' x hx
    rw [register_queueKeys] at hx
    rw [register_map, Table.get?_insert]
    by_cases hxk : x = k
    · -- 登録した key の node は、登録した loc の queue にしか無い
      rw [if_pos hxk]
      by_cases hl : loc' = loc
      · exact ⟨_, rfl, hl.symm⟩
      · rw [if_neg hl] at hx
        exact absurd (hxk ▸ hx) (h.faithful.fresh hk loc')
    · rw [if_neg hxk]
      refine h.faithful.listed loc' x ?_
      by_cases hl : loc' = loc
      · rw [if_pos hl] at hx
        simpa [hxk] using hx
      · rwa [if_neg hl] at hx
  · intro loc'
    rw [register_queueKeys]
    by_cases hl : loc' = loc
    · rw [if_pos hl]
      exact List.nodup_append_comm.mp
        (List.nodup_cons.mpr ⟨h.faithful.fresh hk loc', h.faithful.nodup loc'⟩)
    · rw [if_neg hl]
      exact h.faithful.nodup loc'

theorem Steady.clearAll (h : Steady hash cap log σ) : Steady hash cap log σ.clearAll := by
  have he : Edit hash σ σ.clearAll := .clear
  refine ⟨Move.healthy (Or.inr he) h.healthy, ⟨?_, ?_⟩, he.exact h.exact, ?_, h.shardCap,
    h.smallCap, h.ghostCap⟩
  · intro loc x hx
    cases loc <;> cases hx
  · intro loc
    cases loc <;> exact List.nodup_nil
  · show [] = log.dedup.filter _
    refine (List.filter_eq_nil_iff.mpr ?_).symm
    intro x _ hx
    obtain ⟨e, he, -⟩ := ownedBy_iff.mp hx
    cases he

/-- key が表にあるときの一操作。 -/
theorem Steady.present {k : K} {op : KeyOp K V} {e : CacheEntry V} (h : Steady hash cap log σ)
    (hk : σ.map.get? k = some e) (hno : NoRemoval σ (.key k op)) :
    Steady hash cap log (σ.put k e (op.onPresent k e).2) ∧
      S3Fifo.Step (shardLimits cap) hash (ShardOp.key k op).request σ.policy []
        (σ.put k e (op.onPresent k e).2).policy := by
  cases ho : (op.onPresent k e).2 with
  | none =>
    have hone := hno e.loc
    simp [ShardOp.drops, hk, ho] at hone
  | some e' =>
    have hloc := KeyOp.onPresent_loc ho
    have hfreq := KeyOp.onPresent_freq ho
    constructor
    · refine h.edits (.single (by rw [← ho]; exact put_edit hk op)) (put_queueKeys σ k e _) ?_
      intro x
      rw [put_get? hk]
      by_cases hx : x = k
      · rw [if_pos hx, hx, hk]
        exact congrArg some hloc
      · rw [if_neg hx]
    · rw [ShardOp.request_key]
      show S3Fifo.Step _ _ _ σ.policy []
        ⟨liveNodes (σ.map.modify k fun _ => e') σ.smallKeys,
          liveNodes (σ.map.modify k fun _ => e') σ.mainKeys, σ.ghostSet⟩
      by_cases hr : op.reads = true
      · rw [if_pos hr] at hfreq ⊢
        rw [liveNodes_bump hk hfreq, liveNodes_bump hk hfreq]
        exact .read k
      · rw [if_neg hr] at hfreq ⊢
        rw [liveNodes_same hk hfreq, liveNodes_same hk hfreq]
        split
        · exact .hit ((h.mem_keys k).mpr ⟨e, hk⟩)
        · exact .other

/-- key が表に無く、入れもしない一操作。 -/
theorem Steady.idle {k : K} {op : KeyOp K V} (h : Steady hash cap log σ)
    (hk : σ.map.get? k = none) (hv : op.newValue = none) :
    S3Fifo.Step (shardLimits cap) hash (ShardOp.key k op).request σ.policy [] σ.policy := by
  rw [ShardOp.request_key]
  by_cases hr : op.reads = true
  · have hnot : k ∉ σ.policy.keys := by
      rw [h.mem_keys, hk]
      simp
    have hs : k ∉ σ.policy.small.map Prod.fst := fun hc => hnot (List.mem_append_left _ hc)
    have hm : k ∉ σ.policy.main.map Prod.fst := fun hc => hnot (List.mem_append_right _ hc)
    rw [if_pos hr]
    have hread : S3Fifo.Step (shardLimits cap) hash (.read k) σ.policy []
        { σ.policy with
          small := S3Fifo.bump k σ.policy.small, main := S3Fifo.bump k σ.policy.main } := .read k
    rw [bump_of_not_mem hs, bump_of_not_mem hm] at hread
    exact hread
  · rw [if_neg hr, if_neg (by simp [hv])]
    exact .other

/-- 登録した key は、参照の `push` の通りに末尾に付く。 -/
theorem register_policy (hf : Faithful σ) {k : K} (hk : σ.map.get? k = none) (v : V) (loc : Loc) :
    (σ.register (hash k) k v loc).policy = σ.policy.push k (loc = .main) := by
  have hself : (σ.map.insert (hash k) k (.new v loc)).get? k = some (.new v loc) := by
    rw [Table.get?_insert, if_pos rfl]
  have hsame : ∀ loc', liveNodes (σ.map.insert (hash k) k (.new v loc)) (σ.queueKeys loc')
      = liveNodes σ.map (σ.queueKeys loc') := by
    intro loc'
    refine liveNodes_congr ?_
    intro y hy
    have hne : y ≠ k := fun hc => hf.fresh hk loc' (hc ▸ hy)
    rw [Table.get?_insert, if_neg hne]
  have hs := hsame .small
  have hm := hsame .main
  simp only [queueKeys] at hs hm
  cases loc with
  | main =>
    show S3Fifo.Policy.mk (liveNodes (σ.map.insert (hash k) k (.new v .main)) σ.smallKeys)
      (liveNodes (σ.map.insert (hash k) k (.new v .main)) (σ.mainKeys ++ [k])) σ.ghostSet = _
    rw [liveNodes_append, liveNodes_cons hself, hs, hm]
    rfl
  | small =>
    show S3Fifo.Policy.mk (liveNodes (σ.map.insert (hash k) k (.new v .small)) (σ.smallKeys ++ [k]))
      (liveNodes (σ.map.insert (hash k) k (.new v .small)) σ.mainKeys) σ.ghostSet = _
    rw [liveNodes_append, liveNodes_cons hself, hs, hm]
    rfl

/-- 新しい key の挿入。ghost の判定、空きを作る、末尾に足す、の三段が参照と揃う。 -/
theorem Steady.fresh {k : K} {op : KeyOp K V} {v : V} (h : Steady hash cap log σ)
    (hk : σ.map.get? k = none) (hv : op.newValue = some v) :
    ∃ σ' evs, op.exec (hash k) k σ = .ok (op.absentRet, σ') ∧ Steady hash cap (log ++ [k]) σ' ∧
      (∃ σ₁, (σ.ghostCheck (hash k)).2.evictLoop = .ok σ₁ ∧
        EvictTrace (σ.ghostCheck (hash k)).2 evs σ₁) ∧
      S3Fifo.Step (shardLimits cap) hash (ShardOp.key k op).request σ.policy evs σ'.policy := by
  have hg : Steady hash cap log (σ.ghostCheck (hash k)).2 :=
    h.edits (.single (.takeGhost _)) (fun loc => by cases loc <;> rfl) fun _ => rfl
  obtain ⟨evs, σ₁, hloop, htrace, h₁, hroom, hmake⟩ := evictLoop_policy hg
  have hk₁ : σ₁.map.get? k = none :=
    sweep_absent (evictLoop_sweep hg.healthy.linked hloop).1 hk
  refine ⟨_, evs, exec_fresh h.healthy.linked hk hv hloop, h₁.register hk₁ hroom v _,
    ⟨σ₁, hloop, htrace⟩, ?_⟩
  have hr : ¬ op.reads = true := by
    intro hr
    cases op <;> simp [KeyOp.reads, KeyOp.newValue] at hr hv
  have hnot : k ∉ σ.policy.keys := by
    rw [h.mem_keys, hk]
    simp
  have hghost : decide ((σ.ghostCheck (hash k)).1 = .main) = decide (hash k ∈ σ.ghostSet) := by
    simp [ghostCheck]
  rw [ShardOp.request_key, if_neg hr, if_pos (by simp [hv]), register_policy h₁.faithful hk₁, hghost]
  exact .fresh hnot hmake

omit [DecidableEq K] in
/-- 一つも除かない `retain` は、loc と freq を動かさない。 -/
theorem retainSlots_keepAll {f : Nat → K → V → Bool × V} :
    ∀ {n : Nat} {l : List (Slot UInt64 K (CacheEntry V))}, (∀ loc, dropped f loc n l = 0) →
      (retainSlots f n l).map (fun s => (s.key, s.val.loc, s.val.freq))
        = l.map fun s => (s.key, s.val.loc, s.val.freq)
  | _, [], _ => rfl
  | n, s :: l, h => by
    have hkeep : (f n s.key s.val.value).1 = true := by
      by_contra hc
      have hone := h s.val.loc
      simp [dropped, hc] at hone
    have hrest : ∀ loc, dropped f loc (n + 1) l = 0 := by
      intro loc
      have := h loc
      unfold dropped at this
      omega
    unfold retainSlots
    rw [if_pos hkeep, List.map_cons, List.map_cons, retainSlots_keepAll hrest]

theorem Steady.retain {f : Nat → K → V → Bool × V} {n : Nat} (h : Steady hash cap log σ)
    (hno : ∀ loc, dropped f loc n σ.map.slots = 0) :
    Steady hash cap log (σ.retain f n).2 ∧ (σ.retain f n).2.policy = σ.policy := by
  obtain ⟨hslots, heq⟩ := retain_spec σ f n
  have hget := Table.get?_map_congr (t := σ.map) (u := (σ.retain f n).2.map)
    (fun e => (e.loc, e.freq)) (by rw [hslots]; exact retainSlots_keepAll hno)
  have hloc : ∀ x, ((σ.retain f n).2.map.get? x).map CacheEntry.loc
      = (σ.map.get? x).map CacheEntry.loc := by
    intro x
    have hx := congrArg (Option.map Prod.fst) (hget x)
    rw [Option.map_map, Option.map_map] at hx
    exact hx
  have hfreq : ∀ x, ((σ.retain f n).2.map.get? x).map CacheEntry.freq
      = (σ.map.get? x).map CacheEntry.freq := by
    intro x
    have hx := congrArg (Option.map Prod.snd) (hget x)
    rw [Option.map_map, Option.map_map] at hx
    exact hx
  refine ⟨h.edits (retain_edits σ f n) (retain_queueKeys σ f n) hloc, ?_⟩
  have hs : (σ.retain f n).2.smallKeys = σ.smallKeys := retain_queueKeys σ f n .small
  have hm : (σ.retain f n).2.mainKeys = σ.mainKeys := retain_queueKeys σ f n .main
  have hg : (σ.retain f n).2.ghostSet = σ.ghostSet := by rw [heq]
  unfold ShardData.policy
  rw [hs, hm, hg, liveNodes_congr fun x _ => hfreq x, liveNodes_congr fun x _ => hfreq x]

/-- 除去をしない一操作は失敗せず、参照の一操作になる。 -/
theorem Steady.exec {op : ShardOp K V} (h : Steady hash cap log σ) (hno : NoRemoval σ op) :
    ∃ r σ' evs, op.exec hash σ = .ok (r, σ') ∧ Steady hash cap (log ++ op.inserted σ) σ' ∧
      op.Evictions hash σ evs ∧
      S3Fifo.Step (shardLimits cap) hash op.request σ.policy evs σ'.policy := by
  cases op with
  | key k op =>
    cases hk : σ.map.get? k with
    | some e =>
      obtain ⟨hsteady, hstep⟩ := h.present hk hno
      have hins : (ShardOp.key k op).inserted σ = [] := by simp [ShardOp.inserted, hk]
      refine ⟨_, _, [], exec_present h.healthy.linked hk op, ?_, ?_, hstep⟩
      · rw [hins, List.append_nil]; exact hsteady
      · unfold ShardOp.Evictions; rw [hins]
    | none =>
      cases hv : op.newValue with
      | none =>
        have hins : (ShardOp.key k op).inserted σ = [] := by simp [ShardOp.inserted, hv]
        have hexec := exec_absent h.healthy.linked hk op
        rw [hv] at hexec
        refine ⟨_, _, [], hexec, ?_, ?_, h.idle hk hv⟩
        · rw [hins, List.append_nil]; exact h
        · unfold ShardOp.Evictions; rw [hins]
      | some v =>
        have hins : (ShardOp.key k op).inserted σ = [k] := by simp [ShardOp.inserted, hk, hv]
        obtain ⟨σ', evs, hexec, hsteady, htrace, hstep⟩ := h.fresh hk hv
        refine ⟨_, σ', evs, hexec, ?_, ?_, hstep⟩
        · rw [hins]; exact hsteady
        · unfold ShardOp.Evictions; rw [hins]; exact htrace
  | retain f n =>
    obtain ⟨hsteady, hpol⟩ := h.retain hno
    refine ⟨.unit, (σ.retain f n).2, [], rfl, ?_, rfl, ?_⟩
    · show Steady hash cap (log ++ []) _
      rw [List.append_nil]
      exact hsteady
    · rw [hpol]
      exact .other
  | alterAll f n =>
    obtain ⟨hsteady, hpol⟩ := h.retain (f := fun n k v => (true, f n k v)) (n := n) fun loc =>
      dropped_keepAll f loc n σ.map.slots
    rw [← alterAll_eq_retain] at hsteady hpol
    refine ⟨.unit, (σ.alterAll f n).2, [], rfl, ?_, rfl, ?_⟩
    · show Steady hash cap (log ++ []) _
      rw [List.append_nil]
      exact hsteady
    · rw [hpol]
      exact .other
  | clearAll =>
    refine ⟨.unit, σ.clearAll, [], rfl, ?_, rfl, .clear⟩
    show Steady hash cap (log ++ []) _
    rw [List.append_nil]
    exact h.clearAll

end

/-! ## 実行全体 -/

/-- 構築した直後か、到達可能な状態を空にした直後。 -/
def Blank (hash : K → UInt64) (cap : Nat) (σ : ShardData K V) : Prop :=
  σ = .new cap ∨ ∃ τ, ShardReachable hash cap τ ∧ σ = τ.clearAll

/-- 列を行う間に新しく入れた key を、入れた順に並べたもの。 -/
def insertionLog (hash : K → UInt64) : List (ShardOp K V) → ShardData K V → List K
  | [], _ => []
  | op :: ops, σ => op.inserted σ ++
    match op.exec hash σ with
    | .error _ => []
    | .ok (_, σ') => insertionLog hash ops σ'

/-- 操作の列を最後まで行い、操作ごとに追い出しの loop が実際にしたことを並べる。 -/
inductive Traced (hash : K → UInt64) :
    List (ShardOp K V) → ShardData K V → List (List (S3Fifo.Event K)) → ShardData K V → Prop
  | nil {σ : ShardData K V} : Traced hash [] σ [] σ
  | cons {op : ShardOp K V} {ops : List (ShardOp K V)} {σ σ₁ σ' : ShardData K V} {r : Ret K V}
      {evs : List (S3Fifo.Event K)} {evss : List (List (S3Fifo.Event K))}
      (h : op.exec hash σ = .ok (r, σ₁)) (hev : op.Evictions hash σ evs)
      (rest : Traced hash ops σ₁ evss σ') : Traced hash (op :: ops) σ (evs :: evss) σ'

theorem Steady.of_blank (hcap : 1 ≤ cap) (h : Blank hash cap σ) : Steady hash cap [] σ := by
  have hnew : ∀ τ : ShardData K V, ShardReachable hash cap τ → τ.ghostCap = cap := by
    intro τ hτ
    refine (hτ.invariant (P := fun τ => τ.ghostCap = cap) rfl ?_).2
    rintro τ τ' - hg hm
    exact hm.ghostCap.trans hg
  have hempty : ∀ τ : ShardData K V, ShardReachable hash cap τ → τ.smallKeys = [] →
      τ.mainKeys = [] → (∀ loc, τ.live loc = 0) → τ.map.slots = [] → Steady hash cap [] τ := by
    intro τ hτ hs hm hl ht
    refine ⟨hτ.healthy hcap, ⟨?_, ?_⟩, ?_, ?_, hτ.caps.1, hτ.caps.2.trans (smallCap_new hcap),
      hnew τ hτ⟩
    · intro loc x hx
      cases loc with
      | small => change x ∈ τ.smallKeys at hx; rw [hs] at hx; cases hx
      | main => change x ∈ τ.mainKeys at hx; rw [hm] at hx; cases hx
    · intro loc
      cases loc with
      | small => show τ.smallKeys.Nodup; rw [hs]; exact List.nodup_nil
      | main => show τ.mainKeys.Nodup; rw [hm]; exact List.nodup_nil
    · intro loc
      rw [hl, countLoc, Table.sum, ht]
      rfl
    · exact hs
  rcases h with rfl | ⟨τ, hτ, rfl⟩
  · exact hempty _ reachable_new rfl rfl (fun loc => by cases loc <;> rfl) rfl
  · exact hempty _ (.step hτ (a := .clearAll) ⟨.unit, rfl⟩) rfl rfl
      (fun loc => by cases loc <;> rfl) rfl

/-- 除去の無い列は最後まで行え、その間ずっと参照と揃っている。 -/
theorem Steady.run : ∀ {ops : List (ShardOp K V)} {log : List K} {σ : ShardData K V},
    Steady hash cap log σ → AllSteps hash NoRemoval ops σ →
    ∃ σ' evss, Traced hash ops σ evss σ' ∧ Steady hash cap (log ++ insertionLog hash ops σ) σ' ∧
      S3Fifo.Run (shardLimits cap) hash (ops.map ShardOp.request) σ.policy evss σ'.policy
  | [], log, σ, h, _ => by
    refine ⟨σ, [], .nil, ?_, .nil⟩
    show Steady hash cap (log ++ []) σ
    rw [List.append_nil]
    exact h
  | op :: ops, log, σ, h, hok => by
    obtain ⟨hno, hrest⟩ := hok
    obtain ⟨r, σ₁, evs, hexec, h₁, hev, hstep⟩ := h.exec hno
    rw [hexec] at hrest
    obtain ⟨σ', evss, htraced, h', hrun⟩ := Steady.run h₁ hrest
    refine ⟨σ', evs :: evss, .cons hexec hev htraced, ?_, .cons hstep hrun⟩
    have hlog : insertionLog hash (op :: ops) σ = op.inserted σ ++ insertionLog hash ops σ₁ := by
      rw [insertionLog, hexec]
    rw [hlog, ← List.append_assoc]
    exact h'

/--
除去の無い実行。構築または全消去の後、明示的な除去をしない操作だけを続ける。

操作は失敗せず、small queue は small に属する key を入れた順に、main queue は main に属する key を、
どちらも一度ずつ並べる。追い出しの loop が昇格させ追い出したものは、
参照の S3-FIFO を同じ操作の列で動かしたものと一致する。
-/
theorem removalFree_s3Fifo {ops : List (ShardOp K V)} (hcap : 1 ≤ cap) (hσ : Blank hash cap σ)
    (hno : AllSteps hash NoRemoval ops σ) :
    ∃ σ' evss, Traced hash ops σ evss σ' ∧
      S3Fifo.Run (shardLimits cap) hash (ops.map ShardOp.request) .empty evss σ'.policy ∧
      σ'.smallKeys = (insertionLog hash ops σ).dedup.filter (σ'.ownedBy .small) ∧
      (∀ loc, (σ'.queueKeys loc).Nodup ∧
        ∀ k, k ∈ σ'.queueKeys loc ↔ ∃ e, σ'.map.get? k = some e ∧ e.loc = loc) ∧
      σ'.policy.small.map Prod.fst = σ'.smallKeys ∧ σ'.policy.main.map Prod.fst = σ'.mainKeys := by
  obtain ⟨σ', evss, htraced, h, hrun⟩ := (Steady.of_blank hcap hσ).run hno
  have hempty : σ.policy = .empty := by
    rcases hσ with rfl | ⟨τ, -, rfl⟩
    · rfl
    · rfl
  rw [hempty] at hrun
  exact ⟨σ', evss, htraced, hrun, h.ordered,
    fun loc => ⟨h.faithful.nodup loc, h.faithful.mem_iff h.healthy.covered loc⟩,
    liveNodes_keys (h.live_keys .small), liveNodes_keys (h.live_keys .main)⟩

/-- 昇格と small からの追い出しを一回ずつ含む、容量 2 の実行。 -/
theorem removalFree_s3Fifo_capTwo :
    ∃ σ evss, Traced UInt64.ofNat [.key 0 (.insert 0), .key 1 (.insert 1), .key 0 .get,
        .key 2 (.entryInsert 2)] (ShardData.new 2 : ShardData Nat Nat) evss σ ∧
      S3Fifo.Run (shardLimits 2) UInt64.ofNat [.write 0, .write 1, .read 0, .write 2] .empty evss
        σ.policy ∧
      σ.smallKeys = [0, 1, 2].filter (σ.ownedBy .small) := by
  have hno : AllSteps UInt64.ofNat NoRemoval [.key 0 (.insert 0), .key 1 (.insert 1), .key 0 .get,
      .key 2 (.entryInsert 2)] (ShardData.new 2 : ShardData Nat Nat) :=
    ⟨fun loc => (by cases loc <;> decide), fun loc => (by cases loc <;> decide),
      fun loc => (by cases loc <;> decide), fun loc => (by cases loc <;> decide), trivial⟩
  obtain ⟨σ, evss, htraced, hrun, hsmall, -⟩ := removalFree_s3Fifo (by decide) (Or.inl rfl) hno
  exact ⟨σ, evss, htraced, hrun, hsmall⟩

end Neocache
