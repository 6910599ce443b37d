import Neocache.Properties.RemovalFree

/-!
# 一度きりの key は main を荒らさない

見覚えの無い key を次々に入れ、一度も読まない。これが何件続いても、main に居る entry は
追い出されず、freq も減らず、small から順に押し出されるだけである。

source が頼っているのは、満杯のときに small が `smallCap` 以上あることで、
これは main が `shardCap - smallCap` 以下であることから出る。`mainCap` は source では読まれない。

参照の S3-FIFO の上で一操作ずつ調べ（`S3Fifo.Step.scan`）、除去の無い実行が参照と揃うこと
（`Steady.fresh`）を通して shard に戻す。容量 0 の shard は追い出しをしないので別に扱う。
-/

namespace Neocache

open Infra Relation ShardData

variable {K V : Type*} [DecidableEq K] {hash : K → UInt64} {σ σ' σ₀ : ShardData K V} {cap : Nat}

/-! ## 参照の側 -/

namespace S3Fifo

variable {limits : Limits} {P P' : Policy K} {k : K} {evs : List (Event K)}

/-- 満杯でも small に居る entry が上限以上あり、どれも読まれていない。 -/
structure Quiet (limits : Limits) (P : Policy K) : Prop where
  small_pos : 0 < limits.small
  main_le : P.main.length + limits.small ≤ limits.total
  size_le : P.size ≤ limits.total
  cold : ∀ p ∈ P.small, p.2 = 0

/-- 一件の挿入で押し出される個数。 -/
def Policy.excess (limits : Limits) (P : Policy K) (n : Nat) : Nat := P.size + n - limits.total

omit [DecidableEq K] in
/-- 満杯なら small の先頭が追い出され、それで空きができる。 -/
theorem MakeRoom.quiet (h : Quiet limits P) (hm : MakeRoom limits hash P evs P') :
    P'.main = P.main ∧ P'.small = P.small.drop (P.excess limits 1) ∧
      evs = (P.small.take (P.excess limits 1)).map (fun p : K × Nat => Event.evicted p.1) ∧
      (∀ x ∈ P'.ghost, x ∈ P.ghost ∨ ∃ p ∈ P.small, hash p.1 = x) ∧
      P.excess limits 1 ≤ P.small.length := by
  have hsize : P.size = P.small.length + P.main.length := rfl
  have hle := h.size_le
  have hmain := h.main_le
  have hpos := h.small_pos
  cases hm with
  | room hlt =>
    have hz : P.excess limits 1 = 0 := by unfold Policy.excess; omega
    rw [hz]
    exact ⟨rfl, rfl, rfl, fun x hx => Or.inl hx, Nat.zero_le _⟩
  | @step P P₁ P' ev evs full hone rest =>
    have hn : P.excess limits 1 = 1 := by unfold Policy.excess; omega
    obtain ⟨k₀, n, l, hl⟩ : ∃ k₀ n l, P.small = (k₀, n) :: l := by
      cases hs : P.small with
      | nil => rw [hs, List.length_nil] at hsize; omega
      | cons p l => exact ⟨p.1, p.2, l, rfl⟩
    obtain rfl : n = 0 := h.cold (k₀, n) (by rw [hl]; exact List.mem_cons_self)
    have hquota : limits.small ≤ P.small.length := by omega
    unfold evictOne at hone
    rw [if_pos hquota, hl] at hone
    obtain ⟨rfl, rfl⟩ := Prod.mk.inj (Option.some.inj hone)
    -- 一つ追い出したので、もう満杯ではない
    cases rest with
    | step full' _ _ =>
      rw [hl, List.length_cons] at hsize
      have hshrink : (Policy.mk l P.main (remember limits P.ghost (hash k₀))).size
          = l.length + P.main.length := rfl
      omega
    | room _ =>
      rw [hn, hl]
      refine ⟨rfl, rfl, rfl, ?_, by simp⟩
      intro x hx
      rcases Finset.mem_insert.mp hx with rfl | hx
      · exact Or.inr ⟨(k₀, 0), List.mem_cons_self, rfl⟩
      · split at hx
        · cases hx
        · exact Or.inl hx

/-- 見覚えの無い key を一つ入れる。 -/
theorem Step.scan (h : Quiet limits P) (hs : Step limits hash (.write k) P evs P')
    (hk : k ∉ P.keys) (hg : hash k ∉ P.ghost) :
    Quiet limits P' ∧ P'.main = P.main ∧
      P'.small = (P.small ++ [(k, 0)]).drop (P.excess limits 1) ∧
      evs = ((P.small ++ [(k, 0)]).take (P.excess limits 1)).map
        (fun p : K × Nat => Event.evicted p.1) ∧
      (∀ x ∈ P'.ghost, x ∈ P.ghost ∨ ∃ p ∈ P.small, hash p.1 = x) ∧
      P'.size = P.size + 1 - P.excess limits 1 := by
  cases hs with
  | hit hmem => exact absurd hmem hk
  | @fresh _ P₁ _ _ _ room =>
    rw [Finset.erase_eq_of_notMem hg] at room
    obtain ⟨hmain, hsmall, hevs, hghost, hle⟩ := room.quiet h
    have hpush : P₁.push k (decide (hash k ∈ P.ghost))
        = { P₁ with small := P₁.small ++ [(k, 0)] } := by
      simp [Policy.push, hg]
    rw [hpush]
    have hdrop : (P.small ++ [(k, 0)]).drop (P.excess limits 1) = P₁.small ++ [(k, 0)] := by
      rw [List.drop_append_of_le_length hle, ← hsmall]
    have htake : (P.small ++ [(k, 0)]).take (P.excess limits 1)
        = P.small.take (P.excess limits 1) := List.take_append_of_le_length hle
    have hlen : P₁.small.length = P.small.length - P.excess limits 1 := by
      rw [hsmall, List.length_drop]
    have hsize : ({ P₁ with small := P₁.small ++ [(k, 0)] } : Policy K).size
        = P.size + 1 - P.excess limits 1 := by
      show (P₁.small ++ [(k, 0)]).length + P₁.main.length = _
      rw [List.length_append, hlen, hmain]
      show P.small.length - P.excess limits 1 + 1 + P.main.length
        = P.small.length + P.main.length + 1 - P.excess limits 1
      omega
    refine ⟨⟨h.small_pos, ?_, ?_, ?_⟩, hmain, hdrop.symm, by rw [htake]; exact hevs, hghost, hsize⟩
    · rw [hmain]; exact h.main_le
    · rw [hsize]; unfold Policy.excess; have := h.size_le; omega
    · intro p hp
      rcases List.mem_append.mp hp with hp | hp
      · rw [hsmall] at hp
        exact h.cold p (List.mem_of_mem_drop hp)
      · rw [List.mem_singleton.mp hp]

end S3Fifo

/-! ## shard の側 -/

/-- 見覚えの無い key を、一度ずつ入れる列。hash は互いに違い、ghost にも生きた key にも無い。 -/
structure Scan (hash : K → UInt64) (σ : ShardData K V) (l : List (K × KeyOp K V)) : Prop where
  inserts : ∀ p ∈ l, p.2.newValue.isSome
  fresh : ∀ p ∈ l, σ.map.get? p.1 = none
  distinct : (l.map fun p => hash p.1).Nodup
  unseen : ∀ p ∈ l, hash p.1 ∉ σ.ghostSet
  apart : ∀ p ∈ l, ∀ k e, σ.map.get? k = some e → hash k ≠ hash p.1

/-- 列を操作として並べたもの。 -/
def scanOps (l : List (K × KeyOp K V)) : List (ShardOp K V) := l.map fun p => .key p.1 p.2

section

variable {k : K} {op : KeyOp K V} {l : List (K × KeyOp K V)} {log : List K}

/-- 先頭を入れた後も、残りは見覚えの無い key の列である。 -/
theorem Scan.tail (h : Scan hash σ ((k, op) :: l))
    (hlive : ∀ x e, σ'.map.get? x = some e → x = k ∨ ∃ e', σ.map.get? x = some e')
    (hghost : ∀ x ∈ σ'.ghostSet, x ∈ σ.ghostSet ∨ ∃ y e, σ.map.get? y = some e ∧ hash y = x) :
    Scan hash σ' l := by
  have hdistinct := h.distinct
  rw [List.map_cons, List.nodup_cons] at hdistinct
  have hne : ∀ p ∈ l, hash k ≠ hash p.1 := by
    intro p hp hc
    exact hdistinct.1 (hc ▸ List.mem_map_of_mem (f := fun p : K × KeyOp K V => hash p.1) hp)
  refine ⟨fun p hp => h.inserts p (List.mem_cons_of_mem _ hp), ?_, hdistinct.2, ?_, ?_⟩
  · intro p hp
    cases hget : σ'.map.get? p.1 with
    | none => rfl
    | some e =>
      rcases hlive p.1 e hget with hx | ⟨e', he'⟩
      · exact absurd (congrArg hash hx.symm) (hne p hp)
      · rw [h.fresh p (List.mem_cons_of_mem _ hp)] at he'
        cases he'
  · intro p hp hmem
    rcases hghost _ hmem with hx | ⟨y, e, hy, hx⟩
    · exact h.unseen p (List.mem_cons_of_mem _ hp) hx
    · exact h.apart p (List.mem_cons_of_mem _ hp) y e hy hx
  · intro p hp x e hx
    rcases hlive x e hx with rfl | ⟨e', he'⟩
    · exact hne p hp
    · exact h.apart p (List.mem_cons_of_mem _ hp) x e' he'

theorem Steady.smallKeys_eq (h : Steady hash cap log σ) :
    σ.policy.small.map Prod.fst = σ.smallKeys := liveNodes_keys (h.live_keys .small)

theorem Steady.mainKeys_eq (h : Steady hash cap log σ) :
    σ.policy.main.map Prod.fst = σ.mainKeys := liveNodes_keys (h.live_keys .main)

/-- 一件の挿入。 -/
theorem Steady.scanOne (h : Steady hash cap log σ) (hq : S3Fifo.Quiet (shardLimits cap) σ.policy)
    (hs : Scan hash σ ((k, op) :: l)) :
    ∃ σ' evs r, op.exec (hash k) k σ = .ok (r, σ') ∧
      (ShardOp.key k op).Evictions hash σ evs ∧ Steady hash cap (log ++ [k]) σ' ∧
      S3Fifo.Quiet (shardLimits cap) σ'.policy ∧ Scan hash σ' l ∧
      σ'.policy.main = σ.policy.main ∧
      σ'.smallKeys = (σ.smallKeys ++ [k]).drop (σ.policy.excess (shardLimits cap) 1) ∧
      evs = ((σ.smallKeys ++ [k]).take (σ.policy.excess (shardLimits cap) 1)).map .evicted ∧
      σ'.policy.size = σ.policy.size + 1 - σ.policy.excess (shardLimits cap) 1 := by
  have hk : σ.map.get? k = none := hs.fresh (k, op) List.mem_cons_self
  obtain ⟨v, hv⟩ := Option.isSome_iff_exists.mp (hs.inserts (k, op) List.mem_cons_self)
  obtain ⟨σ', evs, hexec, hsteady, htrace, hstep⟩ := h.fresh hk hv
  have hread : ¬ op.reads = true := by
    intro hr
    cases op <;> simp [KeyOp.reads, KeyOp.newValue] at hr hv
  have hnot : k ∉ σ.policy.keys := by
    rw [h.mem_keys, hk]
    simp
  rw [ShardOp.request_key, if_neg hread, if_pos (by simp [hv])] at hstep
  obtain ⟨hquiet, hmain, hsmall, hevs, hghost, hsize⟩ :=
    hstep.scan hq hnot (hs.unseen (k, op) List.mem_cons_self)
  have hins : (ShardOp.key k op).inserted σ = [k] := by simp [ShardOp.inserted, hk, hv]
  have hkeys : σ'.smallKeys
      = (σ.smallKeys ++ [k]).drop (σ.policy.excess (shardLimits cap) 1) := by
    rw [← hsteady.smallKeys_eq, hsmall, List.map_drop, List.map_append, h.smallKeys_eq]
    rfl
  refine ⟨σ', evs, _, hexec, ?_, hsteady, hquiet, hs.tail ?_ ?_, hmain, hkeys, ?_, hsize⟩
  · unfold ShardOp.Evictions
    rw [hins]
    exact htrace
  · -- 列に残るのは、前から居た key と、いま入れた key だけである
    intro x e hx
    have hmem := (hsteady.mem_keys x).mpr ⟨e, hx⟩
    unfold S3Fifo.Policy.keys at hmem
    rw [hsteady.smallKeys_eq, hmain, h.mainKeys_eq, hkeys, List.mem_append] at hmem
    rcases hmem with hmem | hmem
    · rcases List.mem_append.mp (List.mem_of_mem_drop hmem) with hmem | hmem
      · exact Or.inr (h.live_keys .small x hmem)
      · exact Or.inl (List.mem_singleton.mp hmem)
    · exact Or.inr (h.live_keys .main x hmem)
  · intro x hx
    rcases hghost x hx with hx | ⟨⟨y, n⟩, hy, hx⟩
    · exact Or.inl hx
    · obtain ⟨-, e, he, -⟩ := mem_liveNodes.mp hy
      exact Or.inr ⟨y, e, he, hx⟩
  · rw [hevs, ← h.smallKeys_eq]
    have hmap : σ.policy.small.map Prod.fst ++ [k] = (σ.policy.small ++ [(k, 0)]).map Prod.fst := by
      rw [List.map_append]
      rfl
    rw [hmap, ← List.map_take, List.map_map]
    rfl

/-- 列全体。押し出されるのは、small の並びに新しい key を続けたものの先頭からである。 -/
theorem Steady.scan : ∀ {l : List (K × KeyOp K V)} {log : List K} {σ : ShardData K V},
    Steady hash cap log σ → S3Fifo.Quiet (shardLimits cap) σ.policy → Scan hash σ l →
    ∃ σ' evss, Traced hash (scanOps l) σ evss σ' ∧
      Steady hash cap (log ++ l.map Prod.fst) σ' ∧ σ'.policy.main = σ.policy.main ∧
      evss.flatten = ((σ.smallKeys ++ l.map Prod.fst).take
        (σ.policy.excess (shardLimits cap) l.length)).map .evicted
  | [], log, σ, h, hq, _ => by
    have hz : σ.policy.excess (shardLimits cap) 0 = 0 := by
      have := hq.size_le
      unfold S3Fifo.Policy.excess
      omega
    refine ⟨σ, [], .nil, by simpa using h, rfl, ?_⟩
    rw [List.length_nil, hz]
    rfl
  | (k, op) :: l, log, σ, h, hq, hs => by
    obtain ⟨σ₁, evs, r, hexec, hev, h₁, hq₁, hs₁, hmain, hkeys, hevs, hsize⟩ := h.scanOne hq hs
    obtain ⟨σ', evss, htraced, h', hmain', hflat⟩ := Steady.scan h₁ hq₁ hs₁
    refine ⟨σ', evs :: evss, .cons hexec hev htraced, ?_, hmain'.trans hmain, ?_⟩
    · rw [List.append_assoc] at h'
      exact h'
    · have hle := hq.size_le
      have hone : σ.policy.excess (shardLimits cap) 1 ≤ (σ.smallKeys ++ [k]).length := by
        rw [List.length_append]
        unfold S3Fifo.Policy.excess
        show _ ≤ _ + 1
        omega
      have hsum : σ.policy.excess (shardLimits cap) (l.length + 1)
          = σ.policy.excess (shardLimits cap) 1 + σ₁.policy.excess (shardLimits cap) l.length := by
        unfold S3Fifo.Policy.excess at hsize ⊢
        omega
      rw [List.flatten_cons, hflat, hevs, hkeys, ← List.map_append, take_concat hone,
        List.length_cons, hsum, List.append_assoc]
      rfl

/-- main に居る key と freq が変わらない。 -/
def SameMain (σ σ' : ShardData K V) : Prop :=
  ∀ k n, (∃ e, σ'.map.get? k = some e ∧ e.loc = .main ∧ e.freq = n) ↔
    ∃ e, σ.map.get? k = some e ∧ e.loc = .main ∧ e.freq = n

theorem Steady.mem_main {log : List K} (h : Steady hash cap log σ) (k : K) (n : Nat) :
    (k, n) ∈ σ.policy.main ↔ ∃ e, σ.map.get? k = some e ∧ e.loc = .main ∧ e.freq = n := by
  show (k, n) ∈ liveNodes σ.map σ.mainKeys ↔ _
  rw [mem_liveNodes]
  constructor
  · rintro ⟨hk, e, he, hn⟩
    have hloc : e.loc = .main := h.faithful.loc_eq he hk
    exact ⟨e, he, hloc, hn⟩
  · rintro ⟨e, he, hloc, hn⟩
    have hk := h.healthy.covered k e he
    rw [hloc] at hk
    exact ⟨hk, e, he, hn⟩

/-- shard の条件を、参照の条件に移す。 -/
theorem Steady.quiet (h : Steady hash cap log σ) (hmain : σ.mainLive ≤ σ.shardCap - σ.smallCap)
    (hcold : ∀ k e, σ.map.get? k = some e → e.loc = .small → e.freq = 0) :
    S3Fifo.Quiet (shardLimits cap) σ.policy where
  small_pos := by rw [← h.smallCap]; exact h.healthy.bounds.quota_pos
  main_le := by
    have hlen : σ.policy.main.length = σ.mainLive := h.nodes_length .main
    have hle := h.healthy.bounds.quota_le
    rw [hlen, ← h.smallCap]
    show _ ≤ cap
    rw [← h.shardCap]
    omega
  size_le := by
    have htotal := h.healthy.bounds.total
    rw [h.size_eq]
    show _ ≤ cap
    rw [← h.shardCap]
    exact htotal
  cold := by
    rintro ⟨k, n⟩ hp
    obtain ⟨hk, e, he, rfl⟩ := mem_liveNodes.mp hp
    have hloc : e.loc = .small := h.faithful.loc_eq he hk
    exact hcold k e he hloc

/-- 容量 0 の shard では、登録のほかには何も起こらない。 -/
theorem scan_unbounded : ∀ {l : List (K × KeyOp K V)} {σ : ShardData K V}, Linked hash σ →
    σ.shardCap = 0 → Scan hash σ l →
    ∃ σ' evss, Traced hash (scanOps l) σ evss σ' ∧ SameMain σ σ' ∧ evss.flatten = []
  | [], σ, _, _, _ => ⟨σ, [], .nil, fun _ _ => Iff.rfl, rfl⟩
  | (k, op) :: l, σ, hl, hcap, hs => by
    have hk : σ.map.get? k = none := hs.fresh (k, op) List.mem_cons_self
    obtain ⟨v, hv⟩ := Option.isSome_iff_exists.mp (hs.inserts (k, op) List.mem_cons_self)
    have hroom : ¬ σ.Over := by
      rintro ⟨hpos, -⟩
      omega
    have hloc : (σ.ghostCheck (hash k)).1 = .small :=
      if_neg (hs.unseen (k, op) List.mem_cons_self)
    obtain ⟨hloop, hexec⟩ := insertion_room hl hk hv hroom
    rw [hloc] at hexec
    have hins : (ShardOp.key k op).inserted σ = [k] := by simp [ShardOp.inserted, hk, hv]
    have hev : (ShardOp.key k op).Evictions hash σ [] := by
      unfold ShardOp.Evictions
      rw [hins]
      exact ⟨_, hloop, .room hroom⟩
    have hg : Linked hash (σ.ghostCheck (hash k)).2 := ⟨hl.queue, hl.table⟩
    have hl₁ : Linked hash ((σ.ghostCheck (hash k)).2.register (hash k) k v .small) :=
      hg.register k v .small
    have hget : ∀ x, ((σ.ghostCheck (hash k)).2.register (hash k) k v .small).map.get? x
        = if x = k then some (.new v .small) else σ.map.get? x :=
      fun x => Table.get?_insert σ.map (hash k) k x (.new v .small)
    obtain ⟨σ', evss, htraced, hsame, hflat⟩ := scan_unbounded hl₁ hcap (hs.tail (by
      intro x e hx
      rw [hget] at hx
      by_cases hxk : x = k
      · exact Or.inl hxk
      · rw [if_neg hxk] at hx
        exact Or.inr ⟨e, hx⟩) fun x hx => Or.inl (Finset.mem_of_mem_erase hx))
    refine ⟨σ', [] :: evss, .cons hexec hev htraced, ?_, hflat⟩
    intro x n
    rw [hsame x n, hget]
    by_cases hxk : x = k
    · simp [hxk, hk, CacheEntry.new]
    · rw [if_neg hxk]

end

/-! ## 実行全体 -/

theorem Blank.reachable (h : Blank hash cap σ) : ShardReachable hash cap σ := by
  rcases h with rfl | ⟨τ, hτ, rfl⟩
  · exact reachable_new
  · exact .step hτ (a := .clearAll) ⟨.unit, rfl⟩

/-- 記録のある実行は、`runOps` の実行である。 -/
theorem Traced.runOps {ops : List (ShardOp K V)} {evss : List (List (S3Fifo.Event K))}
    (h : Traced hash ops σ evss σ') : ∃ rs, runOps hash ops σ = .ok (rs, σ') := by
  induction h with
  | nil => exact ⟨[], rfl⟩
  | cons hexec _ _ ih =>
    obtain ⟨rs, hrest⟩ := ih
    unfold Neocache.runOps
    rw [hexec]
    simp only [hrest]
    exact ⟨_, rfl⟩

/--
一度きりの key の列に対する強さ。

構築または全消去の後、明示的な除去をせずに着いた状態で、main が `shardCap - smallCap` 以下、
small の entry がどれも読まれていないとする。見覚えの無い key を何件入れても、操作は失敗せず、
main に居る key と freq は変わらず（したがって昇格も起こらず）、追い出されるのは、
small の key を入れた順に並べ、新しい key を続けた列の先頭から、溢れた数だけである。
-/
theorem scan_resistance {pre : List (ShardOp K V)} {rs : List (Ret K V)}
    (scan : List (K × KeyOp K V)) (hσ₀ : Blank hash cap σ₀) (hno : AllSteps hash NoRemoval pre σ₀)
    (hrun : runOps hash pre σ₀ = .ok (rs, σ)) (hmain : σ.mainLive ≤ σ.shardCap - σ.smallCap)
    (hcold : ∀ k e, σ.map.get? k = some e → e.loc = .small → e.freq = 0)
    (hscan : Scan hash σ scan) :
    ∃ σ' evss, Traced hash (scanOps scan) σ evss σ' ∧ SameMain σ σ' ∧
      evss.flatten = (((insertionLog hash pre σ₀).dedup.filter (σ.ownedBy .small)
        ++ scan.map Prod.fst).take
          (if cap = 0 then 0 else σ.totalLive + scan.length - cap)).map .evicted := by
  have hreach := reachable_runOps hσ₀.reachable hrun
  rcases Nat.eq_zero_or_pos cap with rfl | hcap
  · obtain ⟨σ', evss, htraced, hsame, hflat⟩ :=
      scan_unbounded hreach.linked hreach.caps.1 hscan
    exact ⟨σ', evss, htraced, hsame, hflat⟩
  · obtain ⟨σ₁, evss₀, htraced₀, h, -⟩ := (Steady.of_blank hcap hσ₀).run hno
    obtain ⟨rs₁, hrun₁⟩ := htraced₀.runOps
    obtain rfl : σ₁ = σ := (Prod.mk.inj (Except.ok.inj (hrun₁.symm.trans hrun))).2
    obtain ⟨σ', evss, htraced, h', hkeep, hflat⟩ := h.scan (h.quiet hmain hcold) hscan
    refine ⟨σ', evss, htraced, ?_, ?_⟩
    · intro k n
      rw [← h.mem_main, ← h'.mem_main, hkeep]
    · have horder := h.ordered
      unfold Ordered at horder
      rw [List.nil_append] at horder
      have hexcess : σ₁.policy.excess (shardLimits cap) scan.length
          = if cap = 0 then 0 else σ₁.totalLive + scan.length - cap := by
        rw [if_neg (by omega)]
        unfold S3Fifo.Policy.excess
        rw [h.size_eq]
        rfl
      rw [hflat, hexcess, horder]

/-- 容量 2 の shard で、main に一つ居るところに二件を続けて入れる。 -/
theorem scan_resistance_capTwo :
    ∃ rs σ, runOps UInt64.ofNat [.key 0 (.insert 0), .key 0 .get, .key 1 (.insert 1),
        .key 2 (.insert 2)] (ShardData.new 2 : ShardData Nat Nat) = .ok (rs, σ) ∧
      ∃ σ' evss, Traced UInt64.ofNat [.key 3 (.insert 3), .key 4 (.entryInsert 4)] σ evss σ' ∧
        SameMain σ σ' ∧ evss.flatten = [.evicted 2, .evicted 3] := by
  have hrun : runOps UInt64.ofNat [.key 0 (.insert 0), .key 0 .get, .key 1 (.insert 1),
      .key 2 (.insert 2)] (ShardData.new 2 : ShardData Nat Nat) = .ok (_, _) := rfl
  have hno : AllSteps UInt64.ofNat NoRemoval [.key 0 (.insert 0), .key 0 .get, .key 1 (.insert 1),
      .key 2 (.insert 2)] (ShardData.new 2 : ShardData Nat Nat) :=
    ⟨fun loc => (by cases loc <;> decide), fun loc => (by cases loc <;> decide),
      fun loc => (by cases loc <;> decide), fun loc => (by cases loc <;> decide), trivial⟩
  obtain ⟨σ', evss, htraced, hsame, hflat⟩ := scan_resistance [(3, .insert 3), (4, .entryInsert 4)]
    (Or.inl rfl) hno hrun (by decide)
    (by
      intro k e hk
      obtain ⟨s, hs, rfl, rfl⟩ := Table.get?_eq_some.mp hk
      revert s
      decide)
    ⟨by decide, by decide, by decide, by decide, by
      intro p hp k e hk
      obtain ⟨s, hs, rfl, rfl⟩ := Table.get?_eq_some.mp hk
      revert p s
      decide⟩
  exact ⟨_, _, hrun, σ', evss, htraced, hsame, hflat⟩

end Neocache
