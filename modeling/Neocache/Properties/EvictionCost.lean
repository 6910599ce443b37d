import Neocache.Cache.Runs
import Neocache.Infra.Amortized
import Neocache.Properties.Capacity
import Neocache.Properties.Eviction
import Neocache.Shard.Cost

/-!
# 追い出しの均した費用

一回の挿入で queue から取り出す node の数に上限は無い。古い node が溜まっていれば、それを全部読む。
しかし実行全体で見れば、取り出した node の総数は「新しく入れた entry の数の二倍と、freq を増やした
回数の和」を超えない。

potential には、二本の queue の長さと表の freq の総和を取る（`workLeft`）。small の node は
main に移されてもう一度取り出されうるので二つ分に数える。

* 古い node の読み飛ばしと追い出しは、queue を縮める
* 昇格は、small の二つ分を main の一つ分に替える
* second chance は queue の長さを変えないが、freq を一つ使う

新しい entry は potential を高々 2、freq の増加は丁度 1 だけ増やし、除去は増やさない。表にある key
への挿入と、freq が飽和した entry の読み出しは、potential を変えない。
-/

namespace Neocache

open Infra ShardData

variable {K V : Type*}

namespace ShardData

/-- これから取り出されうる node の数。 -/
def workLeft (σ : ShardData K V) : Nat :=
  2 * σ.smallKeys.length + σ.mainKeys.length + σ.totalFreq

end ShardData

variable [DecidableEq K] {hash : K → UInt64} {σ σ' : ShardData K V}

/-! ## 一回の追い出し -/

theorem popLivePops_pos (t : RawTable K V) (hs : List UInt64) (ks : List K) :
    0 < popLivePops t hs ks := by
  unfold popLivePops
  split
  · split <;> omega
  · omega

/-- 生きた node に当たるまでに取り出す数は、縮んだ長さである。 -/
theorem popLivePops_found {t : RawTable K V} (ht : ∀ s ∈ t.slots, s.hash = hash s.key) {k : K}
    {e : CacheEntry V} (hk : t.get? k = some e) (rest : List K) :
    ∀ dead : List K, (∀ x ∈ dead, t.get? x = none) →
      popLivePops t ((dead ++ k :: rest).map hash) (dead ++ k :: rest) = dead.length + 1
  | [], _ => by
    have hf : t.find (hash k) k = some e := by rw [Table.find_eq_get? ht, hk]
    simp [popLivePops, hf]
  | x :: dead, hdead => by
    have hf : t.find (hash x) x = none := by
      rw [Table.find_eq_get? ht]
      exact hdead x List.mem_cons_self
    have ih := popLivePops_found ht hk rest dead
      fun y hy => hdead y (List.mem_cons_of_mem _ hy)
    simp only [List.cons_append, List.map_cons, popLivePops, hf, ih, List.length_cons]

/-- その loc の entry が残っていれば、取り出しは生きた node で止まる。 -/
theorem popLivePops_candidate {loc : Loc} (hs : Healthy hash σ) (hpos : 0 < σ.countLoc loc) :
    ∃ k e rest, σ.map.get? k = some e ∧
      popLive σ.map (σ.queueHashes loc) (σ.queueKeys loc)
        = (some (hash k, k, e), rest.map hash, rest) ∧
      popLivePops σ.map (σ.queueHashes loc) (σ.queueKeys loc) + rest.length
        = (σ.queueKeys loc).length := by
  obtain ⟨dead, k, e, rest, hq, hdead, hk, hpop⟩ := popLive_candidate hs hpos
  have hpops := popLivePops_found hs.linked.table hk rest dead hdead
  refine ⟨k, e, rest, hk, hpop, ?_⟩
  rw [hs.linked.queue loc, hq, hpops]
  simp only [List.length_append, List.length_cons]
  omega

/-- main の一周は、取り出した分だけ potential を減らす。 -/
theorem evictFromMainBody_pays (hs : Healthy hash σ) (full : σ.Over)
    (side : σ.smallLive < σ.smallCap) {r : Flow (ShardData K V)}
    (h : evictFromMainBody σ = .ok r) :
    Pays (fun τ => Healthy hash τ ∧ τ.Over ∧ τ.smallLive < τ.smallCap) workLeft
      (popLivePops σ.map σ.mainHashes σ.mainKeys) σ r := by
  obtain ⟨hcount, hlive⟩ := main_candidate hs full side
  obtain ⟨k, e, rest, hk, hpop, hpops⟩ := popLivePops_candidate hs hcount
  have hsweep := (evictFromMainBody_sweep hs.linked full (Or.inl side)).2
  change popLive σ.map σ.mainHashes σ.mainKeys = _ at hpop
  change popLivePops σ.map σ.mainHashes σ.mainKeys + _ = σ.mainKeys.length at hpops
  unfold evictFromMainBody at h hsweep
  simp only [hpop, subOne_pos hlive] at h hsweep
  by_cases hot : 0 < e.freq
  · rw [if_pos hot] at h hsweep
    cases h
    obtain ⟨hsw, -, -⟩ := hsweep _ rfl
    have hsum : (σ.map.modify k fun e => { e with freq := e.freq - 1 }).sum CacheEntry.freq + e.freq
        = σ.map.sum CacheEntry.freq + (e.freq - 1) :=
      Table.sum_modify hk (fun e => { e with freq := e.freq - 1 }) CacheEntry.freq
    refine ⟨⟨sweep_healthy hsw hs, full, side⟩, ?_⟩
    simp only [workLeft, totalFreq, List.length_append, List.length_singleton]
    omega
  · rw [if_neg hot] at h
    cases h
    have hsum := Table.sum_remove hk CacheEntry.freq
    simp only [Pays, workLeft, totalFreq]
    omega

theorem evictFromMain_pays (hs : Healthy hash σ) (full : σ.Over)
    (side : σ.smallLive < σ.smallCap) (h : σ.evictFromMain = .ok σ') :
    σ.evictFromMainPops + σ'.workLeft ≤ σ.workLeft :=
  loopCost_le (P := fun τ => Healthy hash τ ∧ τ.Over ∧ τ.smallLive < τ.smallCap)
    (fun _ _ ⟨hτ, hover, hside⟩ hb => evictFromMainBody_pays hτ hover hside hb)
    ⟨hs, full, side⟩ h

theorem evictFromSmall_pays (hs : Healthy hash σ) (quota : σ.smallCap ≤ σ.smallLive)
    (h : σ.evictFromSmall = .ok σ') : σ.evictFromSmallPops + σ'.workLeft ≤ σ.workLeft := by
  obtain ⟨hcount, hlive⟩ := small_candidate hs quota
  obtain ⟨k, e, rest, hk, hpop, hpops⟩ := popLivePops_candidate hs hcount
  change popLive σ.map σ.smallHashes σ.smallKeys = _ at hpop
  change popLivePops σ.map σ.smallHashes σ.smallKeys + _ = σ.smallKeys.length at hpops
  unfold evictFromSmall at h
  unfold evictFromSmallPops
  simp only [hpop, subOne_pos hlive] at h ⊢
  by_cases hot : 0 < e.freq
  · -- 昇格は freq に触らない
    rw [if_pos hot] at h
    cases h
    have hpos := popLivePops_pos σ.map σ.smallHashes σ.smallKeys
    have hsum : (σ.map.modify k fun e => { e with loc := .main }).sum CacheEntry.freq + e.freq
        = σ.map.sum CacheEntry.freq + e.freq :=
      Table.sum_modify hk (fun e => { e with loc := .main }) CacheEntry.freq
    simp only [workLeft, totalFreq, List.length_append, List.length_singleton]
    omega
  · rw [if_neg hot] at h
    cases h
    have hsum := Table.sum_remove hk CacheEntry.freq
    simp only [workLeft, totalFreq, addToGhost]
    omega

theorem evictOne_pays (hs : Healthy hash σ) (full : σ.Over) (h : σ.evictOne = .ok σ') :
    σ.evictOnePops + σ'.workLeft ≤ σ.workLeft := by
  unfold evictOne at h
  unfold evictOnePops
  split at h
  · next quota =>
    rw [if_pos quota]
    exact evictFromSmall_pays hs quota h
  · next quota =>
    rw [if_neg quota]
    exact evictFromMain_pays hs full (by omega) h

theorem evictLoop_pays (hs : Healthy hash σ) (h : σ.evictLoop = .ok σ') :
    σ.evictLoopPops + σ'.workLeft ≤ σ.workLeft := by
  refine loopCost_le (P := Healthy hash) ?_ hs h
  intro τ r hτ hb
  unfold whileBody at hb
  by_cases hc : τ.overCap = true
  · have full := overCap_iff.mp hc
    rw [if_pos hc] at hb ⊢
    cases ho : τ.evictOne with
    | error f => rw [ho] at hb; cases hb
    | ok τ' =>
      rw [ho] at hb
      cases hb
      exact ⟨sweep_healthy (evictOne_sweep hτ.linked full ho) hτ, evictOne_pays hτ full ho⟩
  · rw [if_neg hc] at hb ⊢
    cases hb
    simp [Pays]

/-! ## 一つの操作 -/

/-- 操作の持ち分。 -/
def ShardOp.budget (hash : K → UInt64) (op : ShardOp K V) (σ : ShardData K V) : Nat :=
  (if op.inserts hash σ then 2 else 0) + if op.bumps hash σ then 1 else 0

theorem bumpFreq_freq_le (e : CacheEntry V) :
    e.bumpFreq.freq ≤ e.freq + if e.freq < maxFreq then 1 else 0 := by
  unfold CacheEntry.bumpFreq
  split <;> simp

/-- 残る entry の freq は、飽和していない entry の読み出しのときに限り、1 だけ増える。 -/
theorem KeyOp.onPresent_freq_le {op : KeyOp K V} {k : K} {e e' : CacheEntry V}
    (hf : σ.map.find (hash k) k = some e) (h : (op.onPresent k e).2 = some e') :
    e'.freq ≤ e.freq + if (ShardOp.key k op).bumps hash σ then 1 else 0 := by
  have hbump := bumpFreq_freq_le e
  cases op <;> simp only [onPresent] at h
  case get =>
    cases h
    simpa [ShardOp.bumps, hf] using hbump
  case getMut f =>
    cases h
    simpa [ShardOp.bumps, hf] using hbump
  case removeIf f => split at h <;> cases h; simp
  case removeIfMut f => split at h <;> cases h; simp
  all_goals cases h; try simp

theorem workLeft_put {k : K} {e : CacheEntry V} (hk : σ.map.get? k = some e)
    (hf : σ.map.find (hash k) k = some e) (op : KeyOp K V) :
    (σ.put k e (op.onPresent k e).2).workLeft
      ≤ σ.workLeft + if (ShardOp.key k op).bumps hash σ then 1 else 0 := by
  have hsmall := put_queueKeys σ k e (op.onPresent k e).2 .small
  have hmain := put_queueKeys σ k e (op.onPresent k e).2 .main
  simp only [queueKeys] at hsmall hmain
  unfold workLeft totalFreq
  rw [hsmall, hmain]
  cases ho : (op.onPresent k e).2 with
  | none =>
    have hsum := Table.sum_remove hk CacheEntry.freq
    rw [put, unlink_map]
    omega
  | some e' =>
    have hsum : (σ.map.modify k fun _ => e').sum CacheEntry.freq + e.freq
        = σ.map.sum CacheEntry.freq + e'.freq :=
      Table.sum_modify hk (fun _ => e') CacheEntry.freq
    have hfreq := KeyOp.onPresent_freq_le hf ho
    show 2 * _ + _ + (σ.map.modify k fun _ => e').sum CacheEntry.freq ≤ _
    omega

omit [DecidableEq K] in
theorem sum_freq_retainSlots (f : Nat → K → V → Bool × V) :
    ∀ (n : Nat) (l : List (Slot UInt64 K (CacheEntry V))),
      ((retainSlots f n l).map fun s => s.val.freq).sum ≤ (l.map fun s => s.val.freq).sum
  | _, [] => by simp [retainSlots]
  | n, s :: l => by
    have ih := sum_freq_retainSlots f (n + 1) l
    unfold retainSlots
    split
    · simp only [List.map_cons, List.sum_cons]
      omega
    · simp only [List.map_cons, List.sum_cons]
      omega

theorem workLeft_retain (σ : ShardData K V) (f : Nat → K → V → Bool × V) (n : Nat) :
    (σ.retain f n).2.workLeft ≤ σ.workLeft := by
  have hsmall := retain_queueKeys σ f n .small
  have hmain := retain_queueKeys σ f n .main
  simp only [queueKeys] at hsmall hmain
  have hsum := sum_freq_retainSlots f n σ.map.slots
  rw [← (retain_spec σ f n).1] at hsum
  unfold workLeft totalFreq Table.sum
  rw [hsmall, hmain]
  omega

theorem workLeft_register (σ : ShardData K V) {h : UInt64} {k : K} (v : V) (loc : Loc)
    (hk : σ.map.get? k = none) : (σ.register h k v loc).workLeft ≤ σ.workLeft + 2 := by
  have hsum := Table.sum_insert h (CacheEntry.new v loc) hk CacheEntry.freq
  cases loc <;>
    simp only [workLeft, totalFreq, register, List.length_append, List.length_singleton] <;>
    simp only [CacheEntry.new] at hsum ⊢ <;> omega

/-- 一つの操作が取り出す node は、potential の減少と持ち分で払える。 -/
theorem pops_le {cap : Nat} (hr : ShardReachable hash cap σ) {op : ShardOp K V} {r : Ret K V}
    (h : op.exec hash σ = .ok (r, σ')) :
    op.pops hash σ + σ'.workLeft ≤ σ.workLeft + op.budget hash σ := by
  have hl := hr.linked
  cases exec_outcome hl h with
  | @present k kop e hk =>
    have hf : σ.map.find (hash k) k = some e := by rw [hl.find, hk]
    have hput := workLeft_put hk hf kop
    simp only [ShardOp.pops, hf, ShardOp.budget]
    omega
  | @idle k kop hk hv =>
    simp only [ShardOp.pops, hv]
    cases σ.map.find (hash k) k <;> simp
  | @fresh k kop v σ₁ hk hv hev =>
    have hf : σ.map.find (hash k) k = none := by rw [hl.find, hk]
    have hinserts : (ShardOp.key k kop).inserts hash σ = true := by
      simp [ShardOp.inserts, hf, hv]
    have hsw := (fresh_moves (v := v) hl hk hev).2.1
    have hreg := workLeft_register (h := hash k) σ₁ v (σ.ghostCheck (hash k)).1
      (sweep_absent hsw hk)
    have hghost : (σ.ghostCheck (hash k)).2.workLeft = σ.workLeft := rfl
    simp only [ShardOp.pops, hf, hv, ShardOp.budget, hinserts, if_true]
    have hloop : (σ.ghostCheck (hash k)).2.evictLoopPops + σ₁.workLeft ≤ σ.workLeft := by
      rcases Nat.eq_zero_or_pos cap with rfl | hcap
      · -- 容量が 0 なら、loop は一度も回らない
        have hroom : ¬ (σ.ghostCheck (hash k)).2.Over := by
          rintro ⟨hpos, -⟩
          have hcap := hr.caps.1
          change 0 < σ.shardCap at hpos
          omega
        rw [evictLoop_room hroom] at hev
        cases hev
        have hc : ¬ (σ.ghostCheck (hash k)).2.overCap = true := fun hc => hroom (overCap_iff.mp hc)
        have hpops : (σ.ghostCheck (hash k)).2.evictLoopPops = 0 := by
          simp [evictLoopPops, loopCost, whileBody, hc]
        omega
      · exact evictLoop_pays (Move.healthy (Or.inr (.takeGhost _)) (hr.healthy hcap)) hev
    omega
  | retain f n =>
    have := workLeft_retain σ f n
    simp only [ShardOp.pops, ShardOp.budget]
    omega
  | alterAll f n =>
    have := workLeft_retain σ (fun n k v => (true, f n k v)) n
    simp only [ShardOp.pops, ShardOp.budget]
    omega
  | clearAll =>
    simp [ShardOp.pops, ShardOp.budget, workLeft, totalFreq, clearAll, Table.sum, Table.empty]

/-! ## 実行全体 -/

namespace NeoCache

/-- cache の一歩を、触る shard の上の操作として見る。 -/
def onStep {B : Type*} (absent : B) (g : (K → UInt64) → ShardOp K V → ShardData K V → B)
    (x : NeoCache K V × Nat × ShardOp K V) : B :=
  match x.1.shards[x.2.1]? with
  | none => absent
  | some σ => g x.1.hasher x.2.2 σ

/-- 一歩が取り出す node の数。 -/
def stepPops : NeoCache K V × Nat × ShardOp K V → Nat := onStep 0 ShardOp.pops

/-- 新しい entry を入れる一歩。 -/
def stepInserts : NeoCache K V × Nat × ShardOp K V → Bool := onStep false ShardOp.inserts

/-- freq を一つ増やす一歩。 -/
def stepBumps : NeoCache K V × Nat × ShardOp K V → Bool := onStep false ShardOp.bumps

/-- 一歩の持ち分。 -/
def stepBudget (x : NeoCache K V × Nat × ShardOp K V) : Nat :=
  (if stepInserts x then 2 else 0) + if stepBumps x then 1 else 0

/-- 全ての shard の potential の和。 -/
def workLeft (c : NeoCache K V) : Nat := (c.shards.map ShardData.workLeft).sum

end NeoCache

variable {w : Word} {cap requested : Nat} {hasher : K → UInt64} {c c' : NeoCache K V}

theorem stepPops_le {l : NeoCache.Layout} (hl : NeoCache.layout w cap requested = .ok l)
    (hr : CacheReachable w cap hasher requested c) {a : Nat × ShardOp K V}
    (h : (cacheLts K V w cap hasher requested).step c a c') :
    NeoCache.stepPops (c, a) + c'.workLeft ≤ c.workLeft + NeoCache.stepBudget (c, a) := by
  obtain ⟨-, r, hstep⟩ := h
  obtain ⟨σ, σ', hσ, hexec, rfl⟩ := onShard_ok hstep
  have hlaid := hr.laid hl
  have hshard := hlaid.shards a.1 σ hσ
  rw [hlaid.hasher_eq] at hexec
  have hpops := pops_le hshard hexec
  have hsum := sum_map_set ShardData.workLeft σ' hσ
  simp only [NeoCache.stepPops, NeoCache.stepBudget, NeoCache.stepInserts, NeoCache.stepBumps,
    NeoCache.onStep, hσ, hlaid.hasher_eq, NeoCache.workLeft]
  unfold ShardOp.budget at hpops
  omega

theorem sum_budget (tr : List (NeoCache K V × Nat × ShardOp K V)) :
    (tr.map NeoCache.stepBudget).sum
      = 2 * tr.countP NeoCache.stepInserts + tr.countP NeoCache.stepBumps := by
  induction tr with
  | nil => rfl
  | cons x tr ih =>
    simp only [List.map_cons, List.sum_cons, List.countP_cons, ih]
    unfold NeoCache.stepBudget
    split <;> split <;> omega

/--
追い出しが取り出す node は、均せば定数個で済む。

構築した cache から始まるどの実行でも、取り出した node（hash と key の対）の総数は、新しく入れた
entry の数の二倍と、freq が実際に増えた回数の和を超えない。操作は shard の間で好きな順に混ざってよく、
除去や `retain` で古い node を作ってもよい。
-/
theorem eviction_amortized {tr : List (NeoCache K V × Nat × ShardOp K V)}
    (hbuilt : NeoCache.withCapacityAndHasherAndShardAmount w cap hasher requested = .ok c)
    (h : (cacheLts K V w cap hasher requested).Path c tr c') :
    (tr.map NeoCache.stepPops).sum
      ≤ 2 * tr.countP NeoCache.stepInserts + tr.countP NeoCache.stepBumps := by
  obtain ⟨l, hl, -, -, hshards⟩ := built_ok hbuilt
  have hcost : (tr.map NeoCache.stepPops).sum + c'.workLeft
      ≤ c.workLeft + (tr.map NeoCache.stepBudget).sum :=
    Lts.Path.cost_le (Φ := NeoCache.workLeft) (fun _ _ _ hr hs => stepPops_le hl hr hs)
      (.init hbuilt) h
  have hstart : c.workLeft = 0 := by
    simp [NeoCache.workLeft, hshards, ShardData.workLeft, totalFreq, ShardData.new, Table.sum,
      Table.empty]
  rw [sum_budget] at hcost
  omega

/-- 無い key の読み出しと表にある key への挿入は数えず、取り出した 6 個の node を払う。 -/
theorem eviction_amortized_stale : ∃ (c c' : NeoCache Nat Nat)
    (tr : List (NeoCache Nat Nat × Nat × ShardOp Nat Nat)),
    NeoCache.withCapacityAndHasherAndShardAmount ⟨64, by decide⟩ 4 (fun _ => 0) 2 = .ok c ∧
      (cacheLts Nat Nat ⟨64, by decide⟩ 4 (fun _ => 0) 2).Path c tr c' ∧
      (tr.map NeoCache.stepPops).sum = 6 ∧ (tr.map NeoCache.stepPops).sum ≤ 2 * 4 + 2 := by
  have hbuilt : NeoCache.withCapacityAndHasherAndShardAmount ⟨64, by decide⟩ 4 (fun _ => 0) 2
      = .ok (⟨63, [.new 2, .new 2], fun _ => 0, 4⟩ : NeoCache Nat Nat) := rfl
  -- 除いた key の node を読み飛ばし、読まれた entry を main に移してから追い出す
  obtain ⟨tr, c', hrun, hpops, hinserts, hbumps⟩ : ∃ tr c', NeoCache.run ⟨64, by decide⟩
      [(0, .key 0 (.insert 7)), (0, .key 0 .remove), (0, .key 0 .get), (0, .key 1 (.insert 8)),
        (0, .key 1 .get), (0, .key 1 (.insert 6)), (0, .key 2 (.insert 9)), (0, .key 2 .get),
        (0, .key 3 (.insert 10))]
      (⟨63, [.new 2, .new 2], fun _ => 0, 4⟩ : NeoCache Nat Nat) = some (tr, c') ∧
      (tr.map NeoCache.stepPops).sum = 6 ∧ tr.countP NeoCache.stepInserts = 4 ∧
      tr.countP NeoCache.stepBumps = 2 := ⟨_, _, rfl, rfl, rfl, rfl⟩
  have hpath : (cacheLts Nat Nat ⟨64, by decide⟩ 4 (fun _ => 0) 2).Path _ tr c' := path_of_run hrun
  have hbound := eviction_amortized hbuilt hpath
  rw [hinserts, hbumps] at hbound
  exact ⟨_, c', tr, hbuilt, hpath, hpops, hbound⟩

end Neocache
