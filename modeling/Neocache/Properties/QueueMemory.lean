import Neocache.Properties.Queues

/-!
# queue の長さ

除去は表から entry を消すだけで、queue の node を残す。残った node を捨てるのは追い出しの loop だけで、
loop は容量に達するまで回らない。だから容量に達しない範囲で挿入と除去を繰り返すと、
queue は容量と無関係に伸び続ける（`queue_unbounded`）。

伸びる量は除去の回数で抑えられる。追い出しの各段は queue と表から同じ数だけ取り除き、
登録は同じ数だけ足すので、差が開くのは除去のときだけである（`queue_length_le`）。
-/

namespace Neocache

open Infra Relation ShardData

variable {K V : Type*}

/-- 二本の queue に残っている node の個数。 -/
def ShardData.queueLength (σ : ShardData K V) : Nat := σ.smallHashes.length + σ.mainHashes.length

variable [DecidableEq K] {hash : K → UInt64} {σ σ' : ShardData K V} {cap : Nat}

/-! ## 伸び続けること -/

/-- 挿入と除去を `n` 回繰り返した後の shard。 -/
def churned (hash : K → UInt64) (k : K) (cap n : Nat) : ShardData K V :=
  { (ShardData.new cap : ShardData K V) with
    smallHashes := List.replicate n (hash k), smallKeys := List.replicate n k }

theorem churned_insert (hash : K → UInt64) (k : K) (v : V) (hcap : 0 < cap) (n : Nat) :
    (ShardOp.key k (.insert v)).exec hash (churned hash k cap n) =
      .ok (.value none, (churned hash k cap n : ShardData K V).register (hash k) k v .small) := by
  have hroom : ¬ (churned hash k cap n : ShardData K V).Over := by
    rintro ⟨-, hover⟩
    have hle : cap ≤ 0 := hover
    omega
  have hghost : (churned hash k cap n : ShardData K V).ghostCheck (hash k)
      = (.small, churned hash k cap n) := by
    simp [ghostCheck, churned, ShardData.new]
  have hfind : (churned hash k cap n : ShardData K V).map.find (hash k) k = none := rfl
  show (churned hash k cap n : ShardData K V).insert (hash k) k v = _
  simp only [ShardData.insert, hfind, insertVacant, hghost, evictLoop_room hroom]
  rfl

/-- 挿入した key を除くと、表と counter は空に戻り、node が一つ増える。 -/
theorem churned_remove (hash : K → UInt64) (k : K) (v : V) (n : Nat) :
    (ShardOp.key k .remove).exec hash
        ((churned hash k cap n : ShardData K V).register (hash k) k v .small) =
      .ok (.pair (some (k, v)), churned hash k cap (n + 1)) := by
  have hfind : ((churned hash k cap n : ShardData K V).register (hash k) k v .small).map.find
      (hash k) k = some (.new v .small) := by
    rw [register_map]
    simp [churned, ShardData.new, Table.find, Table.insert, Table.remove, Table.empty]
  show Except.ok (ShardData.remove _ (hash k) k) = _
  simp only [ShardData.remove, hfind]
  simp [churned, ShardData.new, ShardData.register, ShardData.unlink, CacheEntry.new, Table.insert,
    Table.remove, Table.empty, List.replicate_succ']

theorem churned_reachable (hash : K → UInt64) (k : K) (v : V) (hcap : 0 < cap) :
    ∀ n, ShardReachable hash cap (churned hash k cap n : ShardData K V)
  | 0 => reachable_new
  | n + 1 => by
    have hr := churned_reachable hash k v hcap n
    have hins := Lts.Reachable.step hr ⟨_, churned_insert hash k v hcap n⟩
    exact Lts.Reachable.step hins ⟨_, churned_remove hash k v n⟩

/-- 容量だけで決まる上限は無い。 -/
theorem queue_unbounded :
    ¬ ∀ cap, 1 ≤ cap → ∃ B, ∀ σ : ShardData Nat Nat, ShardReachable UInt64.ofNat cap σ →
      σ.smallHashes.length + σ.mainHashes.length ≤ B := by
  intro h
  -- 容量 1 の shard で、挿入と除去を上限より多く繰り返す
  obtain ⟨B, hB⟩ := h 1 (Nat.le_refl 1)
  have hle := hB _ (churned_reachable UInt64.ofNat 0 0 Nat.one_pos (B + 1))
  simp [churned, ShardData.new] at hle

/-! ## 除去の回数による上限 -/

/-- 一操作の後の、除去した entry の通算。追い出しは数えず、全消去で 0 に戻す。 -/
def ShardOp.tally (op : ShardOp K V) (σ σ' : ShardData K V) (n : Nat) : Nat :=
  match op with
  | .key k _ => if (σ.map.get? k).isSome ∧ (σ'.map.get? k).isNone then n + 1 else n
  | .retain _ _ | .alterAll _ _ => n + (σ.map.len - σ'.map.len)
  | .clearAll => 0

/-- 列を行う間に、操作で除いた entry の個数。最後の全消去より後だけを数える。 -/
def explicitRemovals (hash : K → UInt64) : List (ShardOp K V) → ShardData K V → Nat → Nat
  | [], _, n => n
  | op :: ops, σ, n =>
    match op.exec hash σ with
    | .error _ => n
    | .ok (_, σ') => explicitRemovals hash ops σ' (op.tally σ σ' n)

omit [DecidableEq K] in
theorem Linked.queueLength (hl : Linked hash σ) :
    σ.queueLength = σ.smallKeys.length + σ.mainKeys.length := by
  have hs : σ.smallHashes = σ.smallKeys.map hash := hl.queue .small
  have hm : σ.mainHashes = σ.mainKeys.map hash := hl.queue .main
  simp [ShardData.queueLength, hs, hm]

/-- 追い出しの一歩は、queue から少なくとも表と同じ数だけ取り除く。 -/
theorem ShardData.Sweep.queueLength_le (h : Sweep hash σ σ') (hl : Linked hash σ) :
    σ'.queueLength + σ.map.len ≤ σ.queueLength + σ'.map.len := by
  have hq := Linked.queueLength hl
  have hq' := Linked.queueLength (h.linked hl)
  rw [hq, hq']
  cases h with
  | @skip loc k ks hk dead =>
    cases loc <;> simp only [queueKeys] at hk <;> simp [setQueue, hk]
  -- 昇格と二度目の機会では node が移るだけで、合計は変わらない
  | @promote k ks e full quota pos hk hget hot => simp [hk]; omega
  | @evictSmall k ks e full quota pos hk hget cold =>
    have := Table.len_remove hget
    simp only [addToGhost, hk, List.length_cons]
    omega
  | @secondChance k ks e hk hget hot => simp [hk]
  | @evictMain k ks e full side pos hk hget cold =>
    have := Table.len_remove hget
    simp only [hk, List.length_cons]
    omega

theorem sweep_queueLength_le (h : ReflTransGen (Sweep hash) σ σ') (hl : Linked hash σ) :
    σ'.queueLength + σ.map.len ≤ σ.queueLength + σ'.map.len := by
  induction h with
  | refl => exact Nat.le_refl _
  | tail hpre hstep ih =>
    have hlast := hstep.queueLength_le (sweep_linked hpre hl)
    omega

theorem register_queueLength (σ : ShardData K V) (h : UInt64) (k : K) (v : V) (loc : Loc) :
    (σ.register h k v loc).queueLength = σ.queueLength + 1 := by
  cases loc <;> simp [ShardData.queueLength, ShardData.register] <;> omega

theorem fresh_queueLength_le {k : K} {v : V} {σ₁ : ShardData K V} (hl : Linked hash σ)
    (hk : σ.map.get? k = none) (hev : (σ.ghostCheck (hash k)).2.evictLoop = .ok σ₁) (loc : Loc) :
    (σ₁.register (hash k) k v loc).queueLength + σ.map.len
      ≤ σ.queueLength + (σ₁.register (hash k) k v loc).map.len := by
  obtain ⟨hg, hsw, -⟩ := fresh_moves (v := v) hl hk hev
  have hq := sweep_queueLength_le hsw (hg.linked hl)
  change σ₁.queueLength + σ.map.len ≤ σ.queueLength + σ₁.map.len at hq
  have hlen := Table.len_insert (hash k) (CacheEntry.new v loc) (sweep_absent hsw hk)
  rw [register_queueLength, register_map]
  omega

omit [DecidableEq K] in
theorem retainSlots_length_le (f : Nat → K → V → Bool × V) :
    ∀ (n : Nat) (l : List (Slot UInt64 K (CacheEntry V))), (retainSlots f n l).length ≤ l.length
  | _, [] => Nat.le_refl _
  | n, s :: l => by
    have ih := retainSlots_length_le f (n + 1) l
    unfold retainSlots
    split
    · simpa using ih
    · exact Nat.le_succ_of_le ih

theorem retain_queueLength_le (σ : ShardData K V) (f : Nat → K → V → Bool × V) (n m : Nat)
    (hm : σ.queueLength ≤ σ.map.len + m) :
    (σ.retain f n).2.queueLength
      ≤ (σ.retain f n).2.map.len + (m + (σ.map.len - (σ.retain f n).2.map.len)) := by
  obtain ⟨hslots, heq⟩ := retain_spec σ f n
  have hlen : (σ.retain f n).2.map.len ≤ σ.map.len := by
    unfold Table.len
    rw [hslots]
    exact retainSlots_length_le f n _
  have hq : (σ.retain f n).2.queueLength = σ.queueLength := by rw [heq]; rfl
  omega

/-- 一操作で、queue の長さと表の個数の差が開くのは除去した分だけである。 -/
theorem exec_queueLength_le {op : ShardOp K V} {r : Ret K V} {n : Nat} (hl : Linked hash σ)
    (h : op.exec hash σ = .ok (r, σ')) (hn : σ.queueLength ≤ σ.map.len + n) :
    σ'.queueLength ≤ σ'.map.len + op.tally σ σ' n := by
  cases exec_outcome hl h with
  | @present k op e hk =>
    cases ho : (op.onPresent k e).2 with
    | some e' =>
      have hlen : (σ.put k e (some e')).map.len = σ.map.len := Table.len_modify _ _ _
      have hsame : (σ.put k e (some e')).map.get? k = some e' := get?_updateEntry hk _
      have hq : (σ.put k e (some e')).queueLength = σ.queueLength := rfl
      have ht : (ShardOp.key k op).tally σ (σ.put k e (some e')) n = n := by
        simp [ShardOp.tally, hsame]
      rw [ht]
      omega
    | none =>
      -- 除去は表を一つ縮めるが node を残すので、差が一つ開く
      have hlen : (σ.put k e none).map.len + 1 = σ.map.len := by
        simp only [put, unlink_map]
        exact Table.len_remove hk
      have hgone : (σ.put k e none).map.get? k = none := by
        simp [put, Table.get?_remove]
      have hq : (σ.put k e none).queueLength = σ.queueLength := by
        cases hloc : e.loc <;> simp only [put, hloc] <;> rfl
      have ht : (ShardOp.key k op).tally σ (σ.put k e none) n = n + 1 := by
        simp [ShardOp.tally, hk, hgone]
      rw [ht]
      omega
  | idle hk hv => simpa [ShardOp.tally, hk] using hn
  | @fresh k op v σ₁ hk hv hev =>
    have hle := fresh_queueLength_le (v := v) hl hk hev (σ.ghostCheck (hash k)).1
    have ht : ∀ τ, (ShardOp.key k op).tally σ τ n = n := fun τ => by simp [ShardOp.tally, hk]
    rw [ht]
    omega
  | retain f m => exact retain_queueLength_le σ f m n hn
  | alterAll f m => exact retain_queueLength_le σ _ m n hn
  | clearAll => exact Nat.le_refl _

theorem runOps_queueLength_le :
    ∀ {ops : List (ShardOp K V)} {σ σ' : ShardData K V} {rs : List (Ret K V)} {n : Nat},
      ShardReachable hash cap σ → runOps hash ops σ = .ok (rs, σ') →
      σ.queueLength ≤ σ.map.len + n →
      σ'.queueLength ≤ σ'.map.len + explicitRemovals hash ops σ n
  | [], σ, σ', rs, n, _, h, hn => by cases h; exact hn
  | op :: ops, σ, σ', rs, n, hr, h, hn => by
    obtain ⟨r, rs', σ₁, he, hrest, -⟩ := runOps_cons h
    have hstep := exec_queueLength_le hr.linked he hn
    have ih := runOps_queueLength_le (.step hr ⟨r, he⟩) hrest hstep
    rw [explicitRemovals, he]
    exact ih

/--
queue の node は、表の entry と、最後の全消去より後に操作で除いた entry の数を超えない。

表の entry は `shardCap` 個までなので、除去をしない限り上限は容量で決まる。
-/
theorem queue_length_le {ops : List (ShardOp K V)} {rs : List (Ret K V)} (hcap : 1 ≤ cap)
    (h : runOps hash ops (.new cap) = .ok (rs, σ)) :
    σ.smallHashes.length + σ.mainHashes.length ≤ σ.map.len + explicitRemovals hash ops (.new cap) 0 ∧
      σ.map.len ≤ cap := by
  have hr := reachable_runOps reachable_new h
  exact ⟨runOps_queueLength_le reachable_new h (Nat.le_refl _), hr.len_le hcap⟩

/-- 三つ入れて一つ除くと、node は三つ、表の entry は二つ、除去は一回である。 -/
theorem queue_length_le_afterRemove :
    ∃ rs σ, runOps UInt64.ofNat
        [.key 0 (.insert 7), .key 1 (.insert 8), .key 0 .remove, .key 2 (.insert 9)]
        (ShardData.new 4 : ShardData Nat Nat) = .ok (rs, σ) ∧
      σ.smallHashes.length + σ.mainHashes.length = 3 ∧
      σ.smallHashes.length + σ.mainHashes.length ≤ σ.map.len + 1 ∧ σ.map.len ≤ 4 := by
  have hrun : runOps UInt64.ofNat
      [.key 0 (.insert 7), .key 1 (.insert 8), .key 0 .remove, .key 2 (.insert 9)]
      (ShardData.new 4 : ShardData Nat Nat) = .ok (_, _) := rfl
  obtain ⟨hq, hlen⟩ := queue_length_le (by decide) hrun
  exact ⟨_, _, hrun, rfl, hq, hlen⟩

end Neocache
