import Neocache.Properties.Refinement

/-!
# shard の選び方

`determine_shard` は hash を左に 7 桁ずらしてから右に `shift` 桁ずらす。
構築が shard の数を変えても `shift` は幅の内側に収まり、選ばれる番号はいつも範囲内である。
番号に使えるのは上から 8 桁目以降なので、shard の数が `2 ^ (幅 - 7)` 以下なら
どの番号も何かの hash から選ばれる（`determineShard_surj`）。

挿入も検索も同じ hash で shard を選んで表を引くから、表にある key はその hash が選ぶ shard にあり、
同じ key が二箇所に入ることはない（`routing`）。
-/

namespace Neocache

open Infra Relation ShardData

variable {K V Q : Type*} [DecidableEq K] {w : Word} {cap requested : Nat} {hasher : K → UInt64}
  {c : NeoCache K V} {σ τ : ShardData K V}

omit [DecidableEq K] in
/-- shard の数が `2 ^ (幅 - 7)` 以下なら、どの番号もどれかの hash から選ばれる。 -/
theorem determineShard_surj {n i : Nat} (h0 : 0 < n) (hn : n + 7 ≤ w.bits)
    (hshift : c.shift = w.bits - n) (hi : i < 2 ^ n) :
    ∃ h < w.size, c.determineShard w h = .ok i := by
  have hbits : 2 ^ (w.bits - n - 7) * 2 ^ 7 = 2 ^ (w.bits - n) := by
    rw [← Nat.pow_add]
    congr 1
    omega
  have hsize : w.size = 2 ^ n * 2 ^ (w.bits - n) := by
    unfold Word.size
    rw [← Nat.pow_add]
    congr 1
    omega
  have hlt : i * 2 ^ (w.bits - n) < w.size := by
    rw [hsize]
    exact Nat.mul_lt_mul_of_pos_right hi (Nat.two_pow_pos _)
  have hshl : i * 2 ^ (w.bits - n - 7) * 2 ^ 7 % w.size = i * 2 ^ (w.bits - n) := by
    rw [Nat.mul_assoc, hbits, Nat.mod_eq_of_lt hlt]
  refine ⟨i * 2 ^ (w.bits - n - 7), ?_, ?_⟩
  · calc i * 2 ^ (w.bits - n - 7) ≤ i * 2 ^ (w.bits - n) :=
          Nat.mul_le_mul_left _ (Nat.pow_le_pow_right (by omega) (by omega))
      _ < w.size := hlt
  · unfold NeoCache.determineShard Word.shl Word.shr
    rw [if_pos (by omega), hshift]
    show (if w.bits - n < w.bits then Except.ok (_ / _) else _) = _
    rw [if_pos (by omega), hshl, Nat.mul_div_cancel _ (Nat.two_pow_pos _)]

/-- 表の slot の key は、hash の選ぶ番号の shard にある。 -/
theorem Routed.slot (h : Routed w c) {i : Nat} (hσ : c.shards[i]? = some σ)
    {s : Slot UInt64 K (CacheEntry V)} (hs : s ∈ σ.map.slots) : c.shardIndex w s.key = .ok i := by
  refine h i σ hσ s.key ?_
  rw [Ne, lookup_eq_none, Table.get?_of_mem hs]
  simp

/-- cache のどの二箇所にも、同じ key の slot は無い。 -/
theorem Routed.unique (h : Routed w c) {i j : Nat} (hσ : c.shards[i]? = some σ)
    (hτ : c.shards[j]? = some τ) {s s' : Slot UInt64 K (CacheEntry V)} (hs : s ∈ σ.map.slots)
    (hs' : s' ∈ τ.map.slots) (hkey : s.key = s'.key) : i = j ∧ s = s' := by
  have hi := h.slot hσ hs
  have hj := h.slot hτ hs'
  rw [hkey, hj] at hi
  have hij : j = i := Except.ok.inj hi
  subst hij
  rw [hσ] at hτ
  cases hτ
  exact ⟨rfl, Table.mem_unique hs hs' hkey⟩

omit [DecidableEq K] in
/-- 表にある key を借用した形で引くと、その key のある shard が選ばれ、その slot が見つかる。 -/
theorem borrowed_of_mem [DecidableEq Q] {borrow : K → Q} {hash : Q → UInt64}
    (hborrow : ∀ k, hash (borrow k) = hasher k) (heq : Function.Injective borrow) {i : Nat}
    (hl : Linked hasher σ) (hc : c.hasher = hasher) (hσ : c.shards[i]? = some σ)
    {s : Slot UInt64 K (CacheEntry V)} (hs : s ∈ σ.map.slots) (hi : c.shardIndex w s.key = .ok i) :
    c.determineShard w ((hash (borrow s.key)).toNat % w.size) = .ok i ∧
      σ.map.findBy (hash (borrow s.key)) (fun k => borrow s.key = borrow k) = some (s.key, s.val) ∧
      ReadOnlyView.getKeyValue w ⟨c⟩ borrow hash (borrow s.key)
        = .ok (some (s.key, s.val.value)) := by
  have hdet : c.determineShard w ((hash (borrow s.key)).toNat % w.size) = .ok i := by
    rw [hborrow, ← hc]
    exact hi
  have hfind : σ.map.findBy (hash (borrow s.key)) (fun k => decide (borrow s.key = borrow k))
      = some (s.key, s.val) := by
    rw [hborrow, ← hl.table s hs]
    refine Table.findBy_of_mem hs ?_
    intro k
    rw [decide_eq_true_eq]
    exact ⟨fun h => (heq h).symm, fun h => h ▸ rfl⟩
  refine ⟨hdet, hfind, ?_⟩
  unfold ReadOnlyView.getKeyValue
  simp only [hdet, hσ, hfind]
  rfl

/--
shard の選択は全域で範囲内に収まり、key は cache の中で一意である。

表にある key を引く経路（`get`、`remove`、`entry`、読み出し専用の view）は、どれもその key のある
唯一の shard に着く。借用した形は、元の key と同じに比べられ同じ hash を持つものとする。
-/
theorem routing [DecidableEq Q] {borrow : K → Q} {hash : Q → UInt64}
    (hborrow : ∀ k, hash (borrow k) = hasher k) (heq : Function.Injective borrow)
    (hsize : cap < w.size) (hreq : NeoCache.Accepted w requested) :
    ∃ l, NeoCache.layout w cap requested = .ok l ∧ 0 < l.shift ∧ l.shift < w.bits ∧
      ∀ c : NeoCache K V, CacheReachable w cap hasher requested c →
        c.shift = l.shift ∧
        (∀ h, ∃ j < c.shards.length, c.determineShard w h = .ok j) ∧
        (c.shards.length ≤ 2 ^ (w.bits - 7) → ∀ i < c.shards.length,
          ∃ h < w.size, c.determineShard w h = .ok i) ∧
        (∀ (i j : Nat) σ τ, c.shards[i]? = some σ → c.shards[j]? = some τ →
          ∀ s ∈ σ.map.slots, ∀ s' ∈ τ.map.slots, s.key = s'.key → i = j ∧ s = s') ∧
        ∀ (i : Nat) σ, c.shards[i]? = some σ → ∀ s ∈ σ.map.slots,
          c.determineShard w (c.hashUsize w s.key) = .ok i ∧
          (∀ op, c.keyOp w s.key op = c.onShard i (.key s.key op)) ∧
          σ.map.find (c.hasher s.key) s.key = some s.val ∧
          σ.get (c.hasher s.key) s.key
            = (.value (some s.val.value), σ.updateEntry s.key .bumpFreq) ∧
          σ.remove (c.hasher s.key) s.key
            = (.pair (some (s.key, s.val.value)), σ.unlink s.key s.val.loc) ∧
          σ.entry (c.hasher s.key) s.key = .occupied ⟨σ, s.key, s.val⟩ ∧
          c.determineShard w ((hash (borrow s.key)).toNat % w.size) = .ok i ∧
          σ.map.findBy (hash (borrow s.key)) (fun k => borrow s.key = borrow k)
            = some (s.key, s.val) ∧
          ReadOnlyView.getKeyValue w ⟨c⟩ borrow hash (borrow s.key)
            = .ok (some (s.key, s.val.value)) := by
  obtain ⟨n, h0, hn, hl⟩ := NeoCache.layout_ok hsize hreq
  refine ⟨_, hl, ?_, ?_, ?_⟩
  · show 0 < w.bits - n
    omega
  · show w.bits - n < w.bits
    omega
  · intro c hr
    have hc := hr.laid hl
    have hrouted := hr.routed hl
    have hshift : c.shift = w.bits - n := hc.shift
    have hcount : c.shards.length = 2 ^ n := hc.count
    refine ⟨hshift, ?_, ?_, ?_, ?_⟩
    · intro h
      rw [hcount]
      exact NeoCache.determineShard_lt h0 hn hshift
    · intro hle i hi
      rw [hcount] at hle hi
      have hle' := (Nat.pow_le_pow_iff_right (by omega)).mp hle
      have hw := w.sixteen_le
      exact determineShard_surj h0 (by omega) hshift hi
    · intro i j σ τ hσ hτ s hs s' hs'
      exact hrouted.unique hσ hτ hs hs'
    · intro i σ hσ s hs
      have hi := hrouted.slot hσ hs
      have hlinked := (hc.shards i σ hσ).linked
      have hget : σ.map.get? s.key = some s.val := Table.get?_of_mem hs
      have hfind : σ.map.find (c.hasher s.key) s.key = some s.val := by
        rw [hc.hasher_eq, hlinked.find, hget]
      refine ⟨hi, ?_, hfind, ?_, ?_, ?_,
        borrowed_of_mem hborrow heq hlinked hc.hasher_eq hσ hs hi⟩
      · intro op
        unfold NeoCache.keyOp
        rw [hi]
      · simp only [ShardData.get, hfind]
      · simp only [ShardData.remove, hfind]
      · simp only [ShardData.entry, hfind]

/-- 64 bit で shard 2 個の cache に key を一つ入れた後の検索。 -/
theorem routing_afterInsert :
    ∃ (c : NeoCache Nat Nat) (σ : ShardData Nat Nat),
      CacheReachable ⟨64, by decide⟩ 4 UInt64.ofNat 2 c ∧ c.shards[0]? = some σ ∧
      σ.map.keys = [0] ∧ c.determineShard ⟨64, by decide⟩ 0 = .ok 0 ∧
      ReadOnlyView.getKeyValue ⟨64, by decide⟩ ⟨c⟩ id UInt64.ofNat 0 = .ok (some (0, 7)) := by
  have hnew : NeoCache.withCapacityAndHasherAndShardAmount ⟨64, by decide⟩ 4 UInt64.ofNat 2
      = .ok (⟨63, [.new 2, .new 2], UInt64.ofNat, 4⟩ : NeoCache Nat Nat) := rfl
  have hr : CacheReachable ⟨64, by decide⟩ 4 UInt64.ofNat 2
      ⟨63, [(ShardData.new 2).register 0 0 7 .small, .new 2], UInt64.ofNat, 4⟩ :=
    .step (.init hnew) (a := (0, .key 0 (.insert 7))) ⟨rfl, .value none, rfl⟩
  obtain ⟨l, -, -, -, hrun⟩ := @routing Nat Nat Nat _ ⟨64, by decide⟩ 4 2 UInt64.ofNat _ id
    UInt64.ofNat (fun _ => rfl) Function.injective_id (by decide) (by decide)
  obtain ⟨-, -, -, -, hslot⟩ := hrun _ hr
  obtain ⟨hdet, -, -, -, -, -, -, -, hview⟩ := hslot 0 _ rfl ⟨0, 0, .new 7 .small⟩ (by decide)
  exact ⟨_, _, hr, rfl, rfl, hdet, hview⟩

end Neocache
