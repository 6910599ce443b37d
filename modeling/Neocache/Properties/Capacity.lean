import Mathlib.Algebra.Group.Action.Defs
import Neocache.Cache.Ops
import Neocache.Properties.Queues

/-!
# 容量の約束

構築で決まる shard の数と shard 一つの容量の算術と、実行中の各 shard の個数を合わせる。
-/

namespace Neocache

open Infra Relation ShardData

namespace Word

variable {w : Word}

theorem isPowerOfTwo_iff {n : Nat} : w.isPowerOfTwo n = true ↔ ∃ i < w.bits, n = 2 ^ i := by
  simp [isPowerOfTwo]

/-- 2 冪の下から続く 0 の個数は指数である。 -/
theorem trailingZeros_two_pow {i : Nat} (h : i < w.bits) : w.trailingZeros (2 ^ i) = i := by
  have hfind : (List.range w.bits).find? (fun j => (2 ^ i).testBit j) = some i := by
    rw [List.find?_range_eq_some]
    refine ⟨by simp, by simpa using h, ?_⟩
    intro j hj
    simp only [Nat.testBit_two_pow]
    have : ¬ i = j := by omega
    simp [this]
  simp [trailingZeros, hfind]

theorem div_ok {a b : Nat} (h : 0 < b) : Word.div a b = .ok (a / b) := by
  unfold Word.div
  rw [if_neg (by omega)]

end Word

namespace NeoCache

variable {w : Word} {cap requested : Nat}

/-- 受け付ける shard の数。 -/
def Accepted (w : Word) (requested : Nat) : Prop := 1 < requested ∧ w.isPowerOfTwo requested

instance (w : Word) (requested : Nat) : Decidable (Accepted w requested) :=
  inferInstanceAs (Decidable (_ ∧ _))

theorem accepted_iff : Accepted w requested ↔ ∃ i, 0 < i ∧ i < w.bits ∧ requested = 2 ^ i := by
  unfold Accepted
  rw [Word.isPowerOfTwo_iff]
  constructor
  · rintro ⟨h1, i, hi, rfl⟩
    refine ⟨i, ?_, hi, rfl⟩
    by_contra hz
    have : i = 0 := by omega
    simp [this] at h1
  · rintro ⟨i, h0, hi, rfl⟩
    exact ⟨Nat.one_lt_two_pow (by omega), i, hi, rfl⟩

/-- 容量の四分の一の次の 2 冪は、幅に余裕をもって収まる。 -/
theorem clog_quarter_lt (hcap : cap < w.size) : Nat.clog 2 (cap / 4) ≤ w.bits - 2 := by
  have hw := w.sixteen_le
  unfold Word.size at hcap
  have hsplit : 2 ^ w.bits = 2 ^ (w.bits - 2) * 4 := by
    rw [show (4 : Nat) = 2 ^ 2 by rfl, ← Nat.pow_add]
    congr 1
    omega
  exact Nat.clog_le_of_le_pow (by omega)

/-- 容量のある cache の shard の数。途中で溢れも 0 での割り算も起こらない。 -/
theorem shardAmount_eq (hpos : 0 < cap) (hcap : cap < w.size) (hreq : 0 < requested) :
    shardAmount w cap requested = .ok (if cap / requested < 4 then
      max (2 ^ Nat.clog 2 (cap / 4)) 2 else requested) := by
  have hw := w.sixteen_le
  have hclog := clog_quarter_lt hcap
  have hlt : 2 ^ Nat.clog 2 (cap / 4) < w.size := Nat.pow_lt_pow_right (by omega) (by omega)
  unfold shardAmount
  rw [if_pos hpos, Word.div_ok hreq]
  show (if cap / requested < 4 then _ else _) = _
  by_cases hq : cap / requested < 4
  · rw [if_pos hq, if_pos hq, Word.div_ok (by omega)]
    show (w.nextPowerOfTwo (cap / 4) >>= fun p => pure (max p 2)) = _
    unfold Word.nextPowerOfTwo
    rw [if_pos hlt]
    rfl
  · rw [if_neg hq, if_neg hq]
    rfl

/-- 使う shard の数も 2 冪で、幅より小さい。 -/
theorem shardAmount_ok (hcap : cap < w.size) (hreq : Accepted w requested) :
    ∃ i, 0 < i ∧ i < w.bits ∧ shardAmount w cap requested = .ok (2 ^ i) := by
  obtain ⟨j, hj0, hj, rfl⟩ := accepted_iff.mp hreq
  have hw := w.sixteen_le
  rcases Nat.eq_zero_or_pos cap with rfl | hpos
  · exact ⟨j, hj0, hj, rfl⟩
  · rw [shardAmount_eq hpos hcap (Nat.two_pow_pos j)]
    split
    · have hclog := clog_quarter_lt hcap
      refine ⟨max (Nat.clog 2 (cap / 4)) 1, by omega, by omega, ?_⟩
      rcases Nat.eq_zero_or_pos (Nat.clog 2 (cap / 4)) with hz | hp
      · simp [hz]
      · have hge : 2 ≤ 2 ^ Nat.clog 2 (cap / 4) := Nat.le_self_pow (by omega) 2
        rw [max_eq_left hge, max_eq_left hp]
    · exact ⟨j, hj0, hj, rfl⟩

theorem divCeil_mul {a b : Nat} (hb : 0 < b) :
    a ≤ divCeil a b * b ∧ divCeil a b * b ≤ a + b - 1 ∧ divCeil a b ≤ a := by
  have hdiv := Nat.div_add_mod a b
  have hmod := Nat.mod_lt a hb
  have hle := Nat.div_le_self a b
  unfold divCeil
  split
  · next hr =>
    have hmul : (a / b + 1) * b = b * (a / b) + b := by rw [Nat.add_mul, Nat.mul_comm]; omega
    have hself : b * (a / b) ≥ a / b := Nat.le_mul_of_pos_left _ hb
    rw [hmul]
    omega
  · have hmul : a / b * b = b * (a / b) := Nat.mul_comm _ _
    rw [hmul]
    omega

theorem shardCap_ok (hcap : cap < w.size) {n : Nat} (hn : 0 < n) :
    shardCap w cap n = .ok (if cap = 0 then 0 else divCeil cap n) := by
  unfold shardCap
  by_cases hz : cap = 0
  · rw [if_pos hz, if_pos hz]
  · obtain ⟨hlow, -, hle⟩ := divCeil_mul (a := cap) hn
    have hpos : 1 ≤ divCeil cap n := by
      by_contra hc
      have hzero : divCeil cap n = 0 := by omega
      rw [hzero] at hlow
      omega
    rw [if_neg hz, if_neg hz]
    unfold Word.divCeil
    rw [if_neg (by omega), if_pos (by omega)]
    show Except.ok (max (divCeil cap n) 1) = _
    rw [max_eq_left hpos]

/-- shard の数が決まれば、shift と容量も決まる。 -/
theorem layout_of_shardAmount {i : Nat} (hcap : cap < w.size) (hreq : Accepted w requested)
    (hi : i < w.bits) (hamount : shardAmount w cap requested = .ok (2 ^ i)) :
    layout w cap requested = .ok
      { shardCount := 2 ^ i, shift := w.bits - i
        shardCap := if cap = 0 then 0 else divCeil cap (2 ^ i) } := by
  have hsub : Word.sub w.bits (w.trailingZeros (2 ^ i)) = .ok (w.bits - i) := by
    rw [Word.trailingZeros_two_pow hi]
    unfold Word.sub
    rw [if_neg (by omega)]
  unfold layout
  simp only [hreq.1, hreq.2, not_true, if_false, hamount]
  show (Word.sub w.bits (w.trailingZeros (2 ^ i)) >>= _) = _
  rw [hsub]
  show (shardCap w cap (2 ^ i) >>= _) = _
  rw [shardCap_ok hcap (Nat.two_pow_pos i)]
  rfl

/-- 構築は失敗せず、shard の数は 2 冪、shift は幅の内側、容量は切り上げの商になる。 -/
theorem layout_ok (hcap : cap < w.size) (hreq : Accepted w requested) :
    ∃ i, 0 < i ∧ i < w.bits ∧ layout w cap requested = .ok
      { shardCount := 2 ^ i, shift := w.bits - i
        shardCap := if cap = 0 then 0 else divCeil cap (2 ^ i) } := by
  obtain ⟨i, h0, hi, hamount⟩ := shardAmount_ok hcap hreq
  exact ⟨i, h0, hi, layout_of_shardAmount hcap hreq hi hamount⟩

/-! ## 小さい cache -/

/-- 切り上げの商の下界は、掛け算で言える。 -/
theorem lt_divCeil_iff {a b n : Nat} (hb : 0 < b) : n < divCeil a b ↔ n * b < a := by
  obtain ⟨hlow, hhigh, -⟩ := divCeil_mul (a := a) hb
  constructor
  · intro h
    have hmul : (n + 1) * b ≤ divCeil a b * b := Nat.mul_le_mul_right b h
    rw [Nat.add_mul] at hmul
    omega
  · intro h
    exact Nat.lt_of_mul_lt_mul_right (Nat.lt_of_lt_of_le h hlow)

/-- 四分の一の次の 2 冪。容量が 2 冪から 4 以上離れると、一つ上の 2 冪に切り上がる。 -/
theorem clog_quarter (h : 8 ≤ cap) :
    Nat.clog 2 (cap / 4)
      = if cap < 2 ^ Nat.log 2 cap + 4 then Nat.log 2 cap - 2 else Nat.log 2 cap - 1 := by
  have hlow := Nat.pow_log_le_self 2 (show cap ≠ 0 by omega)
  have hhigh := Nat.lt_pow_succ_log_self (show 1 < 2 by decide) cap
  have hlog : 3 ≤ Nat.log 2 cap := Nat.le_log_of_pow_le (by decide) h
  obtain ⟨j, hj⟩ : ∃ j, Nat.log 2 cap = j + 2 := ⟨Nat.log 2 cap - 2, by omega⟩
  rw [hj] at hlow hhigh ⊢
  have hsplit : 2 ^ (j + 2) = 4 * 2 ^ j := by rw [Nat.pow_add]; omega
  have hnext : 2 ^ (j + 2 + 1) = 8 * 2 ^ j := by rw [Nat.pow_add, Nat.pow_add]; omega
  have hhalf : 2 ^ (j + 1) = 2 * 2 ^ j := by rw [Nat.pow_add]; omega
  split
  · have hq : cap / 4 = 2 ^ j := by omega
    rw [hq, Nat.clog_pow 2 j (by decide)]
    omega
  · have hle : cap / 4 ≤ 2 ^ (j + 1) := by omega
    have hlt : 2 ^ j < cap / 4 := by omega
    have hup := Nat.clog_le_of_le_pow hle
    have hdown := (Nat.lt_clog_iff_pow_lt (by decide)).mpr hlt
    omega

/--
小さい cache の約束。

shard の数は 2 以上で求めた数以下の 2 冪、容量は切り上げの商で、4 を下回らない。
-/
def ShardsOfFour (w : Word) (cap requested : Nat) : Prop :=
  ∃ l, layout w cap requested = .ok l ∧ w.isPowerOfTwo l.shardCount ∧ 2 ≤ l.shardCount ∧
    l.shardCount ≤ requested ∧ l.shardCap = divCeil cap l.shardCount ∧ 4 ≤ l.shardCap

/--
求めた shard の数で割っても 4 以上残るか、容量を挟む 2 冪 `2 ^ j ≤ cap < 2 ^ (j + 1)` に対して
容量が `2 ^ j` から 3 以内か、`2 ^ j` の一倍半を超えていること。
-/
def Spacious (cap requested : Nat) : Prop :=
  4 * requested ≤ cap ∨ cap < 2 ^ Nat.log 2 cap + 4 ∨ 3 * 2 ^ Nat.log 2 cap < 2 * cap

/-- 数を減らした後の shard の容量。四分の一を切り上げたぶんで、4 を下回ることがある。 -/
theorem four_le_reduced (h : 8 ≤ cap) :
    3 < divCeil cap (max (2 ^ Nat.clog 2 (cap / 4)) 2) ↔
      cap < 2 ^ Nat.log 2 cap + 4 ∨ 3 * 2 ^ Nat.log 2 cap < 2 * cap := by
  have hlow := Nat.pow_log_le_self 2 (show cap ≠ 0 by omega)
  have hlog : 3 ≤ Nat.log 2 cap := Nat.le_log_of_pow_le (by decide) h
  obtain ⟨j, hj⟩ : ∃ j, Nat.log 2 cap = j + 2 := ⟨Nat.log 2 cap - 2, by omega⟩
  have hclog := clog_quarter h
  rw [hj] at hlow hclog ⊢
  have hsplit : 2 ^ (j + 2) = 4 * 2 ^ j := by rw [Nat.pow_add]; omega
  have hhalf : 2 ^ (j + 1) = 2 * 2 ^ j := by rw [Nat.pow_add]; omega
  have htwo : 2 ≤ 2 ^ j := Nat.le_self_pow (by omega) 2
  rw [lt_divCeil_iff (by omega)]
  split at hclog
  · rw [hclog, show j + 2 - 2 = j by omega, max_eq_left htwo]
    omega
  · rw [hclog, show j + 2 - 1 = j + 1 by omega, max_eq_left (by omega)]
    omega

/-- 減らした後の数も、求めた数を超えない。 -/
theorem reduced_le {r : Nat} (h0 : 0 < r) (hq : cap / 2 ^ r < 4) :
    max (2 ^ Nat.clog 2 (cap / 4)) 2 ≤ 2 ^ r := by
  have hlt : cap < 4 * 2 ^ r := (Nat.div_lt_iff_lt_mul (Nat.two_pow_pos r)).mp hq
  have hclog : Nat.clog 2 (cap / 4) ≤ r := Nat.clog_le_of_le_pow (by omega)
  exact max_le (Nat.pow_le_pow_right (by decide) hclog) (Nat.le_self_pow (by omega) 2)

/-- shard の数を減らすのは容量が 4 を切るときだが、切り上げのせいで減らし足りないことがある。 -/
theorem shardsOfFour_iff (h : 8 ≤ cap) (hcap : cap < w.size) (hreq : Accepted w requested) :
    ShardsOfFour w cap requested ↔ Spacious cap requested := by
  obtain ⟨i, h0, hi, hamount⟩ := shardAmount_ok hcap hreq
  have hlayout := layout_of_shardAmount hcap hreq hi hamount
  rw [if_neg (by omega)] at hlayout
  obtain ⟨r, hr0, hr, rfl⟩ := accepted_iff.mp hreq
  rw [shardAmount_eq (by omega) hcap (Nat.two_pow_pos r)] at hamount
  have hcount := Except.ok.inj hamount
  -- 数についての約束はいつも守られるので、残るのは容量だけである
  have hbound : 2 ^ i ≤ 2 ^ r := by
    rw [← hcount]
    split
    · next hq => exact reduced_le hr0 hq
    · exact le_refl _
  have hcontract : ShardsOfFour w cap (2 ^ r) ↔ 3 < divCeil cap (2 ^ i) := by
    unfold ShardsOfFour
    rw [hlayout]
    constructor
    · rintro ⟨l, hl, -, -, -, -, hfour⟩
      cases hl
      exact hfour
    · intro hfour
      exact ⟨_, rfl, Word.isPowerOfTwo_iff.mpr ⟨i, hi, rfl⟩, Nat.le_self_pow (by omega) 2, hbound,
        rfl, hfour⟩
  rw [hcontract, ← hcount]
  unfold Spacious
  have hdiv : cap / 2 ^ r < 4 ↔ cap < 4 * 2 ^ r := Nat.div_lt_iff_lt_mul (Nat.two_pow_pos r)
  by_cases hq : cap / 2 ^ r < 4
  · have hnot : ¬ 4 * 2 ^ r ≤ cap := by omega
    rw [if_pos hq, four_le_reduced h, or_iff_right hnot]
  · rw [if_neg hq, lt_divCeil_iff (Nat.two_pow_pos r)]
    have hle : 4 * 2 ^ r ≤ cap := by omega
    exact ⟨fun _ => Or.inl hle, fun _ => by omega⟩

/-- 64 bit で容量 100、shard 64 個を求めた場合。 -/
theorem shardsOfFour_iff_hundred : ShardsOfFour ⟨64, by decide⟩ 100 64 := by
  have hspacious : Spacious 100 64 := by
    refine Or.inr (Or.inr ?_)
    rw [show Nat.log 2 100 = 6 by decide]
    decide
  exact (shardsOfFour_iff (by decide) (by decide) (by decide)).mpr hspacious

/-- 容量 36 に shard 16 個を求めると、数は減らず、容量は 3 になる。 -/
theorem shardsOfFour_thirtySix : ¬ ShardsOfFour ⟨64, by decide⟩ 36 16 := by
  rintro ⟨l, hl, -, -, -, -, hfour⟩
  have heq : layout ⟨64, by decide⟩ 36 16 = .ok ⟨16, 60, 3⟩ := by decide
  rw [heq] at hl
  cases hl
  exact absurd hfour (by decide)

/-! ## 番号の範囲 -/

/-- 選ばれる番号は shard の数より小さい。 -/
theorem determineShard_lt {K V : Type*} {c : NeoCache K V} {i h : Nat} (h0 : 0 < i)
    (hi : i < w.bits) (hshift : c.shift = w.bits - i) :
    ∃ j < 2 ^ i, c.determineShard w h = .ok j := by
  have hw := w.sixteen_le
  have hlt : h * 2 ^ 7 % w.size < 2 ^ (w.bits - i) * 2 ^ i := by
    rw [← Nat.pow_add, show w.bits - i + i = w.bits by omega]
    exact Nat.mod_lt _ (Nat.two_pow_pos _)
  refine ⟨h * 2 ^ 7 % w.size / 2 ^ (w.bits - i), Nat.div_lt_of_lt_mul hlt, ?_⟩
  unfold determineShard Word.shl Word.shr
  rw [if_pos (by omega), hshift]
  show (if w.bits - i < w.bits then _ else _) = _
  rw [if_pos (by omega)]

end NeoCache

/-! ## 実行中の cache -/

variable {K V : Type*} [DecidableEq K] {w : Word} {cap requested : Nat} {hasher : K → UInt64}
  {c c' : NeoCache K V}

omit [DecidableEq K] in
/-- 構築した cache は、決まった数の空の shard からなる。 -/
theorem built_ok (h : NeoCache.withCapacityAndHasherAndShardAmount w cap hasher requested = .ok c) :
    ∃ l, NeoCache.layout w cap requested = .ok l ∧ c.hasher = hasher ∧ c.shift = l.shift ∧
      c.shards = List.replicate l.shardCount (.new l.shardCap) := by
  unfold NeoCache.withCapacityAndHasherAndShardAmount at h
  cases hl : NeoCache.layout w cap requested with
  | error f => rw [hl] at h; cases h
  | ok l =>
    rw [hl] at h
    cases h
    exact ⟨l, rfl, rfl, rfl, rfl⟩

/-- 一操作が成功したなら、対象の shard だけが変わっている。 -/
theorem onShard_ok {i : Nat} {op : ShardOp K V} {r : Ret K V} (h : c.onShard i op = .ok (r, c')) :
    ∃ σ σ', c.shards[i]? = some σ ∧ op.exec c.hasher σ = .ok (r, σ') ∧
      c' = { c with shards := c.shards.set i σ' } := by
  unfold NeoCache.onShard at h
  cases hσ : c.shards[i]? with
  | none => rw [hσ] at h; cases h
  | some σ =>
    rw [hσ] at h
    change (op.exec c.hasher σ).map _ = _ at h
    cases he : op.exec c.hasher σ with
    | error f => rw [he] at h; cases h
    | ok p =>
      rw [he] at h
      cases h
      exact ⟨σ, p.2, rfl, he, rfl⟩

/-- 構築で決まった数と、各 shard が到達可能であること。 -/
structure Laid (hasher : K → UInt64) (l : NeoCache.Layout) (c : NeoCache K V) : Prop where
  hasher_eq : c.hasher = hasher
  shift : c.shift = l.shift
  count : c.shards.length = l.shardCount
  shards : ∀ (i : Nat) σ, c.shards[i]? = some σ → ShardReachable hasher l.shardCap σ

theorem CacheReachable.laid {l : NeoCache.Layout} (hl : NeoCache.layout w cap requested = .ok l)
    (h : CacheReachable w cap hasher requested c) : Laid hasher l c := by
  refine Lts.Reachable.invariant (P := Laid hasher l) ?_ ?_ h
  · intro c hinit
    obtain ⟨l', hl', hhasher, hshift, hshards⟩ := built_ok hinit
    obtain rfl : l = l' := Except.ok.inj (hl.symm.trans hl')
    refine ⟨hhasher, hshift, by rw [hshards, List.length_replicate], ?_⟩
    intro i σ hσ
    rw [hshards] at hσ
    obtain ⟨-, rfl⟩ := List.mem_replicate.mp (List.mem_of_getElem? hσ)
    exact reachable_new
  · -- 一歩で取り替わるのは一つの shard だけで、それも一操作だけ進む
    rintro c ⟨i, op⟩ c' - hc ⟨-, r, hstep⟩
    obtain ⟨σ, σ', hσ, hexec, rfl⟩ := onShard_ok hstep
    refine ⟨hc.hasher_eq, hc.shift, by simpa using hc.count, ?_⟩
    intro j τ hτ
    rw [List.getElem?_set] at hτ
    split at hτ
    · next hij =>
      split at hτ
      · cases hτ
        exact .step (hc.shards i σ hσ) ⟨r, hc.hasher_eq ▸ hexec⟩
      · cases hτ
    · exact hc.shards j τ hτ

/-! ## 操作と一歩 -/

/-- shard を順に訪ねる操作は、番号の順に一歩ずつ進めたものである。 -/
theorem visitShards_reachable (op : Nat → ShardOp K V)
    {visit : Nat → ShardData K V → Nat × ShardData K V} (htarget : ∀ n c i, (op n).Targets w c i)
    (hexec : ∀ n σ, ∃ r, (op n).exec hasher σ = .ok (r, (visit n σ).2)) :
    ∀ (rest pre : List (ShardData K V)) (n : Nat) (c : NeoCache K V),
      CacheReachable w cap hasher requested c → c.hasher = hasher → c.shards = pre ++ rest →
      CacheReachable w cap hasher requested
        { c with shards := pre ++ (NeoCache.visitShards visit n rest).2 }
  | [], pre, n, c, hr, _, hs => by
    have heq : { c with shards := pre ++ (NeoCache.visitShards visit n []).2 } = c := by
      rw [NeoCache.visitShards, ← hs]
    rw [heq]
    exact hr
  | σ :: rest, pre, n, c, hr, hh, hs => by
    obtain ⟨r, hr'⟩ := hexec n σ
    have hget : c.shards[pre.length]? = some σ := by rw [hs]; simp
    have hset : c.shards.set pre.length (visit n σ).2 = (pre ++ [(visit n σ).2]) ++ rest := by
      rw [hs]; simp
    have hstep : c.onShard pre.length (op n)
        = .ok (r, { c with shards := (pre ++ [(visit n σ).2]) ++ rest }) := by
      unfold NeoCache.onShard
      rw [hget, hh]
      simp only [hr', Except.map, hset]
    have hnext := visitShards_reachable op htarget hexec rest (pre ++ [(visit n σ).2]) (visit n σ).1
      { c with shards := (pre ++ [(visit n σ).2]) ++ rest }
      (.step (a := (pre.length, op n)) hr ⟨htarget n c pre.length, r, hstep⟩) hh rfl
    simpa [NeoCache.visitShards] using hnext

omit [DecidableEq K] in
theorem clear_visit (c : NeoCache K V) :
    c.clear
      = { c with shards := (NeoCache.visitShards (fun n σ => (n, σ.clearAll)) 0 c.shards).2 } := by
  have h : ∀ (n : Nat) (l : List (ShardData K V)),
      (NeoCache.visitShards (fun n σ => (n, σ.clearAll)) n l).2 = l.map .clearAll := by
    intro n l
    induction l with
    | nil => rfl
    | cons σ l ih => simp [NeoCache.visitShards, ih]
  rw [h]
  rfl

/-- key 一つの操作は、hash の選ぶ shard での一歩である。 -/
theorem CacheReachable.keyOp (hr : CacheReachable w cap hasher requested c) {k : K}
    {op : KeyOp K V} {r : Ret K V} (h : c.keyOp w k op = .ok (r, c')) :
    CacheReachable w cap hasher requested c' := by
  unfold NeoCache.keyOp at h
  cases hi : c.shardIndex w k with
  | error f => rw [hi] at h; cases h
  | ok i =>
    rw [hi] at h
    exact .step (a := (i, .key k op)) hr ⟨hi, r, h⟩

/-- どの操作の後も、cache は一歩の系で到達可能である。 -/
theorem CacheReachable.exec {l : NeoCache.Layout} (hl : NeoCache.layout w cap requested = .ok l)
    (hr : CacheReachable w cap hasher requested c) {op : CacheOp K V} {r : CacheRet K V}
    (h : c.exec w op = .ok (r, c')) : CacheReachable w cap hasher requested c' := by
  have hh := (hr.laid hl).hasher_eq
  cases op with
  | key k op =>
    simp only [NeoCache.exec] at h
    cases hkey : c.keyOp w k op with
    | error f => rw [hkey] at h; cases h
    | ok p =>
      rw [hkey] at h
      cases h
      exact hr.keyOp hkey
  | iter => cases h; exact hr
  | retain f =>
    cases h
    exact visitShards_reachable (fun n => .retain f n) (fun _ _ _ => trivial)
      (fun n σ => ⟨.unit, rfl⟩) c.shards [] 0 c hr hh rfl
  | alterAll f =>
    cases h
    exact visitShards_reachable (fun n => .alterAll f n) (fun _ _ _ => trivial)
      (fun n σ => ⟨.unit, rfl⟩) c.shards [] 0 c hr hh rfl
  | clear =>
    cases h
    rw [clear_visit]
    exact visitShards_reachable (fun _ => .clearAll) (fun _ _ _ => trivial)
      (fun n σ => ⟨.unit, rfl⟩) c.shards [] 0 c hr hh rfl

/-! ## 個数の上限 -/

theorem Laid.len_le {l : NeoCache.Layout} (h : Laid hasher l c) (hcap : 0 < l.shardCap) :
    ∀ σ ∈ c.shards, σ.map.len ≤ l.shardCap := by
  intro σ hσ
  obtain ⟨i, hi⟩ := List.mem_iff_getElem?.mp hσ
  exact (h.shards i σ hi).len_le hcap

/-- 読み出しの間に他の一歩が挟まっても、読んだ和は読んだ数だけの容量を超えない。 -/
theorem lenReads_le {l : NeoCache.Layout} (hl : NeoCache.layout w cap requested = .ok l)
    (hcap : 0 < l.shardCap) {i acc n : Nat}
    (h : LenReads (cacheLts K V w cap hasher requested) c i acc n) :
    CacheReachable w cap hasher requested c → i ≤ l.shardCount → acc ≤ i * l.shardCap →
      n ≤ l.shardCount * l.shardCap := by
  induction h with
  | done hi =>
    intro _ hle hacc
    exact Nat.le_trans hacc (Nat.mul_le_mul_right _ hle)
  | @read c i acc n σ hσ rest ih =>
    intro hr _ hacc
    have hc := hr.laid hl
    have hlen := (hc.shards i σ hσ).len_le hcap
    have hi : i < l.shardCount := by
      rw [← hc.count]
      exact (List.getElem?_eq_some_iff.mp hσ).1
    refine ih hr hi ?_
    rw [Nat.add_mul]
    omega
  | other hstep rest ih =>
    -- 挟まった一歩の後も到達可能なので、次に読む shard の上限は変わらない
    intro hr hle hacc
    exact ih (.step hr hstep) hle hacc

/--
容量の約束。

構築は失敗せず、決まった shard の数と容量の積は要求した容量以上で、余りは shard の数未満である。
到達可能な cache では、shard の選択は範囲内に収まり、どの shard の表も容量を超えず、
`len` は、読み出しの間に他の thread の操作が挟まっても、積を超えない。
-/
theorem capacity_contract (hasher : K → UInt64) (hcap : 1 ≤ cap) (hsize : cap < w.size)
    (hreq : NeoCache.Accepted w requested) :
    ∃ l, NeoCache.layout w cap requested = .ok l ∧
      (0 < l.shift ∧ l.shift < w.bits) ∧
      (cap ≤ l.shardCap * l.shardCount ∧ l.shardCap * l.shardCount ≤ cap + l.shardCount - 1) ∧
      (∃ c : NeoCache K V,
        NeoCache.withCapacityAndHasherAndShardAmount w cap hasher requested = .ok c) ∧
      ∀ c : NeoCache K V, CacheReachable w cap hasher requested c →
        (∀ op r c', c.exec w op = .ok (r, c') → CacheReachable w cap hasher requested c') ∧
        c.shards.length = l.shardCount ∧
        (∀ h, ∃ j < l.shardCount, c.determineShard w h = .ok j) ∧
        (∀ σ ∈ c.shards, σ.map.len ≤ l.shardCap) ∧
        c.len ≤ l.shardCap * l.shardCount ∧
        ∀ n, LenReads (cacheLts K V w cap hasher requested) c 0 0 n →
          n ≤ l.shardCap * l.shardCount := by
  obtain ⟨i, h0, hi, hl⟩ := NeoCache.layout_ok hsize hreq
  have hnz : ¬ cap = 0 := by omega
  rw [if_neg hnz] at hl
  obtain ⟨hlow, hhigh, -⟩ := NeoCache.divCeil_mul (a := cap) (Nat.two_pow_pos i)
  have hpos : 0 < divCeil cap (2 ^ i) := by
    by_contra hc
    have hzero : divCeil cap (2 ^ i) = 0 := by omega
    rw [hzero] at hlow
    omega
  refine ⟨_, hl, ⟨?_, ?_⟩, ⟨hlow, hhigh⟩, ?_, ?_⟩
  · show 0 < w.bits - i
    omega
  · show w.bits - i < w.bits
    omega
  · unfold NeoCache.withCapacityAndHasherAndShardAmount
    rw [hl]
    exact ⟨_, rfl⟩
  · intro c hr
    have hc := hr.laid hl
    refine ⟨fun op r c' h => hr.exec hl h, hc.count,
      fun h => NeoCache.determineShard_lt h0 hi hc.shift, hc.len_le hpos, ?_, ?_⟩
    · have hsum := List.sum_le_card_nsmul (c.shards.map fun σ => σ.map.len)
        (divCeil cap (2 ^ i)) (by
          intro n hn
          obtain ⟨σ, hσ, rfl⟩ := List.mem_map.mp hn
          exact hc.len_le hpos σ hσ)
      have hcount := hc.count
      rw [List.length_map, hcount, smul_eq_mul, Nat.mul_comm] at hsum
      exact hsum
    · intro n hn
      have hle := lenReads_le hl hpos hn hr (Nat.zero_le _) (Nat.zero_le _)
      rwa [Nat.mul_comm] at hle

/-- 64 bit で容量 100、shard 16 個を求めた場合。数はそのまま、容量は 7 になる。 -/
theorem capacity_contract_hundred :
    ∃ l, NeoCache.layout ⟨64, by decide⟩ 100 16 = .ok l ∧ l.shardCap * l.shardCount = 112 ∧
      ∀ c : NeoCache Nat Nat, CacheReachable ⟨64, by decide⟩ 100 UInt64.ofNat 16 c →
        c.len ≤ l.shardCap * l.shardCount := by
  have haccepted : NeoCache.Accepted ⟨64, by decide⟩ 16 := by decide
  obtain ⟨l, hl, -, -, -, hrun⟩ := capacity_contract (K := Nat) (V := Nat) UInt64.ofNat
    (show 1 ≤ 100 by decide) (by decide) haccepted
  have heq : NeoCache.layout ⟨64, by decide⟩ 100 16 = .ok ⟨16, 60, 7⟩ := by decide
  rw [heq] at hl
  cases hl
  exact ⟨_, heq, rfl, fun c hr => (hrun c hr).2.2.2.2.1⟩

end Neocache
