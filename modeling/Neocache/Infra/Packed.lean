import Mathlib.Algebra.Group.Nat.Even
import Mathlib.Data.BitVec

/-!
# 個数と二つの flag を詰めた語

下二桁を flag に、その上を個数に使う語。一語を atomic に読み書きすることで、個数と flag を
まとめて更新する lock や参照 counter に現れる形である。

語の演算を、個数 `count` と flag `bit 0`・`bit 1` の三つ組の側で読めるようにする。
三つ組は語を決め（`ext`）、桁ごとの演算は桁で、加減算は `unpack` で三つ組に移す。
-/

namespace Infra.Packed

variable {n : Nat}

def count (v : BitVec n) : Nat := (v >>> 2).toNat

def bit (i : Nat) (v : BitVec n) : Bool := v.getLsbD i

/-- 個数の桁をすべて立てた語。 -/
def countMask (n : Nat) : BitVec n := ~~~(1#n ||| 2#n)

def maxCount (n : Nat) : Nat := 2 ^ (n - 2) - 1

/-! ## 三つ組 -/

theorem count_eq (v : BitVec n) : count v = v.toNat / 4 := by
  simp [count, BitVec.toNat_ushiftRight, Nat.shiftRight_eq_div_pow]

theorem bit_toNat (v : BitVec n) (i : Nat) : (bit i v).toNat = v.toNat / 2 ^ i % 2 := by
  unfold bit
  rw [← BitVec.testBit_toNat, Nat.testBit_eq_decide_div_mod_eq]
  rcases Nat.mod_two_eq_zero_or_one (v.toNat / 2 ^ i) with h | h <;> simp [h]

theorem toNat_eq (v : BitVec n) :
    v.toNat = 4 * count v + 2 * (bit 1 v).toNat + (bit 0 v).toNat := by
  rw [count_eq, bit_toNat, bit_toNat]
  omega

/-- 三つ組で書けた値からは、三つ組が読み戻せる。 -/
theorem unpack {v : BitVec n} {c : Nat} {a b : Bool}
    (h : v.toNat = 4 * c + 2 * a.toNat + b.toNat) : count v = c ∧ bit 1 v = a ∧ bit 0 v = b := by
  have hv := toNat_eq v
  have ha := a.toNat_lt
  have hb := b.toNat_lt
  have h1 := (bit 1 v).toNat_lt
  have h0 := (bit 0 v).toNat_lt
  have hc : count v = c := by omega
  have inj : ∀ {x y : Bool}, x.toNat = y.toNat → x = y := by decide
  exact ⟨hc, inj (by omega), inj (by omega)⟩

theorem ext {v u : BitVec n} (hc : count v = count u) (h1 : bit 1 v = bit 1 u)
    (h0 : bit 0 v = bit 0 u) : v = u := by
  apply BitVec.eq_of_toNat_eq
  rw [toNat_eq v, toNat_eq u, hc, h1, h0]

theorem two_pow_split (hn : 2 ≤ n) : 2 ^ n = 4 * (maxCount n + 1) := by
  obtain ⟨m, rfl⟩ := Nat.exists_eq_add_of_le hn
  have hpos := Nat.two_pow_pos m
  unfold maxCount
  rw [Nat.add_sub_cancel_left, pow_add]
  omega

theorem maxCount_odd (hn : 3 ≤ n) : maxCount n % 2 = 1 := by
  obtain ⟨m, rfl⟩ := Nat.exists_eq_add_of_le hn
  have hpos := Nat.two_pow_pos m
  unfold maxCount
  rw [show 3 + m - 2 = m + 1 by omega, pow_succ]
  omega

theorem one_lt_maxCount (hn : 4 ≤ n) : 1 < maxCount n := by
  obtain ⟨m, rfl⟩ := Nat.exists_eq_add_of_le hn
  have hpos := Nat.two_pow_pos m
  unfold maxCount
  rw [show 4 + m - 2 = m + 2 by omega, pow_succ, pow_succ]
  omega

theorem count_le (hn : 2 ≤ n) (v : BitVec n) : count v ≤ maxCount n := by
  have hv := v.isLt
  rw [two_pow_split hn] at hv
  rw [count_eq]
  omega

/-! ## 桁ごとの演算 -/

theorem getLsbD_two {i : Nat} : (2#n).getLsbD i = (decide (i < n) && decide (i = 1)) := by
  rw [BitVec.getLsbD_ofNat, show (2 : Nat) = 2 ^ 1 from rfl, Nat.testBit_two_pow]
  simp [eq_comm]

theorem getLsbD_four {i : Nat} : (4#n).getLsbD i = (decide (i < n) && decide (i = 2)) := by
  rw [BitVec.getLsbD_ofNat, show (4 : Nat) = 2 ^ 2 from rfl, Nat.testBit_two_pow]
  simp [eq_comm]

theorem toNat_four (hn : 3 ≤ n) : (4#n).toNat = 4 := by
  have hlt : 4 < 2 ^ n := by
    calc 4 < 2 ^ 3 := by decide
      _ ≤ 2 ^ n := Nat.pow_le_pow_right (by decide) hn
  rw [BitVec.toNat_ofNat, Nat.mod_eq_of_lt hlt]

/-- 個数の桁で一致する語は、個数が等しい。 -/
theorem count_congr {v u : BitVec n} (h : ∀ i, 2 ≤ i → v.getLsbD i = u.getLsbD i) :
    count v = count u := by
  have heq : v >>> 2 = u >>> 2 := by
    apply BitVec.eq_of_getLsbD_eq
    intro i _
    rw [BitVec.getLsbD_ushiftRight, BitVec.getLsbD_ushiftRight]
    exact h (2 + i) (by omega)
  unfold count
  rw [heq]

@[simp] theorem count_or_one (v : BitVec n) : count (v ||| 1#n) = count v := by
  refine count_congr fun i hi => ?_
  have h0 : ¬ i = 0 := by omega
  simp only [BitVec.getLsbD_or, BitVec.getLsbD_one]
  simp [h0]

@[simp] theorem count_or_two (v : BitVec n) : count (v ||| 2#n) = count v := by
  refine count_congr fun i hi => ?_
  have h1 : ¬ i = 1 := by omega
  simp only [BitVec.getLsbD_or, getLsbD_two]
  simp [h1]

theorem bit_or_one (hn : 2 ≤ n) (v : BitVec n) :
    bit 1 (v ||| 1#n) = bit 1 v ∧ bit 0 (v ||| 1#n) = true := by
  have hpos : 0 < n := by omega
  simp only [bit, BitVec.getLsbD_or, BitVec.getLsbD_one]
  simp [hpos]

theorem bit_or_two (hn : 2 ≤ n) (v : BitVec n) :
    bit 1 (v ||| 2#n) = true ∧ bit 0 (v ||| 2#n) = bit 0 v := by
  have hpos : 1 < n := by omega
  simp only [bit, BitVec.getLsbD_or, getLsbD_two]
  simp [hpos]

/-- 一桁だけの mask を当てて 0 になるのは、その桁が立っていないときである。 -/
theorem and_mask_eq_zero {i : Nat} (hi : i < n) {m : BitVec n}
    (hm : ∀ j < n, m.getLsbD j = decide (j = i)) (v : BitVec n) :
    v &&& m = 0 ↔ bit i v = false := by
  unfold bit
  constructor
  · intro h
    have hb : (v &&& m).getLsbD i = (0 : BitVec n).getLsbD i := by rw [h]
    rw [BitVec.getLsbD_and, hm i hi] at hb
    simpa only [decide_true, Bool.and_true, BitVec.ofNat_eq_ofNat, BitVec.getLsbD_zero] using hb
  · intro h
    apply BitVec.eq_of_getLsbD_eq
    intro j hj
    rw [BitVec.getLsbD_and, hm j hj]
    by_cases hji : j = i
    · rw [hji, h]
      simp
    · simp [hji]

theorem and_one_eq_zero (hn : 2 ≤ n) (v : BitVec n) : v &&& 1#n = 0 ↔ bit 0 v = false := by
  have hpos : 0 < n := by omega
  refine and_mask_eq_zero hpos (fun j _ => ?_) v
  rw [BitVec.getLsbD_one]
  simp [hpos]

theorem and_two_eq_zero (hn : 2 ≤ n) (v : BitVec n) : v &&& 2#n = 0 ↔ bit 1 v = false := by
  refine and_mask_eq_zero (by omega) (fun j hj => ?_) v
  rw [getLsbD_two]
  simp [hj]

/-! ## 個数の桁 -/

theorem getLsbD_countMask {i : Nat} :
    (countMask n).getLsbD i = (decide (i < n) && decide (2 ≤ i)) := by
  simp only [countMask, BitVec.getLsbD_not, BitVec.getLsbD_or, BitVec.getLsbD_one, getLsbD_two]
  by_cases hi : i < n
  · rcases i with _ | _ | i
    · simp [hi]
    · simp [hi]
    · simp
  · simp [hi]

theorem toNat_and_countMask (v : BitVec n) : (v &&& countMask n).toNat = 4 * count v := by
  have heq : v &&& countMask n = (v >>> 2) <<< 2 := by
    apply BitVec.eq_of_getLsbD_eq
    intro i hi
    simp only [BitVec.getLsbD_and, getLsbD_countMask, BitVec.getLsbD_shiftLeft,
      BitVec.getLsbD_ushiftRight]
    by_cases h : i < 2
    · simp [h]
    · have hge : 2 ≤ i := by omega
      rw [show 2 + (i - 2) = i by omega]
      simp [h, hi, hge]
  have hlt : count v * 4 < 2 ^ n := by
    have hv := v.isLt
    rw [count_eq]
    omega
  rw [heq, BitVec.toNat_shiftLeft, Nat.shiftLeft_eq]
  show count v * 2 ^ 2 % 2 ^ n = _
  rw [Nat.mod_eq_of_lt hlt, Nat.mul_comm]

theorem count_countMask (hn : 2 ≤ n) : count (countMask n) = maxCount n := by
  have h := toNat_and_countMask (BitVec.allOnes n)
  rw [BitVec.allOnes_and] at h
  rw [count_eq, h, count_eq, BitVec.toNat_allOnes, two_pow_split hn]
  omega

theorem and_countMask_eq_zero (v : BitVec n) : v &&& countMask n = 0 ↔ count v = 0 := by
  have h := toNat_and_countMask v
  constructor
  · intro hz
    rw [hz] at h
    simpa using h.symm
  · intro hz
    apply BitVec.eq_of_toNat_eq
    rw [h, hz]
    simp

theorem and_countMask_eq_self (hn : 2 ≤ n) (v : BitVec n) :
    v &&& countMask n = countMask n ↔ count v = maxCount n := by
  have h := toNat_and_countMask v
  have hm := toNat_and_countMask (countMask n)
  rw [BitVec.and_self, count_countMask hn] at hm
  constructor
  · intro heq
    rw [heq] at h
    omega
  · intro hc
    apply BitVec.eq_of_toNat_eq
    rw [h, hm, hc]

/-- 個数の桁をすべて立てる。 -/
theorem or_countMask (hn : 2 ≤ n) (v : BitVec n) :
    count (v ||| countMask n) = maxCount n ∧
      bit 1 (v ||| countMask n) = bit 1 v ∧ bit 0 (v ||| countMask n) = bit 0 v := by
  refine ⟨?_, ?_, ?_⟩
  · rw [← count_countMask hn]
    refine count_congr fun i hi => ?_
    simp only [BitVec.getLsbD_or, getLsbD_countMask]
    by_cases h : i < n
    · simp [h, hi]
    · simp [h, BitVec.getLsbD_of_ge v i (by omega)]
  · simp [bit, getLsbD_countMask]
  · simp [bit, getLsbD_countMask]

/-- 下二桁だけを残す。 -/
theorem and_low (hn : 2 ≤ n) (v : BitVec n) :
    count (v &&& (1#n ||| 2#n)) = 0 ∧
      bit 1 (v &&& (1#n ||| 2#n)) = bit 1 v ∧ bit 0 (v &&& (1#n ||| 2#n)) = bit 0 v := by
  have hone : 1 < n := by omega
  have hzero : 0 < n := by omega
  refine ⟨?_, ?_, ?_⟩
  · have hcount : count (v &&& (1#n ||| 2#n)) = count (0#n) := by
      refine count_congr fun i hi => ?_
      have h0 : ¬ i = 0 := by omega
      have h1 : ¬ i = 1 := by omega
      simp only [BitVec.getLsbD_and, BitVec.getLsbD_or, BitVec.getLsbD_one, getLsbD_two]
      simp [h0, h1]
    rw [hcount, count_eq]
    simp
  · simp only [bit, BitVec.getLsbD_and, BitVec.getLsbD_or, BitVec.getLsbD_one, getLsbD_two]
    simp [hone]
  · simp only [bit, BitVec.getLsbD_and, BitVec.getLsbD_or, BitVec.getLsbD_one, getLsbD_two]
    simp [hzero]

/-- 個数の桁の最下位と `bit 1` だけを残す。 -/
theorem and_four_or_two (hn : 3 ≤ n) (v : BitVec n) :
    count (v &&& (4#n ||| 2#n)) = count v % 2 ∧
      bit 1 (v &&& (4#n ||| 2#n)) = bit 1 v ∧ bit 0 (v &&& (4#n ||| 2#n)) = false := by
  have hone : 1 < n := by omega
  refine ⟨?_, ?_, ?_⟩
  · have hparity : count v % 2 = (bit 2 v).toNat := by
      rw [bit_toNat, count_eq]
      rfl
    have hcount : count (v &&& (4#n ||| 2#n)) = count (if bit 2 v then 4#n else 0#n) := by
      refine count_congr fun i hi => ?_
      have h1 : ¬ i = 1 := by omega
      simp only [BitVec.getLsbD_and, BitVec.getLsbD_or, getLsbD_four, getLsbD_two]
      by_cases h2 : i = 2
      · subst h2
        cases hb : bit 2 v <;> simp [show v.getLsbD 2 = _ from hb, getLsbD_four]
      · cases hb : bit 2 v <;> simp [h1, h2, getLsbD_four]
    rw [hcount, hparity, count_eq]
    cases bit 2 v with
    | false => simp
    | true => simp [toNat_four hn]
  · simp only [bit, BitVec.getLsbD_and, BitVec.getLsbD_or, getLsbD_four, getLsbD_two]
    simp [hone]
  · simp only [bit, BitVec.getLsbD_and, BitVec.getLsbD_or, getLsbD_four, getLsbD_two]
    simp

/-! ## 加減算 -/

/-- 溢れないとき、個数を一つ増やす。 -/
theorem add_four (hn : 3 ≤ n) {v : BitVec n} (h : v.toNat + 4 < 2 ^ n) :
    count (v + 4#n) = count v + 1 ∧ bit 1 (v + 4#n) = bit 1 v ∧ bit 0 (v + 4#n) = bit 0 v := by
  apply unpack
  rw [BitVec.toNat_add_of_lt (by rw [toNat_four hn]; exact h), toNat_four hn, toNat_eq v]
  omega

/-- 個数を一つ減らす。0 からは上限に回り込む。 -/
theorem sub_four (hn : 3 ≤ n) (v : BitVec n) :
    count (v - 4#n) = (if count v = 0 then maxCount n else count v - 1) ∧
      bit 1 (v - 4#n) = bit 1 v ∧ bit 0 (v - 4#n) = bit 0 v := by
  have hv := toNat_eq v
  have hsplit := two_pow_split (n := n) (by omega)
  have h1 := (bit 1 v).toNat_lt
  have h0 := (bit 0 v).toNat_lt
  have hlt := v.isLt
  apply unpack
  rw [BitVec.toNat_sub, toNat_four hn]
  split
  · next hz =>
    rw [Nat.mod_eq_of_lt (by omega)]
    omega
  · next hz =>
    rw [show 2 ^ n - 4 + v.toNat = v.toNat - 4 + 2 ^ n by omega, Nat.add_mod_right,
      Nat.mod_eq_of_lt (by omega)]
    omega

/-- 個数を増やすと溢れるのは、個数が最大のときに限る。 -/
theorem add_four_overflow (hn : 2 ≤ n) (v : BitVec n) :
    ¬ v.toNat + 4 < 2 ^ n ↔ count v = maxCount n := by
  have hv := toNat_eq v
  have hle := count_le hn v
  have h1 := (bit 1 v).toNat_lt
  have h0 := (bit 0 v).toNat_lt
  rw [two_pow_split hn]
  omega

end Infra.Packed
