import Neocache.Cache.Build
import Neocache.Infra.Packed

/-!
# lock の語

`src/lock.rs` の `state: AtomicUsize` の値。下二桁は読み手・書き手が眠っているという印、その上は
読み手の数で、書き手は数の桁をすべて立てて表す。

演算は source のとおりに桁で書き、証明では `Infra.Packed` の三つ組（`count`・`bit 1`・`bit 0`）で
読む。数の桁をすべて立てた値は読み手の数としても読めるので、読み手の側の操作は、一つ足した数が
この値になるかどうかを見て避けている。
-/

namespace Neocache.RawRwLock

open Infra.Packed

variable (w : Word)

def readersParked : BitVec w.bits := 1#w.bits

def writersParked : BitVec w.bits := 2#w.bits

def oneReader : BitVec w.bits := 4#w.bits

def oneWriter : BitVec w.bits := ~~~(readersParked w ||| writersParked w)

/-- `usize::checked_add`。 -/
def checkedAdd (a b : BitVec w.bits) : Option (BitVec w.bits) :=
  if a.toNat + b.toNat < 2 ^ w.bits then some (a + b) else none

variable {w} {v u : BitVec w.bits}

theorem two_le_bits : 2 ≤ w.bits := le_trans (by decide) w.sixteen_le

theorem three_le_bits : 3 ≤ w.bits := le_trans (by decide) w.sixteen_le

/-! ## 印と数の読み取り -/

theorem and_oneWriter_eq_zero : v &&& oneWriter w = 0 ↔ count v = 0 := and_countMask_eq_zero v

theorem and_oneWriter_eq_self : v &&& oneWriter w = oneWriter w ↔ count v = maxCount w.bits :=
  and_countMask_eq_self two_le_bits v

theorem and_readersParked_eq_zero : v &&& readersParked w = 0 ↔ bit 0 v = false :=
  and_one_eq_zero two_le_bits v

theorem and_writersParked_eq_zero : v &&& writersParked w = 0 ↔ bit 1 v = false :=
  and_two_eq_zero two_le_bits v

theorem checkedAdd_eq_some (h : checkedAdd w v (oneReader w) = some u) :
    count v < maxCount w.bits ∧ count u = count v + 1 ∧ bit 1 u = bit 1 v ∧ bit 0 u = bit 0 v := by
  unfold checkedAdd at h
  rw [show (oneReader w).toNat = 4 from toNat_four three_le_bits] at h
  split at h
  · next hlt =>
    have hne : count v ≠ maxCount w.bits := fun hc =>
      (add_four_overflow two_le_bits v).mpr hc hlt
    have hle := count_le two_le_bits v
    rw [← Option.some.inj h]
    exact ⟨by omega, add_four three_le_bits hlt⟩
  · cases h

theorem checkedAdd_eq_none (h : checkedAdd w v (oneReader w) = none) :
    count v = maxCount w.bits := by
  unfold checkedAdd at h
  rw [show (oneReader w).toNat = 4 from toNat_four three_le_bits] at h
  split at h
  · cases h
  · next hlt => exact (add_four_overflow two_le_bits v).mp hlt

end Neocache.RawRwLock
