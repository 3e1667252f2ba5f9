import Cartridge.Align
import Mathlib.Algebra.Group.Nat.Defs

/-!
# Masking is rounding

Aligning clears the low bits of a 64-bit address by a mask. Where the alignment is a power of two
this rounds to a multiple of it, and the sum that rounding up begins with stays below 2⁶⁴ exactly
when the address is at most 2⁶⁴ less the alignment.

Results:
* `toNat_and_not_low`: clearing the `k` low bits is dividing by `2 ^ k` and multiplying again.
* `toNat_down`, `toNat_up`: both roundings as arithmetic on natural numbers.
-/

namespace Cartridge.Align

/-- A word with the bits below `k` cleared is a multiple of `2 ^ k`. -/
theorem toNat_and_not_low {v mask : UInt64} {k : Nat} (hm : mask.toNat = 2 ^ k - 1) :
    (v &&& ~~~mask).toNat = v.toNat / 2 ^ k * 2 ^ k := by
  have hnot : (~~~mask).toNat = 2 ^ 64 - (mask.toNat + 1) := by
    rw [← UInt64.toNat_toBitVec, UInt64.toBitVec_not, BitVec.toNat_not, UInt64.toNat_toBitVec]
    omega
  have hlt : mask.toNat < 2 ^ 64 := mask.toNat_lt
  apply Nat.eq_of_testBit_eq
  intro i
  rw [UInt64.toNat_and, Nat.testBit_and, hnot, Nat.testBit_two_pow_sub_succ hlt, hm,
    Nat.testBit_two_pow_sub_one, Nat.testBit_mul_two_pow, Nat.testBit_div_two_pow]
  by_cases hk : k ≤ i
  · rw [Nat.sub_add_cancel hk]
    by_cases hi : i < 64
    · simp [hk, hi, Nat.not_lt.mpr hk]
    · -- a bit past the width of the word is not set
      have hv : v.toNat.testBit i = false :=
        Nat.testBit_lt_two_pow (Nat.lt_of_lt_of_le v.toNat_lt
          (Nat.pow_le_pow_right (by decide) (Nat.le_of_not_lt hi)))
      simp [hv]
  · simp [hk, Nat.lt_of_not_le hk]

variable {value align : UInt64} {k : Nat}

theorem toNat_sub_one (ha : align.toNat = 2 ^ k) : (align - 1).toNat = 2 ^ k - 1 := by
  have hpos : 0 < 2 ^ k := Nat.two_pow_pos k
  have h1 : (1 : UInt64) ≤ align := by
    rw [UInt64.le_iff_toNat_le, ha]
    exact hpos
  rw [UInt64.toNat_sub_of_le _ _ h1, ha]
  rfl

/-- Rounding down, as arithmetic. -/
theorem toNat_down (ha : align.toNat = 2 ^ k) :
    (down value align).toNat = value.toNat / 2 ^ k * 2 ^ k :=
  toNat_and_not_low (toNat_sub_one ha)

/-- Rounding up, as arithmetic, where the sum does not overflow. -/
theorem toNat_up (ha : align.toNat = 2 ^ k) (hv : value.toNat + (2 ^ k - 1) < 2 ^ 64) :
    (up value align).toNat = (value.toNat + (2 ^ k - 1)) / 2 ^ k * 2 ^ k := by
  have hsum : (value + (align - 1)).toNat = value.toNat + (2 ^ k - 1) := by
    rw [UInt64.toNat_add, toNat_sub_one ha]
    exact Nat.mod_eq_of_lt hv
  unfold up
  rw [toNat_and_not_low (toNat_sub_one ha), hsum]

end Cartridge.Align
