import Cartridge.Proofs.Alignment
import Cartridge.Storage.Region
import Mathlib.Order.Bounds.Defs

/-!
# Rounding to multiples

Aligning an address to a power of two rounds it to a multiple: down to the greatest one that is not
above the address, up to the least one that is not below it. Rounding down always succeeds. Rounding up
begins with a sum, which stays below 2⁶⁴ exactly if the address is at most 2⁶⁴ less the alignment. Beyond
that the next multiple is 2⁶⁴ itself, which no word can hold.

A read through a cipher is widened by such roundings, to whole blocks or to whole sectors.

Results:
* `Align.isGreatest_div_mul`, `Align.isLeast_add_div_mul`: rounding natural numbers.
* `Align.isGreatest_down`, `Align.isLeast_up`: rounding words.
* `Align.add_toNat_lt_iff`, `Align.isLeast_two_pow_of_lt`: where rounding up overflows.
* `CounterLayer.isGreatest_alignedStart`, `XtsLayer.isGreatest_firstSector`,
  `XtsLayer.exists_isLeast_alignedEnd`: where the reads of the ciphers begin and end.
* `aligning_rounds`: all of it together.
-/

namespace Cartridge

namespace Align

/-! ## Multiples -/

/-- The multiples of a number that are not above another. -/
def multiplesUpTo (unit value : Nat) : Set Nat := {m | unit ∣ m ∧ m ≤ value}

/-- The multiples of a number that are not below another. -/
def multiplesFrom (unit value : Nat) : Set Nat := {m | unit ∣ m ∧ value ≤ m}

theorem isGreatest_div_mul {unit : Nat} (hpos : 0 < unit) (value : Nat) :
    IsGreatest (multiplesUpTo unit value) (value / unit * unit) := by
  refine ⟨⟨Nat.dvd_mul_left unit _, Nat.div_mul_le_self value unit⟩, ?_⟩
  rintro m ⟨⟨q, rfl⟩, hle⟩
  have hq : q ≤ value / unit := (Nat.le_div_iff_mul_le hpos).mpr (by rwa [Nat.mul_comm])
  rw [Nat.mul_comm unit q]
  exact Nat.mul_le_mul_right unit hq

theorem isLeast_add_div_mul {unit : Nat} (hpos : 0 < unit) (value : Nat) :
    IsLeast (multiplesFrom unit value) ((value + (unit - 1)) / unit * unit) := by
  constructor
  · refine ⟨Nat.dvd_mul_left unit _, ?_⟩
    have hdiv := Nat.div_add_mod (value + (unit - 1)) unit
    have hmod := Nat.mod_lt (value + (unit - 1)) hpos
    rw [Nat.mul_comm] at hdiv
    omega
  · rintro m ⟨⟨q, rfl⟩, hle⟩
    have hq : (value + (unit - 1)) / unit ≤ q :=
      (Nat.div_le_iff_le_mul_add_pred hpos).mpr (by omega)
    rw [Nat.mul_comm unit q]
    exact Nat.mul_le_mul_right unit hq

/-! ## Words -/

variable {value align : UInt64} {k : Nat}

theorem isGreatest_down (ha : align.toNat = 2 ^ k) :
    IsGreatest (multiplesUpTo align.toNat value.toNat) (down value align).toNat := by
  rw [toNat_down ha, ha]
  exact isGreatest_div_mul (Nat.two_pow_pos k) value.toNat

/-- The sum that rounding up begins with stays below 2⁶⁴ exactly up to the last multiple that does. -/
theorem add_toNat_lt_iff (ha : align.toNat = 2 ^ k) :
    value.toNat + (align - 1).toNat < 2 ^ 64 ↔ value.toNat ≤ 2 ^ 64 - align.toNat := by
  have hpos := Nat.two_pow_pos k
  have hlt : align.toNat < 2 ^ 64 := align.toNat_lt
  rw [toNat_sub_one ha, ← ha]
  omega

theorem isLeast_up (ha : align.toNat = 2 ^ k) (hv : value.toNat ≤ 2 ^ 64 - align.toNat) :
    IsLeast (multiplesFrom align.toNat value.toNat) (up value align).toNat := by
  have hsum := (add_toNat_lt_iff ha).mpr hv
  rw [toNat_sub_one ha] at hsum
  rw [toNat_up ha hsum, ha]
  exact isLeast_add_div_mul (Nat.two_pow_pos k) value.toNat

/-- Behind the last multiple that a word can hold, the next one is 2⁶⁴. -/
theorem isLeast_two_pow_of_lt (ha : align.toNat = 2 ^ k) (hv : 2 ^ 64 - align.toNat < value.toNat) :
    IsLeast (multiplesFrom align.toNat value.toNat) (2 ^ 64) := by
  have hk : k ≤ 64 := by
    have hlt : 2 ^ k < 2 ^ 64 := ha ▸ align.toNat_lt
    exact Nat.le_of_lt ((Nat.pow_lt_pow_iff_right (by decide)).mp hlt)
  have hsplit : 2 ^ 64 = 2 ^ k * 2 ^ (64 - k) := by rw [← Nat.pow_add, Nat.add_sub_cancel' hk]
  rw [ha] at hv ⊢
  refine ⟨⟨Nat.pow_dvd_pow 2 hk, Nat.le_of_lt value.toNat_lt⟩, ?_⟩
  rintro m ⟨⟨q, rfl⟩, hle⟩
  have hlt : 2 ^ k * (2 ^ (64 - k) - 1) < 2 ^ k * q := by
    rw [Nat.mul_sub, Nat.mul_one, ← hsplit]
    exact Nat.lt_of_lt_of_le hv hle
  have hq : 2 ^ (64 - k) ≤ q := Nat.le_of_pred_lt (Nat.lt_of_mul_lt_mul_left hlt)
  rw [hsplit]
  exact Nat.mul_le_mul_left _ hq

end Align

/-! ## Reads through ciphers -/

open Align

/-- A read through counter mode begins with the block of its first byte. -/
theorem CounterLayer.isGreatest_alignedStart (l : CounterLayer) {offset : Nat}
    (h : l.start + offset < 2 ^ 64) :
    IsGreatest (multiplesUpTo 16 (l.start + offset)) (l.alignedStart offset) := by
  have halign : (16 : UInt64).toNat = 2 ^ 4 := rfl
  have hgreatest : IsGreatest
      (multiplesUpTo (16 : UInt64).toNat (UInt64.ofNat (l.start + offset)).toNat)
      (l.alignedStart offset) := isGreatest_down halign
  rwa [UInt64.toNat_ofNat_of_lt' h] at hgreatest

/-- A read through XTS begins with the sector of its first byte. -/
theorem XtsLayer.isGreatest_firstSector (l : XtsLayer) (offset : Nat) :
    IsGreatest (multiplesUpTo sectorSize (l.dataOffset + offset))
      (l.firstSector offset * sectorSize) :=
  isGreatest_div_mul (by decide) _

/-- A read through XTS ends with the sector of its last byte, or with the section if that is shorter. -/
theorem XtsLayer.exists_isLeast_alignedEnd (l : XtsLayer) {offset length : Nat}
    (h : l.dataOffset + offset + length ≤ 2 ^ 64 - sectorSize) :
    ∃ stop, IsLeast (multiplesFrom sectorSize (l.dataOffset + offset + length)) stop ∧
      l.alignedEnd offset length = min stop l.sectionSize := by
  have hsector : sectorSize = 512 := rfl
  have halign : (UInt64.ofNat sectorSize).toNat = 2 ^ 9 := rfl
  have hvalue : (UInt64.ofNat (l.dataOffset + offset + length)).toNat = l.dataOffset + offset + length :=
    UInt64.toNat_ofNat_of_lt' (show _ < 2 ^ 64 by omega)
  rw [← hvalue] at h ⊢
  exact ⟨_, isLeast_up halign h, rfl⟩

/-- **Aligning rounds.** For every alignment that is a power of two and every address, aligning down gives
the greatest multiple that is not above the address. Aligning up does not overflow exactly if the address
is at most 2⁶⁴ less the alignment, and then gives the least multiple that is not below the address;
otherwise that multiple is no word. What counter mode reads from below therefore begins with a whole
block, and what XTS reads begins and ends with whole sectors, as far as the section goes. -/
theorem aligning_rounds :
    (∀ {value align : UInt64} {k : Nat}, align.toNat = 2 ^ k →
      IsGreatest (multiplesUpTo align.toNat value.toNat) (down value align).toNat ∧
      (value.toNat + (align - 1).toNat < 2 ^ 64 ↔ value.toNat ≤ 2 ^ 64 - align.toNat) ∧
      (value.toNat ≤ 2 ^ 64 - align.toNat →
        IsLeast (multiplesFrom align.toNat value.toNat) (up value align).toNat) ∧
      (2 ^ 64 - align.toNat < value.toNat →
        IsLeast (multiplesFrom align.toNat value.toNat) (2 ^ 64))) ∧
    (∀ (l : CounterLayer) {offset : Nat}, l.start + offset < 2 ^ 64 →
      IsGreatest (multiplesUpTo 16 (l.start + offset)) (l.alignedStart offset)) ∧
    (∀ (l : XtsLayer) {offset length : Nat},
      l.dataOffset + offset + length ≤ 2 ^ 64 - sectorSize →
        IsGreatest (multiplesUpTo sectorSize (l.dataOffset + offset))
          (l.firstSector offset * sectorSize) ∧
        ∃ stop, IsLeast (multiplesFrom sectorSize (l.dataOffset + offset + length)) stop ∧
          l.alignedEnd offset length = min stop l.sectionSize) := by
  refine ⟨fun ha => ?_, fun l _ h => l.isGreatest_alignedStart h,
    fun l _ _ h => ⟨l.isGreatest_firstSector _, l.exists_isLeast_alignedEnd h⟩⟩
  exact ⟨isGreatest_down ha, add_toNat_lt_iff ha, isLeast_up ha, isLeast_two_pow_of_lt ha⟩

/-- The greatest alignment and the last address that can be rounded up to it, the address behind that one,
and a read that ends in a sector that the section cuts off. -/
theorem aligning_rounds_at_the_end :
    ((0x8000000000000000 : UInt64).toNat = 2 ^ 63 ∧
      (0x8000000000000000 : UInt64).toNat ≤ 2 ^ 64 - (0x8000000000000000 : UInt64).toNat ∧
      IsLeast (multiplesFrom (2 ^ 63) (2 ^ 63)) (up 0x8000000000000000 0x8000000000000000).toNat) ∧
    (2 ^ 64 - (0x8000000000000000 : UInt64).toNat < (0x8000000000000001 : UInt64).toNat ∧
      IsLeast (multiplesFrom (2 ^ 63) (2 ^ 63 + 1)) (2 ^ 64)) ∧
    (0x15 + 0x7 < 2 ^ 64 ∧ IsGreatest (multiplesUpTo 16 (0x15 + 0x7))
      ((⟨0x15, 0x30, Bytes.zero 16, 0⟩ : CounterLayer).alignedStart 0x7)) ∧
    (0x8 + 0x1F0 + 0x18 ≤ 2 ^ 64 - sectorSize ∧
      ∃ stop, IsLeast (multiplesFrom sectorSize (0x8 + 0x1F0 + 0x18)) stop ∧
        (⟨0x100, 0x210, 0x8, 0x208, Bytes.zero 32⟩ : XtsLayer).alignedEnd 0x1F0 0x18
          = min stop 0x210) := by
  obtain ⟨hwords, hcounter, hxts⟩ := aligning_rounds
  have halign : (0x8000000000000000 : UInt64).toNat = 2 ^ 63 := rfl
  have hlast : (0x8000000000000000 : UInt64).toNat ≤ 2 ^ 64 - (0x8000000000000000 : UInt64).toNat := by
    decide
  have hbehind :
      2 ^ 64 - (0x8000000000000000 : UInt64).toNat < (0x8000000000000001 : UInt64).toNat := by decide
  have hread : 0x8 + 0x1F0 + 0x18 ≤ 2 ^ 64 - sectorSize := by decide
  refine ⟨⟨halign, hlast, (hwords halign).2.2.1 hlast⟩, ⟨hbehind, (hwords halign).2.2.2 hbehind⟩,
    ⟨by decide, hcounter _ (by decide)⟩, hread, ?_⟩
  exact (hxts ⟨0x100, 0x210, 0x8, 0x208, Bytes.zero 32⟩ hread).2

end Cartridge
