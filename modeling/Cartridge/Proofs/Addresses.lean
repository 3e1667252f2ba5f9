import Cartridge.Proofs.Nesting

/-!
# Where regions lie in their medium

Every constructor checks that what it makes lies within what it is made of. The offsets of a chain of
accepted constructions therefore add up to a place in the medium at the bottom, and behind that place
there is room for the region. As the medium's size is a 64-bit number, none of these sums leaves 64
bits, whatever is in the medium and whether its reads succeed.

Results:
* `Region.Built.parentOffset_add_size_le`: a region ends within its medium.
* `Region.Built.parentOffset_add_size_lt`: no address of a byte of it leaves 64 bits.
* `Region.Nested.built`: in particular this holds of nested regions over media without faults.
-/

namespace Cartridge.Region

variable {media : Media} {r base : Region}

/-- The size of the medium at the bottom. -/
def mediumSize : Region → Nat
  | medium _ size => size
  | part base _ _ => base.mediumSize
  | counter base _ => base.mediumSize
  | xts base _ => base.mediumSize

/-- A region that a chain of accepted constructions makes, from a medium whose size is a 64-bit
number. -/
inductive Built : Region → Prop where
  | medium (id : Nat) {size : Nat} (hsize : size < UInt64.size) : Built (.medium id size)
  | part {base r : Region} {offset size : Nat} (hbase : Built base)
      (hr : base.subregion offset size = .ok r) : Built r
  | counter {base r : Region} {layer : CounterLayer} (hbase : Built base)
      (hr : base.decryptCounter layer = .ok r) : Built r
  | xts {base r : Region} {layer : XtsLayer} (hbase : Built base)
      (hr : base.decryptXts layer = .ok r) : Built r

theorem Built.mediumSize_lt (h : r.Built) : r.mediumSize < UInt64.size := by
  induction h with
  | medium _ hsize => exact hsize
  | part _ hr ih =>
    obtain ⟨-, rfl⟩ := subregion_eq_ok_iff.mp hr
    exact ih
  | counter _ hr ih =>
    obtain ⟨-, rfl⟩ := decryptCounter_eq_ok_iff.mp hr
    exact ih
  | xts _ hr ih =>
    obtain ⟨-, -, rfl⟩ := decryptXts_eq_ok_iff.mp hr
    exact ih

/-- **A region ends within its medium.** -/
theorem Built.parentOffset_add_size_le (h : r.Built) : r.parentOffset + r.size ≤ r.mediumSize := by
  induction h with
  | medium => simp [parentOffset, size, mediumSize]
  | part _ hr ih =>
    obtain ⟨hle, rfl⟩ := subregion_eq_ok_iff.mp hr
    simp only [parentOffset, size, mediumSize]
    omega
  | counter _ hr ih =>
    obtain ⟨hle, rfl⟩ := decryptCounter_eq_ok_iff.mp hr
    simp only [parentOffset, size, mediumSize]
    omega
  | xts _ hr ih =>
    obtain ⟨hle, hdata, rfl⟩ := decryptXts_eq_ok_iff.mp hr
    simp only [parentOffset, size, mediumSize]
    omega

/-- No address of a byte of a region leaves 64 bits. -/
theorem Built.parentOffset_add_size_lt (h : r.Built) : r.parentOffset + r.size < UInt64.size :=
  Nat.lt_of_le_of_lt h.parentOffset_add_size_le h.mediumSize_lt

/-- The place in the medium or cipher is no further than the place in the medium at the bottom. -/
theorem origin_le_parentOffset (r : Region) : r.origin ≤ r.parentOffset := by
  induction r with
  | part base offset size ih => simpa only [origin, parentOffset] using Nat.add_le_add_right ih offset
  | medium | counter | xts => simp only [origin, Nat.zero_le]

theorem Nested.built (h : Nested media r) : r.Built := by
  induction h with
  | medium id _ hsize => exact .medium id hsize
  | part _ hr ih => exact .part ih hr
  | counter _ hr ih => exact .counter ih hr
  | xts _ hr _ ih => exact .xts ih hr

end Cartridge.Region
