import Cartridge.Bytes

/-!
# Numbers as bytes

A number is written in a fixed count of bytes, least significant byte first (little-endian) or last
(big-endian). Writing keeps the number modulo the count of numbers that the bytes can hold.

* `ofLittle_little`, `ofBig_big`: reading what was written gives the number modulo that count.
* `little_ofLittle`: writing what was read gives the bytes back.
-/

namespace Cartridge.Endian

/-- How many numbers `width` bytes can hold: 256 to the power of `width`. -/
def capacity : (width : Nat) → Nat
  | 0 => 1
  | width + 1 => 256 * capacity width

/-- The `width` low bytes of a number, least significant first. -/
def little : (width : Nat) → Nat → List UInt8
  | 0, _ => []
  | width + 1, n => UInt8.ofNat n :: little width (n / 256)

/-- The number whose little-endian bytes are given. -/
def ofLittle : List UInt8 → Nat
  | [] => 0
  | b :: rest => b.toNat + 256 * ofLittle rest

/-- The `width` low bytes of a number, most significant first. -/
def big (width n : Nat) : List UInt8 := (little width n).reverse

/-- The number whose big-endian bytes are given. -/
def ofBig (bytes : List UInt8) : Nat := ofLittle bytes.reverse

@[simp] theorem length_little (width n : Nat) : (little width n).length = width := by
  induction width generalizing n with
  | zero => rfl
  | succ width ih => simp [little, ih]

@[simp] theorem length_big (width n : Nat) : (big width n).length = width := by
  simp [big]

/-- The big-endian bytes of a number as a byte string of known length. -/
def bigBytes (width n : Nat) : Bytes width := ⟨big width n, length_big width n⟩

theorem ofLittle_lt (bytes : List UInt8) : ofLittle bytes < capacity bytes.length := by
  induction bytes with
  | nil => exact Nat.zero_lt_one
  | cons b rest ih =>
    have hb := b.toNat_lt
    simp only [ofLittle, List.length_cons, capacity]
    omega

theorem ofLittle_little (width n : Nat) : ofLittle (little width n) = n % capacity width := by
  induction width generalizing n with
  | zero => exact (Nat.mod_one n).symm
  | succ width ih => rw [little, ofLittle, ih, UInt8.toNat_ofNat', capacity, Nat.mod_mul]

theorem little_ofLittle (bytes : List UInt8) : little bytes.length (ofLittle bytes) = bytes := by
  induction bytes with
  | nil => rfl
  | cons b rest ih =>
    have hb := b.toNat_lt
    have hdiv : (b.toNat + 256 * ofLittle rest) / 256 = ofLittle rest := by omega
    have hbyte : UInt8.ofNat (b.toNat + 256 * ofLittle rest) = b := by
      apply UInt8.toNat_inj.mp
      rw [UInt8.toNat_ofNat']
      omega
    simp only [List.length_cons, ofLittle, little, hdiv, ih, hbyte]

theorem ofBig_big (width n : Nat) : ofBig (big width n) = n % capacity width := by
  rw [ofBig, big, List.reverse_reverse, ofLittle_little]

/-! ## Fixed-width words -/

/-- The two bytes of a 16-bit word, least significant first. -/
def bytes16 (w : UInt16) : List UInt8 := little 2 w.toNat

/-- The four bytes of a 32-bit word, least significant first. -/
def bytes32 (w : UInt32) : List UInt8 := little 4 w.toNat

/-- The eight bytes of a 64-bit word, least significant first. -/
def bytes64 (w : UInt64) : List UInt8 := little 8 w.toNat

/-- The 16-bit word with the given little-endian bytes. -/
def word16 (bytes : List UInt8) : UInt16 := UInt16.ofNat (ofLittle bytes)

/-- The 32-bit word with the given little-endian bytes. -/
def word32 (bytes : List UInt8) : UInt32 := UInt32.ofNat (ofLittle bytes)

/-- The 64-bit word with the given little-endian bytes. -/
def word64 (bytes : List UInt8) : UInt64 := UInt64.ofNat (ofLittle bytes)

theorem word16_bytes16 (w : UInt16) : word16 (bytes16 w) = w := by
  have := w.toNat_lt
  apply UInt16.toNat_inj.mp
  simp only [word16, bytes16, ofLittle_little, UInt16.toNat_ofNat', capacity]
  omega

theorem word32_bytes32 (w : UInt32) : word32 (bytes32 w) = w := by
  have := w.toNat_lt
  apply UInt32.toNat_inj.mp
  simp only [word32, bytes32, ofLittle_little, UInt32.toNat_ofNat', capacity]
  omega

theorem word64_bytes64 (w : UInt64) : word64 (bytes64 w) = w := by
  have := w.toNat_lt
  apply UInt64.toNat_inj.mp
  simp only [word64, bytes64, ofLittle_little, UInt64.toNat_ofNat', capacity]
  omega

theorem bytes16_word16 {bytes : List UInt8} (h : bytes.length = 2) :
    bytes16 (word16 bytes) = bytes := by
  have hlt := ofLittle_lt bytes
  simp only [h, capacity] at hlt
  rw [bytes16, word16, UInt16.toNat_ofNat', Nat.mod_eq_of_lt (by omega), ← h, little_ofLittle]

theorem bytes32_word32 {bytes : List UInt8} (h : bytes.length = 4) :
    bytes32 (word32 bytes) = bytes := by
  have hlt := ofLittle_lt bytes
  simp only [h, capacity] at hlt
  rw [bytes32, word32, UInt32.toNat_ofNat', Nat.mod_eq_of_lt (by omega), ← h, little_ofLittle]

theorem bytes64_word64 {bytes : List UInt8} (h : bytes.length = 8) :
    bytes64 (word64 bytes) = bytes := by
  have hlt := ofLittle_lt bytes
  simp only [h, capacity] at hlt
  rw [bytes64, word64, UInt64.toNat_ofNat', Nat.mod_eq_of_lt (by omega), ← h, little_ofLittle]

end Cartridge.Endian
