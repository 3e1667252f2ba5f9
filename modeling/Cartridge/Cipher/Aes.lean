import Cartridge.Cipher.Block

/-!
# AES with a 128-bit key

The cipher of FIPS 197 on a state of four columns of four bytes. A round substitutes every byte,
rotates the rows, multiplies each column by a fixed matrix over GF(2⁸) and adds a round key;
decryption undoes the steps in reverse order.

* `State.unmix_mix`, `State.unrotate_rotate`, `State.unsubstitute_substitute`: each step is undone
  by its inverse.
* `decryptState_encryptState`: with the same round keys, decryption undoes encryption.
* `cipher`: the block cipher of a key.
-/

namespace Cartridge.Aes

/-! ## Bytes -/

/-- The substitution table: the inverse in GF(2⁸) followed by an affine map. -/
def sbox : Array UInt8 :=
  #[
    0x63, 0x7C, 0x77, 0x7B, 0xF2, 0x6B, 0x6F, 0xC5, 0x30, 0x01, 0x67, 0x2B, 0xFE, 0xD7, 0xAB, 0x76,
    0xCA, 0x82, 0xC9, 0x7D, 0xFA, 0x59, 0x47, 0xF0, 0xAD, 0xD4, 0xA2, 0xAF, 0x9C, 0xA4, 0x72, 0xC0,
    0xB7, 0xFD, 0x93, 0x26, 0x36, 0x3F, 0xF7, 0xCC, 0x34, 0xA5, 0xE5, 0xF1, 0x71, 0xD8, 0x31, 0x15,
    0x04, 0xC7, 0x23, 0xC3, 0x18, 0x96, 0x05, 0x9A, 0x07, 0x12, 0x80, 0xE2, 0xEB, 0x27, 0xB2, 0x75,
    0x09, 0x83, 0x2C, 0x1A, 0x1B, 0x6E, 0x5A, 0xA0, 0x52, 0x3B, 0xD6, 0xB3, 0x29, 0xE3, 0x2F, 0x84,
    0x53, 0xD1, 0x00, 0xED, 0x20, 0xFC, 0xB1, 0x5B, 0x6A, 0xCB, 0xBE, 0x39, 0x4A, 0x4C, 0x58, 0xCF,
    0xD0, 0xEF, 0xAA, 0xFB, 0x43, 0x4D, 0x33, 0x85, 0x45, 0xF9, 0x02, 0x7F, 0x50, 0x3C, 0x9F, 0xA8,
    0x51, 0xA3, 0x40, 0x8F, 0x92, 0x9D, 0x38, 0xF5, 0xBC, 0xB6, 0xDA, 0x21, 0x10, 0xFF, 0xF3, 0xD2,
    0xCD, 0x0C, 0x13, 0xEC, 0x5F, 0x97, 0x44, 0x17, 0xC4, 0xA7, 0x7E, 0x3D, 0x64, 0x5D, 0x19, 0x73,
    0x60, 0x81, 0x4F, 0xDC, 0x22, 0x2A, 0x90, 0x88, 0x46, 0xEE, 0xB8, 0x14, 0xDE, 0x5E, 0x0B, 0xDB,
    0xE0, 0x32, 0x3A, 0x0A, 0x49, 0x06, 0x24, 0x5C, 0xC2, 0xD3, 0xAC, 0x62, 0x91, 0x95, 0xE4, 0x79,
    0xE7, 0xC8, 0x37, 0x6D, 0x8D, 0xD5, 0x4E, 0xA9, 0x6C, 0x56, 0xF4, 0xEA, 0x65, 0x7A, 0xAE, 0x08,
    0xBA, 0x78, 0x25, 0x2E, 0x1C, 0xA6, 0xB4, 0xC6, 0xE8, 0xDD, 0x74, 0x1F, 0x4B, 0xBD, 0x8B, 0x8A,
    0x70, 0x3E, 0xB5, 0x66, 0x48, 0x03, 0xF6, 0x0E, 0x61, 0x35, 0x57, 0xB9, 0x86, 0xC1, 0x1D, 0x9E,
    0xE1, 0xF8, 0x98, 0x11, 0x69, 0xD9, 0x8E, 0x94, 0x9B, 0x1E, 0x87, 0xE9, 0xCE, 0x55, 0x28, 0xDF,
    0x8C, 0xA1, 0x89, 0x0D, 0xBF, 0xE6, 0x42, 0x68, 0x41, 0x99, 0x2D, 0x0F, 0xB0, 0x54, 0xBB, 0x16]

/-- The inverse of the substitution table. -/
def inverseSbox : Array UInt8 :=
  #[
    0x52, 0x09, 0x6A, 0xD5, 0x30, 0x36, 0xA5, 0x38, 0xBF, 0x40, 0xA3, 0x9E, 0x81, 0xF3, 0xD7, 0xFB,
    0x7C, 0xE3, 0x39, 0x82, 0x9B, 0x2F, 0xFF, 0x87, 0x34, 0x8E, 0x43, 0x44, 0xC4, 0xDE, 0xE9, 0xCB,
    0x54, 0x7B, 0x94, 0x32, 0xA6, 0xC2, 0x23, 0x3D, 0xEE, 0x4C, 0x95, 0x0B, 0x42, 0xFA, 0xC3, 0x4E,
    0x08, 0x2E, 0xA1, 0x66, 0x28, 0xD9, 0x24, 0xB2, 0x76, 0x5B, 0xA2, 0x49, 0x6D, 0x8B, 0xD1, 0x25,
    0x72, 0xF8, 0xF6, 0x64, 0x86, 0x68, 0x98, 0x16, 0xD4, 0xA4, 0x5C, 0xCC, 0x5D, 0x65, 0xB6, 0x92,
    0x6C, 0x70, 0x48, 0x50, 0xFD, 0xED, 0xB9, 0xDA, 0x5E, 0x15, 0x46, 0x57, 0xA7, 0x8D, 0x9D, 0x84,
    0x90, 0xD8, 0xAB, 0x00, 0x8C, 0xBC, 0xD3, 0x0A, 0xF7, 0xE4, 0x58, 0x05, 0xB8, 0xB3, 0x45, 0x06,
    0xD0, 0x2C, 0x1E, 0x8F, 0xCA, 0x3F, 0x0F, 0x02, 0xC1, 0xAF, 0xBD, 0x03, 0x01, 0x13, 0x8A, 0x6B,
    0x3A, 0x91, 0x11, 0x41, 0x4F, 0x67, 0xDC, 0xEA, 0x97, 0xF2, 0xCF, 0xCE, 0xF0, 0xB4, 0xE6, 0x73,
    0x96, 0xAC, 0x74, 0x22, 0xE7, 0xAD, 0x35, 0x85, 0xE2, 0xF9, 0x37, 0xE8, 0x1C, 0x75, 0xDF, 0x6E,
    0x47, 0xF1, 0x1A, 0x71, 0x1D, 0x29, 0xC5, 0x89, 0x6F, 0xB7, 0x62, 0x0E, 0xAA, 0x18, 0xBE, 0x1B,
    0xFC, 0x56, 0x3E, 0x4B, 0xC6, 0xD2, 0x79, 0x20, 0x9A, 0xDB, 0xC0, 0xFE, 0x78, 0xCD, 0x5A, 0xF4,
    0x1F, 0xDD, 0xA8, 0x33, 0x88, 0x07, 0xC7, 0x31, 0xB1, 0x12, 0x10, 0x59, 0x27, 0x80, 0xEC, 0x5F,
    0x60, 0x51, 0x7F, 0xA9, 0x19, 0xB5, 0x4A, 0x0D, 0x2D, 0xE5, 0x7A, 0x9F, 0x93, 0xC9, 0x9C, 0xEF,
    0xA0, 0xE0, 0x3B, 0x4D, 0xAE, 0x2A, 0xF5, 0xB0, 0xC8, 0xEB, 0xBB, 0x3C, 0x83, 0x53, 0x99, 0x61,
    0x17, 0x2B, 0x04, 0x7E, 0xBA, 0x77, 0xD6, 0x26, 0xE1, 0x69, 0x14, 0x63, 0x55, 0x21, 0x0C, 0x7D]

/-- Substitutes a byte. -/
def substituteByte (b : UInt8) : UInt8 := sbox.getD b.toNat 0

/-- Undoes the substitution of a byte. -/
def unsubstituteByte (b : UInt8) : UInt8 := inverseSbox.getD b.toNat 0

theorem unsubstitute_ofNat :
    ∀ n : Fin 256, unsubstituteByte (substituteByte (UInt8.ofNat n.val)) = UInt8.ofNat n.val := by
  decide +kernel

theorem unsubstituteByte_substituteByte (b : UInt8) :
    unsubstituteByte (substituteByte b) = b := by
  have h := unsubstitute_ofNat ⟨b.toNat, b.toNat_lt⟩
  simpa using h

/-- What the polynomial `x⁸ + x⁴ + x³ + x + 1` adds when doubling `b` overflows. -/
def reduction (b : UInt8) : UInt8 := if b.toBitVec.msb then 0x1B else 0

/-- Twice a byte, as elements of GF(2⁸). -/
def double (b : UInt8) : UInt8 := (b <<< 1) ^^^ reduction b

/-! ## Columns and states -/

/-- Four bytes, one for each row. -/
structure Column where
  r0 : UInt8
  r1 : UInt8
  r2 : UInt8
  r3 : UInt8
deriving DecidableEq

namespace Column

/-- Applies a function to every byte. -/
def map (f : UInt8 → UInt8) (c : Column) : Column := ⟨f c.r0, f c.r1, f c.r2, f c.r3⟩

/-- Adds two columns. -/
def xor (a b : Column) : Column := ⟨a.r0 ^^^ b.r0, a.r1 ^^^ b.r1, a.r2 ^^^ b.r2, a.r3 ^^^ b.r3⟩

/-- Multiplies by the circulant matrix of `2 3 1 1`. -/
def mix (c : Column) : Column :=
  let d := c.map double
  ⟨d.r0 ^^^ d.r1 ^^^ c.r1 ^^^ c.r2 ^^^ c.r3,
    c.r0 ^^^ d.r1 ^^^ d.r2 ^^^ c.r2 ^^^ c.r3,
    c.r0 ^^^ c.r1 ^^^ d.r2 ^^^ d.r3 ^^^ c.r3,
    d.r0 ^^^ c.r0 ^^^ c.r1 ^^^ c.r2 ^^^ d.r3⟩

/-- Four times the sum of the bytes two rows apart: the circulant matrix of `4 0 4 0`. -/
def twist (c : Column) : Column :=
  let even := double (double (c.r0 ^^^ c.r2))
  let odd := double (double (c.r1 ^^^ c.r3))
  ⟨even, odd, even, odd⟩

/-- Multiplies by the circulant matrix of `14 11 13 9`, which is that of `5 0 4 0` times that of
`2 3 1 1`. -/
def unmix (c : Column) : Column := (c.xor c.twist).mix

end Column

/-- Sixteen bytes as four columns. -/
structure State where
  c0 : Column
  c1 : Column
  c2 : Column
  c3 : Column
deriving DecidableEq

namespace State

/-- Applies a function to every column. -/
def map (f : Column → Column) (s : State) : State := ⟨f s.c0, f s.c1, f s.c2, f s.c3⟩

/-- Adds two states. -/
def xor (a b : State) : State := ⟨a.c0.xor b.c0, a.c1.xor b.c1, a.c2.xor b.c2, a.c3.xor b.c3⟩

/-- Substitutes every byte. -/
def substitute (s : State) : State := s.map (·.map substituteByte)

/-- Undoes `substitute`. -/
def unsubstitute (s : State) : State := s.map (·.map unsubstituteByte)

/-- Rotates row `i` by `i` columns to the left. -/
def rotate (s : State) : State :=
  ⟨⟨s.c0.r0, s.c1.r1, s.c2.r2, s.c3.r3⟩, ⟨s.c1.r0, s.c2.r1, s.c3.r2, s.c0.r3⟩,
    ⟨s.c2.r0, s.c3.r1, s.c0.r2, s.c1.r3⟩, ⟨s.c3.r0, s.c0.r1, s.c1.r2, s.c2.r3⟩⟩

/-- Undoes `rotate`. -/
def unrotate (s : State) : State :=
  ⟨⟨s.c0.r0, s.c3.r1, s.c2.r2, s.c1.r3⟩, ⟨s.c1.r0, s.c0.r1, s.c3.r2, s.c2.r3⟩,
    ⟨s.c2.r0, s.c1.r1, s.c0.r2, s.c3.r3⟩, ⟨s.c3.r0, s.c2.r1, s.c1.r2, s.c0.r3⟩⟩

/-- Multiplies every column by the matrix. -/
def mix (s : State) : State := s.map Column.mix

/-- Undoes `mix`. -/
def unmix (s : State) : State := s.map Column.unmix

/-- The four bytes of a list from a position on. -/
def columnAt (bytes : List UInt8) : Column :=
  match bytes with
  | a :: b :: c :: d :: _ => ⟨a, b, c, d⟩
  | _ => ⟨0, 0, 0, 0⟩

/-- The state of a block, column by column. -/
def ofBlock (b : Block) : State :=
  ⟨columnAt b.toList, columnAt (b.toList.drop 4), columnAt (b.toList.drop 8),
    columnAt (b.toList.drop 12)⟩

/-- The bytes of a column. -/
def columnBytes (c : Column) : List UInt8 := [c.r0, c.r1, c.r2, c.r3]

/-- The block of a state. -/
def toBlock (s : State) : Block :=
  ⟨columnBytes s.c0 ++ columnBytes s.c1 ++ columnBytes s.c2 ++ columnBytes s.c3, rfl⟩

theorem ofBlock_toBlock (s : State) : ofBlock s.toBlock = s := rfl

theorem toBlock_ofBlock (b : Block) : (ofBlock b).toBlock = b := by
  obtain ⟨bytes, h⟩ := b
  match bytes, h with
  | [_, _, _, _, _, _, _, _, _, _, _, _, _, _, _, _], _ => rfl

end State

/-! ## Key expansion -/

/-- The constants added to the first byte of each new round key. -/
def roundConstants : List UInt8 := [0x01, 0x02, 0x04, 0x08, 0x10, 0x20, 0x40, 0x80, 0x1B, 0x36]

/-- The round key after `k`. -/
def nextRoundKey (k : State) (constant : UInt8) : State :=
  let last := k.c3.map substituteByte
  let c0 := k.c0.xor ⟨last.r1 ^^^ constant, last.r2, last.r3, last.r0⟩
  let c1 := k.c1.xor c0
  let c2 := k.c2.xor c1
  ⟨c0, c1, c2, k.c3.xor c2⟩

/-- The round keys after `k`, one for each constant. -/
def expand (k : State) : List UInt8 → List State
  | [] => []
  | constant :: rest =>
    let next := nextRoundKey k constant
    next :: expand next rest

/-- Round keys: the first one, those of the rounds that mix columns, and the last one. -/
structure Schedule where
  first : State
  middle : List State
  last : State

/-- The eleven round keys of a key. -/
def schedule (key : Block) : Schedule :=
  let first := State.ofBlock key
  let rest := expand first roundConstants
  ⟨first, rest.dropLast, rest.getLastD first⟩

/-! ## The cipher -/

/-- A round: substitute, rotate, mix and add the round key. -/
def round (s k : State) : State := s.substitute.rotate.mix.xor k

/-- Undoes a round. -/
def unround (k s : State) : State := (s.xor k).unmix.unrotate.unsubstitute

/-- Encrypts a state. -/
def encryptState (ks : Schedule) (s : State) : State :=
  (ks.middle.foldl round (s.xor ks.first)).substitute.rotate.xor ks.last

/-- Decrypts a state. -/
def decryptState (ks : Schedule) (s : State) : State :=
  (ks.middle.foldr unround (s.xor ks.last).unrotate.unsubstitute).xor ks.first

/-! ## Decryption undoes encryption -/

theorem reduction_xor (a b : UInt8) : reduction (a ^^^ b) = reduction a ^^^ reduction b := by
  unfold reduction
  rw [UInt8.toBitVec_xor, BitVec.msb_xor]
  cases a.toBitVec.msb <;> cases b.toBitVec.msb <;> rfl

theorem double_xor (a b : UInt8) : double (a ^^^ b) = double a ^^^ double b := by
  unfold double
  rw [reduction_xor, UInt8.shiftLeft_xor]
  ac_rfl

theorem xor_left_comm (a b c : UInt8) : a ^^^ (b ^^^ c) = b ^^^ (a ^^^ c) := by
  rw [← UInt8.xor_assoc, UInt8.xor_comm a b, UInt8.xor_assoc]

theorem xor_xor_self (a b : UInt8) : a ^^^ (a ^^^ b) = b := by
  rw [← UInt8.xor_assoc, UInt8.xor_self, UInt8.zero_xor]

namespace Column

theorem xor_assoc (a b c : Column) : (a.xor b).xor c = a.xor (b.xor c) := by
  simp [xor, UInt8.xor_assoc]

theorem xor_self_right (a b : Column) : (a.xor b).xor b = a := by
  simp only [xor, UInt8.xor_assoc, UInt8.xor_self, UInt8.xor_zero]

theorem mix_xor (a b : Column) : (a.xor b).mix = a.mix.xor b.mix := by
  simp only [mix, xor, map, double_xor, mk.injEq]
  refine ⟨?_, ?_, ?_, ?_⟩ <;> ac_rfl

/-- Twice the matrix of `2 3 1 1` is that of `5 0 4 0`. -/
theorem mix_mix (c : Column) : c.mix.mix = c.xor c.twist := by
  obtain ⟨a, b, c, d⟩ := c
  simp only [mix, twist, map, xor, double_xor, mk.injEq]
  refine ⟨?_, ?_, ?_, ?_⟩ <;>
  simp only [UInt8.xor_assoc, UInt8.xor_comm, xor_left_comm, xor_xor_self, UInt8.xor_self,
    UInt8.zero_xor]

theorem mix_twist_mix (c : Column) : c.mix.twist.mix = c.twist := by
  obtain ⟨a, b, c, d⟩ := c
  have even : ∀ a b c d : UInt8, (double a ^^^ double b ^^^ b ^^^ c ^^^ d) ^^^
      (a ^^^ b ^^^ double c ^^^ double d ^^^ d) =
        double (a ^^^ c) ^^^ (a ^^^ c) ^^^ double (b ^^^ d) := by
    intro a b c d
    simp only [double_xor, UInt8.xor_assoc, UInt8.xor_comm, xor_left_comm, xor_xor_self]
  have odd : ∀ a b c d : UInt8, (a ^^^ double b ^^^ double c ^^^ c ^^^ d) ^^^
      (double a ^^^ a ^^^ b ^^^ c ^^^ double d) =
        double (b ^^^ d) ^^^ (b ^^^ d) ^^^ double (a ^^^ c) := by
    intro a b c d
    simp only [double_xor, UInt8.xor_assoc, UInt8.xor_comm, xor_left_comm, xor_xor_self]
  simp only [mix, twist, map, even, odd]
  generalize a ^^^ c = p, b ^^^ d = q
  simp only [double_xor, mk.injEq]
  refine ⟨?_, ?_, ?_, ?_⟩ <;>
  simp only [UInt8.xor_assoc, UInt8.xor_comm, xor_left_comm, xor_xor_self, UInt8.xor_self,
    UInt8.zero_xor]

theorem unmix_mix (c : Column) : c.mix.unmix = c := by
  rw [unmix, mix_xor, mix_twist_mix, mix_mix, xor_self_right]

end Column

namespace State

theorem unmix_mix (s : State) : s.mix.unmix = s := by
  simp [mix, unmix, map, Column.unmix_mix]

theorem unrotate_rotate (s : State) : s.rotate.unrotate = s := rfl

theorem unsubstitute_substitute (s : State) : s.substitute.unsubstitute = s := by
  simp [substitute, unsubstitute, map, Column.map, unsubstituteByte_substituteByte]

theorem xor_xor_cancel (s k : State) : (s.xor k).xor k = s := by
  simp only [xor, Column.xor_self_right]

end State

theorem unround_round (s k : State) : unround k (round s k) = s := by
  simp [unround, round, State.xor_xor_cancel, State.unmix_mix, State.unrotate_rotate,
    State.unsubstitute_substitute]

theorem foldr_unround_foldl_round (ks : List State) (s : State) :
    ks.foldr unround (ks.foldl round s) = s := by
  induction ks generalizing s with
  | nil => rfl
  | cons k ks ih => rw [List.foldl_cons, List.foldr_cons, ih, unround_round]

theorem decryptState_encryptState (ks : Schedule) (s : State) :
    decryptState ks (encryptState ks s) = s := by
  simp only [decryptState, encryptState, State.xor_xor_cancel, State.unrotate_rotate,
    State.unsubstitute_substitute, foldr_unround_foldl_round]

/-- AES under a key of sixteen bytes. -/
def cipher (key : Block) : BlockCipher :=
  let ks := schedule key
  { encrypt := fun b => (encryptState ks (State.ofBlock b)).toBlock
    decrypt := fun b => (decryptState ks (State.ofBlock b)).toBlock
    decrypt_encrypt := fun b => by
      simp only [State.ofBlock_toBlock, decryptState_encryptState, State.toBlock_ofBlock] }

end Cartridge.Aes
