import Cartridge.Bytes.Endian
import Cartridge.Cipher.Block

/-!
# Codebook and counter mode

Codebook mode decrypts every whole block on its own and leaves the bytes behind the last one alone.
Counter mode adds to block `i` the encryption of the counter plus `i`, where the counter is a number
of 128 bits written big-endian. Adding is its own inverse, so one function encrypts and decrypts.
-/

namespace Cartridge

namespace Codebook

/-- Decrypts as many whole blocks as given. -/
def decryptBlocks (c : BlockCipher) : Nat → List UInt8 → List UInt8
  | 0, bytes => bytes
  | n + 1, bytes => (c.decrypt (Bytes.fit 16 bytes)).toList ++ decryptBlocks c n (bytes.drop 16)

/-- Decrypts every whole block. -/
def decrypt (c : BlockCipher) (bytes : List UInt8) : List UInt8 :=
  decryptBlocks c (bytes.length / 16) bytes

/-- One block is decrypted by the cipher alone. -/
theorem decrypt_toList (c : BlockCipher) (b : Block) : decrypt c b.toList = (c.decrypt b).toList := by
  have hrest : b.toList.drop 16 = [] := List.drop_of_length_le (Nat.le_of_eq b.length_toList)
  rw [decrypt, b.length_toList, decryptBlocks, hrest, decryptBlocks, Bytes.fit_toList,
    List.append_nil]

end Codebook

namespace Counter

/-- The counter as a block. -/
def block (counter : Nat) : Block := Endian.bigBytes 16 counter

/-- The counter at a byte offset: the given upper half, and the number of the offset's block. -/
def start (upper : UInt64) (offset : Nat) : Nat := upper.toNat * UInt64.size + offset / 16

/-- Adds the key stream of `count` blocks. -/
def applyBlocks (c : BlockCipher) : (counter count : Nat) → List UInt8 → List UInt8
  | _, 0, _ => []
  | counter, count + 1, bytes =>
    List.zipWith (· ^^^ ·) (bytes.take 16) (c.encrypt (block counter)).toList
      ++ applyBlocks c (counter + 1) count (bytes.drop 16)

/-- Adds the key stream that begins with a counter. -/
def apply (c : BlockCipher) (counter : Nat) (bytes : List UInt8) : List UInt8 :=
  applyBlocks c counter ((bytes.length + 15) / 16) bytes

@[simp] theorem length_applyBlocks (c : BlockCipher) (counter count : Nat) (bytes : List UInt8)
    (h : bytes.length ≤ 16 * count) : (applyBlocks c counter count bytes).length = bytes.length := by
  induction count generalizing counter bytes with
  | zero => simp_all [applyBlocks]
  | succ count ih =>
    rw [applyBlocks, List.length_append, ih _ _ (by simp; omega)]
    simp
    omega

@[simp] theorem length_apply (c : BlockCipher) (counter : Nat) (bytes : List UInt8) :
    (apply c counter bytes).length = bytes.length :=
  length_applyBlocks c counter _ bytes (by omega)

end Counter

end Cartridge
