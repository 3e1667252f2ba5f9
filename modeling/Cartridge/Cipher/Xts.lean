import Cartridge.Bytes.Endian
import Cartridge.Cipher.Block

/-!
# XTS

The XEX-based mode with ciphertext stealing, over two block ciphers. An area is cut into sectors of
one size, the last of which may be shorter. Each sector starts from its number, written as sixteen
big-endian bytes and encrypted; the tweak doubles from block to block. Where the sector is no
multiple of sixteen bytes its last whole block and the bytes behind it share their ciphertext.

A sector below sixteen bytes has nothing to steal from and is left as it is.
-/

namespace Cartridge

/-- The two ciphers of the mode: one for the data, one for the tweaks. -/
structure Xts where
  data : BlockCipher
  tweak : BlockCipher

namespace Xts

/-! ## Tweaks -/

/-- The bytes of twice a little-endian number, given the carry into the lowest bit, and the carry
out of the highest. -/
def shiftUp (carry : UInt8) : List UInt8 → List UInt8 × UInt8
  | [] => ([], carry)
  | b :: rest =>
    let (high, out) := shiftUp (b >>> 7) rest
    ((b <<< 1 ||| carry) :: high, out)

@[simp] theorem length_shiftUp (carry : UInt8) (bytes : List UInt8) :
    (shiftUp carry bytes).1.length = bytes.length := by
  induction bytes generalizing carry with
  | nil => rfl
  | cons b rest ih => simp [shiftUp, ih]

/-- Adds a byte to the lowest one. -/
def addLowest (b : UInt8) : List UInt8 → List UInt8
  | [] => []
  | lowest :: rest => (lowest ^^^ b) :: rest

@[simp] theorem length_addLowest (b : UInt8) (bytes : List UInt8) :
    (addLowest b bytes).length = bytes.length := by
  cases bytes <;> rfl

/-- Twice a block as an element of GF(2¹²⁸) with its lowest byte first, modulo
`x¹²⁸ + x⁷ + x² + x + 1`. -/
def double (t : Block) : Block :=
  let shifted := shiftUp 0 t.toList
  ⟨addLowest (if shifted.2 = 0 then 0 else 0x87) shifted.1, by simp [shifted]⟩

/-- The number of a sector as sixteen big-endian bytes. -/
def sectorTweak (sector : Nat) : Block := Endian.bigBytes 16 sector

/-! ## Blocks and sectors -/

/-- Encrypts a block under a tweak. -/
def encryptBlock (c : BlockCipher) (t b : Block) : Block := (c.encrypt (b.xor t)).xor t

/-- Decrypts a block under a tweak. -/
def decryptBlock (c : BlockCipher) (t b : Block) : Block := (c.decrypt (b.xor t)).xor t

/-- Encrypts a block and the fewer than sixteen bytes behind it. The block's ciphertext gives its
first bytes to the end and its other bytes to fill up the plaintext that is left. -/
def encryptStealing (c : BlockCipher) (t : Block) (bytes : List UInt8) : List UInt8 :=
  let whole := (encryptBlock c t (Bytes.fit 16 bytes)).toList
  let rest := bytes.drop 16
  (encryptBlock c (double t) (Bytes.fit 16 (rest ++ whole.drop rest.length))).toList
    ++ whole.take rest.length

/-- Decrypts a block and the fewer than sixteen bytes behind it. -/
def decryptStealing (c : BlockCipher) (t : Block) (bytes : List UInt8) : List UInt8 :=
  let whole := (decryptBlock c (double t) (Bytes.fit 16 bytes)).toList
  let rest := bytes.drop 16
  (decryptBlock c t (Bytes.fit 16 (rest ++ whole.drop rest.length))).toList
    ++ whole.take rest.length

/-- The number of blocks in front of those that share their ciphertext. -/
def leadingBlocks (length : Nat) : Nat := if length % 16 = 0 then length / 16 else length / 16 - 1

/-- Encrypts as many leading blocks as given, then the rest. -/
def encryptBlocks (c : BlockCipher) : Block → Nat → List UInt8 → List UInt8
  | t, 0, bytes => if 16 < bytes.length then encryptStealing c t bytes else bytes
  | t, n + 1, bytes =>
    (encryptBlock c t (Bytes.fit 16 bytes)).toList ++ encryptBlocks c (double t) n (bytes.drop 16)

/-- Decrypts as many leading blocks as given, then the rest. -/
def decryptBlocks (c : BlockCipher) : Block → Nat → List UInt8 → List UInt8
  | t, 0, bytes => if 16 < bytes.length then decryptStealing c t bytes else bytes
  | t, n + 1, bytes =>
    (decryptBlock c t (Bytes.fit 16 bytes)).toList ++ decryptBlocks c (double t) n (bytes.drop 16)

/-- Encrypts the sector with the given number. -/
def encryptSector (x : Xts) (sector : Nat) (bytes : List UInt8) : List UInt8 :=
  encryptBlocks x.data (x.tweak.encrypt (sectorTweak sector)) (leadingBlocks bytes.length) bytes

/-- Decrypts the sector with the given number. -/
def decryptSector (x : Xts) (sector : Nat) (bytes : List UInt8) : List UInt8 :=
  decryptBlocks x.data (x.tweak.encrypt (sectorTweak sector)) (leadingBlocks bytes.length) bytes

/-! ## Areas -/

/-- Applies a function to each of `count` sectors and its number. -/
def mapSectors (f : Nat → List UInt8 → List UInt8) (size : Nat) :
    (count first : Nat) → List UInt8 → List UInt8
  | 0, _, _ => []
  | count + 1, first, bytes =>
    f first (bytes.take size) ++ mapSectors f size count (first + 1) (bytes.drop size)

/-- The number of sectors of an area, the last of which may be shorter. -/
def sectorCount (size length : Nat) : Nat := (length + (size - 1)) / size

/-- Encrypts consecutive sectors, numbered from `first`. -/
def encryptArea (x : Xts) (size first : Nat) (bytes : List UInt8) : List UInt8 :=
  mapSectors x.encryptSector size (sectorCount size bytes.length) first bytes

/-- Decrypts consecutive sectors, numbered from `first`. -/
def decryptArea (x : Xts) (size first : Nat) (bytes : List UInt8) : List UInt8 :=
  mapSectors x.decryptSector size (sectorCount size bytes.length) first bytes

end Xts

end Cartridge
