import Cartridge.Bytes

/-!
# Block ciphers

A block cipher with its key: a map on blocks of sixteen bytes and the map that undoes it. The modes
of operation are defined for any of them.
-/

namespace Cartridge

/-- Sixteen bytes. -/
abbrev Block := Bytes 16

/-- Encryption and decryption of single blocks under one key. -/
structure BlockCipher where
  encrypt : Block → Block
  decrypt : Block → Block
  decrypt_encrypt : ∀ b, decrypt (encrypt b) = b

end Cartridge
