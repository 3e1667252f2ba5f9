import Cartridge.Bytes.Endian

/-!
# SHA-256

The hash of FIPS 180-4. A message is padded to whole blocks of sixteen words; each block is mixed
into eight chaining words by sixty-four rounds, whose message words follow the schedule's recurrence.
-/

namespace Cartridge.Sha256

/-- The eight chaining words. -/
structure Chain where
  a : UInt32
  b : UInt32
  c : UInt32
  d : UInt32
  e : UInt32
  f : UInt32
  g : UInt32
  h : UInt32

/-- The words that a hash starts from. -/
def initial : Chain :=
  ⟨0x6A09E667, 0xBB67AE85, 0x3C6EF372, 0xA54FF53A, 0x510E527F, 0x9B05688C, 0x1F83D9AB, 0x5BE0CD19⟩

/-- The constants of the rounds. -/
def roundConstants : List UInt32 :=
  [0x428A2F98, 0x71374491, 0xB5C0FBCF, 0xE9B5DBA5, 0x3956C25B, 0x59F111F1, 0x923F82A4, 0xAB1C5ED5,
    0xD807AA98, 0x12835B01, 0x243185BE, 0x550C7DC3, 0x72BE5D74, 0x80DEB1FE, 0x9BDC06A7, 0xC19BF174,
    0xE49B69C1, 0xEFBE4786, 0x0FC19DC6, 0x240CA1CC, 0x2DE92C6F, 0x4A7484AA, 0x5CB0A9DC, 0x76F988DA,
    0x983E5152, 0xA831C66D, 0xB00327C8, 0xBF597FC7, 0xC6E00BF3, 0xD5A79147, 0x06CA6351, 0x14292967,
    0x27B70A85, 0x2E1B2138, 0x4D2C6DFC, 0x53380D13, 0x650A7354, 0x766A0ABB, 0x81C2C92E, 0x92722C85,
    0xA2BFE8A1, 0xA81A664B, 0xC24B8B70, 0xC76C51A3, 0xD192E819, 0xD6990624, 0xF40E3585, 0x106AA070,
    0x19A4C116, 0x1E376C08, 0x2748774C, 0x34B0BCB5, 0x391C0CB3, 0x4ED8AA4A, 0x5B9CCA4F, 0x682E6FF3,
    0x748F82EE, 0x78A5636F, 0x84C87814, 0x8CC70208, 0x90BEFFFA, 0xA4506CEB, 0xBEF9A3F7, 0xC67178F2]

/-- Rotates a word to the right. -/
def rotateRight (w n : UInt32) : UInt32 := (w >>> n) ||| (w <<< (32 - n))

/-- The word that follows sixteen words of the message schedule. -/
def nextWord (window : List UInt32) : UInt32 :=
  let early := window.getD 1 0
  let late := window.getD 14 0
  let sigma0 := rotateRight early 7 ^^^ rotateRight early 18 ^^^ (early >>> 3)
  let sigma1 := rotateRight late 17 ^^^ rotateRight late 19 ^^^ (late >>> 10)
  window.getD 0 0 + sigma0 + window.getD 9 0 + sigma1

/-- One round, with the sum of its constant and its message word. -/
def round (s : Chain) (addend : UInt32) : Chain :=
  let sum1 := rotateRight s.e 6 ^^^ rotateRight s.e 11 ^^^ rotateRight s.e 25
  let choice := (s.e &&& s.f) ^^^ (~~~s.e &&& s.g)
  let sum0 := rotateRight s.a 2 ^^^ rotateRight s.a 13 ^^^ rotateRight s.a 22
  let majority := (s.a &&& s.b) ^^^ (s.a &&& s.c) ^^^ (s.b &&& s.c)
  let t := s.h + sum1 + choice + addend
  ⟨t + (sum0 + majority), s.a, s.b, s.c, s.d + t, s.e, s.f, s.g⟩

/-- The rounds with the given constants; the window holds the next sixteen message words. -/
def rounds : List UInt32 → List UInt32 → Chain → Chain
  | [], _, s => s
  | constant :: rest, window, s =>
    rounds rest (window.drop 1 ++ [nextWord window]) (round s (constant + window.getD 0 0))

/-- Mixes the sixteen words of a block into the chaining words. -/
def compress (s : Chain) (words : List UInt32) : Chain :=
  let t := rounds roundConstants words s
  ⟨s.a + t.a, s.b + t.b, s.c + t.c, s.d + t.d, s.e + t.e, s.f + t.f, s.g + t.g, s.h + t.h⟩

/-- The first `count` big-endian words of a byte string. -/
def words : (count : Nat) → List UInt8 → List UInt32
  | 0, _ => []
  | count + 1, bytes => UInt32.ofNat (Endian.ofBig (bytes.take 4)) :: words count (bytes.drop 4)

/-- Mixes `count` blocks into the chaining words. -/
def compressBlocks : (count : Nat) → List UInt8 → Chain → Chain
  | 0, _, s => s
  | count + 1, bytes, s => compressBlocks count (bytes.drop 64) (compress s (words 16 bytes))

/-- A message with the marker bit, the zeros and the length in bits that fill up its last block. -/
def pad (message : List UInt8) : List UInt8 :=
  message ++ 0x80 :: List.replicate ((119 - message.length % 64) % 64) 0
    ++ Endian.big 8 (8 * message.length)

/-- The bytes of the chaining words. -/
def Chain.bytes (s : Chain) : Bytes 32 :=
  ⟨[s.a, s.b, s.c, s.d, s.e, s.f, s.g, s.h].flatMap fun w => Endian.big 4 w.toNat, by simp⟩

/-- The hash of a message. -/
def hash (message : List UInt8) : Bytes 32 :=
  let padded := pad message
  (compressBlocks (padded.length / 64) padded initial).bytes

end Cartridge.Sha256
