/-!
# UTF-8

Texts are written as one to four bytes for each character. Reading tells where the text stops being
valid: at the first byte of the sequence that fails, after the longest part of it that could still
have become a character.

A sequence is read with the bounds of its next byte at hand. They are `80..BF` except for the second
byte after `E0`, `ED`, `F0` and `F4`, which keeps out overlong forms, surrogates and values above
`10FFFF`.
-/

namespace Cartridge.Utf8

/-- Where and how a byte string stops being UTF-8. -/
inductive Fault where
  /-- The `count` bytes from `start` on could begin a character, but the next byte cannot go on. -/
  | invalid (start count : Nat)
  /-- The input ends inside the sequence that begins at `start`. -/
  | incomplete (start : Nat)
deriving DecidableEq, Repr

/-- What the fault is, in words. -/
def Fault.message : Fault → String
  | .invalid start count => s!"invalid utf-8 sequence of {count} bytes from index {start}"
  | .incomplete start => s!"incomplete utf-8 byte sequence from index {start}"

/-- A sequence whose first bytes have been read. -/
structure Pending where
  /-- Continuation bytes still to come, at least one. -/
  owed : Nat
  /-- Least value of the next byte. -/
  low : Nat
  /-- Greatest value of the next byte. -/
  high : Nat
  /-- The bits read so far. -/
  bits : Nat
  /-- The bytes read so far. -/
  read : Nat

/-- What a byte above `7F` begins, if it can begin anything. -/
def lead? (b : Nat) : Option Pending :=
  if 0xC2 ≤ b ∧ b ≤ 0xDF then some ⟨1, 0x80, 0xBF, b - 0xC0, 1⟩
  else if b = 0xE0 then some ⟨2, 0xA0, 0xBF, 0, 1⟩
  else if b = 0xED then some ⟨2, 0x80, 0x9F, 0xD, 1⟩
  else if 0xE1 ≤ b ∧ b ≤ 0xEF then some ⟨2, 0x80, 0xBF, b - 0xE0, 1⟩
  else if b = 0xF0 then some ⟨3, 0x90, 0xBF, 0, 1⟩
  else if 0xF1 ≤ b ∧ b ≤ 0xF3 then some ⟨3, 0x80, 0xBF, b - 0xF0, 1⟩
  else if b = 0xF4 then some ⟨3, 0x80, 0x8F, 4, 1⟩
  else none

/-- Reads characters from the byte at `start` on; a pending sequence began at `start`. -/
def scan (start : Nat) : Option Pending → List UInt8 → Except Fault (List Char)
  | none, [] => .ok []
  | some _, [] => .error (.incomplete start)
  | none, b :: rest =>
    if b.toNat < 0x80 then (scan (start + 1) none rest).map (Char.ofNat b.toNat :: ·)
    else match lead? b.toNat with
      | some p => scan start (some p) rest
      | none => .error (.invalid start 1)
  | some p, b :: rest =>
    if p.low ≤ b.toNat ∧ b.toNat ≤ p.high then
      let bits := 64 * p.bits + (b.toNat - 0x80)
      if p.owed ≤ 1 then (scan (start + p.read + 1) none rest).map (Char.ofNat bits :: ·)
      else scan start (some ⟨p.owed - 1, 0x80, 0xBF, bits, p.read + 1⟩) rest
    else .error (.invalid start p.read)

/-- The characters of a byte string, or where it stops being UTF-8. -/
def decodeChars (bytes : List UInt8) : Except Fault (List Char) := scan 0 none bytes

/-- The text of a byte string, or where it stops being UTF-8. -/
def decode (bytes : List UInt8) : Except Fault String := (decodeChars bytes).map String.ofList

/-- The bytes of one character. -/
def encodeChar (c : Char) : List UInt8 :=
  let n := c.toNat
  if n < 0x80 then [UInt8.ofNat n]
  else if n < 0x800 then [UInt8.ofNat (0xC0 + n / 64), UInt8.ofNat (0x80 + n % 64)]
  else if n < 0x10000 then
    [UInt8.ofNat (0xE0 + n / 4096), UInt8.ofNat (0x80 + n / 64 % 64), UInt8.ofNat (0x80 + n % 64)]
  else
    [UInt8.ofNat (0xF0 + n / 262144), UInt8.ofNat (0x80 + n / 4096 % 64),
      UInt8.ofNat (0x80 + n / 64 % 64), UInt8.ofNat (0x80 + n % 64)]

/-- The bytes of a text. -/
def encode (text : String) : List UInt8 := text.toList.flatMap encodeChar

end Cartridge.Utf8
