/-!
# Hexadecimal text

Bytes are written as two digits each, numbers as the digits they need. Reading accepts both cases
and refuses an odd count of digits.

* `decode?_encode`: reading what was written gives the bytes back.
-/

namespace Cartridge.Hex

/-- The lower-case digit of a number below sixteen. -/
def digit (n : Nat) : Char :=
  if n < 10 then Char.ofNat (0x30 + n) else Char.ofNat (0x57 + n)

/-- The value of a digit of either case. -/
def value? (c : Char) : Option Nat :=
  let n := c.toNat
  if 0x30 ≤ n ∧ n ≤ 0x39 then some (n - 0x30)
  else if 0x41 ≤ n ∧ n ≤ 0x46 then some (n - 0x37)
  else if 0x61 ≤ n ∧ n ≤ 0x66 then some (n - 0x57)
  else none

/-- Whether a character is a hexadecimal digit of either case. -/
def isDigit (c : Char) : Bool := (value? c).isSome

/-- The two digits of a byte. -/
def byte (b : UInt8) : List Char := [digit (b.toNat / 16), digit (b.toNat % 16)]

/-- Two lower-case digits for each byte. -/
def encodeChars (bytes : List UInt8) : List Char := bytes.flatMap byte

/-- Two lower-case digits for each byte, as text. -/
def encode (bytes : List UInt8) : String := String.ofList (encodeChars bytes)

/-- Two upper-case digits for each byte, as text. -/
def encodeUpper (bytes : List UInt8) : String :=
  String.ofList ((encodeChars bytes).map Char.toUpper)

/-- The bytes written by pairs of digits; none if a digit is missing or no digit. -/
def decode? : List Char → Option (List UInt8)
  | [] => some []
  | [_] => none
  | high :: low :: rest =>
    match value? high, value? low, decode? rest with
    | some h, some l, some bytes => some (UInt8.ofNat (16 * h + l) :: bytes)
    | _, _, _ => none

/-- The fewest lower-case digits of a number, behind `0x`. -/
def number (n : Nat) : String := "0x" ++ String.ofList (Nat.toDigits 16 n)

/-- The lower-case digits of a number, at least `width` of them. -/
def padded (width n : Nat) : String :=
  String.ofList ((Nat.toDigits 16 n).leftpad width '0')

/-- The upper-case digits of a number, at least `width` of them. -/
def paddedUpper (width n : Nat) : String :=
  String.ofList (((Nat.toDigits 16 n).map Char.toUpper).leftpad width '0')

/-- Bytes in brackets, each as two upper-case digits. -/
def bracketed (bytes : List UInt8) : String :=
  "[" ++ ", ".intercalate (bytes.map fun b => encodeUpper [b]) ++ "]"

theorem value?_digit : ∀ n : Fin 16, value? (digit n) = some n.val := by decide

theorem decode?_encodeChars (bytes : List UInt8) : decode? (encodeChars bytes) = some bytes := by
  induction bytes with
  | nil => rfl
  | cons b rest ih =>
    have hb := b.toNat_lt
    have high := value?_digit ⟨b.toNat / 16, by omega⟩
    have low := value?_digit ⟨b.toNat % 16, by omega⟩
    have hsum : UInt8.ofNat (16 * (b.toNat / 16) + b.toNat % 16) = b := by
      rw [Nat.div_add_mod]
      exact UInt8.ofNat_toNat
    simp only [encodeChars, byte, List.flatMap_cons, List.cons_append, List.nil_append] at ih ⊢
    simp only [decode?, high, low, ih, hsum]

theorem decode?_encode (bytes : List UInt8) : decode? (encode bytes).toList = some bytes := by
  simp [encode, decode?_encodeChars]

end Cartridge.Hex
