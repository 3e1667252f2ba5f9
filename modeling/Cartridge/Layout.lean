import Cartridge.Bytes.Endian
import Cartridge.Error

/-!
# Fixed layouts

A layout says how the values of a type are written as bytes, field behind field: byte strings and
little-endian words of fixed width, bytes that stand for one of finitely many values, and literal
bytes. One description gives the size, the encoding and the decoding.

Decoding takes the fields from a source in order and stops at the first one that is not there or is
not right, so of two problems in an input the one that comes first is reported.

* `Layout.length_encode`: every value of a layout takes the same number of bytes.
* `Layout.decode_encode`: decoding the encoding of a value gives the value.
-/

namespace Cartridge

/-- Where fields are taken from: the bytes at a position, or why they cannot be read. -/
abbrev Source := (position length : Nat) → Except StreamFailure (List UInt8)

/-- The bytes of a byte string, which end where it ends. -/
def Source.ofBytes (bytes : List UInt8) : Source := fun position length =>
  match slice? bytes position length with
  | some part => .ok part
  | none => .error (.ended "failed to fill whole buffer")

/-- How the values of a type are laid out in bytes. -/
inductive Layout : Type → Type 1 where
  /-- A byte string. -/
  | bytes (n : Nat) : Layout (Bytes n)
  | word8 : Layout UInt8
  | word16 : Layout UInt16
  | word32 : Layout UInt32
  | word64 : Layout UInt64
  /-- A byte that stands for a value. -/
  | tag {α : Type} (ofByte? : UInt8 → Option α) (toByte : α → UInt8)
      (ofByte?_toByte : ∀ a, ofByte? (toByte a) = some a)
      (toByte_of_ofByte? : ∀ b a, ofByte? b = some a → toByte a = b) : Layout α
  /-- Bytes that are always the same. -/
  | literal (magic : List UInt8) : Layout Unit
  /-- One layout behind another. -/
  | seq {α β : Type} (first : Layout α) (second : Layout β) : Layout (α × β)
  /-- The fields of a structure. -/
  | record {α β : Type} (build : α → β) (fields : β → α)
      (build_fields : ∀ b, build (fields b) = b) (fields_build : ∀ a, fields (build a) = a)
      (layout : Layout α) : Layout β

namespace Layout

/-- The number of bytes of every value. -/
def size {α : Type} : Layout α → Nat
  | bytes n => n
  | word8 => 1
  | word16 => 2
  | word32 => 4
  | word64 => 8
  | tag _ _ _ _ => 1
  | literal magic => magic.length
  | seq first second => first.size + second.size
  | record _ _ _ _ layout => layout.size

/-- The bytes of a value. -/
def encode {α : Type} : Layout α → α → List UInt8
  | bytes _, b => b.toList
  | word8, b => [b]
  | word16, w => Endian.bytes16 w
  | word32, w => Endian.bytes32 w
  | word64, w => Endian.bytes64 w
  | tag _ toByte _ _, a => [toByte a]
  | literal magic, _ => magic
  | seq first second, (a, b) => first.encode a ++ second.encode b
  | record _ fields _ _ layout, b => layout.encode (fields b)

/-- Takes a field from a source. -/
def take (source : Source) (position length : Nat) : Except Error (List UInt8) :=
  match source position length with
  | .ok field => .ok field
  | .error failure => .error failure.toStructureError

/-- Decodes the value at a position of a source. -/
def decodeAt (source : Source) {α : Type} : Layout α → (position : Nat) → Except Error α
  | bytes n, position => do
    let field ← take source position n
    return Bytes.fit n field
  | word8, position => do
    let field ← take source position 1
    return field.headD 0
  | word16, position => do
    let field ← take source position 2
    return Endian.word16 field
  | word32, position => do
    let field ← take source position 4
    return Endian.word32 field
  | word64, position => do
    let field ← take source position 8
    return Endian.word64 field
  | tag ofByte? _ _ _, position => do
    let field ← take source position 1
    match ofByte? (field.headD 0) with
    | some a => return a
    | none => throw (.invalidData (.unknownVariant position))
  | literal magic, position => do
    let field ← take source position magic.length
    if field = magic then return () else throw (.invalidData (.badMagic field position))
  | seq first second, position => do
    let a ← first.decodeAt source position
    let b ← second.decodeAt source (position + first.size)
    return (a, b)
  | record build _ _ _ layout, position => do
    let a ← layout.decodeAt source position
    return build a

/-- Decodes the value that a byte string begins with. -/
def decode {α : Type} (layout : Layout α) (input : List UInt8) : Except Error α :=
  layout.decodeAt (Source.ofBytes input) 0

/-- A byte that stands for one of the listed values. -/
def ofValues {α : Type} (values : List α) (toByte : α → UInt8)
    (h : ∀ a, (values.find? fun v => toByte v == toByte a) = some a) : Layout α :=
  .tag (fun b => values.find? fun v => toByte v == b) toByte h fun _ _ ha => by
    simpa using List.find?_some ha

/-- Four values of one layout. -/
def four {α : Type} (layout : Layout α) : Layout (Vector α 4) :=
  .record (fun (a, b, c, d) => #v[a, b, c, d]) (fun v => (v[0], v[1], v[2], v[3]))
    (fun v => by
      ext i hi
      match i, hi with
      | 0, _ => rfl
      | 1, _ => rfl
      | 2, _ => rfl
      | 3, _ => rfl)
    (fun _ => rfl) (.seq layout (.seq layout (.seq layout layout)))

/-- Six values of one layout. -/
def six {α : Type} (layout : Layout α) : Layout (Vector α 6) :=
  .record (fun (a, b, c, d, e, f) => #v[a, b, c, d, e, f])
    (fun v => (v[0], v[1], v[2], v[3], v[4], v[5]))
    (fun v => by
      ext i hi
      match i, hi with
      | 0, _ => rfl
      | 1, _ => rfl
      | 2, _ => rfl
      | 3, _ => rfl
      | 4, _ => rfl
      | 5, _ => rfl)
    (fun _ => rfl)
    (.seq layout (.seq layout (.seq layout (.seq layout (.seq layout layout)))))

/-! ## Laws -/

@[simp] theorem length_encode {α : Type} (layout : Layout α) (a : α) :
    (layout.encode a).length = layout.size := by
  induction layout with
  | bytes n => exact a.length_toList
  | word8 => rfl
  | word16 => exact Endian.length_little 2 _
  | word32 => exact Endian.length_little 4 _
  | word64 => exact Endian.length_little 8 _
  | tag => rfl
  | literal => rfl
  | seq first second ih₁ ih₂ => simp [encode, size, ih₁, ih₂]
  | record build fields _ _ layout ih => exact ih (fields a)

theorem take_append (front field back : List UInt8) :
    take (Source.ofBytes (front ++ field ++ back)) front.length field.length = .ok field := by
  simp [take, Source.ofBytes, slice?]

/-- A value is found where it was written, whatever is around it. -/
theorem decodeAt_append {α : Type} (layout : Layout α) (a : α) (front back : List UInt8) :
    layout.decodeAt (Source.ofBytes (front ++ layout.encode a ++ back)) front.length = .ok a := by
  induction layout generalizing front back with
  | bytes n =>
    have h := take_append front a.toList back
    rw [a.length_toList] at h
    simp only [decodeAt, encode, h, bind, Except.bind, pure, Except.pure, Bytes.fit_toList]
  | word8 =>
    have h : take _ _ 1 = _ := take_append front [a] back
    simp only [decodeAt, encode, h, bind, Except.bind, pure, Except.pure, List.headD_cons]
  | word16 =>
    have h := take_append front (Endian.bytes16 a) back
    rw [show (Endian.bytes16 a).length = 2 from Endian.length_little 2 _] at h
    simp only [decodeAt, encode, h, bind, Except.bind, pure, Except.pure, Endian.word16_bytes16]
  | word32 =>
    have h := take_append front (Endian.bytes32 a) back
    rw [show (Endian.bytes32 a).length = 4 from Endian.length_little 4 _] at h
    simp only [decodeAt, encode, h, bind, Except.bind, pure, Except.pure, Endian.word32_bytes32]
  | word64 =>
    have h := take_append front (Endian.bytes64 a) back
    rw [show (Endian.bytes64 a).length = 8 from Endian.length_little 8 _] at h
    simp only [decodeAt, encode, h, bind, Except.bind, pure, Except.pure, Endian.word64_bytes64]
  | tag ofByte? toByte law _ =>
    have h : take _ _ 1 = _ := take_append front [toByte a] back
    simp only [decodeAt, encode, h, bind, Except.bind, pure, Except.pure, List.headD_cons, law]
  | literal magic =>
    simp only [decodeAt, encode, take_append, bind, Except.bind, pure, Except.pure, if_true]
  | seq first second ih₁ ih₂ =>
    obtain ⟨a, b⟩ := a
    have h₁ := ih₁ a front (second.encode b ++ back)
    have h₂ := ih₂ b (front ++ first.encode a) back
    simp only [List.length_append, length_encode] at h₂
    simp only [← List.append_assoc] at h₁ h₂
    simp only [decodeAt, encode, ← List.append_assoc, h₁, h₂, bind, Except.bind, pure, Except.pure]
  | record build fields law _ layout ih =>
    simp only [decodeAt, encode, ih, law, bind, Except.bind, pure, Except.pure]

theorem decode_encode {α : Type} (layout : Layout α) (a : α) (back : List UInt8) :
    layout.decode (layout.encode a ++ back) = .ok a :=
  layout.decodeAt_append a [] back

end Layout

end Cartridge
