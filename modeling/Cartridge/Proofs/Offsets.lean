import Cartridge.Proofs.Decoding

/-!
# Fields at fixed offsets

A layout is built from nested parts, and says nothing of offsets. Read from left to right it gives two
flat lists: the fields of a value, each with its offset and what stands there, and the checks that an
input has to pass, where bytes stand for one of a few values or are always the same. The two lists say
all that there is to say about decoding: it gives the value whose fields stand in the input, it
succeeds where the input has the full size and passes the checks, and it reports the first problem
where it does not.

* `Layout.decodeAt_eq_ok_iff_fields`: what a value of the layout has to do with the bytes.
* `Layout.decodeAt_eq_error_iff`: what is reported where there is no value.
* `Layout.decodesAs`: a layout is decoded as its size, its checks and its fields say.
-/

namespace Cartridge

/-! ## Fields -/

/-- What stands at an offset of a structure. -/
inductive Field where
  /-- A byte string. -/
  | raw (offset : Nat) (bytes : List UInt8)
  /-- A number, least significant byte first. -/
  | number (offset width value : Nat)

/-- The input has at the offset what the field says. -/
def Field.Holds (input : List UInt8) : Field → Prop
  | raw offset bytes => slice input offset bytes.length = bytes
  | number offset width value => Endian.ofLittle (slice input offset width) = value

/-- Bytes are those of a number if they are read as the number. -/
theorem Endian.little_eq_iff {field : List UInt8} {width n : Nat} (hlen : field.length = width)
    (hn : n < capacity width) : field = little width n ↔ ofLittle field = n := by
  subst hlen
  constructor
  · intro h
    rw [h, ofLittle_little]
    exact Nat.mod_eq_of_lt hn
  · rintro rfl
    exact (little_ofLittle field).symm

namespace Layout

variable {α : Type} {input : List UInt8} {position : Nat}

/-- The fields of a value that begins at a position. -/
def fields {α : Type} : Layout α → (position : Nat) → α → List Field
  | bytes _, position, b => [.raw position b.toList]
  | word8, position, b => [.number position 1 b.toNat]
  | word16, position, w => [.number position 2 w.toNat]
  | word32, position, w => [.number position 4 w.toNat]
  | word64, position, w => [.number position 8 w.toNat]
  | tag _ toByte _ _, position, a => [.number position 1 (toByte a).toNat]
  | literal magic, position, _ => [.raw position magic]
  | seq first second, position, (a, b) =>
    first.fields position a ++ second.fields (position + first.size) b
  | record _ fields _ _ layout, position, b => layout.fields position (fields b)

/-- A byte string in an input. -/
theorem slice?_eq_some_raw_iff {field : List UInt8} {n : Nat} (hlen : field.length = n) :
    slice? input position n = some field ↔
      position + n ≤ input.length ∧ ∀ f ∈ [Field.raw position field], f.Holds input := by
  rw [slice?_eq_some_iff, List.forall_mem_singleton, Field.Holds, hlen]
  exact and_congr_right fun _ => eq_comm

/-- A number in an input. -/
theorem slice?_eq_some_little_iff {width n : Nat} (hn : n < Endian.capacity width) :
    slice? input position width = some (Endian.little width n) ↔
      position + width ≤ input.length ∧ ∀ f ∈ [Field.number position width n], f.Holds input := by
  rw [slice?_eq_some_iff, List.forall_mem_singleton, Field.Holds]
  refine and_congr_right fun hle => ?_
  rw [eq_comm]
  exact Endian.little_eq_iff (length_slice hle) hn

/-- The byte of a value is the number that it is. -/
theorem slice?_eq_some_byte_iff {b : UInt8} :
    slice? input position 1 = some [b] ↔
      position + 1 ≤ input.length ∧ ∀ f ∈ [Field.number position 1 b.toNat], f.Holds input := by
  have hbyte : [b] = Endian.little 1 b.toNat := by
    rw [Endian.little, Endian.little, UInt8.ofNat_toNat]
  rw [hbyte]
  exact slice?_eq_some_little_iff b.toNat_lt

/-- The bytes of a value are its fields, one behind the other. -/
theorem slice?_eq_some_encode_iff (layout : Layout α) {a : α} :
    slice? input position layout.size = some (layout.encode a) ↔
      position + layout.size ≤ input.length ∧ ∀ f ∈ layout.fields position a, f.Holds input := by
  induction layout generalizing position with
  | bytes n => exact slice?_eq_some_raw_iff a.length_toList
  | word8 | tag => exact slice?_eq_some_byte_iff
  | word16 | word32 | word64 => exact slice?_eq_some_little_iff a.toNat_lt
  | literal magic => exact slice?_eq_some_raw_iff rfl
  | seq first second ih₁ ih₂ =>
    obtain ⟨a, b⟩ := a
    rw [size, encode, slice?_append_eq_some_iff (length_encode first a), ih₁, ih₂, fields,
      List.forall_mem_append]
    constructor
    · rintro ⟨⟨-, hfirst⟩, hle, hsecond⟩
      exact ⟨by omega, hfirst, hsecond⟩
    · rintro ⟨hle, hfirst, hsecond⟩
      exact ⟨⟨by omega, hfirst⟩, by omega, hsecond⟩
  | record _ _ _ _ layout ih => exact ih

/-- **The value that is decoded is the one whose fields stand in the input**, each at its offset. -/
theorem decodeAt_eq_ok_iff_fields (layout : Layout α) {a : α} :
    layout.decodeAt (Source.ofBytes input) position = .ok a ↔
      position + layout.size ≤ input.length ∧ ∀ f ∈ layout.fields position a, f.Holds input := by
  rw [decodeAt_eq_ok_iff, slice?_eq_some_encode_iff]

end Layout

/-! ## Checks -/

/-- A place where the bytes of an input can be wrong. -/
inductive Check where
  /-- A byte that stands for a value. -/
  | variant (offset : Nat) (known : List UInt8)
  /-- Bytes that are always the same. -/
  | magic (offset : Nat) (expected : List UInt8)
deriving DecidableEq

namespace Check

/-- Where the bytes are. -/
def offset : Check → Nat
  | variant offset _ => offset
  | magic offset _ => offset

/-- What is wrong with the bytes, if the input goes as far as their end. -/
def fault? (input : List UInt8) : Check → Option DataFault
  | variant offset known =>
    match input[offset]? with
    | some b => if b ∈ known then none else some (.unknownVariant offset)
    | none => none
  | magic offset expected =>
    match slice? input offset expected.length with
    | some found => if found = expected then none else some (.badMagic found offset)
    | none => none

/-- Nothing is wrong with bytes that the input does not have. -/
theorem fault?_of_lt {c : Check} {input : List UInt8} (h : input.length < c.offset) :
    c.fault? input = none := by
  cases c with
  | variant offset known =>
    have h : input.length < offset := h
    rw [fault?, List.getElem?_eq_none (Nat.le_of_lt h)]
  | magic offset expected =>
    have h : input.length < offset := h
    rw [fault?, slice?, if_neg (by omega)]

/-- Bytes that the input has are right if they are the expected ones. -/
theorem fault?_magic_eq_none_iff {input expected : List UInt8} {offset : Nat}
    (hroom : offset + expected.length ≤ input.length) :
    (magic offset expected).fault? input = none ↔ slice input offset expected.length = expected := by
  rw [fault?, slice?_of_le hroom]
  exact ite_eq_left_iff.trans (by simp)

end Check

/-- The first problem of an input, in the order of its bytes: what the first failing check finds, and
without one the end of the input, if that comes too early. -/
def firstProblem? (size : Nat) (checks : List Check) (input : List UInt8) : Option Error :=
  match checks.findSome? (·.fault? input) with
  | some fault => some (.invalidData fault)
  | none => if input.length < size then some (.truncated .structureEnd) else none

theorem firstProblem?_nil {size : Nat} {input : List UInt8} :
    firstProblem? size [] input =
      if input.length < size then some (.truncated .structureEnd) else none := rfl

theorem firstProblem?_eq_none_iff {size : Nat} {checks : List Check} {input : List UInt8} :
    firstProblem? size checks input = none ↔
      size ≤ input.length ∧ ∀ c ∈ checks, c.fault? input = none := by
  rw [firstProblem?, ← List.findSome?_eq_none_iff]
  cases checks.findSome? (·.fault? input) with
  | some fault => simp
  | none => simp

/-- Checks behind a place find nothing where there is a problem in front of it. -/
theorem firstProblem?_append {size size' : Nat} {checks checks' : List Check} {input : List UInt8}
    (hle : size ≤ size') (hbehind : ∀ c ∈ checks', size ≤ c.offset) :
    firstProblem? size' (checks ++ checks') input =
      (firstProblem? size checks input).or (firstProblem? size' checks' input) := by
  unfold firstProblem?
  rw [List.findSome?_append]
  cases checks.findSome? (·.fault? input) with
  | some fault => rfl
  | none =>
    rw [Option.none_or]
    dsimp only
    by_cases hend : input.length < size
    · have hnothing : checks'.findSome? (·.fault? input) = none :=
        List.findSome?_eq_none_iff.mpr fun c hc =>
          Check.fault?_of_lt (Nat.lt_of_lt_of_le hend (hbehind c hc))
      rw [hnothing, if_pos hend]
      exact if_pos (Nat.lt_of_lt_of_le hend hle)
    · rw [if_neg hend, Option.none_or]

namespace Layout

variable {α : Type} {input : List UInt8} {position : Nat}

/-- The bytes that stand for values. -/
def knownBytes {α : Type} (ofByte? : UInt8 → Option α) : List UInt8 :=
  ((List.range 256).map UInt8.ofNat).filter fun b => (ofByte? b).isSome

/-- The checks that a value that begins at a position has to pass. -/
def checks {α : Type} : Layout α → (position : Nat) → List Check
  | tag ofByte? _ _ _, position => [.variant position (knownBytes ofByte?)]
  | literal magic, position => [.magic position magic]
  | seq first second, position => first.checks position ++ second.checks (position + first.size)
  | record _ _ _ _ layout, position => layout.checks position
  | bytes _, _ | word8, _ | word16, _ | word32, _ | word64, _ => []

theorem mem_knownBytes {ofByte? : UInt8 → Option α} {b : UInt8} :
    b ∈ knownBytes ofByte? ↔ ∃ a, ofByte? b = some a := by
  rw [knownBytes, List.mem_filter, Option.isSome_iff_exists]
  refine and_iff_right (List.mem_map.mpr ⟨b.toNat, ?_, UInt8.ofNat_toNat⟩)
  exact List.mem_range.mpr b.toNat_lt

theorem le_offset_of_mem_checks {layout : Layout α} {c : Check} (hc : c ∈ layout.checks position) :
    position ≤ c.offset := by
  induction layout generalizing position with
  | bytes | word8 | word16 | word32 | word64 => cases hc
  | tag | literal =>
    cases List.mem_singleton.mp hc
    exact Nat.le_refl _
  | seq first second ih₁ ih₂ =>
    obtain hc | hc := List.mem_append.mp hc
    · exact ih₁ hc
    · exact Nat.le_of_add_right_le (ih₂ hc)
  | record _ _ _ _ layout ih => exact ih hc

/-- A field that is read whatever its bytes are. -/
theorem take_bind_eq_error_iff {β : Type} {read : List UInt8 → β} {n : Nat} {e : Error} :
    (do
      let field ← take (Source.ofBytes input) position n
      return read field) = .error e ↔ firstProblem? (position + n) [] input = some e := by
  rw [firstProblem?_nil]
  by_cases hend : input.length < position + n
  · rw [take_of_lt hend, if_pos hend, error_bind, Except.error.injEq, Option.some.injEq]
  · rw [take_ofBytes_of_le (Nat.le_of_not_lt hend), if_neg hend, ok_bind]
    exact iff_of_false nofun nofun

/-- A computation that fails with what is found, and only then, succeeds where nothing is found. -/
theorem exists_eq_ok_iff_of_error {β : Type} {x : Except Error β} {problem? : Option Error}
    (h : ∀ e, x = .error e ↔ problem? = some e) : (∃ b, x = .ok b) ↔ problem? = none := by
  rw [Option.eq_none_iff_forall_ne_some]
  constructor
  · rintro ⟨b, rfl⟩ e hproblem
    cases (h e).mpr hproblem
  · intro hnone
    cases x with
    | error e => exact absurd ((h e).mp rfl) (hnone e)
    | ok b => exact ⟨b, rfl⟩

/-- **What is reported is the first problem of the input.** -/
theorem decodeAt_eq_error_iff (layout : Layout α) {e : Error} :
    layout.decodeAt (Source.ofBytes input) position = .error e ↔
      firstProblem? (position + layout.size) (layout.checks position) input = some e := by
  induction layout generalizing position e with
  | bytes | word8 | word16 | word32 | word64 => exact take_bind_eq_error_iff
  | tag ofByte? =>
    rw [decodeAt, checks, firstProblem?, List.findSome?_singleton, Check.fault?, size]
    cases hb : input[position]? with
    | none =>
      have hend : input.length < position + 1 :=
        Nat.lt_succ_of_le (List.getElem?_eq_none_iff.mp hb)
      rw [take_of_lt hend]
      simp only [error_bind, if_pos hend, Except.error.injEq, Option.some.injEq]
    | some b =>
      have hroom : ¬ input.length < position + 1 :=
        Nat.not_lt.mpr (List.getElem?_eq_some_iff.mp hb).1
      rw [take_one hb, ok_bind, List.headD_cons]
      cases hvalue : ofByte? b with
      | none => simp [mem_knownBytes, hvalue, throw, throwThe, MonadExceptOf.throw]
      | some a => simp [mem_knownBytes, hvalue, hroom, pure, Except.pure]
  | literal magic =>
    rw [decodeAt, checks, firstProblem?, List.findSome?_singleton, Check.fault?, size]
    by_cases hend : input.length < position + magic.length
    · have hnone : slice? input position magic.length = none := if_neg (Nat.not_le.mpr hend)
      rw [take_of_lt hend, hnone]
      simp only [error_bind, if_pos hend, Except.error.injEq, Option.some.injEq]
    · have hroom := Nat.le_of_not_lt hend
      rw [take_ofBytes_of_le hroom, slice?_of_le hroom, ok_bind]
      by_cases hmagic : slice input position magic.length = magic
      · simp [hmagic, hend, pure, Except.pure]
      · simp [hmagic, throw, throwThe, MonadExceptOf.throw]
  | seq first second ih₁ ih₂ =>
    have hfirst := exists_eq_ok_iff_of_error fun e => @ih₁ position e
    -- An input that ends in the first part has nothing for the checks of the second one.
    rw [decodeAt_seq_eq_error_iff, checks, size, ← Nat.add_assoc,
      firstProblem?_append (Nat.le_add_right _ _) fun c hc => le_offset_of_mem_checks hc,
      Option.or_eq_some_iff, ih₁, ih₂, exists_and_right, hfirst]
  | record build fields _ _ layout ih =>
    rw [decodeAt_record_eq_error_iff, ih]
    rfl

/-- The layout is that of a structure of this size, with these checks of an input and these fields of
a value. -/
structure DecodesAs (layout : Layout α) (size : Nat) (checks : List Check)
    (fields : α → List Field) : Prop where
  /-- A value is decoded if an input of the full size has its fields at their offsets. -/
  decode_eq_ok_iff (input : List UInt8) (a : α) : layout.decode input = .ok a ↔
    size ≤ input.length ∧ ∀ f ∈ fields a, f.Holds input
  /-- An input can be decoded if it has the full size and passes the checks. -/
  exists_decode_iff (input : List UInt8) : (∃ a, layout.decode input = .ok a) ↔
    size ≤ input.length ∧ ∀ c ∈ checks, c.fault? input = none
  /-- Any other input is refused for its first problem. -/
  decode_eq_error_iff (input : List UInt8) (e : Error) : layout.decode input = .error e ↔
    firstProblem? size checks input = some e
  /-- Every value is decoded from its own bytes, whatever is behind them. -/
  decode_encode (a : α) (back : List UInt8) : layout.decode (layout.encode a ++ back) = .ok a

/-- **A layout is read off its lists**: the size, the checks and the fields. -/
theorem decodesAs {layout : Layout α} {size : Nat} {checks : List Check} {fields : α → List Field}
    (hsize : layout.size = size) (hchecks : layout.checks 0 = checks)
    (hfields : ∀ a, layout.fields 0 a = fields a) : layout.DecodesAs size checks fields := by
  subst hsize hchecks
  have herror (input : List UInt8) (e : Error) : layout.decode input = .error e ↔
      firstProblem? layout.size (layout.checks 0) input = some e := by
    rw [decode, decodeAt_eq_error_iff, Nat.zero_add]
  refine ⟨fun input a => ?_, fun input => ?_, herror, layout.decode_encode⟩
  · rw [decode, decodeAt_eq_ok_iff_fields, Nat.zero_add, hfields]
  · rw [exists_eq_ok_iff_of_error (herror input), firstProblem?_eq_none_iff]

end Layout

end Cartridge
