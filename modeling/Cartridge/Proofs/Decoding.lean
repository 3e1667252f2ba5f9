import Cartridge.Layout
import Cartridge.Traced

/-!
# Decoding fixed layouts

A layout's values have one written form each: decoding a byte string succeeds exactly where that form
lies at the position, and then gives the value. Whether the bytes come from a byte string or from
something else that gives the same bytes makes no difference.

Results:
* `Layout.decodeAt_eq_ok_iff`: decoding accepts exactly what encoding produces.
* `Layout.exists_decodeAt_iff`: where there is room, only the fields can rule out the bytes.
* `Layout.Plain.exists_encode`: where no field rules out any bytes, all bytes of the size are written
  forms.
* `Layout.Plain.decodeAt_of_lt`: and only the end of the bytes can keep a value from being read.
* `Layout.decodeAt_eq_of_source`: a source that gives the same bytes gives the same answer.
-/

namespace Cartridge

namespace Layout

theorem take_ofBytes_eq_ok_iff {bytes field : List UInt8} {position length : Nat} :
    take (Source.ofBytes bytes) position length = .ok field ↔
      slice? bytes position length = some field := by
  unfold take Source.ofBytes
  cases slice? bytes position length with
  | none => simp
  | some part => simp

theorem take_ofBytes_of_le {bytes : List UInt8} {position length : Nat}
    (h : position + length ≤ bytes.length) :
    take (Source.ofBytes bytes) position length = .ok (slice bytes position length) :=
  take_ofBytes_eq_ok_iff.mpr (slice?_of_le h)

/-- One byte. -/
theorem take_one {bytes : List UInt8} {position : Nat} {b : UInt8} (hb : bytes[position]? = some b) :
    take (Source.ofBytes bytes) position 1 = .ok [b] := by
  obtain ⟨hlt, hget⟩ := List.getElem?_eq_some_iff.mp hb
  rw [take_ofBytes_of_le hlt, slice, List.drop_eq_getElem_cons hlt, hget]
  rfl

/-- A field that is read by undoing how it is written. -/
theorem take_bind_eq_ok_iff {β : Type} {read : List UInt8 → β} {write : β → List UInt8} {n : Nat}
    (hread : ∀ b, read (write b) = b) (hwrite : ∀ field, field.length = n → write (read field) = field)
    {bytes : List UInt8} {position : Nat} {b : β} :
    (do
      let field ← take (Source.ofBytes bytes) position n
      return read field) = .ok b ↔ slice? bytes position n = some (write b) := by
  rw [← take_ofBytes_eq_ok_iff]
  cases htake : take (Source.ofBytes bytes) position n with
  | error e => simp [bind, Except.bind]
  | ok field =>
    have hlen := length_of_slice? (take_ofBytes_eq_ok_iff.mp htake)
    simp only [bind, Except.bind, pure, Except.pure, Except.ok.injEq]
    constructor
    · rintro rfl
      exact (hwrite field hlen).symm
    · rintro rfl
      exact hread b

/-- A structure is decoded where its fields are. -/
theorem decodeAt_record_eq_ok_iff {α β : Type} {build : α → β} {fields : β → α}
    {build_fields : ∀ b, build (fields b) = b} {fields_build : ∀ a, fields (build a) = a}
    {layout : Layout α} {source : Source} {position : Nat} {b : β} :
    (record build fields build_fields fields_build layout).decodeAt source position = .ok b ↔
      layout.decodeAt source position = .ok (fields b) := by
  rw [decodeAt, bind_eq_ok_iff]
  constructor
  · rintro ⟨a, ha, hbuild⟩
    cases hbuild
    rw [fields_build]
    exact ha
  · intro ha
    exact ⟨_, ha, congrArg Except.ok (build_fields b)⟩

theorem decodeAt_record_eq_error_iff {α β : Type} {build : α → β} {fields : β → α}
    {build_fields : ∀ b, build (fields b) = b} {fields_build : ∀ a, fields (build a) = a}
    {layout : Layout α} {source : Source} {position : Nat} {e : Error} :
    (record build fields build_fields fields_build layout).decodeAt source position = .error e ↔
      layout.decodeAt source position = .error e := by
  rw [decodeAt, bind_eq_error_iff]
  constructor
  · rintro (h | ⟨a, -, h⟩)
    · exact h
    · cases h
  · exact .inl

/-- Two values are decoded where the second one is behind the first. -/
theorem decodeAt_seq_eq_ok_iff {α β : Type} {first : Layout α} {second : Layout β} {source : Source}
    {position : Nat} {a : α} {b : β} :
    (seq first second).decodeAt source position = .ok (a, b) ↔
      first.decodeAt source position = .ok a ∧
        second.decodeAt source (position + first.size) = .ok b := by
  rw [decodeAt, bind_eq_ok_iff]
  constructor
  · rintro ⟨a', ha, hrest⟩
    obtain ⟨b', hb, hpair⟩ := bind_eq_ok_iff.mp hrest
    cases hpair
    exact ⟨ha, hb⟩
  · rintro ⟨ha, hb⟩
    exact ⟨a, ha, bind_eq_ok_iff.mpr ⟨b, hb, rfl⟩⟩

/-- The first of two values that is not right is what is reported. -/
theorem decodeAt_seq_eq_error_iff {α β : Type} {first : Layout α} {second : Layout β}
    {source : Source} {position : Nat} {e : Error} :
    (seq first second).decodeAt source position = .error e ↔
      first.decodeAt source position = .error e ∨ ∃ a, first.decodeAt source position = .ok a ∧
        second.decodeAt source (position + first.size) = .error e := by
  rw [decodeAt, bind_eq_error_iff]
  refine or_congr_right (exists_congr fun a => and_congr_right fun _ => ?_)
  rw [bind_eq_error_iff]
  constructor
  · rintro (h | ⟨b, -, h⟩)
    · exact h
    · cases h
  · exact .inl

/-- **Decoding accepts exactly what encoding produces.** -/
theorem decodeAt_eq_ok_iff {α : Type} (layout : Layout α) {bytes : List UInt8} {position : Nat}
    {a : α} : layout.decodeAt (Source.ofBytes bytes) position = .ok a ↔
      slice? bytes position layout.size = some (layout.encode a) := by
  induction layout generalizing position with
  | bytes n => exact take_bind_eq_ok_iff Bytes.fit_toList (fun _ => Bytes.toList_fit)
  | word8 =>
    have hwrite (field : List UInt8) (hlen : field.length = 1) : [field.headD 0] = field := by
      obtain ⟨b, rfl⟩ := List.length_eq_one_iff.mp hlen
      rfl
    exact take_bind_eq_ok_iff (fun _ => rfl) hwrite
  | word16 => exact take_bind_eq_ok_iff Endian.word16_bytes16 fun _ => Endian.bytes16_word16
  | word32 => exact take_bind_eq_ok_iff Endian.word32_bytes32 fun _ => Endian.bytes32_word32
  | word64 => exact take_bind_eq_ok_iff Endian.word64_bytes64 fun _ => Endian.bytes64_word64
  | tag ofByte? toByte ofByte?_toByte toByte_of_ofByte? =>
    rw [decodeAt, bind_eq_ok_iff, size, encode, ← take_ofBytes_eq_ok_iff]
    constructor
    · rintro ⟨field, hfield, htag⟩
      have hlen := length_of_slice? (take_ofBytes_eq_ok_iff.mp hfield)
      obtain ⟨b, rfl⟩ := List.length_eq_one_iff.mp hlen
      dsimp only [List.headD_cons] at htag
      split at htag
      · rename_i ha
        cases htag
        rw [toByte_of_ofByte? b a ha]
        exact hfield
      · cases htag
    · intro hfield
      refine ⟨[toByte a], hfield, ?_⟩
      rw [List.headD_cons, ofByte?_toByte]
      rfl
  | literal magic =>
    rw [decodeAt, bind_eq_ok_iff, size, encode, ← take_ofBytes_eq_ok_iff]
    constructor
    · rintro ⟨field, hfield, hmagic⟩
      split at hmagic
      · rename_i heq
        rw [heq] at hfield
        exact hfield
      · cases hmagic
    · intro hfield
      exact ⟨magic, hfield, if_pos rfl⟩
  | seq first second ih₁ ih₂ =>
    obtain ⟨a, b⟩ := a
    rw [decodeAt_seq_eq_ok_iff, size, encode,
      slice?_append_eq_some_iff (length_encode first a), ← ih₁, ← ih₂]
  | record build fields build_fields fields_build layout ih =>
    rw [decodeAt_record_eq_ok_iff, size, encode, ← ih]

/-- A layout in which no field rules out any bytes: neither bytes that stand for values nor literal
bytes. -/
inductive Plain : {α : Type} → Layout α → Prop
  | bytes (n : Nat) : Plain (.bytes n)
  | word8 : Plain .word8
  | word16 : Plain .word16
  | word32 : Plain .word32
  | word64 : Plain .word64
  | seq {α β : Type} {first : Layout α} {second : Layout β} (hfirst : Plain first)
    (hsecond : Plain second) : Plain (.seq first second)
  | record {α β : Type} {build : α → β} {fields : β → α} {build_fields : ∀ b, build (fields b) = b}
    {fields_build : ∀ a, fields (build a) = a} {layout : Layout α} (h : Plain layout) :
    Plain (.record build fields build_fields fields_build layout)

/-- No field rules these bytes out: bytes that stand for values are known, and literal bytes are
there. -/
def Admits {α : Type} : Layout α → List UInt8 → Prop
  | tag ofByte? _ _ _, input => (ofByte? (input.headD 0)).isSome = true
  | literal magic, input => input.take magic.length = magic
  | seq first second, input => first.Admits input ∧ second.Admits (input.drop first.size)
  | record _ _ _ _ layout, input => layout.Admits input
  | bytes _, _ | word8, _ | word16, _ | word32, _ | word64, _ => True

theorem Plain.admits {α : Type} {layout : Layout α} (h : layout.Plain) (input : List UInt8) :
    layout.Admits input := by
  induction h generalizing input with
  | bytes | word8 | word16 | word32 | word64 => trivial
  | seq _ _ ih₁ ih₂ => exact ⟨ih₁ _, ih₂ _⟩
  | record _ ih => exact ih _

/-- **Where there is room, a value is decoded exactly if no field rules out the bytes.** -/
theorem exists_decodeAt_iff {α : Type} (layout : Layout α) {bytes : List UInt8} {position : Nat}
    (h : position + layout.size ≤ bytes.length) :
    (∃ a, layout.decodeAt (Source.ofBytes bytes) position = .ok a) ↔
      layout.Admits (bytes.drop position) := by
  induction layout generalizing position with
  | bytes | word8 | word16 | word32 | word64 =>
    rw [size] at h
    refine ⟨fun _ => trivial, fun _ => ?_⟩
    rw [decodeAt, take_ofBytes_of_le h]
    exact ⟨_, rfl⟩
  | tag ofByte? toByte _ _ =>
    have hhead : (slice bytes position 1).headD 0 = (bytes.drop position).headD 0 := by
      unfold slice
      cases bytes.drop position <;> rfl
    rw [size] at h
    rw [decodeAt, take_ofBytes_of_le h, ok_bind, hhead, Admits]
    cases ofByte? ((bytes.drop position).headD 0) with
    | none =>
      constructor
      · rintro ⟨a, ha⟩
        cases ha
      · intro hsome
        cases hsome
    | some a => exact ⟨fun _ => rfl, fun _ => ⟨a, rfl⟩⟩
  | literal magic =>
    rw [size] at h
    rw [decodeAt, take_ofBytes_of_le h, ok_bind, Admits]
    show (∃ a, (if slice bytes position magic.length = magic then pure () else _) = Except.ok a) ↔
      slice bytes position magic.length = magic
    split
    · rename_i hmagic
      exact ⟨fun _ => hmagic, fun _ => ⟨(), rfl⟩⟩
    · rename_i hmagic
      constructor
      · rintro ⟨a, ha⟩
        cases ha
      · exact fun heq => absurd heq hmagic
  | seq first second ih₁ ih₂ =>
    rw [size] at h
    rw [Admits, ← ih₁ (by omega), List.drop_drop, ← ih₂ (by omega)]
    constructor
    · rintro ⟨⟨a, b⟩, hab⟩
      obtain ⟨ha, hb⟩ := decodeAt_seq_eq_ok_iff.mp hab
      exact ⟨⟨a, ha⟩, b, hb⟩
    · rintro ⟨⟨a, ha⟩, b, hb⟩
      exact ⟨(a, b), decodeAt_seq_eq_ok_iff.mpr ⟨ha, hb⟩⟩
  | record build fields build_fields fields_build layout ih =>
    rw [Admits, ← ih h]
    constructor
    · rintro ⟨b, hb⟩
      exact ⟨_, decodeAt_record_eq_ok_iff.mp hb⟩
    · rintro ⟨a, ha⟩
      refine ⟨build a, decodeAt_record_eq_ok_iff.mpr ?_⟩
      rw [fields_build]
      exact ha

theorem exists_decode_iff {α : Type} (layout : Layout α) {bytes : List UInt8}
    (h : layout.size ≤ bytes.length) :
    (∃ a, layout.decode bytes = .ok a) ↔ layout.Admits bytes := by
  have hroom : 0 + layout.size ≤ bytes.length := by omega
  exact layout.exists_decodeAt_iff hroom

/-- A byte that stands for one of the listed values. -/
theorem admits_ofValues {α : Type} {values : List α} {toByte : α → UInt8}
    {h : ∀ a, (values.find? fun v => toByte v == toByte a) = some a} {input : List UInt8} :
    (ofValues values toByte h).Admits input ↔ ∃ a, input.headD 0 = toByte a := by
  rw [ofValues, Admits, Option.isSome_iff_exists]
  constructor
  · rintro ⟨a, ha⟩
    have heq := @List.find?_some _ (fun v => toByte v == input.headD 0) _ _ ha
    exact ⟨a, (eq_of_beq heq).symm⟩
  · rintro ⟨a, ha⟩
    rw [ha]
    exact ⟨a, h a⟩

/-- A byte that stands for none of the listed values. -/
theorem decodeAt_ofValues_eq_error {α : Type} {values : List α} {toByte : α → UInt8}
    {h : ∀ a, (values.find? fun v => toByte v == toByte a) = some a} {bytes : List UInt8}
    {position : Nat} {b : UInt8} (hb : bytes[position]? = some b) (hunknown : ∀ a, toByte a ≠ b) :
    (ofValues values toByte h).decodeAt (Source.ofBytes bytes) position
      = .error (.invalidData (.unknownVariant position)) := by
  have hnone : (values.find? fun v => toByte v == b) = none :=
    List.find?_eq_none.mpr fun a _ heq => hunknown a (eq_of_beq heq)
  rw [ofValues, decodeAt, take_one hb, ok_bind, List.headD_cons, hnone]
  rfl

/-- **All bytes of the size of a plain layout are the written form of a value.** -/
theorem Plain.exists_encode {α : Type} {layout : Layout α} (h : layout.Plain) {field : List UInt8}
    (hlen : field.length = layout.size) : ∃ a, layout.encode a = field := by
  obtain ⟨a, ha⟩ := (exists_decode_iff layout (Nat.le_of_eq hlen.symm)).mpr (h.admits field)
  obtain ⟨-, heq⟩ := slice?_eq_some_iff.mp ((decodeAt_eq_ok_iff layout).mp ha)
  refine ⟨a, heq.trans ?_⟩
  rw [List.drop_zero, ← hlen, List.take_length]

/-- All bytes of a multiple of its size are the written forms of as many values. -/
theorem Plain.exists_flatMap_encode {α : Type} {layout : Layout α} (h : layout.Plain) {n : Nat}
    {field : List UInt8} (hlen : field.length = n * layout.size) :
    ∃ as : List α, as.length = n ∧ as.flatMap layout.encode = field := by
  induction n generalizing field with
  | zero =>
    rw [Nat.zero_mul] at hlen
    exact ⟨[], rfl, (List.eq_nil_of_length_eq_zero hlen).symm⟩
  | succ n ih =>
    rw [Nat.succ_mul] at hlen
    have hfirst : (field.take layout.size).length = layout.size := by
      rw [List.length_take]
      omega
    obtain ⟨a, ha⟩ := h.exists_encode hfirst
    obtain ⟨as, hlength, has⟩ := @ih (field.drop layout.size) (by rw [List.length_drop]; omega)
    refine ⟨a :: as, congrArg (· + 1) hlength, ?_⟩
    rw [List.flatMap_cons, ha, has, List.take_append_drop]

/-- A field that passes the end of a byte string. -/
theorem take_of_lt {bytes : List UInt8} {position length : Nat}
    (h : bytes.length < position + length) :
    take (Source.ofBytes bytes) position length = .error (.truncated .structureEnd) := by
  unfold take Source.ofBytes slice?
  rw [if_neg (Nat.not_le.mpr h)]
  rfl

/-- **A plain layout that passes the end of a byte string is not there**, wherever in it the end is. -/
theorem Plain.decodeAt_of_lt {α : Type} {layout : Layout α} (h : layout.Plain) {bytes : List UInt8}
    {position : Nat} (hlt : bytes.length < position + layout.size) :
    layout.decodeAt (Source.ofBytes bytes) position = .error (.truncated .structureEnd) := by
  induction h generalizing position with
  | bytes | word8 | word16 | word32 | word64 =>
    rw [size] at hlt
    rw [decodeAt, take_of_lt hlt]
    rfl
  | @seq _ _ first second hfirst _ ih₁ ih₂ =>
    rw [size] at hlt
    rw [decodeAt]
    by_cases hroom : position + first.size ≤ bytes.length
    · have hslice := slice?_of_le hroom
      obtain ⟨a, ha⟩ := hfirst.exists_encode (length_of_slice? hslice)
      rw [← ha] at hslice
      rw [(decodeAt_eq_ok_iff first).mpr hslice, ok_bind, ih₂ (by omega)]
      rfl
    · rw [ih₁ (by omega)]
      rfl
  | record _ ih =>
    rw [decodeAt, ih hlt]
    rfl

/-- A source that gives the bytes of a byte string as far as it goes serves as well as it. Where a
field would begin behind the end, the field before it was not there already. -/
theorem decodeAt_eq_of_source {α : Type} (layout : Layout α) {source : Source} {bytes : List UInt8}
    (h : ∀ position length, position ≤ bytes.length →
      source position length = Source.ofBytes bytes position length) {position : Nat}
    (hposition : position ≤ bytes.length) :
    layout.decodeAt source position = layout.decodeAt (Source.ofBytes bytes) position := by
  have htake {position length : Nat} (hposition : position ≤ bytes.length) :
      take source position length = take (Source.ofBytes bytes) position length := by
    unfold take
    rw [h position length hposition]
  induction layout generalizing position with
  | bytes | word8 | word16 | word32 | word64 | tag | literal =>
    rw [decodeAt, decodeAt, htake hposition]
  | seq first second ih₁ ih₂ =>
    rw [decodeAt, decodeAt, ih₁ hposition]
    cases hfirst : first.decodeAt (Source.ofBytes bytes) position with
    | error e => rfl
    | ok a =>
      have hroom := (slice?_eq_some_iff.mp ((decodeAt_eq_ok_iff first).mp hfirst)).1
      rw [ok_bind, ok_bind, ih₂ hroom]
  | record build fields _ _ layout ih => rw [decodeAt, decodeAt, ih hposition]

end Layout

end Cartridge
