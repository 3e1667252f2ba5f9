import Cartridge.Proofs.Keys.Loading
import Cartridge.Proofs.Traversals
import Cartridge.Proofs.Utf8

/-!
# Key text from streams

A stream is decoded line by line, each line without its end, and what is decoded is put together again
with line feeds. No character but the line feed is written with its byte, and no other character but the
carriage return with that one's, so the lines of the bytes are those of the text. Each line loses a
carriage return at its end once more when the text is loaded, but to a line of key text its end makes no
difference.

Results:
* `Utf8.byteLines_flatMap_encodeChar`: the lines of the written form are the written forms of the lines.
* `KeyStore.textOfStream_flatMap_encodeChar`, `KeyStore.textOfStream_of_not_text`: what is decoded from a
  stream.
* `KeyStore.streams_load_text`: a stream loads what its text does, or nothing if it has none.
-/

namespace Cartridge

/-! ## Lines of bytes -/

namespace Text

/-- What holds of all lines holds of the segments between line feeds, if it holds of nothing and of what
it holds of with a carriage return behind it. -/
theorem forall_segments {α : Type} [BEq α] [LawfulBEq α] {ret : α} {P : List α → Prop} (hnil : P [])
    (hret : ∀ line, P line → P (line ++ [ret])) {first : List α} {more : List (List α)}
    (h : ∀ line ∈ linesOfSegments ret first more, P line) : ∀ segment ∈ first :: more, P segment := by
  induction more generalizing first with
  | nil =>
    rw [List.forall_mem_singleton]
    cases first with
    | nil => exact hnil
    | cons c rest => exact h _ (List.mem_singleton_self _)
  | cons next more ih =>
    rw [linesOfSegments, List.forall_mem_cons] at h
    refine List.forall_mem_cons.mpr ⟨?_, ih h.2⟩
    have hline := h.1
    unfold dropLastIf at hline
    split at hline
    · rename_i hlast
      obtain ⟨front, rfl⟩ := List.getLast?_eq_some_iff.mp (beq_iff_eq.mp hlast)
      rw [List.dropLast_concat] at hline
      exact hret front hline
    · exact hline

theorem dropLastIf_prefix {α : Type} [BEq α] (c : α) (line : List α) : dropLastIf c line <+: line := by
  unfold dropLastIf
  split
  · exact line.dropLast_prefix
  · exact line.prefix_rfl

/-- A line is what a segment between line feeds begins with. -/
theorem exists_prefix_of_mem_linesOfSegments {α : Type} [BEq α] {ret : α} {line first : List α}
    {more : List (List α)} (h : line ∈ linesOfSegments ret first more) :
    ∃ segment ∈ first :: more, line <+: segment := by
  induction more generalizing first with
  | nil =>
    refine ⟨first, List.mem_cons_self, ?_⟩
    cases first with
    | nil => cases h
    | cons c rest =>
      cases List.mem_singleton.mp h
      exact List.prefix_rfl
  | cons next more ih =>
    rcases List.mem_cons.mp h with rfl | h
    · exact ⟨first, List.mem_cons_self, dropLastIf_prefix ret first⟩
    · obtain ⟨segment, hsegment, hfront⟩ := ih h
      exact ⟨segment, List.mem_cons_of_mem first hsegment, hfront⟩

theorem not_mem_of_mem_lines {text line : List Char} (h : line ∈ lines text) : '\n' ∉ line := by
  obtain ⟨segment, hsegment, hfront⟩ := exists_prefix_of_mem_linesOfSegments h
  exact fun hfeed => not_mem_of_mem_split '\n' text segment hsegment (hfront.subset hfeed)

/-- The lines of a text that is put together from the lines of another: these lose a carriage return at
their end. -/
theorem lines_flatMap_lines (text : List Char) :
    lines ((lines text).flatMap fun line => line ++ ['\n']) = (lines text).map (dropLastIf '\r') := by
  have hended : ∀ l ∈ (lines text).map fun line => (line, LineEnd.feed), '\n' ∉ l.1 :=
    List.forall_mem_map.mpr fun _ => not_mem_of_mem_lines
  have hlines := lines_render hended (List.not_mem_nil : '\n' ∉ [])
  rw [render, List.flatMap_map, List.map_map, List.append_nil] at hlines
  rw [List.isEmpty_nil, if_pos rfl, List.append_nil] at hlines
  exact hlines

end Text

namespace Utf8

open Text

/-- A character of ASCII is written as its code, and every other one without codes of ASCII. -/
theorem encodeChar_cases (c : Char) :
    c.toNat < 0x80 ∧ encodeChar c = [UInt8.ofNat c.toNat] ∨
      0x80 ≤ c.toNat ∧ ∀ b ∈ encodeChar c, 0x80 ≤ b.toNat := by
  have hvalid := toNat_cases c
  unfold encodeChar
  generalize c.toNat = n at hvalid
  dsimp only
  split_ifs with h1 h2 h3
  · exact .inl ⟨h1, rfl⟩
  all_goals
    refine .inr ⟨by omega, ?_⟩
    simp only [List.forall_mem_cons, List.not_mem_nil, false_imp_iff, implies_true, and_true]
    repeat' apply And.intro
    all_goals
      rw [toNat_byte (by omega)]
      omega

theorem encodeChar_ne_nil (c : Char) : encodeChar c ≠ [] := by
  unfold encodeChar
  dsimp only
  split_ifs <;> exact List.cons_ne_nil _ _

/-- The code of a character of ASCII stands for that character only. -/
theorem mem_encodeChar_iff {a c : Char} (ha : a.toNat < 0x80) :
    UInt8.ofNat a.toNat ∈ encodeChar c ↔ c = a := by
  have hbyte := toNat_byte (n := a.toNat) (by omega)
  rcases encodeChar_cases c with ⟨hc, hcode⟩ | ⟨hc, hcodes⟩
  · have hbyte' := toNat_byte (n := c.toNat) (by omega)
    rw [hcode, List.mem_singleton]
    constructor
    · intro h
      rw [← Char.ofNat_toNat c, ← hbyte', ← h, hbyte, Char.ofNat_toNat]
    · rintro rfl
      rfl
  · constructor
    · intro h
      have := hcodes _ h
      omega
    · rintro rfl
      omega

theorem mem_flatMap_encodeChar_iff {a : Char} (ha : a.toNat < 0x80) {chars : List Char} :
    UInt8.ofNat a.toNat ∈ chars.flatMap encodeChar ↔ a ∈ chars := by
  rw [List.mem_flatMap]
  simp only [mem_encodeChar_iff ha, exists_eq_right]

/-- The written form of what is between line feeds, with the byte of a line feed between. -/
theorem flatMap_encodeChar_join (first : List Char) (more : List (List Char)) :
    (join '\n' first more).flatMap encodeChar =
      join 0x0A (first.flatMap encodeChar) (more.map fun l => l.flatMap encodeChar) := by
  induction more generalizing first with
  | nil => simp [join]
  | cons next more ih =>
    rw [join_cons, List.flatMap_append, List.flatMap_cons, ih, List.map_cons, join_cons]
    rfl

theorem split_flatMap_encodeChar (chars : List Char) :
    split 0x0A (chars.flatMap encodeChar) = ((split '\n' chars).1.flatMap encodeChar,
      (split '\n' chars).2.map fun l => l.flatMap encodeChar) := by
  have hsegments := not_mem_of_mem_split '\n' chars
  rw [List.forall_mem_cons] at hsegments
  conv_lhs => rw [← join_split '\n' chars, flatMap_encodeChar_join]
  refine split_join (List.forall_mem_cons.mpr ⟨?_, List.forall_mem_map.mpr fun l hl => ?_⟩)
  · exact fun h => hsegments.1 ((mem_flatMap_encodeChar_iff (a := '\n') (by decide)).mp h)
  · exact fun h => hsegments.2 l hl ((mem_flatMap_encodeChar_iff (a := '\n') (by decide)).mp h)

theorem flatMap_encodeChar_eq_nil_iff {chars : List Char} :
    chars.flatMap encodeChar = [] ↔ chars = [] := by
  cases chars with
  | nil => simp
  | cons c rest => simp [encodeChar_ne_nil]

/-- A line's written form ends with the byte of a carriage return where the line ends with one. -/
theorem dropLastIf_flatMap_encodeChar (line : List Char) :
    dropLastIf 0x0D (line.flatMap encodeChar) = (dropLastIf '\r' line).flatMap encodeChar := by
  rcases List.eq_nil_or_concat' line with rfl | ⟨front, c, rfl⟩
  · rfl
  · rw [List.flatMap_append, List.flatMap_singleton]
    by_cases hc : c = '\r'
    · subst hc
      have hcode : encodeChar '\r' = [0x0D] := rfl
      simp [dropLastIf, hcode]
    · have hlast : ∀ b ∈ (encodeChar c).getLast?, b ≠ 0x0D := by
        rintro b hb rfl
        exact hc ((mem_encodeChar_iff (a := '\r') (by decide)).mp (List.mem_of_mem_getLast? hb))
      obtain ⟨codes, b, hcodes⟩ := (List.eq_nil_or_concat' (encodeChar c)).resolve_left
        (encodeChar_ne_nil c)
      rw [hcodes, List.getLast?_concat] at hlast
      simp [dropLastIf, hcodes, hc, hlast b rfl, ← List.append_assoc]

theorem linesOfSegments_map_flatMap_encodeChar (first : List Char) (more : List (List Char)) :
    linesOfSegments 0x0D (first.flatMap encodeChar) (more.map fun l => l.flatMap encodeChar) =
      (linesOfSegments '\r' first more).map fun l => l.flatMap encodeChar := by
  induction more generalizing first with
  | nil =>
    rw [List.map_nil, linesOfSegments, linesOfSegments]
    by_cases h : first = []
    · subst h
      rfl
    · simp [h, flatMap_encodeChar_eq_nil_iff, -List.flatMap_eq_nil_iff]
  | cons next more ih =>
    rw [List.map_cons, linesOfSegments, linesOfSegments, ih, dropLastIf_flatMap_encodeChar,
      List.map_cons]

/-- **The lines of the written form are the written forms of the lines.** -/
theorem byteLines_flatMap_encodeChar (chars : List Char) :
    byteLines (chars.flatMap encodeChar) = (lines chars).map fun l => l.flatMap encodeChar := by
  rw [byteLines, linesBy, split_flatMap_encodeChar]
  exact linesOfSegments_map_flatMap_encodeChar _ _

/-- Bytes whose lines are written forms of texts are the written form of one. -/
theorem exists_of_byteLines {bytes : List UInt8}
    (h : ∀ line ∈ byteLines bytes, ∃ chars : List Char, line = chars.flatMap encodeChar) :
    ∃ chars : List Char, bytes = chars.flatMap encodeChar := by
  have hret : ∀ line : List UInt8, (∃ chars : List Char, line = chars.flatMap encodeChar) →
      ∃ chars : List Char, line ++ [0x0D] = chars.flatMap encodeChar := by
    rintro _ ⟨chars, rfl⟩
    refine ⟨chars ++ ['\r'], ?_⟩
    rw [List.flatMap_append]
    rfl
  have hsegments := forall_segments ⟨[], rfl⟩ hret h
  rw [← join_split 0x0A bytes]
  generalize (split 0x0A bytes).1 = first at hsegments
  generalize (split 0x0A bytes).2 = more at hsegments
  induction more generalizing first with
  | nil =>
    obtain ⟨chars, hchars⟩ := hsegments first List.mem_cons_self
    exact ⟨chars, by rw [hchars, join, List.flatMap_nil, List.append_nil]⟩
  | cons next more ih =>
    rw [List.forall_mem_cons] at hsegments
    obtain ⟨⟨chars, hchars⟩, hmore⟩ := hsegments
    obtain ⟨rest, hrest⟩ := ih next hmore
    refine ⟨chars ++ '\n' :: rest, ?_⟩
    rw [join_cons, List.flatMap_append, List.flatMap_cons, hchars, hrest]
    rfl

end Utf8

/-! ## Text of a stream -/

namespace KeyStore

/-- The text that is put together from the lines of a text. -/
theorem textOfStream_flatMap_encodeChar (text : List Char) :
    textOfStream (text.flatMap Utf8.encodeChar) =
      .ok ((Text.lines text).flatMap fun line => line ++ ['\n']) := by
  rw [textOfStream, Utf8.byteLines_flatMap_encodeChar, List.flatMap_def]
  refine bind_eq_ok_iff.mpr ⟨_, mapM_eq_ok_iff.mpr ?_, rfl⟩
  rw [List.forall₂_map_left_iff, List.forall₂_map_right_iff, List.forall₂_same]
  intro line _
  rw [Utf8.decodeChars_eq_ok_iff.mpr rfl]

/-- A stream that is no text fails as such. -/
theorem textOfStream_of_not_text {bytes : List UInt8}
    (h : ¬ ∃ chars : List Char, bytes = chars.flatMap Utf8.encodeChar) :
    textOfStream bytes = .error (.stream .notUtf8) := by
  have hline : ∃ line ∈ Text.byteLines bytes, ∀ chars : List Char,
      line ≠ chars.flatMap Utf8.encodeChar := by
    by_contra hall
    push Not at hall
    exact h (Utf8.exists_of_byteLines hall)
  cases hrun : textOfStream bytes with
  | ok text =>
    obtain ⟨lines, hlines, -⟩ := bind_eq_ok_iff.mp hrun
    obtain ⟨line, hmem, hno⟩ := hline
    obtain ⟨chars, hchars⟩ := mapM_isOk_iff.mp ⟨_, hlines⟩ line hmem
    split at hchars
    · rename_i hdecode
      exact absurd (Utf8.decodeChars_eq_ok_iff.mp hdecode) (hno _)
    · cases hchars
  | error e =>
    rcases bind_eq_error_iff.mp hrun with he | ⟨_, _, he⟩
    · obtain ⟨_, _, _, -, -, he⟩ := mapM_eq_error_iff.mp he
      split at he
      · cases he
      · exact he.symm
    · cases he

/-! ## Loading -/

/-- A line of key text says the same without a carriage return at its end. -/
theorem parse?_dropLastIf (line : List Char) :
    KeyLine.parse? (Text.dropLastIf '\r' line) = KeyLine.parse? line := by
  rw [KeyLine.parse?, KeyLine.parse?, KeyLine.fields?_dropLastIf line (by decide)]

theorem loadKeyLine_dropLastIf (number : Nat) (line : List Char) :
    loadKeyLine number (Text.dropLastIf '\r' line) = loadKeyLine number line := by
  rw [loadKeyLine, loadKeyLine, parse?_dropLastIf]

theorem loadTitleKeyLine_dropLastIf (number : Nat) (line : List Char) :
    loadTitleKeyLine number (Text.dropLastIf '\r' line) = loadTitleKeyLine number line := by
  rw [loadTitleKeyLine, loadTitleKeyLine, parse?_dropLastIf]

theorem loadLines_map {load : Nat → List Char → Access KeyStore Nat} {f : List Char → List Char}
    (h : ∀ number line, load number (f line) = load number line) (number : Nat)
    (lines : List (List Char)) : loadLines load number (lines.map f) = loadLines load number lines := by
  induction lines generalizing number with
  | nil => rfl
  | cons line lines ih => rw [List.map_cons, loadLines, loadLines, h, ih]

theorem loadKeys_flatMap_lines (text : List Char) :
    loadKeys ((Text.lines text).flatMap fun line => line ++ ['\n']) = loadKeys text := by
  rw [loadKeys, loadKeys, Text.lines_flatMap_lines, loadLines_map loadKeyLine_dropLastIf]

theorem loadTitleKeys_flatMap_lines (text : List Char) :
    loadTitleKeys ((Text.lines text).flatMap fun line => line ++ ['\n']) = loadTitleKeys text := by
  rw [loadTitleKeys, loadTitleKeys, Text.lines_flatMap_lines,
    loadLines_map loadTitleKeyLine_dropLastIf]

/-- A loader of streams that does what a loader of texts does. -/
structure StreamsAs (fromText : List Char → Access KeyStore Nat)
    (fromStream : List UInt8 → Access KeyStore Nat) : Prop where
  /-- A stream that holds a text is loaded as the text is, with the same answer, store and trace. -/
  text : ∀ (text : String) (s : KeyStore), fromStream (Utf8.encode text) s = fromText text.toList s
  /-- A stream that holds none fails and leaves the store alone. -/
  notText : ∀ (bytes : List UInt8) (s : KeyStore), (∀ text, bytes ≠ Utf8.encode text) →
    fromStream bytes s = (Traced.fail (.stream .notUtf8), s)

/-- A loader that decodes the stream first, and to which it makes no difference how lines end. -/
theorem streamsAs_of_lines {fromText : List Char → Access KeyStore Nat}
    (h : ∀ text, fromText ((Text.lines text).flatMap fun line => line ++ ['\n']) = fromText text) :
    StreamsAs fromText fun bytes => do
      let text ← (textOfStream bytes : Traced (List Char))
      fromText text where
  text := by
    intro text s
    rw [Utf8.encode, textOfStream_flatMap_encodeChar, ← h text.toList]
    rfl
  notText := by
    intro bytes s hbytes
    have hno : ¬ ∃ chars : List Char, bytes = chars.flatMap Utf8.encodeChar := by
      rintro ⟨chars, hchars⟩
      refine hbytes (String.ofList chars) ?_
      rw [hchars, Utf8.encode, String.toList_ofList]
    rw [textOfStream_of_not_text hno]
    rfl

theorem streamsAs_loadKeys : StreamsAs loadKeys loadKeysFromStream :=
  streamsAs_of_lines loadKeys_flatMap_lines

theorem streamsAs_loadTitleKeys : StreamsAs loadTitleKeys loadTitleKeysFromStream :=
  streamsAs_of_lines loadTitleKeys_flatMap_lines

/-- **A stream loads what its text does, or nothing if it has none.** -/
theorem streams_load_text :
    StreamsAs loadKeys loadKeysFromStream ∧ StreamsAs loadTitleKeys loadTitleKeysFromStream :=
  ⟨streamsAs_loadKeys, streamsAs_loadTitleKeys⟩

namespace Spliced

/-- Two keys: the first one's line has three carriage returns at its end, and the second one's has one
and no line feed. -/
def text : String :=
  "master_key_00=00112233445566778899AABBCCDDEEFF\r\r\r\ntitlekek_00=FFEEDDCCBBAA99887766554433221100\r"

/-- The same text with the beginning of a character behind it. -/
def broken : List UInt8 := Utf8.encode text ++ [0x0A, 0xC3]

/-- Of the text both keys are loaded, and of the stream that is broken behind them none. -/
theorem loads_both_or_none :
    (loadKeysFromStream (Utf8.encode text)).outcome empty = (loadKeys text.toList).outcome empty ∧
      ((loadKeys text.toList).outcome empty).1 = .ok 2 ∧
      (loadKeysFromStream broken).outcome empty = (.error (.stream .notUtf8), empty) := by
  have hbroken : ∀ other, broken ≠ Utf8.encode other := by
    intro other h
    have hdecode : (Utf8.decode broken).toOption = none := by decide +kernel
    rw [Utf8.decode_eq_ok_iff.mpr h] at hdecode
    cases hdecode
  refine ⟨?_, ?_, ?_⟩
  · rw [Access.outcome, Access.outcome, streams_load_text.1.text]
  · rw [outcome_loadKeys]
    decide +kernel
  · rw [Access.outcome, streams_load_text.1.notText broken empty hbroken]
    rfl

end Spliced

end KeyStore

end Cartridge
