import Cartridge.Keys.Text
import Mathlib.Data.List.Basic
import Mathlib.Data.List.TakeWhile
import Mathlib.Tactic.SplitIfs

/-!
# How a line of key text is written

A line that gives a value to a name has the name, an equals sign and the digits of the value in it, and
around each of them nothing but white space. No character is of two kinds, so that a line can be taken
apart in one way only.

Results:
* `Hex.decode?_eq_some_iff`: digits are read as the bytes that they are the digits of.
* `KeyLine.fields?_eq_some_iff`: a line is taken apart as it is written.
* `KeyLine.fields?_dropLastIf`: white space at the end of a line makes no difference.
-/

namespace Cartridge

/-- What holds of every code of ASCII holds of its character. -/
theorem Text.ascii_cases {P : Char → Prop} (h : ∀ n : Fin 128, P (Char.ofNat n)) {c : Char}
    (hc : c.toNat < 128) : P c := by
  have hp := h ⟨c.toNat, hc⟩
  rwa [Char.ofNat_toNat] at hp

/-- Outside of ASCII no character has another lower case. -/
theorem Text.toLower_eq_self {c : Char} (hc : 128 ≤ c.toNat) : c.toLower = c := by
  refine dif_neg ?_
  rintro ⟨-, hle⟩
  have hle : c.toNat ≤ 'Z'.toNat := hle
  exact Nat.not_lt.mpr hc (Nat.lt_of_le_of_lt hle (by decide))

theorem Text.toLower_toLower (c : Char) : c.toLower.toLower = c.toLower := by
  by_cases hc : c.toNat < 128
  · exact ascii_cases (P := fun c => c.toLower.toLower = c.toLower) (by decide) hc
  · rw [toLower_eq_self (Nat.not_lt.mp hc), toLower_eq_self (Nat.not_lt.mp hc)]

/-! ## Hexadecimal digits -/

namespace Hex

variable {c : Char} {digits : List Char} {bytes : List UInt8} {n : Nat}

/-- These digits, whatever their case, are those of these bytes. -/
def Spells (digits : List Char) (bytes : List UInt8) : Prop :=
  digits.map Char.toLower = encodeChars bytes

theorem toNat_lt_of_isDigit (h : isDigit c = true) : c.toNat < 128 := by
  unfold isDigit value? at h
  dsimp only at h
  split_ifs at h
  all_goals first | omega | cases h

theorem value?_toLower (c : Char) : value? c.toLower = value? c := by
  by_cases hc : c.toNat < 128
  · exact Text.ascii_cases (P := fun c => value? c.toLower = value? c) (by decide) hc
  · rw [Text.toLower_eq_self (Nat.not_lt.mp hc)]

/-- A character is a digit of a value if its lower case is the one that is written. -/
theorem value?_eq_some_iff : value? c = some n ↔ n < 16 ∧ c.toLower = digit n := by
  constructor
  · intro h
    have hlt := toNat_lt_of_isDigit (show isDigit c = true by rw [isDigit, h]; rfl)
    exact Text.ascii_cases (P := fun c => ∀ n ∈ value? c, n < 16 ∧ c.toLower = digit n) (by decide)
      hlt n h
  · rintro ⟨hlt, hc⟩
    rw [← value?_toLower, hc]
    exact value?_digit ⟨n, hlt⟩

theorem encodeChars_cons (b : UInt8) (bytes : List UInt8) :
    encodeChars (b :: bytes) = digit (b.toNat / 16) :: digit (b.toNat % 16) :: encodeChars bytes :=
  rfl

theorem length_encodeChars (bytes : List UInt8) :
    (encodeChars bytes).length = 2 * bytes.length := by
  induction bytes with
  | nil => rfl
  | cons b rest ih =>
    rw [encodeChars_cons, List.length_cons, List.length_cons, List.length_cons, ih]
    omega

theorem Spells.length (h : Spells digits bytes) : digits.length = 2 * bytes.length := by
  rw [← length_encodeChars, ← h, List.length_map]

theorem decode?_map_toLower (digits : List Char) :
    decode? (digits.map Char.toLower) = decode? digits := by
  induction digits using decode?.induct with
  | case1 => rfl
  | case2 => rfl
  | case3 high low rest h' l' bytes' hrest hh hl ih =>
    simp only [List.map_cons, decode?, value?_toLower, ih]
  | case4 high low rest hnone ih =>
    simp only [List.map_cons, decode?, value?_toLower, ih]

/-- What bytes are written with are digits. -/
theorem Spells.isDigit (h : Spells digits bytes) : ∀ c ∈ digits, isDigit c = true := by
  intro c hc
  have hmem : c.toLower ∈ encodeChars bytes := h ▸ List.mem_map_of_mem hc
  obtain ⟨b, -, hb⟩ := List.mem_flatMap.mp hmem
  have hlt := b.toNat_lt
  simp only [byte, List.mem_cons, List.not_mem_nil, or_false] at hb
  rcases hb with hb | hb
  · exact Option.isSome_iff_exists.mpr ⟨_, value?_eq_some_iff.mpr ⟨by omega, hb⟩⟩
  · exact Option.isSome_iff_exists.mpr ⟨_, value?_eq_some_iff.mpr ⟨by omega, hb⟩⟩

/-- **Digits are read as the bytes that they are the digits of.** -/
theorem decode?_eq_some_iff : decode? digits = some bytes ↔ Spells digits bytes := by
  constructor
  · intro h
    induction digits using decode?.induct generalizing bytes with
    | case1 =>
      cases h
      rfl
    | case2 => cases h
    | case3 high low rest h' l' bytes' hrest hh hl ih =>
      simp only [decode?, hh, hl, hrest, Option.some.injEq] at h
      subst h
      obtain ⟨hlth, hhigh⟩ := value?_eq_some_iff.mp hh
      obtain ⟨hltl, hlow⟩ := value?_eq_some_iff.mp hl
      have hbyte : (UInt8.ofNat (16 * h' + l')).toNat = 16 * h' + l' :=
        UInt8.toNat_ofNat_of_lt' (by rw [UInt8.size]; omega)
      rw [Spells, List.map_cons, List.map_cons, hhigh, hlow, ih hrest, encodeChars_cons, hbyte]
      congr 2 <;> congr 1 <;> omega
    | case4 high low rest hnone ih =>
      rw [decode?] at h
      split at h
      · rename_i hh hl hrest
        exact (hnone _ _ _ hh hl hrest).elim
      · cases h
  · intro h
    rw [← decode?_map_toLower, h, decode?_encodeChars]

/-- An even number of digits are those of some bytes. -/
theorem exists_spells (hdigits : ∀ c ∈ digits, isDigit c = true) (hlength : digits.length = 2 * n) :
    ∃ bytes : Bytes n, Spells digits bytes.toList := by
  suffices h : ∃ bytes, decode? digits = some bytes by
    obtain ⟨bytes, hbytes⟩ := h
    have hspells := decode?_eq_some_iff.mp hbytes
    have := hspells.length
    exact ⟨⟨bytes, by omega⟩, hspells⟩
  induction digits using decode?.induct generalizing n with
  | case1 => exact ⟨_, rfl⟩
  | case2 =>
    rw [List.length_singleton] at hlength
    omega
  | case3 high low rest h' l' bytes' hrest hh hl ih =>
    exact ⟨UInt8.ofNat (16 * h' + l') :: bytes', by simp only [decode?, hh, hl, hrest]⟩
  | case4 high low rest hnone ih =>
    simp only [List.length_cons] at hlength
    rw [List.forall_mem_cons, List.forall_mem_cons] at hdigits
    obtain ⟨h', hh⟩ := Option.isSome_iff_exists.mp hdigits.1
    obtain ⟨l', hl⟩ := Option.isSome_iff_exists.mp hdigits.2.1
    obtain ⟨bytes', hrest⟩ := ih hdigits.2.2 (n := n - 1) (by omega)
    exact (hnone _ _ _ hh hl hrest).elim

end Hex

namespace KeyLine

/-! ## The characters of a line -/

variable {c : Char}

theorem toNat_lt_of_isNameChar (h : isNameChar c = true) : c.toNat < 128 := by
  unfold isNameChar Char.isAlphanum Char.isAlpha Char.isUpper Char.isLower Char.isDigit at h
  simp only [Bool.or_eq_true, Bool.and_eq_true, decide_eq_true_eq, beq_iff_eq] at h
  rcases h with ((⟨-, h⟩ | ⟨-, h⟩) | ⟨-, h⟩) | rfl
  · exact Nat.lt_of_le_of_lt h (by decide)
  · exact Nat.lt_of_le_of_lt h (by decide)
  · exact Nat.lt_of_le_of_lt h (by decide)
  · decide

theorem not_isBlank_of_isNameChar (h : isNameChar c = true) : Text.isBlank c = false :=
  Text.ascii_cases (P := fun c => isNameChar c = true → Text.isBlank c = false) (by decide)
    (toNat_lt_of_isNameChar h) h

theorem isNameChar_of_isDigit (h : Hex.isDigit c = true) : isNameChar c = true :=
  Text.ascii_cases (P := fun c => Hex.isDigit c = true → isNameChar c = true) (by decide)
    (Hex.toNat_lt_of_isDigit h) h

theorem not_isNameChar_of_isBlank (h : Text.isBlank c = true) : isNameChar c = false := by
  by_contra hname
  rw [not_isBlank_of_isNameChar (Bool.not_eq_false _ ▸ hname)] at h
  cases h

theorem not_isDigit_of_isBlank (h : Text.isBlank c = true) : Hex.isDigit c = false := by
  by_contra hdigit
  have hname := isNameChar_of_isDigit (Bool.not_eq_false _ ▸ hdigit)
  rw [not_isNameChar_of_isBlank h] at hname
  cases hname

/-! ## The parts of a line -/

/-- One way to write a line that gives a value to a name: what stands in it from left to right, but for
the equals sign. -/
structure Spelling where
  /-- What stands in front of the name. -/
  margin : List Char
  name : List Char
  /-- What stands between the name and the equals sign. -/
  gap : List Char
  /-- What stands between the equals sign and the digits. -/
  indent : List Char
  digits : List Char
  /-- What stands behind the digits. -/
  trail : List Char

namespace Spelling

/-- What stands behind the equals sign. -/
def behindEquals (w : Spelling) : List Char := w.indent ++ (w.digits ++ w.trail)

/-- What stands behind the name. -/
def behindName (w : Spelling) : List Char := w.gap ++ '=' :: w.behindEquals

/-- The line. -/
def line (w : Spelling) : List Char := w.margin ++ (w.name ++ w.behindName)

/-- The name and the value have at least one character each, all of the right kind, and around them is
nothing but white space. -/
structure WellFormed (w : Spelling) : Prop where
  margin : ∀ c ∈ w.margin, Text.isBlank c = true
  name_ne_nil : w.name ≠ []
  name : ∀ c ∈ w.name, isNameChar c = true
  gap : ∀ c ∈ w.gap, Text.isBlank c = true
  indent : ∀ c ∈ w.indent, Text.isBlank c = true
  digits_ne_nil : w.digits ≠ []
  digits : ∀ c ∈ w.digits, Hex.isDigit c = true
  trail : ∀ c ∈ w.trail, Text.isBlank c = true

end Spelling

/-- A run of characters of one kind ends where another kind begins. -/
theorem span_append {p : Char → Bool} {run rest : List Char} (hrun : ∀ c ∈ run, p c = true)
    (hrest : ∀ c ∈ rest.head?, p c = false) :
    (run ++ rest).takeWhile p = run ∧ (run ++ rest).dropWhile p = rest := by
  have hstop : rest.takeWhile p = [] ∧ rest.dropWhile p = rest := by
    cases rest with
    | nil => exact ⟨rfl, rfl⟩
    | cons c rest =>
      have hc : ¬ p c = true := by simp [hrest c rfl]
      exact ⟨List.takeWhile_cons_of_neg hc, List.dropWhile_cons_of_neg hc⟩
  rw [List.takeWhile_append_of_pos hrun, List.dropWhile_append_of_pos hrun, hstop.1, hstop.2]
  exact ⟨List.append_nil run, rfl⟩

theorem head?_append_of_ne_nil {p : Char → Bool} {run rest : List Char} (hne : run ≠ [])
    (hrun : ∀ c ∈ run, p c = false) : ∀ c ∈ (run ++ rest).head?, p c = false := by
  intro c hc
  cases run with
  | nil => exact absurd rfl hne
  | cons first run =>
    cases hc
    exact hrun _ List.mem_cons_self

variable {line name digits : List Char}

/-- **A well-formed line is read as it is written.** -/
theorem fields?_line {w : Spelling} (h : w.WellFormed) : fields? w.line = some (w.name, w.digits) := by
  have hname : ∀ c ∈ w.name, Text.isBlank c = false :=
    fun c hc => not_isBlank_of_isNameChar (h.name c hc)
  have hdigits : ∀ c ∈ w.digits, Text.isBlank c = false :=
    fun c hc => not_isBlank_of_isNameChar (isNameChar_of_isDigit (h.digits c hc))
  have hgap : ∀ c ∈ w.behindName.head?, isNameChar c = false := by
    intro c hc
    rw [Spelling.behindName] at hc
    rcases hcase : w.gap with _ | ⟨first, gap⟩
    · rw [hcase] at hc
      cases hc
      decide
    · rw [hcase] at hc
      cases hc
      exact not_isNameChar_of_isBlank (h.gap _ (hcase ▸ List.mem_cons_self))
  have hequals : ∀ c ∈ ('=' :: w.behindEquals).head?, Text.isBlank c = false := by
    intro c hc
    cases hc
    decide
  have htrail : ∀ c ∈ w.trail.head?, Hex.isDigit c = false :=
    fun c hc => not_isDigit_of_isBlank (h.trail c (List.mem_of_mem_head? hc))
  have hkept : (!w.name.isEmpty && !w.digits.isEmpty && w.trail.all Text.isBlank) = true := by
    rw [List.all_eq_true.mpr h.trail]
    simp [h.name_ne_nil, h.digits_ne_nil]
  rw [fields?, Spelling.line]
  dsimp only
  rw [(span_append h.margin (head?_append_of_ne_nil h.name_ne_nil hname)).2,
    (span_append h.name hgap).1, (span_append h.name hgap).2, Spelling.behindName,
    (span_append h.gap hequals).2, Spelling.behindEquals]
  change ite _ _ _ = _
  rw [(span_append h.indent (head?_append_of_ne_nil h.digits_ne_nil hdigits)).2,
    (span_append h.digits htrail).1, (span_append h.digits htrail).2, if_pos hkept]

/-- **A line is read exactly as it is written.** -/
theorem fields?_eq_some_iff : fields? line = some (name, digits) ↔
    ∃ w : Spelling, w.WellFormed ∧ w.line = line ∧ w.name = name ∧ w.digits = digits := by
  constructor
  · intro h
    unfold fields? at h
    dsimp only at h
    split at h
    · rename_i rest hrest
      split at h
      · rename_i hkept
        cases h
        simp only [Bool.and_eq_true, Bool.not_eq_true', List.isEmpty_eq_false_iff,
          List.all_eq_true] at hkept
        obtain ⟨⟨hname, hdigits⟩, htrail⟩ := hkept
        refine ⟨⟨line.takeWhile Text.isBlank, _,
          ((line.dropWhile Text.isBlank).dropWhile isNameChar).takeWhile Text.isBlank,
          rest.takeWhile Text.isBlank, _, (rest.dropWhile Text.isBlank).dropWhile Hex.isDigit⟩,
          ?_, ?_, rfl, rfl⟩
        · exact ⟨fun c => List.mem_takeWhile_imp, hname, fun c => List.mem_takeWhile_imp,
            fun c => List.mem_takeWhile_imp, fun c => List.mem_takeWhile_imp, hdigits,
            fun c => List.mem_takeWhile_imp, htrail⟩
        · rw [Spelling.line, Spelling.behindName, Spelling.behindEquals,
            List.takeWhile_append_dropWhile, List.takeWhile_append_dropWhile, ← hrest,
            List.takeWhile_append_dropWhile, List.takeWhile_append_dropWhile,
            List.takeWhile_append_dropWhile]
      · cases h
    · cases h
  · rintro ⟨w, hw, rfl, rfl, rfl⟩
    exact fields?_line hw

/-! ## The end of a line -/

theorem Spelling.line_trail_concat (w : Spelling) (trail : List Char) (last : Char) :
    { w with trail := trail ++ [last] }.line = { w with trail := trail }.line ++ [last] := by
  simp only [line, behindName, behindEquals, List.append_assoc, List.cons_append]

/-- A character of white space at the end of a line makes no difference. -/
theorem fields?_concat (line : List Char) (hc : Text.isBlank c = true) :
    fields? (line ++ [c]) = fields? line := by
  apply Option.ext
  rintro ⟨name, digits⟩
  rw [fields?_eq_some_iff, fields?_eq_some_iff]
  constructor
  · rintro ⟨⟨margin, name, gap, indent, digits, trail⟩, hw, hline, rfl, rfl⟩
    rcases List.eq_nil_or_concat' trail with rfl | ⟨trail, last, rfl⟩
    · -- Such a line ends with a digit.
      obtain ⟨digits, last, rfl⟩ := (List.eq_nil_or_concat' digits).resolve_left hw.digits_ne_nil
      have hlast := congrArg List.getLast? hline
      simp only [Spelling.line, Spelling.behindName, Spelling.behindEquals, List.append_nil,
        ← List.append_assoc, ← List.cons_append, List.getLast?_concat] at hlast
      cases hlast
      have hdigit := hw.digits c (List.mem_append_right _ List.mem_cons_self)
      rw [not_isDigit_of_isBlank hc] at hdigit
      cases hdigit
    · rw [Spelling.line_trail_concat ⟨margin, name, gap, indent, digits, []⟩] at hline
      refine ⟨⟨margin, name, gap, indent, digits, trail⟩, ?_, (List.append_inj' hline rfl).1, rfl, rfl⟩
      exact { hw with trail := fun c hc => hw.trail c (List.mem_append_left _ hc) }
  · rintro ⟨w, hw, rfl, rfl, rfl⟩
    refine ⟨{ w with trail := w.trail ++ [c] }, ?_, w.line_trail_concat w.trail c, rfl, rfl⟩
    refine { hw with trail := ?_ }
    intro d hd
    rcases List.mem_append.mp hd with hd | hd
    · exact hw.trail d hd
    · rw [List.mem_singleton.mp hd]
      exact hc

theorem fields?_dropLastIf (line : List Char) (hc : Text.isBlank c = true) :
    fields? (Text.dropLastIf c line) = fields? line := by
  unfold Text.dropLastIf
  split
  · rename_i hlast
    obtain ⟨front, rfl⟩ := List.getLast?_eq_some_iff.mp (beq_iff_eq.mp hlast)
    rw [List.dropLast_concat, fields?_concat front hc]
  · rfl

end KeyLine

end Cartridge
