import Cartridge.Proofs.Nca.Retry
import Mathlib.Data.List.Induction

/-!
# The names of sections

An archive lists its sections under their numbers in decimal digits, and opens a name by reading it as a
number. A number is read from more names than the one that is listed: zeros may stand in front of the
digits, and a plus sign in front of all. So an archive that is open opens the names that it lists and
their other spellings, each as the section with that number, and every other name is not found.

Results:
* `exists_zeros_append_toDigits`: digits are those of their value behind zeros.
* `Archive.indexOfName?_eq_some_iff`: the names that a number is read from.
* `Archive.outcome_openFile_of_parse`: what a name opens.
* `Archive.Reaches.opens_spellings`: the names that open, and how they differ from those listed.
* `Specimen.opens_unlisted`: a name that is not listed and opens.
-/

namespace Cartridge.Nca

/-! ## Digits -/

/-- A digit is that of its value. -/
theorem digitChar_of_isDigit {c : Char} (h : c.isDigit = true) :
    c.toNat - 48 < 10 ∧ Nat.digitChar (c.toNat - 48) = c := by
  obtain ⟨hlow, hhigh⟩ := Char.isDigit_iff_toNat.mp h
  have hzero : '0'.toNat = 48 := rfl
  have hnine : '9'.toNat = 57 := rfl
  have hlt : c.toNat - 48 < 10 := by omega
  refine ⟨hlt, Char.toNat_inj.mp ?_⟩
  rw [Nat.toNat_digitChar_of_lt_ten hlt]
  omega

/-- **Digits are those of their value behind zeros.** The induction is from the last digit, which is also
the last one of the value. -/
theorem exists_zeros_append_toDigits {digits : List Char} (hne : digits ≠ [])
    (hdigits : ∀ c ∈ digits, c.isDigit = true) :
    ∃ zeros, digits = List.replicate zeros '0' ++ Nat.toDigits 10 (Nat.ofDigitChars 10 digits 0) := by
  induction digits using List.reverseRecOn with
  | nil => exact absurd rfl hne
  | append_singleton front c ih =>
    obtain ⟨hlt, hc⟩ := digitChar_of_isDigit (hdigits c List.mem_concat_self)
    have hlast : Nat.toDigits 10 (c.toNat - 48) = [c] := by
      rw [Nat.toDigits_of_lt_base hlt, hc]
    have hvalue : Nat.ofDigitChars 10 (front ++ [c]) 0
        = 10 * Nat.ofDigitChars 10 front 0 + (c.toNat - 48) := by
      rw [Nat.ofDigitChars_append, Nat.ofDigitChars_cons, Nat.ofDigitChars_nil]
      rfl
    rw [hvalue]
    by_cases hfront : front = []
    · subst hfront
      refine ⟨0, ?_⟩
      rw [Nat.ofDigitChars_nil, Nat.mul_zero, Nat.zero_add, hlast]
      rfl
    · obtain ⟨zeros, hzeros⟩ := ih hfront fun d hd => hdigits d (List.mem_append_left [c] hd)
      generalize Nat.ofDigitChars 10 front 0 = value at hzeros
      by_cases hpos : 0 < value
      · refine ⟨zeros, ?_⟩
        rw [← Nat.toDigits_append_toDigits (by decide) hpos hlt, hlast, ← List.append_assoc, ← hzeros]
      · -- the digits in front are zeros, one of which was the digit of their value
        obtain rfl : value = 0 := by omega
        refine ⟨zeros + 1, ?_⟩
        rw [Nat.mul_zero, Nat.zero_add, hlast, List.replicate_succ', hzeros, Nat.toDigits_zero]

theorem ofDigitChars_zeros_append (zeros n : Nat) :
    Nat.ofDigitChars 10 (List.replicate zeros '0' ++ Nat.toDigits 10 n) 0 = n := by
  rw [Nat.ofDigitChars_append, Nat.ofDigitChars_replicate_zero, Nat.mul_zero,
    Nat.ofDigitChars_ten_toDigits]

theorem isDigit_of_mem_zeros_append {zeros n : Nat} {c : Char}
    (h : c ∈ List.replicate zeros '0' ++ Nat.toDigits 10 n) : c.isDigit = true := by
  obtain h | h := List.mem_append.mp h
  · rw [List.eq_of_mem_replicate h]
    rfl
  · exact Nat.isDigit_of_mem_toDigits (by decide) (by decide) h

theorem toList_toString (n : Nat) : (toString n).toList = Nat.toDigits 10 n := by
  rw [Nat.toString_eq_repr, Nat.toList_repr]

theorem toString_injective : Function.Injective (toString : Nat → String) := by
  intro m n heq
  have hdigits : Nat.toDigits 10 m = Nat.toDigits 10 n := by
    rw [← toList_toString, ← toList_toString, heq]
  calc
    m = Nat.ofDigitChars 10 (Nat.toDigits 10 m) 0 := Nat.ofDigitChars_ten_toDigits.symm
    _ = Nat.ofDigitChars 10 (Nat.toDigits 10 n) 0 := by rw [hdigits]
    _ = n := Nat.ofDigitChars_ten_toDigits

/-! ## Spellings -/

/-- A name is a numeral behind any zeros, and these behind a plus sign or none. -/
def Spells (name numeral : String) : Prop :=
  ∃ zeros : Nat, name.toList = List.replicate zeros '0' ++ numeral.toList ∨
    name.toList = '+' :: (List.replicate zeros '0' ++ numeral.toList)

theorem Spells.refl (numeral : String) : Spells numeral numeral := ⟨0, .inl rfl⟩

namespace Archive

/-- The number that digits write, if there are any and if it has 64 bits. -/
def valueOfDigits? (digits : List Char) : Option Nat :=
  if digits.isEmpty || !digits.all Char.isDigit then none
  else if Nat.ofDigitChars 10 digits 0 < UInt64.size then some (Nat.ofDigitChars 10 digits 0)
  else none

theorem indexOfName?_eq (name : String) :
    indexOfName? name = valueOfDigits? (match name.toList with
      | '+' :: rest => rest
      | all => all) := by
  unfold indexOfName? valueOfDigits?
  rw [Nat.ofDigitChars_eq_foldl]
  rfl

/-- Digits write the number that they are the digits of behind zeros. -/
theorem valueOfDigits?_eq_some_iff {digits : List Char} {n : Nat} :
    valueOfDigits? digits = some n ↔
      n < UInt64.size ∧ ∃ zeros, digits = List.replicate zeros '0' ++ Nat.toDigits 10 n := by
  unfold valueOfDigits?
  constructor
  · intro h
    split at h
    · cases h
    · rename_i hdigits
      split at h
      · rename_i hlt
        cases h
        rw [Bool.not_eq_true, Bool.or_eq_false_iff, List.isEmpty_eq_false_iff,
          Bool.not_eq_false', List.all_eq_true] at hdigits
        exact ⟨hlt, exists_zeros_append_toDigits hdigits.1 hdigits.2⟩
      · cases h
  · rintro ⟨hlt, zeros, rfl⟩
    have hne : (List.replicate zeros '0' ++ Nat.toDigits 10 n).isEmpty = false :=
      List.isEmpty_eq_false_iff.mpr (List.append_ne_nil_of_right_ne_nil _ Nat.toDigits_ne_nil)
    have hall : (List.replicate zeros '0' ++ Nat.toDigits 10 n).all Char.isDigit = true :=
      List.all_eq_true.mpr fun _ hc => isDigit_of_mem_zeros_append hc
    rw [hne, hall, ofDigitChars_zeros_append, if_pos hlt]
    rfl

/-- **The names that a number is read from** are the spellings of its digits, if it has 64 bits. -/
theorem indexOfName?_eq_some_iff {name : String} {n : Nat} :
    indexOfName? name = some n ↔ n < UInt64.size ∧ Spells name (toString n) := by
  have hplus (zeros : Nat) (rest : List Char) :
      '+' :: rest ≠ List.replicate zeros '0' ++ Nat.toDigits 10 n := by
    intro h
    have hdigit : '+'.isDigit = true := isDigit_of_mem_zeros_append (h ▸ List.mem_cons_self)
    exact absurd hdigit (by decide)
  rw [indexOfName?_eq, valueOfDigits?_eq_some_iff, Spells, toList_toString]
  refine and_congr_right fun _ => exists_congr fun zeros => ?_
  split
  · rename_i rest hname
    rw [hname, List.cons.injEq, eq_self_iff_true, true_and, or_iff_right (hplus zeros rest)]
  · rename_i hname
    exact (or_iff_left (hname _)).symm

/-! ## Archives -/

variable {media : Media} {keys : KeyStore} {a b : Archive} {view : View} {h : Headers}
  {opened : List Section}

/-- The sections of an open archive have different numbers, which are those of places. -/
theorem Consistent.index_of_parsed (ha : a.Consistent) (hstage : a.stage = .parsed h opened) :
    (opened.map fun s => s.descriptor.index).Nodup ∧ ∀ s ∈ opened, s.descriptor.index < 4 := by
  obtain ⟨ds, -, hdescribe, hmap, -⟩ := ha.parsed hstage
  have hsub : (opened.map fun s => s.descriptor.index).Sublist [0, 1, 2, 3] := by
    rw [show (opened.map fun s => s.descriptor.index)
      = (opened.map Section.descriptor).map Descriptor.index from (List.map_map).symm, hmap]
    exact (List.filter_sublist.map _).trans (Headers.describe_places hdescribe).1
  refine ⟨hsub.nodup (by decide), fun s hs => ?_⟩
  have hplace : s.descriptor.index ∈ [0, 1, 2, 3] :=
    hsub.subset (List.mem_map_of_mem (f := fun s => s.descriptor.index) hs)
  revert hplace
  generalize s.descriptor.index = index
  intro hplace
  have hall : ∀ i ∈ [0, 1, 2, 3], i < 4 := by decide
  exact hall index hplace

/-- Parsing that succeeds leaves the archive open. -/
theorem exists_stage_of_outcome_parse (hparse : (parse media keys).outcome a = (.ok (), b)) :
    ∃ h opened, b.stage = .parsed h opened := by
  rw [outcome_parse] at hparse
  have hrank : State.parsed.rank ≤ b.state.rank := rank_of_reach hparse
  refine exists_stage_of_parsed ?_
  generalize b.state = state at hrank
  cases state with
  | parsed => rfl
  | unparsed | headerDecrypted | sectionsResolved => exact absurd hrank (by decide)

theorem outcome_listFiles_of_parse
    (hparse : (parse media keys).outcome a = (.ok (), ⟨view, .parsed h opened⟩)) :
    (listFiles media keys).outcome a
      = (.ok (opened.map fun s => toString s.descriptor.index), ⟨view, .parsed h opened⟩) := by
  unfold listFiles
  rw [Access.outcome_bind, outcome_sections_of_parse hparse]
  rfl

/-- **What a name opens**: the section with the number that is read from it. -/
theorem outcome_openFile_of_parse
    (hparse : (parse media keys).outcome a = (.ok (), ⟨view, .parsed h opened⟩)) (name : String) :
    (openFile media keys name).outcome a = match indexOfName? name with
      | none => (.error (.entryNotFound name), a)
      | some index =>
        match opened.find? fun s => s.descriptor.index == index with
        | some s => (.ok s.view, ⟨view, .parsed h opened⟩)
        | none => (.error (.entryNotFound ("NCA section " ++ toString index)),
            ⟨view, .parsed h opened⟩) := by
  unfold openFile
  cases indexOfName? name with
  | none => rfl
  | some index =>
    dsimp only
    unfold sectionAt
    rw [Access.outcome_bind, Access.outcome_bind, outcome_sections_of_parse hparse]
    dsimp only
    cases opened.find? fun s => s.descriptor.index == index <;> rfl

/-- A section is found by its number. -/
theorem find?_index_eq_some_iff (hnodup : (opened.map fun s => s.descriptor.index).Nodup)
    {index : Nat} {s : Section} :
    (opened.find? fun s => s.descriptor.index == index) = some s ↔
      s ∈ opened ∧ s.descriptor.index = index := by
  constructor
  · intro hfind
    have hindex : (s.descriptor.index == index) = true := by
      simpa only using List.find?_some hfind
    exact ⟨List.mem_of_find?_eq_some hfind, eq_of_beq hindex⟩
  · rintro ⟨hmem, hindex⟩
    cases hfind : opened.find? fun s => s.descriptor.index == index with
    | none => exact absurd (beq_iff_eq.mpr hindex) (List.find?_eq_none.mp hfind s hmem)
    | some t =>
      have hfound : (t.descriptor.index == index) = true := by
        simpa only using List.find?_some hfind
      have hsame : t.descriptor.index = s.descriptor.index :=
        (eq_of_beq hfound).trans hindex.symm
      rw [List.inj_on_of_nodup_map hnodup (List.mem_of_find?_eq_some hfind) hmem hsame]

/-- A name opens the section whose number it spells. -/
theorem outcome_openFile_eq_ok_iff
    (hparse : (parse media keys).outcome a = (.ok (), ⟨view, .parsed h opened⟩))
    (hb : Consistent ⟨view, .parsed h opened⟩) {name : String} {v : View} :
    (openFile media keys name).outcome a = (.ok v, ⟨view, .parsed h opened⟩) ↔
      ∃ s ∈ opened, Spells name (toString s.descriptor.index) ∧ s.view = v := by
  obtain ⟨hnodup, hplace⟩ := hb.index_of_parsed rfl
  rw [outcome_openFile_of_parse hparse]
  constructor
  · intro hopen
    split at hopen
    · cases hopen
    · rename_i index hindex
      split at hopen
      · rename_i s hfind
        obtain ⟨hmem, rfl⟩ := (find?_index_eq_some_iff hnodup).mp hfind
        obtain ⟨hview, -⟩ := Prod.mk.inj hopen
        exact ⟨s, hmem, (indexOfName?_eq_some_iff.mp hindex).2, Except.ok.inj hview⟩
      · cases hopen
  · rintro ⟨s, hmem, hspells, rfl⟩
    have hsize : s.descriptor.index < UInt64.size := Nat.lt_trans (hplace s hmem) (by decide)
    rw [indexOfName?_eq_some_iff.mpr ⟨hsize, hspells⟩]
    dsimp only
    rw [(find?_index_eq_some_iff hnodup).mpr ⟨hmem, rfl⟩]

/-- A name that opens nothing is not found. -/
theorem exists_entryNotFound
    (hparse : (parse media keys).outcome a = (.ok (), ⟨view, .parsed h opened⟩)) {name : String}
    (hnone : ∀ v, (openFile media keys name).outcome a ≠ (.ok v, ⟨view, .parsed h opened⟩)) :
    ∃ text, ((openFile media keys name).outcome a).1 = .error (.entryNotFound text) := by
  rw [outcome_openFile_of_parse hparse] at hnone ⊢
  split at hnone
  · exact ⟨name, rfl⟩
  · rename_i index _
    split at hnone
    · rename_i s _
      exact absurd rfl (hnone s.view)
    · exact ⟨"NCA section " ++ toString index, rfl⟩

/-- Two numerals that one name spells are the same. -/
theorem eq_of_spells {name : String} {m n : Nat} (hm : m < UInt64.size) (hn : n < UInt64.size)
    (h : Spells name (toString m)) (h' : Spells name (toString n)) : m = n :=
  Option.some.inj ((indexOfName?_eq_some_iff.mpr ⟨hm, h⟩).symm.trans
    (indexOfName?_eq_some_iff.mpr ⟨hn, h'⟩))

/-- The listed names are different. -/
theorem nodup_listed (hnodup : (opened.map fun s => s.descriptor.index).Nodup) :
    (opened.map fun s => toString s.descriptor.index).Nodup := by
  have hmap : (opened.map fun s => toString s.descriptor.index)
      = (opened.map fun s => s.descriptor.index).map toString := by
    rw [List.map_map]
    rfl
  rw [hmap]
  exact hnodup.map toString_injective

/-- A name opens exactly if it is listed, unless it is another spelling of a listed one. -/
theorem opens_iff_mem_listed_iff
    (hparse : (parse media keys).outcome a = (.ok (), ⟨view, .parsed h opened⟩))
    (hb : Consistent ⟨view, .parsed h opened⟩) (name : String) :
    ((∃ v, (openFile media keys name).outcome a = (.ok v, ⟨view, .parsed h opened⟩)) ↔
        name ∈ opened.map fun s => toString s.descriptor.index) ↔
      ∀ numeral ∈ opened.map (fun s => toString s.descriptor.index),
        Spells name numeral → name = numeral := by
  have hsize (s : Section) (hs : s ∈ opened) : s.descriptor.index < UInt64.size :=
    Nat.lt_trans ((hb.index_of_parsed rfl).2 s hs) (by decide)
  constructor
  · intro hiff numeral hnumeral hspells
    obtain ⟨s, hs, rfl⟩ := List.mem_map.mp hnumeral
    have hname := hiff.mp ⟨s.view, (outcome_openFile_eq_ok_iff hparse hb).mpr ⟨s, hs, hspells, rfl⟩⟩
    obtain ⟨t, ht, rfl⟩ := List.mem_map.mp hname
    rw [eq_of_spells (hsize t ht) (hsize s hs) (Spells.refl _) hspells]
  · intro honly
    constructor
    · rintro ⟨v, hopen⟩
      obtain ⟨s, hs, hspells, -⟩ := (outcome_openFile_eq_ok_iff hparse hb).mp hopen
      have hlisted := List.mem_map_of_mem (f := fun s => toString s.descriptor.index) hs
      rwa [honly _ hlisted hspells]
    · intro hname
      obtain ⟨s, hs, rfl⟩ := List.mem_map.mp hname
      exact ⟨s.view, (outcome_openFile_eq_ok_iff hparse hb).mpr ⟨s, hs, Spells.refl _, rfl⟩⟩

/-- **Listed names open, and so do their other spellings.** An archive that can be parsed lists different
names. A name opens a section exactly if it spells the section's number, with or without zeros and a plus
sign in front, and shows that section; any other name is not found. So a name opens exactly if it is listed,
unless it is another spelling of a listed one. -/
theorem Reaches.opens_spellings {archive : View} (ha : Reaches (ofView archive) a)
    (hparse : (parse media keys).outcome a = (.ok (), b)) :
    ∃ h opened listed, b.stage = .parsed h opened ∧
      listed = opened.map (fun s => toString s.descriptor.index) ∧ listed.Nodup ∧
      (listFiles media keys).outcome a = (.ok listed, b) ∧
      ∀ name,
        (∀ v, (openFile media keys name).outcome a = (.ok v, b) ↔
          ∃ s ∈ opened, Spells name (toString s.descriptor.index) ∧ s.view = v) ∧
        ((∀ v, (openFile media keys name).outcome a ≠ (.ok v, b)) →
          ∃ text, ((openFile media keys name).outcome a).1 = .error (.entryNotFound text)) ∧
        (((∃ v, (openFile media keys name).outcome a = (.ok v, b)) ↔ name ∈ listed) ↔
          ∀ numeral ∈ listed, Spells name numeral → name = numeral) := by
  obtain ⟨h, opened, hstage⟩ := exists_stage_of_outcome_parse hparse
  obtain ⟨view, stage⟩ := b
  cases hstage
  have hb : Consistent ⟨view, .parsed h opened⟩ := by
    have hreach := (keeps_reach media keys .parsed ha.consistent).1
    rwa [← outcome_parse, hparse] at hreach
  exact ⟨h, opened, _, rfl, rfl, nodup_listed (hb.index_of_parsed rfl).1,
    outcome_listFiles_of_parse hparse, fun name =>
      ⟨fun _ => outcome_openFile_eq_ok_iff hparse hb, exists_entryNotFound hparse,
        opens_iff_mem_listed_iff hparse hb name⟩⟩

end Archive

namespace Specimen

open Archive

/-- The specimen has one section, which has the number 0. -/
theorem exists_parse_view : ∃ s : Section, s.descriptor.index = 0 ∧
    (Archive.parse media keys).outcome (.ofView view) = (.ok (), ⟨view, .parsed headers [s]⟩) := by
  obtain ⟨s, houtline, hparse⟩ := parse_view
  exact ⟨s, congrArg (fun o => o.1.index) houtline, hparse⟩

/-- The specimen lists its section as 0 and opens it by the name +0, too. -/
theorem opens_unlisted : ∃ s : Section,
    (Archive.parse media keys).outcome (.ofView view) = (.ok (), ⟨view, .parsed headers [s]⟩) ∧
    (listFiles media keys).outcome (.ofView view) = (.ok ["0"], ⟨view, .parsed headers [s]⟩) ∧
    "+0" ∉ ["0"] ∧
    (openFile media keys "+0").outcome (.ofView view)
      = (.ok s.view, ⟨view, .parsed headers [s]⟩) := by
  obtain ⟨s, hindex, hparse⟩ := exists_parse_view
  refine ⟨s, hparse, ?_, by decide, ?_⟩
  · rw [outcome_listFiles_of_parse hparse, List.map_singleton, hindex]
    rfl
  · have hname : indexOfName? "+0" = some 0 := by decide
    have hfind : [s].find? (fun s => s.descriptor.index == 0) = some s :=
      List.find?_cons_of_pos (by rw [hindex]; rfl)
    rw [outcome_openFile_of_parse hparse, hname]
    dsimp only
    rw [hfind]

/-- The specimen opens 00, as the section that it lists as 0, and has nothing under 1. -/
theorem opens_spellings_specimen : ∃ s : Section,
    Archive.Reaches (.ofView view) (.ofView view) ∧
    (Archive.parse media keys).outcome (.ofView view) = (.ok (), ⟨view, .parsed headers [s]⟩) ∧
    (listFiles media keys).outcome (.ofView view) = (.ok ["0"], ⟨view, .parsed headers [s]⟩) ∧
    (openFile media keys "00").outcome (.ofView view)
      = (.ok s.view, ⟨view, .parsed headers [s]⟩) ∧
    ∃ text, ((openFile media keys "1").outcome (.ofView view)).1 = .error (.entryNotFound text) := by
  obtain ⟨s, hindex, hparse⟩ := exists_parse_view
  obtain ⟨h, opened, listed, hstage, hlisted, -, hlist, hname⟩ :=
    Reaches.opens_spellings .refl hparse
  cases hstage
  rw [List.map_singleton, hindex] at hlisted
  subst hlisted
  refine ⟨s, .refl, hparse, hlist, ?_, ?_⟩
  · refine ((hname "00").1 s.view).mpr ⟨s, List.mem_singleton_self s, ?_, rfl⟩
    rw [hindex]
    exact ⟨1, .inl rfl⟩
  · refine (hname "1").2.1 fun v hopen => ?_
    obtain ⟨t, ht, hspells, -⟩ := ((hname "1").1 v).mp hopen
    rw [List.mem_singleton.mp ht, hindex] at hspells
    exact absurd (indexOfName?_eq_some_iff.mpr ⟨by decide, hspells⟩) (by decide)

end Specimen

end Cartridge.Nca
