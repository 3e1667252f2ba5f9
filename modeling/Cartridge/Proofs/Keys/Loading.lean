import Cartridge.Proofs.Keys.Lines
import Mathlib.Data.List.Induction

/-!
# What is loaded from key text

Key text does what its lines say, one after the other, and lines that say nothing make no difference.
Which lines say something, and what, is a grammar: the parts of a line that are around the name and the
value do not matter, nor does the case of letters.

Results:
* `Text.lines_render`: the lines of a text that is put together from lines.
* `Grammar.writes_iff`: what lines say is a list that depends on each line alone.
* `KeyStore.loads_text`: named keys and title keys are loaded as the grammars of their lines say.
-/

namespace Cartridge

/-! ## Text put together from lines -/

namespace Text

/-- The end of a line that has one. -/
inductive LineEnd where
  | feed
  | returnFeed
deriving DecidableEq

/-- The characters of the end of a line. -/
def LineEnd.chars : LineEnd → List Char
  | feed => ['\n']
  | returnFeed => ['\r', '\n']

/-- The text of lines with an end and of a last one without. -/
def render (ended : List (List Char × LineEnd)) (last : List Char) : List Char :=
  ended.flatMap (fun l => l.1 ++ l.2.chars) ++ last

variable {line last : List Char}

theorem lines_of_not_mem (h : '\n' ∉ last) : lines last = if last.isEmpty then [] else [last] := by
  rw [lines, linesBy, split_of_not_mem h]
  rfl

theorem lines_append_feed (h : '\n' ∉ line) (rest : List Char) :
    lines (line ++ '\n' :: rest) = dropLastIf '\r' line :: lines rest := by
  rw [lines, linesBy, split_append_separator h]
  rfl

/-- A line of a text as it is found again: without a carriage return that looks like one of its end. -/
def cut (l : List Char × LineEnd) : List Char :=
  match l.2 with
  | .feed => dropLastIf '\r' l.1
  | .returnFeed => l.1

theorem lines_append_end (h : '\n' ∉ line) (e : LineEnd) (rest : List Char) :
    lines (line ++ e.chars ++ rest) = cut (line, e) :: lines rest := by
  cases e with
  | feed =>
    rw [List.append_assoc]
    exact lines_append_feed h rest
  | returnFeed =>
    have hreturn : '\n' ∉ line ++ ['\r'] := by simp [h]
    have hsplit := lines_append_feed hreturn rest
    rw [dropLastIf, if_pos (by rw [List.getLast?_concat]; rfl), List.dropLast_concat] at hsplit
    rw [cut, ← hsplit]
    simp [LineEnd.chars]

/-- **A text that is put together from lines has these lines.** -/
theorem lines_render {ended : List (List Char × LineEnd)} (hended : ∀ l ∈ ended, '\n' ∉ l.1)
    (hlast : '\n' ∉ last) :
    lines (render ended last) = ended.map cut ++ if last.isEmpty then [] else [last] := by
  induction ended with
  | nil => exact lines_of_not_mem hlast
  | cons l ended ih =>
    rw [List.forall_mem_cons] at hended
    have hrender : render (l :: ended) last = l.1 ++ l.2.chars ++ render ended last := by
      rw [render, List.flatMap_cons, List.append_assoc]
      rfl
    rw [hrender, lines_append_end hended.1, ih hended.2]
    rfl

end Text

/-! ## What lines say -/

/-- What is made of a line that gives a value to a name; nothing of other lines. -/
def KeyLine.read? {ω : Type} (said? : KeyLine → Option ω) (line : List Char) : Option ω :=
  (parse? line).bind said?

/-- Which of the lines that give a value to a name count, and what these say. -/
structure Grammar (ω : Type) where
  Counts : (name digits : List Char) → Prop
  Says : (name digits : List Char) → ω → Prop

namespace Grammar

variable {ω : Type} {G : Grammar ω} {said? : KeyLine → Option ω} {lines : List (List Char)}
  {writes : List ω}

/-- What a line says. -/
def Entry (G : Grammar ω) (line : List Char) (write : ω) : Prop :=
  ∃ w : KeyLine.Spelling, w.WellFormed ∧ w.line = line ∧ G.Counts w.name w.digits ∧
    G.Says w.name w.digits write

/-- A line that says nothing. -/
def Silent (G : Grammar ω) (line : List Char) : Prop :=
  ∀ w : KeyLine.Spelling, w.WellFormed → G.Counts w.name w.digits → w.line ≠ line

/-- What lines say, one after the other. -/
inductive Writes (G : Grammar ω) : List (List Char) → List ω → Prop
  | nil : Writes G [] []
  | entry {line : List Char} {write : ω} {lines : List (List Char)} {writes : List ω}
      (hentry : G.Entry line write) (hrest : Writes G lines writes) :
      Writes G (line :: lines) (write :: writes)
  | silent {line : List Char} {lines : List (List Char)} {writes : List ω}
      (hsilent : G.Silent line) (hrest : Writes G lines writes) : Writes G (line :: lines) writes

/-- What lines say is found by taking them apart and asking what the name and the value say. -/
structure ReadBy (G : Grammar ω) (said? : KeyLine → Option ω) : Prop where
  eq_some_iff : ∀ {line : List Char} {write : ω},
    KeyLine.read? said? line = some write ↔ G.Entry line write
  eq_none_iff : ∀ {line : List Char}, KeyLine.read? said? line = none ↔ G.Silent line

theorem readBy_of_eq_some_iff
    (hsome : ∀ {line : List Char} {write : ω},
      KeyLine.read? said? line = some write ↔ G.Entry line write)
    (hreads : ∀ w : KeyLine.Spelling, w.WellFormed → G.Counts w.name w.digits →
      ∃ write, G.Says w.name w.digits write) : G.ReadBy said? where
  eq_some_iff := hsome
  eq_none_iff := by
    intro line
    constructor
    · rintro hnone w hw hcounts rfl
      obtain ⟨write, hwrite⟩ := hreads w hw hcounts
      rw [hsome.mpr ⟨w, hw, rfl, hcounts, hwrite⟩] at hnone
      cases hnone
    · intro hsilent
      refine Option.eq_none_iff_forall_ne_some.mpr ?_
      intro write hwrite
      obtain ⟨w, hw, hline, hcounts, -⟩ := hsome.mp hwrite
      exact hsilent w hw hcounts hline

/-- **What lines say is what is read from each of them.** -/
theorem writes_iff (hread : G.ReadBy said?) :
    G.Writes lines writes ↔ writes = lines.filterMap (KeyLine.read? said?) := by
  constructor
  · intro h
    induction h with
    | nil => rfl
    | entry hentry _ ih => rw [List.filterMap_cons_some (hread.eq_some_iff.mpr hentry), ih]
    | silent hsilent _ ih => rw [List.filterMap_cons_none (hread.eq_none_iff.mpr hsilent), ih]
  · rintro rfl
    induction lines with
    | nil => exact .nil
    | cons line lines ih =>
      rcases hline : KeyLine.read? said? line with _ | write
      · rw [List.filterMap_cons_none hline]
        exact .silent (hread.eq_none_iff.mp hline) ih
      · rw [List.filterMap_cons_some hline]
        exact .entry (hread.eq_some_iff.mp hline) ih

end Grammar

/-! ## The two kinds of lines -/

theorem Bytes.ofList?_eq_some_iff {n : Nat} {bytes : List UInt8} {b : Bytes n} :
    ofList? n bytes = some b ↔ b.toList = bytes := by
  constructor
  · intro h
    unfold ofList? at h
    split at h
    · cases h
      rfl
    · cases h
  · rintro rfl
    exact ofList?_toList b

/-- A byte string is read as the key that has these bytes. -/
theorem Key.ofBytes?_eq_some_iff {bytes : List UInt8} {key : Key} :
    ofBytes? bytes = some key ↔ key.bytes = bytes := by
  constructor
  · intro h
    unfold ofBytes? at h
    split at h
    · rename_i b _ hb
      cases h
      exact Bytes.ofList?_eq_some_iff.mp hb
    · rename_i b _ hb
      cases h
      exact Bytes.ofList?_eq_some_iff.mp hb
    · cases h
  · rintro rfl
    cases key with
    | single b => simp only [bytes, ofBytes?, Bytes.ofList?_toList]
    | double b =>
      have hnone : Bytes.ofList? 16 b.toList = none := by simp [Bytes.ofList?]
      simp only [bytes, ofBytes?, hnone, Bytes.ofList?_toList]

/-- A key has sixteen or thirty-two bytes. -/
theorem Key.length_bytes (key : Key) : key.bytes.length = 16 ∨ key.bytes.length = 32 := by
  cases key with
  | single b => exact .inl b.length_toList
  | double b => exact .inr b.length_toList

/-- Lines that give a value of thirty-two or sixty-four digits to a name, whose case does not matter. -/
def Grammar.named : Grammar (String × Key) where
  Counts _ digits := digits.length = 32 ∨ digits.length = 64
  Says name digits write :=
    write.1 = foldCase (String.ofList name) ∧ Hex.Spells digits write.2.bytes

/-- Lines that give a value of thirty-two digits to a rights ID of thirty-two digits. -/
def Grammar.titled : Grammar (Bytes 16 × Block) where
  Counts name digits :=
    name.length = 32 ∧ (∀ c ∈ name, Hex.isDigit c = true) ∧ digits.length = 32
  Says name digits write := Hex.Spells name write.1.toList ∧ Hex.Spells digits write.2.toList

namespace KeyLine

/-- The key that a line names. -/
def namedKey? (l : KeyLine) : Option (String × Key) :=
  (Key.ofBytes? l.value).map fun key => (foldCase l.name, key)

/-- The title key that a line gives to a rights ID. -/
def titleKey? (l : KeyLine) : Option (Bytes 16 × Block) :=
  (KeyStore.rightsIdOf? l.name).bind fun rightsId =>
    (Bytes.ofList? 16 l.value).map fun key => (rightsId, key)

theorem parse?_eq_some_iff {line : List Char} {l : KeyLine} : parse? line = some l ↔
    ∃ w : Spelling, w.WellFormed ∧ w.line = line ∧ String.ofList w.name = l.name ∧
      Hex.Spells w.digits l.value := by
  constructor
  · intro h
    obtain ⟨⟨name, digits⟩, hfields, h⟩ := Option.bind_eq_some_iff.mp h
    obtain ⟨value, hvalue, h⟩ := Option.bind_eq_some_iff.mp h
    cases h
    obtain ⟨w, hw, hline, rfl, rfl⟩ := fields?_eq_some_iff.mp hfields
    exact ⟨w, hw, hline, rfl, Hex.decode?_eq_some_iff.mp hvalue⟩
  · obtain ⟨name, value⟩ := l
    rintro ⟨w, hw, rfl, rfl, hvalue⟩
    refine Option.bind_eq_some_iff.mpr ⟨_, fields?_line hw, ?_⟩
    exact Option.bind_eq_some_iff.mpr ⟨_, Hex.decode?_eq_some_iff.mpr hvalue, rfl⟩

theorem rightsIdOf?_eq_some_iff {name : String} {rightsId : Bytes 16} :
    KeyStore.rightsIdOf? name = some rightsId ↔ Hex.Spells name.toList rightsId.toList := by
  rw [KeyStore.rightsIdOf?, Option.bind_eq_some_iff]
  simp only [Hex.decode?_eq_some_iff, Bytes.ofList?_eq_some_iff, exists_eq_right']

/-- What is made of a line does not depend on its end. -/
theorem read?_cut {ω : Type} (said? : KeyLine → Option ω) (l : List Char × Text.LineEnd) :
    read? said? (Text.cut l) = read? said? l.1 := by
  rcases l with ⟨line, _ | _⟩
  · rw [Text.cut, read?, parse?, fields?_dropLastIf line (by decide)]
    rfl
  · rfl

/-- What is made of the lines of a text that is put together from lines is what is made of these. -/
theorem filterMap_lines_render {ω : Type} (said? : KeyLine → Option ω)
    {ended : List (List Char × Text.LineEnd)} {last : List Char}
    (hended : ∀ l ∈ ended, '\n' ∉ l.1) (hlast : '\n' ∉ last) :
    (Text.lines (Text.render ended last)).filterMap (read? said?) =
      (ended.map Prod.fst ++ [last]).filterMap (read? said?) := by
  rw [Text.lines_render hended hlast, List.filterMap_append, List.filterMap_append,
    List.filterMap_map, List.filterMap_map]
  congr 1
  · congr 1
    funext l
    exact read?_cut said? l
  · rcases last with _ | ⟨c, last⟩
    · rfl
    · rfl

theorem named_readBy : Grammar.named.ReadBy namedKey? := by
  apply Grammar.readBy_of_eq_some_iff
  · rintro line ⟨name, key⟩
    rw [read?, Option.bind_eq_some_iff]
    simp only [parse?_eq_some_iff, namedKey?, Option.map_eq_some_iff, Key.ofBytes?_eq_some_iff]
    constructor
    · rintro ⟨l, ⟨w, hw, hline, hname, hvalue⟩, key', hkey, heq⟩
      cases heq
      rw [← hkey] at hvalue
      have hlength := hvalue.length
      rcases key.length_bytes with hkey | hkey
      · exact ⟨w, hw, hline, .inl (by omega), by rw [hname], hvalue⟩
      · exact ⟨w, hw, hline, .inr (by omega), by rw [hname], hvalue⟩
    · rintro ⟨w, hw, hline, -, rfl, hvalue⟩
      exact ⟨⟨_, _⟩, ⟨w, hw, hline, rfl, hvalue⟩, key, rfl, rfl⟩
  · intro w hw hcounts
    rcases hcounts with hlength | hlength
    · obtain ⟨key, hkey⟩ := Hex.exists_spells (n := 16) hw.digits hlength
      exact ⟨(_, .single key), rfl, hkey⟩
    · obtain ⟨key, hkey⟩ := Hex.exists_spells (n := 32) hw.digits hlength
      exact ⟨(_, .double key), rfl, hkey⟩

theorem titled_readBy : Grammar.titled.ReadBy titleKey? := by
  apply Grammar.readBy_of_eq_some_iff
  · rintro line ⟨rightsId, key⟩
    rw [read?, Option.bind_eq_some_iff]
    simp only [parse?_eq_some_iff, titleKey?, Option.bind_eq_some_iff, Option.map_eq_some_iff,
      rightsIdOf?_eq_some_iff, Bytes.ofList?_eq_some_iff]
    constructor
    · rintro ⟨l, ⟨w, hw, hline, hname, hvalue⟩, rightsId', hid, key', hkey, heq⟩
      cases heq
      rw [← hkey] at hvalue
      rw [← hname, String.toList_ofList] at hid
      have hidLength := hid.length
      have hlength := hvalue.length
      rw [Bytes.length_toList] at hidLength hlength
      exact ⟨w, hw, hline, ⟨hidLength, hid.isDigit, hlength⟩, hid, hvalue⟩
    · rintro ⟨w, hw, hline, -, hid, hvalue⟩
      exact ⟨⟨String.ofList w.name, _⟩, ⟨w, hw, hline, rfl, hvalue⟩, rightsId,
        by rw [String.toList_ofList]; exact hid, key, rfl, rfl⟩
  · rintro w hw ⟨hname, hdigits, hlength⟩
    obtain ⟨rightsId, hrightsId⟩ := Hex.exists_spells (n := 16) hdigits hname
    obtain ⟨key, hkey⟩ := Hex.exists_spells (n := 16) hw.digits hlength
    exact ⟨(rightsId, key), hrightsId, hkey⟩

end KeyLine

/-! ## Loading -/

/-- Of several writes the last one of each key counts. -/
theorem Catalog.find?_foldl_insert {κ ν : Type} [DecidableEq κ] (c : Catalog κ ν)
    (writes : List (κ × ν)) (key : κ) :
    (writes.foldl (fun c w => c.insert w.1 w.2) c).find? key =
      ((writes.reverse.find? (·.1 == key)).map Prod.snd).or (c.find? key) := by
  induction writes using List.reverseRecOn with
  | nil => rfl
  | append_singleton writes w ih =>
    rw [List.foldl_append, List.foldl_cons, List.foldl_nil, find?_insert, ih, List.reverse_append]
    by_cases h : key = w.1
    · simp [h]
    · simp [h, Ne.symm h]

namespace KeyStore

/-- The store with a named key. -/
def putKey (s : KeyStore) (write : String × Key) : KeyStore :=
  { s with keys := s.keys.insert write.1 write.2 }

/-- The store with a title key. -/
def putTitleKey (s : KeyStore) (write : Bytes 16 × Block) : KeyStore :=
  { s with titleKeys := s.titleKeys.insert write.1 write.2 }

section Lines

variable {ω : Type} {said? : KeyLine → Option ω} {put : KeyStore → ω → KeyStore}
  {load : Nat → List Char → Access KeyStore Nat}

/-- A loader of single lines that does what they say and counts it. -/
def LoadsLine (said? : KeyLine → Option ω) (put : KeyStore → ω → KeyStore)
    (load : Nat → List Char → Access KeyStore Nat) : Prop :=
  ∀ (number : Nat) (line : List Char) (s : KeyStore), (load number line).outcome s =
    match KeyLine.read? said? line with
    | some write => (.ok 1, put s write)
    | none => (.ok 0, s)

/-- **Lines are loaded one after the other.** -/
theorem outcome_loadLines (h : LoadsLine said? put load) (number : Nat) (lines : List (List Char))
    (s : KeyStore) : (loadLines load number lines).outcome s =
      (.ok (lines.filterMap (KeyLine.read? said?)).length,
        (lines.filterMap (KeyLine.read? said?)).foldl put s) := by
  induction lines generalizing number s with
  | nil => rfl
  | cons line lines ih =>
    rw [loadLines, Access.outcome_bind, h]
    rcases hline : KeyLine.read? said? line with _ | write
    · rw [List.filterMap_cons_none hline]
      dsimp only
      rw [Access.outcome_bind, ih]
      simp
    · rw [List.filterMap_cons_some hline]
      dsimp only
      rw [Access.outcome_bind, ih]
      simp [Nat.add_comm]

theorem outcome_registerLine (register : KeyStore → Except Error KeyStore) (refused : Error → Event)
    (s : KeyStore) : (registerLine register refused).outcome s =
      match register s with
      | .ok s' => (.ok 1, s')
      | .error _ => (.ok 0, s) := by
  rw [Access.outcome, registerLine]
  cases register s <;> rfl

theorem loadsLine_named : LoadsLine KeyLine.namedKey? putKey loadKeyLine := by
  intro number line s
  rw [loadKeyLine, KeyLine.read?]
  rcases hline : KeyLine.parse? line with _ | l
  · rfl
  · have hname : l.name ≠ "" := by
      obtain ⟨w, hw, -, hname, -⟩ := KeyLine.parse?_eq_some_iff.mp hline
      rw [← hname]
      exact fun h => hw.name_ne_nil (String.ofList_injective h)
    dsimp only [Option.bind_some]
    rw [outcome_registerLine, setKey, if_neg hname, KeyLine.namedKey?]
    cases Key.ofBytes? l.value <;> rfl

theorem loadsLine_titled : LoadsLine KeyLine.titleKey? putTitleKey loadTitleKeyLine := by
  intro number line s
  rw [loadTitleKeyLine, KeyLine.read?]
  rcases KeyLine.parse? line with _ | l
  · rfl
  · dsimp only [Option.bind_some]
    rw [KeyLine.titleKey?]
    rcases rightsIdOf? l.name with _ | rightsId
    · rfl
    · dsimp only [Option.bind_some]
      rw [outcome_registerLine, setTitleKey]
      cases Bytes.ofList? 16 l.value <;> rfl

end Lines

/-- A loader of text that does what its lines say. -/
structure Loads {κ ν : Type} [DecidableEq κ] (G : Grammar (κ × ν)) (table : KeyStore → Catalog κ ν)
    (put : KeyStore → κ × ν → KeyStore) (load : List Char → Access KeyStore Nat) : Prop where
  /-- What the lines of a text say is written in order and counted, and nothing else is done. -/
  text : ∀ (text : List Char) (s : KeyStore), ∃ writes, G.Writes (Text.lines text) writes ∧
    (load text).outcome s = (.ok writes.length, writes.foldl put s)
  /-- Lines do not say two things. -/
  unique : ∀ {lines : List (List Char)} {writes writes' : List (κ × ν)}, G.Writes lines writes →
    G.Writes lines writes' → writes' = writes
  /-- Of a text that is put together from lines, whatever their ends, all that they say is written, and
  then the last one of several writes of a key is found. -/
  rendered : ∀ {ended : List (List Char × Text.LineEnd)} {last : List Char}
    {writes : List (κ × ν)} (s : KeyStore), (∀ l ∈ ended, '\n' ∉ l.1) → '\n' ∉ last →
    G.Writes (ended.map Prod.fst ++ [last]) writes →
    ∃ s', (load (Text.render ended last)).outcome s = (.ok writes.length, s') ∧
      s' = writes.foldl put s ∧
      ∀ key, (table s').find? key =
        ((writes.reverse.find? (·.1 == key)).map Prod.snd).or ((table s).find? key)

section Text

variable {κ ν : Type} [DecidableEq κ] {G : Grammar (κ × ν)} {said? : KeyLine → Option (κ × ν)}
  {table : KeyStore → Catalog κ ν} {put : KeyStore → κ × ν → KeyStore}
  {load : List Char → Access KeyStore Nat}

theorem loads_of_line (hread : G.ReadBy said?)
    (hput : ∀ s w, table (put s w) = (table s).insert w.1 w.2)
    (hload : ∀ text s, (load text).outcome s =
      (.ok ((Text.lines text).filterMap (KeyLine.read? said?)).length,
        ((Text.lines text).filterMap (KeyLine.read? said?)).foldl put s)) :
    Loads G table put load where
  text := by
    intro text s
    exact ⟨_, (Grammar.writes_iff hread).mpr rfl, hload text s⟩
  unique := by
    intro lines writes writes' h h'
    rw [(Grammar.writes_iff hread).mp h, (Grammar.writes_iff hread).mp h']
  rendered := by
    intro ended last writes s hended hlast h
    refine ⟨_, ?_, rfl, ?_⟩
    · rw [hload, KeyLine.filterMap_lines_render said? hended hlast, (Grammar.writes_iff hread).mp h]
    · intro key
      have htable : table (writes.foldl put s) =
          writes.foldl (fun c w => c.insert w.1 w.2) (table s) :=
        (List.foldl_hom table fun s w => (hput s w).symm).symm
      rw [htable, Catalog.find?_foldl_insert]

end Text

theorem outcome_loadKeys (text : List Char) (s : KeyStore) :
    (loadKeys text).outcome s =
      (.ok ((Text.lines text).filterMap (KeyLine.read? KeyLine.namedKey?)).length,
        ((Text.lines text).filterMap (KeyLine.read? KeyLine.namedKey?)).foldl putKey s) := by
  rw [loadKeys, Access.outcome_bind, outcome_loadLines loadsLine_named]
  rfl

theorem outcome_loadTitleKeys (text : List Char) (s : KeyStore) :
    (loadTitleKeys text).outcome s =
      (.ok ((Text.lines text).filterMap (KeyLine.read? KeyLine.titleKey?)).length,
        ((Text.lines text).filterMap (KeyLine.read? KeyLine.titleKey?)).foldl putTitleKey s) := by
  rw [loadTitleKeys, Access.outcome_bind, outcome_loadLines loadsLine_titled]
  rfl

/-- **Key text is loaded as its lines say**: named keys by the grammar of named keys, and title keys by
that of title keys. -/
theorem loads_text :
    Loads .named KeyStore.keys putKey loadKeys ∧
      Loads .titled KeyStore.titleKeys putTitleKey loadTitleKeys :=
  ⟨loads_of_line KeyLine.named_readBy (fun _ _ => rfl) outcome_loadKeys,
    loads_of_line KeyLine.titled_readBy (fun _ _ => rfl) outcome_loadTitleKeys⟩

namespace Remarked

/-- A remark, a key with white space around it, a value with half a byte too much, and again the name in
capitals, on a last line without an end. -/
def ended : List (List Char × Text.LineEnd) :=
  [("# keys".toList, .returnFeed),
    ("\tMaster_Key_00 = 00112233445566778899AABBccddeeff\u3000".toList, .returnFeed),
    ("odd = abc".toList, .feed)]

def last : List Char := "MASTER_KEY_00=FFEEDDCCBBAA99887766554433221100".toList

def first : Block := ⟨[0x00, 0x11, 0x22, 0x33, 0x44, 0x55, 0x66, 0x77, 0x88, 0x99, 0xAA, 0xBB, 0xCC,
  0xDD, 0xEE, 0xFF], rfl⟩

def second : Block := ⟨first.toList.reverse, rfl⟩

theorem find?_last : ∃ s, (loadKeys (Text.render ended last)).outcome empty = (.ok 2, s) ∧
    s.keys.find? "master_key_00" = some (.single second) := by
  have hwrites : Grammar.named.Writes (ended.map Prod.fst ++ [last])
      [("master_key_00", .single first), ("master_key_00", .single second)] :=
    (Grammar.writes_iff KeyLine.named_readBy).mpr (by decide)
  obtain ⟨s, h, -, hfind⟩ := loads_text.1.rendered empty (by decide) (by decide) hwrites
  exact ⟨s, h, hfind "master_key_00"⟩

end Remarked

end KeyStore

end Cartridge
