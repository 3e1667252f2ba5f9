import Cartridge.Partition.Archive
import Cartridge.Proofs.Numbering
import Cartridge.Proofs.Streams
import Cartridge.Proofs.Utf8
import Mathlib.Data.List.Forall2

/-!
# Parsing a partition filesystem

Which byte strings are accepted, what the catalog of an accepted one holds, and with what the others
are refused. The magic is looked at first, then the room for the header, then the room for all tables,
then the records in the order of the table, each of them first for its name and then for its extent.

Results:
* `Record.resolve_eq_ok_iff`, `Record.resolve_eq_error_iff`: what a record stands for, and what can be
  wrong with it.
* `Table.read_of_sound`, `Table.read_of_refused`: sound tables are read, others are refused.
* `sound_or_refused`: nothing else can happen.
* `Archive.Sound.parses`: how an archive is parsed.
-/

namespace Cartridge.Partition

section Parsing

variable {F : Flavor} {bytes strings : List UInt8} {h : Header} {records : List (Record F)}

/-! ## Names -/

/-- The bytes of a string table from an offset on, up to the first zero or to the table's end, are the
written form of a name. -/
structure NameAt (strings : List UInt8) (offset : Nat) (name : String) : Prop where
  offset_le : offset ≤ strings.length
  bytes_eq : (strings.drop offset).takeWhile (· != 0) = Utf8.encode name

/-- What is wrong with an offset at which there is no name. -/
inductive NameFault (strings : List UInt8) (offset : Nat) : Error → Prop
  | outside (hout : strings.length < offset) :
      NameFault strings offset (.invalidData (.nameOutside offset strings.length))
  | notUtf8 {fault : Utf8.Fault} (hoffset : offset ≤ strings.length)
      (hfault : Utf8.decode ((strings.drop offset).takeWhile (· != 0)) = .error fault) :
      NameFault strings offset (.invalidData (.nameNotUtf8 offset fault))

theorem nameAt_eq_ok_iff {offset : Nat} {name : String} :
    nameAt strings offset = .ok name ↔ NameAt strings offset name := by
  unfold nameAt
  constructor
  · intro hname
    split at hname
    · cases hname
    · rename_i hoffset
      split at hname
      · rename_i hdecode
        cases hname
        exact ⟨Nat.not_lt.mp hoffset, Utf8.decode_eq_ok_iff.mp hdecode⟩
      · cases hname
  · rintro ⟨hoffset, hbytes⟩
    rw [if_neg (Nat.not_lt.mpr hoffset), Utf8.decode_eq_ok_iff.mpr hbytes]
    rfl

theorem nameAt_eq_error_iff {offset : Nat} {e : Error} :
    nameAt strings offset = .error e ↔ NameFault strings offset e := by
  unfold nameAt
  constructor
  · intro hname
    split at hname
    · rename_i hout
      cases hname
      exact .outside hout
    · rename_i hoffset
      split at hname
      · cases hname
      · rename_i hfault
        cases hname
        exact .notUtf8 (Nat.not_lt.mp hoffset) hfault
  · rintro (hout | ⟨hoffset, hfault⟩)
    · rw [if_pos hout]
      rfl
    · rw [if_neg (Nat.not_lt.mpr hoffset), hfault]
      rfl

theorem NameAt.unique {offset : Nat} {name name' : String} (hname : NameAt strings offset name)
    (hname' : NameAt strings offset name') : name = name' := by
  have heq := nameAt_eq_ok_iff.mpr hname
  rw [nameAt_eq_ok_iff.mpr hname'] at heq
  exact (Except.ok.inj heq).symm

/-! ## Records -/

namespace Record

variable {r : Record F} {dataSize : Nat}

/-- A record has a name, and its file lies in the data region. -/
structure Sound (r : Record F) (strings : List UInt8) (dataSize : Nat) : Prop where
  named : ∃ name, NameAt strings r.nameOffset.toNat name
  extent_le : r.dataOffset.toNat + r.dataSize.toNat ≤ dataSize

/-- The file that a sound record stands for. -/
structure Denotes (r : Record F) (strings : List UInt8) (dataSize : Nat) (e : Entry F) : Prop where
  name_at : NameAt strings r.nameOffset.toNat e.name
  extent_le : r.dataOffset.toNat + r.dataSize.toNat ≤ dataSize
  dataOffset_eq : e.dataOffset = r.dataOffset
  dataSize_eq : e.dataSize = r.dataSize
  tail_eq : e.tail = r.tail

/-- What is wrong with a record that is not sound; its name is looked at first. -/
inductive Fault (r : Record F) (strings : List UInt8) (dataSize : Nat) : Error → Prop
  | name {e : Error} (hname : NameFault strings r.nameOffset.toNat e) : Fault r strings dataSize e
  | extent {name : String} (hname : NameAt strings r.nameOffset.toNat name)
      (hout : dataSize < r.dataOffset.toNat + r.dataSize.toNat) :
      Fault r strings dataSize
        (.truncated (.partitionEntry F.format name r.dataOffset.toNat r.dataSize.toNat))

theorem resolve_of_nameAt {name : String} (hname : NameAt strings r.nameOffset.toNat name) :
    r.resolve strings dataSize =
      if r.dataOffset.toNat + r.dataSize.toNat ≤ dataSize then
        .ok ⟨name, r.dataOffset, r.dataSize, r.tail⟩
      else
        .error (.truncated (.partitionEntry F.format name r.dataOffset.toNat r.dataSize.toNat)) := by
  rw [resolve, nameAt_eq_ok_iff.mpr hname]
  rfl

/-- **A record is resolved to the file that it stands for.** -/
theorem resolve_eq_ok_iff {e : Entry F} :
    r.resolve strings dataSize = .ok e ↔ r.Denotes strings dataSize e := by
  constructor
  · intro hresolve
    obtain ⟨name, hname, -⟩ := bind_eq_ok_iff.mp hresolve
    have hname := nameAt_eq_ok_iff.mp hname
    rw [resolve_of_nameAt hname] at hresolve
    split at hresolve
    · rename_i hextent
      cases hresolve
      exact ⟨hname, hextent, rfl, rfl, rfl⟩
    · cases hresolve
  · intro he
    rw [resolve_of_nameAt he.name_at, if_pos he.extent_le, ← he.dataOffset_eq, ← he.dataSize_eq,
      ← he.tail_eq]

/-- **A record is refused for what is wrong with it.** -/
theorem resolve_eq_error_iff {e : Error} :
    r.resolve strings dataSize = .error e ↔ r.Fault strings dataSize e := by
  constructor
  · intro hresolve
    cases hname : nameAt strings r.nameOffset.toNat with
    | error e' =>
      rw [resolve, hname] at hresolve
      cases hresolve
      exact .name (nameAt_eq_error_iff.mp hname)
    | ok name =>
      have hname := nameAt_eq_ok_iff.mp hname
      rw [resolve_of_nameAt hname] at hresolve
      split at hresolve
      · cases hresolve
      · rename_i hextent
        cases hresolve
        exact .extent hname (Nat.not_le.mp hextent)
  · rintro (hname | ⟨hname, hout⟩)
    · rw [resolve, nameAt_eq_error_iff.mpr hname]
      rfl
    · rw [resolve_of_nameAt hname, if_neg (Nat.not_le.mpr hout)]

theorem sound_iff : r.Sound strings dataSize ↔ ∃ e, r.Denotes strings dataSize e := by
  constructor
  · rintro ⟨⟨name, hname⟩, hextent⟩
    exact ⟨⟨name, r.dataOffset, r.dataSize, r.tail⟩, hname, hextent, rfl, rfl, rfl⟩
  · rintro ⟨e, he⟩
    exact ⟨⟨e.name, he.name_at⟩, he.extent_le⟩

theorem sound_or_fault (r : Record F) (strings : List UInt8) (dataSize : Nat) :
    r.Sound strings dataSize ∨ ∃ e, r.Fault strings dataSize e := by
  cases hresolve : r.resolve strings dataSize with
  | ok e => exact .inl (sound_iff.mpr ⟨e, resolve_eq_ok_iff.mp hresolve⟩)
  | error e => exact .inr ⟨e, resolve_eq_error_iff.mp hresolve⟩

end Record

/-! ## Tables of records -/

section Resolve

variable {dataSize : Nat}

/-- Adds files to a catalog under their names. -/
def addEntries (entries : List (Entry F)) (c : Catalog String (Entry F)) :
    Catalog String (Entry F) :=
  entries.foldl (fun c e => c.insert e.name e) c

theorem addEntries_empty (entries : List (Entry F)) :
    addEntries entries .empty = .indexed Entry.name entries := by
  rw [addEntries, Catalog.indexed, Catalog.ofList, List.foldl_map]

theorem result_resolveAll_cons (r : Record F) (rest : List (Record F))
    (c : Catalog String (Entry F)) :
    (resolveAll strings dataSize (r :: rest) c).result =
      r.resolve strings dataSize >>= fun e =>
        (resolveAll strings dataSize rest (c.insert e.name e)).result := by
  rw [resolveAll, Traced.result_bind, Traced.result_liftM]
  congr 1
  funext e
  split
  · rw [Traced.result_bind, Traced.result_emit, ok_bind]
  · rfl

/-- Records that are all sound are resolved one after the other. -/
theorem result_resolveAll_of_forall₂ {entries : List (Entry F)}
    (hall : List.Forall₂ (fun r e => r.Denotes strings dataSize e) records entries)
    (c : Catalog String (Entry F)) :
    (resolveAll strings dataSize records c).result = .ok (addEntries entries c) := by
  induction hall generalizing c with
  | nil => rfl
  | cons he _ ih =>
    rw [result_resolveAll_cons, Record.resolve_eq_ok_iff.mpr he, ok_bind, ih]
    rfl

/-- The first record that is not sound ends it. -/
theorem result_resolveAll_of_fault {front back : List (Record F)} {r : Record F} {e : Error}
    (hfront : ∀ r' ∈ front, r'.Sound strings dataSize) (hfault : r.Fault strings dataSize e)
    (c : Catalog String (Entry F)) :
    (resolveAll strings dataSize (front ++ r :: back) c).result = .error e := by
  induction front generalizing c with
  | nil =>
    rw [List.nil_append, result_resolveAll_cons, Record.resolve_eq_error_iff.mpr hfault]
    rfl
  | cons first front ih =>
    obtain ⟨entry, hentry⟩ := Record.sound_iff.mp (hfront first List.mem_cons_self)
    rw [List.cons_append, result_resolveAll_cons, Record.resolve_eq_ok_iff.mpr hentry, ok_bind]
    exact ih (fun r' hr' => hfront r' (List.mem_cons_of_mem _ hr')) _

theorem exists_forall₂_of_sound (hsound : ∀ r ∈ records, r.Sound strings dataSize) :
    ∃ entries, List.Forall₂ (fun r e => r.Denotes strings dataSize e) records entries := by
  induction records with
  | nil => exact ⟨[], .nil⟩
  | cons r rest ih =>
    obtain ⟨e, he⟩ := Record.sound_iff.mp (hsound r List.mem_cons_self)
    obtain ⟨entries, hentries⟩ := ih fun r' hr' => hsound r' (List.mem_cons_of_mem _ hr')
    exact ⟨e :: entries, .cons he hentries⟩

/-- The records are all sound, or there is a first one that is not. -/
theorem sound_or_first_fault (records : List (Record F)) (strings : List UInt8) (dataSize : Nat) :
    (∀ r ∈ records, r.Sound strings dataSize) ∨
      ∃ front r back e, records = front ++ r :: back ∧ (∀ r' ∈ front, r'.Sound strings dataSize) ∧
        r.Fault strings dataSize e := by
  induction records with
  | nil => exact .inl fun r hr => nomatch hr
  | cons first rest ih =>
    rcases first.sound_or_fault strings dataSize with hfirst | ⟨e, hfault⟩
    · rcases ih with hrest | ⟨front, r, back, e, rfl, hfront, hfault⟩
      · exact .inl (List.forall_mem_cons.mpr ⟨hfirst, hrest⟩)
      · exact .inr ⟨first :: front, r, back, e, rfl, List.forall_mem_cons.mpr ⟨hfirst, hfront⟩,
          hfault⟩
    · exact .inr ⟨[], first, rest, e, rfl, List.forall_mem_nil _, hfault⟩

end Resolve

/-! ## Where the tables lie -/

theorem Header.plain_layout : Header.layout.Plain :=
  .record (.seq (.bytes 4) (.seq .word32 (.seq .word32 (.bytes 4))))

theorem Seal.plain_layout : Seal.layout.Plain := .record (.seq .word32 (.seq .word64 (.bytes 32)))

theorem Record.plain_layout (F : Flavor) : (Record.layout F).Plain := by
  cases F with
  | plain => exact .record (.seq .word64 (.seq .word64 (.seq .word32 (.bytes 4))))
  | hashed => exact .record (.seq .word64 (.seq .word64 (.seq .word32 Seal.plain_layout)))

variable (F bytes h) in
/-- The bytes begin with a header, the records it counts and the string table of its size. -/
structure TablesIn (records : List (Record F)) (strings : List UInt8) : Prop where
  header_eq : slice? bytes 0 Header.layout.size = some (Header.layout.encode h)
  length_records : records.length = h.fileCount.toNat
  records_eq : slice? bytes Header.layout.size (h.fileCount.toNat * (Record.layout F).size) =
    some (records.flatMap (Record.layout F).encode)
  strings_eq : slice? bytes (Header.layout.size + h.fileCount.toNat * (Record.layout F).size)
    h.stringTableSize.toNat = some strings

theorem TablesIn.tablesSize_le (ht : TablesIn F bytes h records strings) :
    tablesSize F h ≤ bytes.length :=
  (slice?_eq_some_iff.mp ht.strings_eq).1

/-- **The tables are there exactly if there is room for them.** -/
theorem exists_tablesIn_iff :
    (∃ records strings, TablesIn F bytes h records strings) ↔
      slice? bytes 0 Header.layout.size = some (Header.layout.encode h) ∧
        tablesSize F h ≤ bytes.length := by
  constructor
  · rintro ⟨records, strings, ht⟩
    exact ⟨ht.header_eq, ht.tablesSize_le⟩
  · rintro ⟨hheader, hroom⟩
    rw [tablesSize] at hroom
    have hslice := slice?_of_le
      (show Header.layout.size + h.fileCount.toNat * (Record.layout F).size ≤ bytes.length by omega)
    obtain ⟨records, hlength, hrecords⟩ :=
      (Record.plain_layout F).exists_flatMap_encode (length_of_slice? hslice)
    rw [← hrecords] at hslice
    exact ⟨records, _, hheader, hlength, hslice, slice?_of_le hroom⟩

theorem exists_header (hroom : Header.layout.size ≤ bytes.length) :
    ∃ h, slice? bytes 0 Header.layout.size = some (Header.layout.encode h) := by
  have hslice := slice?_of_le (show 0 + Header.layout.size ≤ bytes.length by omega)
  obtain ⟨h, hh⟩ := Header.plain_layout.exists_encode (length_of_slice? hslice)
  exact ⟨h, by rw [hh, hslice]⟩

/-! ## Reading the tables -/

section Read

variable {media : Media} {region : Region} (hr : region.Holds media bytes)

include hr

theorem magicOf_eq : magicOf region media =
    if 4 ≤ bytes.length then bytes.take 4 else List.replicate 4 0 := by
  unfold magicOf
  by_cases hroom : 4 ≤ bytes.length
  · rw [if_pos hroom, hr.readAt_eq (by omega)]
    rfl
  · rw [if_neg hroom, hr.readAt_of_lt (by omega)]

theorem readRecords_eq_ok {position : Nat}
    (hrecords : slice? bytes position (records.length * (Record.layout F).size) =
      some (records.flatMap (Record.layout F).encode)) :
    readRecords F (region.streamAt media) records.length position = .ok records := by
  induction records generalizing position with
  | nil => rfl
  | cons r rest ih =>
    rw [List.length_cons, Nat.succ_mul, Nat.add_comm, List.flatMap_cons,
      slice?_append_eq_some_iff (Layout.length_encode _ r)] at hrecords
    obtain ⟨hfirst, hrest⟩ := hrecords
    have hroom := (slice?_eq_some_iff.mp hfirst).1
    rw [List.length_cons, readRecords, hr.decodeAt_eq _ (by omega),
      (Layout.decodeAt_eq_ok_iff _).mpr hfirst, ok_bind, ih hrest]
    rfl

theorem readStrings_eq_ok {position size : Nat}
    (hstrings : slice? bytes position size = some strings) :
    readStrings (region.streamAt media) position size = .ok strings := by
  have hroom := (slice?_eq_some_iff.mp hstrings).1
  rw [readStrings, hr.streamAt_eq (by omega), Source.ofBytes, hstrings]

/-- Once the tables are there, the records decide. -/
theorem result_read_of_tablesIn (hmagic : bytes.take 4 = F.magic.toList)
    (ht : TablesIn F bytes h records strings) :
    (Table.read F region media).result =
      (resolveAll strings (bytes.length - tablesSize F h) records .empty).result >>= fun entries =>
        .ok ⟨h, tablesSize F h, entries⟩ := by
  have hsize := ht.tablesSize_le
  have hheader := (Layout.decodeAt_eq_ok_iff Header.layout).mpr ht.header_eq
  have hroom : 4 ≤ bytes.length := by
    have : 0 + 0x10 ≤ bytes.length := (slice?_eq_some_iff.mp ht.header_eq).1
    omega
  have hrecords := ht.records_eq
  have hstrings := ht.strings_eq
  rw [← ht.length_records] at hrecords hstrings
  unfold Table.read
  dsimp only
  rw [magicOf_eq hr, if_pos hroom, if_neg (not_not_intro hmagic)]
  simp only [Traced.result_bind, Traced.result_liftM, hr.decodeAt_eq _ (Nat.zero_le _), hheader,
    ok_bind]
  rw [hr.size_eq, if_neg (Nat.not_lt.mpr hsize)]
  simp only [Traced.result_bind, Traced.result_liftM, ← ht.length_records,
    readRecords_eq_ok hr hrecords, readStrings_eq_ok hr hstrings, Traced.result_emit,
    Traced.result_pure, ok_bind]

end Read

/-! ## Sound tables -/

/-- The tables are there, behind the right magic, and every record is sound. -/
structure Sound (F : Flavor) (bytes : List UInt8) (h : Header) (records : List (Record F))
    (strings : List UInt8) : Prop extends TablesIn F bytes h records strings where
  magic_eq : bytes.take 4 = F.magic.toList
  records_sound : ∀ r ∈ records, r.Sound strings (bytes.length - tablesSize F h)

/-- A table holds what sound tables say: under each name the file of the last record that has it, and
nothing under names that no record has. -/
structure Table.Shows (t : Table F) (bytes : List UInt8) (h : Header) (records : List (Record F))
    (strings : List UInt8) : Prop where
  header_eq : t.header = h
  dataOffset_eq : t.dataOffset = tablesSize F h
  find?_iff : ∀ {name : String} {e : Entry F}, t.entries.find? name = some e ↔
    ∃ front r back, records = front ++ r :: back ∧
      r.Denotes strings (bytes.length - tablesSize F h) e ∧ e.name = name ∧
      ∀ r' ∈ back, ¬ NameAt strings r'.nameOffset.toNat name
  mem_keys_iff : ∀ {name : String},
    name ∈ t.entries.keys ↔ ∃ r ∈ records, NameAt strings r.nameOffset.toNat name

section Shows

/-- What one list has behind one of its values, another list that goes along with it has too. -/
theorem exists_append_of_forall₂ {α β : Type} {R : α → β → Prop} {as : List α} {front back : List β}
    {b : β} (hall : List.Forall₂ R as (front ++ b :: back)) :
    ∃ front' a back', as = front' ++ a :: back' ∧ R a b ∧ List.Forall₂ R back' back := by
  induction front generalizing as with
  | nil =>
    obtain ⟨a, back', hab, hback, rfl⟩ := List.forall₂_cons_right_iff.mp hall
    exact ⟨[], a, back', rfl, hab, hback⟩
  | cons _ front ih =>
    obtain ⟨a', rest, -, hrest, rfl⟩ := List.forall₂_cons_right_iff.mp hall
    obtain ⟨front', a, back', rfl, hab, hback⟩ := ih hrest
    exact ⟨a' :: front', a, back', rfl, hab, hback⟩

variable {dataSize : Nat} {entries : List (Entry F)}
  (hall : List.Forall₂ (fun r e => r.Denotes strings dataSize e) records entries)

include hall

theorem mem_names_iff {name : String} :
    name ∈ entries.map Entry.name ↔ ∃ r ∈ records, NameAt strings r.nameOffset.toNat name := by
  induction hall with
  | nil => simp
  | @cons r e records entries he _ ih =>
    have hname : name = e.name ↔ NameAt strings r.nameOffset.toNat name := by
      constructor
      · rintro rfl
        exact he.name_at
      · exact fun hname => hname.unique he.name_at
    simp only [List.map_cons, List.mem_cons, ih, hname, exists_eq_or_imp]

theorem find?_indexed_iff {name : String} {e : Entry F} :
    (Catalog.indexed Entry.name entries).find? name = some e ↔
      ∃ front r back, records = front ++ r :: back ∧ r.Denotes strings dataSize e ∧ e.name = name ∧
        ∀ r' ∈ back, ¬ NameAt strings r'.nameOffset.toNat name := by
  rw [Catalog.find?_indexed_eq_some_iff]
  constructor
  · rintro ⟨hname, frontE, backE, rfl, hbackE⟩
    obtain ⟨front, r, back, heq, he, hback⟩ := exists_append_of_forall₂ hall
    refine ⟨front, r, back, heq, he, hname, ?_⟩
    intro r' hr' hat
    exact hbackE ((mem_names_iff hback).mpr ⟨r', hr', hat⟩)
  · rintro ⟨front, r, back, rfl, he, hname, hback⟩
    obtain ⟨frontE, e', backE, heq, he', hbackE⟩ := exists_append_of_forall₂ hall.flip
    have hsame : e' = e := by
      have hresolve := Record.resolve_eq_ok_iff.mpr he'
      rw [Record.resolve_eq_ok_iff.mpr he] at hresolve
      exact (Except.ok.inj hresolve).symm
    subst hsame
    refine ⟨hname, frontE, backE, heq, ?_⟩
    intro hmem
    obtain ⟨r', hr', hat⟩ := (mem_names_iff hbackE.flip).mp hmem
    exact hback r' hr' hat

end Shows

/-- **Sound tables are read**, and the table holds what they say. -/
theorem Table.read_of_sound {media : Media} {region : Region} (hr : region.Holds media bytes)
    (hsound : Sound F bytes h records strings) :
    ∃ t, (Table.read F region media).result = .ok t ∧ t.Shows bytes h records strings := by
  obtain ⟨entries, hall⟩ := exists_forall₂_of_sound hsound.records_sound
  refine ⟨⟨h, tablesSize F h, .indexed Entry.name entries⟩, ?_, rfl, rfl, find?_indexed_iff hall,
    Catalog.mem_keys_indexed.trans (mem_names_iff hall)⟩
  rw [result_read_of_tablesIn hr hsound.magic_eq hsound.toTablesIn,
    result_resolveAll_of_forall₂ hall, addEntries_empty, ok_bind]

/-! ## What is refused -/

variable (F bytes) in
/-- With what a byte string is refused. -/
inductive Refused : Error → Prop
  /-- It is too short for a magic; the error has zeros in the place of it. -/
  | noMagic (hshort : bytes.length < 4) :
      Refused (.invalidMagic F.format (List.replicate 4 0))
  /-- It begins with another magic. -/
  | magic (hroom : 4 ≤ bytes.length) (hmagic : bytes.take 4 ≠ F.magic.toList) :
      Refused (.invalidMagic F.format (bytes.take 4))
  /-- It is too short for a header. -/
  | header (hmagic : bytes.take 4 = F.magic.toList) (hshort : bytes.length < Header.layout.size) :
      Refused (.truncated .structureEnd)
  /-- It is too short for the tables. -/
  | tables {h : Header} (hmagic : bytes.take 4 = F.magic.toList)
      (hheader : slice? bytes 0 Header.layout.size = some (Header.layout.encode h))
      (hshort : bytes.length < tablesSize F h) :
      Refused (.truncated
        (.partitionTables F.format h.fileCount.toNat (tablesSize F h) bytes.length))
  /-- The first record that is not sound is refused for what is wrong with it. -/
  | record {h : Header} {front back : List (Record F)} {r : Record F} {strings : List UInt8}
      {e : Error} (hmagic : bytes.take 4 = F.magic.toList)
      (htables : TablesIn F bytes h (front ++ r :: back) strings)
      (hfront : ∀ r' ∈ front, r'.Sound strings (bytes.length - tablesSize F h))
      (hfault : r.Fault strings (bytes.length - tablesSize F h) e) : Refused e

theorem Flavor.magic_ne_zero (F : Flavor) : List.replicate 4 0 ≠ F.magic.toList := by
  cases F <;> decide

/-- **What is refused is not read.** -/
theorem Table.read_of_refused {media : Media} {region : Region} (hr : region.Holds media bytes)
    {e : Error} (hrefused : Refused F bytes e) : (Table.read F region media).result = .error e := by
  cases hrefused with
  | noMagic hshort =>
    unfold Table.read
    dsimp only
    rw [magicOf_eq hr, if_neg (Nat.not_le.mpr hshort), if_pos F.magic_ne_zero, Traced.result_fail]
  | magic hroom hmagic =>
    unfold Table.read
    dsimp only
    rw [magicOf_eq hr, if_pos hroom, if_pos hmagic, Traced.result_fail]
  | header hmagic hshort =>
    have hroom : 4 ≤ bytes.length := by
      have hlen := congrArg List.length hmagic
      rw [List.length_take, F.magic.length_toList] at hlen
      omega
    unfold Table.read
    dsimp only
    rw [magicOf_eq hr, if_pos hroom, if_neg (not_not_intro hmagic)]
    simp only [Traced.result_bind, Traced.result_liftM, hr.decodeAt_eq _ (Nat.zero_le _)]
    rw [Header.plain_layout.decodeAt_of_lt (by omega)]
    rfl
  | @tables h hmagic hheader hshort =>
    have hroom : 4 ≤ bytes.length := by
      have : 0 + 0x10 ≤ bytes.length := (slice?_eq_some_iff.mp hheader).1
      omega
    unfold Table.read
    dsimp only
    rw [magicOf_eq hr, if_pos hroom, if_neg (not_not_intro hmagic)]
    simp only [Traced.result_bind, Traced.result_liftM, hr.decodeAt_eq _ (Nat.zero_le _),
      (Layout.decodeAt_eq_ok_iff Header.layout).mpr hheader, ok_bind]
    rw [hr.size_eq, if_pos hshort, Traced.result_fail]
  | record hmagic htables hfront hfault =>
    rw [result_read_of_tablesIn hr hmagic htables, result_resolveAll_of_fault hfront hfault]
    rfl

/-- **A byte string has sound tables or is refused.** -/
theorem sound_or_refused (F : Flavor) (bytes : List UInt8) :
    (∃ h records strings, Sound F bytes h records strings) ∨ ∃ e, Refused F bytes e := by
  by_cases hfour : 4 ≤ bytes.length
  · by_cases hmagic : bytes.take 4 = F.magic.toList
    · by_cases hroom : Header.layout.size ≤ bytes.length
      · obtain ⟨h, hheader⟩ := exists_header hroom
        by_cases htables : tablesSize F h ≤ bytes.length
        · obtain ⟨records, strings, ht⟩ := exists_tablesIn_iff.mpr ⟨hheader, htables⟩
          rcases sound_or_first_fault records strings (bytes.length - tablesSize F h) with
            hsound | ⟨front, r, back, e, rfl, hfront, hfault⟩
          · exact .inl ⟨h, records, strings, ht, hmagic, hsound⟩
          · exact .inr ⟨e, .record hmagic ht hfront hfault⟩
        · exact .inr ⟨_, .tables hmagic hheader (Nat.not_le.mp htables)⟩
      · exact .inr ⟨_, .header hmagic (Nat.not_le.mp hroom)⟩
    · exact .inr ⟨_, .magic hfour hmagic⟩
  · exact .inr ⟨_, .noMagic (Nat.not_le.mp hfour)⟩

/-- The data of an entry is a slice of the archive, if the archive has it all. -/
theorem Table.openEntry_of_slice? {media : Media} {view : View}
    (hv : view.region.Holds media bytes) (t : Table F) (e : Entry F) {data : List UInt8}
    (hdata : slice? bytes (t.dataOffset + e.dataOffset.toNat) e.dataSize.toNat = some data) :
    ∃ v, (t.openEntry view e).result = .ok v ∧ v.position = 0 ∧ v.region.Holds media data := by
  obtain ⟨hle, rfl⟩ := slice?_eq_some_iff.mp hdata
  rw [← hv.size_eq] at hle
  refine ⟨.ofRegion (.part view.region (t.dataOffset + e.dataOffset.toNat) e.dataSize.toNat), ?_,
    rfl, hv.part hle⟩
  unfold openEntry
  simp only [Traced.result_bind, Traced.result_emit, Traced.result_liftM, ok_bind]
  exact bind_eq_ok_iff.mpr ⟨_, Region.subregion_eq_ok_iff.mpr ⟨hle, rfl⟩, rfl⟩

/-! ## Archives -/

namespace Archive

variable {media : Media} {a : Archive F}

/-- An archive that holds no tables but those that parsing gives. -/
def Sound (media : Media) (a : Archive F) : Prop :=
  a.slot.Agrees (Table.read F a.view.region media).result

theorem sound_ofView (media : Media) (view : View) : (ofView view : Archive F).Sound media :=
  Slot.agrees_unparsed _

/-- An archive answers as parsing does, whether it holds the tables already or not. -/
theorem Sound.outcome_table (ha : a.Sound media) :
    ∃ a', (table media).outcome a = ((Table.read F a.view.region media).result, a') ∧
      a'.view = a.view ∧ a'.Sound media := by
  obtain ⟨slot, hforce, hslot⟩ :=
    @Slot.Agrees.force _ (fun _ => Table.read F a.view.region media) _ ha
  refine ⟨{ a with slot := slot }, ?_, rfl, hslot⟩
  have hanswer := congrArg Prod.fst hforce
  have hstate := congrArg Prod.snd hforce
  exact Prod.ext hanswer (congrArg (fun slot => { a with slot := slot }) hstate)

theorem Sound.outcome_parse (ha : a.Sound media) :
    ∃ a', (parse media).outcome a =
      ((Table.read F a.view.region media).result >>= fun _ => .ok (), a') := by
  obtain ⟨a', heq, -⟩ := ha.outcome_table
  refine ⟨a', ?_⟩
  rw [parse, Access.outcome_bind, heq]
  cases (Table.read F a.view.region media).result with
  | error e => rfl
  | ok t => rfl

section Answers

variable {t : Table F} (ha : a.Sound media)
  (hread : (Table.read F a.view.region media).result = .ok t)

include ha hread

/-- An archive whose tables can be read answers with them. -/
theorem Sound.outcome_table_of_read :
    ∃ a', (table media).outcome a = (.ok t, a') ∧ a'.view = a.view ∧ a'.Sound media := by
  obtain ⟨a', htable, hview, ha'⟩ := ha.outcome_table
  rw [hread] at htable
  exact ⟨a', htable, hview, ha'⟩

theorem Sound.outcome_entry {name : String} {e : Entry F} (hfind : t.entries.find? name = some e) :
    ∃ a', (entry media name).outcome a = (.ok e, a') ∧ a'.view = a.view ∧ a'.Sound media := by
  obtain ⟨a', htable, hview, ha'⟩ := ha.outcome_table_of_read hread
  refine ⟨a', ?_, hview, ha'⟩
  rw [entry, Access.outcome_bind, htable]
  dsimp only
  rw [hfind]
  rfl

/-- Opening a name opens the data of its entry. -/
theorem Sound.outcome_openFile {name : String} {e : Entry F}
    (hfind : t.entries.find? name = some e) :
    ∃ a', (openFile media name).outcome a = ((t.openEntry a.view e).result, a') := by
  obtain ⟨a₁, hentry, hview₁, ha₁⟩ := ha.outcome_entry hread hfind
  rw [← hview₁] at hread
  obtain ⟨a₂, htable, hview₂, -⟩ := ha₁.outcome_table_of_read hread
  refine ⟨a₂, ?_⟩
  rw [openFile, Access.outcome_bind, hentry]
  dsimp only
  rw [openEntry, Access.outcome_bind, htable, ← hview₁, ← hview₂]
  rfl

end Answers

/-- How an archive is parsed: exactly if its bytes have sound tables, which its table then shows, and
else it is refused. -/
structure Parses (media : Media) (bytes : List UInt8) (a : Archive F) : Prop where
  accepted_iff : (∃ a', (parse media).outcome a = (.ok (), a')) ↔
    ∃ h records strings, Partition.Sound F bytes h records strings
  refused_iff : ∀ {e : Error},
    (∃ a', (parse media).outcome a = (.error e, a')) ↔ Refused F bytes e
  table : ∀ {h : Header} {records : List (Record F)} {strings : List UInt8},
    Partition.Sound F bytes h records strings →
    ∃ t a', (table media).outcome a = (.ok t, a') ∧ t.Shows bytes h records strings

/-- **How an archive is parsed**, whether it was parsed before or not. -/
theorem Sound.parses (ha : a.Sound media) (hr : a.view.region.Holds media bytes) :
    a.Parses media bytes := by
  obtain ⟨a₁, htable, -⟩ := ha.outcome_table
  obtain ⟨a₂, hparse⟩ := ha.outcome_parse
  have haccept {h : Header} {records : List (Record F)} {strings : List UInt8}
      (hsound : Partition.Sound F bytes h records strings) :
      (parse media).outcome a = (.ok (), a₂) := by
    obtain ⟨t, hread, -⟩ := Table.read_of_sound hr hsound
    rw [hparse, hread]
    rfl
  have hrefuse {e : Error} (hrefused : Refused F bytes e) :
      (parse media).outcome a = (.error e, a₂) := by
    rw [hparse, Table.read_of_refused hr hrefused]
    rfl
  constructor
  · constructor
    · rintro ⟨a', hok⟩
      rcases sound_or_refused F bytes with hsound | ⟨e, hrefused⟩
      · exact hsound
      · rw [hrefuse hrefused] at hok
        cases hok
    · rintro ⟨h, records, strings, hsound⟩
      exact ⟨a₂, haccept hsound⟩
  · intro e
    constructor
    · rintro ⟨a', herror⟩
      rcases sound_or_refused F bytes with ⟨h, records, strings, hsound⟩ | ⟨e', hrefused⟩
      · rw [haccept hsound] at herror
        cases herror
      · rw [hrefuse hrefused] at herror
        cases herror
        exact hrefused
    · intro hrefused
      exact ⟨a₂, hrefuse hrefused⟩
  · intro h records strings hsound
    obtain ⟨t, hread, hshows⟩ := Table.read_of_sound hr hsound
    rw [hread] at htable
    exact ⟨t, a₁, htable, hshows⟩

end Archive

end Parsing

/-! ## Two records of one name -/

namespace Doubled

def header : Header := ⟨Flavor.plain.magic, 2, 2, Bytes.zero 4⟩

/-- The first record of the name. -/
def first : Record .plain := ⟨0, 1, 0, Bytes.zero 4⟩

/-- The record that counts. -/
def last : Record .plain := ⟨1, 2, 0, Bytes.zero 4⟩

/-- The name `a` and the zero behind it. -/
def strings : List UInt8 := Utf8.encode "a" ++ [0]

/-- An archive of two files of one name, of one byte and of two. -/
def image : List UInt8 :=
  Header.layout.encode header ++ ([first, last].flatMap (Record.layout .plain).encode ++
    (strings ++ [1, 2, 3]))

def media : Media := ⟨[.memory image]⟩

def archive : Archive .plain := .ofView (.ofRegion (.medium 0 0x45))

theorem sound_image : Sound .plain image header [first, last] strings where
  header_eq := slice?_append [] _ rfl (Layout.length_encode _ header)
  length_records := rfl
  records_eq := slice?_append _ _ (Layout.length_encode _ header) rfl
  strings_eq := by
    rw [image, ← List.append_assoc]
    exact slice?_append _ _ rfl rfl
  magic_eq := rfl
  records_sound := by
    have hname : NameAt strings 0 "a" := ⟨by decide, by decide⟩
    rw [List.forall_mem_cons, List.forall_mem_singleton]
    exact ⟨⟨⟨"a", hname⟩, by decide⟩, ⟨⟨"a", hname⟩, by decide⟩⟩

theorem parses_archive :
    Sound .plain image header [first, last] strings ∧ archive.Parses media image :=
  ⟨sound_image, (Archive.sound_ofView media _).parses (Region.holds_memory rfl (by decide))⟩

end Doubled

end Cartridge.Partition
