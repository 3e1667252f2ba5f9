import Cartridge.Proofs.Decoding
import Cartridge.Proofs.Utf8
import Cartridge.RomFs.Record

/-!
# Records in their tables

A record is read exactly where it lies in its table: its fixed part, and behind it as many bytes as the
fixed part says, which are the written form of its name. So of what a table holds at a place there is
at most one reading.

Results:
* `RecordAt.of_append`: a record lies where it was written.
* `readDirectory_eq_ok_iff`, `readFile_eq_ok_iff`: reading gives what lies in the table.
* `RecordAt.unique`: at one place lies one record.
* `exists_recordAt_iff`: what keeps a record from being read is that a part of it is outside its table
  or its name is not UTF-8, and nothing else.
-/

namespace Cartridge.RomFs

/-- A record and its name lie at a place of a table. -/
structure RecordAt {α : Type} (layout : Layout α) (nameLength : α → UInt32) (table : List UInt8)
    (place : UInt32) (fixed : α) (name : String) : Prop where
  fixed_eq : slice? table place.toNat layout.size = some (layout.encode fixed)
  name_eq : slice? table (place.toNat + layout.size) (nameLength fixed).toNat =
    some (Utf8.encode name)

/-- A directory record and its name lie at a place of the directory table. -/
abbrev DirectoryAt (table : List UInt8) (place : UInt32) (record : DirectoryRecord) (name : String) :
    Prop :=
  RecordAt DirectoryRecord.layout DirectoryRecord.nameLength table place record name

/-- A file record and its name lie at a place of the file table. -/
abbrev FileAt (table : List UInt8) (place : UInt32) (record : FileRecord) (name : String) : Prop :=
  RecordAt FileRecord.layout FileRecord.nameLength table place record name

/-- A record lies where it was written. -/
theorem RecordAt.of_append {α : Type} {layout : Layout α} {nameLength : α → UInt32}
    (front back : List UInt8) {place : UInt32} {fixed : α} {name : String}
    (hplace : front.length = place.toNat)
    (hname : (Utf8.encode name).length = (nameLength fixed).toNat) :
    RecordAt layout nameLength (front ++ (layout.encode fixed ++ (Utf8.encode name ++ back))) place
      fixed name where
  fixed_eq := slice?_append front _ hplace (layout.length_encode fixed)
  name_eq := by
    rw [← List.append_assoc]
    refine slice?_append _ back ?_ hname
    rw [List.length_append, layout.length_encode, hplace]

theorem readNamed_eq_ok_iff {α : Type} {kind : RecordKind} {layout : Layout α}
    {nameLength : α → UInt32} {table : List UInt8} {place : UInt32} {fixed : α} {name : String} :
    readNamed kind layout nameLength table place = .ok (fixed, name) ↔
      RecordAt layout nameLength table place fixed name := by
  unfold readNamed
  constructor
  · intro h
    split at h
    · cases h
    · rename_i hfixed
      split at h
      · cases h
      · rename_i hname
        split at h
        · cases h
        · rename_i hdecode
          cases h
          refine ⟨(Layout.decodeAt_eq_ok_iff layout).mp hfixed, ?_⟩
          rw [hname, Utf8.decode_eq_ok_iff.mp hdecode]
  · rintro ⟨hfixed, hname⟩
    rw [(Layout.decodeAt_eq_ok_iff layout).mpr hfixed]
    dsimp only
    rw [hname]
    dsimp only
    rw [Utf8.decode_eq_ok_iff.mpr rfl]

theorem readDirectory_eq_ok_iff {table : List UInt8} {place : UInt32} {record : DirectoryRecord}
    {name : String} :
    readDirectory table place = .ok (record, name) ↔ DirectoryAt table place record name :=
  readNamed_eq_ok_iff

theorem readFile_eq_ok_iff {table : List UInt8} {place : UInt32} {record : FileRecord}
    {name : String} : readFile table place = .ok (record, name) ↔ FileAt table place record name :=
  readNamed_eq_ok_iff

/-- At one place lies one record. -/
theorem RecordAt.unique {α : Type} {layout : Layout α} {nameLength : α → UInt32}
    {table : List UInt8} {place : UInt32} {fixed fixed' : α} {name name' : String}
    (h : RecordAt layout nameLength table place fixed name)
    (h' : RecordAt layout nameLength table place fixed' name') : fixed = fixed' ∧ name = name' := by
  have hread : readNamed .directory layout nameLength table place = .ok (fixed, name) :=
    readNamed_eq_ok_iff.mpr h
  rw [readNamed_eq_ok_iff.mpr h'] at hread
  cases hread
  exact ⟨rfl, rfl⟩

theorem DirectoryRecord.plain_layout : DirectoryRecord.layout.Plain :=
  .record (.seq .word32 (.seq .word32 (.seq .word32 (.seq .word32 (.seq .word32 .word32)))))

theorem FileRecord.plain_layout : FileRecord.layout.Plain :=
  .record (.seq .word32 (.seq .word32 (.seq .word64 (.seq .word64 (.seq .word32 .word32)))))

/-- **There is a record at a place exactly if** its fixed part lies in the table, and its name does too
and is UTF-8. -/
theorem exists_recordAt_iff {α : Type} {layout : Layout α} (hplain : layout.Plain)
    {nameLength : α → UInt32} {table : List UInt8} {place : UInt32} :
    (∃ fixed name, RecordAt layout nameLength table place fixed name) ↔
      place.toNat + layout.size ≤ table.length ∧
        ∀ fixed, slice? table place.toNat layout.size = some (layout.encode fixed) →
          ∃ bytes name, slice? table (place.toNat + layout.size) (nameLength fixed).toNat = some bytes ∧
            Utf8.decode bytes = .ok name := by
  constructor
  · rintro ⟨fixed, name, h⟩
    refine ⟨(slice?_eq_some_iff.mp h.fixed_eq).1, ?_⟩
    intro fixed' hfixed'
    have hdecode := (Layout.decodeAt_eq_ok_iff layout).mpr h.fixed_eq
    rw [(Layout.decodeAt_eq_ok_iff layout).mpr hfixed'] at hdecode
    cases hdecode
    exact ⟨_, name, h.name_eq, Utf8.decode_eq_ok_iff.mpr rfl⟩
  · rintro ⟨hroom, hname⟩
    have hslice := slice?_of_le hroom
    obtain ⟨fixed, hfixed⟩ := hplain.exists_encode (length_of_slice? hslice)
    rw [← hfixed] at hslice
    obtain ⟨bytes, name, hbytes, hdecode⟩ := hname fixed hslice
    rw [Utf8.decode_eq_ok_iff.mp hdecode] at hbytes
    exact ⟨fixed, name, hslice, hbytes⟩

end Cartridge.RomFs
