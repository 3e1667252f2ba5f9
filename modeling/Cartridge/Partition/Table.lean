import Cartridge.Catalog
import Cartridge.Partition.Record
import Cartridge.Storage.View
import Cartridge.Traced

/-!
# Reading the tables of a partition filesystem

Every record is resolved to an entry: its name is looked up in the string table and its extent
checked against the data region, in the order of the table. Where two records have the same name the
later one counts, but both have to be right.

The magic is looked at first; a view that is too short for it has zeros in its place.
-/

namespace Cartridge.Partition

/-- A file of a partition filesystem. -/
structure Entry (F : Flavor) where
  name : String
  /-- Where the file begins in the data region. -/
  dataOffset : UInt64
  dataSize : UInt64
  tail : F.Tail

/-- What is behind the last full stop of a name, if anything is. -/
def extension? (name : String) : Option String :=
  let behind := name.toList.reverse.takeWhile (· != '.')
  if behind.isEmpty ∨ behind.length = name.toList.length then none
  else some (String.ofList behind.reverse)

/-- The tables of a partition filesystem. -/
structure Table (F : Flavor) where
  header : Header
  /-- Where the data region begins in the archive. -/
  dataOffset : Nat
  entries : Catalog String (Entry F)

/-- The size of the header, of the records and of the string table. -/
def tablesSize (F : Flavor) (h : Header) : Nat :=
  Header.layout.size + h.fileCount.toNat * (Record.layout F).size + h.stringTableSize.toNat

/-- The text in a string table that begins at `offset` and ends at a zero or with the table. -/
def nameAt (strings : List UInt8) (offset : Nat) : Except Error String :=
  if strings.length < offset then throw (.invalidData (.nameOutside offset strings.length))
  else
    match Utf8.decode ((strings.drop offset).takeWhile (· != 0)) with
    | .ok name => return name
    | .error fault => throw (.invalidData (.nameNotUtf8 offset fault))

/-- The file of a record, given the string table and the size of the data region. -/
def Record.resolve {F : Flavor} (r : Record F) (strings : List UInt8) (dataSize : Nat) :
    Except Error (Entry F) := do
  let name ← nameAt strings r.nameOffset.toNat
  if r.dataOffset.toNat + r.dataSize.toNat ≤ dataSize then
    return ⟨name, r.dataOffset, r.dataSize, r.tail⟩
  else
    throw (.truncated (.partitionEntry F.format name r.dataOffset.toNat r.dataSize.toNat))

/-- Adds the files of records to a catalog. -/
def resolveAll {F : Flavor} (strings : List UInt8) (dataSize : Nat) :
    List (Record F) → Catalog String (Entry F) → Traced (Catalog String (Entry F))
  | [], entries => pure entries
  | r :: rest, entries => do
    let entry ← r.resolve strings dataSize
    if entries.contains entry.name then
      Traced.emit (.warn "Duplicate entry name, keeping the last one"
        [("format", F.format.abbreviation), ("name", entry.name)])
    resolveAll strings dataSize rest (entries.insert entry.name entry)

/-- Reads as many records as given from a position on. -/
def readRecords (F : Flavor) (source : Source) : (count position : Nat) →
    Except Error (List (Record F))
  | 0, _ => return []
  | count + 1, position => do
    let r ← (Record.layout F).decodeAt source position
    let rest ← readRecords F source count (position + (Record.layout F).size)
    return r :: rest

/-- Reads the string table. -/
def readStrings (source : Source) (position size : Nat) : Except Error (List UInt8) :=
  match source position size with
  | .ok strings => .ok strings
  | .error (.ended _) => .error (.truncated .stringTable)
  | .error failure => .error (.stream failure)

/-- The first four bytes of a region; zeros where they cannot be read. -/
def magicOf (region : Region) (media : Media) : List UInt8 :=
  match region.readAt media 0 4 with
  | .ok bytes => bytes
  | .error _ => List.replicate 4 0

/-- Reads the tables at the start of a region. -/
def Table.read (F : Flavor) (region : Region) (media : Media) : Traced (Table F) := do
  let found := magicOf region media
  if found ≠ F.magic.toList then
    Traced.fail (.invalidMagic F.format found)
  else
    let source := region.streamAt media
    let header ← Header.layout.decodeAt source 0
    let count := header.fileCount.toNat
    let dataOffset := tablesSize F header
    if region.size < dataOffset then
      Traced.fail (.truncated (.partitionTables F.format count dataOffset region.size))
    else
      let records ← readRecords F source count Header.layout.size
      let strings ← readStrings source (Header.layout.size + count * (Record.layout F).size)
        header.stringTableSize.toNat
      let entries ← resolveAll strings (region.size - dataOffset) records Catalog.empty
      Traced.emit (.trace "Parsed partition table"
        [("format", F.format.abbreviation), ("files", toString entries.size)])
      return ⟨header, dataOffset, entries⟩

/-- The part of the archive that holds an entry's data. -/
def Table.openEntry {F : Flavor} (t : Table F) (archive : View) (entry : Entry F) : Traced View := do
  let offset := t.dataOffset + entry.dataOffset.toNat
  let size := entry.dataSize.toNat
  Traced.emit (.trace "Opening included file"
    [("name", entry.name), ("offset", Hex.paddedUpper 12 offset),
      ("actual_offset", Hex.paddedUpper 12 (offset + size))])
  archive.subview offset size

end Cartridge.Partition
