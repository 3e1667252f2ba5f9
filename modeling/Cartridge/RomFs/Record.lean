import Cartridge.Layout

/-!
# The header and the records of a directory tree image

The header names four tables and the place of the file data. Directory and file records link to each
other by their offset in their table. A record is a fixed part, whose last word is the length of its
name, followed by the name.
-/

namespace Cartridge.RomFs

/-- The header of an image. -/
structure Header where
  /-- The size of the header itself, which serves as the format's magic. -/
  headerSize : UInt64
  dirHashOffset : UInt64
  dirHashSize : UInt64
  dirTableOffset : UInt64
  dirTableSize : UInt64
  fileHashOffset : UInt64
  fileHashSize : UInt64
  fileTableOffset : UInt64
  fileTableSize : UInt64
  /-- Where the data of files begins. -/
  fileDataOffset : UInt64
deriving DecidableEq

/-- The layout of the header. -/
def Header.layout : Layout Header :=
  .record (fun (a, b, c, d, e, f, g, h, i, j) => ⟨a, b, c, d, e, f, g, h, i, j⟩)
    (fun h => (h.headerSize, h.dirHashOffset, h.dirHashSize, h.dirTableOffset, h.dirTableSize,
      h.fileHashOffset, h.fileHashSize, h.fileTableOffset, h.fileTableSize, h.fileDataOffset))
    (fun _ => rfl) (fun _ => rfl)
    (.seq .word64 (.seq .word64 (.seq .word64 (.seq .word64 (.seq .word64 (.seq .word64
      (.seq .word64 (.seq .word64 (.seq .word64 .word64)))))))))

/-- The size that a header gives for itself. -/
def Header.size : Nat := 0x50

theorem Header.size_layout : Header.layout.size = Header.size := rfl

/-- The link that leads nowhere. -/
def noLink : UInt32 := 0xFFFFFFFF

/-- The fixed part of a directory record. -/
structure DirectoryRecord where
  parent : UInt32
  sibling : UInt32
  firstChild : UInt32
  firstFile : UInt32
  hashSibling : UInt32
  nameLength : UInt32
deriving DecidableEq

/-- The layout of the fixed part of a directory record. -/
def DirectoryRecord.layout : Layout DirectoryRecord :=
  .record (fun (a, b, c, d, e, f) => ⟨a, b, c, d, e, f⟩)
    (fun r => (r.parent, r.sibling, r.firstChild, r.firstFile, r.hashSibling, r.nameLength))
    (fun _ => rfl) (fun _ => rfl)
    (.seq .word32 (.seq .word32 (.seq .word32 (.seq .word32 (.seq .word32 .word32)))))

/-- The fixed part of a file record. -/
structure FileRecord where
  parent : UInt32
  sibling : UInt32
  /-- Where the file's data begins behind the start of all file data. -/
  dataOffset : UInt64
  dataSize : UInt64
  hashSibling : UInt32
  nameLength : UInt32
deriving DecidableEq

/-- The layout of the fixed part of a file record. -/
def FileRecord.layout : Layout FileRecord :=
  .record (fun (a, b, c, d, e, f) => ⟨a, b, c, d, e, f⟩)
    (fun r => (r.parent, r.sibling, r.dataOffset, r.dataSize, r.hashSibling, r.nameLength))
    (fun _ => rfl) (fun _ => rfl)
    (.seq .word32 (.seq .word32 (.seq .word64 (.seq .word64 (.seq .word32 .word32)))))

/-- Reads a record and its name: the fixed part and the name have to lie in the table, and the name
has to be UTF-8. -/
def readNamed {α : Type} (kind : RecordKind) (layout : Layout α) (nameLength : α → UInt32)
    (table : List UInt8) (offset : UInt32) : Except TreeFault (α × String) :=
  match layout.decodeAt (Source.ofBytes table) offset.toNat with
  | .error _ => .error (.outside kind offset.toNat)
  | .ok fixed =>
    match slice? table (offset.toNat + layout.size) (nameLength fixed).toNat with
    | none => .error (.nameOutside kind offset.toNat)
    | some name =>
      match Utf8.decode name with
      | .error fault => .error (.nameNotUtf8 kind offset.toNat fault)
      | .ok name => .ok (fixed, name)

/-- Reads a directory record and its name. -/
def readDirectory (table : List UInt8) (offset : UInt32) :
    Except TreeFault (DirectoryRecord × String) :=
  readNamed .directory DirectoryRecord.layout DirectoryRecord.nameLength table offset

/-- Reads a file record and its name. -/
def readFile (table : List UInt8) (offset : UInt32) : Except TreeFault (FileRecord × String) :=
  readNamed .file FileRecord.layout FileRecord.nameLength table offset

theorem add_size_le_of_readNamed {α : Type} {kind : RecordKind} {layout : Layout α}
    {nameLength : α → UInt32} {table : List UInt8} {offset : UInt32} {record : α × String}
    (h : readNamed kind layout nameLength table offset = .ok record) :
    offset.toNat + layout.size ≤ table.length := by
  unfold readNamed at h
  split at h
  · cases h
  · split at h
    · cases h
    · rename_i hs
      have := (slice?_eq_some_iff.1 hs).1
      omega

theorem lt_length_of_readDirectory {table : List UInt8} {offset : UInt32}
    {record : DirectoryRecord × String} (h : readDirectory table offset = .ok record) :
    offset.toNat < table.length := by
  have : offset.toNat + 0x18 ≤ table.length := add_size_le_of_readNamed h
  omega

theorem lt_length_of_readFile {table : List UInt8} {offset : UInt32}
    {record : FileRecord × String} (h : readFile table offset = .ok record) :
    offset.toNat < table.length := by
  have : offset.toNat + 0x20 ≤ table.length := add_size_le_of_readNamed h
  omega

end Cartridge.RomFs
