import Cartridge.Layout

/-!
# The tables of a partition filesystem

A partition filesystem begins with a header, a table of records of fixed size and a string table,
and the data of its files follows. Two formats share this shape. They differ in their magic and in
what a record holds behind the place of the file's name: nothing of use in PFS0, and in HFS0 the
hash of the file's beginning.
-/

namespace Cartridge.Partition

/-- The two formats of partition filesystems. -/
inductive Flavor where
  /-- PFS0. -/
  | plain
  /-- HFS0. -/
  | hashed
deriving DecidableEq, Repr

/-- The hash in a record. -/
structure Seal where
  /-- How many bytes from the start of the file the hash covers. -/
  coveredSize : UInt32
  reserved : UInt64
  hash : Bytes 32
deriving DecidableEq

namespace Flavor

/-- The container format. -/
def format : Flavor → Format
  | plain => .pfs0
  | hashed => .hfs0

/-- The bytes that the format begins with. -/
def magic : Flavor → Bytes 4
  | plain => ⟨[0x50, 0x46, 0x53, 0x30], rfl⟩
  | hashed => ⟨[0x48, 0x46, 0x53, 0x30], rfl⟩

/-- What a record holds behind the offset of its name. -/
abbrev Tail : Flavor → Type
  | plain => Bytes 4
  | hashed => Seal

end Flavor

/-- The layout of the hash in a record. -/
def Seal.layout : Layout Seal :=
  .record (fun (coveredSize, reserved, hash) => ⟨coveredSize, reserved, hash⟩)
    (fun s => (s.coveredSize, s.reserved, s.hash)) (fun _ => rfl) (fun _ => rfl)
    (.seq .word32 (.seq .word64 (.bytes 32)))

/-- The layout of the end of a record. -/
def Flavor.tailLayout : (F : Flavor) → Layout F.Tail
  | plain => .bytes 4
  | hashed => Seal.layout

/-- The header of a partition filesystem. -/
structure Header where
  magic : Bytes 4
  /-- The number of records. -/
  fileCount : UInt32
  /-- The size of the string table in bytes. -/
  stringTableSize : UInt32
  reserved : Bytes 4
deriving DecidableEq

/-- The layout of the header. -/
def Header.layout : Layout Header :=
  .record (fun (magic, fileCount, stringTableSize, reserved) =>
      ⟨magic, fileCount, stringTableSize, reserved⟩)
    (fun h => (h.magic, h.fileCount, h.stringTableSize, h.reserved)) (fun _ => rfl) (fun _ => rfl)
    (.seq (.bytes 4) (.seq .word32 (.seq .word32 (.bytes 4))))

/-- A record of the table. -/
structure Record (F : Flavor) where
  /-- Where the file begins in the data region. -/
  dataOffset : UInt64
  dataSize : UInt64
  /-- Where the file's name begins in the string table. -/
  nameOffset : UInt32
  tail : F.Tail

/-- The layout of a record. -/
def Record.layout (F : Flavor) : Layout (Record F) :=
  .record (fun (dataOffset, dataSize, nameOffset, tail) => ⟨dataOffset, dataSize, nameOffset, tail⟩)
    (fun r => (r.dataOffset, r.dataSize, r.nameOffset, r.tail)) (fun _ => rfl) (fun _ => rfl)
    (.seq .word64 (.seq .word64 (.seq .word32 F.tailLayout)))

theorem Header.size_layout : Header.layout.size = 0x10 := rfl

theorem Record.size_layout_plain : (Record.layout .plain).size = 0x18 := rfl

theorem Record.size_layout_hashed : (Record.layout .hashed).size = 0x40 := rfl

end Cartridge.Partition
