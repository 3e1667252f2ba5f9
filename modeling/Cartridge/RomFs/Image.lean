import Cartridge.RomFs.Tree
import Cartridge.Slot
import Cartridge.Storage.View

/-!
# Directory tree images

An image is a view whose tables are read and whose tree is walked when that is first needed. Files
are found by path.
-/

namespace Cartridge.RomFs

/-- No real table is larger than this. -/
def greatestTableSize : Nat := 0x10000000

/-- Reads a table. -/
def readTable (region : Region) (media : Media) (table : TreeTable) (offset size : Nat) :
    Except Error (List UInt8) :=
  if greatestTableSize < size then .error (.invalidData (.treeTableSize table size))
  else
    match region.readAt media offset size with
    | .error (.outOfBounds _ _ _) =>
      .error (.truncated (.treeTable table offset size region.size))
    | answer => answer

/-- The whole words of a byte string. -/
def wordsOf : (count : Nat) → List UInt8 → List UInt32
  | 0, _ => []
  | count + 1, bytes => Endian.word32 (bytes.take 4) :: wordsOf count (bytes.drop 4)

/-- The buckets in a hash table. -/
def bucketsOf (bytes : List UInt8) : Array UInt32 := (wordsOf (bytes.length / 4) bytes).toArray

/-- Reads the tables at the start of a region and walks the tree. -/
def Tree.read (region : Region) (media : Media) : Traced Tree := do
  let header ← Header.layout.decodeAt (region.streamAt media) 0
  if header.headerSize.toNat ≠ Header.size then
    Traced.fail (.invalidMagic .romFs (Endian.bytes64 header.headerSize))
  else
    Traced.emit (.trace "Read RomFS header"
      [("dir_table_offset", toString header.dirTableOffset),
        ("file_table_offset", toString header.fileTableOffset),
        ("file_data_offset", toString header.fileDataOffset)])
    let table := fun what (offset size : UInt64) =>
      (readTable region media what offset.toNat size.toNat : Traced (List UInt8))
    let dirHash ← table .hash header.dirHashOffset header.dirHashSize
    let fileHash ← table .hash header.fileHashOffset header.fileHashSize
    let dirTable ← table .directory header.dirTableOffset header.dirTableSize
    let fileTable ← table .file header.fileTableOffset header.fileTableSize
    match walk dirTable fileTable with
    | .error fault => Traced.fail (.malformedTree fault)
    | .ok arena =>
      Traced.emit (.trace "Walked RomFS tree"
        [("dirs", toString arena.dirs.size), ("files", toString arena.files.size)])
      return ⟨arena, header, bucketsOf dirHash, bucketsOf fileHash, dirTable, fileTable⟩

/-- The part of the image that holds a file's data. -/
def Tree.openData (t : Tree) (image : View) (name : String) (dataOffset dataSize : UInt64) :
    Traced View := do
  let offset := t.header.fileDataOffset.toNat + dataOffset.toNat
  if UInt64.size ≤ offset then
    Traced.fail (.invalidData (.dataOffset name))
  else
    Traced.emit (.trace "Opening RomFS file"
      [("name", name), ("offset", Hex.paddedUpper 12 offset), ("size", toString dataSize)])
    image.subview offset dataSize.toNat

/-- A directory tree image. -/
structure Image where
  view : View
  slot : Slot Tree

namespace Image

/-- A view taken for a directory tree image; nothing has been read. -/
def ofView (view : View) : Image := ⟨view, .unparsed⟩

/-- Whether the tree has been walked. -/
def isParsed (i : Image) : Bool := i.slot.isParsed

/-- Whether the view begins with a header's size and is not smaller than it. -/
def isValid (i : Image) (media : Media) : Bool :=
  match i.view.region.readAt media 0 8 with
  | .ok bytes => (Endian.word64 bytes).toNat == Header.size && Header.size ≤ i.view.size
  | .error _ => false

/-- The tree. -/
def tree (media : Media) : Access Image Tree := fun i =>
  let (answer, slot) := Slot.force (fun _ => Tree.read i.view.region media) i.slot
  (answer, { i with slot := slot })

/-- Walks the tree if that has not been done. -/
def parse (media : Media) : Access Image Unit := do
  let _ ← tree media
  return ()

/-- The paths of all files. -/
def listFiles (media : Media) : Access Image (List String) := do
  let t ← tree media
  return t.fileEntries.keys

/-- The file with the given path. -/
def file (media : Media) (path : String) : Access Image File := do
  let t ← tree media
  (t.file path : Traced File)

/-- The data at a place behind the start of all file data. -/
def openData (media : Media) (name : String) (dataOffset dataSize : UInt64) : Access Image View := do
  let t ← tree media
  Access.ask fun i => t.openData i.view name dataOffset dataSize

/-- The data of the file with the given path. -/
def openFile (media : Media) (path : String) : Access Image View := do
  let f ← file media path
  openData media f.name f.dataOffset f.dataSize

end Image

end Cartridge.RomFs
