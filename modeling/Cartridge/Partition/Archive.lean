import Cartridge.Digest.Sha256
import Cartridge.Partition.Table
import Cartridge.Slot

/-!
# Partition filesystems

An archive is a view with tables that are read when they are first needed. Files are found by name.
In the hashed flavor a file can be checked against the hash of its beginning.
-/

namespace Cartridge.Partition

/-- A partition filesystem. -/
structure Archive (F : Flavor) where
  view : View
  slot : Slot (Table F)

namespace Archive

variable {F : Flavor}

/-- A view taken for a partition filesystem; nothing has been read. -/
def ofView (view : View) : Archive F := ⟨view, .unparsed⟩

/-- Whether the tables have been read. -/
def isParsed (a : Archive F) : Bool := a.slot.isParsed

/-- Whether the view begins with the format's magic. -/
def isValid (a : Archive F) (media : Media) : Bool := magicOf a.view.region media == F.magic.toList

/-- The tables. -/
def table (media : Media) : Access (Archive F) (Table F) := fun a =>
  let (answer, slot) := Slot.force (fun _ => Table.read F a.view.region media) a.slot
  (answer, { a with slot := slot })

/-- Reads the tables if that has not been done. -/
def parse (media : Media) : Access (Archive F) Unit := do
  let _ ← table media
  return ()

/-- The names of all files. -/
def listFiles (media : Media) : Access (Archive F) (List String) := do
  let t ← table media
  return t.entries.keys

/-- The file with the given name. -/
def entry (media : Media) (name : String) : Access (Archive F) (Entry F) := do
  let t ← table media
  match t.entries.find? name with
  | some entry => return entry
  | none => Access.fail (.entryNotFound name)

/-- The data of a file. -/
def openEntry (media : Media) (entry : Entry F) : Access (Archive F) View := do
  let t ← table media
  Access.ask fun a => t.openEntry a.view entry

/-- The data of the file with the given name. -/
def openFile (media : Media) (name : String) : Access (Archive F) View := do
  let e ← entry media name
  openEntry media e

end Archive

/-! ## Checking hashes -/

/-- The outcome of checking a file against its hash. -/
inductive Verification where
  | valid
  | mismatch (expected actual : Bytes 32)
deriving DecidableEq

/-- The greatest number of bytes read at once for hashing. -/
def chunkSize : Nat := 0x10000

/-- Reads `length` bytes from `offset` on in as many chunks as given. -/
def readChunks (region : Region) (media : Media) : (count offset length : Nat) →
    Except Error (List UInt8)
  | 0, _, _ => return []
  | count + 1, offset, length => do
    let chunk := min length chunkSize
    let bytes ← region.readAt media offset chunk
    let rest ← readChunks region media count (offset + chunk) (length - chunk)
    return bytes ++ rest

/-- The hash of the first `length` bytes of a region. -/
def hashOfPrefix (region : Region) (media : Media) (length : Nat) : Except Error (Bytes 32) := do
  let bytes ← readChunks region media ((length + (chunkSize - 1)) / chunkSize) 0 length
  return Sha256.hash bytes

namespace Archive

/-- The number of bytes of a file that its hash covers. -/
def coveredSize (e : Entry .hashed) : Nat := min e.tail.coveredSize.toNat e.dataSize.toNat

/-- Compares the hash of a file's beginning with the recorded one. -/
def check (media : Media) (name : String) : Access (Archive .hashed) Verification := do
  let e ← entry media name
  let file ← openEntry media e
  let actual ← (hashOfPrefix file.region media (coveredSize e) : Traced (Bytes 32))
  if actual = e.tail.hash then
    return .valid
  else
    Traced.emit (.warn "HFS0 entry hash mismatch"
      [("name", name), ("expected", Hex.encode e.tail.hash.toList),
        ("actual", Hex.encode actual.toList)])
    return .mismatch e.tail.hash actual

/-- Like `check`, but a mismatch is an error. -/
def verify (media : Media) (name : String) : Access (Archive .hashed) Unit := do
  match ← check media name with
  | .valid => return ()
  | .mismatch _ _ => Access.fail (.hashMismatch name)

/-- The data of a file, whether or not it matches its hash, and which of the two. -/
def openVerified (media : Media) (name : String) :
    Access (Archive .hashed) (View × Verification) := do
  let verification ← check media name
  let file ← openFile media name
  return (file, verification)

end Archive

end Cartridge.Partition
