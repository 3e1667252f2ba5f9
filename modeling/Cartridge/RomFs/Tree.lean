import Cartridge.RomFs.Walk
import Cartridge.Text.Lines

/-!
# Directory trees

What is known of an image after the walk: what the walk has found, and the tables that a look-up
through the hash buckets reads again.

A path can be looked up in two ways. The catalog of paths has every path that the walk has built; of
several directories or files with one path it has the one with the greatest number. The hash buckets
lead from a directory's place and a name to a chain of records.
-/

namespace Cartridge.RomFs

/-- A directory tree image whose tree has been walked. -/
structure Tree extends Arena where
  header : Header
  dirHash : Array UInt32
  fileHash : Array UInt32
  dirTable : List UInt8
  fileTable : List UInt8

namespace Tree

/-- The number of the root. -/
def root : Nat := 0

/-! ## Look-up by path -/

/-- A path without its outer slashes. -/
def trimSlashes (path : List Char) : List Char :=
  ((path.dropWhile (· == '/')).reverse.dropWhile (· == '/')).reverse

/-- A path as the catalogs have it: one slash in front, none behind. -/
def normalize (path : String) : String := String.ofList ('/' :: trimSlashes path.toList)

/-- The file with the given path. -/
def file (t : Tree) (path : String) : Except Error File :=
  match (t.fileEntries.find? (normalize path)).bind t.file? with
  | some f => .ok f
  | none => .error (.entryNotFound path)

/-! ## Look-up through the hash buckets -/

/-- The hash of a name in the directory whose record lies at `parent`. -/
def hash (parent : UInt32) (name : List UInt8) : UInt32 :=
  name.foldl (fun h b => ((h >>> 5) ||| (h <<< 27)) ^^^ b.toUInt32) (parent ^^^ 123456789)

/-- The bucket of a name among `count` buckets. -/
def bucket (parent : UInt32) (name : List UInt8) (count : Nat) : Nat :=
  (hash parent name).toNat % count

/-- The first record of the chain for a name, if there are buckets at all. -/
def chainStart? (buckets : Array UInt32) (parent : UInt32) (name : String) : Option UInt32 :=
  buckets[bucket parent (Utf8.encode name) buckets.size]?

/-- Looks for a directory of the given name and parent in as many records of a chain as given. -/
def findInDirChain? (t : Tree) (parent : UInt32) (name : String) : Nat → UInt32 → Option UInt32
  | 0, _ => none
  | steps + 1, offset =>
    if offset = noLink then none
    else
      match readDirectory t.dirTable offset with
      | .error _ => none
      | .ok (record, recordName) =>
        match t.dirAt? offset with
        | none => none
        | some id =>
          let above := (t.dirs[id]?.bind Directory.parent).bind fun p => t.dirs[p]?
          if above.map Directory.tableOffset = some parent ∧ recordName = name then some offset
          else t.findInDirChain? parent name steps record.hashSibling

/-- The place of the directory of the given name in the directory at `parent`. -/
def findChild? (t : Tree) (parent : UInt32) (name : String) : Option UInt32 := do
  let start ← chainStart? t.dirHash parent name
  t.findInDirChain? parent name (t.dirs.size + 1) start

/-- Looks for a file of the given name and parent in as many records of a chain as given. -/
def findInFileChain? (t : Tree) (parent : UInt32) (name : String) : Nat → UInt32 → Option Nat
  | 0, _ => none
  | steps + 1, offset =>
    if offset = noLink then none
    else
      match readFile t.fileTable offset with
      | .error _ => none
      | .ok (record, recordName) =>
        if record.parent = parent ∧ recordName = name then t.fileAt? offset
        else t.findInFileChain? parent name steps record.hashSibling

/-- The segments of a path between slashes. -/
def segments (path : List Char) : List (List Char) :=
  let (first, more) := Text.split '/' path
  first :: more

/-- The names in a path: its segments that are not empty. -/
def components (path : List Char) : List String :=
  ((segments path).filter fun s => !s.isEmpty).map String.ofList

/-- The place of the directory that names lead to from the directory at `start`. -/
def descend? (t : Tree) : List String → (start : UInt32) → Option UInt32
  | [], place => some place
  | name :: rest, place => do
    let child ← t.findChild? place name
    t.descend? rest child

/-- The directory that names lead to from the root, looked up through the hash buckets. -/
def findByNames? (t : Tree) (names : List String) : Option Nat := do
  let place ← t.descend? names 0
  t.dirAt? place

/-- The directory with the given path, looked up through the hash buckets. -/
def findDir? (t : Tree) (path : String) : Option Nat :=
  t.findByNames? (components (trimSlashes path.toList))

/-- The file with the given path, looked up through the hash buckets: the last segment is its name,
the others lead to its directory. -/
def findFile? (t : Tree) (path : String) : Option Nat := do
  let all := segments (trimSlashes path.toList)
  let name := String.ofList (all.getLastD [])
  let dirNames := (all.dropLast.filter fun s => !s.isEmpty).map String.ofList
  let id ← t.findByNames? dirNames
  let dir ← t.dir? id
  let start ← chainStart? t.fileHash dir.tableOffset name
  t.findInFileChain? dir.tableOffset name (t.files.size + 1) start

end Tree

end Cartridge.RomFs
