import Cartridge.Catalog
import Cartridge.RomFs.Record

/-!
# Arenas

An arena holds the directories and files that a walk has found, numbered in the order in which they
were found. A directory knows the one it is in and lists what is in it; places of records and paths
lead to numbers.

An arena grows by one directory or file at a time, which gets the next number and is listed by the
directory it is in (`addChild`, `addFile`).
-/

namespace Cartridge.RomFs

/-- A directory found by the walk. -/
structure Directory where
  name : String
  /-- The number of the directory it is in; none for the root. -/
  parent : Option Nat
  /-- The numbers of the directories in it. -/
  children : Array Nat
  /-- The numbers of the files in it. -/
  files : Array Nat
  /-- Where its record lies in the directory table. -/
  tableOffset : UInt32
deriving DecidableEq

/-- Lists a directory in a directory. -/
def Directory.withChild (d : Directory) (id : Nat) : Directory :=
  { d with children := d.children.push id }

/-- Lists a file in a directory. -/
def Directory.withFile (d : Directory) (id : Nat) : Directory :=
  { d with files := d.files.push id }

/-- A file found by the walk. -/
structure File where
  name : String
  /-- The number of the directory it is in. -/
  parent : Nat
  dataOffset : UInt64
  dataSize : UInt64
  /-- Where its record lies in the file table. -/
  tableOffset : UInt32
deriving DecidableEq

/-- The path of a name in a directory with the given path. -/
def joinPath (dir name : String) : String :=
  if dir = "/" then "/" ++ name else dir ++ "/" ++ name

/-- The path that names from the root on lead along. -/
def absolutePath (names : List String) : String := "/" ++ "/".intercalate names

/-- What a walk has found. -/
structure Arena where
  dirs : Array Directory
  files : Array File
  /-- The number of each directory by path. -/
  dirEntries : Catalog String Nat
  /-- The number of each file by path. -/
  fileEntries : Catalog String Nat
  /-- The number of each directory by the place of its record. -/
  dirByPlace : Catalog UInt32 Nat
  /-- The number of each file by the place of its record. -/
  fileByPlace : Catalog UInt32 Nat

namespace Arena

/-! ## Growth -/

/-- Nothing has been found. -/
def empty : Arena := ⟨#[], #[], .empty, .empty, .empty, .empty⟩

/-- Adds a directory, which gets the next number. -/
def addDirectory (a : Arena) (name : String) (parent : Option Nat) (place : UInt32)
    (path : String) : Arena :=
  { a with
    dirs := a.dirs.push ⟨name, parent, #[], #[], place⟩
    dirByPlace := a.dirByPlace.insert place a.dirs.size
    dirEntries := a.dirEntries.insert path a.dirs.size }

/-- Changes the directory with the given number. -/
def modifyDirectory (a : Arena) (id : Nat) (f : Directory → Directory) : Arena :=
  { a with dirs := a.dirs.modify id f }

/-- Adds a directory to the directory `owner`. -/
def addChild (a : Arena) (owner : Nat) (name : String) (place : UInt32) (path : String) : Arena :=
  (a.addDirectory name (some owner) place path).modifyDirectory owner
    (Directory.withChild · a.dirs.size)

/-- Adds a file to the directory that it names as its parent. -/
def addFile (a : Arena) (f : File) (path : String) : Arena :=
  { a with
    files := a.files.push f
    fileByPlace := a.fileByPlace.insert f.tableOffset a.files.size
    fileEntries := a.fileEntries.insert path a.files.size }.modifyDirectory f.parent
      (Directory.withFile · a.files.size)

/-- The arena of a root in which nothing has been found. -/
def ofRoot : Arena := empty.addDirectory "" none 0 "/"

/-! ## Places -/

/-- The places of the directories. -/
def dirPlaces (a : Arena) : List UInt32 := a.dirs.toList.map Directory.tableOffset

/-- The places of the files. -/
def filePlaces (a : Arena) : List UInt32 := a.files.toList.map File.tableOffset

/-- What a change to one directory leaves alone, it leaves alone in all. -/
theorem map_dirs_modifyDirectory {α : Type} (a : Arena) (id : Nat) {f : Directory → Directory}
    {g : Directory → α} (hf : ∀ d, g (f d) = g d) :
    (a.modifyDirectory id f).dirs.toList.map g = a.dirs.toList.map g := by
  apply List.ext_getElem?
  intro i
  simp only [modifyDirectory, List.getElem?_map, Array.getElem?_toList, Array.getElem?_modify]
  split
  · rw [Option.map_map]
    congr 1
    funext d
    exact hf d
  · rfl

@[simp] theorem dirPlaces_addChild (a : Arena) (owner : Nat) (name : String) (place : UInt32)
    (path : String) : (a.addChild owner name place path).dirPlaces = a.dirPlaces ++ [place] := by
  have hkeep (d : Directory) : (d.withChild a.dirs.size).tableOffset = d.tableOffset := rfl
  simp [dirPlaces, addChild, map_dirs_modifyDirectory _ _ hkeep, addDirectory]

@[simp] theorem filePlaces_addChild (a : Arena) (owner : Nat) (name : String) (place : UInt32)
    (path : String) : (a.addChild owner name place path).filePlaces = a.filePlaces := rfl

@[simp] theorem dirPlaces_addFile (a : Arena) (f : File) (path : String) :
    (a.addFile f path).dirPlaces = a.dirPlaces := by
  have hkeep (d : Directory) : (d.withFile a.files.size).tableOffset = d.tableOffset := rfl
  simp [dirPlaces, addFile, map_dirs_modifyDirectory _ _ hkeep]

@[simp] theorem filePlaces_addFile (a : Arena) (f : File) (path : String) :
    (a.addFile f path).filePlaces = a.filePlaces ++ [f.tableOffset] := by
  simp [filePlaces, addFile, modifyDirectory]

/-! ## By number -/

/-- The directory with the given number. -/
def dir? (a : Arena) (id : Nat) : Option Directory := a.dirs[id]?

/-- The file with the given number. -/
def file? (a : Arena) (id : Nat) : Option File := a.files[id]?

/-- The numbers of the directories in a directory, in order. -/
def children (a : Arena) (id : Nat) : List Nat :=
  match a.dir? id with
  | some d => d.children.toList
  | none => []

/-- The numbers of the files in a directory, in order. -/
def filesOf (a : Arena) (id : Nat) : List Nat :=
  match a.dir? id with
  | some d => d.files.toList
  | none => []

/-- The number of the directory whose record lies at an offset. -/
def dirAt? (a : Arena) (offset : UInt32) : Option Nat := a.dirByPlace.find? offset

/-- The number of the file whose record lies at an offset. -/
def fileAt? (a : Arena) (offset : UInt32) : Option Nat := a.fileByPlace.find? offset

/-- The names from the root down to a directory, found by going up from parent to parent through at
most the given number of directories. None if that leads out of the arena. -/
def namesWithin? (a : Arena) : (count : Nat) → (id : Nat) → Option (List String)
  | 0, _ => none
  | count + 1, id => do
    let d ← a.dir? id
    match d.parent with
    | none => return []
    | some parent =>
      let above ← a.namesWithin? count parent
      return above ++ [d.name]

/-- The names from the root down to a directory. A way up through more directories than there are
would go in a circle. -/
def namesTo? (a : Arena) (id : Nat) : Option (List String) := a.namesWithin? a.dirs.size id

/-- A directory's path, rebuilt from the names of those above it. -/
def dirPath? (a : Arena) (id : Nat) : Option String := (a.namesTo? id).map absolutePath

/-- A file's path, rebuilt from the names of the directories above it. -/
def filePath? (a : Arena) (id : Nat) : Option String := do
  let f ← a.file? id
  let dir ← a.dirPath? f.parent
  return joinPath dir f.name

end Arena

end Cartridge.RomFs
