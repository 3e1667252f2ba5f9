import Cartridge.Proofs.Numbering
import Cartridge.Proofs.RomFs.Preservation
import Cartridge.RomFs.Image
import Mathlib.Data.List.Nodup
import Mathlib.Logic.Relation

/-!
# How a walk grows its arena

A walk adds one directory or file at a time, in a directory that is there, from a record to which no
link has led before (`Arena.Step`). So whatever such a step keeps holds of every arena that a walk
gives; first of all that the arena's lists and catalogs all say the same (`Arena.Consistent`).

Results:
* `walk_grows`: a walk is a sequence of steps from the root on.
* `Arena.Step.consistent`, `consistent_of_walk`: what is listed where is read off the parents, and
  what is found at a place is read off the places.
* `Arena.Step.recorded`, `recorded_of_walk`: names are those in the records.
-/

namespace Cartridge.RomFs

namespace Arena

variable {a b : Arena} {owner id place : Nat}

/-! ## The parts of a grown arena -/

/-- The parent of each directory. -/
def parents (a : Arena) : List (Option Nat) := a.dirs.toList.map Directory.parent

/-- The directory of each file. -/
def fileParents (a : Arena) : List Nat := a.files.toList.map File.parent

theorem length_parents (a : Arena) : a.parents.length = a.dirs.size := by simp [parents]

theorem length_fileParents (a : Arena) : a.fileParents.length = a.files.size := by
  simp [fileParents]

theorem length_dirPlaces (a : Arena) : a.dirPlaces.length = a.dirs.size := by simp [dirPlaces]

theorem length_filePlaces (a : Arena) : a.filePlaces.length = a.files.size := by simp [filePlaces]

theorem getElem?_parents (a : Arena) (id : Nat) :
    a.parents[id]? = (a.dir? id).map Directory.parent := by
  simp [parents, dir?]

theorem getElem?_fileParents (a : Arena) (id : Nat) :
    a.fileParents[id]? = (a.file? id).map File.parent := by
  simp [fileParents, file?]

theorem getElem?_dirPlaces (a : Arena) (id : Nat) :
    a.dirPlaces[id]? = (a.dir? id).map Directory.tableOffset := by
  simp [dirPlaces, dir?]

theorem getElem?_filePlaces (a : Arena) (id : Nat) :
    a.filePlaces[id]? = (a.file? id).map File.tableOffset := by
  simp [filePlaces, file?]

section AddChild

variable (name : String) (place : UInt32) (path : String)

@[simp] theorem size_dirs_addChild :
    (a.addChild owner name place path).dirs.size = a.dirs.size + 1 := by
  simp [addChild, addDirectory, modifyDirectory]

@[simp] theorem files_addChild : (a.addChild owner name place path).files = a.files := rfl

theorem dir?_addChild (howner : owner < a.dirs.size) (id : Nat) :
    (a.addChild owner name place path).dir? id =
      if id = a.dirs.size then some ⟨name, some owner, #[], #[], place⟩
      else if id = owner then (a.dir? id).map (Directory.withChild · a.dirs.size)
      else a.dir? id := by
  simp only [dir?, addChild, addDirectory, modifyDirectory, Array.getElem?_modify,
    Array.getElem?_push]
  by_cases hnew : id = a.dirs.size
  · have hne : owner ≠ id := by omega
    simp [hnew, Nat.ne_of_lt howner]
  · by_cases hid : id = owner
    · simp [hid, Nat.ne_of_lt howner]
    · simp [hid, hnew, Ne.symm hid]

@[simp] theorem parents_addChild :
    (a.addChild owner name place path).parents = a.parents ++ [some owner] := by
  have hkeep (d : Directory) : (d.withChild a.dirs.size).parent = d.parent := rfl
  simp [parents, addChild, map_dirs_modifyDirectory _ _ hkeep, addDirectory]

theorem children_addChild (howner : owner < a.dirs.size) (id : Nat) :
    (a.addChild owner name place path).children id =
      a.children id ++ if id = owner then [a.dirs.size] else [] := by
  have hnone : a.dir? a.dirs.size = none := by simp [dir?]
  unfold children
  rw [dir?_addChild name place path howner]
  by_cases hnew : id = a.dirs.size
  · simp [hnew, hnone, Nat.ne_of_gt howner]
  · by_cases hid : id = owner
    · have hsome : a.dir? owner = some a.dirs[owner] := Array.getElem?_eq_getElem howner
      simp [hid, Nat.ne_of_lt howner, hsome, Directory.withChild]
    · simp [hid, hnew]

theorem filesOf_addChild (howner : owner < a.dirs.size) (id : Nat) :
    (a.addChild owner name place path).filesOf id = a.filesOf id := by
  have hnone : a.dir? a.dirs.size = none := by simp [dir?]
  unfold filesOf
  rw [dir?_addChild name place path howner]
  by_cases hnew : id = a.dirs.size
  · simp [hnew, hnone]
  · by_cases hid : id = owner
    · have hsome : a.dir? owner = some a.dirs[owner] := Array.getElem?_eq_getElem howner
      simp [hid, Nat.ne_of_lt howner, hsome, Directory.withChild]
    · simp [hid, hnew]

end AddChild

section AddFile

variable (f : File) (path : String)

@[simp] theorem size_dirs_addFile : (a.addFile f path).dirs.size = a.dirs.size := by
  simp [addFile, modifyDirectory]

@[simp] theorem files_addFile : (a.addFile f path).files = a.files.push f := rfl

theorem file?_addFile (id : Nat) :
    (a.addFile f path).file? id = if id = a.files.size then some f else a.file? id := by
  rw [file?, files_addFile, Array.getElem?_push]
  rfl

theorem dir?_addFile (id : Nat) :
    (a.addFile f path).dir? id =
      if id = f.parent then (a.dir? id).map (Directory.withFile · a.files.size) else a.dir? id := by
  simp only [dir?, addFile, modifyDirectory, Array.getElem?_modify, eq_comm]

@[simp] theorem parents_addFile : (a.addFile f path).parents = a.parents := by
  have hkeep (d : Directory) : (d.withFile a.files.size).parent = d.parent := rfl
  simp [parents, addFile, map_dirs_modifyDirectory _ _ hkeep]

@[simp] theorem fileParents_addFile :
    (a.addFile f path).fileParents = a.fileParents ++ [f.parent] := by
  simp [fileParents]

theorem children_addFile (id : Nat) : (a.addFile f path).children id = a.children id := by
  unfold children
  rw [dir?_addFile]
  by_cases hid : id = f.parent
  · rw [if_pos hid]
    cases a.dir? id <;> rfl
  · rw [if_neg hid]

theorem filesOf_addFile (howner : f.parent < a.dirs.size) (id : Nat) :
    (a.addFile f path).filesOf id =
      a.filesOf id ++ if id = f.parent then [a.files.size] else [] := by
  unfold filesOf
  rw [dir?_addFile]
  by_cases hid : id = f.parent
  · have hsome : a.dir? f.parent = some a.dirs[f.parent] := Array.getElem?_eq_getElem howner
    simp [hid, hsome, Directory.withFile]
  · simp [hid]

end AddFile

/-! ## Steps -/

/-- One step of a walk: it goes to a record to which no link has led before and adds what the record
says to a directory that is there. -/
inductive Step (dirTable fileTable : List UInt8) : Arena → Arena → Prop
  | child {a : Arena} {owner : Nat} {place : UInt32} {record : DirectoryRecord} {name : String}
      (path : String) (howner : owner < a.dirs.size) (hnew : place ∉ a.dirPlaces)
      (hrecord : DirectoryAt dirTable place record name) :
      Step dirTable fileTable a (a.addChild owner name place path)
  | file {a : Arena} {owner : Nat} {place : UInt32} {record : FileRecord} {name : String}
      (path : String) (howner : owner < a.dirs.size) (hnew : place ∉ a.filePlaces)
      (hrecord : FileAt fileTable place record name) :
      Step dirTable fileTable a
        (a.addFile ⟨name, owner, record.dataOffset, record.dataSize, place⟩ path)

/-- Steps one after the other. -/
abbrev Steps (dirTable fileTable : List UInt8) : Arena → Arena → Prop :=
  Relation.ReflTransGen (Step dirTable fileTable)

end Arena

/-! ## The walk takes steps -/

/-- Each step of a walk is a step, and pending directories are there. -/
theorem preserved_steps (dirTable fileTable : List UInt8) :
    Preserved dirTable fileTable (Arena.Steps dirTable fileTable .ofRoot)
      fun a p => p.id < a.dirs.size where
  addFile ha hdir hnew hrecord := ha.tail (.file _ hdir hnew hrecord)
  fits_addFile hp f path := by
    rw [Arena.size_dirs_addFile]
    exact hp
  addChild ha hdir hnew hrecord := ha.tail (.child _ hdir hnew hrecord)
  fits_addChild _ hp name place path := by
    rw [Arena.size_dirs_addChild]
    exact Nat.lt_succ_of_lt hp
  fits_child _ name place _ _ := by
    rw [Arena.size_dirs_addChild]
    exact Nat.lt_succ_self _

/-- **A walk is a sequence of steps from the root on.** -/
theorem walk_grows {dirTable fileTable : List UInt8} {a : Arena}
    (h : walk dirTable fileTable = .ok a) : Arena.Steps dirTable fileTable .ofRoot a :=
  (preserved_steps dirTable fileTable).of_walk .refl (fun _ _ => Nat.zero_lt_one) h

/-! ## What steps keep -/

namespace Arena

variable {a b : Arena} {dirTable fileTable : List UInt8}

/-- What an arena lists and looks up says the same as the parents and places of its directories and
files. -/
structure Consistent (a : Arena) : Prop where
  parents_eq : ∃ others : List Nat, a.parents = none :: others.map some
  parent_lt : ∀ {id p : Nat}, a.parents[id]? = some (some p) → p < id
  fileParent_lt : ∀ p ∈ a.fileParents, p < a.dirs.size
  children_eq : ∀ id, a.children id = a.parents.idxsOf (some id)
  filesOf_eq : ∀ id, a.filesOf id = a.fileParents.idxsOf id
  dirPlaces_nodup : a.dirPlaces.Nodup
  filePlaces_nodup : a.filePlaces.Nodup
  dirByPlace_eq : a.dirByPlace = .numbered a.dirPlaces
  fileByPlace_eq : a.fileByPlace = .numbered a.filePlaces

theorem consistent_ofRoot : Consistent ofRoot where
  parents_eq := ⟨[], rfl⟩
  parent_lt := by
    intro id p h
    rcases id with _ | id <;> cases h
  fileParent_lt := by
    intro p hp
    cases hp
  children_eq := by
    intro id
    rcases id with _ | id <;> rfl
  filesOf_eq := by
    intro id
    rcases id with _ | id <;> rfl
  dirPlaces_nodup := List.nodup_singleton 0
  filePlaces_nodup := List.nodup_nil
  dirByPlace_eq := rfl
  fileByPlace_eq := rfl

theorem idxsOf_concat {α : Type} [BEq α] [LawfulBEq α] [DecidableEq α] (xs : List α) (x y : α) :
    (xs ++ [y]).idxsOf x = xs.idxsOf x ++ if x = y then [xs.length] else [] := by
  rw [List.idxsOf_append, Nat.zero_add]
  congr 1
  by_cases h : x = y
  · simp [h]
  · simp [h, Ne.symm h]

theorem Consistent.addChild (ha : a.Consistent) (howner : owner < a.dirs.size) {place : UInt32}
    (hnew : place ∉ a.dirPlaces) (name path : String) :
    (a.addChild owner name place path).Consistent where
  parents_eq := by
    obtain ⟨others, hothers⟩ := ha.parents_eq
    exact ⟨others ++ [owner], by simp [hothers]⟩
  parent_lt := by
    intro id p h
    rw [parents_addChild] at h
    rcases Nat.lt_or_ge id a.parents.length with hold | hlast
    · rw [List.getElem?_append_left hold] at h
      exact ha.parent_lt h
    · rw [List.getElem?_append_right hlast] at h
      have hp : p = owner := by
        have hmem := List.mem_of_getElem? h
        simpa using hmem
      rw [length_parents] at hlast
      omega
  fileParent_lt := by
    intro p hp
    rw [size_dirs_addChild]
    exact Nat.lt_succ_of_lt (ha.fileParent_lt p hp)
  children_eq := by
    intro id
    rw [children_addChild name place path howner, parents_addChild, idxsOf_concat, ha.children_eq,
      length_parents]
    simp only [Option.some.injEq]
  filesOf_eq := by
    intro id
    rw [filesOf_addChild name place path howner]
    exact ha.filesOf_eq id
  dirPlaces_nodup := by
    rw [dirPlaces_addChild, ← List.concat_eq_append]
    exact ha.dirPlaces_nodup.concat hnew
  filePlaces_nodup := ha.filePlaces_nodup
  dirByPlace_eq := by
    rw [dirPlaces_addChild, Catalog.numbered_concat, ← ha.dirByPlace_eq, length_dirPlaces]
    rfl
  fileByPlace_eq := ha.fileByPlace_eq

theorem Consistent.addFile (ha : a.Consistent) {f : File} (howner : f.parent < a.dirs.size)
    (hnew : f.tableOffset ∉ a.filePlaces) (path : String) : (a.addFile f path).Consistent where
  parents_eq := by
    rw [parents_addFile]
    exact ha.parents_eq
  parent_lt := by
    rw [parents_addFile]
    exact ha.parent_lt
  fileParent_lt := by
    intro p hp
    rw [size_dirs_addFile]
    rw [fileParents_addFile] at hp
    rcases List.mem_append.mp hp with hp | hp
    · exact ha.fileParent_lt p hp
    · rw [List.mem_singleton.mp hp]
      exact howner
  children_eq := by
    intro id
    rw [children_addFile, parents_addFile]
    exact ha.children_eq id
  filesOf_eq := by
    intro id
    rw [filesOf_addFile f path howner, fileParents_addFile, idxsOf_concat, ha.filesOf_eq,
      length_fileParents]
  dirPlaces_nodup := by
    rw [dirPlaces_addFile]
    exact ha.dirPlaces_nodup
  filePlaces_nodup := by
    rw [filePlaces_addFile, ← List.concat_eq_append]
    exact ha.filePlaces_nodup.concat hnew
  dirByPlace_eq := by
    rw [dirPlaces_addFile]
    exact ha.dirByPlace_eq
  fileByPlace_eq := by
    rw [filePlaces_addFile, Catalog.numbered_concat, ← ha.fileByPlace_eq, length_filePlaces]
    rfl

/-- **A step keeps an arena consistent.** -/
theorem Step.consistent (h : Step dirTable fileTable a b) (ha : a.Consistent) : b.Consistent := by
  cases h with
  | child path howner hnew hrecord => exact ha.addChild howner hnew _ path
  | file path howner hnew hrecord => exact ha.addFile howner hnew path

theorem Steps.consistent (h : Steps dirTable fileTable a b) (ha : a.Consistent) :
    b.Consistent := by
  induction h with
  | refl => exact ha
  | tail _ hstep ih => exact hstep.consistent ih

theorem consistent_of_walk (h : walk dirTable fileTable = .ok a) : a.Consistent :=
  (walk_grows h).consistent consistent_ofRoot

/-! ## What the records say -/

/-- What an arena holds of a directory or a file is what the record at its place says, but the root has
no name. -/
structure Recorded (dirTable fileTable : List UInt8) (a : Arena) : Prop where
  root_place : ∃ others, a.dirPlaces = 0 :: others
  dir : ∀ {id : Nat} {d : Directory}, a.dir? id = some d → d.parent ≠ none →
    ∃ record, DirectoryAt dirTable d.tableOffset record d.name
  file : ∀ {id : Nat} {f : File}, a.file? id = some f →
    ∃ record, FileAt fileTable f.tableOffset record f.name ∧
      f.dataOffset = record.dataOffset ∧ f.dataSize = record.dataSize

theorem recorded_ofRoot : Recorded dirTable fileTable ofRoot where
  root_place := ⟨[], rfl⟩
  dir := by
    intro id d hd hparent
    rcases id with _ | id
    · cases hd
      exact absurd rfl hparent
    · cases hd
  file := by
    intro id f hf
    cases hf

/-- A directory of an arena that has grown by one is the new one, or it was there and has kept its
name, its parent and its place. -/
theorem dir?_addChild_eq_some {owner id : Nat} {name path : String} {place : UInt32}
    {d : Directory} (howner : owner < a.dirs.size)
    (hd : (a.addChild owner name place path).dir? id = some d) :
    d = ⟨name, some owner, #[], #[], place⟩ ∨
      ∃ d', a.dir? id = some d' ∧ d'.name = d.name ∧ d'.parent = d.parent ∧
        d'.tableOffset = d.tableOffset := by
  rw [dir?_addChild name place path howner] at hd
  split at hd
  · exact .inl (Option.some.inj hd).symm
  · right
    split at hd
    · obtain ⟨d', hd', rfl⟩ := Option.map_eq_some_iff.mp hd
      exact ⟨d', hd', rfl, rfl, rfl⟩
    · exact ⟨d, hd, rfl, rfl, rfl⟩

theorem dir?_addFile_eq_some {id : Nat} {f : File} {path : String} {d : Directory}
    (hd : (a.addFile f path).dir? id = some d) :
    ∃ d', a.dir? id = some d' ∧ d'.name = d.name ∧ d'.parent = d.parent ∧
      d'.tableOffset = d.tableOffset := by
  rw [dir?_addFile] at hd
  split at hd
  · obtain ⟨d', hd', rfl⟩ := Option.map_eq_some_iff.mp hd
    exact ⟨d', hd', rfl, rfl, rfl⟩
  · exact ⟨d, hd, rfl, rfl, rfl⟩

/-- **A step adds what a record says.** -/
theorem Step.recorded (h : Step dirTable fileTable a b) (ha : a.Recorded dirTable fileTable) :
    b.Recorded dirTable fileTable := by
  obtain ⟨others, hothers⟩ := ha.root_place
  cases h with
  | @child owner place record name path howner _ hrecord =>
    refine ⟨⟨others ++ [place], by rw [dirPlaces_addChild, hothers]; rfl⟩, ?_, ha.file⟩
    intro id d hd hparent
    rcases dir?_addChild_eq_some howner hd with rfl | ⟨d', hd', hname, hparent', hplace⟩
    · exact ⟨record, hrecord⟩
    · rw [← hname, ← hplace]
      exact ha.dir hd' (hparent' ▸ hparent)
  | @file owner place record name path _ _ hrecord =>
    refine ⟨⟨others, by rw [dirPlaces_addFile, hothers]⟩, ?_, ?_⟩
    · intro id d hd hparent
      obtain ⟨d', hd', hname, hparent', hplace⟩ := dir?_addFile_eq_some hd
      rw [← hname, ← hplace]
      exact ha.dir hd' (hparent' ▸ hparent)
    · intro id f hf
      rw [file?_addFile] at hf
      split at hf
      · cases hf
        exact ⟨record, hrecord, rfl, rfl⟩
      · exact ha.file hf

theorem Steps.recorded (h : Steps dirTable fileTable a b) (ha : a.Recorded dirTable fileTable) :
    b.Recorded dirTable fileTable := by
  induction h with
  | refl => exact ha
  | tail _ hstep ih => exact hstep.recorded ih

theorem recorded_of_walk (h : walk dirTable fileTable = .ok a) : a.Recorded dirTable fileTable :=
  (walk_grows h).recorded recorded_ofRoot

end Arena

end Cartridge.RomFs
