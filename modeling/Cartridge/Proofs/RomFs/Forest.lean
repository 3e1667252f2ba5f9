import Cartridge.Proofs.Numbering
import Cartridge.Proofs.RomFs.Reading

/-!
# Walking a stored tree

A directory tree is stored in two tables if the records link up to it: each directory's links lead to
the chains of its files and of the directories in it, and each chain ends (`FileChain`, `DirChain`).
Directories that are next to each other form a forest, given by the first of them, what is in it, and
the others; a walk goes along that structure, so what it finds is described by recursion on it.

The walk numbers the directories of a chain before it goes into them (`Forest.heads`,
`Forest.deeper`) and the files in the order of the tree (`Forest.leaves`).

Results:
* `visit_forest`: the directories of a chain are visited with all that is in them, and what comes
  behind them goes on from there.
* `Hierarchy.StoredIn.walk_eq_ok`: the walk of a stored tree succeeds and finds the tree.
-/

namespace Cartridge.RomFs

/-! ## Trees -/

/-- A file of a tree: where its record lies and what the record says. -/
structure Leaf where
  place : UInt32
  name : String
  dataOffset : UInt64
  dataSize : UInt64
deriving DecidableEq

/-- What the arena has of a file's record. -/
def File.leaf (f : File) : Leaf := ⟨f.tableOffset, f.name, f.dataOffset, f.dataSize⟩

/-- Directories next to each other: the first one with its files and the directories below it, and
the others. -/
inductive Forest where
  | nil
  | cons (place : UInt32) (name : String) (files : List Leaf) (below rest : Forest)

/-- A directory tree: the files in its root and the directories in it. -/
structure Hierarchy where
  files : List Leaf
  dirs : Forest

/-- A directory of a tree: the names that lead to it, where its record lies, and its files. -/
structure Folder where
  names : List String
  place : UInt32
  files : List Leaf

/-- The files of a directory, each with the names that lead to it. -/
def Folder.leaves (d : Folder) : List (List String × Leaf) :=
  d.files.map fun leaf => (d.names ++ [leaf.name], leaf)

/-- All directories of a forest that is in the directory to which the given names lead. -/
def Forest.folders (above : List String) : Forest → List Folder
  | nil => []
  | cons place name files below rest =>
    ⟨above ++ [name], place, files⟩ :: (below.folders (above ++ [name]) ++ rest.folders above)

namespace Hierarchy

/-- All directories, the root first. -/
def folders (T : Hierarchy) : List Folder := ⟨[], 0, T.files⟩ :: T.dirs.folders []

/-- All files, each with the names that lead to it. -/
def leaves (T : Hierarchy) : List (List String × Leaf) := T.folders.flatMap Folder.leaves

end Hierarchy

/-! ## Storage -/

/-- From a link on, the records of files follow one another, and the last one leads nowhere. -/
inductive FileChain (fileTable : List UInt8) : UInt32 → List Leaf → Prop
  | nil : FileChain fileTable noLink []
  | cons {leaf : Leaf} {rest : List Leaf} {record : FileRecord} (hplace : leaf.place ≠ noLink)
      (hrecord : FileAt fileTable leaf.place record leaf.name)
      (hoffset : record.dataOffset = leaf.dataOffset) (hsize : record.dataSize = leaf.dataSize)
      (hrest : FileChain fileTable record.sibling rest) :
      FileChain fileTable leaf.place (leaf :: rest)

/-- From a link on, the records of directories follow one another, each of them leads to the chains of
what is in it, and the last one leads to no other. -/
inductive DirChain (dirTable fileTable : List UInt8) : UInt32 → Forest → Prop
  | nil : DirChain dirTable fileTable noLink .nil
  | cons {place : UInt32} {name : String} {files : List Leaf} {below rest : Forest}
      {record : DirectoryRecord} (hplace : place ≠ noLink)
      (hrecord : DirectoryAt dirTable place record name)
      (hfiles : FileChain fileTable record.firstFile files)
      (hbelow : DirChain dirTable fileTable record.firstChild below)
      (hrest : DirChain dirTable fileTable record.sibling rest) :
      DirChain dirTable fileTable place (.cons place name files below rest)

/-- The records of two tables link up to a tree, and each directory and file has a record of its
own. -/
structure Hierarchy.StoredIn (T : Hierarchy) (dirTable fileTable : List UInt8) : Prop where
  root : ∃ record name, DirectoryAt dirTable 0 record name ∧
    FileChain fileTable record.firstFile T.files ∧
    DirChain dirTable fileTable record.firstChild T.dirs
  dirPlaces_nodup : (T.folders.map Folder.place).Nodup
  filePlaces_nodup : (T.leaves.map fun entry => entry.2.place).Nodup

/-! ## What a walk finds -/

/-- The path under which a walk finds what names lead to. -/
def walkPath (names : List String) : String := names.foldl joinPath "/"

theorem walkPath_concat (names : List String) (name : String) :
    walkPath (names ++ [name]) = joinPath (walkPath names) name := by
  rw [walkPath, List.foldl_append]
  rfl

/-- Files with their paths in a directory. -/
def leavesIn (path : String) (files : List Leaf) : List (String × Leaf) :=
  files.map fun leaf => (joinPath path leaf.name, leaf)

namespace Forest

/-- The directories of a chain, with their paths and places. -/
def heads (path : String) : Forest → List (String × UInt32)
  | nil => []
  | cons place name _ _ rest => (joinPath path name, place) :: rest.heads path

/-- The directories below those of a chain, in the order in which they are found. -/
def deeper (path : String) : Forest → List (String × UInt32)
  | nil => []
  | cons _ name _ below rest =>
    below.heads (joinPath path name) ++ (below.deeper (joinPath path name) ++ rest.deeper path)

/-- The files in the directories of a chain and below, in the order in which they are found. -/
def leaves (path : String) : Forest → List (String × Leaf)
  | nil => []
  | cons _ name files below rest =>
    leavesIn (joinPath path name) files ++ (below.leaves (joinPath path name) ++ rest.leaves path)

end Forest

/-- An arena has found just these directories and files, in this order, under these paths. Of several
under one path the catalogs have the last. -/
structure Arena.Lists (a : Arena) (dirs : List (String × UInt32)) (files : List (String × Leaf)) :
    Prop where
  dirPlaces_eq : a.dirPlaces = dirs.map Prod.snd
  dirEntries_eq : a.dirEntries = .numbered (dirs.map Prod.fst)
  leaves_eq : a.files.toList.map File.leaf = files.map Prod.snd
  fileEntries_eq : a.fileEntries = .numbered (files.map Prod.fst)

namespace Arena.Lists

variable {a : Arena} {dirs : List (String × UInt32)} {files : List (String × Leaf)}

theorem ofRoot : Arena.ofRoot.Lists [("/", 0)] [] := ⟨rfl, rfl, rfl, rfl⟩

theorem size_dirs (h : a.Lists dirs files) : a.dirs.size = dirs.length := by
  have hlen := congrArg List.length h.dirPlaces_eq
  simpa [dirPlaces] using hlen

theorem size_files (h : a.Lists dirs files) : a.files.size = files.length := by
  have hlen := congrArg List.length h.leaves_eq
  simpa using hlen

theorem filePlaces_eq (h : a.Lists dirs files) :
    a.filePlaces = files.map fun entry => entry.2.place := by
  have hmap := congrArg (List.map Leaf.place) h.leaves_eq
  simpa [filePlaces, File.leaf, Function.comp_def] using hmap

theorem addChild (h : a.Lists dirs files) (owner : Nat) (name : String) (place : UInt32)
    (path : String) :
    (a.addChild owner name place path).Lists (dirs ++ [(path, place)]) files where
  dirPlaces_eq := by
    rw [dirPlaces_addChild, h.dirPlaces_eq, List.map_append]
    rfl
  dirEntries_eq := by
    rw [List.map_append, List.map_singleton, Catalog.numbered_concat, List.length_map,
      ← h.dirEntries_eq, ← h.size_dirs]
    rfl
  leaves_eq := h.leaves_eq
  fileEntries_eq := h.fileEntries_eq

theorem addFile (h : a.Lists dirs files) (f : File) (path : String) :
    (a.addFile f path).Lists dirs (files ++ [(path, f.leaf)]) where
  dirPlaces_eq := by
    rw [dirPlaces_addFile]
    exact h.dirPlaces_eq
  dirEntries_eq := h.dirEntries_eq
  leaves_eq := by
    rw [List.map_append, ← h.leaves_eq]
    simp [Arena.addFile, modifyDirectory]
  fileEntries_eq := by
    rw [List.map_append, List.map_singleton, Catalog.numbered_concat, List.length_map,
      ← h.fileEntries_eq, ← h.size_files]
    rfl

end Arena.Lists

/-! ## Following chains -/

section Chains

theorem nodup_of_nodup_append {α β : Type} {f : α → β} {front back : List α}
    (h : ((front ++ back).map f).Nodup) : (front.map f).Nodup := by
  rw [List.map_append] at h
  exact (List.nodup_append.mp h).1

theorem not_mem_of_nodup_concat {α β : Type} {f : α → β} {front back : List α} {x : α}
    (h : ((front ++ [x] ++ back).map f).Nodup) : f x ∉ front.map f := by
  have hfront := nodup_of_nodup_append h
  rw [List.map_append] at hfront
  exact fun hmem => (List.nodup_append.mp hfront).2.2 _ hmem _ (List.mem_singleton_self _) rfl

variable {dirTable fileTable : List UInt8} {link : UInt32} {a : Arena}
  {dirs : List (String × UInt32)} {files : List (String × Leaf)}

/-- A chain of files is followed to its end. -/
theorem followFiles_chain {leaves : List Leaf} (h : FileChain fileTable link leaves)
    (dir : Pending) (ha : a.Lists dirs files)
    (hplaces : ((files ++ leavesIn dir.path leaves).map fun entry => entry.2.place).Nodup) :
    ∃ a', followFiles fileTable dir link a = .ok a' ∧
      a'.Lists dirs (files ++ leavesIn dir.path leaves) := by
  induction h generalizing a files with
  | nil =>
    refine ⟨a, followFiles_noLink .., ?_⟩
    rw [leavesIn, List.map_nil, List.append_nil]
    exact ha
  | @cons leaf rest record hplace hrecord hoffset hsize hrest ih =>
    have hcons : files ++ leavesIn dir.path (leaf :: rest) =
        files ++ [(joinPath dir.path leaf.name, leaf)] ++ leavesIn dir.path rest := by
      rw [List.append_assoc]
      rfl
    rw [hcons] at hplaces ⊢
    have hnew : leaf.place ∉ a.filePlaces := by
      rw [ha.filePlaces_eq]
      exact not_mem_of_nodup_concat hplaces
    have hadd := ha.addFile ⟨leaf.name, dir.id, record.dataOffset, record.dataSize, leaf.place⟩
      (joinPath dir.path leaf.name)
    have hleaf : File.leaf
        ⟨leaf.name, dir.id, record.dataOffset, record.dataSize, leaf.place⟩ = leaf := by
      rw [File.leaf, hoffset, hsize]
    rw [hleaf] at hadd
    obtain ⟨a', hfollow, hlists⟩ := ih hadd hplaces
    refine ⟨a', ?_, hlists⟩
    rw [followFiles_of_read hplace hnew (readFile_eq_ok_iff.mpr hrecord)]
    exact hfollow

variable (dirTable fileTable) in
/-- Directories whose chains are still to be followed are those of a forest. -/
inductive Waiting (path : String) : Forest → List Pending → Prop
  | nil : Waiting path .nil []
  | cons {place : UInt32} {name : String} {leaves : List Leaf} {below rest : Forest}
      {dir : Pending} {others : List Pending} (hpath : dir.path = joinPath path name)
      (hfiles : FileChain fileTable dir.firstFile leaves)
      (hbelow : DirChain dirTable fileTable dir.firstChild below)
      (hrest : Waiting path rest others) :
      Waiting path (.cons place name leaves below rest) (dir :: others)

/-- A chain of directories is followed to its end. -/
theorem followChildren_chain {forest : Forest} (h : DirChain dirTable fileTable link forest)
    (dir : Pending) (ha : a.Lists dirs files)
    (hplaces : ((dirs ++ forest.heads dir.path).map Prod.snd).Nodup) :
    ∃ a' children, followChildren dirTable dir link a = .ok (a', children) ∧
      a'.Lists (dirs ++ forest.heads dir.path) files ∧
      Waiting dirTable fileTable dir.path forest children := by
  induction h generalizing a dirs with
  | nil =>
    refine ⟨a, [], followChildren_noLink .., ?_, .nil⟩
    rw [Forest.heads, List.append_nil]
    exact ha
  | @cons place name leaves below rest record hplace hrecord hfiles hbelow hrest _ ih =>
    have hcons : dirs ++ (Forest.cons place name leaves below rest).heads dir.path =
        dirs ++ [(joinPath dir.path name, place)] ++ rest.heads dir.path := by
      rw [List.append_assoc]
      rfl
    rw [hcons] at hplaces ⊢
    have hnew : place ∉ a.dirPlaces := by
      rw [ha.dirPlaces_eq]
      exact not_mem_of_nodup_concat hplaces
    obtain ⟨a', children, hfollow, hlists, hwaiting⟩ :=
      ih (ha.addChild dir.id name place (joinPath dir.path name)) hplaces
    exact ⟨a', _, followChildren_of_read hplace hnew (readDirectory_eq_ok_iff.mpr hrecord) hfollow,
      hlists, .cons rfl hfiles hbelow hwaiting⟩

/-- **The directories of a chain are visited with all that is in them**, and what is pending behind
them goes on from there. -/
theorem visit_forest {forest : Forest} {path : String} {pending : List Pending}
    (h : Waiting dirTable fileTable path forest pending) (behind : List Pending)
    (ha : a.Lists dirs files)
    (hdirs : ((dirs ++ forest.deeper path).map Prod.snd).Nodup)
    (hfiles : ((files ++ forest.leaves path).map fun entry => entry.2.place).Nodup) :
    ∃ a', visit dirTable fileTable (pending ++ behind) a = visit dirTable fileTable behind a' ∧
      a'.Lists (dirs ++ forest.deeper path) (files ++ forest.leaves path) := by
  induction forest generalizing a dirs files path pending behind with
  | nil =>
    cases h
    refine ⟨a, rfl, ?_⟩
    rw [Forest.deeper, Forest.leaves, List.append_nil, List.append_nil]
    exact ha
  | cons place name leaves below rest ihBelow ihRest =>
    obtain _ | @⟨_, _, _, _, _, dir, others, hpath, hchain, hbelow, hrest⟩ := h
    have hdeeper : dirs ++ (Forest.cons place name leaves below rest).deeper path =
        dirs ++ below.heads dir.path ++ below.deeper dir.path ++ rest.deeper path := by
      simp only [Forest.deeper, hpath, List.append_assoc]
    have hleaves : files ++ (Forest.cons place name leaves below rest).leaves path =
        files ++ leavesIn dir.path leaves ++ below.leaves dir.path ++ rest.leaves path := by
      simp only [Forest.leaves, hpath, List.append_assoc]
    rw [hdeeper] at hdirs ⊢
    rw [hleaves] at hfiles ⊢
    have hdirs₂ := nodup_of_nodup_append hdirs
    have hfiles₂ := nodup_of_nodup_append hfiles
    obtain ⟨a₁, hfollow₁, hlists₁⟩ :=
      followFiles_chain hchain dir ha (nodup_of_nodup_append hfiles₂)
    obtain ⟨a₂, children, hfollow₂, hlists₂, hwaiting⟩ :=
      followChildren_chain hbelow dir hlists₁ (nodup_of_nodup_append hdirs₂)
    obtain ⟨a₃, hvisit₃, hlists₃⟩ :=
      ihBelow hwaiting (others ++ behind) hlists₂ hdirs₂ hfiles₂
    obtain ⟨a₄, hvisit₄, hlists₄⟩ := ihRest hrest behind hlists₃ hdirs hfiles
    refine ⟨a₄, ?_, hlists₄⟩
    calc visit dirTable fileTable (dir :: others ++ behind) a
      _ = visit dirTable fileTable (children ++ (others ++ behind)) a₂ :=
          visit_of_follow hfollow₁ hfollow₂
      _ = visit dirTable fileTable (others ++ behind) a₃ := hvisit₃
      _ = visit dirTable fileTable behind a₄ := hvisit₄

end Chains

/-! ## Stored trees -/

namespace Forest

/-- Files are found in the order of the tree. -/
theorem leaves_walkPath (forest : Forest) (above : List String) :
    forest.leaves (walkPath above) =
      ((forest.folders above).flatMap Folder.leaves).map fun entry =>
        (walkPath entry.1, entry.2) := by
  induction forest generalizing above with
  | nil => rfl
  | cons place name files below rest ihBelow ihRest =>
    have hfiles : leavesIn (walkPath (above ++ [name])) files =
        (Folder.leaves ⟨above ++ [name], place, files⟩).map fun entry =>
          (walkPath entry.1, entry.2) := by
      simp only [leavesIn, Folder.leaves, List.map_map, Function.comp_def, walkPath_concat]
    rw [leaves, ← walkPath_concat, hfiles, ihBelow, ihRest, folders, List.flatMap_cons,
      List.flatMap_append, List.map_append, List.map_append]

/-- Directories are found in another order than that of the tree. -/
theorem heads_append_deeper_perm (forest : Forest) (above : List String) :
    (forest.heads (walkPath above) ++ forest.deeper (walkPath above)).Perm
      ((forest.folders above).map fun d => (walkPath d.names, d.place)) := by
  induction forest generalizing above with
  | nil => rfl
  | cons place name files below rest ihBelow ihRest =>
    rw [heads, deeper, ← walkPath_concat, folders, List.map_cons, List.map_append]
    refine List.Perm.cons _ ?_
    calc rest.heads (walkPath above) ++ (below.heads (walkPath (above ++ [name])) ++
          (below.deeper (walkPath (above ++ [name])) ++ rest.deeper (walkPath above)))
      _ |>.Perm (below.heads (walkPath (above ++ [name])) ++
            (below.deeper (walkPath (above ++ [name])) ++
              (rest.heads (walkPath above) ++ rest.deeper (walkPath above)))) := by
          refine (List.perm_append_comm_assoc ..).trans (List.Perm.append_left _ ?_)
          exact List.perm_append_comm_assoc ..
      _ |>.Perm _ := by
          rw [← List.append_assoc]
          exact (ihBelow _).append (ihRest _)

end Forest

namespace Hierarchy

/-- The directories in the order in which a walk finds them. -/
def found (T : Hierarchy) : List (String × UInt32) :=
  ("/", 0) :: (T.dirs.heads "/" ++ T.dirs.deeper "/")

theorem found_perm (T : Hierarchy) :
    T.found.Perm (T.folders.map fun d => (walkPath d.names, d.place)) :=
  (T.dirs.heads_append_deeper_perm []).cons _

/-- The files with the paths under which a walk finds them. -/
def foundFiles (T : Hierarchy) : List (String × Leaf) :=
  T.leaves.map fun entry => (walkPath entry.1, entry.2)

theorem leaves_root (T : Hierarchy) :
    (Forest.cons 0 "" T.files T.dirs .nil).leaves "/" = T.foundFiles := by
  have hpath : joinPath "/" "" = "/" := by decide
  have hbelow : T.dirs.leaves "/" = _ := T.dirs.leaves_walkPath []
  rw [Forest.leaves, hpath, Forest.leaves, List.append_nil, hbelow, foundFiles, leaves, folders,
    List.flatMap_cons, List.map_append, Folder.leaves, List.map_map]
  rfl

namespace StoredIn

variable {T : Hierarchy} {dirTable fileTable : List UInt8}

theorem found_nodup (h : T.StoredIn dirTable fileTable) : (T.found.map Prod.snd).Nodup := by
  have hperm := T.found_perm.map Prod.snd
  rw [List.map_map] at hperm
  exact hperm.nodup_iff.mpr h.dirPlaces_nodup

theorem foundFiles_nodup (h : T.StoredIn dirTable fileTable) :
    (T.foundFiles.map fun entry => entry.2.place).Nodup := by
  rw [foundFiles, List.map_map]
  exact h.filePlaces_nodup

/-- **The walk of a stored tree succeeds and finds the tree.** -/
theorem walk_eq_ok (h : T.StoredIn dirTable fileTable) :
    ∃ a, walk dirTable fileTable = .ok a ∧ a.Lists T.found T.foundFiles := by
  obtain ⟨record, name, hrecord, hfiles, hdirs⟩ := h.root
  have hpath : "/" = joinPath "/" "" := by decide
  -- The root is pending like a directory whose chain ends with it.
  have hwaiting : Waiting dirTable fileTable "/" (.cons 0 "" T.files T.dirs .nil)
      [⟨0, "/", record.firstChild, record.firstFile⟩] :=
    .cons hpath hfiles hdirs .nil
  have hfound : [("/", 0)] ++ (Forest.cons 0 "" T.files T.dirs .nil).deeper "/" = T.found := by
    rw [Forest.deeper, ← hpath, Forest.deeper, List.append_nil]
    rfl
  have hleaves : [] ++ (Forest.cons 0 "" T.files T.dirs .nil).leaves "/" = T.foundFiles :=
    T.leaves_root
  obtain ⟨a, hvisit, hlists⟩ := visit_forest hwaiting [] .ofRoot
    (by rw [hfound]; exact h.found_nodup) (by rw [hleaves]; exact h.foundFiles_nodup)
  rw [hfound, hleaves] at hlists
  refine ⟨a, ?_, hlists⟩
  rw [walk_of_read (readDirectory_eq_ok_iff.mpr hrecord)]
  exact hvisit.trans (visit_nil ..)

end StoredIn

end Hierarchy

end Cartridge.RomFs
