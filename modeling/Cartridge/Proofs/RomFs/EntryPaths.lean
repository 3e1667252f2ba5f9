import Cartridge.Proofs.RomFs.Packing
import Cartridge.Proofs.RomFs.Paths
import Cartridge.Proofs.RomFs.Rooted

/-!
# Paths in the catalogs and paths from the parents

A path is made in two ways: the walk joins names to it on the way down, and going up from parent to
parent gives the names that make it up. The catalogs have the paths of the walk (`Arena.Registered`).

The two are the same except below a directory without a name in the root. The path of such a
directory is `/` like that of the root, so the walk joins names to it as it does to the root's, while
the names from the root on have the empty one among them and so one more slash.

Results:
* `Arena.registered_of_walk`: the catalogs have each directory and file under the path built along the
  way down to it, and of several under one path the last.
* `Image.entryPaths_of_tree`: which entries have the path that their parents give.
* `Nameless.filePath?_ne`: a file whose path in the catalog is not that of its parents.
-/

namespace Cartridge.RomFs

namespace Arena

variable {a b : Arena} {id owner : Nat} {names : List String}

/-! ## Ways up in a growing arena -/

/-- The way up stays where directories keep their names and parents. -/
theorem LeadsUp.mono (h : a.LeadsUp id names)
    (hkeep : ∀ {id : Nat} {d : Directory}, a.dir? id = some d →
      ∃ d', b.dir? id = some d' ∧ d'.name = d.name ∧ d'.parent = d.parent) :
    b.LeadsUp id names := by
  induction h with
  | root hd hroot =>
    obtain ⟨d', hd', -, hparent⟩ := hkeep hd
    exact .root hd' (hparent.trans hroot)
  | up hd hparent _ ih =>
    obtain ⟨d', hd', hname, hparent'⟩ := hkeep hd
    rw [← hname]
    exact .up hd' (hparent'.trans hparent) ih

theorem LeadsUp.addChild (h : a.LeadsUp id names) (howner : owner < a.dirs.size) (name : String)
    (place : UInt32) (path : String) : (a.addChild owner name place path).LeadsUp id names := by
  refine h.mono ?_
  intro id d hd
  rw [dir?_addChild name place path howner, if_neg (Nat.ne_of_lt (lt_size_of_dir? hd)), hd]
  split
  · exact ⟨_, rfl, rfl, rfl⟩
  · exact ⟨_, rfl, rfl, rfl⟩

theorem LeadsUp.addFile (h : a.LeadsUp id names) (f : File) (path : String) :
    (a.addFile f path).LeadsUp id names := by
  refine h.mono ?_
  intro id d hd
  rw [dir?_addFile, hd]
  split
  · exact ⟨_, rfl, rfl, rfl⟩
  · exact ⟨_, rfl, rfl, rfl⟩

/-- From a new directory the way up goes through its owner. -/
theorem LeadsUp.child (h : a.LeadsUp owner names) (name : String) (place : UInt32)
    (path : String) :
    (a.addChild owner name place path).LeadsUp a.dirs.size (names ++ [name]) := by
  have hnew := dir?_addChild name place path h.lt_size a.dirs.size
  rw [if_pos rfl] at hnew
  exact .up hnew rfl (h.addChild h.lt_size name place path)

/-- The names lead to a file: from the root down to its directory, and its own is the last. -/
def LeadsToFile (a : Arena) (id : Nat) (names : List String) : Prop :=
  ∃ f above, a.file? id = some f ∧ a.LeadsUp f.parent above ∧ names = above ++ [f.name]

theorem LeadsToFile.lt_size (h : a.LeadsToFile id names) : id < a.files.size := by
  obtain ⟨f, above, hf, -, -⟩ := h
  exact (Array.getElem?_eq_some_iff.mp hf).1

theorem LeadsToFile.unique {names' : List String} (h : a.LeadsToFile id names)
    (h' : a.LeadsToFile id names') : names = names' := by
  obtain ⟨f, above, hf, habove, rfl⟩ := h
  obtain ⟨f', above', hf', habove', rfl⟩ := h'
  rw [hf] at hf'
  cases hf'
  rw [habove.unique habove']

theorem LeadsToFile.addChild (h : a.LeadsToFile id names) (howner : owner < a.dirs.size)
    (name : String) (place : UInt32) (path : String) :
    (a.addChild owner name place path).LeadsToFile id names := by
  obtain ⟨f, above, hf, habove, hnames⟩ := h
  exact ⟨f, above, hf, habove.addChild howner name place path, hnames⟩

theorem LeadsToFile.addFile (h : a.LeadsToFile id names) (f : File) (path : String) :
    (a.addFile f path).LeadsToFile id names := by
  have hold : (a.addFile f path).file? id = a.file? id := by
    rw [file?_addFile, if_neg (Nat.ne_of_lt h.lt_size)]
  obtain ⟨f', above, hf', habove, hnames⟩ := h
  exact ⟨f', above, hold.trans hf', habove.addFile f path, hnames⟩

/-- To a new file the way goes through the directory that it is in. -/
theorem LeadsToFile.new {f : File} (h : a.LeadsUp f.parent names) (path : String) :
    (a.addFile f path).LeadsToFile a.files.size (names ++ [f.name]) := by
  have hnew : (a.addFile f path).file? a.files.size = some f := by
    rw [file?_addFile, if_pos rfl]
  exact ⟨f, names, hnew, h.addFile f path, rfl⟩

/-! ## The catalogs -/

/-- A catalog has the numbers below a bound under the paths that their ways make up; of several under
one path it has the last. -/
def Registers (catalog : Catalog String Nat) (count : Nat) (Way : Nat → List String → Prop) : Prop :=
  ∃ ways : List (List String), ways.length = count ∧
    catalog = .numbered (ways.map walkPath) ∧
    ∀ {id : Nat} {names : List String}, ways[id]? = some names → Way id names

section Registers

variable {catalog : Catalog String Nat} {count : Nat} {Way Way' : Nat → List String → Prop}

theorem Registers.mono (h : Registers catalog count Way)
    (hmono : ∀ {id : Nat} {names : List String}, Way id names → Way' id names) :
    Registers catalog count Way' := by
  obtain ⟨ways, hlength, hcatalog, hways⟩ := h
  exact ⟨ways, hlength, hcatalog, fun hway => hmono (hways hway)⟩

/-- The next number is added under the path of its way. -/
theorem Registers.insert (h : Registers catalog count Way) (hnew : Way count names) :
    Registers (catalog.insert (walkPath names) count) (count + 1) Way := by
  obtain ⟨ways, rfl, rfl, hways⟩ := h
  refine ⟨ways ++ [names], List.length_append, ?_, ?_⟩
  · rw [List.map_append, List.map_singleton, Catalog.numbered_concat, List.length_map]
  · intro id names' hway
    rcases Nat.lt_or_ge id ways.length with hold | hlast
    · rw [List.getElem?_append_left hold] at hway
      exact hways hway
    · have hlt := (List.getElem?_eq_some_iff.mp hway).1
      rw [List.length_append, List.length_singleton] at hlt
      obtain rfl : id = ways.length := by omega
      rw [List.getElem?_concat_length] at hway
      cases hway
      exact hnew

/-- **A path leads to the last number with a way that makes it up.** -/
theorem Registers.find?_iff_isGreatest (h : Registers catalog count Way)
    (hlt : ∀ {id : Nat} {names : List String}, Way id names → id < count)
    (hunique : ∀ {id : Nat} {names names' : List String}, Way id names → Way id names' →
      names = names') {path : String} :
    catalog.find? path = some id ↔ IsGreatest {i | ∃ names, Way i names ∧ walkPath names = path} id := by
  obtain ⟨ways, rfl, rfl, hways⟩ := h
  have hset (i : Nat) :
      (ways.map walkPath)[i]? = some path ↔ ∃ names, Way i names ∧ walkPath names = path := by
    rw [List.getElem?_map, Option.map_eq_some_iff]
    constructor
    · rintro ⟨names, hway, hpath⟩
      exact ⟨names, hways hway, hpath⟩
    · rintro ⟨names, hway, hpath⟩
      have hget := List.getElem?_eq_getElem (hlt hway)
      rw [hunique hway (hways hget)] at hpath
      exact ⟨_, hget, hpath⟩
  simp only [Catalog.find?_numbered_iff_isGreatest, hset]

end Registers

/-- The catalogs have the directories and files under the paths that their ways make up. -/
structure Registered (a : Arena) : Prop where
  dirs : Registers a.dirEntries a.dirs.size a.LeadsUp
  files : Registers a.fileEntries a.files.size a.LeadsToFile

theorem registered_ofRoot : ofRoot.Registered where
  dirs := by
    refine ⟨[[]], rfl, rfl, ?_⟩
    intro id names hway
    rcases id with _ | id
    · cases hway
      exact .root rfl rfl
    · cases hway
  files := by
    refine ⟨[], rfl, rfl, ?_⟩
    intro id names hway
    cases hway

theorem Registered.addChild (ha : a.Registered) (howner : a.LeadsUp owner names) (name : String)
    (place : UInt32) :
    (a.addChild owner name place (joinPath (walkPath names) name)).Registered where
  dirs := by
    rw [size_dirs_addChild, ← walkPath_concat]
    exact (ha.dirs.mono fun hway => hway.addChild howner.lt_size ..).insert (howner.child ..)
  files := ha.files.mono fun hway => hway.addChild howner.lt_size ..

theorem Registered.addFile (ha : a.Registered) {f : File} (hparent : a.LeadsUp f.parent names) :
    (a.addFile f (joinPath (walkPath names) f.name)).Registered where
  dirs := by
    rw [size_dirs_addFile]
    exact ha.dirs.mono fun hway => hway.addFile ..
  files := by
    rw [files_addFile, Array.size_push, ← walkPath_concat]
    exact (ha.files.mono fun hway => hway.addFile ..).insert (.new hparent _)

namespace Registered

variable {path : String}

/-- **A path leads to the last of the directories that have it.** -/
theorem find?_dir_iff (h : a.Registered) :
    a.dirEntries.find? path = some id ↔
      IsGreatest {i | ∃ names, a.LeadsUp i names ∧ walkPath names = path} id :=
  h.dirs.find?_iff_isGreatest LeadsUp.lt_size LeadsUp.unique

/-- **A path leads to the last of the files that have it.** -/
theorem find?_file_iff (h : a.Registered) :
    a.fileEntries.find? path = some id ↔
      IsGreatest {i | ∃ names, a.LeadsToFile i names ∧ walkPath names = path} id :=
  h.files.find?_iff_isGreatest LeadsToFile.lt_size LeadsToFile.unique

end Registered

/-- The catalogs have the paths that names make up on the ways down. -/
structure Mapped (a : Arena) : Prop where
  dir : ∀ {path : String} {id : Nat}, a.dirEntries.find? path = some id →
    ∃ names, a.LeadsUp id names ∧ path = walkPath names
  file : ∀ {path : String} {id : Nat}, a.fileEntries.find? path = some id →
    ∃ f names, a.file? id = some f ∧ a.LeadsUp f.parent names ∧
      path = joinPath (walkPath names) f.name

theorem Registered.mapped (h : a.Registered) : a.Mapped where
  dir := by
    intro path id hfind
    obtain ⟨⟨names, hnames, hpath⟩, -⟩ := h.find?_dir_iff.mp hfind
    exact ⟨names, hnames, hpath.symm⟩
  file := by
    intro path id hfind
    obtain ⟨⟨_, ⟨f, above, hf, habove, rfl⟩, hpath⟩, -⟩ := h.find?_file_iff.mp hfind
    exact ⟨f, above, hf, habove, hpath.symm.trans (walkPath_concat ..)⟩

end Arena

/-- A walk keeps the catalogs in step with the ways down, and the path of each pending directory is
the one of the names on its way. -/
theorem preserved_registered (dirTable fileTable : List UInt8) :
    Preserved dirTable fileTable Arena.Registered
      fun a p => ∃ names, a.LeadsUp p.id names ∧ p.path = walkPath names where
  addFile ha hdir _ _ := by
    obtain ⟨names, hnames, hpath⟩ := hdir
    rw [hpath]
    exact ha.addFile hnames
  fits_addFile hp f path := by
    obtain ⟨names, hnames, hpath⟩ := hp
    exact ⟨names, hnames.addFile f path, hpath⟩
  addChild ha hdir _ _ := by
    obtain ⟨names, hnames, hpath⟩ := hdir
    rw [hpath]
    exact ha.addChild hnames ..
  fits_addChild hdir hp name place path := by
    obtain ⟨_, howner, -⟩ := hdir
    obtain ⟨names, hnames, hpath⟩ := hp
    exact ⟨names, hnames.addChild howner.lt_size name place path, hpath⟩
  fits_child hdir name place _ _ := by
    obtain ⟨names, hnames, hpath⟩ := hdir
    refine ⟨names ++ [name], hnames.child name place _, ?_⟩
    rw [walkPath_concat, hpath]

/-- **The catalogs of a walk have each directory and file under the path of its way**, and of several
under one path the last. -/
theorem Arena.registered_of_walk {dirTable fileTable : List UInt8} {a : Arena}
    (h : walk dirTable fileTable = .ok a) : a.Registered :=
  (preserved_registered dirTable fileTable).of_walk registered_ofRoot
    (fun _ _ => ⟨[], .root rfl rfl, rfl⟩) h

/-- **The paths in the catalogs are those built along the ways down.** -/
theorem Arena.mapped_of_walk {dirTable fileTable : List UInt8} {a : Arena}
    (h : walk dirTable fileTable = .ok a) : a.Mapped :=
  (registered_of_walk h).mapped

/-- Every entry has the path that the walk builds along its way, and this is the path that its parents
give unless the way goes on below a directory without a name in the root. -/
structure Arena.EntryPaths (a : Arena) : Prop where
  dir : ∀ {path : String} {id : Nat}, a.dirEntries.find? path = some id →
    ∃ names, a.namesTo? id = some names ∧ path = walkPath names ∧
      (a.dirPath? id = some path ↔ ¬ PassesNameless names)
  file : ∀ {path : String} {id : Nat}, a.fileEntries.find? path = some id →
    ∃ f names, a.file? id = some f ∧ a.namesTo? f.parent = some names ∧
      path = joinPath (walkPath names) f.name ∧
      (a.filePath? id = some path ↔ ¬ PassesNameless names)

theorem Arena.Mapped.entryPaths {a : Arena} (h : a.Mapped) : a.EntryPaths where
  dir := by
    intro path id hfind
    obtain ⟨names, hup, rfl⟩ := h.dir hfind
    have hnames := namesTo?_eq_some_iff.mpr hup
    refine ⟨names, hnames, rfl, ?_⟩
    rw [dirPath?, hnames, Option.map_some, Option.some.injEq, eq_comm, walkPath_eq_absolutePath_iff]
  file := by
    intro path id hfind
    obtain ⟨f, names, hf, hup, rfl⟩ := h.file hfind
    have hnames := namesTo?_eq_some_iff.mpr hup
    have hpath : a.filePath? id = some (joinPath (absolutePath names) f.name) := by
      simp [filePath?, hf, dirPath?, hnames]
    refine ⟨f, names, hf, hnames, rfl, ?_⟩
    rw [hpath, Option.some.injEq, eq_comm, joinPath_walkPath_eq_iff]

/-- **Which entries of a parsed image have the path that their parents give**: those whose way does
not go on below a directory without a name in the root. -/
theorem Image.entryPaths_of_tree {media : Media} {view : View} {t : Tree} {i : Image}
    (h : (Image.tree media).outcome (.ofView view) = (.ok t, i)) : t.toArena.EntryPaths := by
  obtain ⟨_, _, -, hwalk⟩ := Tree.read_eq_ok (Image.read_of_outcome_tree h)
  exact (Arena.mapped_of_walk hwalk).entryPaths

/-! ## A directory without a name -/

namespace Nameless

/-- The root leads to a directory without a name. -/
def root : DirectoryRecord := ⟨0, noLink, 0x18, noLink, noLink, 0⟩

/-- The directory without a name leads to another one. -/
def nameless : DirectoryRecord := ⟨0, noLink, 0x30, noLink, noLink, 0⟩

/-- A directory below it, with a file. -/
def below : DirectoryRecord := ⟨0x18, noLink, noLink, 0, noLink, 1⟩

/-- A file of four bytes. -/
def file : FileRecord := ⟨0x30, noLink, 0, 4, noLink, 1⟩

/-- The root, a directory without a name in it, and `a` in that one with a file `f`. -/
def parts : Parts where
  dirBuckets := []
  fileBuckets := []
  dirTable := DirectoryRecord.layout.encode root ++ (DirectoryRecord.layout.encode nameless ++
    (DirectoryRecord.layout.encode below ++ Utf8.encode "a"))
  fileTable := FileRecord.layout.encode file ++ Utf8.encode "f"
  data := [1, 2, 3, 4]

/-- What the walk of the tables gives. -/
def arena : Arena :=
  ((Arena.ofRoot.addChild 0 "" 0x18 "/").addChild 1 "a" 0x30 "/a").addFile ⟨"f", 2, 0, 4, 0⟩ "/a/f"

theorem walk_parts : walk parts.dirTable parts.fileTable = .ok arena := by
  have readRoot : readDirectory parts.dirTable 0 = .ok (root, "") := rfl
  have readNameless : readDirectory parts.dirTable 0x18 = .ok (nameless, "") := rfl
  have readBelow : readDirectory parts.dirTable 0x30 = .ok (below, "a") := rfl
  have readF : readFile parts.fileTable 0 = .ok (file, "f") := rfl
  have hnameless : followChildren parts.dirTable ⟨0, "/", 0x18, noLink⟩ 0x18 .ofRoot =
      .ok (Arena.ofRoot.addChild 0 "" 0x18 "/", [⟨1, "/", 0x30, noLink⟩]) :=
    followChildren_of_read (by decide) (by decide) readNameless
      (followChildren_noLink ..)
  have hbelow : followChildren parts.dirTable ⟨1, "/", 0x30, noLink⟩ 0x30
      (Arena.ofRoot.addChild 0 "" 0x18 "/") =
      .ok ((Arena.ofRoot.addChild 0 "" 0x18 "/").addChild 1 "a" 0x30 "/a",
        [⟨2, "/a", noLink, 0⟩]) :=
    followChildren_of_read (by decide) (by decide) readBelow
      (followChildren_noLink ..)
  have hfile : followFiles parts.fileTable ⟨2, "/a", noLink, 0⟩ 0
      ((Arena.ofRoot.addChild 0 "" 0x18 "/").addChild 1 "a" 0x30 "/a") = .ok arena :=
    (followFiles_of_read (by decide) (by decide) readF).trans
      (followFiles_noLink ..)
  calc walk parts.dirTable parts.fileTable
    _ = visit parts.dirTable parts.fileTable [⟨0, "/", 0x18, noLink⟩] .ofRoot :=
        walk_of_read readRoot
    _ = visit parts.dirTable parts.fileTable [⟨1, "/", 0x30, noLink⟩]
          (Arena.ofRoot.addChild 0 "" 0x18 "/") :=
        visit_of_follow (followFiles_noLink ..) hnameless
    _ = visit parts.dirTable parts.fileTable [⟨2, "/a", noLink, 0⟩]
          ((Arena.ofRoot.addChild 0 "" 0x18 "/").addChild 1 "a" 0x30 "/a") :=
        visit_of_follow (followFiles_noLink ..) hbelow
    _ = visit parts.dirTable parts.fileTable [] arena :=
        visit_of_follow hfile (followChildren_noLink ..)
    _ = .ok arena := visit_nil ..

theorem fits_parts : parts.Fits where
  dirHash := Nat.zero_le _
  fileHash := Nat.zero_le _
  dirTable := by decide
  fileTable := by decide
  image := by
    rw [show parts.image.length = 0xBE from rfl]
    decide

/-- What parsing the image gives. -/
def tree : Tree := parts.tree arena

theorem outcome_tree : ∃ i, (Image.tree parts.media).outcome (.ofView parts.view) = (.ok tree, i) :=
  fits_parts.outcome_tree walk_parts

theorem entryPaths_tree :
    ∃ i, (Image.tree parts.media).outcome (.ofView parts.view) = (.ok tree, i) ∧
      tree.toArena.EntryPaths := by
  obtain ⟨i, h⟩ := outcome_tree
  exact ⟨i, h, Image.entryPaths_of_tree h⟩

/-- **The path of an entry need not be that of its parents**: the directory `a` and the file in it are
found without the slash of the directory without a name. -/
theorem filePath?_ne :
    ∃ i, (Image.tree parts.media).outcome (.ofView parts.view) = (.ok tree, i) ∧
      tree.dirEntries.find? "/a" = some 2 ∧ tree.dirPath? 2 = some "//a" ∧
      tree.fileEntries.find? "/a/f" = some 0 ∧ tree.filePath? 0 = some "//a/f" := by
  obtain ⟨i, h⟩ := outcome_tree
  exact ⟨i, h, by decide, by decide, by decide, by decide⟩

end Nameless

end Cartridge.RomFs
