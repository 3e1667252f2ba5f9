import Cartridge.Proofs.RomFs.Buckets

/-!
# What a look-up through the hash buckets finds

Nothing is asked of the buckets here: their chains may go in circles, lead out of the tables or pass by
what they should reach. A directory is found only where the walk has found it, because a search takes
the parent of each record on its way from the walk. A search for a file takes the parent from the
record itself, and the walk does not look at it. So a file is found in the directory that its record
names, which is the one it is in only where the record is right.

Results:
* `Image.directories_found_of_tree`: the way up from a directory that is found.
* `Image.file_found_of_tree`: where a file that is found is, and where its record says it is.
* `Misfiled.parent_ne`: a file that is found in a directory which it is not in.
-/

namespace Cartridge.RomFs

namespace Tree

variable {t : Tree} {names : List String} {name : String} {id dirId : Nat}

/-! ## Directories -/

/-- Going up from a directory passes these directories, the first of which is the directory itself, and
then comes to the root. -/
inductive Ascent (t : Tree) : Nat → List Directory → Prop
  | root : Ascent t root []
  | up {id p : Nat} {d : Directory} {above : List Directory} (hd : t.dir? id = some d)
      (hparent : d.parent = some p) (habove : Ascent t p above) : Ascent t id (d :: above)

/-- The names on a way up are those of the directories on it, the last one first. -/
theorem ascent_of_leadsUp (hrooted : t.Rooted) (h : t.LeadsUp id names) :
    ∃ passed, t.Ascent id passed ∧ passed.map Directory.name = names.reverse := by
  induction h with
  | root hd hroot =>
    cases (hrooted.parent_eq_none_iff hd).mp hroot
    exact ⟨[], .root, rfl⟩
  | up hd hparent _ ih =>
    obtain ⟨passed, hascent, hnames⟩ := ih
    refine ⟨_, .up hd hparent hascent, ?_⟩
    rw [List.map_cons, hnames, List.reverse_append, List.reverse_singleton, List.singleton_append]

/-- No names lead to the root. -/
theorem findByNames?_nil (hrooted : t.Rooted) (hrecorded : t.Recorded t.dirTable t.fileTable) :
    t.findByNames? [] = some root := by
  obtain ⟨d, hd, -, hplace⟩ := root_of hrooted hrecorded
  exact (hrooted.dirAt?_eq_some_iff 0 root).mpr (by rw [root, hd, Option.map_some, hplace])

/-! ## Files -/

/-- The name on a path is what stands behind the last slash of its normal form. The rest has the other
names on it. -/
theorem exists_lastName (path : String) :
    ∃ dirPath name : String, normalize path = dirPath ++ "/" ++ name ∧ '/' ∉ name.toList ∧
      pathNames dirPath = (pathNames path).dropLast ∧ name = (pathNames path).getLastD "" := by
  obtain ⟨back, front, hsplit, hback⟩ :=
    List.eq_append_cons_of_mem (List.mem_reverse.mpr (List.mem_cons_self (a := '/')
      (l := trimSlashes path.toList)))
  have hpath : '/' :: trimSlashes path.toList = front.reverse ++ '/' :: back.reverse := by
    rw [← List.reverse_reverse (_ :: _), hsplit]
    simp
  have hnames : pathNames path = components front.reverse ++ components back.reverse := by
    rw [← components_append_slash, ← hpath, ← components_eq_pathNames, ← components_trimSlashes]
    exact (components_append_slash [] _).symm
  refine ⟨.ofList front.reverse, .ofList back.reverse, ?_, by simpa using hback, ?_⟩
  · rw [normalize, hpath]
    apply String.toList_injective
    simp
  · rw [← components_eq_pathNames, String.toList_ofList, hnames]
    by_cases hempty : back = []
    · -- Nothing but a slash is left of such a path, for no other one ends in a slash.
      subst hempty
      have hfront : front.reverse = [] := by
        rcases hcase : front.reverse with _ | ⟨c, rest⟩
        · rfl
        · rw [hcase, List.reverse_nil, List.cons_append, List.cons.injEq] at hpath
          have hlast := getLast?_trimSlashes_ne path.toList
          rw [hpath.2, List.getLast?_concat] at hlast
          exact absurd rfl hlast
      rw [hfront]
      exact ⟨rfl, rfl⟩
    · have hlast : components back.reverse = [String.ofList back.reverse] := by
        rw [components, segments_eq_splitOn, List.splitOn_eq_singleton (by simpa using hback)]
        simp [hempty]
      rw [hlast, List.dropLast_concat, List.getLastD_concat]
      exact ⟨rfl, rfl⟩

/-- The record of a file has the place of the directory that the file is in for its parent. -/
def NamesItsDirectory (t : Tree) (f : File) : Prop :=
  ∃ (record : FileRecord) (name : String) (dir : Directory),
    FileAt t.fileTable f.tableOffset record name ∧ t.dir? f.parent = some dir ∧
      record.parent = dir.tableOffset

/-- What is known of a file that is found in a directory by its name. -/
structure FoundIn (t : Tree) (dirId : Nat) (name : String) (id : Nat) : Prop where
  /-- The file has the name, and its record has the directory for its parent. -/
  fileIn : ∃ dir, t.dir? dirId = some dir ∧ t.FileIn dir.tableOffset name id
  /-- The file is in the directory exactly if its record has the right parent. -/
  parent_eq_iff : ∀ {f : File}, t.file? id = some f → (f.parent = dirId ↔ t.NamesItsDirectory f)

/-- **What a search for a file finds.** -/
theorem foundIn_of_findFileIn? (hrooted : t.Rooted)
    (hrecorded : t.Recorded t.dirTable t.fileTable) (h : t.findFileIn? name dirId = some id) :
    t.FoundIn dirId name id := by
  obtain ⟨dir, hdir, hin⟩ := fileIn_of_findFileIn? hrooted hrecorded h
  refine ⟨⟨dir, hdir, hin⟩, ?_⟩
  intro f hf
  obtain ⟨f', record, hf', -, hread, hparent⟩ := hin
  rw [hf] at hf'
  cases hf'
  constructor
  · rintro rfl
    exact ⟨record, name, dir, hread, hdir, hparent⟩
  · rintro ⟨record', name', owner, hread', howner, hplace⟩
    rw [(hread'.unique hread).1, hparent] at hplace
    exact id_eq_of_tableOffset_eq hrooted howner hdir hplace.symm

end Tree

section Images

variable {media : Media} {view : View} {t : Tree} {i : Image}

/-- **Going up from a directory that is found** passes directories with the names on the path, the last
one first, and a path without names leads to the root, whatever the hash buckets hold. -/
theorem Image.directories_found_of_tree
    (h : (Image.tree media).outcome (.ofView view) = (.ok t, i)) :
    (∀ (path : String) (id : Nat), t.findDir? path = some id →
      ∃ passed, t.Ascent id passed ∧ passed.map Directory.name = (pathNames path).reverse) ∧
    ∀ path : String, pathNames path = [] → t.findDir? path = some Tree.root := by
  obtain ⟨_, _, -, hwalk⟩ := Tree.read_eq_ok (Image.read_of_outcome_tree h)
  have hrooted := (Arena.consistent_of_walk hwalk).rooted
  have hrecorded := Arena.recorded_of_walk hwalk
  constructor
  · intro path id hfind
    rw [Tree.findDir?_eq] at hfind
    exact Tree.ascent_of_leadsUp hrooted (Tree.leadsUp_of_findByNames? hrooted hrecorded hfind)
  · intro path hpath
    rw [Tree.findDir?_eq, hpath]
    exact Tree.findByNames?_nil hrooted hrecorded

/-- **Where a file that is found is.** It has the name behind the last slash of the path, and its record
has the directory for its parent to which the rest of the path leads. This is the directory that it is
in exactly if the parent in its record is right. -/
theorem Image.file_found_of_tree (h : (Image.tree media).outcome (.ofView view) = (.ok t, i))
    {path : String} {id : Nat} (hfind : t.findFile? path = some id) :
    ∃ (dirPath name : String) (dirId : Nat), Tree.normalize path = dirPath ++ "/" ++ name ∧
      '/' ∉ name.toList ∧ t.findDir? dirPath = some dirId ∧ t.FoundIn dirId name id := by
  obtain ⟨_, _, -, hwalk⟩ := Tree.read_eq_ok (Image.read_of_outcome_tree h)
  obtain ⟨dirPath, name, hpath, hslash, hdirPath, rfl⟩ := Tree.exists_lastName path
  rw [Tree.findFile?_eq] at hfind
  obtain ⟨dirId, hdir, hfile⟩ := Option.bind_eq_some_iff.mp hfind
  rw [← hdirPath, ← Tree.findDir?_eq] at hdir
  exact ⟨dirPath, _, dirId, hpath, hslash, hdir, Tree.foundIn_of_findFileIn?
    (Arena.consistent_of_walk hwalk).rooted (Arena.recorded_of_walk hwalk) hfile⟩

end Images

/-! ## A file whose record names another directory -/

namespace Misfiled

/-- The root has a directory, which follows it in the bucket. -/
def root : DirectoryRecord := ⟨0, noLink, 0x18, noLink, 0x18, 0⟩

/-- A directory with a file. In the bucket the root follows it again. -/
def dir : DirectoryRecord := ⟨0, noLink, noLink, 0, 0, 1⟩

/-- The file in the directory. Its record has the root for its parent. -/
def file : FileRecord := ⟨0, noLink, 0, 4, noLink, 1⟩

/-- A directory `a` and a file `f` in it. Each table has one bucket. -/
def parts : Parts where
  dirBuckets := [0]
  fileBuckets := [0]
  dirTable := DirectoryRecord.layout.encode root ++
    (DirectoryRecord.layout.encode dir ++ Utf8.encode "a")
  fileTable := FileRecord.layout.encode file ++ Utf8.encode "f"
  data := [1, 2, 3, 4]

/-- What the walk of the tables gives. -/
def arena : Arena :=
  (Arena.ofRoot.addChild 0 "a" 0x18 "/a").addFile ⟨"f", 1, 0, 4, 0⟩ "/a/f"

theorem root_at : DirectoryAt parts.dirTable 0 root "" := readDirectory_eq_ok_iff.mp rfl

theorem dir_at : DirectoryAt parts.dirTable 0x18 dir "a" := readDirectory_eq_ok_iff.mp rfl

theorem file_at : FileAt parts.fileTable 0 file "f" := readFile_eq_ok_iff.mp rfl

theorem walk_parts : walk parts.dirTable parts.fileTable = .ok arena := by
  have hdir : followChildren parts.dirTable ⟨0, "/", 0x18, noLink⟩ 0x18 .ofRoot =
      .ok (Arena.ofRoot.addChild 0 "a" 0x18 "/a", [⟨1, "/a", noLink, 0⟩]) :=
    followChildren_of_read (by decide) (by decide) (readDirectory_eq_ok_iff.mpr dir_at)
      (followChildren_noLink ..)
  have hfile : followFiles parts.fileTable ⟨1, "/a", noLink, 0⟩ 0
      (Arena.ofRoot.addChild 0 "a" 0x18 "/a") = .ok arena :=
    (followFiles_of_read (by decide) (by decide) (readFile_eq_ok_iff.mpr file_at)).trans
      (followFiles_noLink ..)
  calc walk parts.dirTable parts.fileTable
    _ = visit parts.dirTable parts.fileTable [⟨0, "/", 0x18, noLink⟩] .ofRoot :=
        walk_of_read (readDirectory_eq_ok_iff.mpr root_at)
    _ = visit parts.dirTable parts.fileTable [⟨1, "/a", noLink, 0⟩]
          (Arena.ofRoot.addChild 0 "a" 0x18 "/a") :=
        visit_of_follow (followFiles_noLink ..) hdir
    _ = visit parts.dirTable parts.fileTable [] arena :=
        visit_of_follow hfile (followChildren_noLink ..)
    _ = .ok arena := visit_nil ..

theorem fits_parts : parts.Fits where
  dirHash := by decide
  fileHash := by decide
  dirTable := by decide
  fileTable := by decide
  image := by
    rw [show parts.image.length = 0xAE from rfl]
    decide

/-- What parsing the image gives. -/
def tree : Tree := parts.tree arena

/-- The search for the directory ends at it, though its chain goes in a circle. -/
theorem ascent_tree :
    ∃ i passed, (Image.tree parts.media).outcome (.ofView parts.view) = (.ok tree, i) ∧
      tree.findDir? "/a/" = some 1 ∧ tree.Ascent 1 passed ∧
      passed.map Directory.name = ["a"] ∧ tree.findDir? "//" = some Tree.root := by
  obtain ⟨i, h⟩ := fits_parts.outcome_tree walk_parts
  obtain ⟨hfound, hroot⟩ := Image.directories_found_of_tree h
  obtain ⟨passed, hascent, hnames⟩ := hfound "/a/" 1 rfl
  exact ⟨i, passed, h, rfl, hascent, hnames, hroot "//" rfl⟩

theorem file_found_tree :
    ∃ i, (Image.tree parts.media).outcome (.ofView parts.view) = (.ok tree, i) ∧
      tree.findFile? "f" = some 0 ∧ ∃ (dirPath name : String) (dirId : Nat),
        Tree.normalize "f" = dirPath ++ "/" ++ name ∧ '/' ∉ name.toList ∧
          tree.findDir? dirPath = some dirId ∧ tree.FoundIn dirId name 0 := by
  obtain ⟨i, h⟩ := fits_parts.outcome_tree walk_parts
  exact ⟨i, h, rfl, Image.file_found_of_tree h rfl⟩

/-- **The file is found in the root**, but it is in the directory. -/
theorem parent_ne :
    ∃ i f, (Image.tree parts.media).outcome (.ofView parts.view) = (.ok tree, i) ∧
      Tree.normalize "f" = "" ++ "/" ++ "f" ∧ tree.findFile? "f" = some 0 ∧
      tree.file? 0 = some f ∧ tree.findDir? "" = some Tree.root ∧ f.parent ≠ Tree.root := by
  obtain ⟨i, h⟩ := fits_parts.outcome_tree walk_parts
  exact ⟨i, ⟨"f", 1, 0, 4, 0⟩, h, by decide, rfl, rfl, rfl, by decide⟩

end Misfiled

end Cartridge.RomFs
