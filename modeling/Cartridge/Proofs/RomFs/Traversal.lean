import Cartridge.Proofs.RomFs.EntryPaths
import Mathlib.Data.List.Forall2

/-!
# The order of a walk

The tables of a walk that succeeds link up to one tree (`Hierarchy.Linked`), and the walk goes through
that tree in pre-order: a directory, then each directory in it with all that is below, in the order of
their chain. Directories get their numbers a level earlier, when the chain that they are in is
followed, so the pre-order of the directories is not the order of their numbers; the files of a
directory get theirs when its turn comes, so they are numbered in pre-order (`Arena.InPreorder`).

The walk keeps what is still to be visited in a list, in front of it what is in the directory visited
last. So the argument goes along the tree: directories that are pending with whatever is behind them
are gone through, with all that is below them, before what is behind them (`visit_unvisited`).

Results:
* `exists_linked_of_walk`, `Hierarchy.Linked.unique`: the links of the tables are those of one tree.
* `visit_unvisited`: pending directories are gone through in pre-order.
* `walk_inPreorder`: the arena of a walk is the tree of the links, gone through in pre-order.
-/

namespace Cartridge.RomFs

section Tables

variable {dirTable fileTable : List UInt8}

/-! ## The tree of the links -/

/-- From the root record on, the links of two tables are those of a tree. -/
def Hierarchy.Linked (T : Hierarchy) (dirTable fileTable : List UInt8) : Prop :=
  ∃ record name, DirectoryAt dirTable 0 record name ∧
    FileChain fileTable record.firstFile T.files ∧
    DirChain dirTable fileTable record.firstChild T.dirs

theorem FileChain.unique {link : UInt32} {leaves leaves' : List Leaf}
    (h : FileChain fileTable link leaves) (h' : FileChain fileTable link leaves') :
    leaves = leaves' := by
  induction h generalizing leaves' with
  | nil =>
    generalize hlink : noLink = link at h'
    cases h' with
    | nil => rfl
    | cons hplace => exact absurd hlink.symm hplace
  | @cons leaf rest record hplace hrecord hoffset hsize hrest ih =>
    generalize hlink : leaf.place = link at h'
    cases h' with
    | nil => exact absurd hlink hplace
    | @cons leaf' rest' record' hplace' hrecord' hoffset' hsize' hrest' =>
      rw [← hlink] at hrecord'
      obtain ⟨rfl, hname⟩ := hrecord.unique hrecord'
      have hleaf : leaf = leaf' := by
        cases leaf
        cases leaf'
        simp_all
      rw [hleaf, ih hrest']

theorem DirChain.unique {link : UInt32} {forest forest' : Forest}
    (h : DirChain dirTable fileTable link forest)
    (h' : DirChain dirTable fileTable link forest') : forest = forest' := by
  induction h generalizing forest' with
  | nil =>
    generalize hlink : noLink = link at h'
    cases h' with
    | nil => rfl
    | cons hplace => exact absurd hlink.symm hplace
  | cons hplace hrecord hfiles _ _ ihBelow ihRest =>
    cases h' with
    | nil => exact absurd rfl hplace
    | cons _ hrecord' hfiles' hbelow' hrest' =>
      obtain ⟨rfl, rfl⟩ := hrecord.unique hrecord'
      rw [hfiles.unique hfiles', ihBelow hbelow', ihRest hrest']

/-- The links of two tables are those of one tree at most. -/
theorem Hierarchy.Linked.unique {T T' : Hierarchy} (h : T.Linked dirTable fileTable)
    (h' : T'.Linked dirTable fileTable) : T = T' := by
  obtain ⟨record, name, hrecord, hfiles, hdirs⟩ := h
  obtain ⟨record', name', hrecord', hfiles', hdirs'⟩ := h'
  obtain ⟨rfl, -⟩ := hrecord.unique hrecord'
  cases T
  cases T'
  rw [Hierarchy.mk.injEq]
  exact ⟨hfiles.unique hfiles', hdirs.unique hdirs'⟩

/-! ### Chains that are followed end -/

section Followed

variable {dir : Pending} {link : UInt32} {a b : Arena} {pending : List Pending}

/-- The chains of a pending directory end. -/
structure Pending.Grounded (dirTable fileTable : List UInt8) (p : Pending) : Prop where
  files : ∃ leaves, FileChain fileTable p.firstFile leaves
  below : ∃ forest, DirChain dirTable fileTable p.firstChild forest

theorem exists_fileChain (h : followFiles fileTable dir link a = .ok b) :
    ∃ leaves, FileChain fileTable link leaves := by
  fun_induction followFiles fileTable dir link a generalizing b with
  | case1 => exact ⟨[], .nil⟩
  | case2 => cases h
  | case3 => cases h
  | case4 link a hlink _ record name hread ih =>
    obtain ⟨leaves, hleaves⟩ := ih h
    have hrecord : FileAt fileTable link record name := readFile_eq_ok_iff.mp hread
    exact ⟨_, @FileChain.cons fileTable ⟨link, name, record.dataOffset, record.dataSize⟩ leaves
      record hlink hrecord rfl rfl hleaves⟩

theorem exists_dirChain (h : followChildren dirTable dir link a = .ok (b, pending))
    (hpending : ∀ p ∈ pending, p.Grounded dirTable fileTable) :
    ∃ forest, DirChain dirTable fileTable link forest := by
  fun_induction followChildren dirTable dir link a generalizing b pending with
  | case1 => exact ⟨.nil, .nil⟩
  | case2 => cases h
  | case3 => cases h
  | case4 => cases h
  | case5 link a hlink _ record name hread path a₁ children hrest =>
    rename_i ih
    cases h
    obtain ⟨⟨leaves, hleaves⟩, ⟨below, hbelow⟩⟩ := hpending _ List.mem_cons_self
    obtain ⟨rest, hrest⟩ := ih hrest fun p hp => hpending p (List.mem_cons_of_mem _ hp)
    exact ⟨.cons link name leaves below rest,
      .cons hlink (readDirectory_eq_ok_iff.mp hread) hleaves hbelow hrest⟩

/-- A chain of files that is followed goes on behind its first record. -/
theorem followFiles_eq_ok_of_read {record : FileRecord} {name : String} (hlink : link ≠ noLink)
    (hread : readFile fileTable link = .ok (record, name))
    (h : followFiles fileTable dir link a = .ok b) :
    followFiles fileTable dir record.sibling
      (a.addFile ⟨name, dir.id, record.dataOffset, record.dataSize, link⟩
        (joinPath dir.path name)) = .ok b := by
  rw [followFiles_eq, if_neg hlink] at h
  split at h
  · cases h
  · rw [hread] at h
    exact h

/-- A chain of children that is followed goes on behind its first record. -/
theorem followChildren_eq_ok_of_read {record : DirectoryRecord} {name : String}
    (hlink : link ≠ noLink) (hread : readDirectory dirTable link = .ok (record, name))
    (h : followChildren dirTable dir link a = .ok (b, pending)) :
    ∃ others, pending =
        ⟨a.dirs.size, joinPath dir.path name, record.firstChild, record.firstFile⟩ :: others ∧
      followChildren dirTable dir record.sibling
        (a.addChild dir.id name link (joinPath dir.path name)) = .ok (b, others) := by
  rw [followChildren_eq, if_neg hlink] at h
  split at h
  · cases h
  · rw [hread] at h
    obtain ⟨_, hfound, h⟩ := bind_eq_ok_iff.mp h
    cases hfound
    obtain ⟨⟨b', others⟩, hrest, h⟩ := bind_eq_ok_iff.mp h
    cases h
    exact ⟨others, rfl, hrest⟩

theorem visit_cons_eq_ok {rest : List Pending}
    (h : visit dirTable fileTable (dir :: rest) a = .ok b) :
    ∃ a₁ a₂ children, followFiles fileTable dir dir.firstFile a = .ok a₁ ∧
      followChildren dirTable dir dir.firstChild a₁ = .ok (a₂, children) ∧
      visit dirTable fileTable (children ++ rest) a₂ = .ok b := by
  rw [visit_cons] at h
  obtain ⟨a₁, hfiles, h⟩ := bind_eq_ok_iff.mp h
  obtain ⟨⟨a₂, children⟩, hchildren, h⟩ := bind_eq_ok_iff.mp h
  exact ⟨a₁, a₂, children, hfiles, hchildren, h⟩

theorem grounded_of_visit (h : visit dirTable fileTable pending a = .ok b) :
    ∀ p ∈ pending, p.Grounded dirTable fileTable := by
  fun_induction visit dirTable fileTable pending a generalizing b with
  | case1 => exact fun p hp => absurd hp List.not_mem_nil
  | case2 => cases h
  | case3 => cases h
  | case4 dir rest a a₁ hfiles a₂ children hchildren ih =>
    have hgrounded := ih h
    intro p hp
    rcases List.mem_cons.mp hp with rfl | hp
    · exact ⟨exists_fileChain hfiles,
        exists_dirChain hchildren fun q hq => hgrounded q (List.mem_append_left rest hq)⟩
    · exact hgrounded p (List.mem_append_right children hp)

/-- **The links of tables that are walked are those of a tree.** -/
theorem exists_linked_of_walk (h : walk dirTable fileTable = .ok b) :
    ∃ T : Hierarchy, T.Linked dirTable fileTable := by
  unfold walk at h
  split at h
  · cases h
  · rename_i record name hread
    obtain ⟨⟨leaves, hleaves⟩, ⟨forest, hforest⟩⟩ := grounded_of_visit h _ List.mem_cons_self
    exact ⟨⟨leaves, forest⟩, record, name, readDirectory_eq_ok_iff.mp hread, hleaves, hforest⟩

end Followed

/-! ## Arenas of trees -/

/-- The file of a leaf in a directory. -/
def Leaf.file (leaf : Leaf) (owner : Nat) : File :=
  ⟨leaf.name, owner, leaf.dataOffset, leaf.dataSize, leaf.place⟩

namespace Arena

/-- The directories with these numbers, which are in the directory `owner`, are those of a forest. Each
lists the directories and the files in it in the order of their chains, and these are those of the
forest as well. -/
inductive Mirrors (a : Arena) : (owner : Option Nat) → List Nat → Forest → Prop
  | nil {owner : Option Nat} : Mirrors a owner [] .nil
  | cons {owner : Option Nat} {id : Nat} {others children files : List Nat} {place : UInt32}
      {name : String} {leaves : List Leaf} {below rest : Forest}
      (hdir : a.dir? id = some ⟨name, owner, children.toArray, files.toArray, place⟩)
      (hfiles : files.map a.file? = leaves.map fun leaf => some (leaf.file id))
      (hbelow : Mirrors a (some id) children below) (hrest : Mirrors a owner others rest) :
      Mirrors a owner (id :: others) (.cons place name leaves below rest)

/-- The pre-order from these directories on: each of them, and behind it the pre-order of the
directories in it. -/
inductive Traversal (a : Arena) : List Nat → (order : List Nat) → Prop
  | nil : Traversal a [] []
  | cons {id : Nat} {others below behind : List Nat} (hbelow : Traversal a (a.children id) below)
      (hrest : Traversal a others behind) : Traversal a (id :: others) (id :: (below ++ behind))

variable {a b : Arena} {owner : Option Nat} {ids order : List Nat} {forest : Forest}

theorem children_of_dir? {id : Nat} {d : Directory} (h : a.dir? id = some d) :
    a.children id = d.children.toList := by
  rw [children, h]

theorem filesOf_of_dir? {id : Nat} {d : Directory} (h : a.dir? id = some d) :
    a.filesOf id = d.files.toList := by
  rw [filesOf, h]

/-- The pre-order stays where the directories on it stay as they are. -/
theorem Traversal.congr (h : a.Traversal ids order)
    (hdirs : ∀ id ∈ order, b.dir? id = a.dir? id) : b.Traversal ids order := by
  induction h with
  | nil => exact .nil
  | @cons id others below behind _ _ ihBelow ihRest =>
    have hchildren : b.children id = a.children id := by
      rw [children, children, hdirs id List.mem_cons_self]
    refine .cons ?_ (ihRest fun i hi => hdirs i (by simp [hi]))
    rw [hchildren]
    exact ihBelow fun i hi => hdirs i (by simp [hi])

/-- So do the directories and the files in them. -/
theorem Mirrors.congr (h : a.Mirrors owner ids forest) (htraversal : a.Traversal ids order)
    (hdirs : ∀ id ∈ order, b.dir? id = a.dir? id)
    (hfiles : ∀ {i : Nat} {f : File}, a.file? i = some f → b.file? i = some f) :
    b.Mirrors owner ids forest := by
  induction h generalizing order with
  | nil => exact .nil
  | @cons owner id others children files place name leaves below rest hdir hleaves _ _ ihBelow
      ihRest =>
    obtain _ | ⟨hbelow, hrest⟩ := htraversal
    rw [children_of_dir? hdir] at hbelow
    refine .cons ((hdirs id List.mem_cons_self).trans hdir) ?_
      (ihBelow hbelow fun i hi => hdirs i (by simp [hi]))
      (ihRest hrest fun i hi => hdirs i (by simp [hi]))
    rw [← hleaves]
    refine List.map_congr_left fun i hi => ?_
    have hmem : a.file? i ∈ leaves.map fun leaf => some (leaf.file id) :=
      hleaves ▸ List.mem_map_of_mem hi
    obtain ⟨leaf, -, hleaf⟩ := List.mem_map.mp hmem
    rw [← hleaf, hfiles hleaf.symm]

/-- The directories that are pending are those of a forest, in the directory `owner`. They are in the
arena, nothing has been found in them yet, and their links lead to the chains of what is in them. -/
inductive Unvisited (dirTable fileTable : List UInt8) (a : Arena) (owner : Option Nat) :
    Forest → List Pending → Prop
  | nil : Unvisited dirTable fileTable a owner .nil []
  | cons {place : UInt32} {name : String} {leaves : List Leaf} {below rest : Forest}
      {dir : Pending} {others : List Pending}
      (hdir : a.dir? dir.id = some ⟨name, owner, #[], #[], place⟩)
      (hfiles : FileChain fileTable dir.firstFile leaves)
      (hbelow : DirChain dirTable fileTable dir.firstChild below)
      (hrest : Unvisited dirTable fileTable a owner rest others) :
      Unvisited dirTable fileTable a owner (.cons place name leaves below rest) (dir :: others)

variable {pending : List Pending}

theorem Unvisited.congr (h : Unvisited dirTable fileTable a owner forest pending)
    (hdirs : ∀ p ∈ pending, b.dir? p.id = a.dir? p.id) :
    Unvisited dirTable fileTable b owner forest pending := by
  induction h with
  | nil => exact .nil
  | cons hdir hfiles hbelow _ ih =>
    exact .cons ((hdirs _ List.mem_cons_self).trans hdir) hfiles hbelow
      (ih fun p hp => hdirs p (List.mem_cons_of_mem _ hp))

theorem Unvisited.lt_size (h : Unvisited dirTable fileTable a owner forest pending) :
    ∀ p ∈ pending, p.id < a.dirs.size := by
  induction h with
  | nil => exact fun p hp => absurd hp List.not_mem_nil
  | cons hdir _ _ _ ih =>
    intro p hp
    rcases List.mem_cons.mp hp with rfl | hp
    · exact lt_size_of_dir? hdir
    · exact ih p hp

/-- What was in an arena is in the grown one: files as they were, directories but those with the given
numbers as they were. -/
structure Keeps (a b : Arena) (ids : List Nat) : Prop where
  dirs_le : a.dirs.size ≤ b.dirs.size
  dir?_eq : ∀ {id : Nat}, id < a.dirs.size → id ∉ ids → b.dir? id = a.dir? id
  file?_eq : ∀ {i : Nat} {f : File}, a.file? i = some f → b.file? i = some f

theorem Keeps.refl (a : Arena) (ids : List Nat) : a.Keeps a ids :=
  ⟨Nat.le_refl _, fun _ _ => rfl, id⟩

theorem Keeps.mono {ids' : List Nat} (h : a.Keeps b ids) (hids : ids ⊆ ids') : a.Keeps b ids' where
  dirs_le := h.dirs_le
  dir?_eq hlt hid := h.dir?_eq hlt fun hmem => hid (hids hmem)
  file?_eq := h.file?_eq

theorem Keeps.trans {c : Arena} {ids' : List Nat} (h : a.Keeps b ids) (h' : b.Keeps c ids')
    (hids : ∀ id ∈ ids', id < a.dirs.size → id ∈ ids) : a.Keeps c ids where
  dirs_le := Nat.le_trans h.dirs_le h'.dirs_le
  dir?_eq hlt hid :=
    (h'.dir?_eq (Nat.lt_of_lt_of_le hlt h.dirs_le) fun hmem => hid (hids _ hmem hlt)).trans
      (h.dir?_eq hlt hid)
  file?_eq hf := h'.file?_eq (h.file?_eq hf)

theorem keeps_addFile (a : Arena) (f : File) (path : String) :
    a.Keeps (a.addFile f path) [f.parent] where
  dirs_le := Nat.le_of_eq (size_dirs_addFile f path).symm
  dir?_eq _ hid := by rw [dir?_addFile, if_neg (mt List.mem_singleton.mpr hid)]
  file?_eq hf := by
    rw [file?_addFile, if_neg (Nat.ne_of_lt (Array.getElem?_eq_some_iff.mp hf).1)]
    exact hf

theorem keeps_addChild {owner : Nat} (howner : owner < a.dirs.size) (name : String)
    (place : UInt32) (path : String) : a.Keeps (a.addChild owner name place path) [owner] where
  dirs_le := by
    rw [size_dirs_addChild]
    exact Nat.le_succ _
  dir?_eq hlt hid := by
    rw [dir?_addChild name place path howner, if_neg (Nat.ne_of_lt hlt),
      if_neg (mt List.mem_singleton.mpr hid)]
  file?_eq hf := hf

end Arena

/-! ## Going through a tree -/

section Chains

variable {dir : Pending} {link : UInt32} {a b : Arena} {d : Directory}

/-- **A chain of files is listed in the directory** that it belongs to, under the next numbers. -/
theorem followFiles_lists {leaves : List Leaf} (h : FileChain fileTable link leaves)
    (hdir : a.dir? dir.id = some d) (hfollow : followFiles fileTable dir link a = .ok b) :
    a.Keeps b [dir.id] ∧ b.dirs.size = a.dirs.size ∧
      b.files.toList = a.files.toList ++ leaves.map (Leaf.file · dir.id) ∧
      b.dir? dir.id = some { d with
        files := (d.files.toList ++ List.range' a.files.size leaves.length).toArray } := by
  induction h generalizing a d with
  | nil =>
    rw [followFiles_noLink] at hfollow
    cases hfollow
    refine ⟨.refl _ _, rfl, ?_, ?_⟩
    · rw [List.map_nil, List.append_nil]
    · rw [List.length_nil, List.range'_zero, List.append_nil]
      exact hdir
  | @cons leaf rest record hplace hrecord hoffset hsize _ ih =>
    have hrest := followFiles_eq_ok_of_read hplace (readFile_eq_ok_iff.mpr hrecord) hfollow
    rw [hoffset, hsize] at hrest
    have hdir' : (a.addFile (leaf.file dir.id) (joinPath dir.path leaf.name)).dir? dir.id =
        some (d.withFile a.files.size) := by
      rw [Arena.dir?_addFile, hdir]
      exact if_pos rfl
    obtain ⟨hkeeps, hdirs, hfiles, hlisted⟩ := ih hdir' hrest
    refine ⟨(a.keeps_addFile _ _).trans hkeeps fun _ hid _ => hid, ?_, ?_, ?_⟩
    · rw [hdirs, Arena.size_dirs_addFile]
    · rw [hfiles, Arena.files_addFile, Array.toList_push, List.append_assoc, List.map_cons]
      rfl
    · rw [hlisted, Arena.files_addFile, Array.size_push, Directory.withFile, Array.toList_push,
        List.append_assoc, List.length_cons, List.range'_succ]
      rfl

/-- **A chain of directories is listed in the directory** that it belongs to, under the next numbers,
and is to be visited. -/
theorem followChildren_lists {forest : Forest} {children : List Pending}
    (h : DirChain dirTable fileTable link forest) (hdir : a.dir? dir.id = some d)
    (hfollow : followChildren dirTable dir link a = .ok (b, children)) :
    a.Keeps b [dir.id] ∧ b.files = a.files ∧ b.dirs.size = a.dirs.size + children.length ∧
      children.map Pending.id = List.range' a.dirs.size children.length ∧
      b.dir? dir.id = some { d with
        children := (d.children.toList ++ List.range' a.dirs.size children.length).toArray } ∧
      Arena.Unvisited dirTable fileTable b (some dir.id) forest children := by
  induction h generalizing a d children with
  | nil =>
    rw [followChildren_noLink] at hfollow
    cases hfollow
    refine ⟨.refl _ _, rfl, rfl, rfl, ?_, .nil⟩
    rw [List.length_nil, List.range'_zero, List.append_nil]
    exact hdir
  | @cons place name leaves below rest record hplace hrecord hfiles hbelow hrest _ ih =>
    have hlt := Arena.lt_size_of_dir? hdir
    obtain ⟨others, rfl, hothers⟩ :=
      followChildren_eq_ok_of_read hplace (readDirectory_eq_ok_iff.mpr hrecord) hfollow
    have hdir' : (a.addChild dir.id name place (joinPath dir.path name)).dir? dir.id =
        some (d.withChild a.dirs.size) := by
      rw [Arena.dir?_addChild _ _ _ hlt, if_neg (Nat.ne_of_lt hlt), if_pos rfl, hdir]
      rfl
    have hchild : (a.addChild dir.id name place (joinPath dir.path name)).dir? a.dirs.size =
        some ⟨name, some dir.id, #[], #[], place⟩ := by
      rw [Arena.dir?_addChild _ _ _ hlt, if_pos rfl]
    obtain ⟨hkeeps, hfs, hsize, hids, hlisted, hunvisited⟩ := ih hdir' hothers
    rw [Arena.size_dirs_addChild] at hsize hids hlisted
    refine ⟨(Arena.keeps_addChild hlt _ _ _).trans hkeeps fun _ hid _ => hid, hfs, ?_, ?_, ?_, ?_⟩
    · rw [hsize, List.length_cons, Nat.add_assoc, Nat.add_comm 1]
    · rw [List.map_cons, hids, List.length_cons, List.range'_succ]
    · rw [hlisted, Directory.withChild, Array.toList_push, List.append_assoc, List.length_cons,
        List.range'_succ]
      rfl
    · refine .cons ?_ hfiles hbelow hunvisited
      rw [hkeeps.dir?_eq (by rw [Arena.size_dirs_addChild]; exact Nat.lt_succ_self _)
        (mt List.mem_singleton.mp (Nat.ne_of_gt hlt))]
      exact hchild

/-- From one arena to another, directories have been gone through in this order: each of them and what
is below it has got the next numbers, and so have the files, in the order of their directories. -/
structure Arena.Covers (a b : Arena) (ids order : List Nat) : Prop where
  keeps : a.Keeps b ids
  traversal : b.Traversal ids order
  dirs : ∃ n, b.dirs.size = a.dirs.size + n ∧ order.Perm (ids ++ List.range' a.dirs.size n)
  files : ∃ n, b.files.size = a.files.size + n ∧
    order.flatMap b.filesOf = List.range' a.files.size n

namespace Arena.Covers

variable {c : Arena} {ids order : List Nat}

theorem refl (a : Arena) : a.Covers a [] [] where
  keeps := .refl a []
  traversal := .nil
  dirs := ⟨0, rfl, .refl _⟩
  files := ⟨0, rfl, rfl⟩

/-- The directories gone through are those from which it began and those found. -/
theorem mem_iff (h : a.Covers b ids order) {id : Nat} :
    id ∈ order ↔ id ∈ ids ∨ a.dirs.size ≤ id ∧ id < b.dirs.size := by
  obtain ⟨n, hsize, hperm⟩ := h.dirs
  rw [hperm.mem_iff, List.mem_append, List.mem_range'_1, hsize]

section Cons

variable {a₁ : Arena} {id : Nat} {others children files below behind : List Nat} {name : String}
  {owner : Option Nat} {place : UInt32} (hkeeps : a.Keeps a₁ [id])
  (hdir : a₁.dir? id = some ⟨name, owner, children.toArray, files.toArray, place⟩)
  (hchildren : ∃ n, a₁.dirs.size = a.dirs.size + n ∧ children = List.range' a.dirs.size n)
  (hfiles : ∃ n, a₁.files.size = a.files.size + n ∧ files = List.range' a.files.size n)
  (hlt : ∀ i ∈ id :: others, i < a.dirs.size) (hid : id ∉ others)
  (hbelow : a₁.Covers b children below) (hbehind : b.Covers c others behind)

include hkeeps hchildren hlt hid hbelow hbehind

/-- What comes behind a directory leaves it alone, and what is below it. -/
theorem dir?_behind : ∀ i ∈ id :: below, c.dir? i = b.dir? i := by
  obtain ⟨n, hsize, rfl⟩ := hchildren
  have hle₁ := hkeeps.dirs_le
  have hle₂ := hbelow.keeps.dirs_le
  intro i hi
  rcases List.mem_cons.mp hi with rfl | hi
  · have := hlt i List.mem_cons_self
    exact hbehind.keeps.dir?_eq (by omega) hid
  · have hbounds : a.dirs.size ≤ i ∧ i < b.dirs.size := by
      rcases hbelow.mem_iff.mp hi with hmem | hmem
      · have := List.mem_range'_1.mp hmem
        omega
      · omega
    refine hbehind.keeps.dir?_eq hbounds.2 fun hmem => ?_
    have := hlt i (List.mem_cons_of_mem _ hmem)
    omega

/-- A directory is left as it is once its chains have been followed. -/
theorem dir?_self : c.dir? id = a₁.dir? id := by
  have hsame := dir?_behind hkeeps hchildren hlt hid hbelow hbehind
  have hlt' := hlt id List.mem_cons_self
  refine (hsame id List.mem_cons_self).trans (hbelow.keeps.dir?_eq ?_ fun hmem => ?_)
  · exact Nat.lt_of_lt_of_le hlt' hkeeps.dirs_le
  · obtain ⟨n, -, rfl⟩ := hchildren
    have := List.mem_range'_1.mp hmem
    omega

include hdir hfiles

/-- A directory is gone through, then what is in it and below, then others. -/
theorem cons : a.Covers c (id :: others) (id :: (below ++ behind)) := by
  have hsame := dir?_behind hkeeps hchildren hlt hid hbelow hbehind
  have hself := (dir?_self hkeeps hchildren hlt hid hbelow hbehind).trans hdir
  obtain ⟨n, hsize, rfl⟩ := hchildren
  obtain ⟨n₁, hsize₁, hperm₁⟩ := hbelow.dirs
  obtain ⟨n₂, hsize₂, hperm₂⟩ := hbehind.dirs
  obtain ⟨m, hfsize, rfl⟩ := hfiles
  obtain ⟨m₁, hfsize₁, hfiles₁⟩ := hbelow.files
  obtain ⟨m₂, hfsize₂, hfiles₂⟩ := hbehind.files
  constructor
  · refine ((hkeeps.trans hbelow.keeps fun i hi hlt => ?_).mono (by simp)).trans hbehind.keeps
      fun i hi _ => List.mem_cons_of_mem _ hi
    have := List.mem_range'_1.mp hi
    omega
  · refine .cons ?_ hbehind.traversal
    rw [children_of_dir? hself]
    exact hbelow.traversal.congr fun i hi => hsame i (List.mem_cons_of_mem _ hi)
  · refine ⟨n + n₁ + n₂, by omega, ?_⟩
    rw [hsize, List.range'_append_1] at hperm₁
    rw [hsize₁, hsize, Nat.add_assoc] at hperm₂
    calc id :: (below ++ behind)
      _ |>.Perm (id :: (List.range' a.dirs.size (n + n₁) ++
            (others ++ List.range' (a.dirs.size + (n + n₁)) n₂))) :=
          (hperm₁.append hperm₂).cons id
      _ |>.Perm (id :: (others ++ (List.range' a.dirs.size (n + n₁) ++
            List.range' (a.dirs.size + (n + n₁)) n₂))) :=
          (List.perm_append_comm_assoc ..).cons id
      _ |>.Perm (id :: others ++ List.range' a.dirs.size (n + n₁ + n₂)) := by
          rw [List.range'_append_1, List.cons_append]
  · refine ⟨m + m₁ + m₂, by omega, ?_⟩
    have hlisted : c.filesOf id = List.range' a.files.size m := filesOf_of_dir? hself
    have hlistedBelow : below.flatMap c.filesOf = below.flatMap b.filesOf :=
      List.flatMap_congr fun i hi => by
        rw [filesOf, filesOf, hsame i (List.mem_cons_of_mem _ hi)]
    rw [hfsize] at hfiles₁
    rw [hfsize₁, hfsize, Nat.add_assoc] at hfiles₂
    calc (id :: (below ++ behind)).flatMap c.filesOf
      _ = List.range' a.files.size m ++ List.range' (a.files.size + m) m₁ ++
            List.range' (a.files.size + (m + m₁)) m₂ := by
          rw [List.flatMap_cons, List.flatMap_append, hlisted, hlistedBelow, hfiles₁, hfiles₂,
            List.append_assoc]
      _ = List.range' a.files.size (m + m₁ + m₂) := by
          rw [List.range'_append_1, List.range'_append_1]

omit hfiles in
/-- The directories gone through are those of a forest if each part of them is. -/
theorem mirrors {leaves : List Leaf} {forest rest : Forest}
    (hleaves : files.map c.file? = leaves.map fun leaf => some (leaf.file id))
    (hforest : b.Mirrors (some id) children forest) (hrest : c.Mirrors owner others rest) :
    c.Mirrors owner (id :: others) (.cons place name leaves forest rest) := by
  have hsame := dir?_behind hkeeps hchildren hlt hid hbelow hbehind
  refine .cons ((dir?_self hkeeps hchildren hlt hid hbelow hbehind).trans hdir) hleaves ?_ hrest
  exact hforest.congr hbelow.traversal (fun i hi => hsame i (List.mem_cons_of_mem _ hi))
    hbehind.keeps.file?_eq

end Cons

end Arena.Covers

/-- The files that are added get the next numbers and keep them. -/
theorem map_file?_range' {c : Arena} {leaves : List Leaf} {owner : Nat}
    (hfiles : b.files.toList = a.files.toList ++ leaves.map (Leaf.file · owner))
    (hkeep : ∀ {i : Nat} {f : File}, b.file? i = some f → c.file? i = some f) :
    (List.range' a.files.size leaves.length).map c.file? =
      leaves.map fun leaf => some (leaf.file owner) := by
  refine List.ext_getElem (by simp) fun i hi hi' => ?_
  rw [List.length_map] at hi'
  rw [List.getElem_map, List.getElem_map, List.getElem_range', Nat.one_mul]
  apply hkeep
  rw [Arena.file?, ← Array.getElem?_toList, hfiles, List.getElem?_append_right (by simp),
    Array.length_toList, Nat.add_sub_cancel_left, List.getElem?_map, List.getElem?_eq_getElem hi']
  rfl

/-- The chains of a directory in which nothing has been found yet are listed in it. -/
theorem follow_lists {c : Arena} {children : List Pending} {leaves : List Leaf} {below : Forest}
    {name : String} {owner : Option Nat} {place : UInt32}
    (hleaves : FileChain fileTable dir.firstFile leaves)
    (hbelow : DirChain dirTable fileTable dir.firstChild below)
    (hdir : a.dir? dir.id = some ⟨name, owner, #[], #[], place⟩)
    (hfiles : followFiles fileTable dir dir.firstFile a = .ok b)
    (hchildren : followChildren dirTable dir dir.firstChild b = .ok (c, children)) :
    a.Keeps c [dir.id] ∧ c.dirs.size = a.dirs.size + children.length ∧
      children.map Pending.id = List.range' a.dirs.size children.length ∧
      c.files.toList = a.files.toList ++ leaves.map (Leaf.file · dir.id) ∧
      c.dir? dir.id = some ⟨name, owner, (List.range' a.dirs.size children.length).toArray,
        (List.range' a.files.size leaves.length).toArray, place⟩ ∧
      Arena.Unvisited dirTable fileTable c (some dir.id) below children := by
  obtain ⟨hkeeps₁, hsize₁, hfiles₁, hdir₁⟩ := followFiles_lists hleaves hdir hfiles
  obtain ⟨hkeeps₂, hfiles₂, hsize₂, hids, hdir₂, hunvisited⟩ :=
    followChildren_lists hbelow hdir₁ hchildren
  rw [hsize₁] at hsize₂ hids hdir₂
  rw [← hfiles₂] at hfiles₁
  exact ⟨hkeeps₁.trans hkeeps₂ fun _ hid _ => hid, hsize₂, hids, hfiles₁, hdir₂, hunvisited⟩

/-- **Directories that are pending are gone through in pre-order**, and what is pending behind them goes
on from there. -/
theorem visit_unvisited {forest : Forest} {owner : Option Nat} {pending behind : List Pending}
    (h : Arena.Unvisited dirTable fileTable a owner forest pending)
    (hids : (pending.map Pending.id).Nodup)
    (hvisit : visit dirTable fileTable (pending ++ behind) a = .ok b) :
    ∃ c order, visit dirTable fileTable behind c = .ok b ∧
      c.Mirrors owner (pending.map Pending.id) forest ∧
      a.Covers c (pending.map Pending.id) order := by
  induction forest generalizing a owner pending behind with
  | nil =>
    cases h
    exact ⟨a, [], hvisit, .nil, .refl a⟩
  | cons place name leaves below rest ihBelow ihRest =>
    have hlt := h.lt_size
    obtain _ | @⟨_, _, _, _, _, dir, others, hdir, hleaves, hbelow, hrest⟩ := h
    obtain ⟨a₁, a₂, children, hfollow₁, hfollow₂, hvisit₂⟩ := visit_cons_eq_ok hvisit
    obtain ⟨hkeeps, hsize, hchildren, hfiles, hdir₂, hunvisited⟩ :=
      follow_lists hleaves hbelow hdir hfollow₁ hfollow₂
    obtain ⟨hdirId, hidsRest⟩ := List.nodup_cons.mp hids
    have hrest₂ : Arena.Unvisited dirTable fileTable a₂ owner rest others := by
      refine hrest.congr fun p hp => hkeeps.dir?_eq (hlt p (List.mem_cons_of_mem _ hp)) ?_
      intro hmem
      exact hdirId (List.mem_singleton.mp hmem ▸ List.mem_map_of_mem hp)
    obtain ⟨a₃, orderBelow, hvisit₃, hmirrors₃, hcovers₃⟩ :=
      ihBelow hunvisited (by rw [hchildren]; exact List.nodup_range') hvisit₂
    have hrest₃ : Arena.Unvisited dirTable fileTable a₃ owner rest others := by
      refine hrest₂.congr fun p hp => hcovers₃.keeps.dir?_eq (hrest₂.lt_size p hp) fun hmem => ?_
      rw [hchildren] at hmem
      have := List.mem_range'_1.mp hmem
      have := hlt p (List.mem_cons_of_mem _ hp)
      omega
    obtain ⟨a₄, orderRest, hvisit₄, hmirrors₄, hcovers₄⟩ := ihRest hrest₃ hidsRest hvisit₃
    rw [hchildren] at hmirrors₃ hcovers₃
    have hltIds : ∀ i ∈ (dir :: others).map Pending.id, i < a.dirs.size :=
      List.forall_mem_map.mpr hlt
    refine ⟨a₄, dir.id :: (orderBelow ++ orderRest), hvisit₄, ?_, ?_⟩
    · exact Arena.Covers.mirrors hkeeps hdir₂ ⟨_, hsize, rfl⟩ hltIds hdirId hcovers₃ hcovers₄
        (map_file?_range' hfiles fun hf => hcovers₄.keeps.file?_eq (hcovers₃.keeps.file?_eq hf))
        hmirrors₃ hmirrors₄
    · refine Arena.Covers.cons hkeeps hdir₂ ⟨_, hsize, rfl⟩ ⟨leaves.length, ?_, rfl⟩ hltIds hdirId
        hcovers₃ hcovers₄
      rw [← Array.length_toList, hfiles, List.length_append, List.length_map, Array.length_toList]

end Chains

/-! ## The walk -/

namespace Arena

variable {a : Arena}

/-- A directory of an arena is that of a tree: the way to it has the same names, its record lies at the
same place, and its files are the same, in the same order. -/
structure Shows (a : Arena) (id : Nat) (d : Folder) : Prop where
  names : a.LeadsUp id d.names
  place : (a.dir? id).map Directory.tableOffset = some d.place
  files : (a.filesOf id).map a.file? = d.files.map fun leaf => some (leaf.file id)

theorem Shows.of_dir? {id : Nat} {d : Folder} {name : String} {owner : Option Nat}
    {children files : List Nat} (hnames : a.LeadsUp id d.names)
    (hdir : a.dir? id = some ⟨name, owner, children.toArray, files.toArray, d.place⟩)
    (hfiles : files.map a.file? = d.files.map fun leaf => some (leaf.file id)) : a.Shows id d where
  names := hnames
  place := by rw [hdir, Option.map_some]
  files := by
    rw [filesOf_of_dir? hdir]
    exact hfiles

/-- The pre-order of an arena and that of its tree go side by side. -/
theorem Mirrors.shows {p : Nat} {ids order : List Nat} {forest : Forest} {above : List String}
    (h : a.Mirrors (some p) ids forest) (htraversal : a.Traversal ids order)
    (habove : a.LeadsUp p above) : List.Forall₂ a.Shows order (forest.folders above) := by
  generalize howner : some p = owner at h
  induction h generalizing p order above with
  | nil =>
    cases htraversal
    exact .nil
  | @cons owner id others children files place name leaves below rest hdir hleaves _ _ ihBelow
      ihRest =>
    obtain _ | ⟨hbelow, hrest⟩ := htraversal
    rw [children_of_dir? hdir] at hbelow
    have hnames : a.LeadsUp id (above ++ [name]) := .up hdir howner.symm habove
    exact .cons (.of_dir? hnames hdir hleaves)
      (List.rel_append (ihBelow hbelow hnames rfl) (ihRest hrest habove howner))

theorem map_flatMap_filesOf {order : List Nat} {folders : List Folder}
    (h : List.Forall₂ a.Shows order folders) :
    (order.flatMap a.filesOf).map (fun i => (a.file? i).map File.leaf) =
      (folders.flatMap Folder.files).map some := by
  induction h with
  | nil => rfl
  | @cons id d order folders hd _ ih =>
    have hfiles := congrArg (List.map (Option.map File.leaf)) hd.files
    rw [List.map_map, List.map_map] at hfiles
    rw [List.flatMap_cons, List.flatMap_cons, List.map_append, List.map_append, ih]
    exact congrArg (· ++ _) hfiles

theorem map_getElem?_range {α : Type} (xs : List α) :
    (List.range xs.length).map (xs[·]?) = xs.map some :=
  List.ext_getElem (by simp) (by simp)

/-- **An arena is a tree gone through in pre-order.** -/
structure InPreorder (a : Arena) (T : Hierarchy) (order : List Nat) : Prop where
  /-- Directory 0 is the root, and each directory lists what is in it in the order of the chains. -/
  mirrors : a.Mirrors none [0] (.cons 0 "" T.files T.dirs .nil)
  /-- From the root on each directory is followed by those in it, with all that is below. -/
  traversal : a.Traversal [0] order
  /-- Each directory comes once. -/
  perm : order.Perm (List.range a.dirs.size)
  /-- In this order of the directories the files are numbered one after the other. -/
  filesOf_eq : order.flatMap a.filesOf = List.range a.files.size
  /-- The files are those of the tree in pre-order. -/
  leaves_eq : a.files.toList.map File.leaf = T.folders.flatMap Folder.files
  /-- The directories are those of the tree in pre-order. -/
  shows : List.Forall₂ a.Shows order T.folders

theorem InPreorder.of_covers {T : Hierarchy} {order : List Nat}
    (hmirrors : a.Mirrors none [0] (.cons 0 "" T.files T.dirs .nil))
    (hcovers : ofRoot.Covers a [0] order) : a.InPreorder T order := by
  obtain ⟨n, hsize, hperm⟩ := hcovers.dirs
  obtain ⟨m, hfilesSize, hfilesOf⟩ := hcovers.files
  have hfiles : order.flatMap a.filesOf = List.range a.files.size := by
    rw [hfilesOf, hfilesSize, List.range_eq_range']
    exact congrArg (List.range' 0) (Nat.zero_add m).symm
  have hshows : List.Forall₂ a.Shows order T.folders := by
    have htraversal := hcovers.traversal
    cases hmirrors with
    | cons hdir hleaves hbelow =>
      obtain _ | ⟨hbelow', hrest⟩ := htraversal
      obtain _ | _ := hrest
      have hnames : a.LeadsUp 0 [] := .root hdir rfl
      rw [children_of_dir? hdir] at hbelow'
      rw [List.append_nil]
      exact .cons (.of_dir? hnames hdir hleaves) (hbelow.shows hbelow' hnames)
  refine ⟨hmirrors, hcovers.traversal, ?_, hfiles, ?_, hshows⟩
  · rw [hsize, List.range_eq_range', ← List.range'_append_1]
    exact hperm
  · have hleaves := map_flatMap_filesOf hshows
    have hfile (i : Nat) : (a.file? i).map File.leaf = (a.files.toList.map File.leaf)[i]? := by
      simp [file?]
    have hlength : a.files.size = (a.files.toList.map File.leaf).length := by simp
    simp only [hfiles, hfile] at hleaves
    rw [hlength, map_getElem?_range] at hleaves
    exact (List.map_inj_right fun _ _ => Option.some.inj).mp hleaves

namespace InPreorder

variable {T : Hierarchy} {order : List Nat}

theorem dirPlaces_perm (h : a.InPreorder T order) :
    (T.folders.map Folder.place).Perm a.dirPlaces := by
  have hplaces : order.map (a.dirPlaces[·]?) = (T.folders.map Folder.place).map some := by
    rw [List.map_map, ← List.forall₂_eq_eq_eq, List.forall₂_map_left_iff, List.forall₂_map_right_iff]
    refine h.shows.imp fun _ _ hd => ?_
    rw [getElem?_dirPlaces, hd.place]
    rfl
  have hall := h.perm.map (a.dirPlaces[·]?)
  rw [hplaces, ← length_dirPlaces, map_getElem?_range] at hall
  exact (List.map_perm_map_iff fun _ _ => Option.some.inj).mp hall

theorem filePlaces_eq (h : a.InPreorder T order) :
    (T.leaves.map fun entry => entry.2.place) = a.filePlaces := by
  have hleaves : T.leaves.map Prod.snd = T.folders.flatMap Folder.files := by
    simp [Hierarchy.leaves, List.map_flatMap, Folder.leaves, Function.comp_def]
  have hplaces := congrArg (List.map Leaf.place) (hleaves.trans h.leaves_eq.symm)
  simpa [filePlaces, File.leaf, Function.comp_def] using hplaces

/-- The tree is stored in the tables: each of its directories and files has a record of its own. -/
theorem storedIn (h : a.InPreorder T order) (ha : a.Consistent)
    (hlinked : T.Linked dirTable fileTable) : T.StoredIn dirTable fileTable where
  root := hlinked
  dirPlaces_nodup := h.dirPlaces_perm.nodup_iff.mpr ha.dirPlaces_nodup
  filePlaces_nodup := by
    rw [h.filePlaces_eq]
    exact ha.filePlaces_nodup

/-- The directories with a path are those of the tree to which names lead that make it up. -/
theorem leadsUp_iff (h : a.InPreorder T order) {id : Nat} {path : String} :
    (∃ names, a.LeadsUp id names ∧ walkPath names = path) ↔
      ∃ d, (id, d) ∈ order.zip T.folders ∧ walkPath d.names = path := by
  constructor
  · rintro ⟨names, hnames, hpath⟩
    have hmem : id ∈ order := h.perm.symm.subset (List.mem_range.mpr hnames.lt_size)
    obtain ⟨k, hk, rfl⟩ := List.getElem_of_mem hmem
    have hk' : k < T.folders.length := h.shows.length_eq ▸ hk
    have hzip : (order[k], T.folders[k]) ∈ order.zip T.folders :=
      List.mem_iff_getElem.mpr
        ⟨k, by rw [List.length_zip]; exact Nat.lt_min.mpr ⟨hk, hk'⟩, List.getElem_zip⟩
    refine ⟨_, hzip, ?_⟩
    rw [(List.forall₂_zip h.shows hzip).names.unique hnames]
    exact hpath
  · rintro ⟨d, hmem, hpath⟩
    exact ⟨d.names, (List.forall₂_zip h.shows hmem).names, hpath⟩

end InPreorder

end Arena

/-- **A walk that succeeds goes through the tree of the links in pre-order**: there is just one tree to
which the tables link up; each directory lists what is in it in the order of the chains, and in the
pre-order of the directories the files are numbered one after the other. Of several directories or
files with one path the catalogs have the one with the greatest number. -/
theorem walk_inPreorder {a : Arena} (h : walk dirTable fileTable = .ok a) :
    ∃ T order, T.StoredIn dirTable fileTable ∧
      (∀ T' : Hierarchy, T'.Linked dirTable fileTable → T' = T) ∧ a.InPreorder T order ∧
      (∀ path id, a.dirEntries.find? path = some id ↔
        IsGreatest {i | ∃ d, (i, d) ∈ order.zip T.folders ∧ walkPath d.names = path} id) ∧
      ∀ path id, a.fileEntries.find? path = some id ↔
        IsGreatest {i | ∃ names leaf, T.leaves[i]? = some (names, leaf) ∧ walkPath names = path} id := by
  obtain ⟨T, hlinked⟩ := exists_linked_of_walk h
  obtain ⟨record, name, hrecord, hleaves, hforest⟩ := id hlinked
  have hvisit := h
  rw [walk_of_read (readDirectory_eq_ok_iff.mpr hrecord)] at hvisit
  -- The root is pending like a directory whose chain ends with it.
  have hroot : Arena.Unvisited dirTable fileTable .ofRoot none (.cons 0 "" T.files T.dirs .nil)
      [⟨0, "/", record.firstChild, record.firstFile⟩] := .cons rfl hleaves hforest .nil
  obtain ⟨b, order, hend, hmirrors, hcovers⟩ :=
    visit_unvisited hroot (List.nodup_singleton 0) hvisit
  rw [visit_nil] at hend
  cases hend
  have horder := Arena.InPreorder.of_covers hmirrors hcovers
  have hstored := horder.storedIn (Arena.consistent_of_walk h) hlinked
  refine ⟨T, order, hstored, fun T' hT' => hT'.unique hlinked, horder, ?_, ?_⟩
  · intro path id
    rw [(Arena.registered_of_walk h).find?_dir_iff]
    simp only [horder.leadsUp_iff]
  · intro path id
    obtain ⟨b, hwalk, hlists⟩ := hstored.walk_eq_ok
    rw [h] at hwalk
    cases hwalk
    rw [hlists.fileEntries_eq, Catalog.find?_numbered_iff_isGreatest]
    simp only [Hierarchy.foundFiles, List.map_map, List.getElem?_map, Option.map_eq_some_iff,
      Function.comp_apply, Prod.exists]

end Tables

/-! ## Directories with one path -/

namespace Twins

/-- The root has two directories. -/
def root : DirectoryRecord := ⟨0, noLink, 0x18, noLink, noLink, 0⟩

/-- The first of them has a file, and a directory in it. -/
def first : DirectoryRecord := ⟨0, 0x31, 0x4A, 0, noLink, 1⟩

/-- The second has the same name, and a file. -/
def second : DirectoryRecord := ⟨0, noLink, noLink, 0x42, noLink, 1⟩

/-- The directory in the first has a file, too. -/
def inner : DirectoryRecord := ⟨0x18, noLink, noLink, 0x21, noLink, 1⟩

/-- A file of one byte. -/
def file (parent : UInt32) (dataOffset : UInt64) : FileRecord :=
  ⟨parent, noLink, dataOffset, 1, noLink, 1⟩

/-- Two directories `a` in the root, and in the first of them a directory `b`. -/
def dirTable : List UInt8 :=
  DirectoryRecord.layout.encode root ++ (DirectoryRecord.layout.encode first ++ (Utf8.encode "a" ++
    (DirectoryRecord.layout.encode second ++ (Utf8.encode "a" ++
      (DirectoryRecord.layout.encode inner ++ Utf8.encode "b")))))

/-- A file `f` in each directory `a`, and between them a file `g` in `b`. -/
def fileTable : List UInt8 :=
  FileRecord.layout.encode (file 0x18 0) ++ (Utf8.encode "f" ++
    (FileRecord.layout.encode (file 0x4A 1) ++ (Utf8.encode "g" ++
      (FileRecord.layout.encode (file 0x31 2) ++ Utf8.encode "f"))))

/-- The tree that the tables store. -/
def hierarchy : Hierarchy where
  files := []
  dirs := .cons 0x18 "a" [⟨0, "f", 0, 1⟩] (.cons 0x4A "b" [⟨0x21, "g", 1, 1⟩] .nil .nil)
    (.cons 0x31 "a" [⟨0x42, "f", 2, 1⟩] .nil .nil)

theorem fileChain {place parent : UInt32} {dataOffset : UInt64} {name : String}
    (hplace : place ≠ noLink)
    (hread : readFile fileTable place = .ok (file parent dataOffset, name)) :
    FileChain fileTable place [⟨place, name, dataOffset, 1⟩] :=
  @FileChain.cons fileTable ⟨place, name, dataOffset, 1⟩ [] (file parent dataOffset) hplace
    (readFile_eq_ok_iff.mp hread) rfl rfl .nil

set_option maxRecDepth 1000 in
theorem storedIn_tables : hierarchy.StoredIn dirTable fileTable where
  root := by
    have root_at : DirectoryAt dirTable 0 root "" := readDirectory_eq_ok_iff.mp rfl
    have first_at : DirectoryAt dirTable 0x18 first "a" := readDirectory_eq_ok_iff.mp rfl
    have second_at : DirectoryAt dirTable 0x31 second "a" := readDirectory_eq_ok_iff.mp rfl
    have inner_at : DirectoryAt dirTable 0x4A inner "b" := readDirectory_eq_ok_iff.mp rfl
    exact ⟨root, "", root_at, .nil, .cons (by decide) first_at (fileChain (by decide) rfl)
      (.cons (by decide) inner_at (fileChain (by decide) rfl) .nil .nil)
      (.cons (by decide) second_at (fileChain (by decide) rfl) .nil .nil)⟩
  dirPlaces_nodup := by decide
  filePlaces_nodup := by decide

/-- Of the two directories `a` the second has the greater number, and so has the file in it, although
the files in the first and below it are numbered before. -/
theorem walk_inPreorder_tables :
    ∃ a order, walk dirTable fileTable = .ok a ∧ a.InPreorder hierarchy order ∧
      a.files.toList.map File.leaf = [⟨0, "f", 0, 1⟩, ⟨0x21, "g", 1, 1⟩, ⟨0x42, "f", 2, 1⟩] ∧
      a.fileEntries.find? "/a/f" = some 2 := by
  obtain ⟨a, hwalk, -⟩ := storedIn_tables.walk_eq_ok
  obtain ⟨T, order, -, hunique, horder, -, hfile⟩ := walk_inPreorder hwalk
  obtain rfl := hunique hierarchy storedIn_tables.root
  refine ⟨a, order, hwalk, horder, horder.leaves_eq, (hfile _ _).mpr ⟨⟨_, _, rfl, by decide⟩, ?_⟩⟩
  rintro i ⟨names, leaf, hleaf, -⟩
  have hlt := (List.getElem?_eq_some_iff.mp hleaf).1
  exact Nat.le_of_lt_succ hlt

end Twins

end Cartridge.RomFs
