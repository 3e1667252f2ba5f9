import Cartridge.Proofs.RomFs.Growth
import Cartridge.Proofs.RomFs.Reading
import Mathlib.Data.List.Perm.Subperm

/-!
# Arenas are rooted trees

The arena of an image that parses is a tree with directory 0 as its root: parents and lists of
contents say the same, going up from parent to parent ends at the root, and the catalogs of places
undo the numbering. All of it is read off what every step of the walk keeps (`Arena.Consistent`).

Results:
* `Arena.namesTo?_eq_some_iff`: looking for the names of a directory gives up only on ways up that
  never end.
* `Arena.Consistent.leadsUp`: the way up from every directory ends.
* `Image.rooted_of_tree`: the arena of a parsed image is a rooted tree.
-/

namespace Cartridge.RomFs

namespace Arena

/-- An arena that is a tree with directory 0 as its root. -/
structure Rooted (a : Arena) : Prop where
  /-- There is a directory 0. -/
  root_isSome : (a.dir? 0).isSome
  /-- Directory 0 is the only one without a parent. -/
  parent_eq_none_iff : ∀ {id d}, a.dir? id = some d → (d.parent = none ↔ id = 0)
  /-- Every other directory's parent comes before it. -/
  parent_lt : ∀ {id d p}, a.dir? id = some d → d.parent = some p → p < id
  /-- A directory is listed once by its parent and not by any other. -/
  count_children : ∀ p c,
    (a.children p).count c = if (a.dir? c).bind Directory.parent = some p then 1 else 0
  /-- Every file is in a directory. -/
  fileParent_lt : ∀ {id f}, a.file? id = some f → f.parent < a.dirs.size
  /-- A file is listed once by its directory and not by any other. -/
  count_filesOf : ∀ p c,
    (a.filesOf p).count c = if (a.file? c).map File.parent = some p then 1 else 0
  /-- No two directories have their records at one place. -/
  dirPlaces_nodup : a.dirPlaces.Nodup
  /-- A place leads to the directory whose record lies there, and to no other. -/
  dirAt?_eq_some_iff : ∀ place id,
    a.dirAt? place = some id ↔ (a.dir? id).map Directory.tableOffset = some place
  /-- No two files have their records at one place. -/
  filePlaces_nodup : a.filePlaces.Nodup
  /-- A place leads to the file whose record lies there, and to no other. -/
  fileAt?_eq_some_iff : ∀ place id,
    a.fileAt? place = some id ↔ (a.file? id).map File.tableOffset = some place
  /-- Every directory has a path. -/
  dirPath?_isSome : ∀ id, id < a.dirs.size → (a.dirPath? id).isSome
  /-- Every file has a path. -/
  filePath?_isSome : ∀ id, id < a.files.size → (a.filePath? id).isSome

/-- No two files of a tree are equal: their records lie at different places. -/
theorem Rooted.id_eq_of_file?_eq {a : Arena} (h : a.Rooted) {id id' : Nat} {f : File}
    (hf : a.file? id = some f) (hf' : a.file? id' = some f) : id = id' := by
  have hid := (h.fileAt?_eq_some_iff f.tableOffset id).mpr (by rw [hf, Option.map_some])
  rw [(h.fileAt?_eq_some_iff f.tableOffset id').mpr (by rw [hf', Option.map_some])] at hid
  exact (Option.some.inj hid).symm

theorem count_idxsOf {α : Type} [BEq α] [LawfulBEq α] [DecidableEq α] (xs : List α) (x : α) (i : Nat) :
    (xs.idxsOf x).count i = if xs[i]? = some x then 1 else 0 := by
  have hmem : i ∈ xs.idxsOf x ↔ xs[i]? = some x := by
    rw [List.mem_idxsOf_iff_exists_getElem_pos, List.getElem?_eq_some_iff]
    simp only [beq_iff_eq]
  by_cases h : xs[i]? = some x
  · rw [if_pos h]
    exact List.count_eq_one_of_mem List.nodup_idxsOf (hmem.mpr h)
  · rw [if_neg h]
    exact List.count_eq_zero_of_not_mem fun hi => h (hmem.mp hi)

variable {a : Arena}

theorem dir?_isSome {id : Nat} (h : id < a.dirs.size) : ∃ d, a.dir? id = some d :=
  ⟨a.dirs[id], Array.getElem?_eq_getElem h⟩

theorem file?_isSome {id : Nat} (h : id < a.files.size) : ∃ f, a.file? id = some f :=
  ⟨a.files[id], Array.getElem?_eq_getElem h⟩

theorem lt_size_of_dir? {id : Nat} {d : Directory} (h : a.dir? id = some d) :
    id < a.dirs.size :=
  (Array.getElem?_eq_some_iff.mp h).1

/-! ## Going up -/

variable (a) in
/-- Going up from a directory, from parent to parent without any bound, ends at a directory without a
parent after these names. -/
inductive LeadsUp : Nat → List String → Prop
  | root {id : Nat} {d : Directory} (hd : a.dir? id = some d) (hroot : d.parent = none) :
      LeadsUp id []
  | up {id p : Nat} {d : Directory} {names : List String} (hd : a.dir? id = some d)
      (hparent : d.parent = some p) (habove : LeadsUp p names) : LeadsUp id (names ++ [d.name])

theorem LeadsUp.lt_size {id : Nat} {names : List String} (h : a.LeadsUp id names) :
    id < a.dirs.size := by
  cases h with
  | root hd => exact lt_size_of_dir? hd
  | up hd => exact lt_size_of_dir? hd

theorem LeadsUp.nil_iff {id : Nat} :
    a.LeadsUp id [] ↔ ∃ d, a.dir? id = some d ∧ d.parent = none := by
  constructor
  · generalize hnames : ([] : List String) = names
    rintro (⟨hd, hroot⟩ | ⟨hd, hparent, habove⟩)
    · exact ⟨_, hd, hroot⟩
    · exact absurd hnames.symm (List.append_ne_nil_of_right_ne_nil _ (List.cons_ne_nil _ _))
  · rintro ⟨d, hd, hroot⟩
    exact .root hd hroot

/-- The last name is that of the directory itself, the others lead to its parent. -/
theorem LeadsUp.concat_iff {id : Nat} {names : List String} {name : String} :
    a.LeadsUp id (names ++ [name]) ↔
      ∃ d p, a.dir? id = some d ∧ d.name = name ∧ d.parent = some p ∧ a.LeadsUp p names := by
  constructor
  · generalize hall : names ++ [name] = all
    rintro (⟨hd, hroot⟩ | ⟨hd, hparent, habove⟩)
    · exact absurd hall (List.append_ne_nil_of_right_ne_nil _ (List.cons_ne_nil _ _))
    · obtain ⟨rfl, hname⟩ := List.append_inj' hall rfl
      exact ⟨_, _, hd, (List.singleton_inj.mp hname).symm, hparent, habove⟩
  · rintro ⟨d, p, hd, rfl, hparent, habove⟩
    exact .up hd hparent habove

theorem LeadsUp.unique {id : Nat} {names names' : List String} (h : a.LeadsUp id names)
    (h' : a.LeadsUp id names') : names = names' := by
  induction h generalizing names' with
  | root hd hroot =>
    cases h' with
    | root => rfl
    | up hd' hparent =>
      rw [hd] at hd'
      cases hd'
      rw [hroot] at hparent
      cases hparent
  | up hd hparent _ ih =>
    cases h' with
    | root hd' hroot =>
      rw [hd] at hd'
      cases hd'
      rw [hroot] at hparent
      cases hparent
    | up hd' hparent' habove' =>
      rw [hd] at hd'
      cases hd'
      rw [hparent] at hparent'
      cases hparent'
      rw [ih habove']

/-- A way up that ends passes no directory twice: from there on it would be the same again. -/
theorem LeadsUp.exists_visited {id : Nat} {names : List String} (h : a.LeadsUp id names) :
    ∃ visited : List Nat, visited.Nodup ∧ visited.length = names.length + 1 ∧
      ∀ i ∈ visited, i < a.dirs.size ∧
        ∃ names', a.LeadsUp i names' ∧ names'.length ≤ names.length := by
  induction h with
  | @root id d hd hroot =>
    refine ⟨[id], List.nodup_singleton id, rfl, ?_⟩
    intro i hi
    rw [List.mem_singleton.mp hi]
    exact ⟨lt_size_of_dir? hd, [], .root hd hroot, Nat.le_refl _⟩
  | @up id p d names hd hparent habove ih =>
    obtain ⟨visited, hnodup, hlength, hvisited⟩ := ih
    have hup : a.LeadsUp id (names ++ [d.name]) := .up hd hparent habove
    have hnew : id ∉ visited := by
      intro hmem
      obtain ⟨-, names', hup', hle⟩ := hvisited id hmem
      rw [hup'.unique hup, List.length_append, List.length_singleton] at hle
      omega
    refine ⟨id :: visited, List.nodup_cons.mpr ⟨hnew, hnodup⟩, by simp [hlength], ?_⟩
    intro i hi
    rcases List.mem_cons.mp hi with rfl | hi
    · exact ⟨lt_size_of_dir? hd, _, hup, Nat.le_refl _⟩
    · obtain ⟨hlt, names', hup', hle⟩ := hvisited i hi
      exact ⟨hlt, names', hup', by simp; omega⟩

theorem LeadsUp.length_lt {id : Nat} {names : List String} (h : a.LeadsUp id names) :
    names.length < a.dirs.size := by
  obtain ⟨visited, hnodup, hlength, hvisited⟩ := h.exists_visited
  have hsubset : visited ⊆ List.range a.dirs.size :=
    fun i hi => List.mem_range.mpr (hvisited i hi).1
  have hle := (hnodup.subperm hsubset).length_le
  rw [List.length_range] at hle
  omega

theorem LeadsUp.of_namesWithin? {count id : Nat} {names : List String}
    (h : a.namesWithin? count id = some names) : a.LeadsUp id names := by
  induction count generalizing id names with
  | zero => cases h
  | succ count ih =>
    obtain ⟨d, hd, h⟩ := Option.bind_eq_some_iff.mp h
    cases hparent : d.parent with
    | none =>
      rw [hparent] at h
      cases h
      exact .root hd hparent
    | some p =>
      rw [hparent] at h
      obtain ⟨above, habove, h⟩ := Option.bind_eq_some_iff.mp h
      cases h
      exact .up hd hparent (ih habove)

theorem LeadsUp.namesWithin?_eq {id : Nat} {names : List String} (h : a.LeadsUp id names)
    {count : Nat} (hcount : names.length < count) : a.namesWithin? count id = some names := by
  induction h generalizing count with
  | root hd hroot =>
    obtain ⟨count, rfl⟩ : ∃ n, count = n + 1 := ⟨count - 1, by omega⟩
    simp [namesWithin?, hd, hroot]
  | up hd hparent _ ih =>
    rw [List.length_append, List.length_singleton] at hcount
    obtain ⟨count, rfl⟩ : ∃ n, count = n + 1 := ⟨count - 1, by omega⟩
    have habove := ih (Nat.lt_of_succ_lt_succ hcount)
    simp [namesWithin?, hd, hparent, habove]

/-- **As many steps up as there are directories are enough**: what they do not reach, no number of
steps reaches. -/
theorem namesTo?_eq_some_iff {id : Nat} {names : List String} :
    a.namesTo? id = some names ↔ a.LeadsUp id names :=
  ⟨LeadsUp.of_namesWithin?, fun h => h.namesWithin?_eq h.length_lt⟩

namespace Consistent

theorem parent_lt' (ha : a.Consistent) {id p : Nat} {d : Directory} (hd : a.dir? id = some d)
    (hp : d.parent = some p) : p < id := by
  refine ha.parent_lt ?_
  rw [getElem?_parents, hd, Option.map_some, hp]

theorem dir?_fileParent (ha : a.Consistent) {id : Nat} {f : File} (hf : a.file? id = some f) :
    f.parent < a.dirs.size := by
  refine ha.fileParent_lt f.parent (List.mem_of_getElem? (i := id) ?_)
  rw [getElem?_fileParents, hf, Option.map_some]

/-- Going up from parent to parent ends: the numbers go down. -/
theorem leadsUp (ha : a.Consistent) (id : Nat) (h : id < a.dirs.size) :
    ∃ names, a.LeadsUp id names := by
  induction id using Nat.strongRecOn with
  | ind id ih =>
    obtain ⟨d, hd⟩ := dir?_isSome h
    cases hparent : d.parent with
    | none => exact ⟨[], .root hd hparent⟩
    | some p =>
      have hlt := ha.parent_lt' hd hparent
      obtain ⟨names, hnames⟩ := ih p hlt (Nat.lt_trans hlt h)
      exact ⟨_, .up hd hparent hnames⟩

theorem namesTo?_isSome (ha : a.Consistent) (id : Nat) (h : id < a.dirs.size) :
    (a.namesTo? id).isSome := by
  obtain ⟨names, hnames⟩ := ha.leadsUp id h
  rw [namesTo?_eq_some_iff.mpr hnames]
  rfl

theorem dirPath?_isSome (ha : a.Consistent) (id : Nat) (h : id < a.dirs.size) :
    (a.dirPath? id).isSome := by
  rw [dirPath?, Option.isSome_map]
  exact ha.namesTo?_isSome id h

theorem filePath?_isSome (ha : a.Consistent) (id : Nat) (h : id < a.files.size) :
    (a.filePath? id).isSome := by
  obtain ⟨f, hf⟩ := file?_isSome h
  obtain ⟨dir, hdir⟩ := Option.isSome_iff_exists.mp (ha.dirPath?_isSome _ (ha.dir?_fileParent hf))
  simp [filePath?, hf, hdir]

/-- The root is the only directory without a parent. -/
theorem parent_eq_none_iff (ha : a.Consistent) {id : Nat} {d : Directory}
    (hd : a.dir? id = some d) : d.parent = none ↔ id = 0 := by
  obtain ⟨others, hothers⟩ := ha.parents_eq
  have hparent : a.parents[id]? = some d.parent := by
    rw [getElem?_parents, hd, Option.map_some]
  rw [hothers] at hparent
  cases id with
  | zero =>
    rw [List.getElem?_cons_zero] at hparent
    simp [← Option.some.inj hparent]
  | succ id =>
    rw [List.getElem?_cons_succ, List.getElem?_map] at hparent
    cases hother : others[id]? with
    | none => simp [hother] at hparent
    | some p =>
      rw [hother] at hparent
      simp [← Option.some.inj hparent]

/-- **A consistent arena is a rooted tree.** -/
theorem rooted (ha : a.Consistent) : a.Rooted where
  root_isSome := by
    obtain ⟨others, hothers⟩ := ha.parents_eq
    have hroot := getElem?_parents a 0
    rw [hothers, List.getElem?_cons_zero] at hroot
    cases hdir : a.dir? 0 with
    | none => simp [hdir] at hroot
    | some d => rfl
  parent_eq_none_iff := ha.parent_eq_none_iff
  parent_lt := ha.parent_lt'
  count_children := by
    intro p c
    rw [ha.children_eq, count_idxsOf, getElem?_parents]
    cases a.dir? c with
    | none => simp
    | some d => simp
  fileParent_lt := ha.dir?_fileParent
  count_filesOf := by
    intro p c
    rw [ha.filesOf_eq, count_idxsOf, getElem?_fileParents]
  dirPlaces_nodup := ha.dirPlaces_nodup
  dirAt?_eq_some_iff := by
    intro place id
    rw [dirAt?, ha.dirByPlace_eq, Catalog.find?_numbered_eq_some_iff ha.dirPlaces_nodup,
      getElem?_dirPlaces]
  filePlaces_nodup := ha.filePlaces_nodup
  fileAt?_eq_some_iff := by
    intro place id
    rw [fileAt?, ha.fileByPlace_eq, Catalog.find?_numbered_eq_some_iff ha.filePlaces_nodup,
      getElem?_filePlaces]
  dirPath?_isSome := ha.dirPath?_isSome
  filePath?_isSome := ha.filePath?_isSome

end Consistent

end Arena

/-- **The arena of a parsed image is a rooted tree**, whatever the tables hold. -/
theorem Image.rooted_of_tree {media : Media} {view : View} {t : Tree} {i : Image}
    (h : (Image.tree media).outcome (.ofView view) = (.ok t, i)) : t.toArena.Rooted := by
  obtain ⟨_, _, -, hwalk⟩ := Tree.read_eq_ok (Image.read_of_outcome_tree h)
  exact (Arena.consistent_of_walk hwalk).rooted

theorem Specimen.rooted_of_tree_specimen :
    ∃ i, (Image.tree media).outcome (.ofView view) = (.ok tree, i) ∧ tree.toArena.Rooted := by
  obtain ⟨i, h⟩ := outcome_tree
  exact ⟨i, h, Image.rooted_of_tree h⟩

end Cartridge.RomFs
