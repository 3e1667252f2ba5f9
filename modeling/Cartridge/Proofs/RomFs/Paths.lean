import Cartridge.Proofs.RomFs.Forest
import Cartridge.RomFs.Tree
import Mathlib.Data.List.Nodup

/-!
# Paths and the names on them

A path is made of the names on the way from the root. Where names are not empty and have no slash in
them, different ways have different paths, so a tree in which no directory has two directories or two
files of one name has a path of its own for each of them.

Results:
* `walkPath_eq_absolutePath_iff`: when the path that the walk builds name by name is the path of the
  names.
* `absolutePath_injective`: different names, different paths.
* `Hierarchy.WellNamed.folders_nodup`, `Hierarchy.WellNamed.leaves_nodup`: the ways to the
  directories and files of a tree are different.
* `normalize_eq_absolutePath_iff`: what a look-up by path compares.
-/

namespace Cartridge.RomFs

/-- A name that can stand between slashes. -/
structure Proper (name : String) : Prop where
  ne_empty : name ≠ ""
  no_slash : '/' ∉ name.toList

/-! ## Paths of names -/

theorem toList_absolutePath (names : List String) :
    (absolutePath names).toList = '/' :: ['/'].intercalate (names.map String.toList) := by
  rw [absolutePath, String.toList_append, String.toList_intercalate]
  rfl

theorem absolutePath_concat {names : List String} (hnames : names ≠ []) (name : String) :
    absolutePath (names ++ [name]) = absolutePath names ++ "/" ++ name := by
  rw [absolutePath, String.intercalate_append_of_ne_nil hnames (List.cons_ne_nil _ _),
    String.intercalate_singleton, absolutePath, String.append_assoc, String.append_assoc,
    String.append_assoc]

theorem absolutePath_singleton (name : String) : absolutePath [name] = "/" ++ name := by
  rw [absolutePath, String.intercalate_singleton]

/-- The root's path is also that of one empty name. -/
theorem absolutePath_eq_slash_iff {names : List String} :
    absolutePath names = "/" ↔ names = [] ∨ names = [""] := by
  constructor
  · intro h
    have hlist := congrArg String.toList h
    rw [toList_absolutePath] at hlist
    have htail := (List.cons.inj hlist).2
    match names with
    | [] => exact .inl rfl
    | [name] =>
      have hname : name.toList = [] := by simpa [List.intercalate] using htail
      rw [String.toList_eq_nil_iff.mp hname]
      exact .inr rfl
    | name :: next :: rest => simp [List.intercalate] at htail
  · rintro (rfl | rfl)
    · rfl
    · decide

/-- Names that are not empty make up more than nothing. -/
theorem absolutePath_eq_root_iff {names : List String} (hproper : ∀ n ∈ names, Proper n) :
    absolutePath names = "/" ↔ names = [] := by
  rw [absolutePath_eq_slash_iff]
  refine or_iff_left ?_
  rintro rfl
  exact (hproper "" (List.mem_singleton_self _)).ne_empty rfl

/-! ## Paths built name by name -/

theorem length_joinPath (dir name : String) :
    (joinPath dir name).length =
      if dir = "/" then 1 + name.length else dir.length + 1 + name.length := by
  unfold joinPath
  split
  · rw [String.length_append]
    rfl
  · rw [String.length_append, String.length_append]
    rfl

theorem length_absolutePath_concat {names : List String} (hnames : names ≠ []) (name : String) :
    (absolutePath (names ++ [name])).length = (absolutePath names).length + 1 + name.length := by
  rw [absolutePath_concat hnames, String.length_append, String.length_append]
  rfl

/-- A path built name by name is not longer than the path of the names. -/
theorem length_walkPath_le (names : List String) :
    (walkPath names).length ≤ (absolutePath names).length := by
  induction names using List.reverseRecOn with
  | nil => exact Nat.le_refl _
  | append_singleton names name ih =>
    rw [walkPath_concat, length_joinPath]
    by_cases hroot : names = []
    · subst hroot
      rw [List.nil_append, absolutePath_singleton, String.length_append]
      exact Nat.le_refl _
    · rw [length_absolutePath_concat hroot]
      split <;> omega

/-- The way goes through a directory without a name in the root and further down. -/
def PassesNameless (names : List String) : Prop := ∃ name rest, names = "" :: name :: rest

theorem not_passesNameless_of_proper {names : List String} (hproper : ∀ n ∈ names, Proper n) :
    ¬ PassesNameless names := by
  rintro ⟨name, rest, rfl⟩
  exact (hproper "" List.mem_cons_self).ne_empty rfl

/-- An empty name in front adds nothing to a path built name by name. -/
theorem walkPath_nameless (names : List String) : walkPath ("" :: names) = walkPath names := by
  have hpath : joinPath "/" "" = "/" := by decide
  rw [walkPath, List.foldl_cons, hpath, walkPath]

/-- It adds a slash to the path of the names. -/
theorem length_absolutePath_nameless {names : List String} (hnames : names ≠ []) :
    (absolutePath ("" :: names)).length = 1 + (absolutePath names).length := by
  rw [absolutePath, String.intercalate_cons_of_ne_nil hnames, String.empty_append,
    String.length_append]
  rfl

theorem PassesNameless.length_walkPath_lt {names : List String} (h : PassesNameless names) :
    (walkPath names).length < (absolutePath names).length := by
  obtain ⟨name, rest, rfl⟩ := h
  have hle := length_walkPath_le (name :: rest)
  rw [walkPath_nameless, length_absolutePath_nameless (List.cons_ne_nil _ _)]
  omega

/-- **The path that the walk builds name by name is the path of the names**, except below a directory
without a name in the root. -/
theorem walkPath_eq_absolutePath_iff {names : List String} :
    walkPath names = absolutePath names ↔ ¬ PassesNameless names := by
  constructor
  · intro heq hpasses
    have hlt := hpasses.length_walkPath_lt
    rw [heq] at hlt
    exact Nat.lt_irrefl _ hlt
  · intro h
    induction names using List.reverseRecOn with
    | nil => rfl
    | append_singleton names name ih =>
      have hnames : ¬ PassesNameless names := by
        rintro ⟨next, rest, rfl⟩
        exact h ⟨next, rest ++ [name], rfl⟩
      rw [walkPath_concat, ih hnames, joinPath]
      by_cases hroot : names = []
      · subst hroot
        rfl
      · have hpath : absolutePath names ≠ "/" := by
          intro hpath
          rcases absolutePath_eq_slash_iff.mp hpath with rfl | rfl
          · exact hroot rfl
          · exact h ⟨name, [], rfl⟩
        rw [if_neg hpath, absolutePath_concat hroot]

/-- The path that the walk builds name by name. -/
theorem walkPath_eq_absolutePath {names : List String} (hproper : ∀ n ∈ names, Proper n) :
    walkPath names = absolutePath names :=
  walkPath_eq_absolutePath_iff.mpr (not_passesNameless_of_proper hproper)

/-- One more name does not make two different paths the same. -/
theorem joinPath_walkPath_eq_iff {names : List String} {name : String} :
    joinPath (walkPath names) name = joinPath (absolutePath names) name ↔
      ¬ PassesNameless names := by
  constructor
  · intro heq hpasses
    have hlt := hpasses.length_walkPath_lt
    have hpath : absolutePath names ≠ "/" := by
      obtain ⟨next, rest, rfl⟩ := hpasses
      intro hpath
      rcases absolutePath_eq_slash_iff.mp hpath with h | h <;> cases h
    have hlength := congrArg String.length heq
    rw [length_joinPath, length_joinPath, if_neg hpath] at hlength
    split at hlength <;> omega
  · intro h
    rw [walkPath_eq_absolutePath_iff.mpr h]

/-! ## Paths of proper names -/

/-- The names on a path are what is between its slashes. -/
theorem splitOn_tail_absolutePath {names : List String} (hproper : ∀ n ∈ names, Proper n)
    (hnames : names ≠ []) :
    (absolutePath names).toList.tail.splitOn '/' = names.map String.toList := by
  rw [toList_absolutePath, List.tail_cons]
  refine List.splitOn_intercalate '/' ?_ (mt List.map_eq_nil_iff.mp hnames)
  intro chars hchars
  obtain ⟨name, hname, rfl⟩ := List.mem_map.mp hchars
  exact (hproper name hname).no_slash

/-- **Different names, different paths.** -/
theorem absolutePath_injective {names names' : List String} (hproper : ∀ n ∈ names, Proper n)
    (hproper' : ∀ n ∈ names', Proper n) (h : absolutePath names = absolutePath names') :
    names = names' := by
  by_cases hroot : names = []
  · subst hroot
    exact ((absolutePath_eq_root_iff hproper').mp h.symm).symm
  · have hroot' : names' ≠ [] := by
      rintro rfl
      exact hroot ((absolutePath_eq_root_iff hproper).mp h)
    have hsplit := splitOn_tail_absolutePath hproper hroot
    rw [h, splitOn_tail_absolutePath hproper' hroot'] at hsplit
    exact ((List.map_inj_right fun _ _ => String.toList_inj.mp).mp hsplit).symm

theorem nodup_map_absolutePath {ways : List (List String)}
    (hproper : ∀ names ∈ ways, ∀ n ∈ names, Proper n) (h : ways.Nodup) :
    (ways.map absolutePath).Nodup :=
  h.map_on fun names hmem names' hmem' =>
    absolutePath_injective (hproper names hmem) (hproper names' hmem')

/-! ## Well-named trees -/

/-- The names in a directory: they are proper, and no two directories and no two files have one. -/
structure NamesIn (dirs files : List String) : Prop where
  dirs_proper : ∀ n ∈ dirs, Proper n
  dirs_nodup : dirs.Nodup
  files_proper : ∀ n ∈ files, Proper n
  files_nodup : files.Nodup

namespace Forest

/-- The names of the directories that are next to each other. -/
def names : Forest → List String
  | nil => []
  | cons _ name _ _ rest => name :: rest.names

/-- What is in each of the directories and below them is well named. -/
def WellNamed : Forest → Prop
  | nil => True
  | cons _ _ files below rest =>
    NamesIn below.names (files.map Leaf.name) ∧ below.WellNamed ∧ rest.WellNamed

/-- The way to a directory goes through one of the directories that are next to each other. -/
theorem exists_of_mem_folders {forest : Forest} {above : List String} {d : Folder}
    (h : d ∈ forest.folders above) :
    ∃ name ∈ forest.names, ∃ more, d.names = above ++ name :: more := by
  induction forest generalizing above with
  | nil => cases h
  | cons place name files below rest ihBelow ihRest =>
    rcases List.mem_cons.mp h with rfl | h
    · exact ⟨name, List.mem_cons_self, [], rfl⟩
    · rcases List.mem_append.mp h with hbelow | hrest
      · obtain ⟨_, _, more, hnames⟩ := ihBelow hbelow
        rw [List.append_assoc] at hnames
        exact ⟨name, List.mem_cons_self, _, hnames⟩
      · obtain ⟨other, hother, more, hnames⟩ := ihRest hrest
        exact ⟨other, List.mem_cons_of_mem _ hother, more, hnames⟩

/-- The ways to the directories of a well-named forest are different. -/
theorem folders_nodup {forest : Forest} (hnames : forest.names.Nodup) (h : forest.WellNamed)
    (above : List String) : ((forest.folders above).map Folder.names).Nodup := by
  induction forest generalizing above with
  | nil => exact List.nodup_nil
  | cons place name files below rest ihBelow ihRest =>
    obtain ⟨hin, hbelow, hrest⟩ := h
    obtain ⟨hname, hrestNames⟩ := List.nodup_cons.mp hnames
    -- The ways through the first directory and those through the others part behind `above`.
    have hpart {d : Folder} (hd : d ∈ rest.folders above) (more : List String) :
        d.names ≠ above ++ name :: more := by
      intro heq
      obtain ⟨other, hother, more', hnames⟩ := exists_of_mem_folders hd
      rw [hnames] at heq
      cases List.append_cancel_left heq
      exact hname hother
    rw [folders, List.map_cons, List.map_append, List.nodup_cons]
    constructor
    · intro hmem
      rcases List.mem_append.mp hmem with hmem | hmem
      · obtain ⟨d, hd, heq⟩ := List.mem_map.mp hmem
        obtain ⟨other, -, more, hnames⟩ := exists_of_mem_folders hd
        rw [hnames] at heq
        simp at heq
      · obtain ⟨d, hd, heq⟩ := List.mem_map.mp hmem
        exact hpart hd [] heq
    · refine List.nodup_append.mpr ⟨ihBelow hin.dirs_nodup hbelow _, ihRest hrestNames hrest _, ?_⟩
      intro names hmem names' hmem' heq
      obtain ⟨d, hd, rfl⟩ := List.mem_map.mp hmem
      obtain ⟨d', hd', rfl⟩ := List.mem_map.mp hmem'
      obtain ⟨other, -, more, hnames⟩ := exists_of_mem_folders hd
      rw [List.append_assoc] at hnames
      exact hpart hd' _ (heq.symm.trans hnames)

/-- The names on the ways are proper, and so are those of the files, which are different in each
directory. -/
theorem WellNamed.of_mem_folders {forest : Forest} (h : forest.WellNamed) {above : List String}
    (habove : ∀ n ∈ above, Proper n) (hnames : ∀ n ∈ forest.names, Proper n) {d : Folder}
    (hd : d ∈ forest.folders above) :
    (∀ n ∈ d.names, Proper n) ∧ (∀ leaf ∈ d.files, Proper leaf.name) ∧
      (d.files.map Leaf.name).Nodup := by
  induction forest generalizing above with
  | nil => cases hd
  | cons place name files below rest ihBelow ihRest =>
    obtain ⟨hin, hbelow, hrest⟩ := h
    have hway : ∀ n ∈ above ++ [name], Proper n := by
      intro n hn
      rcases List.mem_append.mp hn with hn | hn
      · exact habove n hn
      · rw [List.mem_singleton.mp hn]
        exact hnames name List.mem_cons_self
    rcases List.mem_cons.mp hd with rfl | hd
    · exact ⟨hway, fun leaf hleaf => hin.files_proper _ (List.mem_map_of_mem hleaf),
        hin.files_nodup⟩
    · rcases List.mem_append.mp hd with hd | hd
      · exact ihBelow hbelow hway hin.dirs_proper hd
      · exact ihRest hrest habove (fun n hn => hnames n (List.mem_cons_of_mem _ hn)) hd

end Forest

namespace Hierarchy

/-- What is in each directory of the tree is well named. -/
structure WellNamed (T : Hierarchy) : Prop where
  root : NamesIn T.dirs.names (T.files.map Leaf.name)
  below : T.dirs.WellNamed

namespace WellNamed

variable {T : Hierarchy}

theorem of_mem_folders (h : T.WellNamed) {d : Folder} (hd : d ∈ T.folders) :
    (∀ n ∈ d.names, Proper n) ∧ (∀ leaf ∈ d.files, Proper leaf.name) ∧
      (d.files.map Leaf.name).Nodup := by
  rcases List.mem_cons.mp hd with rfl | hd
  · exact ⟨by simp, fun leaf hleaf => h.root.files_proper _ (List.mem_map_of_mem hleaf),
      h.root.files_nodup⟩
  · exact h.below.of_mem_folders (by simp) h.root.dirs_proper hd

/-- **The ways to the directories are different.** -/
theorem folders_nodup (h : T.WellNamed) : (T.folders.map Folder.names).Nodup := by
  rw [folders, List.map_cons, List.nodup_cons]
  refine ⟨?_, Forest.folders_nodup h.root.dirs_nodup h.below []⟩
  intro hmem
  obtain ⟨d, hd, heq⟩ := List.mem_map.mp hmem
  obtain ⟨name, -, more, hnames⟩ := Forest.exists_of_mem_folders hd
  rw [heq] at hnames
  cases hnames

theorem proper_of_mem_leaves (h : T.WellNamed) {entry : List String × Leaf}
    (hentry : entry ∈ T.leaves) : ∀ n ∈ entry.1, Proper n := by
  obtain ⟨d, hd, hleaf⟩ := List.mem_flatMap.mp hentry
  obtain ⟨leaf, hmem, rfl⟩ := List.mem_map.mp hleaf
  obtain ⟨hway, hfiles, -⟩ := h.of_mem_folders hd
  intro n hn
  rcases List.mem_append.mp hn with hn | hn
  · exact hway n hn
  · rw [List.mem_singleton.mp hn]
    exact hfiles leaf hmem

/-- **The ways to the files are different.** -/
theorem leaves_nodup (h : T.WellNamed) : (T.leaves.map Prod.fst).Nodup := by
  rw [leaves, List.map_flatMap, List.nodup_flatMap]
  constructor
  · intro d hd
    have hnames := (h.of_mem_folders hd).2.2
    rw [Folder.leaves, List.map_map]
    have hconcat : Function.Injective fun name : String => d.names ++ [name] :=
      fun _ _ heq => List.singleton_inj.mp (List.append_cancel_left heq)
    have hmap := hnames.map hconcat
    rw [List.map_map] at hmap
    exact hmap
  · refine (List.pairwise_map.mp h.folders_nodup).imp ?_
    intro d d' hne names hmem hmem'
    simp only [Folder.leaves, List.map_map, List.mem_map, Function.comp_apply] at hmem hmem'
    obtain ⟨leaf, -, rfl⟩ := hmem
    obtain ⟨leaf', -, heq⟩ := hmem'
    exact hne (List.append_inj_left' heq rfl).symm

/-! ### Paths -/

/-- The paths of the directories are different. -/
theorem dirPaths_nodup (h : T.WellNamed) :
    (T.folders.map fun d => absolutePath d.names).Nodup := by
  have hpaths := nodup_map_absolutePath ?_ h.folders_nodup
  · rw [List.map_map] at hpaths
    exact hpaths
  · intro names hmem
    obtain ⟨d, hd, rfl⟩ := List.mem_map.mp hmem
    exact (h.of_mem_folders hd).1

/-- The paths of the files are different. -/
theorem filePaths_nodup (h : T.WellNamed) :
    (T.leaves.map fun entry => absolutePath entry.1).Nodup := by
  have hpaths := nodup_map_absolutePath ?_ h.leaves_nodup
  · rw [List.map_map] at hpaths
    exact hpaths
  · intro names hmem
    obtain ⟨entry, hentry, rfl⟩ := List.mem_map.mp hmem
    exact h.proper_of_mem_leaves hentry

/-- A walk finds the directories under their paths. -/
theorem found_paths_perm (h : T.WellNamed) :
    (T.found.map Prod.fst).Perm (T.folders.map fun d => absolutePath d.names) := by
  have hpaths : (T.folders.map fun d => (walkPath d.names, d.place)).map Prod.fst =
      T.folders.map fun d => absolutePath d.names := by
    rw [List.map_map]
    exact List.map_congr_left fun d hd => walkPath_eq_absolutePath (h.of_mem_folders hd).1
  rw [← hpaths]
  exact T.found_perm.map Prod.fst

/-- A walk finds the files under their paths. -/
theorem foundFiles_eq (h : T.WellNamed) :
    T.foundFiles = T.leaves.map fun entry => (absolutePath entry.1, entry.2) := by
  refine List.map_congr_left fun entry hentry => ?_
  rw [walkPath_eq_absolutePath (h.proper_of_mem_leaves hentry)]

end WellNamed

end Hierarchy

/-! ## Looking up a path -/

/-- A look-up compares a path without its outer slashes. -/
theorem normalize_eq_absolutePath_iff {path : String} {names : List String} :
    Tree.normalize path = absolutePath names ↔
      Tree.trimSlashes path.toList = ("/".intercalate names).toList := by
  have hlist : (absolutePath names).toList = '/' :: ("/".intercalate names).toList := by
    rw [absolutePath, String.toList_append]
    rfl
  rw [← String.toList_inj, hlist, Tree.normalize, String.toList_ofList, List.cons.injEq]
  exact and_iff_right rfl

end Cartridge.RomFs
