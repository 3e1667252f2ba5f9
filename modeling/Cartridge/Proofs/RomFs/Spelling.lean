import Cartridge.Proofs.RomFs.Buckets
import Cartridge.Proofs.RomFs.EntryPaths
import Cartridge.Proofs.RomFs.Lookup
import Mathlib.Data.List.Infix

/-!
# Spellings of a path

The catalog has a file under one spelling of its path. A look-up by path takes the outer slashes off,
puts one in front and compares what it has then with the spellings in the catalog. A look-up through
the hash buckets takes the path apart into names, so it makes no difference how many slashes stand
between them.

Where names are proper, the spelling in the catalog is that of the names, and the two look-ups differ
on the paths with two slashes in a row between names: the hash buckets lead to the file, and the
catalog does not have the path. Where names are not proper, a path in the catalog can begin with two
slashes or end with one, and a look-up by path of that very path compares another one.

Results:
* `normalize_eq_absolutePath_pathNames_iff`: which paths are compared as the path of their names.
* `Tree.findFile?_eq_find?`: the hash buckets lead where the catalog leads from the path of the names.
* `Image.file_iff_findFile?`: the two look-ups agree on the paths without two slashes in a row.
* `Image.listed_file_iff`: which of the paths that an image lists lead to the file they are listed for.
-/

namespace Cartridge.RomFs

/-! ## Slashes in a row -/

/-- Between the names on a path there are two slashes in a row. -/
def DoubleSlashed (path : String) : Prop := ['/', '/'] <:+: Tree.trimSlashes path.toList

instance (path : String) : Decidable (DoubleSlashed path) :=
  inferInstanceAs (Decidable (_ <:+: _))

theorem not_mem_of_mem_splitOn {c : Char} {chars segment : List Char}
    (h : segment ∈ chars.splitOn c) : c ∉ segment := by
  induction chars generalizing segment with
  | nil =>
    rw [List.splitOn_nil, List.mem_singleton] at h
    rw [h]
    exact List.not_mem_nil
  | cons first rest ih =>
    rw [List.splitOn_cons_eq_if_modifyHead] at h
    split at h
    · rcases List.mem_cons.mp h with rfl | h
      · exact List.not_mem_nil
      · exact ih h
    · rename_i hfirst
      cases hsplit : rest.splitOn c with
      | nil =>
        rw [hsplit] at h
        cases h
      | cons front others =>
        rw [hsplit] at h ih
        rcases List.mem_cons.mp h with rfl | h
        · refine List.not_mem_cons_of_ne_of_not_mem ?_ (ih List.mem_cons_self)
          rintro rfl
          exact hfirst (beq_self_eq_true c)
        · exact ih (List.mem_cons_of_mem _ h)

theorem proper_of_mem_pathNames {path name : String} (h : name ∈ pathNames path) : Proper name := by
  obtain ⟨segment, hsegment, rfl⟩ := List.mem_map.mp h
  obtain ⟨hmem, hne⟩ := List.mem_filter.mp hsegment
  constructor
  · intro hempty
    rw [String.ofList_eq_empty_iff] at hempty
    rw [hempty] at hne
    cases hne
  · rw [String.toList_ofList]
    exact not_mem_of_mem_splitOn hmem

/-- An empty segment is in front, behind, or between two slashes in a row. -/
theorem infix_of_nil_mem_splitOn {chars : List Char} (h : [] ∈ chars.splitOn '/')
    (hne : chars ≠ []) (hhead : chars.head? ≠ some '/') (hlast : chars.getLast? ≠ some '/') :
    ['/', '/'] <:+: chars := by
  obtain ⟨front, back, hsplit⟩ := List.append_of_mem h
  have hjoin := @List.intercalate_splitOn _ chars _ _ '/'
  rw [hsplit] at hjoin
  by_cases hfront : front = []
  · subst hfront
    by_cases hback : back = []
    · subst hback
      exact absurd hjoin.symm hne
    · rw [List.nil_append, List.intercalate_cons_of_ne_nil hback] at hjoin
      rw [← hjoin] at hhead
      exact absurd rfl hhead
  · by_cases hback : back = []
    · subst hback
      rw [Tree.intercalate_concat_nil '/' hfront] at hjoin
      rw [← hjoin, List.getLast?_concat] at hlast
      exact absurd rfl hlast
    · rw [Tree.intercalate_append ['/'] hfront (List.cons_ne_nil _ _),
        List.intercalate_cons_of_ne_nil hback] at hjoin
      refine ⟨['/'].intercalate front, ['/'].intercalate back, ?_⟩
      rw [← hjoin]
      simp

theorem nil_mem_splitOn_of_infix {chars : List Char} (h : ['/', '/'] <:+: chars) :
    [] ∈ chars.splitOn '/' := by
  obtain ⟨front, back, rfl⟩ := h
  rw [List.append_assoc, List.cons_append, List.splitOn_append_cons_self, List.cons_append,
    List.nil_append, List.splitOn_cons_eq_if_modifyHead, if_pos (beq_self_eq_true '/')]
  exact List.mem_append_right _ List.mem_cons_self

/-- **A look-up compares the path of the names on a path**, unless two slashes in a row stand between
them. -/
theorem normalize_eq_absolutePath_pathNames_iff {path : String} :
    Tree.normalize path = absolutePath (pathNames path) ↔ ¬ DoubleSlashed path := by
  have hnames : (pathNames path).map String.toList =
      ((Tree.trimSlashes path.toList).splitOn '/').filter fun s => !s.isEmpty := by
    rw [← Tree.components_eq_pathNames, ← Tree.components_trimSlashes, Tree.components,
      Tree.segments_eq_splitOn, List.map_map]
    simp [Function.comp_def]
  rw [normalize_eq_absolutePath_iff, String.toList_intercalate, hnames, DoubleSlashed]
  generalize hchars : Tree.trimSlashes path.toList = chars
  constructor
  · intro hjoin hdouble
    have hmem := nil_mem_splitOn_of_infix hdouble
    by_cases hnone : (chars.splitOn '/').filter (fun s => !s.isEmpty) = []
    · rw [hnone] at hjoin
      rw [hjoin] at hdouble
      exact absurd (List.infix_nil.mp hdouble) (List.cons_ne_nil _ _)
    · -- What was put together of names without slashes falls apart into these again.
      have hsplit := List.splitOn_intercalate '/' (fun segment hsegment =>
        not_mem_of_mem_splitOn (List.mem_filter.mp hsegment).1) hnone
      change chars = ['/'].intercalate _ at hjoin
      rw [← hjoin] at hsplit
      rw [hsplit] at hmem
      cases (List.mem_filter.mp hmem).2
  · intro hdouble
    by_cases hempty : chars = []
    · subst hempty
      rfl
    · have hkept : (chars.splitOn '/').filter (fun s => !s.isEmpty) = chars.splitOn '/' := by
        refine List.filter_eq_self.mpr fun segment hsegment => ?_
        have hne : segment ≠ [] := by
          rintro rfl
          refine hdouble (infix_of_nil_mem_splitOn hsegment hempty ?_ ?_)
          · rw [← hchars]
            exact Tree.head?_trimSlashes_ne _
          · rw [← hchars]
            exact Tree.getLast?_trimSlashes_ne _
        simpa using hne
      rw [hkept]
      exact (List.intercalate_splitOn '/').symm

/-! ## Paths of proper names -/

/-- Names without slashes are the names on their path. -/
theorem pathNames_absolutePath {names : List String} (hproper : ∀ n ∈ names, Proper n) :
    pathNames (absolutePath names) = names := by
  by_cases hnames : names = []
  · subst hnames
    decide
  · obtain ⟨tail, htail⟩ : ∃ tail, (absolutePath names).toList = '/' :: tail :=
      ⟨_, toList_absolutePath names⟩
    have hsplit := splitOn_tail_absolutePath hproper hnames
    rw [htail, List.tail_cons] at hsplit
    have hkept : (names.map String.toList).filter (fun s => !s.isEmpty) =
        names.map String.toList := by
      refine List.filter_eq_self.mpr fun segment hsegment => ?_
      obtain ⟨name, hname, rfl⟩ := List.mem_map.mp hsegment
      have hne := mt String.toList_eq_nil_iff.mp (hproper name hname).ne_empty
      simpa using hne
    rw [← Tree.components_eq_pathNames, htail]
    refine (Tree.components_append_slash [] tail).trans ?_
    rw [Tree.components, Tree.components, Tree.segments_eq_splitOn, Tree.segments_eq_splitOn,
      hsplit, hkept, List.map_map]
    simp [Function.comp_def]

/-- What is compared as the path of proper names has these names on it. -/
theorem pathNames_of_normalize_eq {path : String} {names : List String}
    (hproper : ∀ n ∈ names, Proper n) (h : Tree.normalize path = absolutePath names) :
    pathNames path = names := by
  rw [← pathNames_absolutePath hproper, ← h, ← Tree.components_eq_pathNames,
    ← Tree.components_eq_pathNames, Tree.normalize, String.toList_ofList]
  refine Eq.trans ?_ (Tree.components_append_slash [] _).symm
  exact (Tree.components_trimSlashes _).symm

/-- On the path of proper names no two slashes follow each other. -/
theorem not_doubleSlashed_absolutePath {names : List String} (hproper : ∀ n ∈ names, Proper n) :
    ¬ DoubleSlashed (absolutePath names) := by
  intro hdouble
  rw [DoubleSlashed, toList_absolutePath] at hdouble
  have htrim (chars : List Char) : Tree.trimSlashes ('/' :: chars) <:+: chars :=
    (List.rdropWhile_prefix _ (chars.dropWhile _)).isInfix.trans (List.dropWhile_suffix _).isInfix
  have hmem := nil_mem_splitOn_of_infix (hdouble.trans (htrim _))
  by_cases hnames : names = []
  · subst hnames
    exact absurd (List.infix_nil.mp (hdouble.trans (htrim _))) (List.cons_ne_nil _ _)
  · have hsplit := splitOn_tail_absolutePath hproper hnames
    rw [toList_absolutePath, List.tail_cons] at hsplit
    rw [hsplit] at hmem
    obtain ⟨name, hname, hempty⟩ := List.mem_map.mp hmem
    exact (hproper name hname).ne_empty (String.toList_eq_nil_iff.mp hempty)

/-! ## The two look-ups -/

namespace Tree

variable {t : Tree} {path : String} {names : List String} {id : Nat}

/-- All directories but the root and all files have proper names. -/
structure ProperlyNamed (t : Tree) : Prop where
  dir : ∀ {id : Nat} {d : Directory}, t.dir? id = some d → d.parent ≠ none → Proper d.name
  file : ∀ {id : Nat} {f : File}, t.file? id = some f → Proper f.name

theorem ProperlyNamed.leadsUp (h : t.ProperlyNamed) (hup : t.LeadsUp id names) :
    ∀ n ∈ names, Proper n := by
  induction hup with
  | root => exact fun n hn => absurd hn List.not_mem_nil
  | up hd hparent _ ih =>
    intro n hn
    rcases List.mem_append.mp hn with hn | hn
    · exact ih n hn
    · rw [List.mem_singleton.mp hn]
      exact h.dir hd (by rw [hparent]; exact Option.some_ne_none _)

theorem ProperlyNamed.leadsToFile (h : t.ProperlyNamed) (hway : t.LeadsToFile id names) :
    ∀ n ∈ names, Proper n := by
  obtain ⟨f, above, hf, habove, rfl⟩ := hway
  intro n hn
  rcases List.mem_append.mp hn with hn | hn
  · exact h.leadsUp habove n hn
  · rw [List.mem_singleton.mp hn]
    exact h.file hf

section LookUps

variable (hregistered : t.Registered) (hhashed : t.WellHashed) (hrooted : t.Rooted)
  (hrecorded : t.Recorded t.dirTable t.fileTable) (hnames : t.ProperlyNamed)

include hhashed hrooted hrecorded

/-- In a well-hashed tree the same names lead to one file at most. -/
theorem leadsToFile_unique {id' : Nat} (h : t.LeadsToFile id names)
    (h' : t.LeadsToFile id' names) : id = id' := by
  obtain ⟨f, above, hf, habove, rfl⟩ := h
  obtain ⟨f', above', hf', habove', hsame⟩ := h'
  obtain ⟨rfl, hname⟩ := List.append_inj' hsame rfl
  have hparent := (hhashed.findByNames?_eq_some_iff hrooted hrecorded).mpr
    (Arena.namesTo?_eq_some_iff.mpr habove)
  rw [(hhashed.findByNames?_eq_some_iff hrooted hrecorded).mpr
    (Arena.namesTo?_eq_some_iff.mpr habove')] at hparent
  exact hhashed.file_unique hf hf' (Option.some.inj hparent).symm (List.singleton_inj.mp hname)

theorem findFile?_eq_some_iff : t.findFile? path = some id ↔ t.LeadsToFile id (pathNames path) := by
  rw [(hhashed.exact hrooted hrecorded).findFile?]
  simp only [Arena.LeadsToFile, Arena.namesTo?_eq_some_iff]

include hregistered hnames

/-- **The hash buckets lead where the catalog leads** from the path of the names. -/
theorem findFile?_eq_find? (path : String) :
    t.findFile? path = t.fileEntries.find? (absolutePath (pathNames path)) := by
  have hsame {i : Nat} {names : List String} (hway : t.LeadsToFile i names) :
      walkPath names = absolutePath (pathNames path) ↔ names = pathNames path := by
    have hproper := hnames.leadsToFile hway
    rw [walkPath_eq_absolutePath hproper]
    exact ⟨absolutePath_injective hproper fun _ => proper_of_mem_pathNames, congrArg absolutePath⟩
  ext id
  rw [findFile?_eq_some_iff hhashed hrooted hrecorded, hregistered.find?_file_iff]
  constructor
  · intro hway
    refine ⟨⟨_, hway, (hsame hway).mpr rfl⟩, ?_⟩
    rintro id' ⟨names, hway', hpath⟩
    rw [(hsame hway').mp hpath] at hway'
    exact Nat.le_of_eq (leadsToFile_unique hhashed hrooted hrecorded hway' hway)
  · rintro ⟨⟨names, hway, hpath⟩, -⟩
    rw [← (hsame hway).mp hpath]
    exact hway

/-- **The two look-ups find the same file**, but on a path with two slashes in a row between names
the look-up by path finds none. -/
theorem file_eq_ok_iff_findFile? {f : File} :
    t.file path = .ok f ↔
      (∃ id, t.findFile? path = some id ∧ t.file? id = some f) ∧ ¬ DoubleSlashed path := by
  rw [file_eq_ok_iff, Option.bind_eq_some_iff,
    findFile?_eq_find? hregistered hhashed hrooted hrecorded hnames]
  by_cases hdouble : DoubleSlashed path
  · refine iff_of_false ?_ fun h => h.2 hdouble
    rintro ⟨id, hfind, -⟩
    obtain ⟨⟨names, hway, hpath⟩, -⟩ := hregistered.find?_file_iff.mp hfind
    have hproper := hnames.leadsToFile hway
    rw [walkPath_eq_absolutePath hproper] at hpath
    rw [← pathNames_of_normalize_eq hproper hpath.symm] at hpath
    exact normalize_eq_absolutePath_pathNames_iff.mp hpath.symm hdouble
  · rw [normalize_eq_absolutePath_pathNames_iff.mpr hdouble]
    exact (and_iff_left hdouble).symm

end LookUps

end Tree

section Images

variable {media : Media} {view : View} {t : Tree} {i : Image}

/-- A look-up by path in a parsed image is a look-up in its tree. -/
theorem Image.exists_outcome_file_iff
    (h : (Image.tree media).outcome (.ofView view) = (.ok t, i)) {path : String} {f : File} :
    (∃ i', (Image.file media path).outcome i = (.ok f, i')) ↔ t.file path = .ok f := by
  obtain ⟨hi, hread⟩ := Image.sound_of_outcome_tree h
  obtain ⟨i', hfile, -⟩ := hi.outcome_file hread path
  rw [hfile]
  constructor
  · rintro ⟨i'', heq⟩
    exact congrArg Prod.fst heq
  · intro hf
    exact ⟨i', by rw [hf]⟩

/-- **The two look-ups of a file agree** in an image whose names are proper and whose hash buckets have
everything in its place, on every path without two slashes in a row between names. On the others the
look-up by path finds nothing, and the hash buckets lead to the file of the path of the names. -/
theorem Image.file_iff_findFile? (h : (Image.tree media).outcome (.ofView view) = (.ok t, i))
    (hhashed : t.WellHashed) (hnames : t.ProperlyNamed) (path : String) :
    (∀ f : File, (∃ i', (Image.file media path).outcome i = (.ok f, i')) ↔
      (∃ id, t.findFile? path = some id ∧ t.file? id = some f) ∧ ¬ DoubleSlashed path) ∧
    ∀ id : Nat, t.findFile? path = some id ↔
      ∃ f, t.file? id = some f ∧
        ∃ i', (Image.file media (absolutePath (pathNames path))).outcome i = (.ok f, i') := by
  obtain ⟨_, _, -, hwalk⟩ := Tree.read_eq_ok (Image.read_of_outcome_tree h)
  have hrooted := (Arena.consistent_of_walk hwalk).rooted
  have hrecorded := Arena.recorded_of_walk hwalk
  have hregistered := Arena.registered_of_walk hwalk
  have hagree {path : String} {f : File} : t.file path = .ok f ↔
      (∃ id, t.findFile? path = some id ∧ t.file? id = some f) ∧ ¬ DoubleSlashed path :=
    Tree.file_eq_ok_iff_findFile? hregistered hhashed hrooted hrecorded hnames
  simp only [Image.exists_outcome_file_iff h]
  refine ⟨fun f => hagree, fun id => ?_⟩
  have hproper : ∀ n ∈ pathNames path, Proper n := fun _ => proper_of_mem_pathNames
  have hsame : t.findFile? (absolutePath (pathNames path)) = t.findFile? path := by
    rw [Tree.findFile?_eq, Tree.findFile?_eq, pathNames_absolutePath hproper]
  simp only [hagree, hsame]
  constructor
  · intro hfind
    obtain ⟨f, -, hf, -⟩ :=
      (Tree.findFile?_eq_some_iff hhashed hrooted hrecorded).mp hfind
    exact ⟨f, hf, ⟨id, hfind, hf⟩, not_doubleSlashed_absolutePath hproper⟩
  · rintro ⟨f, hf, ⟨id', hfind, hf'⟩, -⟩
    rw [hrooted.id_eq_of_file?_eq hf hf']
    exact hfind

end Images

namespace Colliding

theorem properlyNamed_tree : tree.ProperlyNamed where
  dir := by
    intro id d hd hparent
    rcases dir?_tree hd with ⟨-, rfl⟩ | ⟨-, rfl⟩
    · exact absurd rfl hparent
    · exact ⟨by decide, by decide⟩
  file := by
    intro id f hf
    rcases file?_tree hf with ⟨-, rfl⟩ | ⟨-, rfl⟩
    · exact ⟨by decide, by decide⟩
    · exact ⟨by decide, by decide⟩

theorem file_iff_findFile?_tree :
    ∃ i, (Image.tree parts.media).outcome (.ofView parts.view) = (.ok tree, i) ∧
      tree.WellHashed ∧ tree.ProperlyNamed ∧
      (∃ i', (Image.file parts.media "a/f/").outcome i = (.ok ⟨"f", 1, 2, 2, 0x21⟩, i')) ∧
      ∃ f, tree.file? 1 = some f ∧ ∃ i',
        (Image.file parts.media (absolutePath (pathNames "/a//f"))).outcome i = (.ok f, i') := by
  obtain ⟨i, h⟩ := fits_parts.outcome_tree walk_parts
  obtain ⟨hfile, -⟩ := Image.file_iff_findFile? h wellHashed_tree properlyNamed_tree "a/f/"
  obtain ⟨-, hfind⟩ := Image.file_iff_findFile? h wellHashed_tree properlyNamed_tree "/a//f"
  exact ⟨i, h, wellHashed_tree, properlyNamed_tree,
    (hfile _).mpr ⟨⟨1, rfl, rfl⟩, by decide⟩, (hfind 1).mp rfl⟩

/-- **The hash buckets lead to a file that is not found by the same path**, which has two slashes in a
row between its names. -/
theorem file_of_doubleSlashed :
    ∃ i f i', (Image.tree parts.media).outcome (.ofView parts.view) = (.ok tree, i) ∧
      tree.WellHashed ∧ tree.ProperlyNamed ∧ tree.findFile? "/a//f" = some 1 ∧
      tree.file? 1 = some f ∧
      (Image.file parts.media "/a//f").outcome i = (.error (.entryNotFound "/a//f"), i') := by
  obtain ⟨i, h⟩ := fits_parts.outcome_tree walk_parts
  obtain ⟨hi, hread⟩ := Image.sound_of_outcome_tree h
  obtain ⟨i', hfile, -⟩ := hi.outcome_file hread "/a//f"
  exact ⟨i, ⟨"f", 1, 2, 2, 0x21⟩, i', h, wellHashed_tree, properlyNamed_tree, rfl, rfl, hfile⟩

end Colliding

/-! ## Listed paths -/

/-- A path does not begin with two slashes and does not end with one, or it is that of the root. -/
def Tidy (path : String) : Prop :=
  path = "/" ∨ ¬ ['/', '/'] <+: path.toList ∧ ¬ ['/'] <:+ path.toList

instance (path : String) : Decidable (Tidy path) := inferInstanceAs (Decidable (_ ∨ _ ∧ _))

theorem trimSlashes_eq_self_iff {chars : List Char} :
    Tree.trimSlashes chars = chars ↔ chars.head? ≠ some '/' ∧ chars.getLast? ≠ some '/' := by
  constructor
  · intro h
    rw [← h]
    exact ⟨Tree.head?_trimSlashes_ne chars, Tree.getLast?_trimSlashes_ne chars⟩
  · rintro ⟨hhead, hlast⟩
    have hfront : chars.dropWhile (· == '/') = chars := by
      rw [List.dropWhile_eq_self_iff]
      intro hlength hslash
      refine hhead ?_
      rw [List.head?_eq_getElem?, List.getElem?_eq_getElem hlength, beq_iff_eq.mp hslash]
    have hback : chars.rdropWhile (· == '/') = chars := by
      rw [List.rdropWhile_eq_self_iff]
      intro hne hslash
      refine hlast ?_
      rw [List.getLast?_eq_some_getLast hne, beq_iff_eq.mp hslash]
    calc Tree.trimSlashes chars
      _ = (chars.dropWhile (· == '/')).rdropWhile (· == '/') := rfl
      _ = chars := by rw [hfront, hback]

/-- A look-up of a path that begins with a slash compares the path itself exactly if it is tidy. -/
theorem normalize_eq_self_iff {path : String} (h : path.toList.head? = some '/') :
    Tree.normalize path = path ↔ Tidy path := by
  obtain ⟨rest, hrest⟩ := List.head?_eq_some_iff.mp h
  have htrim : Tree.normalize path = path ↔ Tree.trimSlashes rest = rest := by
    rw [← String.toList_inj, Tree.normalize, String.toList_ofList, hrest, List.cons.injEq]
    exact and_iff_right rfl
  have hroot : path = "/" ↔ rest = [] := by
    rw [← String.toList_inj, hrest]
    exact List.cons_inj_right '/'
  rw [htrim, Tidy, hroot, hrest]
  cases rest with
  | nil => exact iff_of_true rfl (.inl rfl)
  | cons c more =>
    have hfront : ['/', '/'] <+: '/' :: c :: more ↔ (c :: more).head? = some '/' := by
      simp [List.cons_prefix_cons, eq_comm]
    have hback : ['/'] <:+ '/' :: c :: more ↔ (c :: more).getLast? = some '/' := by
      rw [List.singleton_suffix_iff_getLast?_eq_some, List.getLast?_cons_cons]
    rw [trimSlashes_eq_self_iff, hfront, hback]
    exact (or_iff_right (List.cons_ne_nil c more)).symm

theorem head?_walkPath (names : List String) : (walkPath names).toList.head? = some '/' := by
  induction names using List.reverseRecOn with
  | nil => decide
  | append_singleton names name ih =>
    rw [walkPath_concat, joinPath]
    split
    · rw [String.toList_append, List.head?_append]
      rfl
    · rw [String.toList_append, String.toList_append, List.head?_append, List.head?_append, ih]
      rfl

/-- **A path in the catalog leads to its file exactly if it is tidy.** -/
theorem Tree.file_eq_ok_iff_tidy {t : Tree} (hregistered : t.Registered) (hrooted : t.Rooted)
    {path : String} {id : Nat} {f : File} (hfind : t.fileEntries.find? path = some id)
    (hf : t.file? id = some f) : t.file path = .ok f ↔ Tidy path := by
  obtain ⟨⟨names, hway, hpath⟩, -⟩ := hregistered.find?_file_iff.mp hfind
  have hhead := head?_walkPath names
  rw [hpath] at hhead
  rw [← normalize_eq_self_iff hhead, file_eq_ok_iff, Option.bind_eq_some_iff]
  constructor
  · rintro ⟨id', hfind', hf'⟩
    rw [hrooted.id_eq_of_file?_eq hf' hf] at hfind'
    obtain ⟨⟨names', hway', hpath'⟩, -⟩ := hregistered.find?_file_iff.mp hfind'
    rw [← hpath', hway'.unique hway, hpath]
  · intro h
    rw [h]
    exact ⟨id, hfind, hf⟩

/-- **Which listed paths lead to their files**: each path that a parsed image lists is that of a file,
and a look-up of the path gives that file exactly if the path is tidy. -/
theorem Image.listed_file_iff {media : Media} {view : View} {t : Tree} {i : Image}
    (h : (Image.tree media).outcome (.ofView view) = (.ok t, i)) :
    ∃ paths i', (Image.listFiles media).outcome i = (.ok paths, i') ∧
      ∀ path ∈ paths, ∃ id f, t.fileEntries.find? path = some id ∧ t.file? id = some f ∧
        ((∃ i'', (Image.file media path).outcome i = (.ok f, i'')) ↔ Tidy path) := by
  obtain ⟨_, _, -, hwalk⟩ := Tree.read_eq_ok (Image.read_of_outcome_tree h)
  obtain ⟨hi, hread⟩ := Image.sound_of_outcome_tree h
  obtain ⟨i', hlist⟩ := hi.outcome_listFiles hread
  refine ⟨_, i', hlist, ?_⟩
  intro path hmem
  rw [Catalog.mem_keys_iff, Catalog.contains] at hmem
  obtain ⟨id, hfind⟩ := Option.isSome_iff_exists.mp hmem
  have hregistered := Arena.registered_of_walk hwalk
  obtain ⟨⟨names, ⟨f, -, hf, -⟩, -⟩, -⟩ := hregistered.find?_file_iff.mp hfind
  refine ⟨id, f, hfind, hf, ?_⟩
  rw [Image.exists_outcome_file_iff h]
  exact Tree.file_eq_ok_iff_tidy hregistered (Arena.consistent_of_walk hwalk).rooted hfind hf

/-! ## A file without a name -/

namespace Unnamed

/-- The root has a directory and a file. -/
def root : DirectoryRecord := ⟨0, noLink, 0x18, 0, noLink, 0⟩

/-- A directory with a file. -/
def dir : DirectoryRecord := ⟨0, noLink, noLink, 0x21, noLink, 1⟩

/-- The file in the root has the same name as the directory. -/
def rootFile : FileRecord := ⟨0, noLink, 0, 2, noLink, 1⟩

/-- The file in the directory has none. -/
def dirFile : FileRecord := ⟨0x18, noLink, 2, 2, noLink, 0⟩

/-- A directory `a` and a file `a`, and a file without a name in the directory. -/
def parts : Parts where
  dirBuckets := []
  fileBuckets := []
  dirTable := DirectoryRecord.layout.encode root ++
    (DirectoryRecord.layout.encode dir ++ Utf8.encode "a")
  fileTable := FileRecord.layout.encode rootFile ++
    (Utf8.encode "a" ++ FileRecord.layout.encode dirFile)
  data := [1, 2, 3, 4]

/-- What the walk of the tables gives. -/
def arena : Arena :=
  ((Arena.ofRoot.addFile ⟨"a", 0, 0, 2, 0⟩ "/a").addChild 0 "a" 0x18 "/a").addFile
    ⟨"", 1, 2, 2, 0x21⟩ "/a/"

theorem walk_parts : walk parts.dirTable parts.fileTable = .ok arena := by
  have readRoot : readDirectory parts.dirTable 0 = .ok (root, "") := rfl
  have readDir : readDirectory parts.dirTable 0x18 = .ok (dir, "a") := rfl
  have readRootFile : readFile parts.fileTable 0 = .ok (rootFile, "a") := rfl
  have readDirFile : readFile parts.fileTable 0x21 = .ok (dirFile, "") := rfl
  have hrootFile : followFiles parts.fileTable ⟨0, "/", 0x18, 0⟩ 0 .ofRoot =
      .ok (Arena.ofRoot.addFile ⟨"a", 0, 0, 2, 0⟩ "/a") :=
    (followFiles_of_read (by decide) (by decide) readRootFile).trans (followFiles_noLink ..)
  have hdir : followChildren parts.dirTable ⟨0, "/", 0x18, 0⟩ 0x18
      (Arena.ofRoot.addFile ⟨"a", 0, 0, 2, 0⟩ "/a") =
      .ok ((Arena.ofRoot.addFile ⟨"a", 0, 0, 2, 0⟩ "/a").addChild 0 "a" 0x18 "/a",
        [⟨1, "/a", noLink, 0x21⟩]) :=
    followChildren_of_read (by decide) (by decide) readDir (followChildren_noLink ..)
  have hdirFile : followFiles parts.fileTable ⟨1, "/a", noLink, 0x21⟩ 0x21
      ((Arena.ofRoot.addFile ⟨"a", 0, 0, 2, 0⟩ "/a").addChild 0 "a" 0x18 "/a") = .ok arena :=
    (followFiles_of_read (by decide) (by decide) readDirFile).trans (followFiles_noLink ..)
  calc walk parts.dirTable parts.fileTable
    _ = visit parts.dirTable parts.fileTable [⟨0, "/", 0x18, 0⟩] .ofRoot := walk_of_read readRoot
    _ = visit parts.dirTable parts.fileTable [⟨1, "/a", noLink, 0x21⟩]
          ((Arena.ofRoot.addFile ⟨"a", 0, 0, 2, 0⟩ "/a").addChild 0 "a" 0x18 "/a") :=
        visit_of_follow hrootFile hdir
    _ = visit parts.dirTable parts.fileTable [] arena :=
        visit_of_follow hdirFile (followChildren_noLink ..)
    _ = .ok arena := visit_nil ..

theorem fits_parts : parts.Fits where
  dirHash := Nat.zero_le _
  fileHash := Nat.zero_le _
  dirTable := by decide
  fileTable := by decide
  image := by
    rw [show parts.image.length = 0xC6 from rfl]
    decide

/-- What parsing the image gives. -/
def tree : Tree := parts.tree arena

theorem listed_file_tree :
    ∃ i paths i', (Image.tree parts.media).outcome (.ofView parts.view) = (.ok tree, i) ∧
      (Image.listFiles parts.media).outcome i = (.ok paths, i') ∧
      ∀ path ∈ paths, ∃ id f, tree.fileEntries.find? path = some id ∧ tree.file? id = some f ∧
        ((∃ i'', (Image.file parts.media path).outcome i = (.ok f, i'')) ↔ Tidy path) := by
  obtain ⟨i, h⟩ := fits_parts.outcome_tree walk_parts
  obtain ⟨paths, i', hlist, hpaths⟩ := Image.listed_file_iff h
  exact ⟨i, paths, i', h, hlist, hpaths⟩

/-- **A listed path need not lead to its file**: without the slash at its end the path of the file
without a name is that of the file in the root. -/
theorem file_of_listed_ne :
    ∃ i paths i' i'', (Image.tree parts.media).outcome (.ofView parts.view) = (.ok tree, i) ∧
      (Image.listFiles parts.media).outcome i = (.ok paths, i') ∧ "/a/" ∈ paths ∧
      tree.fileEntries.find? "/a/" = some 1 ∧ tree.file? 1 = some ⟨"", 1, 2, 2, 0x21⟩ ∧
      (Image.file parts.media "/a/").outcome i = (.ok ⟨"a", 0, 0, 2, 0⟩, i'') := by
  obtain ⟨i, h⟩ := fits_parts.outcome_tree walk_parts
  obtain ⟨hi, hread⟩ := Image.sound_of_outcome_tree h
  obtain ⟨i', hlist⟩ := hi.outcome_listFiles hread
  obtain ⟨i'', hfile, -⟩ := hi.outcome_file hread "/a/"
  exact ⟨i, _, i', i'', h, hlist, by decide, by decide, rfl, hfile⟩

end Unnamed

end Cartridge.RomFs
