import Cartridge.Proofs.RomFs.Paths

/-!
# Looking up what is stored

An image in which a well-named tree is stored is parsed, and what can be looked up in it is the tree:
its paths are the keys, a path leads to the file that has it, and the file's data is the part of the
image that its record names. Nothing is lost and nothing is added, wherever the records lie.

Results:
* `Arena.Lists.find_file_iff`: a look-up finds what was found under a path.
* `Image.shows_of_stored`: an image in which a tree is stored shows that tree.
-/

namespace Cartridge.RomFs

/-! ## What an arena lists -/

namespace Arena.Lists

variable {a : Arena} {dirs : List (String × UInt32)} {files : List (String × Leaf)}

theorem dirEntries_perm (h : a.Lists dirs files) (hpaths : (dirs.map Prod.fst).Nodup) :
    a.dirEntries.keys.Perm (dirs.map Prod.fst) := by
  rw [h.dirEntries_eq]
  exact (List.perm_ext_iff_of_nodup (Catalog.nodup_keys _) hpaths).mpr
    fun _ => Catalog.mem_keys_numbered

theorem fileEntries_perm (h : a.Lists dirs files) (hpaths : (files.map Prod.fst).Nodup) :
    a.fileEntries.keys.Perm (files.map Prod.fst) := by
  rw [h.fileEntries_eq]
  exact (List.perm_ext_iff_of_nodup (Catalog.nodup_keys _) hpaths).mpr
    fun _ => Catalog.mem_keys_numbered

/-- **A look-up finds what was found under a path.** -/
theorem find_file_iff (h : a.Lists dirs files) (hpaths : (files.map Prod.fst).Nodup)
    {path : String} {leaf : Leaf} :
    (∃ f, (a.fileEntries.find? path).bind a.file? = some f ∧ f.leaf = leaf) ↔
      (path, leaf) ∈ files := by
  have hleaf (id : Nat) : (a.file? id).map File.leaf = (files[id]?).map Prod.snd := by
    rw [← List.getElem?_map, ← h.leaves_eq, List.getElem?_map, Array.getElem?_toList]
    rfl
  have hpath (id : Nat) :
      a.fileEntries.find? path = some id ↔ (files[id]?).map Prod.fst = some path := by
    rw [h.fileEntries_eq, Catalog.find?_numbered_eq_some_iff hpaths, List.getElem?_map]
  constructor
  · rintro ⟨f, hfind, rfl⟩
    obtain ⟨id, hid, hf⟩ := Option.bind_eq_some_iff.mp hfind
    obtain ⟨entry, hentry, rfl⟩ := Option.map_eq_some_iff.mp ((hpath id).mp hid)
    have hsnd := hleaf id
    rw [hf, hentry] at hsnd
    rw [Option.some.inj hsnd]
    exact List.mem_of_getElem? hentry
  · intro hmem
    obtain ⟨id, hid⟩ := List.mem_iff_getElem?.mp hmem
    have hfind := (hpath id).mpr (by rw [hid]; rfl)
    have hsnd := hleaf id
    rw [hid] at hsnd
    obtain ⟨f, hf, rfl⟩ := Option.map_eq_some_iff.mp hsnd
    exact ⟨f, by rw [hfind]; exact hf, rfl⟩

end Arena.Lists

theorem Tree.file_eq_ok_iff {t : Tree} {path : String} {f : File} :
    t.file path = .ok f ↔
      (t.fileEntries.find? (Tree.normalize path)).bind t.file? = some f := by
  unfold Tree.file
  split
  · rename_i heq
    rw [heq]
    simp only [Except.ok.injEq, Option.some.injEq]
  · rename_i heq
    rw [heq]
    simp only [reduceCtorEq]

/-! ## Images -/

/-- An image shows a tree: parsing succeeds, the keys of its catalogs are the paths of the tree, a
path leads to the file that has it up to outer slashes, and opening it gives the file's data if the
image has all of it. -/
structure Image.Shows (media : Media) (bytes : List UInt8) (header : Header) (T : Hierarchy)
    (i : Image) : Prop where
  parse : ∃ i', (Image.parse media).outcome i = (.ok (), i')
  dirEntries : ∃ t i', (Image.tree media).outcome i = (.ok t, i') ∧
    t.dirEntries.keys.Perm (T.folders.map fun d => absolutePath d.names)
  fileEntries : ∃ t i', (Image.tree media).outcome i = (.ok t, i') ∧
    t.fileEntries.keys.Perm (T.leaves.map fun entry => absolutePath entry.1)
  listFiles : ∃ paths i', (Image.listFiles media).outcome i = (.ok paths, i') ∧
    paths.Perm (T.leaves.map fun entry => absolutePath entry.1)
  file : ∀ (path : String) (leaf : Leaf),
    (∃ f i', (Image.file media path).outcome i = (.ok f, i') ∧ f.leaf = leaf) ↔
      ∃ names, (names, leaf) ∈ T.leaves ∧
        Tree.trimSlashes path.toList = ("/".intercalate names).toList
  openFile_inside : ∀ {path : String} {names : List String} {leaf : Leaf},
    (names, leaf) ∈ T.leaves → Tree.trimSlashes path.toList = ("/".intercalate names).toList →
    header.fileDataOffset.toNat + leaf.dataOffset.toNat + leaf.dataSize.toNat ≤ bytes.length →
    ∃ data i', (Image.openFile media path).outcome i = (.ok data, i') ∧ data.position = 0 ∧
      data.region.Holds media (slice bytes
        (header.fileDataOffset.toNat + leaf.dataOffset.toNat) leaf.dataSize.toNat)
  openFile_outside : ∀ {path : String} {names : List String} {leaf : Leaf},
    (names, leaf) ∈ T.leaves → Tree.trimSlashes path.toList = ("/".intercalate names).toList →
    bytes.length < header.fileDataOffset.toNat + leaf.dataOffset.toNat + leaf.dataSize.toNat →
    ∃ e i', (Image.openFile media path).outcome i = (.error e, i')

section Stored

variable {media : Media} {bytes : List UInt8} {header : Header}
  {dirHash fileHash dirTable fileTable : List UInt8} {T : Hierarchy} {region : Region}

/-- Parsing an image in which a tree is stored finds the tree. -/
theorem Hierarchy.StoredIn.read_eq_ok (hbytes : region.Holds media bytes)
    (hstored : Stored bytes header dirHash fileHash dirTable fileTable)
    (hT : T.StoredIn dirTable fileTable) :
    ∃ t, (Tree.read region media).result = .ok t ∧ t.header = header ∧
      t.toArena.Lists T.found T.foundFiles := by
  obtain ⟨a, hwalk, hlists⟩ := hT.walk_eq_ok
  refine ⟨⟨a, header, bucketsOf dirHash, bucketsOf fileHash, dirTable, fileTable⟩, ?_, rfl,
    hlists⟩
  rw [(hstored.tablesRead hbytes).result_read, hwalk]

/-- A path leads to the files of the tree that have it. -/
theorem Hierarchy.WellNamed.file_iff (hnames : T.WellNamed) {t : Tree}
    (hlists : t.toArena.Lists T.found T.foundFiles) {path : String} {leaf : Leaf} :
    (∃ f, t.file path = .ok f ∧ f.leaf = leaf) ↔
      ∃ names, (names, leaf) ∈ T.leaves ∧
        Tree.trimSlashes path.toList = ("/".intercalate names).toList := by
  have hpaths : (T.foundFiles.map Prod.fst).Nodup := by
    rw [hnames.foundFiles_eq, List.map_map]
    exact hnames.filePaths_nodup
  simp only [Tree.file_eq_ok_iff, hlists.find_file_iff hpaths, hnames.foundFiles_eq, List.mem_map,
    Prod.mk.injEq, ← normalize_eq_absolutePath_iff]
  constructor
  · rintro ⟨⟨names, leaf'⟩, hmem, hpath, rfl⟩
    exact ⟨names, hmem, hpath.symm⟩
  · rintro ⟨names, hmem, hpath⟩
    exact ⟨(names, leaf), hmem, hpath.symm, rfl⟩

/-- **An image in which a well-named tree is stored shows that tree**, whether it was parsed before or
not. -/
theorem Image.shows_of_stored {i : Image} (hi : i.Sound media)
    (hbytes : i.view.region.Holds media bytes)
    (hstored : Stored bytes header dirHash fileHash dirTable fileTable)
    (hT : T.StoredIn dirTable fileTable) (hnames : T.WellNamed) :
    i.Shows media bytes header T := by
  obtain ⟨t, hread, rfl, hlists⟩ := hT.read_eq_ok hbytes hstored
  have hdirs : t.dirEntries.keys.Perm (T.folders.map fun d => absolutePath d.names) := by
    have hperm := hnames.found_paths_perm
    exact (hlists.dirEntries_perm (hperm.nodup_iff.mpr hnames.dirPaths_nodup)).trans hperm
  have hfiles : t.fileEntries.keys.Perm (T.leaves.map fun entry => absolutePath entry.1) := by
    have heq : T.foundFiles.map Prod.fst = T.leaves.map fun entry => absolutePath entry.1 := by
      rw [hnames.foundFiles_eq, List.map_map]
      rfl
    rw [← heq]
    exact hlists.fileEntries_perm (by rw [heq]; exact hnames.filePaths_nodup)
  constructor
  · exact hi.outcome_parse hread
  · obtain ⟨i', htree, -⟩ := hi.outcome_tree_of_read hread
    exact ⟨t, i', htree, hdirs⟩
  · obtain ⟨i', htree, -⟩ := hi.outcome_tree_of_read hread
    exact ⟨t, i', htree, hfiles⟩
  · obtain ⟨i', hlist⟩ := hi.outcome_listFiles hread
    exact ⟨_, i', hlist, hfiles⟩
  · intro path leaf
    obtain ⟨i', hfile, -⟩ := hi.outcome_file hread path
    rw [← hnames.file_iff hlists, hfile]
    constructor
    · rintro ⟨f, i'', heq, hleaf⟩
      exact ⟨f, congrArg Prod.fst heq, hleaf⟩
    · rintro ⟨f, hf, hleaf⟩
      exact ⟨f, i', by rw [hf], hleaf⟩
  · intro path names leaf hmem hpath hin
    obtain ⟨f, hf, rfl⟩ := (hnames.file_iff hlists).mpr ⟨names, hmem, hpath⟩
    obtain ⟨i', hopen⟩ := hi.outcome_openFile hread hf
    obtain ⟨data, heq, hdata⟩ := t.openData_of_le hbytes f.name hin
    exact ⟨data, i', hopen.trans (congrArg (·, i') heq), hdata⟩
  · intro path names leaf hmem hpath hout
    obtain ⟨f, hf, rfl⟩ := (hnames.file_iff hlists).mpr ⟨names, hmem, hpath⟩
    obtain ⟨i', hopen⟩ := hi.outcome_openFile hread hf
    obtain ⟨e, heq⟩ := t.openData_of_lt hbytes f.name hout
    exact ⟨e, i', hopen.trans (congrArg (·, i') heq)⟩

end Stored

namespace Specimen

/-- The tree that the small image stores. -/
def hierarchy : Hierarchy := ⟨[], .cons 0x18 "a" [⟨0, "f", 0, 4⟩] .nil .nil⟩

theorem storedIn_tables : hierarchy.StoredIn dirTable fileTable where
  root := by
    have hplace : (0 : UInt32) ≠ noLink := by decide
    have hfiles : FileChain fileTable dir.firstFile [⟨0, "f", 0, 4⟩] :=
      @FileChain.cons fileTable ⟨0, "f", 0, 4⟩ [] file hplace file_at rfl rfl .nil
    exact ⟨root, "", root_at, .nil, .cons (by decide) dir_at hfiles .nil .nil⟩
  dirPlaces_nodup := by decide
  filePlaces_nodup := by decide

theorem wellNamed_hierarchy : hierarchy.WellNamed where
  root := {
    dirs_proper := by
      intro n hn
      rw [List.mem_singleton.mp hn]
      exact ⟨by decide, by decide⟩
    dirs_nodup := List.nodup_singleton _
    files_proper := by
      intro n hn
      cases hn
    files_nodup := List.nodup_nil }
  below := by
    refine ⟨⟨?_, List.nodup_nil, ?_, List.nodup_singleton _⟩, trivial, trivial⟩
    · intro n hn
      cases hn
    · intro n hn
      rw [List.mem_singleton.mp hn]
      exact ⟨by decide, by decide⟩

theorem shows_of_stored_specimen : (Image.ofView view).Shows media image header hierarchy :=
  Image.shows_of_stored (Image.sound_ofView media view) holds_image stored_image storedIn_tables
    wellNamed_hierarchy

end Specimen

end Cartridge.RomFs
