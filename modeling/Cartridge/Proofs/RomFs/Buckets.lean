import Cartridge.Proofs.RomFs.Packing
import Cartridge.Proofs.RomFs.PathNames
import Cartridge.Proofs.RomFs.Paths
import Cartridge.Proofs.RomFs.Rooted

/-!
# Looking up through the hash buckets

A look-up through the hash buckets goes from directory to directory, in each of them along the chain
of records in the bucket of the next name. What it finds is there, whatever the buckets and the chains
hold. Where the chains have every record in its bucket, what is there is found: a chain that ends
visits no record twice, so it has no more records than the walk has found, and the number of steps
that a look-up may take is never what stops it.

Results:
* `Chain.length_le`: a chain that ends is no longer than the list of the records that it visits.
* `dirIn_of_findChild?`, `fileIn_of_findFileIn?`: what is found is there.
* `WellHashed.findChild?_eq_some_iff`, `WellHashed.findFileIn?_eq_some_iff`: what is there is found.
* `Image.exact_of_wellHashed`: look-ups through the hash buckets of a well-hashed image are exact.
-/

namespace Cartridge.RomFs

/-! ## Chains -/

section Chain

variable {α : Type} {layout : Layout α} {nameLength next : α → UInt32} {table : List UInt8}
  {link target : UInt32} {places places' : List UInt32}

variable (layout nameLength next table) in
/-- The records at these places follow each other from a link on, and the last one ends the chain. -/
inductive Chain : UInt32 → List UInt32 → Prop
  | nil : Chain noLink []
  | cons {place : UInt32} {fixed : α} {name : String} {rest : List UInt32} (hplace : place ≠ noLink)
      (hrecord : RecordAt layout nameLength table place fixed name)
      (hrest : Chain (next fixed) rest) : Chain place (place :: rest)

namespace Chain

theorem unique (h : Chain layout nameLength next table link places)
    (h' : Chain layout nameLength next table link places') : places = places' := by
  induction h generalizing places' with
  | nil =>
    cases h' with
    | nil => rfl
    | cons hplace => exact absurd rfl hplace
  | cons hplace hrecord _ ih =>
    cases h' with
    | nil => exact absurd rfl hplace
    | cons _ hrecord' hrest' =>
      obtain ⟨rfl, -⟩ := hrecord.unique hrecord'
      rw [ih hrest']

/-- From each of its records on, a chain goes on to its end. -/
theorem exists_of_mem (h : Chain layout nameLength next table link places) (hmem : target ∈ places) :
    ∃ rest, Chain layout nameLength next table target rest ∧ rest.length ≤ places.length := by
  induction h with
  | nil => cases hmem
  | cons hplace hrecord hrest ih =>
    rcases List.mem_cons.mp hmem with rfl | hmem
    · exact ⟨_, .cons hplace hrecord hrest, Nat.le_refl _⟩
    · obtain ⟨rest', hrest', hle⟩ := ih hmem
      exact ⟨rest', hrest', Nat.le_succ_of_le hle⟩

/-- A chain that ends visits no record twice: from there on it would be the same again. -/
theorem nodup (h : Chain layout nameLength next table link places) : places.Nodup := by
  induction h with
  | nil => exact List.nodup_nil
  | @cons place _ _ rest hplace hrecord hrest ih =>
    refine List.nodup_cons.mpr ⟨?_, ih⟩
    intro hmem
    obtain ⟨again, hagain, hle⟩ := hrest.exists_of_mem hmem
    rw [hagain.unique (.cons hplace hrecord hrest), List.length_cons] at hle
    omega

/-- **A chain is no longer than the list of the records that it visits.** -/
theorem length_le (h : Chain layout nameLength next table link places) {all : List UInt32}
    (hsubset : places ⊆ all) : places.length ≤ all.length :=
  (h.nodup.subperm hsubset).length_le

/-- A search that stops at one record of a chain and passes by the others gets there, if it may take as
many steps as the chain has records. -/
theorem search_eq_some {β : Type} {search : Nat → UInt32 → Option β} {answer : β}
    (h : Chain layout nameLength next table link places)
    (hstop : ∀ {fixed : α} {name : String}, target ≠ noLink →
      RecordAt layout nameLength table target fixed name →
      ∀ steps, search (steps + 1) target = some answer)
    (hpass : ∀ {place : UInt32} {fixed : α} {name : String}, place ∈ places → place ≠ target →
      place ≠ noLink → RecordAt layout nameLength table place fixed name →
      ∀ steps, search (steps + 1) place = search steps (next fixed))
    (hmem : target ∈ places) {steps : Nat} (hsteps : places.length ≤ steps) :
    search steps link = some answer := by
  induction h generalizing steps with
  | nil => cases hmem
  | @cons place fixed name rest hplace hrecord hrest ih =>
    rw [List.length_cons] at hsteps
    obtain ⟨steps, rfl⟩ : ∃ n, steps = n + 1 := ⟨steps - 1, by omega⟩
    by_cases htarget : place = target
    · subst htarget
      exact hstop hplace hrecord steps
    · rw [hpass List.mem_cons_self htarget hplace hrecord]
      exact ih (fun hmem => hpass (List.mem_cons_of_mem _ hmem))
        ((List.mem_cons.mp hmem).resolve_left (Ne.symm htarget)) (Nat.le_of_succ_le_succ hsteps)

end Chain

end Chain

/-- A chain of directory records in a bucket. -/
abbrev DirBucket (table : List UInt8) : UInt32 → List UInt32 → Prop :=
  Chain DirectoryRecord.layout DirectoryRecord.nameLength DirectoryRecord.hashSibling table

/-- A chain of file records in a bucket. -/
abbrev FileBucket (table : List UInt8) : UInt32 → List UInt32 → Prop :=
  Chain FileRecord.layout FileRecord.nameLength FileRecord.hashSibling table

/-! ## What a look-up looks for -/

/-- Where the record of the directory lies that a directory is in. -/
def Arena.parentPlace? (a : Arena) (id : Nat) : Option UInt32 :=
  (((a.dir? id).bind Directory.parent).bind a.dir?).map Directory.tableOffset

namespace Tree

variable {t : Tree} {parent place link : UInt32} {name : String} {names : List String} {id : Nat}

/-- In the directory at `parent` there is one of the given name, with its record at `place`. -/
def DirIn (t : Tree) (parent : UInt32) (name : String) (place : UInt32) : Prop :=
  ∃ id d, t.dir? id = some d ∧ d.tableOffset = place ∧ d.name = name ∧
    t.parentPlace? id = some parent

/-- The record of a file has the given name and the given place for its parent's. -/
def FileIn (t : Tree) (parent : UInt32) (name : String) (id : Nat) : Prop :=
  ∃ f record, t.file? id = some f ∧ f.name = name ∧ FileAt t.fileTable f.tableOffset record name ∧
    record.parent = parent

theorem parentPlace?_eq_some_iff {d : Directory} (hd : t.dir? id = some d) :
    t.parentPlace? id = some parent ↔
      ∃ p above, d.parent = some p ∧ t.dir? p = some above ∧ above.tableOffset = parent := by
  simp only [Arena.parentPlace?, hd, Option.bind_some, Option.map_eq_some_iff,
    Option.bind_eq_some_iff]
  constructor
  · rintro ⟨above, ⟨p, hp, habove⟩, hplace⟩
    exact ⟨p, above, hp, habove, hplace⟩
  · rintro ⟨p, above, hp, habove, hplace⟩
    exact ⟨above, ⟨p, hp, habove⟩, hplace⟩

/-- Names lead on from where all but the last of them lead. -/
theorem descend?_concat (t : Tree) (names : List String) (name : String) (start : UInt32) :
    t.descend? (names ++ [name]) start = (t.descend? names start).bind (t.findChild? · name) := by
  induction names generalizing start with
  | nil => exact Option.bind_fun_some _
  | cons first rest ih =>
    rw [List.cons_append, descend?, descend?]
    refine Eq.trans ?_ (Option.bind_assoc _ _ _).symm
    congr 1
    funext child
    exact ih child

/-! ## Steps of a search -/

theorem findInDirChain?_succ {record : DirectoryRecord} {recordName : String}
    (hlink : link ≠ noLink) (hread : DirectoryAt t.dirTable link record recordName)
    (hid : t.dirAt? link = some id) (steps : Nat) :
    t.findInDirChain? parent name (steps + 1) link =
      if t.parentPlace? id = some parent ∧ recordName = name then some link
      else t.findInDirChain? parent name steps record.hashSibling := by
  rw [findInDirChain?, if_neg hlink, readDirectory_eq_ok_iff.mpr hread]
  dsimp only
  rw [hid]
  rfl

theorem findInFileChain?_succ {record : FileRecord} {recordName : String} (hlink : link ≠ noLink)
    (hread : FileAt t.fileTable link record recordName) (steps : Nat) :
    t.findInFileChain? parent name (steps + 1) link =
      if record.parent = parent ∧ recordName = name then t.fileAt? link
      else t.findInFileChain? parent name steps record.hashSibling := by
  rw [findInFileChain?, if_neg hlink, readFile_eq_ok_iff.mpr hread]

/-! ## What is found is there -/

section Sound

variable (hrooted : t.Rooted) (hrecorded : t.Recorded t.dirTable t.fileTable)

include hrooted in
/-- No two directories have their records at one place. -/
theorem id_eq_of_tableOffset_eq {id' : Nat} {d d' : Directory} (hd : t.dir? id = some d)
    (hd' : t.dir? id' = some d') (h : d.tableOffset = d'.tableOffset) : id = id' := by
  have hid := (hrooted.dirAt?_eq_some_iff d.tableOffset id).mpr (by rw [hd, Option.map_some])
  have hid' := (hrooted.dirAt?_eq_some_iff d.tableOffset id').mpr (by rw [hd', Option.map_some, h])
  rw [hid] at hid'
  exact Option.some.inj hid'

include hrooted hrecorded in
/-- The root is without a parent, and its record is at the start of its table. -/
theorem root_of : ∃ d, t.dir? 0 = some d ∧ d.parent = none ∧ d.tableOffset = 0 := by
  obtain ⟨d, hd⟩ := Option.isSome_iff_exists.mp hrooted.root_isSome
  obtain ⟨others, hothers⟩ := hrecorded.root_place
  have hplace := t.getElem?_dirPlaces 0
  rw [hothers, hd] at hplace
  exact ⟨d, hd, (hrooted.parent_eq_none_iff hd).mpr rfl, (Option.some.inj hplace).symm⟩

include hrecorded in
/-- A directory in another one has the name that its record has. -/
theorem name_eq_of_directoryAt {d : Directory} (hd : t.dir? id = some d)
    (hparent : t.parentPlace? id = some parent) {record : DirectoryRecord} {recordName : String}
    (hread : DirectoryAt t.dirTable d.tableOffset record recordName) : d.name = recordName := by
  obtain ⟨p, -, hp, -⟩ := (parentPlace?_eq_some_iff hd).mp hparent
  obtain ⟨record', hrecord'⟩ := hrecorded.dir hd (by rw [hp]; exact Option.some_ne_none p)
  exact (hrecord'.unique hread).2

include hrecorded in
/-- A file has the name that its record has. -/
theorem name_eq_of_fileAt {f : File} (hf : t.file? id = some f) {record : FileRecord}
    {recordName : String} (hread : FileAt t.fileTable f.tableOffset record recordName) :
    f.name = recordName := by
  obtain ⟨record', hrecord', -⟩ := hrecorded.file hf
  exact (hrecord'.unique hread).2

include hrooted hrecorded

theorem dirIn_of_findInDirChain? {steps : Nat}
    (h : t.findInDirChain? parent name steps link = some place) : t.DirIn parent name place := by
  induction steps generalizing link with
  | zero => cases h
  | succ steps ih =>
    rw [findInDirChain?] at h
    split at h
    · cases h
    · split at h
      · cases h
      · rename_i record recordName hread
        split at h
        · cases h
        · rename_i id hid
          dsimp only at h
          split at h
          · rename_i hfound
            cases h
            obtain ⟨hparent, rfl⟩ := hfound
            obtain ⟨d, hd, rfl⟩ :=
              Option.map_eq_some_iff.mp ((hrooted.dirAt?_eq_some_iff _ _).mp hid)
            exact ⟨id, d, hd, rfl, name_eq_of_directoryAt hrecorded hd hparent
              (readDirectory_eq_ok_iff.mp hread), hparent⟩
          · exact ih h

/-- **A directory that is found is there.** -/
theorem dirIn_of_findChild? (h : t.findChild? parent name = some place) :
    t.DirIn parent name place := by
  obtain ⟨start, -, h⟩ := Option.bind_eq_some_iff.mp h
  exact dirIn_of_findInDirChain? hrooted hrecorded h

theorem fileIn_of_findInFileChain? {steps : Nat}
    (h : t.findInFileChain? parent name steps link = some id) : t.FileIn parent name id := by
  induction steps generalizing link with
  | zero => cases h
  | succ steps ih =>
    rw [findInFileChain?] at h
    split at h
    · cases h
    · split at h
      · cases h
      · rename_i record recordName hread
        split at h
        · rename_i hfound
          obtain ⟨hparent, rfl⟩ := hfound
          obtain ⟨f, hf, rfl⟩ :=
            Option.map_eq_some_iff.mp ((hrooted.fileAt?_eq_some_iff _ _).mp h)
          have hrecord := readFile_eq_ok_iff.mp hread
          exact ⟨f, record, hf, name_eq_of_fileAt hrecorded hf hrecord, hrecord, hparent⟩
        · exact ih h

/-- **A file that is found is there**, as far as the parent in its record is its directory. -/
theorem fileIn_of_findFileIn? {dirId : Nat} (h : t.findFileIn? name dirId = some id) :
    ∃ dir, t.dir? dirId = some dir ∧ t.FileIn dir.tableOffset name id := by
  obtain ⟨dir, hdir, h⟩ := Option.bind_eq_some_iff.mp h
  obtain ⟨start, -, h⟩ := Option.bind_eq_some_iff.mp h
  exact ⟨dir, hdir, fileIn_of_findInFileChain? hrooted hrecorded h⟩

/-- **Where names lead, a directory is whose way up has these names.** -/
theorem leadsUp_of_descend? (h : t.descend? names 0 = some place) :
    ∃ id d, t.LeadsUp id names ∧ t.dir? id = some d ∧ d.tableOffset = place := by
  induction names using List.reverseRecOn generalizing place with
  | nil =>
    cases h
    obtain ⟨d, hd, hroot, hplace⟩ := root_of hrooted hrecorded
    exact ⟨0, d, .root hd hroot, hd, hplace⟩
  | append_singleton names name ih =>
    rw [descend?_concat] at h
    obtain ⟨owner, howner, hchild⟩ := Option.bind_eq_some_iff.mp h
    obtain ⟨p, above, hup, habove, rfl⟩ := ih howner
    obtain ⟨id, d, hd, rfl, rfl, hparent⟩ := dirIn_of_findChild? hrooted hrecorded hchild
    obtain ⟨p', above', hp', habove', hplace⟩ := (parentPlace?_eq_some_iff hd).mp hparent
    cases id_eq_of_tableOffset_eq hrooted habove' habove hplace
    exact ⟨id, d, .up hd hp' hup, hd, rfl⟩

/-- **The directory that names lead to** has these names on its way up. -/
theorem leadsUp_of_findByNames? (h : t.findByNames? names = some id) : t.LeadsUp id names := by
  obtain ⟨place, hdescend, hid⟩ := Option.bind_eq_some_iff.mp h
  obtain ⟨found, d, hup, hd, rfl⟩ := leadsUp_of_descend? hrooted hrecorded hdescend
  obtain ⟨d', hd', hplace⟩ :=
    Option.map_eq_some_iff.mp ((hrooted.dirAt?_eq_some_iff d.tableOffset id).mp hid)
  rw [id_eq_of_tableOffset_eq hrooted hd' hd hplace]
  exact hup

end Sound

/-! ## What is there is found -/

/-- A tree whose hash buckets have every directory and file where a look-up goes for it: no two
directories and no two files of one directory have the same name, no file is without a name, the
records of files have their directory for their parent, and the chain in the bucket of a name ends,
visits nothing but what the walk has found, and visits the directory or file of that name.

Nothing is asked of buckets in which nothing belongs, and nothing else of names: those with a slash and
directories without a name are on no path, and no look-up finds them. -/
structure WellHashed (t : Tree) : Prop where
  dir_unique : ∀ {id id' : Nat} {d d' : Directory}, t.dir? id = some d → t.dir? id' = some d' →
    d.parent = d'.parent → d.name = d'.name → id = id'
  file_unique : ∀ {id id' : Nat} {f f' : File}, t.file? id = some f → t.file? id' = some f' →
    f.parent = f'.parent → f.name = f'.name → id = id'
  file_name_ne_empty : ∀ {id : Nat} {f : File}, t.file? id = some f → f.name ≠ ""
  file_parent : ∀ {id : Nat} {f : File} {record : FileRecord} {name : String} {dir : Directory},
    t.file? id = some f → FileAt t.fileTable f.tableOffset record name →
    t.dir? f.parent = some dir → record.parent = dir.tableOffset
  dir_reached : ∀ {id : Nat} {d : Directory} {parent : UInt32}, t.dir? id = some d →
    t.parentPlace? id = some parent →
    ∃ start places, chainStart? t.dirHash parent d.name = some start ∧
      DirBucket t.dirTable start places ∧ places ⊆ t.dirPlaces ∧ d.tableOffset ∈ places
  file_reached : ∀ {id : Nat} {f : File} {dir : Directory}, t.file? id = some f →
    t.dir? f.parent = some dir →
    ∃ start places, chainStart? t.fileHash dir.tableOffset f.name = some start ∧
      FileBucket t.fileTable start places ∧ places ⊆ t.filePlaces ∧ f.tableOffset ∈ places

namespace WellHashed

variable (h : t.WellHashed) (hrooted : t.Rooted) (hrecorded : t.Recorded t.dirTable t.fileTable)

include h hrooted in
/-- A directory has one directory of a name at most. -/
theorem dirIn_unique {place' : UInt32} (hin : t.DirIn parent name place)
    (hin' : t.DirIn parent name place') : place = place' := by
  obtain ⟨id, d, hd, rfl, rfl, hparent⟩ := hin
  obtain ⟨id', d', hd', rfl, hname, hparent'⟩ := hin'
  obtain ⟨p, above, hp, habove, hplace⟩ := (parentPlace?_eq_some_iff hd).mp hparent
  obtain ⟨p', above', hp', habove', hplace'⟩ := (parentPlace?_eq_some_iff hd').mp hparent'
  have howner : p = p' :=
    id_eq_of_tableOffset_eq hrooted habove habove' (hplace.trans hplace'.symm)
  have hid : id = id' := h.dir_unique hd hd' (by rw [hp, hp', howner]) hname.symm
  subst hid
  rw [hd] at hd'
  rw [Option.some.inj hd']

include h hrooted hrecorded

/-- **The directory of a name is found exactly if it is there.** -/
theorem findChild?_eq_some_iff :
    t.findChild? parent name = some place ↔ t.DirIn parent name place := by
  refine ⟨dirIn_of_findChild? hrooted hrecorded, ?_⟩
  intro hin
  obtain ⟨id, d, hd, rfl, rfl, hparent⟩ := id hin
  obtain ⟨start, places, hstart, hchain, hsubset, hmem⟩ := h.dir_reached hd hparent
  have hsteps := hchain.length_le hsubset
  rw [Arena.length_dirPlaces] at hsteps
  refine Option.bind_eq_some_iff.mpr ⟨start, hstart, ?_⟩
  refine hchain.search_eq_some ?_ ?_ hmem (Nat.le_succ_of_le hsteps)
  · -- The record of the directory itself.
    intro record recordName hlink hread steps
    have hid := (hrooted.dirAt?_eq_some_iff d.tableOffset id).mpr (by rw [hd, Option.map_some])
    rw [findInDirChain?_succ hlink hread hid]
    exact if_pos ⟨hparent, (name_eq_of_directoryAt hrecorded hd hparent hread).symm⟩
  · -- Another record: a hit would be a second directory of the name.
    intro place record recordName hplace hne hlink hread steps
    obtain ⟨id', hid'⟩ := List.mem_iff_getElem?.mp (hsubset hplace)
    rw [Arena.getElem?_dirPlaces] at hid'
    obtain ⟨d', hd', rfl⟩ := Option.map_eq_some_iff.mp hid'
    rw [findInDirChain?_succ hlink hread ((hrooted.dirAt?_eq_some_iff _ _).mpr hid')]
    refine if_neg ?_
    rintro ⟨hparent', rfl⟩
    have hname := name_eq_of_directoryAt hrecorded hd' hparent' hread
    exact hne (h.dirIn_unique hrooted ⟨id', d', hd', rfl, hname, hparent'⟩ hin)

/-- **The file of a name is found in a directory exactly if it is there.** -/
theorem findFileIn?_eq_some_iff {dirId : Nat} :
    t.findFileIn? name dirId = some id ↔
      ∃ f, t.file? id = some f ∧ f.parent = dirId ∧ f.name = name := by
  constructor
  · intro hfind
    obtain ⟨dir, hdir, f, record, hf, hname, hread, hparent⟩ :=
      fileIn_of_findFileIn? hrooted hrecorded hfind
    obtain ⟨dir', hdir'⟩ := Arena.dir?_isSome (hrooted.fileParent_lt hf)
    have hplace := h.file_parent hf hread hdir'
    exact ⟨f, hf, id_eq_of_tableOffset_eq hrooted hdir' hdir (hplace.symm.trans hparent), hname⟩
  · rintro ⟨f, hf, rfl, rfl⟩
    obtain ⟨dir, hdir⟩ := Arena.dir?_isSome (hrooted.fileParent_lt hf)
    obtain ⟨start, places, hstart, hchain, hsubset, hmem⟩ := h.file_reached hf hdir
    have hsteps := hchain.length_le hsubset
    rw [Arena.length_filePlaces] at hsteps
    refine Option.bind_eq_some_iff.mpr ⟨dir, hdir, Option.bind_eq_some_iff.mpr ⟨start, hstart, ?_⟩⟩
    refine hchain.search_eq_some ?_ ?_ hmem (Nat.le_succ_of_le hsteps)
    · -- The record of the file itself.
      intro record recordName hlink hread steps
      rw [findInFileChain?_succ hlink hread,
        if_pos ⟨h.file_parent hf hread hdir, (name_eq_of_fileAt hrecorded hf hread).symm⟩]
      exact (hrooted.fileAt?_eq_some_iff _ _).mpr (by rw [hf, Option.map_some])
    · -- Another record: a hit would be a second file of the name in the directory.
      intro place record recordName hplace hne hlink hread steps
      rw [findInFileChain?_succ hlink hread]
      refine if_neg ?_
      rintro ⟨hparent, rfl⟩
      obtain ⟨id', hid'⟩ := List.mem_iff_getElem?.mp (hsubset hplace)
      rw [Arena.getElem?_filePlaces] at hid'
      obtain ⟨f', hf', rfl⟩ := Option.map_eq_some_iff.mp hid'
      obtain ⟨dir', hdir'⟩ := Arena.dir?_isSome (hrooted.fileParent_lt hf')
      have howner := id_eq_of_tableOffset_eq hrooted hdir' hdir
        ((h.file_parent hf' hread hdir').symm.trans hparent)
      have hid := h.file_unique hf' hf howner (name_eq_of_fileAt hrecorded hf' hread)
      rw [hid, hf] at hf'
      exact hne (by rw [Option.some.inj hf'])

/-- **Names lead to the directory whose way up has them**, and nowhere else. -/
theorem descend?_eq_some_iff :
    t.descend? names 0 = some place ↔
      ∃ id d, t.LeadsUp id names ∧ t.dir? id = some d ∧ d.tableOffset = place := by
  refine ⟨leadsUp_of_descend? hrooted hrecorded, ?_⟩
  rintro ⟨id, d, hup, hd, rfl⟩
  induction names using List.reverseRecOn generalizing id d with
  | nil =>
    obtain ⟨d', hd', hroot⟩ := Arena.LeadsUp.nil_iff.mp hup
    rw [hd] at hd'
    cases hd'
    obtain ⟨d', hd', -, hplace⟩ := root_of hrooted hrecorded
    cases (hrooted.parent_eq_none_iff hd).mp hroot
    rw [hd] at hd'
    cases hd'
    rw [hplace]
    rfl
  | append_singleton names name ih =>
    obtain ⟨d', p, hd', rfl, hp, habove⟩ := Arena.LeadsUp.concat_iff.mp hup
    rw [hd] at hd'
    cases hd'
    obtain ⟨above, habove'⟩ := Arena.dir?_isSome habove.lt_size
    rw [descend?_concat, ih p above habove habove']
    refine (h.findChild?_eq_some_iff hrooted hrecorded).mpr ⟨id, d, hd, rfl, rfl, ?_⟩
    exact (parentPlace?_eq_some_iff hd).mpr ⟨p, above, hp, habove', rfl⟩

theorem findByNames?_eq_some_iff :
    t.findByNames? names = some id ↔ t.namesTo? id = some names := by
  rw [Arena.namesTo?_eq_some_iff]
  refine ⟨leadsUp_of_findByNames? hrooted hrecorded, ?_⟩
  intro hup
  obtain ⟨d, hd⟩ := Arena.dir?_isSome hup.lt_size
  refine Option.bind_eq_some_iff.mpr ⟨d.tableOffset, ?_, ?_⟩
  · exact (h.descend?_eq_some_iff hrooted hrecorded).mpr ⟨id, d, hup, hd, rfl⟩
  · exact (hrooted.dirAt?_eq_some_iff _ _).mpr (by rw [hd, Option.map_some])

end WellHashed

/-- Look-ups through the hash buckets are exact: the directory or file is found to which the names on
the path lead, and no other. -/
structure Exact (t : Tree) : Prop where
  findDir? : ∀ (path : String) (id : Nat),
    t.findDir? path = some id ↔ t.namesTo? id = some (pathNames path)
  findFile? : ∀ (path : String) (id : Nat),
    t.findFile? path = some id ↔ ∃ f above, t.file? id = some f ∧ t.namesTo? f.parent = some above ∧
      pathNames path = above ++ [f.name]

theorem WellHashed.exact (h : t.WellHashed) (hrooted : t.Rooted)
    (hrecorded : t.Recorded t.dirTable t.fileTable) : t.Exact where
  findDir? := by
    intro path id
    rw [findDir?_eq, h.findByNames?_eq_some_iff hrooted hrecorded]
  findFile? := by
    intro path id
    rw [findFile?_eq]
    refine Option.bind_eq_some_iff.trans ?_
    simp only [h.findByNames?_eq_some_iff hrooted hrecorded,
      h.findFileIn?_eq_some_iff hrooted hrecorded]
    constructor
    · rintro ⟨_, hdir, f, hf, rfl, hname⟩
      have hnames : pathNames path ≠ [] := by
        intro hnil
        rw [hnil] at hname
        exact h.file_name_ne_empty hf hname
      refine ⟨f, _, hf, hdir, ?_⟩
      rw [hname, List.getLastD_eq_getLast?, List.getLast?_eq_some_getLast hnames]
      exact (List.dropLast_append_getLast hnames).symm
    · rintro ⟨f, above, hf, hdir, hnames⟩
      rw [hnames, List.dropLast_concat, List.getLastD_concat]
      exact ⟨f.parent, hdir, f, hf, rfl, rfl⟩

end Tree

/-- **Look-ups through the hash buckets of a well-hashed image are exact**, however its records
collide. -/
theorem Image.exact_of_wellHashed {media : Media} {view : View} {t : Tree} {i : Image}
    (h : (Image.tree media).outcome (.ofView view) = (.ok t, i)) (hhashed : t.WellHashed) :
    t.Exact := by
  obtain ⟨_, _, -, hwalk⟩ := Tree.read_eq_ok (Image.read_of_outcome_tree h)
  exact hhashed.exact (Arena.consistent_of_walk hwalk).rooted (Arena.recorded_of_walk hwalk)

/-! ## Records that collide -/

namespace Colliding

/-- The root has a directory and a file, and is in front of the directory in the bucket. -/
def root : DirectoryRecord := ⟨0, noLink, 0x18, 0, 0x18, 0⟩

/-- A directory with a file. -/
def dir : DirectoryRecord := ⟨0, noLink, noLink, 0x21, noLink, 1⟩

/-- A file in the root, in front of the other file in the bucket. -/
def rootFile : FileRecord := ⟨0, noLink, 0, 2, 0x21, 1⟩

/-- A file in the directory. -/
def dirFile : FileRecord := ⟨0x18, noLink, 2, 2, noLink, 1⟩

/-- A directory `a`, and a file `f` in the root and one in `a`. Each table has one bucket. -/
def parts : Parts where
  dirBuckets := [0]
  fileBuckets := [0]
  dirTable := DirectoryRecord.layout.encode root ++
    (DirectoryRecord.layout.encode dir ++ Utf8.encode "a")
  fileTable := FileRecord.layout.encode rootFile ++ (Utf8.encode "f" ++
    (FileRecord.layout.encode dirFile ++ Utf8.encode "f"))
  data := [1, 2, 3, 4]

/-- What the walk of the tables gives. -/
def arena : Arena :=
  ((Arena.ofRoot.addFile ⟨"f", 0, 0, 2, 0⟩ "/f").addChild 0 "a" 0x18 "/a").addFile
    ⟨"f", 1, 2, 2, 0x21⟩ "/a/f"

theorem root_at : DirectoryAt parts.dirTable 0 root "" := readDirectory_eq_ok_iff.mp rfl

theorem dir_at : DirectoryAt parts.dirTable 0x18 dir "a" := readDirectory_eq_ok_iff.mp rfl

theorem rootFile_at : FileAt parts.fileTable 0 rootFile "f" := readFile_eq_ok_iff.mp rfl

theorem dirFile_at : FileAt parts.fileTable 0x21 dirFile "f" := readFile_eq_ok_iff.mp rfl

theorem walk_parts : walk parts.dirTable parts.fileTable = .ok arena := by
  have hrootFile : followFiles parts.fileTable ⟨0, "/", 0x18, 0⟩ 0 .ofRoot =
      .ok (Arena.ofRoot.addFile ⟨"f", 0, 0, 2, 0⟩ "/f") :=
    (followFiles_of_read (by decide) (by decide) (readFile_eq_ok_iff.mpr rootFile_at)).trans
      (followFiles_noLink ..)
  have hdir : followChildren parts.dirTable ⟨0, "/", 0x18, 0⟩ 0x18
      (Arena.ofRoot.addFile ⟨"f", 0, 0, 2, 0⟩ "/f") =
      .ok ((Arena.ofRoot.addFile ⟨"f", 0, 0, 2, 0⟩ "/f").addChild 0 "a" 0x18 "/a",
        [⟨1, "/a", noLink, 0x21⟩]) :=
    followChildren_of_read (by decide) (by decide) (readDirectory_eq_ok_iff.mpr dir_at)
      (followChildren_noLink ..)
  have hdirFile : followFiles parts.fileTable ⟨1, "/a", noLink, 0x21⟩ 0x21
      ((Arena.ofRoot.addFile ⟨"f", 0, 0, 2, 0⟩ "/f").addChild 0 "a" 0x18 "/a") = .ok arena :=
    (followFiles_of_read (by decide) (by decide) (readFile_eq_ok_iff.mpr dirFile_at)).trans
      (followFiles_noLink ..)
  calc walk parts.dirTable parts.fileTable
    _ = visit parts.dirTable parts.fileTable [⟨0, "/", 0x18, 0⟩] .ofRoot :=
        walk_of_read (readDirectory_eq_ok_iff.mpr root_at)
    _ = visit parts.dirTable parts.fileTable [⟨1, "/a", noLink, 0x21⟩]
          ((Arena.ofRoot.addFile ⟨"f", 0, 0, 2, 0⟩ "/f").addChild 0 "a" 0x18 "/a") :=
        visit_of_follow hrootFile hdir
    _ = visit parts.dirTable parts.fileTable [] arena :=
        visit_of_follow hdirFile (followChildren_noLink ..)
    _ = .ok arena := visit_nil ..

theorem fits_parts : parts.Fits where
  dirHash := by decide
  fileHash := by decide
  dirTable := by decide
  fileTable := by decide
  image := by
    rw [show parts.image.length = 0xCF from rfl]
    decide

/-- What parsing the image gives. -/
def tree : Tree := parts.tree arena

theorem dirBucket_tree : DirBucket tree.dirTable 0 [0, 0x18] :=
  .cons (by decide) root_at (.cons (by decide) dir_at .nil)

theorem fileBucket_tree : FileBucket tree.fileTable 0 [0, 0x21] :=
  .cons (by decide) rootFile_at (.cons (by decide) dirFile_at .nil)

theorem dir?_tree {id : Nat} {d : Directory} (h : tree.dir? id = some d) :
    id = 0 ∧ d = ⟨"", none, #[1], #[0], 0⟩ ∨ id = 1 ∧ d = ⟨"a", some 0, #[], #[1], 0x18⟩ := by
  rcases id with _ | _ | id
  · cases h
    exact .inl ⟨rfl, rfl⟩
  · cases h
    exact .inr ⟨rfl, rfl⟩
  · cases h

theorem file?_tree {id : Nat} {f : File} (h : tree.file? id = some f) :
    id = 0 ∧ f = ⟨"f", 0, 0, 2, 0⟩ ∨ id = 1 ∧ f = ⟨"f", 1, 2, 2, 0x21⟩ := by
  rcases id with _ | _ | id
  · cases h
    exact .inl ⟨rfl, rfl⟩
  · cases h
    exact .inr ⟨rfl, rfl⟩
  · cases h

theorem wellHashed_tree : tree.WellHashed where
  dir_unique := by
    intro id id' d d' hd hd' hparent _
    rcases dir?_tree hd with ⟨rfl, rfl⟩ | ⟨rfl, rfl⟩ <;>
      rcases dir?_tree hd' with ⟨rfl, rfl⟩ | ⟨rfl, rfl⟩ <;> first | rfl | cases hparent
  file_unique := by
    intro id id' f f' hf hf' hparent _
    rcases file?_tree hf with ⟨rfl, rfl⟩ | ⟨rfl, rfl⟩ <;>
      rcases file?_tree hf' with ⟨rfl, rfl⟩ | ⟨rfl, rfl⟩ <;> first | rfl | cases hparent
  file_name_ne_empty := by
    intro id f hf
    rcases file?_tree hf with ⟨rfl, rfl⟩ | ⟨rfl, rfl⟩ <;> decide
  file_parent := by
    intro id f record name dir hf hread hdir
    rcases file?_tree hf with ⟨rfl, rfl⟩ | ⟨rfl, rfl⟩
    · rw [(hread.unique rootFile_at).1]
      cases hdir
      rfl
    · rw [(hread.unique dirFile_at).1]
      cases hdir
      rfl
  dir_reached := by
    intro id d parent hd hparent
    rcases dir?_tree hd with ⟨rfl, rfl⟩ | ⟨rfl, rfl⟩
    · cases hparent
    · cases hparent
      exact ⟨0, _, by decide, dirBucket_tree, by decide, by decide⟩
  file_reached := by
    intro id f dir hf hdir
    rcases file?_tree hf with ⟨rfl, rfl⟩ | ⟨rfl, rfl⟩
    · cases hdir
      exact ⟨0, _, by decide, fileBucket_tree, by decide, by decide⟩
    · cases hdir
      exact ⟨0, _, by decide, fileBucket_tree, by decide, by decide⟩

theorem exact_tree :
    ∃ i, (Image.tree parts.media).outcome (.ofView parts.view) = (.ok tree, i) ∧
      tree.WellHashed ∧ tree.Exact := by
  obtain ⟨i, h⟩ := fits_parts.outcome_tree walk_parts
  exact ⟨i, h, wellHashed_tree, Image.exact_of_wellHashed h wellHashed_tree⟩

end Colliding

end Cartridge.RomFs
