import Cartridge.Proofs.RomFs.Records
import Cartridge.Proofs.Streams
import Cartridge.RomFs.Image

/-!
# Parsing up to the walk

Parsing reads the header and four tables and hands two of the tables to the walk. Nothing behind the
tables can fail but the walk, and what the walk gives is what parsing gives.

Results:
* `TablesRead.result_read`: once the tables are read, the answer is that of the walk.
* `Tree.read_eq_ok`: a tree that parsing gives is a walk of tables that were read.
* `Image.Sound.outcome_tree`: an image answers as parsing does, whether it holds the tree already or
  not.
-/

namespace Cartridge.RomFs

/-- What parsing reads before it walks the tree. -/
structure TablesRead (region : Region) (media : Media) (header : Header)
    (dirHash fileHash dirTable fileTable : List UInt8) : Prop where
  header_eq : Header.layout.decodeAt (region.streamAt media) 0 = .ok header
  headerSize_eq : header.headerSize.toNat = Header.size
  dirHash_eq : readTable region media .hash header.dirHashOffset.toNat header.dirHashSize.toNat =
    .ok dirHash
  fileHash_eq : readTable region media .hash header.fileHashOffset.toNat
    header.fileHashSize.toNat = .ok fileHash
  dirTable_eq : readTable region media .directory header.dirTableOffset.toNat
    header.dirTableSize.toNat = .ok dirTable
  fileTable_eq : readTable region media .file header.fileTableOffset.toNat
    header.fileTableSize.toNat = .ok fileTable

section Parsing

variable {region : Region} {media : Media} {header : Header}
  {dirHash fileHash dirTable fileTable : List UInt8}

/-- Once the tables are read, the answer is that of the walk. -/
theorem TablesRead.result_read
    (h : TablesRead region media header dirHash fileHash dirTable fileTable) :
    (Tree.read region media).result =
      match walk dirTable fileTable with
      | .error fault => .error (.malformedTree fault)
      | .ok arena =>
        .ok ⟨arena, header, bucketsOf dirHash, bucketsOf fileHash, dirTable, fileTable⟩ := by
  unfold Tree.read
  simp only [Traced.result_bind, Traced.result_liftM, h.header_eq, ok_bind]
  rw [if_neg (not_not_intro h.headerSize_eq)]
  simp only [Traced.result_bind, Traced.result_liftM, Traced.result_emit, h.dirHash_eq,
    h.fileHash_eq, h.dirTable_eq, h.fileTable_eq, ok_bind]
  cases walk dirTable fileTable with
  | error fault => rfl
  | ok arena => rfl

/-- A tree that parsing gives is a walk of tables that were read. -/
theorem Tree.read_eq_ok {t : Tree} (h : (Tree.read region media).result = .ok t) :
    ∃ dirHash fileHash,
      TablesRead region media t.header dirHash fileHash t.dirTable t.fileTable ∧
        walk t.dirTable t.fileTable = .ok t.toArena := by
  have hread := h
  unfold Tree.read at h
  simp only [Traced.result_bind, Traced.result_liftM] at h
  obtain ⟨header, hheader, h⟩ := bind_eq_ok_iff.mp h
  by_cases hsize : header.headerSize.toNat = Header.size
  · rw [if_neg (not_not_intro hsize)] at h
    simp only [Traced.result_bind, Traced.result_liftM, Traced.result_emit, ok_bind] at h
    obtain ⟨dirHash, hdirHash, h⟩ := bind_eq_ok_iff.mp h
    obtain ⟨fileHash, hfileHash, h⟩ := bind_eq_ok_iff.mp h
    obtain ⟨dirTable, hdirTable, h⟩ := bind_eq_ok_iff.mp h
    obtain ⟨fileTable, hfileTable, h⟩ := bind_eq_ok_iff.mp h
    have htables : TablesRead region media header dirHash fileHash dirTable fileTable :=
      ⟨hheader, hsize, hdirHash, hfileHash, hdirTable, hfileTable⟩
    rw [htables.result_read] at hread
    cases hwalk : walk dirTable fileTable with
    | error fault =>
      rw [hwalk] at hread
      cases hread
    | ok arena =>
      rw [hwalk] at hread
      cases hread
      exact ⟨dirHash, fileHash, htables, hwalk⟩
  · rw [if_pos hsize] at h
    cases h

/-! ## Stored tables -/

/-- A table of a size that parsing accepts lies at an offset of the image. -/
structure TableAt (image : List UInt8) (offset size : UInt64) (table : List UInt8) : Prop where
  size_le : size.toNat ≤ greatestTableSize
  slice_eq : slice? image offset.toNat size.toNat = some table

/-- An image begins with a valid header, and the four tables lie where the header says. -/
structure Stored (image : List UInt8) (header : Header)
    (dirHash fileHash dirTable fileTable : List UInt8) : Prop where
  header_eq : slice? image 0 Header.layout.size = some (Header.layout.encode header)
  headerSize_eq : header.headerSize.toNat = Header.size
  dirHash_at : TableAt image header.dirHashOffset header.dirHashSize dirHash
  fileHash_at : TableAt image header.fileHashOffset header.fileHashSize fileHash
  dirTable_at : TableAt image header.dirTableOffset header.dirTableSize dirTable
  fileTable_at : TableAt image header.fileTableOffset header.fileTableSize fileTable

variable {image : List UInt8}

theorem readTable_of_holds (hr : region.Holds media image) {what : TreeTable}
    {offset size : UInt64} {table : List UInt8} (h : TableAt image offset size table) :
    readTable region media what offset.toNat size.toNat = .ok table := by
  obtain ⟨hle, rfl⟩ := slice?_eq_some_iff.mp h.slice_eq
  unfold readTable
  rw [if_neg (Nat.not_lt.mpr h.size_le), hr.readAt_eq hle]
  rfl

/-- A fault-free image gives the tables that are stored in it. -/
theorem Stored.tablesRead (h : Stored image header dirHash fileHash dirTable fileTable)
    (hr : region.Holds media image) :
    TablesRead region media header dirHash fileHash dirTable fileTable where
  header_eq := (hr.decodeAt_eq Header.layout (Nat.zero_le _)).trans
    ((Layout.decodeAt_eq_ok_iff _).mpr h.header_eq)
  headerSize_eq := h.headerSize_eq
  dirHash_eq := readTable_of_holds hr h.dirHash_at
  fileHash_eq := readTable_of_holds hr h.fileHash_at
  dirTable_eq := readTable_of_holds hr h.dirTable_at
  fileTable_eq := readTable_of_holds hr h.fileTable_at

/-! ## Images -/

namespace Image

/-- An image that holds no tree but the one that parsing gives. -/
def Sound (media : Media) (i : Image) : Prop :=
  i.slot.Agrees (Tree.read i.view.region media).result

theorem sound_ofView (media : Media) (view : View) : (ofView view).Sound media :=
  Slot.agrees_unparsed _

/-- An image answers as parsing does, whether it holds the tree already or not. -/
theorem Sound.outcome_tree {i : Image} (hi : i.Sound media) :
    ∃ i', (tree media).outcome i = ((Tree.read i.view.region media).result, i') ∧
      i'.view = i.view ∧ i'.Sound media := by
  obtain ⟨slot, hforce, hslot⟩ :=
    @Slot.Agrees.force _ (fun _ => Tree.read i.view.region media) _ hi
  refine ⟨{ i with slot := slot }, ?_, rfl, hslot⟩
  have hanswer := congrArg Prod.fst hforce
  have hstate := congrArg Prod.snd hforce
  exact Prod.ext hanswer (congrArg (fun slot => { i with slot := slot }) hstate)

theorem read_of_outcome_tree {view : View} {t : Tree} {i : Image}
    (h : (tree media).outcome (ofView view) = (.ok t, i)) :
    (Tree.read view.region media).result = .ok t := by
  obtain ⟨i', heq, -⟩ := (sound_ofView media view).outcome_tree
  rw [heq] at h
  exact congrArg Prod.fst h

/-- An image that has answered with its tree goes on answering as parsing does. -/
theorem sound_of_outcome_tree {view : View} {t : Tree} {i : Image}
    (h : (tree media).outcome (ofView view) = (.ok t, i)) :
    i.Sound media ∧ (Tree.read i.view.region media).result = .ok t := by
  have hread := read_of_outcome_tree h
  obtain ⟨i', heq, hview, hi'⟩ := (sound_ofView media view).outcome_tree
  rw [heq] at h
  obtain rfl : i' = i := congrArg Prod.snd h
  refine ⟨hi', ?_⟩
  rw [hview]
  exact hread

section Answers

variable {i : Image} {t : Tree}

/-- An image whose tables give a tree answers with that tree. -/
theorem Sound.outcome_tree_of_read (hi : i.Sound media)
    (hread : (Tree.read i.view.region media).result = .ok t) :
    ∃ i', (tree media).outcome i = (.ok t, i') ∧ i'.view = i.view ∧ i'.Sound media := by
  obtain ⟨i', heq, hview, hi'⟩ := hi.outcome_tree
  rw [hread] at heq
  exact ⟨i', heq, hview, hi'⟩

theorem Sound.outcome_parse (hi : i.Sound media)
    (hread : (Tree.read i.view.region media).result = .ok t) :
    ∃ i', (parse media).outcome i = (.ok (), i') := by
  obtain ⟨i', heq, -⟩ := hi.outcome_tree_of_read hread
  refine ⟨i', ?_⟩
  rw [parse, Access.outcome_bind, heq]
  rfl

theorem Sound.outcome_listFiles (hi : i.Sound media)
    (hread : (Tree.read i.view.region media).result = .ok t) :
    ∃ i', (listFiles media).outcome i = (.ok t.fileEntries.keys, i') := by
  obtain ⟨i', heq, -⟩ := hi.outcome_tree_of_read hread
  refine ⟨i', ?_⟩
  rw [listFiles, Access.outcome_bind, heq]
  rfl

theorem Sound.outcome_file (hi : i.Sound media)
    (hread : (Tree.read i.view.region media).result = .ok t) (path : String) :
    ∃ i', (file media path).outcome i = (t.file path, i') ∧ i'.view = i.view ∧
      i'.Sound media := by
  obtain ⟨i', heq, hview, hi'⟩ := hi.outcome_tree_of_read hread
  refine ⟨i', ?_, hview, hi'⟩
  rw [file, Access.outcome_bind, heq]
  rfl

/-- Opening a path opens the data of the file that is looked up. -/
theorem Sound.outcome_openFile (hi : i.Sound media)
    (hread : (Tree.read i.view.region media).result = .ok t) {path : String} {f : File}
    (hf : t.file path = .ok f) :
    ∃ i', (openFile media path).outcome i =
      ((t.openData i.view f.name f.dataOffset f.dataSize).result, i') := by
  obtain ⟨i', hfile, hview, hi'⟩ := hi.outcome_file hread path
  rw [← hview] at hread
  obtain ⟨i'', htree, hview', -⟩ := hi'.outcome_tree_of_read hread
  refine ⟨i'', ?_⟩
  rw [openFile, Access.outcome_bind, hfile, hf]
  dsimp only
  rw [openData, Access.outcome_bind, htree, ← hview, ← hview']
  rfl

end Answers

end Image

/-- The data of a file is a slice of the image, if the image has it all. -/
theorem Tree.openData_of_le {t : Tree} {view : View} (hv : view.region.Holds media image)
    (name : String) {dataOffset dataSize : UInt64}
    (hin : t.header.fileDataOffset.toNat + dataOffset.toNat + dataSize.toNat ≤ image.length) :
    ∃ data, (t.openData view name dataOffset dataSize).result = .ok data ∧ data.position = 0 ∧
      data.region.Holds media
        (slice image (t.header.fileDataOffset.toNat + dataOffset.toNat) dataSize.toNat) := by
  have hsize := hv.size_eq
  have haddressable := hv.addressable
  have hle : t.header.fileDataOffset.toNat + dataOffset.toNat + dataSize.toNat ≤
      view.region.size := by omega
  refine ⟨.ofRegion (.part view.region (t.header.fileDataOffset.toNat + dataOffset.toNat)
    dataSize.toNat), ?_, rfl, hv.part hle⟩
  unfold openData
  dsimp only
  rw [if_neg (by omega)]
  simp only [Traced.result_bind, Traced.result_emit, Traced.result_liftM, ok_bind]
  exact bind_eq_ok_iff.mpr ⟨_, Region.subregion_eq_ok_iff.mpr ⟨hle, rfl⟩, rfl⟩

/-- The data of a file of which the image lacks a part cannot be opened. -/
theorem Tree.openData_of_lt {t : Tree} {view : View} (hv : view.region.Holds media image)
    (name : String) {dataOffset dataSize : UInt64}
    (hout : image.length < t.header.fileDataOffset.toNat + dataOffset.toNat + dataSize.toNat) :
    ∃ e, (t.openData view name dataOffset dataSize).result = .error e := by
  have hsize := hv.size_eq
  unfold openData
  dsimp only
  split
  · exact ⟨_, rfl⟩
  · simp only [Traced.result_bind, Traced.result_emit, Traced.result_liftM, ok_bind]
    cases hsub : view.subview (t.header.fileDataOffset.toNat + dataOffset.toNat)
        dataSize.toNat with
    | error e => exact ⟨e, rfl⟩
    | ok data =>
      obtain ⟨r, hr, -⟩ := bind_eq_ok_iff.mp hsub
      have hle := (Region.subregion_eq_ok_iff.mp hr).1
      omega

end Parsing

/-! ## A small image -/

namespace Specimen

/-- The root record leads to one directory. -/
def root : DirectoryRecord := ⟨0, noLink, 0x18, noLink, noLink, 0⟩

/-- A directory with a file. -/
def dir : DirectoryRecord := ⟨0, noLink, noLink, 0, noLink, 1⟩

/-- A file of four bytes. -/
def file : FileRecord := ⟨0x18, noLink, 0, 4, noLink, 1⟩

/-- The root and a directory `a` in it. -/
def dirTable : List UInt8 :=
  DirectoryRecord.layout.encode root ++ (Utf8.encode "" ++
    (DirectoryRecord.layout.encode dir ++ (Utf8.encode "a" ++ [])))

/-- A file `f`. -/
def fileTable : List UInt8 := FileRecord.layout.encode file ++ (Utf8.encode "f" ++ [])

def header : Header where
  headerSize := 0x50
  dirHashOffset := 0
  dirHashSize := 0
  dirTableOffset := 0x50
  dirTableSize := 0x31
  fileHashOffset := 0
  fileHashSize := 0
  fileTableOffset := 0x81
  fileTableSize := 0x21
  fileDataOffset := 0xA2

/-- Header, tables and the data of the file. -/
def image : List UInt8 := Header.layout.encode header ++ (dirTable ++ (fileTable ++ [1, 2, 3, 4]))

def media : Media := ⟨[.memory image]⟩

def view : View := .ofRegion (.medium 0 0xA6)

theorem holds_image : view.region.Holds media image := Region.holds_memory rfl (by decide)

theorem stored_image : Stored image header [] [] dirTable fileTable where
  header_eq := slice?_append [] _ rfl (Layout.length_encode _ header)
  headerSize_eq := rfl
  dirHash_at := ⟨Nat.zero_le _, slice?_of_le (Nat.zero_le _)⟩
  fileHash_at := ⟨Nat.zero_le _, slice?_of_le (Nat.zero_le _)⟩
  dirTable_at := ⟨by decide, slice?_append (Header.layout.encode header) _ rfl rfl⟩
  fileTable_at := by
    refine ⟨by decide, ?_⟩
    rw [image, ← List.append_assoc]
    exact slice?_append (Header.layout.encode header ++ dirTable) _ rfl rfl

theorem root_at : DirectoryAt dirTable 0 root "" := RecordAt.of_append [] _ rfl rfl

theorem dir_at : DirectoryAt dirTable 0x18 dir "a" := by
  unfold dirTable
  rw [← List.append_assoc]
  exact RecordAt.of_append (DirectoryRecord.layout.encode root ++ Utf8.encode "") [] rfl rfl

theorem file_at : FileAt fileTable 0 file "f" := RecordAt.of_append [] [] rfl rfl

/-- What the walk of the tables gives. -/
def arena : Arena :=
  (Arena.ofRoot.addChild 0 "a" 0x18 "/a").addFile ⟨"f", 1, 0, 4, 0⟩ "/a/f"

theorem walk_tables : walk dirTable fileTable = .ok arena := by
  have hchild : followChildren dirTable ⟨0, "/", 0x18, noLink⟩ 0x18 .ofRoot =
      .ok (Arena.ofRoot.addChild 0 "a" 0x18 "/a", [⟨1, "/a", noLink, 0⟩]) :=
    followChildren_of_read (by decide) (by decide) (readDirectory_eq_ok_iff.mpr dir_at)
      (followChildren_noLink ..)
  have hfile : followFiles fileTable ⟨1, "/a", noLink, 0⟩ 0
      (Arena.ofRoot.addChild 0 "a" 0x18 "/a") = .ok arena :=
    (followFiles_of_read (by decide) (by decide) (readFile_eq_ok_iff.mpr file_at)).trans
      (followFiles_noLink ..)
  calc walk dirTable fileTable
    _ = visit dirTable fileTable [⟨0, "/", 0x18, noLink⟩] .ofRoot :=
        walk_of_read (readDirectory_eq_ok_iff.mpr root_at)
    _ = visit dirTable fileTable [⟨1, "/a", noLink, 0⟩] (Arena.ofRoot.addChild 0 "a" 0x18 "/a") :=
        visit_of_follow (followFiles_noLink ..) hchild
    _ = visit dirTable fileTable [] arena :=
        visit_of_follow hfile (followChildren_noLink ..)
    _ = .ok arena := visit_nil ..

/-- What parsing the image gives. -/
def tree : Tree := ⟨arena, header, bucketsOf [], bucketsOf [], dirTable, fileTable⟩

theorem outcome_tree : ∃ i, (Image.tree media).outcome (.ofView view) = (.ok tree, i) := by
  obtain ⟨i, heq, -⟩ := (Image.sound_ofView media view).outcome_tree
  have hread : (Tree.read view.region media).result = .ok tree := by
    rw [(stored_image.tablesRead holds_image).result_read, walk_tables]
    rfl
  exact ⟨i, heq.trans (congrArg (·, i) hread)⟩

end Specimen

end Cartridge.RomFs
