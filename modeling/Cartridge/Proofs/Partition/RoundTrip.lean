import Cartridge.Proofs.Partition.Reading

/-!
# Files in and out of a partition filesystem

Files are put into an archive as a header, one record for each file, a string table that has their
names with a zero behind each and any number of zeros at the end, and their data one behind the other.
Parsing the archive gives the files back: their names, where their data lies, what their records hold
besides, and the data itself.

Results:
* `Parts.Fits.tablesIn_image`: the tables lie in the image where parsing looks for them.
* `Parts.Fits.result_read`: parsing gives one entry for each file.
* `Parts.Fits.slice_image`: the data of a file lies in the image where its entry says.
* `Parts.Fits.unpacks`: an archive gives back the files that it was made of.
-/

namespace Cartridge.Partition

/-- A file to be stored: its name, its data, and what its record holds behind the place of the name. -/
structure Content (F : Flavor) where
  name : String
  data : List UInt8
  tail : F.Tail

/-- What an archive is made of. -/
structure Parts (F : Flavor) where
  files : List (Content F)
  /-- The number of zeros at the end of the string table. -/
  padding : Nat
  /-- The unused bytes of the header. -/
  reserved : Bytes 4

section Writing

variable {F : Flavor}

/-! ## The image -/

/-- The names, each with a zero behind it. -/
def nameBytes (files : List (Content F)) : List UInt8 :=
  files.flatMap fun f => Utf8.encode f.name ++ [0]

/-- The data of the files, one behind the other. -/
def dataBytes (files : List (Content F)) : List UInt8 := files.flatMap Content.data

theorem nameBytes_cons (f : Content F) (rest : List (Content F)) :
    nameBytes (f :: rest) = Utf8.encode f.name ++ 0 :: nameBytes rest := by
  rw [nameBytes, List.flatMap_cons, List.append_assoc]
  rfl

theorem dataBytes_cons (f : Content F) (rest : List (Content F)) :
    dataBytes (f :: rest) = f.data ++ dataBytes rest := List.flatMap_cons

/-- The records of files whose data and names begin at these places of their regions. -/
def recordsFrom : (dataOffset nameOffset : Nat) → List (Content F) → List (Record F)
  | _, _, [] => []
  | dataOffset, nameOffset, f :: rest =>
    ⟨.ofNat dataOffset, .ofNat f.data.length, .ofNat nameOffset, f.tail⟩ ::
      recordsFrom (dataOffset + f.data.length) (nameOffset + (Utf8.encode f.name).length + 1) rest

/-- The entry of a file whose data begins at this place. -/
def Content.entryAt (f : Content F) (dataOffset : Nat) : Entry F :=
  ⟨f.name, .ofNat dataOffset, .ofNat f.data.length, f.tail⟩

/-- An entry has the name of a file, its size and what belongs to it, and this place of the data
region. -/
structure Content.IsAt (f : Content F) (dataOffset : Nat) (e : Entry F) : Prop where
  name_eq : e.name = f.name
  dataOffset_eq : e.dataOffset.toNat = dataOffset
  dataSize_eq : e.dataSize.toNat = f.data.length
  tail_eq : e.tail = f.tail

theorem Content.isAt_entryAt (f : Content F) {dataOffset : Nat}
    (h : dataOffset + f.data.length < UInt64.size) : f.IsAt dataOffset (f.entryAt dataOffset) where
  name_eq := rfl
  dataOffset_eq := UInt64.toNat_ofNat_of_lt' (by omega)
  dataSize_eq := UInt64.toNat_ofNat_of_lt' (by omega)
  tail_eq := rfl

/-- The entries of files whose data begins at this place. -/
def entriesFrom : (dataOffset : Nat) → List (Content F) → List (Entry F)
  | _, [] => []
  | dataOffset, f :: rest => f.entryAt dataOffset :: entriesFrom (dataOffset + f.data.length) rest

namespace Parts

variable (p : Parts F)

/-- The string table. -/
def strings : List UInt8 := nameBytes p.files ++ List.replicate p.padding 0

/-- The header. -/
def header : Header where
  magic := F.magic
  fileCount := .ofNat p.files.length
  stringTableSize := .ofNat p.strings.length
  reserved := p.reserved

/-- The records. -/
def records : List (Record F) := recordsFrom 0 0 p.files

/-- The image: header, records, string table and data. -/
def image : List UInt8 :=
  Header.layout.encode p.header ++ (p.records.flatMap (Record.layout F).encode ++
    (p.strings ++ dataBytes p.files))

/-- The table that parsing gives. -/
def table : Table F := ⟨p.header, tablesSize F p.header, .indexed Entry.name (entriesFrom 0 p.files)⟩

/-- The names are different and without zeros, and there are not too many of them for the header. -/
structure Fits : Prop where
  names_nodup : (p.files.map Content.name).Nodup
  no_zero : ∀ f ∈ p.files, ∀ c ∈ f.name.toList, c.toNat ≠ 0
  count_lt : p.files.length < UInt32.size
  strings_lt : p.strings.length < UInt32.size

end Parts

/-! ## Names -/

/-- A character other than the zero is written without zeros. -/
theorem zero_not_mem_encodeChar {c : Char} (hc : c.toNat ≠ 0) : (0 : UInt8) ∉ Utf8.encodeChar c := by
  have hne {n : Nat} (hn : n % 256 ≠ 0) : (0 : UInt8) ≠ UInt8.ofNat n := by
    intro heq
    exact hn (congrArg UInt8.toNat heq).symm
  have hlt : c.toNat < 0x110000 := by
    rcases Utf8.toNat_cases c with h | h <;> omega
  unfold Utf8.encodeChar
  dsimp only
  split
  · rw [List.mem_singleton]
    exact hne (by omega)
  · split
    · simp only [List.mem_cons, List.not_mem_nil, or_false, not_or]
      exact ⟨hne (by omega), hne (by omega)⟩
    · split
      · simp only [List.mem_cons, List.not_mem_nil, or_false, not_or]
        exact ⟨hne (by omega), hne (by omega), hne (by omega)⟩
      · simp only [List.mem_cons, List.not_mem_nil, or_false, not_or]
        exact ⟨hne (by omega), hne (by omega), hne (by omega), hne (by omega)⟩

theorem zero_not_mem_encode {name : String} (h : ∀ c ∈ name.toList, c.toNat ≠ 0) :
    (0 : UInt8) ∉ Utf8.encode name := by
  rw [Utf8.encode, List.mem_flatMap]
  rintro ⟨c, hc, hmem⟩
  exact zero_not_mem_encodeChar (h c hc) hmem

/-- A name without zeros is read back from between the names around it. -/
theorem nameAt_append {name : String} (h : ∀ c ∈ name.toList, c.toNat ≠ 0) (front back : List UInt8) :
    NameAt (front ++ (Utf8.encode name ++ 0 :: back)) front.length name where
  offset_le := by
    rw [List.length_append]
    exact Nat.le_add_right _ _
  bytes_eq := by
    rw [List.drop_left, List.takeWhile_append_of_pos, List.takeWhile_cons_of_neg, List.append_nil]
    · simp
    · intro b hb
      simp only [bne_iff_ne, ne_eq]
      rintro rfl
      exact zero_not_mem_encode h hb

/-! ## Records and entries -/

theorem length_recordsFrom (dataOffset nameOffset : Nat) (files : List (Content F)) :
    (recordsFrom dataOffset nameOffset files).length = files.length := by
  induction files generalizing dataOffset nameOffset with
  | nil => rfl
  | cons f rest ih => rw [recordsFrom, List.length_cons, ih, List.length_cons]

theorem map_name_entriesFrom (dataOffset : Nat) (files : List (Content F)) :
    (entriesFrom dataOffset files).map Entry.name = files.map Content.name := by
  induction files generalizing dataOffset with
  | nil => rfl
  | cons f rest ih =>
    rw [entriesFrom, List.map_cons, ih, List.map_cons]
    rfl

/-- The entry of a file is behind those of the files in front of it. -/
theorem entriesFrom_append (dataOffset : Nat) (front : List (Content F)) (f : Content F)
    (back : List (Content F)) :
    entriesFrom dataOffset (front ++ f :: back) =
      entriesFrom dataOffset front ++ f.entryAt (dataOffset + (dataBytes front).length) ::
        entriesFrom (dataOffset + (dataBytes front).length + f.data.length) back := by
  induction front generalizing dataOffset with
  | nil => rfl
  | cons first front ih =>
    rw [List.cons_append, entriesFrom, ih, entriesFrom, dataBytes_cons, List.length_append,
      ← Nat.add_assoc, List.cons_append]

/-- **Each record stands for its file's entry.** -/
theorem forall₂_denotes {files : List (Content F)}
    (hzero : ∀ f ∈ files, ∀ c ∈ f.name.toList, c.toNat ≠ 0) {strings front back : List UInt8}
    (hstrings : strings = front ++ (nameBytes files ++ back)) (hlength : strings.length < UInt32.size)
    {nameOffset dataOffset dataSize : Nat} (hfront : front.length = nameOffset)
    (hdata : dataOffset + (dataBytes files).length ≤ dataSize) (hdataSize : dataSize < UInt64.size) :
    List.Forall₂ (fun r e => r.Denotes strings dataSize e)
      (recordsFrom dataOffset nameOffset files) (entriesFrom dataOffset files) := by
  induction files generalizing front nameOffset dataOffset with
  | nil => exact .nil
  | cons f rest ih =>
    obtain ⟨hf, hrest⟩ := List.forall_mem_cons.mp hzero
    rw [dataBytes_cons, List.length_append] at hdata
    rw [nameBytes_cons, List.append_assoc, List.cons_append] at hstrings
    have hoffset : (UInt32.ofNat nameOffset).toNat = nameOffset := by
      refine UInt32.toNat_ofNat_of_lt' ?_
      rw [hstrings, List.length_append] at hlength
      omega
    have hdataOffset : (UInt64.ofNat dataOffset).toNat = dataOffset :=
      UInt64.toNat_ofNat_of_lt' (by omega)
    have hsize : (UInt64.ofNat f.data.length).toNat = f.data.length :=
      UInt64.toNat_ofNat_of_lt' (by omega)
    refine .cons ⟨?_, ?_, rfl, rfl, rfl⟩ ?_
    · dsimp only
      rw [hoffset, hstrings, ← hfront]
      exact nameAt_append hf front _
    · dsimp only
      rw [hdataOffset, hsize]
      omega
    · have hnext : strings =
          (front ++ (Utf8.encode f.name ++ [0])) ++ (nameBytes rest ++ back) := by
        rw [hstrings]
        simp only [List.append_assoc, List.cons_append, List.nil_append]
      refine ih hrest hnext ?_ (by omega)
      simp only [List.length_append, List.length_singleton, hfront, Nat.add_assoc]

/-! ## Parsing the image -/

/-- Tables lie where parsing looks for them if the header gives their sizes. -/
theorem tablesIn_append {h : Header} {records : List (Record F)} {strings : List UInt8}
    (hcount : records.length = h.fileCount.toNat)
    (hstrings : strings.length = h.stringTableSize.toNat) (data : List UInt8) :
    TablesIn F (Header.layout.encode h ++ (records.flatMap (Record.layout F).encode ++
      (strings ++ data))) h records strings := by
  have hheader : (Header.layout.encode h).length = Header.layout.size := Layout.length_encode _ h
  have hrecords : (records.flatMap (Record.layout F).encode).length =
      h.fileCount.toNat * (Record.layout F).size := by
    rw [length_flatMap (Layout.length_encode (Record.layout F)), hcount]
  constructor
  · exact slice?_append [] _ rfl hheader
  · exact hcount
  · exact slice?_append _ _ hheader hrecords
  · rw [← List.append_assoc]
    refine slice?_append _ _ ?_ hstrings
    rw [List.length_append, hheader, hrecords]

namespace Parts

variable {p : Parts F}

theorem length_image (p : Parts F) :
    p.image.length = Header.layout.size + p.files.length * (Record.layout F).size +
      p.strings.length + (dataBytes p.files).length := by
  simp only [image, List.length_append, Layout.length_encode, records, length_recordsFrom,
    length_flatMap (Layout.length_encode (Record.layout F))]
  omega

theorem Fits.tablesSize_eq (h : p.Fits) : tablesSize F p.header =
    Header.layout.size + p.files.length * (Record.layout F).size + p.strings.length := by
  have hcount : p.header.fileCount.toNat = p.files.length := UInt32.toNat_ofNat_of_lt' h.count_lt
  have hstrings : p.header.stringTableSize.toNat = p.strings.length :=
    UInt32.toNat_ofNat_of_lt' h.strings_lt
  rw [tablesSize, hcount, hstrings]

/-- **The tables lie in the image where parsing looks for them.** -/
theorem Fits.tablesIn_image (h : p.Fits) : TablesIn F p.image p.header p.records p.strings := by
  refine tablesIn_append ?_ ?_ _
  · rw [records, length_recordsFrom]
    exact (UInt32.toNat_ofNat_of_lt' h.count_lt).symm
  · exact (UInt32.toNat_ofNat_of_lt' h.strings_lt).symm

/-- **The data of a file lies in the image where its entry says.** -/
theorem Fits.slice_image (h : p.Fits) {front back : List (Content F)} {f : Content F}
    (heq : p.files = front ++ f :: back) :
    slice? p.image (tablesSize F p.header + (dataBytes front).length) f.data.length =
      some f.data := by
  have hdata : dataBytes p.files = dataBytes front ++ (f.data ++ dataBytes back) := by
    rw [heq, dataBytes, List.flatMap_append, List.flatMap_cons]
    rfl
  have himage : p.image = (Header.layout.encode p.header ++
      (p.records.flatMap (Record.layout F).encode ++ (p.strings ++ dataBytes front))) ++
        (f.data ++ dataBytes back) := by
    simp only [image, hdata, List.append_assoc]
  rw [himage, h.tablesSize_eq]
  refine slice?_append _ _ ?_ rfl
  simp only [List.length_append, Layout.length_encode, records, length_recordsFrom,
    length_flatMap (Layout.length_encode (Record.layout F)), Nat.add_assoc]

theorem take_image (p : Parts F) : p.image.take 4 = F.magic.toList := by
  have hheader : Header.layout.encode p.header = F.magic.toList ++
      (Endian.bytes32 p.header.fileCount ++ (Endian.bytes32 p.header.stringTableSize ++
        p.reserved.toList)) := rfl
  rw [image, hheader, List.append_assoc]
  exact List.take_left' F.magic.length_toList

/-- Parsing gives one entry for each file. -/
theorem Fits.result_read (h : p.Fits) {media : Media} {region : Region}
    (hr : region.Holds media p.image) :
    (Table.read F region media).result = .ok p.table := by
  have haddressable := hr.addressable
  have hsize : p.image.length - tablesSize F p.header = (dataBytes p.files).length := by
    rw [length_image, h.tablesSize_eq, Nat.add_sub_cancel_left]
  rw [length_image] at haddressable
  have hall : List.Forall₂
      (fun r e => r.Denotes p.strings (dataBytes p.files).length e) p.records
      (entriesFrom 0 p.files) :=
    @forall₂_denotes _ _ h.no_zero _ [] _ rfl h.strings_lt _ _ _ rfl
      (Nat.le_of_eq (Nat.zero_add _)) (by omega)
  rw [result_read_of_tablesIn hr p.take_image h.tablesIn_image, hsize,
    result_resolveAll_of_forall₂ hall, addEntries_empty, ok_bind, table]

theorem Fits.outcome_parse (h : p.Fits) {media : Media} {a : Archive F} (ha : a.Sound media)
    (hr : a.view.region.Holds media p.image) :
    ∃ a', (Archive.parse media).outcome a = (.ok (), a') := by
  obtain ⟨a', heq⟩ := ha.outcome_parse
  rw [h.result_read hr] at heq
  exact ⟨a', heq⟩

/-- The last file of a name is the only one, so the name leads to it. -/
theorem Fits.find?_eq (h : p.Fits) {front back : List (Content F)} {f : Content F}
    (heq : p.files = front ++ f :: back) :
    p.table.entries.find? f.name = some (f.entryAt (dataBytes front).length) := by
  have hnames := h.names_nodup
  rw [heq, List.map_append, List.map_cons] at hnames
  obtain ⟨hf, -⟩ := List.nodup_cons.mp (List.nodup_append.mp hnames).2.1
  have hentries := entriesFrom_append 0 front f back
  rw [Nat.zero_add, ← heq] at hentries
  refine Catalog.find?_indexed_eq_some_iff.mpr ⟨rfl, _, _, hentries, ?_⟩
  rw [map_name_entriesFrom]
  exact hf

/-! ## Unpacking an archive -/

/-- An archive gives back what it was made of: it has one entry for each file and no others, and
opening the name of a file gives its data. -/
structure Unpacks (p : Parts F) (media : Media) (a : Archive F) : Prop where
  table : ∃ t a', (Archive.table media).outcome a = (.ok t, a') ∧
    t.entries.size = p.files.length ∧ t.entries.keys.Perm (p.files.map Content.name)
  entry : ∀ {front back : List (Content F)} {f : Content F}, p.files = front ++ f :: back →
    ∃ e a', (Archive.entry media f.name).outcome a = (.ok e, a') ∧
      f.IsAt (dataBytes front).length e
  openFile : ∀ f ∈ p.files, ∃ v a', (Archive.openFile media f.name).outcome a = (.ok v, a') ∧
    v.position = 0 ∧ v.region.Holds media f.data ∧ v.region.readAll media = .ok f.data

/-- **An archive gives back the files that it was made of**, whether it was parsed before or not. -/
theorem Fits.unpacks (h : p.Fits) {media : Media} {a : Archive F} (ha : a.Sound media)
    (hr : a.view.region.Holds media p.image) : p.Unpacks media a := by
  have hread := h.result_read hr
  have hat {front back : List (Content F)} {f : Content F} (heq : p.files = front ++ f :: back) :
      f.IsAt (dataBytes front).length (f.entryAt (dataBytes front).length) := by
    have hle := (slice?_eq_some_iff.mp (h.slice_image heq)).1
    have haddressable := hr.addressable
    exact f.isAt_entryAt (by omega)
  constructor
  · obtain ⟨a', htable, -⟩ := ha.outcome_table_of_read hread
    have hkeys : p.table.entries.keys.Perm (p.files.map Content.name) := by
      refine (List.perm_ext_iff_of_nodup (Catalog.nodup_keys _) h.names_nodup).mpr fun name => ?_
      rw [← map_name_entriesFrom 0]
      exact Catalog.mem_keys_indexed
    refine ⟨_, a', htable, ?_, hkeys⟩
    rw [Catalog.size_eq_length_keys, hkeys.length_eq, List.length_map]
  · intro front back f heq
    obtain ⟨a', hentry, -⟩ := ha.outcome_entry hread (h.find?_eq heq)
    exact ⟨_, a', hentry, hat heq⟩
  · intro f hf
    obtain ⟨front, back, heq⟩ := List.append_of_mem hf
    obtain ⟨a', hopen⟩ := ha.outcome_openFile hread (h.find?_eq heq)
    have hdata := h.slice_image heq
    rw [← (hat heq).dataOffset_eq, ← (hat heq).dataSize_eq] at hdata
    obtain ⟨v, hv, hposition, hholds⟩ := Table.openEntry_of_slice? hr p.table _ hdata
    rw [hv] at hopen
    exact ⟨v, a', hopen, hposition, hholds, hholds.readAll_eq⟩

end Parts

end Writing

/-! ## An archive of three files -/

namespace Packed

/-- A seal over the first two bytes. -/
def sealOf (b : UInt8) : Seal := ⟨2, 0, ⟨List.replicate 32 b, List.length_replicate⟩⟩

/-- A file without a name, an empty file and another one, and two zeros behind the names. -/
def parts : Parts .hashed where
  files := [⟨"", [1, 2], sealOf 7⟩, ⟨"a", [], sealOf 8⟩, ⟨"b.c", [3, 4, 5], sealOf 9⟩]
  padding := 2
  reserved := Bytes.zero 4

def media : Media := ⟨[.memory parts.image]⟩

def archive : Archive .hashed := .ofView (.ofRegion (.medium 0 parts.image.length))

theorem fits_parts : parts.Fits where
  names_nodup := by decide
  no_zero := by simp [parts]
  count_lt := by decide
  strings_lt := by decide

theorem unpacks_archive : parts.Fits ∧ parts.Unpacks media archive := by
  have haddressable : parts.image.length < UInt64.size := by
    rw [Parts.length_image]
    decide
  exact ⟨fits_parts, fits_parts.unpacks (Archive.sound_ofView media _)
    (Region.holds_memory rfl haddressable)⟩

end Packed

end Cartridge.Partition
