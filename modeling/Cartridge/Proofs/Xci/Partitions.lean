import Cartridge.Proofs.Partition.Opening
import Cartridge.Proofs.Partition.RoundTrip
import Cartridge.Xci.Image

/-!
# The partitions of a card image

The partitions of a card image are the files of its root partition filesystem. They are opened when the
image is parsed and kept from then on. Reading a partition's own tables changes what is known of the
partition but not where it lies, so names and views stay those of the files of the root
(`Contents.RootedAt`), whatever is done to the partitions.

Results:
* `Contents.rootedAt_of_read`: reading a card image gives the files of its root.
* `Image.Sound.contents`, `Image.Sound.onPartition`: they stay these files.
* `Contents.read_isOk_of_root`: an image with a header and a readable root can be read.
* `Image.Sound.opens`: the partitions are the files of the root, by name and by view.
* `opens_exactly_listed`: archives and card images open the names that they list, and no others.
-/

namespace Cartridge.Xci

open Cartridge.Partition (Table Entry)

variable {media : Media} {view rootView : View} {c : Contents} {root : Table .hashed}

/-! ## Opening the files of the root -/

/-- A partition that is the file of an entry of the root. -/
structure PartitionOf (root : Table .hashed) (rootView : View) (e : Entry .hashed)
    (p : String × CardPartition) : Prop where
  name_eq : p.1 = e.name
  kind_eq : p.2.kind = PartitionKind.ofEntryName? e.name
  view_eq : (root.openEntry rootView e).result = .ok p.2.archive.view
  unparsed : p.2.archive.slot = .unparsed

theorem result_openPartition (root : Table .hashed) (rootView : View) (e : Entry .hashed) :
    (openPartition root rootView e).result = (root.openEntry rootView e).result >>= fun data =>
      .ok (e.name, ⟨PartitionKind.ofEntryName? e.name, .ofView data⟩) := by
  unfold openPartition
  dsimp only
  split
  · rw [Traced.result_bind, Traced.result_emit, ok_bind, Traced.result_bind]
    rfl
  · rw [Traced.result_bind]
    rfl

theorem forall₂_of_openPartitions {entries : List (Entry .hashed)}
    {ps : List (String × CardPartition)}
    (h : (openPartitions root rootView entries).result = .ok ps) :
    List.Forall₂ (PartitionOf root rootView) entries ps := by
  induction entries generalizing ps with
  | nil =>
    cases h
    exact .nil
  | cons e rest ih =>
    rw [openPartitions, Traced.result_bind, result_openPartition] at h
    obtain ⟨p, hp, h⟩ := bind_eq_ok_iff.mp h
    obtain ⟨data, hdata, hp⟩ := bind_eq_ok_iff.mp hp
    cases hp
    rw [Traced.result_bind] at h
    obtain ⟨others, hothers, h⟩ := bind_eq_ok_iff.mp h
    cases h
    exact .cons ⟨rfl, rfl, hdata, rfl⟩ (ih hothers)

theorem map_fst_of_forall₂ {entries : List (Entry .hashed)} {ps : List (String × CardPartition)}
    (h : List.Forall₂ (PartitionOf root rootView) entries ps) :
    ps.map Prod.fst = entries.map Entry.name := by
  induction h with
  | nil => rfl
  | cons hp _ ih => rw [List.map_cons, List.map_cons, hp.name_eq, ih]

/-- Files that can all be opened are opened one after the other. -/
theorem openPartitions_isOk {entries : List (Entry .hashed)}
    (h : ∀ e ∈ entries, ∃ v, (root.openEntry rootView e).result = .ok v) :
    ∃ ps, (openPartitions root rootView entries).result = .ok ps := by
  induction entries with
  | nil => exact ⟨[], rfl⟩
  | cons e rest ih =>
    obtain ⟨⟨v, hv⟩, hrest⟩ := List.forall_mem_cons.mp h
    obtain ⟨ps, hps⟩ := ih hrest
    refine ⟨(e.name, ⟨PartitionKind.ofEntryName? e.name, .ofView v⟩) :: ps, ?_⟩
    rw [openPartitions, Traced.result_bind, result_openPartition, hv, ok_bind, ok_bind,
      Traced.result_bind, hps]
    rfl

/-! ## The files of the root -/

/-- The contents have the header that the magic leads to, and their partitions are the files of the
root that lies where the header says: under the names of the root's table, and with the views that
opening the table's entries gives. -/
structure Contents.RootedAt (media : Media) (view : View) (c : Contents) (rootView : View)
    (root : Table .hashed) : Prop where
  headerOffset_eq : headerOffset? view.region media = some c.headerOffset
  header_eq : Header.layout.decodeAt (view.region.streamAt media) c.headerOffset = .ok c.header
  rootOffset_eq : c.rootOffset = c.headerOffset + c.header.rootOffset.toNat
  view_eq : view.subview c.rootOffset (view.size - c.rootOffset) = .ok rootView
  table_eq : (Table.read .hashed rootView.region media).result = .ok root
  keys_perm : c.partitions.keys.Perm root.entries.keys
  partition : ∀ {name : String} {e : Entry .hashed}, root.entries.find? name = some e →
    ∃ p, c.partitions.find? name = some p ∧
      (root.openEntry rootView e).result = .ok p.archive.view

/-- **Reading a card image gives the files of its root.** -/
theorem Contents.rootedAt_of_read (h : (Contents.read view media).result = .ok c) :
    ∃ rootView root, c.RootedAt media view rootView root := by
  unfold Contents.read at h
  split at h
  · cases h
  · rename_i headerOffset hoffset
    simp only [Traced.result_bind, Traced.result_emit, Traced.result_liftM, ok_bind] at h
    obtain ⟨header, hheader, h⟩ := bind_eq_ok_iff.mp h
    split at h
    · cases h
    · simp only [Traced.result_bind, Traced.result_liftM] at h
      obtain ⟨rootView, hview, h⟩ := bind_eq_ok_iff.mp h
      obtain ⟨root, htable, h⟩ := bind_eq_ok_iff.mp h
      obtain ⟨ps, hps, h⟩ := bind_eq_ok_iff.mp h
      cases h
      have hall := forall₂_of_openPartitions hps
      have hchecked := Table.checked_of_read htable
      have hnames : ps.map Prod.fst = root.entries.keys := by
        rw [map_fst_of_forall₂ hall, List.map_map]
        exact List.map_congr_left fun e he => hchecked.name_eq (Catalog.find?_eq_some_iff.mpr he)
      have hnodup : (ps.map Prod.fst).Nodup := hnames ▸ root.entries.nodup_keys
      refine ⟨rootView, root, hoffset, hheader, rfl, hview, htable, ?_, ?_⟩
      · refine (List.perm_ext_iff_of_nodup (Catalog.nodup_keys _) root.entries.nodup_keys).mpr
          fun name => ?_
        exact Catalog.mem_keys_ofList.trans (by rw [hnames]; rfl)
      · intro name e he
        have hmem : e ∈ root.entries.entries.map Prod.snd :=
          List.mem_map.mpr ⟨_, Catalog.find?_eq_some_iff.mp he, rfl⟩
        obtain ⟨front, back, heq⟩ := List.append_of_mem hmem
        rw [heq] at hall
        obtain ⟨front', p, back', rfl, hp, -⟩ := Partition.exists_append_of_forall₂ hall.flip
        have hname : p.1 = name := hp.name_eq.trans (hchecked.name_eq he)
        refine ⟨p.2, (Catalog.find?_ofList_of_nodup hnodup).mpr ?_, hp.view_eq⟩
        rw [← hname]
        simp

/-- An image with a header that is followed by a readable root can be read. -/
theorem Contents.read_isOk_of_root {headerOffset : Nat} {header : Header}
    (hoffset : headerOffset? view.region media = some headerOffset)
    (hheader : Header.layout.decodeAt (view.region.streamAt media) headerOffset = .ok header)
    (hroot : view.subview (headerOffset + header.rootOffset.toNat)
      (view.size - (headerOffset + header.rootOffset.toNat)) = .ok rootView)
    (hinside : headerOffset + header.rootOffset.toNat < view.size)
    (htable : (Table.read .hashed rootView.region media).result = .ok root) :
    ∃ c, (Contents.read view media).result = .ok c := by
  have hchecked : root.Checked rootView.size := Table.checked_of_read htable
  have hopen : ∀ e ∈ root.entries.entries.map Prod.snd,
      ∃ v, (root.openEntry rootView e).result = .ok v := by
    intro e he
    obtain ⟨⟨name, e'⟩, hmem, rfl⟩ := List.mem_map.mp he
    exact ⟨_, hchecked.openEntry_eq (Catalog.find?_eq_some_iff.mpr hmem)⟩
  obtain ⟨ps, hps⟩ := openPartitions_isOk hopen
  refine ⟨⟨header, headerOffset, headerOffset + header.rootOffset.toNat, .ofList ps⟩, ?_⟩
  unfold Contents.read
  simp only [hoffset, Traced.result_bind, Traced.result_emit, Traced.result_liftM, ok_bind, hheader,
    if_neg (Nat.not_le.mpr hinside), hroot, htable, hps]
  rfl

/-- What is found out about a partition does not move it. -/
theorem Contents.RootedAt.setPartition {name : String} {p : CardPartition}
    {archive : Partition.Archive .hashed} (h : c.RootedAt media view rootView root)
    (hp : c.partitions.find? name = some p) (hview : archive.view = p.archive.view) :
    ({ c with partitions := c.partitions.modify name fun p => { p with archive := archive } } :
      Contents).RootedAt media view rootView root where
  headerOffset_eq := h.headerOffset_eq
  header_eq := h.header_eq
  rootOffset_eq := h.rootOffset_eq
  view_eq := h.view_eq
  table_eq := h.table_eq
  keys_perm := by
    rw [Catalog.keys_modify]
    exact h.keys_perm
  partition := by
    intro other e he
    obtain ⟨q, hq, hopen⟩ := h.partition he
    rw [Catalog.find?_modify]
    by_cases hname : other = name
    · subst hname
      rw [hp] at hq
      cases hq
      exact ⟨_, by rw [if_pos rfl, hp]; rfl, by rw [hopen, hview]⟩
    · exact ⟨q, by rw [if_neg hname, hq], hopen⟩

/-! ## Card images -/

namespace Image

variable {i i' : Image}

/-- An image whose partitions, if they have been read, are the files of its root. -/
def Sound (media : Media) (i : Image) : Prop :=
  ∀ c, i.slot.get? = some c → ∃ rootView root, c.RootedAt media i.view rootView root

theorem sound_ofView (media : Media) (view : View) : (ofView view).Sound media := by
  intro c h
  cases h

theorem outcome_contents_unparsed (media : Media) (view : View) :
    (Image.contents media).outcome ⟨view, .unparsed⟩ =
      match (Contents.read view media).result with
      | .ok c => (.ok c, ⟨view, .parsed c⟩)
      | .error e => (.error e, ⟨view, .unparsed⟩) := by
  unfold Image.contents Access.outcome Slot.force
  dsimp only
  obtain ⟨_ | _, _⟩ := Contents.read view media <;> rfl

/-- The contents are those of the root, and are kept. -/
theorem Sound.contents (hi : i.Sound media)
    (h : (Image.contents media).outcome i = (.ok c, i')) :
    (∃ rootView root, c.RootedAt media i.view rootView root) ∧ i' = ⟨i.view, .parsed c⟩ := by
  obtain ⟨view, slot⟩ := i
  cases slot with
  | parsed c₀ =>
    cases h
    exact ⟨hi _ rfl, rfl⟩
  | unparsed =>
    rw [outcome_contents_unparsed] at h
    cases hread : (Contents.read view media).result with
    | error e =>
      rw [hread] at h
      cases h
    | ok c₀ =>
      rw [hread] at h
      cases h
      exact ⟨Contents.rootedAt_of_read hread, rfl⟩

/-- Where the contents cannot be read the image stays as it is. -/
theorem state_contents_of_error {e : Error}
    (h : (Image.contents media).outcome i = (.error e, i')) : i' = i := by
  obtain ⟨view, slot⟩ := i
  cases slot with
  | parsed c₀ => cases h
  | unparsed =>
    rw [outcome_contents_unparsed] at h
    cases hread : (Contents.read view media).result <;> rw [hread] at h <;> cases h
    rfl

/-- A partition is that of the contents with its name. -/
theorem outcome_partition {name : String} {p : CardPartition}
    (hcontents : (Image.contents media).outcome i = (.ok c, i'))
    (hfind : c.partitions.find? name = some p) :
    (partition media name).outcome i = (.ok p.archive, i') := by
  rw [partition, Access.outcome_bind, hcontents]
  dsimp only
  rw [hfind]
  rfl

theorem outcome_partition_of_not_mem {name : String}
    (hcontents : (Image.contents media).outcome i = (.ok c, i'))
    (hname : name ∉ c.partitions.keys) :
    (partition media name).outcome i = (.error (.partitionNotFound name), i') := by
  rw [partition, Access.outcome_bind, hcontents]
  dsimp only
  rw [Catalog.not_mem_keys_iff.mp hname]
  rfl

theorem outcome_partition_of_error {name : String} {e : Error}
    (hcontents : (Image.contents media).outcome i = (.error e, i')) :
    (partition media name).outcome i = (.error e, i') := by
  rw [partition, Access.outcome_bind, hcontents]

/-- An operation on a partition leaves what it found out about it in the image. -/
theorem state_onPartition {α : Type} {operation : Access (Partition.Archive .hashed) α}
    {name : String} {p : CardPartition}
    (hcontents : (Image.contents media).outcome i = (.ok c, ⟨view, .parsed c⟩))
    (hfind : c.partitions.find? name = some p) :
    ((onPartition media name operation).outcome i).2 = ⟨view, .parsed { c with
      partitions := c.partitions.modify name fun q =>
        { q with archive := (operation p.archive).2 } }⟩ := by
  rw [onPartition, Access.outcome_bind, outcome_partition hcontents hfind]
  exact Access.state_bind_liftM (setPartition name (operation p.archive).2) (operation p.archive).1 _

/-- **Operating on a partition leaves names and views alone**, if it leaves the partition where it
is. -/
theorem Sound.onPartition {α : Type} {operation : Access (Partition.Archive .hashed) α}
    (hi : i.Sound media) (hop : ∀ p, (operation p).2.view = p.view) (name : String) :
    ((onPartition media name operation).outcome i).2.Sound media := by
  obtain ⟨answer, i', hcontents⟩ :
      ∃ answer i', (Image.contents media).outcome i = (answer, i') := ⟨_, _, rfl⟩
  cases answer with
  | error e =>
    rw [Image.onPartition, Access.outcome_bind, outcome_partition_of_error hcontents,
      state_contents_of_error hcontents]
    exact hi
  | ok c =>
    obtain ⟨⟨rootView, root, hroot⟩, rfl⟩ := hi.contents hcontents
    cases hfind : c.partitions.find? name with
    | none =>
      rw [Image.onPartition, Access.outcome_bind,
        outcome_partition_of_not_mem hcontents (Catalog.not_mem_keys_iff.mpr hfind)]
      intro c' hc'
      cases hc'
      exact ⟨rootView, root, hroot⟩
    | some p =>
      rw [state_onPartition hcontents hfind]
      intro c' hc'
      cases hc'
      exact ⟨rootView, root, hroot.setPartition hfind (hop p.archive)⟩

/-- What opening does in a card image whose root is this archive: the listed names are the root's, they
and no others can be opened, and each gives the view that opening it in the root gives. -/
structure Opens (media : Media) (i : Image) (root : Partition.Archive .hashed) (names : List String) :
    Prop where
  contents : ∃ c i' table, (Image.contents media).outcome i = (.ok c, i') ∧
    c.RootedAt media i.view root.view table
  listFiles : ∃ i', (Image.listFiles media).outcome i = (.ok names, i')
  rootNames : ∃ rootNames root', (Partition.Archive.listFiles media).outcome root
    = (.ok rootNames, root') ∧ names.Perm rootNames
  opened : ∀ name ∈ names, ∃ v, (∃ i', (openFile media name).outcome i = (.ok v, i')) ∧
    ∃ root', (Partition.Archive.openFile media name).outcome root = (.ok v, root')
  notFound : ∀ name, name ∉ names →
    ∃ i', (openFile media name).outcome i = (.error (.partitionNotFound name), i')

/-- **The partitions of a card image are the files of its root**, by name and by view, in an image that
parses, whatever has been done to its partitions before. -/
theorem Sound.opens (hi : i.Sound media) (hparse : (parse media).outcome i = (.ok (), i')) :
    ∃ rootView names, i.Opens media (.ofView rootView) names := by
  unfold parse at hparse
  obtain ⟨c, i₁, hcontents, -⟩ := Access.outcome_bind_eq_ok_iff.mp hparse
  obtain ⟨⟨rootView, root, hroot⟩, rfl⟩ := hi.contents hcontents
  have hsound := Partition.Archive.sound_ofView (F := .hashed) media rootView
  refine ⟨rootView, c.partitions.keys, ⟨c, _, root, hcontents, hroot⟩, ?_, ?_, ?_, ?_⟩
  · refine ⟨⟨i.view, .parsed c⟩, ?_⟩
    rw [listFiles, Access.outcome_bind, hcontents]
    rfl
  · obtain ⟨root', hlist⟩ := hsound.outcome_listFiles hroot.table_eq
    exact ⟨_, root', hlist, hroot.keys_perm⟩
  · intro name hname
    have hmem := hroot.keys_perm.mem_iff.mp hname
    rw [Catalog.mem_keys_iff, Catalog.contains, Option.isSome_iff_exists] at hmem
    obtain ⟨e, he⟩ := hmem
    obtain ⟨p, hp, hview⟩ := hroot.partition he
    obtain ⟨root', hfile⟩ := hsound.outcome_openFile hroot.table_eq he
    rw [show (Partition.Archive.ofView rootView : Partition.Archive .hashed).view = rootView from rfl,
      hview] at hfile
    refine ⟨p.archive.view, ⟨⟨i.view, .parsed c⟩, ?_⟩, root', hfile⟩
    rw [openFile, Access.outcome_bind, outcome_partition hcontents hp]
    rfl
  · intro name hname
    refine ⟨⟨i.view, .parsed c⟩, ?_⟩
    rw [openFile, Access.outcome_bind, outcome_partition_of_not_mem hcontents hname]

end Image

/-! ## A header that is followed by its root -/

section Writing

variable {header : Header} {parts : Partition.Parts .hashed}

/-- The magic lies behind the signature. -/
theorem slice?_encode_magic (header : Header) (back : List UInt8) :
    slice? (Header.layout.encode header ++ back) magicOffset 4 = some magic := by
  have hencode : ∃ rest, Header.layout.encode header = header.signature.toList ++ (magic ++ rest) :=
    ⟨_, rfl⟩
  obtain ⟨rest, hencode⟩ := hencode
  rw [hencode, List.append_assoc, List.append_assoc]
  exact slice?_append _ _ header.signature.length_toList rfl

/-- An image that is made of a header and a root partition with a file right behind it can be
parsed. -/
theorem outcome_parse_of_image (hoffset : header.rootOffset.toNat = Header.layout.size)
    (hfits : parts.Fits) (hr : view.region.Holds media (Header.layout.encode header ++ parts.image)) :
    ∃ i', (Image.parse media).outcome (.ofView view) = (.ok (), i') := by
  have hheader : (Header.layout.encode header).length = Header.layout.size := Layout.length_encode _ _
  have himage : 0 < parts.image.length := by
    rw [Partition.Parts.length_image, Partition.Header.size_layout]
    omega
  have hsize : view.size = Header.layout.size + parts.image.length := by
    rw [View.size, hr.size_eq, List.length_append, hheader]
  have hmagic : headerOffset? view.region media = some 0 := by
    have hslice := slice?_encode_magic header parts.image
    have hle := (slice?_eq_some_iff.mp hslice).1
    have hat : hasMagicAt view.region media 0 = true := by
      rw [slice?_of_le hle, Option.some.injEq] at hslice
      rw [hasMagicAt, Nat.zero_add, hr.readAt_eq hle, hslice]
      rfl
    rw [headerOffset?, if_pos hat]
  have hdecode : Header.layout.decodeAt (view.region.streamAt media) 0 = .ok header := by
    rw [hr.decodeAt_eq _ (Nat.zero_le _)]
    exact Layout.decode_encode _ _ _
  have hroot : view.subview (0 + header.rootOffset.toNat)
      (view.size - (0 + header.rootOffset.toNat)) =
        .ok (.ofRegion (.part view.region Header.layout.size parts.image.length)) := by
    rw [Nat.zero_add, hoffset, hsize, Nat.add_sub_cancel_left, View.subview]
    exact bind_eq_ok_iff.mpr ⟨_, Region.subregion_eq_ok_iff.mpr ⟨Nat.le_of_eq hsize.symm, rfl⟩, rfl⟩
  have hslice : slice (Header.layout.encode header ++ parts.image) Header.layout.size
      parts.image.length = parts.image :=
    (slice_append_right hheader parts.image 0 _).trans (slice_all _)
  have hholds := hr.part (Nat.le_of_eq hsize.symm)
  rw [hslice] at hholds
  obtain ⟨c, hc⟩ := Contents.read_isOk_of_root hmagic hdecode hroot (by omega)
    (hfits.result_read hholds)
  refine ⟨⟨view, .parsed c⟩, ?_⟩
  rw [Image.parse, Access.outcome_bind, Image.ofView, Image.outcome_contents_unparsed, hc]
  rfl

end Writing

end Cartridge.Xci

/-! ## An image of two partitions -/

namespace Cartridge.Xci.Specimen

/-- A header that the root partition follows. -/
def header : Header :=
  { signature := Bytes.zero 0x100, romAreaOffset := 0, backupAreaOffset := 0, titleKekIndex := 0
    romSizeCode := 0xFA, version := 0, flags := 0, packageId := 0, validDataEnd := 0
    reversedIv := Bytes.zero 16, rootOffset := 0x200, rootHeaderSize := 0x200
    rootHeaderHash := Bytes.zero 32, initialDataHash := Bytes.zero 32, securityMode := 0
    titleKeyMode := 0, keyMode := 0, limitArea := 0, encrypted := Bytes.zero 0x70 }

/-- A partition that is an archive, and one whose name is not known. -/
def parts : Partition.Parts .hashed where
  files := [⟨"secure", Partition.Packed.parts.image, Partition.Packed.sealOf 1⟩,
    ⟨"other", [6, 7], Partition.Packed.sealOf 2⟩]
  padding := 0
  reserved := Bytes.zero 4

def bytes : List UInt8 := Header.layout.encode header ++ parts.image

def media : Media := ⟨[.memory bytes]⟩

def region : Region := .medium 0 bytes.length

theorem fits_parts : parts.Fits where
  names_nodup := by decide
  no_zero := by simp [parts]
  count_lt := by decide
  strings_lt := by decide

theorem addressable_bytes : bytes.length < UInt64.size := by
  have hdata : (Partition.dataBytes parts.files).length = Partition.Packed.parts.image.length + 2 := by
    simp [parts, Partition.dataBytes]
  rw [bytes, List.length_append, Layout.length_encode, Partition.Parts.length_image, hdata,
    Partition.Parts.length_image]
  decide

theorem holds_region : region.Holds media bytes :=
  Region.holds_memory rfl addressable_bytes

theorem built_region : region.Built :=
  .medium 0 addressable_bytes

/-- The root partition. -/
def rootRegion : Region := .part region 0x200 parts.image.length

theorem length_bytes : bytes.length = 0x200 + parts.image.length := by
  rw [bytes, List.length_append, Layout.length_encode, Header.size_layout]

theorem holds_rootRegion : rootRegion.Holds media parts.image := by
  have hslice : slice bytes 0x200 parts.image.length = parts.image :=
    (slice_append_right (Layout.length_encode _ header) parts.image 0 _).trans (slice_all _)
  have h := holds_region.part (Nat.le_of_eq length_bytes.symm)
  rwa [hslice] at h

theorem built_rootRegion : rootRegion.Built :=
  built_region.part (Region.subregion_eq_ok_iff.mpr ⟨Nat.le_of_eq length_bytes.symm, rfl⟩)

def root : Partition.Archive .hashed := .ofView (.ofRegion rootRegion)

def image : Image := .ofView (.ofRegion region)

theorem outcome_parse_root : ∃ a', (Partition.Archive.parse media).outcome root = (.ok (), a') :=
  fits_parts.outcome_parse (Partition.Archive.sound_ofView media _) holds_rootRegion

theorem outcome_parse_image : ∃ i', (Image.parse media).outcome image = (.ok (), i') :=
  outcome_parse_of_image rfl fits_parts holds_region

end Cartridge.Xci.Specimen

/-! ## Archives and card images -/

namespace Cartridge

/-- **The listed names are those that can be opened.** In an archive that parses, a listed name opens
to exactly the bytes that its entry names, at their place in the medium; in a card image that parses, a
listed name is one of the root's and opens as the root opens it. Other names are not found. -/
theorem opens_exactly_listed :
    (∀ {F : Partition.Flavor} {media : Media} {bytes : List UInt8} {a a' : Partition.Archive F},
      a.Sound media → a.view.region.Holds media bytes → a.view.region.Built →
        (Partition.Archive.parse media).outcome a = (.ok (), a') →
          ∃ t names, a.Opens media bytes t names) ∧
    (∀ {media : Media} {i i' : Xci.Image}, i.Sound media →
      (Xci.Image.parse media).outcome i = (.ok (), i') →
        ∃ rootView names, i.Opens media (.ofView rootView) names) :=
  ⟨fun ha hr hb hparse => ha.opens hr hb hparse, fun hi hparse => hi.opens hparse⟩

open Xci.Specimen in
/-- A card image of two partitions, and the archive that is its root. -/
theorem opens_root_and_image :
    (root.Sound media ∧ root.view.region.Holds media parts.image ∧ root.view.region.Built ∧
      (∃ a', (Partition.Archive.parse media).outcome root = (.ok (), a')) ∧
      ∃ t names, root.Opens media parts.image t names) ∧
    (image.Sound media ∧ (∃ i', (Xci.Image.parse media).outcome image = (.ok (), i')) ∧
      ∃ rootView names, image.Opens media (.ofView rootView) names) := by
  have hroot := Partition.Archive.sound_ofView (F := .hashed) media (.ofRegion rootRegion)
  have himage := Xci.Image.sound_ofView media (.ofRegion region)
  obtain ⟨a', hparseRoot⟩ := outcome_parse_root
  obtain ⟨i', hparseImage⟩ := outcome_parse_image
  exact ⟨⟨hroot, holds_rootRegion, built_rootRegion, ⟨a', hparseRoot⟩,
      opens_exactly_listed.1 hroot holds_rootRegion built_rootRegion hparseRoot⟩,
    himage, ⟨i', hparseImage⟩, opens_exactly_listed.2 himage hparseImage⟩

end Cartridge
