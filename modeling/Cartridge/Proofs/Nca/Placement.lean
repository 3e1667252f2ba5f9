import Cartridge.Proofs.Decoding
import Cartridge.Proofs.Nca.Geometry
import Cartridge.Proofs.Nca.SectionViews

/-!
# Which sections are described, and which are refused

The sections of the main header are gone through in order. Each has to begin where the one before it
has ended, to end in the archive, and to have a superblock that places the filesystem in it. If all of
them do, there is one descriptor for each, and else the first that does not is what is reported.

Results:
* `SectionHeader.dataRegion_eq_ok`, `SectionHeader.dataRegion_eq_error`: what a superblock says.
* `describeSection_eq_ok_iff_sound`, `describeSection_eq_error_iff`: when one section is refused, and
  for what.
* `describeFrom_eq_ok_iff`, `describeFrom_eq_error_iff`: the same of the sections from one on.
* `Headers.placement`: what is described, and that the first fault is what is reported.
-/

namespace Cartridge.Nca

/-! ## What a superblock says -/

/-- Where a superblock of this kind holds the offset of the filesystem; the size is behind it. -/
def SectionKind.regionPlace : SectionKind → Nat
  | .pfs0 => 0x38
  | .romFs => 0x88

namespace SectionHeader

/-- Where the filesystem begins in the section, as its superblock says. -/
def regionOffset (h : SectionHeader) : UInt64 :=
  Endian.word64 (slice h.superblock.toList h.kind.regionPlace 8)

/-- The size of the filesystem, as its superblock says. -/
def regionSize (h : SectionHeader) : UInt64 :=
  Endian.word64 (slice h.superblock.toList (h.kind.regionPlace + 8) 8)

/-- The superblock begins with what its kind asks for. -/
def HasRegion (h : SectionHeader) : Prop :=
  h.kind = .romFs → h.superblock.toList.take 4 = integrityMagic

theorem dataRegion_eq_ok {h : SectionHeader} (hregion : h.HasRegion) :
    h.dataRegion = .ok (h.regionOffset, h.regionSize) := by
  have hlen := h.superblock.length_toList
  unfold dataRegion regionOffset regionSize
  cases hkind : h.kind with
  | pfs0 =>
    unfold partitionSuperblock PartitionSuperblock.layout Layout.decode
    simp (disch := omega) only [Layout.decodeAt, Layout.size, Layout.take_ofBytes_of_le, ok_bind]
    rfl
  | romFs =>
    have hmagic : slice h.superblock.toList 0 4 = integrityMagic := hregion hkind
    have hfour : integrityMagic.length = 4 := rfl
    unfold integritySuperblock IntegritySuperblock.layout IntegrityLevel.layout Layout.six
      Layout.decode
    simp (disch := omega) only [Layout.decodeAt, Layout.size, Layout.take_ofBytes_of_le, ok_bind,
      hfour, hmagic, if_true]
    rfl

/-- Without its magic the superblock of a directory tree is refused for the bytes in place of it. -/
theorem dataRegion_eq_error {h : SectionHeader} (hkind : h.kind = .romFs)
    (hmagic : h.superblock.toList.take 4 ≠ integrityMagic) :
    h.dataRegion = .error (.invalidData (.badMagic (h.superblock.toList.take 4) 0)) := by
  have hlen := h.superblock.length_toList
  have hfound : slice h.superblock.toList 0 4 ≠ integrityMagic := hmagic
  have hfour : integrityMagic.length = 4 := rfl
  unfold dataRegion
  rw [hkind]
  unfold integritySuperblock IntegritySuperblock.layout Layout.decode
  simp (disch := omega) only [Layout.decodeAt, Layout.take_ofBytes_of_le, ok_bind, hfour,
    if_neg hfound]
  rfl

end SectionHeader

/-! ## One section -/

/-- A section of the main header, with the header of its own. -/
structure Place where
  index : Nat
  entry : SectionEntry
  header : SectionHeader

variable {main : Header} {archiveSize earliest : Nat} {d : Descriptor} {e : Error} {p : Place}

namespace Place

/-- The descriptor of a section. -/
def descriptor (main : Header) (p : Place) : Descriptor where
  index := p.index
  kind := p.header.kind
  protection := .resolve p.header.encryption main.hasRightsId
  keyGeneration := main.keyGeneration
  start := p.entry.startOffset
  stop := p.entry.endOffset
  dataOffset := p.header.regionOffset.toNat
  dataSize := p.header.regionSize.toNat
  upperCounter := p.header.upperCounter

/-- A section that may begin at `earliest` is where it should be, and so is its filesystem. -/
structure Sound (archiveSize earliest : Nat) (p : Place) : Prop where
  earliest_le : earliest ≤ p.entry.startOffset
  stop_le : p.entry.endOffset ≤ archiveSize
  hasRegion : p.header.HasRegion
  region_le : p.header.regionOffset.toNat + p.header.regionSize.toNat
    ≤ p.entry.endOffset - p.entry.startOffset

/-- What is wrong with a section that may begin at `earliest`; of two faults the first in this order
counts. -/
inductive Fault (archiveSize earliest : Nat) (p : Place) : Error → Prop
  | overlap (hstart : p.entry.startOffset < earliest) :
      Fault archiveSize earliest p (.invalidData (.sectionOverlap p.index p.entry.startOffset))
  | outside (hstart : earliest ≤ p.entry.startOffset) (hstop : archiveSize < p.entry.endOffset) :
      Fault archiveSize earliest p
        (.truncated (.archiveSection p.index p.entry.endOffset archiveSize))
  | noMagic (hstart : earliest ≤ p.entry.startOffset) (hstop : p.entry.endOffset ≤ archiveSize)
      (hkind : p.header.kind = .romFs)
      (hmagic : p.header.superblock.toList.take 4 ≠ integrityMagic) :
      Fault archiveSize earliest p
        (.invalidData (.badMagic (p.header.superblock.toList.take 4) 0))
  | region (hstart : earliest ≤ p.entry.startOffset) (hstop : p.entry.endOffset ≤ archiveSize)
      (hregion : p.header.HasRegion)
      (hroom : p.entry.endOffset - p.entry.startOffset
        < p.header.regionOffset.toNat + p.header.regionSize.toNat) :
      Fault archiveSize earliest p (.invalidData (.sectionRegion p.index
        p.header.regionOffset.toNat p.header.regionSize.toNat))

theorem sound_or_fault (archiveSize earliest : Nat) (p : Place) :
    p.Sound archiveSize earliest ∨ ∃ e, p.Fault archiveSize earliest e := by
  by_cases hstart : earliest ≤ p.entry.startOffset
  · by_cases hstop : p.entry.endOffset ≤ archiveSize
    · by_cases hregion : p.header.HasRegion
      · by_cases hroom : p.header.regionOffset.toNat + p.header.regionSize.toNat
            ≤ p.entry.endOffset - p.entry.startOffset
        · exact .inl ⟨hstart, hstop, hregion, hroom⟩
        · exact .inr ⟨_, .region hstart hstop hregion (Nat.not_le.mp hroom)⟩
      · obtain ⟨hkind, hmagic⟩ := Classical.not_imp.mp hregion
        exact .inr ⟨_, .noMagic hstart hstop hkind hmagic⟩
    · exact .inr ⟨_, .outside hstart (Nat.not_le.mp hstop)⟩
  · exact .inr ⟨_, .overlap (Nat.not_le.mp hstart)⟩

theorem Sound.describeSection_eq (h : p.Sound archiveSize earliest) :
    describeSection main archiveSize earliest p.index p.entry p.header = .ok (p.descriptor main) :=
  describeSection_eq_ok_iff.mpr ⟨h.earliest_le, h.stop_le, _, _,
    SectionHeader.dataRegion_eq_ok h.hasRegion, h.region_le, rfl⟩

theorem Fault.describeSection_eq (h : p.Fault archiveSize earliest e) :
    describeSection main archiveSize earliest p.index p.entry p.header = .error e := by
  unfold describeSection
  cases h with
  | overlap hstart =>
    rw [if_pos hstart]
    rfl
  | outside hstart hstop =>
    rw [if_neg (Nat.not_lt.mpr hstart), if_pos hstop]
    rfl
  | noMagic hstart hstop hkind hmagic =>
    rw [if_neg (Nat.not_lt.mpr hstart), if_neg (Nat.not_lt.mpr hstop),
      SectionHeader.dataRegion_eq_error hkind hmagic]
    rfl
  | region hstart hstop hregion hroom =>
    rw [if_neg (Nat.not_lt.mpr hstart), if_neg (Nat.not_lt.mpr hstop),
      SectionHeader.dataRegion_eq_ok hregion, ok_bind]
    dsimp only
    rw [if_pos hroom]
    rfl

end Place

/-- **A section is described where it is sound**, and as its header says. -/
theorem describeSection_eq_ok_iff_sound :
    describeSection main archiveSize earliest p.index p.entry p.header = .ok d ↔
      p.Sound archiveSize earliest ∧ p.descriptor main = d := by
  constructor
  · intro h
    rcases p.sound_or_fault archiveSize earliest with hsound | ⟨e, hfault⟩
    · rw [hsound.describeSection_eq] at h
      exact ⟨hsound, Except.ok.inj h⟩
    · rw [hfault.describeSection_eq] at h
      cases h
  · rintro ⟨hsound, rfl⟩
    exact hsound.describeSection_eq

/-- **A section is refused for its fault.** -/
theorem describeSection_eq_error_iff :
    describeSection main archiveSize earliest p.index p.entry p.header = .error e ↔
      p.Fault archiveSize earliest e := by
  constructor
  · intro h
    rcases p.sound_or_fault archiveSize earliest with hsound | ⟨e', hfault⟩
    · rw [hsound.describeSection_eq] at h
      cases h
    · rw [hfault.describeSection_eq] at h
      cases h
      exact hfault
  · exact fun h => h.describeSection_eq

/-! ## Sections in order -/

/-- Where the last of these sections ends, or `earliest` without any. -/
def endBehind (earliest : Nat) (front : List Place) : Nat :=
  (front.getLast?.map fun p => p.entry.endOffset).getD earliest

/-- Each of these sections is sound behind those in front of it. -/
def AllSound (archiveSize earliest : Nat) (ps : List Place) : Prop :=
  ∀ {front : List Place} {p : Place} {back : List Place}, ps = front ++ p :: back →
    p.Sound archiveSize (endBehind earliest front)

/-- The first of these sections that is not sound has this fault. -/
def FirstFault (archiveSize earliest : Nat) (ps : List Place) (e : Error) : Prop :=
  ∃ front p back, ps = front ++ p :: back ∧ AllSound archiveSize earliest front ∧
    p.Fault archiveSize (endBehind earliest front) e

variable {ps : List Place} {places : List (Nat × SectionEntry × Option SectionHeader)}
  {ds : List Descriptor}

theorem endBehind_cons (earliest : Nat) (p : Place) (front : List Place) :
    endBehind earliest (p :: front) = endBehind p.entry.endOffset front := by
  unfold endBehind
  rw [List.getLast?_cons]
  cases front.getLast? <;> rfl

theorem allSound_nil (archiveSize earliest : Nat) : AllSound archiveSize earliest [] := by
  intro front p back h
  simp at h

theorem allSound_cons :
    AllSound archiveSize earliest (p :: ps) ↔
      p.Sound archiveSize earliest ∧ AllSound archiveSize p.entry.endOffset ps := by
  constructor
  · intro h
    refine ⟨@h [] p ps rfl, fun {front q back} heq => ?_⟩
    rw [← endBehind_cons earliest p front]
    exact h (congrArg (p :: ·) heq)
  · rintro ⟨hp, hps⟩ front q back heq
    cases front with
    | nil =>
      cases heq
      exact hp
    | cons first front =>
      obtain ⟨rfl, hrest⟩ := List.cons.inj heq
      rw [endBehind_cons]
      exact hps hrest

theorem firstFault_cons :
    FirstFault archiveSize earliest (p :: ps) e ↔ p.Fault archiveSize earliest e ∨
      p.Sound archiveSize earliest ∧ FirstFault archiveSize p.entry.endOffset ps e := by
  constructor
  · rintro ⟨front, q, back, heq, hfront, hfault⟩
    cases front with
    | nil =>
      cases heq
      exact .inl hfault
    | cons first front =>
      obtain ⟨rfl, hrest⟩ := List.cons.inj heq
      rw [endBehind_cons] at hfault
      obtain ⟨hp, hfront⟩ := allSound_cons.mp hfront
      exact .inr ⟨hp, front, q, back, hrest, hfront, hfault⟩
  · rintro (hfault | ⟨hp, front, q, back, heq, hfront, hfault⟩)
    · exact ⟨[], p, ps, rfl, allSound_nil _ _, hfault⟩
    · refine ⟨p :: front, q, back, congrArg (p :: ·) heq, allSound_cons.mpr ⟨hp, hfront⟩, ?_⟩
      rw [endBehind_cons]
      exact hfault

/-- The section in a place, if there is one and its header is there. -/
def place? (place : Nat × SectionEntry × Option SectionHeader) : Option Place :=
  match place.2.1.isPopulated, place.2.2 with
  | true, some header => some ⟨place.1, place.2.1, header⟩
  | _, _ => none

theorem place?_eq_some_iff {place : Nat × SectionEntry × Option SectionHeader} :
    place? place = some p ↔ p.entry.isPopulated = true ∧ place = (p.index, p.entry, some p.header) := by
  obtain ⟨index, entry, header?⟩ := place
  constructor
  · intro h
    unfold place? at h
    split at h
    · rename_i header hentry hheader
      cases h
      exact ⟨hentry, by rw [← show header? = some header from hheader]⟩
    · cases h
  · rintro ⟨hentry, heq⟩
    cases heq
    rw [place?, hentry]

theorem describeFrom_cons_none {place : Nat × SectionEntry × Option SectionHeader}
    (hplace : place? place = none) :
    describeFrom main archiveSize earliest (place :: places) =
      describeFrom main archiveSize earliest places := by
  obtain ⟨index, entry, header?⟩ := place
  rw [describeFrom]
  rintro header hentry rfl
  have hsome := @place?_eq_some_iff ⟨index, entry, header⟩ (index, entry, some header)
  rw [hplace] at hsome
  cases hsome.mpr ⟨hentry, rfl⟩

theorem describeFrom_cons_some {place : Nat × SectionEntry × Option SectionHeader}
    (hplace : place? place = some p) :
    describeFrom main archiveSize earliest (place :: places) =
      describeSection main archiveSize earliest p.index p.entry p.header >>= fun d =>
        describeFrom main archiveSize d.stop places >>= fun others => .ok (d :: others) := by
  obtain ⟨hentry, rfl⟩ := place?_eq_some_iff.mp hplace
  rw [describeFrom]
  · rfl
  · exact hentry

/-- **Sections are described where all of them are sound.** -/
theorem describeFrom_eq_ok_iff :
    describeFrom main archiveSize earliest places = .ok ds ↔
      AllSound archiveSize earliest (places.filterMap place?) ∧
        (places.filterMap place?).map (Place.descriptor main) = ds := by
  induction places generalizing earliest ds with
  | nil =>
    constructor
    · intro h
      cases h
      exact ⟨allSound_nil _ _, rfl⟩
    · rintro ⟨-, rfl⟩
      rfl
  | cons place rest ih =>
    cases hplace : place? place with
    | none => rw [describeFrom_cons_none hplace, List.filterMap_cons_none hplace, ih]
    | some p =>
      rw [describeFrom_cons_some hplace, List.filterMap_cons_some hplace, allSound_cons,
        List.map_cons, bind_eq_ok_iff]
      constructor
      · rintro ⟨d, hd, h⟩
        obtain ⟨hp, rfl⟩ := describeSection_eq_ok_iff_sound.mp hd
        obtain ⟨others, hothers, h⟩ := bind_eq_ok_iff.mp h
        cases h
        obtain ⟨hrest, rfl⟩ := ih.mp hothers
        exact ⟨⟨hp, hrest⟩, rfl⟩
      · rintro ⟨⟨hp, hrest⟩, rfl⟩
        exact ⟨_, hp.describeSection_eq, bind_eq_ok_iff.mpr ⟨_, ih.mpr ⟨hrest, rfl⟩, rfl⟩⟩

/-- **The first section that is not sound is what is reported.** -/
theorem describeFrom_eq_error_iff :
    describeFrom main archiveSize earliest places = .error e ↔
      FirstFault archiveSize earliest (places.filterMap place?) e := by
  induction places generalizing earliest with
  | nil =>
    constructor
    · intro h
      cases h
    · rintro ⟨front, p, back, heq, -⟩
      simp at heq
  | cons place rest ih =>
    cases hplace : place? place with
    | none => rw [describeFrom_cons_none hplace, List.filterMap_cons_none hplace, ih]
    | some p =>
      rw [describeFrom_cons_some hplace, List.filterMap_cons_some hplace, firstFault_cons]
      rw [bind_eq_error_iff, describeSection_eq_error_iff]
      refine or_congr_right ⟨?_, ?_⟩
      · rintro ⟨d, hd, h⟩
        obtain ⟨hp, rfl⟩ := describeSection_eq_ok_iff_sound.mp hd
        rcases bind_eq_error_iff.mp h with hrest | ⟨others, -, h⟩
        · exact ⟨hp, ih.mp hrest⟩
        · cases h
      · rintro ⟨hp, hrest⟩
        exact ⟨_, hp.describeSection_eq, bind_eq_error_iff.mpr (.inl (ih.mpr hrest))⟩

/-! ## Where sound sections lie -/

theorem startOffset_lt_endOffset {entry : SectionEntry} (h : entry.isPopulated = true) :
    entry.startOffset < entry.endOffset := by
  have hblocks : entry.startBlock.toNat < entry.endBlock.toNat := by
    simpa only [SectionEntry.isPopulated, decide_eq_true_eq, UInt32.lt_iff_toNat_lt] using h
  unfold SectionEntry.startOffset SectionEntry.endOffset mediaBlockSize
  omega

/-- The bounds of a section are far from 64 bits. -/
theorem endOffset_lt (entry : SectionEntry) : entry.endOffset < UInt64.size := by
  have hblocks := entry.endBlock.toNat_lt
  unfold SectionEntry.endOffset mediaBlockSize UInt64.size
  omega

/-- Sound sections begin behind where they may begin, and each behind those in front of it. -/
theorem AllSound.ordered (h : AllSound archiveSize earliest ps)
    (hpopulated : ∀ p ∈ ps, p.entry.isPopulated = true) :
    (∀ p ∈ ps, earliest ≤ p.entry.startOffset) ∧
      ps.Pairwise fun p q => p.entry.endOffset ≤ q.entry.startOffset := by
  induction ps generalizing earliest with
  | nil => exact ⟨List.forall_mem_nil _, .nil⟩
  | cons p rest ih =>
    obtain ⟨hp, hrest⟩ := allSound_cons.mp h
    obtain ⟨hpop, hpopulated⟩ := List.forall_mem_cons.mp hpopulated
    obtain ⟨hbehind, hpairwise⟩ := ih hrest hpopulated
    have hle := hp.earliest_le
    have hlt := startOffset_lt_endOffset hpop
    refine ⟨List.forall_mem_cons.mpr ⟨hle, fun q hq => ?_⟩, List.pairwise_cons.mpr ⟨hbehind, hpairwise⟩⟩
    have hq := hbehind q hq
    omega

/-! ## The sections of an archive -/

namespace Headers

variable {h : Headers}

/-- The numbers of the sections that the main header names. -/
def populated (h : Headers) : List (Fin 4) :=
  (List.finRange 4).filter fun i => (h.main.entries.get i).isPopulated

/-- The sections that the main header names, with their headers. -/
def named (h : Headers) : List Place := h.places.filterMap place?

/-- In a version whose section headers are read, each section that the main header names has one. -/
def Complete (h : Headers) : Prop :=
  h.version ≠ .nca0 → ∀ i, (h.main.entries.get i).isPopulated = true → (h.sections.get i).isSome

theorem mem_named_iff : p ∈ h.named ↔ p.entry.isPopulated = true ∧ ∃ i : Fin 4, i.val = p.index ∧
    h.main.entries.get i = p.entry ∧ h.sections.get i = some p.header := by
  simp only [named, places, List.mem_filterMap, List.mem_map, List.mem_finRange, true_and,
    place?_eq_some_iff, exists_exists_eq_and, exists_and_left, Prod.mk.injEq]

/-- **The sections with headers are those that the main header names.** -/
theorem Complete.index_named (hc : h.Complete) (hv : h.version ≠ .nca0) :
    h.named.map Place.index = h.populated.map Fin.val := by
  unfold named places populated
  induction List.finRange 4 with
  | nil => rfl
  | cons i rest ih =>
    rw [List.map_cons]
    cases hentry : (h.main.entries.get i).isPopulated with
    | false =>
      rw [List.filterMap_cons_none, ih, List.filter_cons_of_neg (by simp [hentry])]
      rw [place?, hentry]
    | true =>
      obtain ⟨header, hheader⟩ := Option.isSome_iff_exists.mp (hc hv i hentry)
      have hplace : place? (i.val, h.main.entries.get i, h.sections.get i) =
          some ⟨i, h.main.entries.get i, header⟩ :=
        place?_eq_some_iff.mpr ⟨hentry, by rw [hheader]⟩
      rw [List.filterMap_cons_some hplace, List.map_cons, ih,
        List.filter_cons_of_pos (by exact hentry), List.map_cons]

theorem describe_eq_ok_iff {ds : List Descriptor} :
    h.describe archiveSize = .ok ds ↔ h.version ≠ .nca0 ∧ AllSound archiveSize headersSize h.named ∧
      h.named.map (Place.descriptor h.main) = ds := by
  unfold describe
  split
  · rename_i hv
    simp [hv]
  · rename_i hv
    rw [describeFrom_eq_ok_iff, and_iff_right hv]
    rfl

theorem describe_eq_error_iff (hv : h.version ≠ .nca0) :
    h.describe archiveSize = .error e ↔ FirstFault archiveSize headersSize h.named e := by
  rw [describe, if_neg hv, describeFrom_eq_error_iff]
  rfl

/-- The descriptors are those of the sections that the main header names. They come in the order of
their numbers, begin behind the headers, end in the archive and do not overlap, and their filesystems
lie in them. -/
structure Describes (h : Headers) (archiveSize : Nat) (ds : List Descriptor) : Prop where
  index_eq : ds.map Descriptor.index = h.populated.map Fin.val
  descriptor : ∀ d ∈ ds, ∃ (i : Fin 4) (header : SectionHeader), d.index = i.val ∧
    h.sections.get i = some header ∧ Place.descriptor h.main ⟨i, h.main.entries.get i, header⟩ = d
  index_lt : ds.Pairwise fun a b => a.index < b.index
  stop_le_start : ds.Pairwise fun a b => a.stop ≤ b.start
  bounds : ∀ d ∈ ds, headersSize ≤ d.start ∧ d.start < d.stop ∧ d.stop ≤ archiveSize
  data_le : ∀ d ∈ ds, d.start + d.dataOffset + d.dataSize ≤ d.stop
  addressable : ∀ d ∈ ds, d.stop < UInt64.size

/-- **What is described** are the sections that the main header names. -/
theorem Complete.describes (hc : h.Complete) {ds : List Descriptor}
    (hd : h.describe archiveSize = .ok ds) : h.Describes archiveSize ds := by
  obtain ⟨hindex, hfits⟩ := describe_ok hd
  obtain ⟨hv, hsound, rfl⟩ := describe_eq_ok_iff.mp hd
  have hpopulated : ∀ p ∈ h.named, p.entry.isPopulated = true := fun p hp => (mem_named_iff.mp hp).1
  obtain ⟨hbehind, hpairwise⟩ := hsound.ordered hpopulated
  constructor
  · rw [List.map_map]
    exact hc.index_named hv
  · intro d hd
    obtain ⟨p, hp, rfl⟩ := List.mem_map.mp hd
    obtain ⟨-, i, hi, hentry, hheader⟩ := mem_named_iff.mp hp
    exact ⟨i, p.header, hi.symm, hheader, by rw [hi, hentry]⟩
  · exact hindex
  · exact List.pairwise_map.mpr hpairwise
  · intro d hd
    obtain ⟨p, hp, rfl⟩ := List.mem_map.mp hd
    exact ⟨hbehind p hp, startOffset_lt_endOffset (hpopulated p hp), (hfits _ hd).stop_le⟩
  · intro d hd
    have hdata := (hfits d hd).data_le
    obtain ⟨p, hp, rfl⟩ := List.mem_map.mp hd
    have hlt : (p.descriptor h.main).start < (p.descriptor h.main).stop :=
      startOffset_lt_endOffset (hpopulated p hp)
    unfold Descriptor.size at hdata
    omega
  · intro d hd
    obtain ⟨p, -, rfl⟩ := List.mem_map.mp hd
    exact endOffset_lt p.entry

theorem isSome_of_readSectionHeader {version : Version} {plain : List UInt8} {index : Nat}
    {entry : SectionEntry} {header? : Option SectionHeader}
    (hread : readSectionHeader version plain index entry = .ok header?) (hv : version ≠ .nca0)
    (hentry : entry.isPopulated = true) : header?.isSome = true := by
  rw [readSectionHeader, if_neg (by simp [hv, hentry])] at hread
  obtain ⟨header, -, hread⟩ := bind_eq_ok_iff.mp hread
  cases hread
  rfl

/-- Headers that were read are complete. -/
theorem complete_of_readHeaders {region : Region} {media : Media} {keys : KeyStore}
    (hread : readHeaders region media keys = .ok h) : h.Complete := by
  unfold readHeaders at hread
  obtain ⟨-, hread⟩ := check_eq_ok_iff.mp hread
  split at hread
  · cases hread
  · obtain ⟨raw, -, hread⟩ := bind_eq_ok_iff.mp hread
    obtain ⟨⟨plain, version⟩, -, hread⟩ := bind_eq_ok_iff.mp hread
    obtain ⟨main, -, hread⟩ := bind_eq_ok_iff.mp hread
    obtain ⟨s0, h0, hread⟩ := bind_eq_ok_iff.mp hread
    obtain ⟨s1, h1, hread⟩ := bind_eq_ok_iff.mp hread
    obtain ⟨s2, h2, hread⟩ := bind_eq_ok_iff.mp hread
    obtain ⟨s3, h3, hread⟩ := bind_eq_ok_iff.mp hread
    cases hread
    intro hv i hentry
    match i with
    | 0 => exact isSome_of_readSectionHeader h0 hv hentry
    | 1 => exact isSome_of_readSectionHeader h1 hv hentry
    | 2 => exact isSome_of_readSectionHeader h2 hv hentry
    | 3 => exact isSome_of_readSectionHeader h3 hv hentry

end Headers

/-- **Which sections are described, and which are refused.** Headers that are read are complete. Of
complete headers, the descriptors are those of the sections that the main header names, one behind the
other and within the archive. In a version whose section headers are read, nothing is described exactly
if one of these sections is not sound, and the fault of the first one that is not is the error. -/
theorem Headers.placement :
    (∀ {region : Region} {media : Media} {keys : KeyStore} {h : Headers},
      readHeaders region media keys = .ok h → h.Complete) ∧
    ∀ {h : Headers}, h.Complete → ∀ archiveSize : Nat,
      (∀ ds, h.describe archiveSize = .ok ds → h.Describes archiveSize ds) ∧
      (h.version ≠ .nca0 → h.named.map Place.index = h.populated.map Fin.val ∧
        ∀ e, h.describe archiveSize = .error e ↔ FirstFault archiveSize headersSize h.named e) := by
  refine ⟨fun hread => complete_of_readHeaders hread, fun hc archiveSize => ⟨?_, ?_⟩⟩
  · exact fun ds hd => hc.describes hd
  · exact fun hv => ⟨hc.index_named hv, fun e => describe_eq_error_iff hv⟩

/-- The headers of an archive that ends behind its section, and of one that ends in it. -/
theorem placement_specimen :
    readHeaders Specimen.view.region Specimen.media Specimen.keys = .ok Specimen.headers ∧
    Specimen.headers.Complete ∧ Specimen.headers.version ≠ .nca0 ∧
    Specimen.headers.Describes 0xE00 [Specimen.descriptor] ∧
    FirstFault 0xD00 headersSize Specimen.headers.named
      (.truncated (.archiveSection 0 0xE00 0xD00)) := by
  have hc := Headers.placement.1 Specimen.readHeaders_view
  have hv : Specimen.headers.version ≠ .nca0 := by decide
  have hsection : describeSection Specimen.headers.main 0xD00 headersSize 0 ⟨6, 7, 0⟩
      Specimen.sectionHeader = .error (.truncated (.archiveSection 0 0xE00 0xD00)) :=
    (@Place.Fault.outside 0xD00 headersSize ⟨0, ⟨6, 7, 0⟩, Specimen.sectionHeader⟩ (by decide)
      (by decide)).describeSection_eq
  have hrefused : Specimen.headers.describe 0xD00 =
      .error (.truncated (.archiveSection 0 0xE00 0xD00)) := by
    show (describeSection Specimen.headers.main 0xD00 headersSize 0 ⟨6, 7, 0⟩
      Specimen.sectionHeader >>= fun d => describeFrom Specimen.headers.main 0xD00 d.stop _ >>=
        fun others => pure (d :: others)) = _
    rw [hsection]
    rfl
  exact ⟨Specimen.readHeaders_view, hc, hv,
    (Headers.placement.2 hc 0xE00).1 _ Specimen.describe_headers,
    (((Headers.placement.2 hc 0xD00).2 hv).2 _).mp hrefused⟩

end Cartridge.Nca
