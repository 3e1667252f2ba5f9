import Cartridge.Proofs.Partition.Checking
import Cartridge.Proofs.Xci.KeyArea

/-!
# Checking the root partition of a card image

The header of a card image records a size and a hash for the beginning of the root partition, which need
not be those of its tables. The hash is compared if as many bytes lie behind the place of the root; if
not, the range is reported that does not fit.

Results:
* `Contents.RootedAt.header_of_encode`: the header that an image is written with is the one that is read.
* `Image.Sound.outcome_verifyRootHeader`: what verifying the root's header gives.
* `hash_verdicts`: what hashes say in archives and card images.
-/

namespace Cartridge

namespace Xci

variable {media : Media} {bytes back : List UInt8} {view rootView : View} {header : Header}
  {c : Contents} {root : Partition.Table .hashed}

/-- An image that begins with a header has that header. -/
theorem Contents.RootedAt.header_of_encode (h : c.RootedAt media view rootView root)
    (hr : view.region.Holds media (Header.layout.encode header ++ back)) :
    c.header = header ∧ c.rootOffset = header.rootOffset.toNat := by
  have hmagic : hasMagicAt view.region media 0 = true :=
    (hasMagicAt_iff hr).mpr (by rw [Nat.zero_add]; exact slice?_encode_magic header back)
  have hoffset := h.headerOffset_eq
  rw [headerOffset?, if_pos hmagic] at hoffset
  have hzero : c.headerOffset = 0 := (Option.some.inj hoffset).symm
  have hheader := h.header_eq
  rw [hzero, hr.decodeAt_eq _ (Nat.zero_le _)] at hheader
  have heq : c.header = header := Except.ok.inj (hheader.symm.trans (Layout.decode_encode _ _ _))
  refine ⟨heq, ?_⟩
  rw [h.rootOffset_eq, hzero, heq, Nat.zero_add]

/-- The bytes that the header's hash is about, as many of them as there are. -/
def Contents.rootStart (c : Contents) (bytes : List UInt8) : List UInt8 :=
  slice bytes c.rootOffset c.header.rootHeaderSize.toNat

/-- What verifying the root's header demands of an image that holds these bytes. -/
def Contents.demandRoot (c : Contents) (bytes : List UInt8) : Except Error Unit :=
  let size := c.header.rootHeaderSize.toNat
  if c.rootOffset + size ≤ bytes.length then
    if Sha256.hash (c.rootStart bytes) = c.header.rootHeaderHash then .ok ()
    else .error (.hashMismatch "root HFS0 header")
  else .error (.outOfBounds c.rootOffset size bytes.length)

theorem Contents.demandRoot_eq_ok_iff : c.demandRoot bytes = .ok () ↔
    c.rootOffset + c.header.rootHeaderSize.toNat ≤ bytes.length ∧
      Sha256.hash (c.rootStart bytes) = c.header.rootHeaderHash := by
  unfold demandRoot
  dsimp only
  split
  · rename_i hle
    split
    · rename_i hhash
      exact iff_of_true rfl ⟨hle, hhash⟩
    · rename_i hhash
      exact iff_of_false nofun fun h => hhash h.2
  · rename_i hle
    exact iff_of_false nofun fun h => hle h.1

/-- **Verifying the root's header** compares the hash of the bytes that the header is about, if they are
there. -/
theorem Image.outcome_verifyRootHeader {i : Image} (hr : view.region.Holds media bytes)
    (hcontents : (Image.contents media).outcome i = (.ok c, ⟨view, .parsed c⟩)) :
    (Image.verifyRootHeader media).outcome i = (c.demandRoot bytes, ⟨view, .parsed c⟩) := by
  have hget : (Access.get : Access Image Image).outcome ⟨view, .parsed c⟩
      = (.ok ⟨view, .parsed c⟩, ⟨view, .parsed c⟩) := rfl
  rw [Image.verifyRootHeader, Access.outcome_bind_of_ok hcontents, Access.outcome_bind_of_ok hget]
  unfold Contents.demandRoot Contents.rootStart
  generalize c.header.rootHeaderSize.toNat = size
  by_cases hle : c.rootOffset + size ≤ bytes.length
  · have hregion : c.rootOffset + size ≤ view.region.size := by
      rwa [hr.size_eq]
    have hlength : (slice bytes c.rootOffset size).length = size := length_slice hle
    have hhash : Partition.hashOfPrefix (View.ofRegion (.part view.region c.rootOffset size)).region
        media size = .ok (Sha256.hash ((slice bytes c.rootOffset size).take size)) :=
      Partition.hashOfPrefix_eq (hr.part hregion) (Nat.le_of_eq hlength.symm)
    rw [if_pos hle, Access.outcome_bind_liftM_of_ok (View.subview_eq_ok_iff.mpr ⟨hregion, rfl⟩),
      Access.outcome_bind_liftM_of_ok hhash, List.take_of_length_le (Nat.le_of_eq hlength)]
    split <;> rfl
  · have hout : ¬ c.rootOffset + size ≤ view.size := by
      rwa [View.size, hr.size_eq]
    rw [if_neg hle, Access.outcome_bind, Access.outcome_liftM, Traced.result_liftM,
      View.subview_of_not_le hout, View.size, hr.size_eq]

end Xci

/-- **What hashes say**, in archives and card images that parse, whether they were parsed before or not.

* A file of an archive is valid exactly if the bytes that its hash covers have this hash. Verifying
  demands that, and opening does not. Nothing behind the covered bytes makes a difference: an archive of
  the same size with the same tables gives the same verdict on a file whose covered bytes are the same.
* The root of a card image is verified exactly if the range that the header names lies in the image and
  has the hash that the header records. -/
theorem hash_verdicts :
    (∀ {media : Media} {bytes : List UInt8} {a a' : Partition.Archive .hashed}, a.Sound media →
      a.view.region.Holds media bytes → (Partition.Archive.parse media).outcome a = (.ok (), a') →
      ∃ t, a.Checks media bytes t ∧
        ∀ {media' : Media} {bytes' : List UInt8} {b : Partition.Archive .hashed}, b.Sound media' →
          b.view.region.Holds media' bytes' → bytes'.length = bytes.length →
          bytes'.take t.dataOffset = bytes.take t.dataOffset →
          b.Checks media' bytes' t ∧ ∀ {name e}, t.entries.find? name = some e →
            t.covered bytes' e = t.covered bytes e →
            ((Partition.Archive.check media' name).outcome b).1
              = ((Partition.Archive.check media name).outcome a).1) ∧
    ∀ {media : Media} {bytes : List UInt8} {i i' : Xci.Image}, i.Sound media →
      i.view.region.Holds media bytes → (Xci.Image.parse media).outcome i = (.ok (), i') →
      ∃ c rootView root, c.RootedAt media i.view rootView root ∧
        (Xci.Image.verifyRootHeader media).outcome i = (c.demandRoot bytes, ⟨i.view, .parsed c⟩) ∧
        (c.demandRoot bytes = .ok () ↔
          c.rootOffset + c.header.rootHeaderSize.toNat ≤ bytes.length ∧
            Sha256.hash (c.rootStart bytes) = c.header.rootHeaderHash) := by
  refine ⟨fun ha hr hparse => ha.checks hr hparse, fun {media bytes i i'} hi hr hparse => ?_⟩
  obtain ⟨c, i₁, hcontents, -⟩ := Access.outcome_bind_eq_ok_iff.mp hparse
  obtain ⟨⟨rootView, root, hroot⟩, rfl⟩ := hi.contents hcontents
  exact ⟨c, rootView, root, hroot, Xci.Image.outcome_verifyRootHeader hr hcontents,
    Xci.Contents.demandRoot_eq_ok_iff⟩

end Cartridge

/-! ## An archive with a seal, and a card image around it -/

namespace Cartridge.Sealed

/-- A file whose first two bytes are hashed, and whose last byte is not. -/
def file (last : UInt8) : Partition.Content .hashed := ⟨"a", [1, 2, last], 2, 0, Sha256.hash [1, 2]⟩

def parts (last : UInt8) : Partition.Parts .hashed where
  files := [file last]
  padding := 0
  reserved := Bytes.zero 4

def media (last : UInt8) : Media := ⟨[.memory (parts last).image]⟩

def archive : Partition.Archive .hashed := .ofView (.ofRegion (.medium 0 (parts 3).image.length))

theorem strings_parts (last : UInt8) : (parts last).strings = [0x61, 0] := by
  have hencode : Utf8.encode "a" = [0x61] := by decide
  unfold Partition.Parts.strings parts
  rw [Partition.nameBytes_cons, show (file last).name = "a" from rfl, hencode]
  rfl

theorem fits_parts (last : UInt8) : (parts last).Fits where
  names_nodup := List.nodup_singleton _
  no_zero := by simp [parts, file]
  count_lt := show 1 < UInt32.size by decide
  strings_lt := by
    rw [strings_parts]
    decide

theorem length_image (last : UInt8) : (parts last).image.length = 0x52 + 3 := by
  rw [Partition.Parts.length_image, strings_parts]
  rfl

theorem dataOffset_table (last : UInt8) : (parts last).table.dataOffset = 0x52 := by
  rw [show (parts last).table.dataOffset = Partition.tablesSize .hashed (parts last).header from rfl,
    (fits_parts last).tablesSize_eq, strings_parts]
  rfl

theorem holds_archive (last : UInt8) :
    archive.view.region.Holds (media last) (parts last).image := by
  refine Region.holds_memory ?_ ?_
  · rw [length_image, length_image]
  · rw [length_image]
    decide

/-- A header with the hash of the first bytes of the root. -/
def header : Xci.Header :=
  { Xci.Specimen.header with
    rootHeaderSize := 0x10
    rootHeaderHash := Sha256.hash ((parts 3).image.take 0x10) }

def bytes : List UInt8 := Xci.Header.layout.encode header ++ (parts 3).image

def card : Xci.Image := .ofView (.ofRegion (.medium 0 bytes.length))

theorem length_bytes : bytes.length = 0x200 + (0x52 + 3) := by
  rw [bytes, List.length_append, Layout.length_encode, Xci.Header.size_layout, length_image]

theorem holds_card : card.view.region.Holds ⟨[.memory bytes]⟩ bytes := by
  refine Region.holds_memory rfl ?_
  rw [length_bytes]
  decide

/-- The tables do not depend on the last byte. -/
theorem take_image (last : UInt8) : (parts last).image.take 0x52 = (parts 3).image.take 0x52 := by
  obtain ⟨front, hfront⟩ : ∃ front, ∀ last, (parts last).image = front ++ [1, 2, last] :=
    ⟨Partition.Header.layout.encode (parts 3).header ++
      ((parts 3).records.flatMap (Partition.Record.layout .hashed).encode ++ (parts 3).strings),
      fun last => by
        rw [List.append_assoc, List.append_assoc]
        rfl⟩
  have hlength : front.length = 0x52 := by
    have h := length_image 3
    rw [hfront, List.length_append] at h
    exact Nat.add_right_cancel h
  rw [hfront last, hfront 3, List.take_left' hlength, List.take_left' hlength]

theorem table_parts (last : UInt8) : (parts last).table = (parts 3).table := rfl

theorem entryAt_file (last : UInt8) : (file last).entryAt 0 = (file 3).entryAt 0 := rfl

theorem covered_table (last : UInt8) :
    (parts 3).table.covered (parts last).image ((file 3).entryAt 0) = [1, 2] := by
  have hfiles : (parts last).files = [] ++ file last :: [] := rfl
  have haddressable : (parts last).image.length < UInt64.size := by
    rw [length_image]
    decide
  have hcovered := (fits_parts last).covered_eq hfiles haddressable
  rw [← table_parts last, ← entryAt_file last]
  exact hcovered

/-- The file is valid whatever its last byte is, and the root is verified. -/
theorem hash_verdicts_sealed :
    ((Partition.Archive.check (media 3) "a").outcome archive).1 = .ok .valid ∧
    ((Partition.Archive.check (media 9) "a").outcome archive).1 = .ok .valid ∧
    ((Xci.Image.verifyRootHeader ⟨[.memory bytes]⟩).outcome card).1 = .ok () := by
  obtain ⟨harchives, hcards⟩ := hash_verdicts
  have hsound (last : UInt8) : archive.Sound (media last) := Partition.Archive.sound_ofView _ _
  obtain ⟨a', hparse⟩ := (fits_parts 3).outcome_parse (hsound 3) (holds_archive 3)
  obtain ⟨t, hchecks, hother⟩ := harchives (hsound 3) (holds_archive 3) hparse
  have htable : t = (parts 3).table := by
    obtain ⟨a₁, hread, -⟩ :=
      (hsound 3).outcome_table_of_read ((fits_parts 3).result_read (holds_archive 3))
    rw [hchecks.table] at hread
    exact Except.ok.inj (congrArg Prod.fst hread)
  subst htable
  have hfiles : (parts 3).files = [] ++ file 3 :: [] := rfl
  have hfind : (parts 3).table.entries.find? "a" = some ((file 3).entryAt 0) :=
    (fits_parts 3).find?_eq hfiles
  have hvalid : ((Partition.Archive.check (media 3) "a").outcome archive).1 = .ok .valid := by
    rw [(hchecks.check_valid_iff hfind).mpr]
    rw [covered_table]
    rfl
  obtain ⟨-, hsame⟩ := hother (hsound 9) (holds_archive 9)
    ((length_image 9).trans (length_image 3).symm) (by rw [dataOffset_table, take_image])
  refine ⟨hvalid, (hsame hfind (by rw [covered_table, covered_table])).trans hvalid, ?_⟩
  obtain ⟨i', hcard⟩ := Xci.outcome_parse_of_image (show header.rootOffset.toNat = 0x200 from rfl)
    (fits_parts 3) holds_card
  obtain ⟨c, rootView, root, hroot, hverify, hok⟩ :=
    hcards (Xci.Image.sound_ofView _ _) holds_card hcard
  obtain ⟨hheader, hoffset⟩ := hroot.header_of_encode holds_card
  have hroom : c.rootOffset + c.header.rootHeaderSize.toNat ≤ bytes.length := by
    rw [hoffset, hheader, length_bytes]
    decide
  have hhash : Sha256.hash (c.rootStart bytes) = c.header.rootHeaderHash := by
    have hstart : c.rootStart bytes = (parts 3).image.take 0x10 := by
      unfold Xci.Contents.rootStart
      rw [hoffset, hheader]
      exact slice_append_right (Layout.length_encode _ header) (parts 3).image 0 0x10
    rw [hstart, hheader]
    rfl
  exact (congrArg Prod.fst hverify).trans (hok.mpr ⟨hroom, hhash⟩)

end Cartridge.Sealed
