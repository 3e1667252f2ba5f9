import Cartridge.Proofs.CounterMode
import Cartridge.Proofs.Nca.Geometry
import Cartridge.Proofs.Nca.Headers
import Cartridge.Proofs.Nca.Opening
import Cartridge.Proofs.Sectors

/-!
# The views of sections

The view of an opened section shows the plaintext of the section: key, cipher, counter and sectors
are those that the headers name, and the bytes before the filesystem are counted although they are
not shown.

Results:
* `holds_decryptSection`: the view of a section shows the plaintext of its bytes.
* `holds_sectionView`: a section that is the encryption of a plaintext shows that plaintext.
* `Specimen.openSections_view`: an archive built from headers and a plaintext, and how it opens.
-/

namespace Cartridge.Nca

/-- The bytes of a section that hold a plaintext under a key. The counter of a byte is that of its
place in the archive; sectors are counted from the start of the section. -/
def encryptSection (d : Descriptor) (plaintext : List UInt8) : SectionKey → List UInt8
  | .plain => plaintext
  | .counter key => Counter.mask (Aes.cipher key) d.upperCounter d.start plaintext
  | .xts key => (XtsLayer.cipher key).encryptArea sectorSize 0 plaintext

theorem length_encryptSection (d : Descriptor) (plaintext : List UInt8) (key : SectionKey) :
    (encryptSection d plaintext key).length = plaintext.length := by
  cases key with
  | plain => rfl
  | counter key => exact Counter.length_mask _ _
  | xts key => exact Xts.length_encryptArea (by decide) 0 plaintext

/-- The plaintext of the bytes of a section under a key. -/
def decryptSection (d : Descriptor) (ciphertext : List UInt8) : SectionKey → List UInt8
  | .plain => ciphertext
  | .counter key => Counter.mask (Aes.cipher key) d.upperCounter d.start ciphertext
  | .xts key => (XtsLayer.cipher key).decryptArea sectorSize 0 ciphertext

theorem decryptSection_encryptSection (d : Descriptor) (plaintext : List UInt8) (key : SectionKey) :
    decryptSection d (encryptSection d plaintext key) key = plaintext := by
  cases key with
  | plain => rfl
  | counter key => exact Counter.mask_mask _ _
  | xts key => exact Xts.decryptArea_encryptArea (by decide) 0 plaintext

section Views

variable {media : Media} {keys : KeyStore} {archive view : View} {image plaintext : List UInt8}
  {d : Descriptor} {key : SectionKey}

/-- The view of a section is as long as its filesystem, and lies where that lies. -/
theorem extent_sectionView (h : sectionView archive d key = .ok view) :
    view.region.size = d.dataSize ∧
      view.parentOffset = archive.parentOffset + d.start + d.dataOffset := by
  cases key with
  | plain =>
    obtain ⟨r, hr, hv⟩ := bind_eq_ok_iff.mp h
    obtain ⟨-, rfl⟩ := Region.subregion_eq_ok_iff.mp hr
    cases hv
    exact ⟨rfl, (Nat.add_assoc _ _ _).symm⟩
  | counter key =>
    obtain ⟨r, hr, hv⟩ := bind_eq_ok_iff.mp h
    obtain ⟨-, rfl⟩ := Region.decryptCounter_eq_ok_iff.mp hr
    cases hv
    exact ⟨rfl, (Nat.add_assoc _ _ _).symm⟩
  | xts key =>
    obtain ⟨r, hr, hv⟩ := bind_eq_ok_iff.mp h
    obtain ⟨-, -, rfl⟩ := Region.decryptXts_eq_ok_iff.mp hr
    cases hv
    exact ⟨rfl, rfl⟩

/-- Sections end on block borders, so no sector is too short. -/
theorem Descriptor.Fits.sectored {archiveSize : Nat} (hd : d.Fits archiveSize) (key : Bytes 32) :
    (⟨d.start, d.size, d.dataOffset, d.dataSize, key⟩ : XtsLayer).Sectored := by
  obtain ⟨entry, -, hstart, hstop⟩ := hd.blocks
  have h1 := entry.startBlock.toNat_lt
  have h2 := entry.endBlock.toNat_lt
  unfold SectionEntry.startOffset mediaBlockSize at hstart
  unfold SectionEntry.endOffset mediaBlockSize at hstop
  constructor
  · show d.stop - d.start ≤ 2 ^ 63
    omega
  · left
    show (d.stop - d.start) % 512 = 0
    omega

/-- **The view of a section shows the section's plaintext** from behind the filesystem's offset on. -/
theorem holds_decryptSection {archiveSize : Nat} (hd : d.Fits archiveSize)
    (hb : archive.region.Holds media image) (h : sectionView archive d key = .ok view) :
    view.region.Holds media
      (slice (decryptSection d (slice image d.start d.size) key) d.dataOffset d.dataSize) := by
  have hdata := hd.data_le
  cases key with
  | plain =>
    obtain ⟨r, hr, hv⟩ := bind_eq_ok_iff.mp h
    obtain ⟨hle, rfl⟩ := Region.subregion_eq_ok_iff.mp hr
    cases hv
    have hholds := hb.part hle
    rw [← slice_slice hdata] at hholds
    exact hholds
  | counter key =>
    obtain ⟨r, hr, hv⟩ := bind_eq_ok_iff.mp h
    obtain ⟨hle, rfl⟩ := Region.decryptCounter_eq_ok_iff.mp hr
    cases hv
    have hholds := hb.counter hle
    dsimp only at hholds
    rw [← slice_slice hdata, ← Counter.slice_mask] at hholds
    exact hholds
  | xts key =>
    obtain ⟨r, hr, hv⟩ := bind_eq_ok_iff.mp h
    obtain ⟨hle, hd', rfl⟩ := Region.decryptXts_eq_ok_iff.mp hr
    cases hv
    exact hb.xts (hd.sectored key) hle hd'

/-- **A section that is the encryption of a plaintext** shows that plaintext. -/
theorem holds_sectionView {archiveSize : Nat} (hd : d.Fits archiveSize)
    (hb : archive.region.Holds media image) (h : sectionView archive d key = .ok view)
    (hp : slice image d.start d.size = encryptSection d plaintext key) :
    view.region.Holds media (slice plaintext d.dataOffset d.dataSize) := by
  have hholds := holds_decryptSection hd hb h
  rwa [hp, decryptSection_encryptSection] at hholds

end Views

/-! ## A specimen -/

namespace Specimen

/-- The header key, and the key for key areas of the first generation. -/
def keys : KeyStore :=
  ⟨⟨[(KeyStore.headerKeyName, .double (Bytes.zero 32)),
    (KeyStore.areaKeyName .application 0, .single (Bytes.zero 16))], by decide⟩, .empty, none⟩

/-- The filesystem begins behind two blocks of the section. -/
def superblock : PartitionSuperblock := ⟨Bytes.zero 32, 0x1000, 2, 0, 0x20, 0x20, 0x1E0⟩

/-- A partition filesystem in counter mode. -/
def sectionHeader : SectionHeader :=
  { version := 2, filesystem := .partition, hash := .sha256, encryption := .counter
    metadataHash := 0, reserved := Bytes.zero 2
    superblock := ⟨PartitionSuperblock.layout.encode superblock ++ List.replicate 0xB0 0, by
      rw [List.length_append, Layout.length_encode, List.length_replicate]
      rfl⟩
    patchInfo := Bytes.zero 0x40, upperCounter := 7 }

/-- The headers of an archive of one section. -/
def headers : Headers :=
  { main :=
      { signature := Bytes.zero 0x100, programSignature := Bytes.zero 0x100
        magic := ⟨Version.magic .nca3, rfl⟩, distribution := .download, contentType := .data
        oldKeyGeneration := 0, areaKeyIndex := 0, contentSize := 0xE00, programId := 0
        contentIndex := 0, sdkVersion := 0, newKeyGeneration := 0, signatureKeyGeneration := 0
        reserved := Bytes.zero 14, rightsId := Bytes.zero 16
        entries := #v[⟨6, 7, 0⟩, ⟨0, 0, 0⟩, ⟨0, 0, 0⟩, ⟨0, 0, 0⟩]
        sectionHashes := .replicate 4 (Bytes.zero 32)
        keyArea := ⟨Bytes.zero 16, Bytes.zero 16, Bytes.zero 16, Bytes.zero 16⟩ }
    version := .nca3
    sections := #v[some sectionHeader, none, none, none] }

def descriptor : Descriptor := ⟨0, .pfs0, .counter, 0, 0xC00, 0xE00, 0x20, 0x1E0, 7⟩

def key : Block := (Aes.cipher (Bytes.zero 16)).decrypt (Bytes.zero 16)

/-- The section in plain: the magic of its filesystem, and zeros around it. -/
def plaintext : List UInt8 :=
  List.replicate 0x20 0 ++ (Partition.Flavor.plain.magic.toList ++ List.replicate 0x1DC 0)

def image : List UInt8 :=
  encryptHeaders (Bytes.zero 32) headers.version headers.encode
    ++ encryptSection descriptor plaintext (.counter key)

def media : Media := ⟨[.memory image]⟩

def view : View := View.ofRegion (.medium 0 0xE00)

theorem length_plaintext : plaintext.length = 0x200 := by
  unfold plaintext
  rw [List.length_append, List.length_append, List.length_replicate, List.length_replicate]
  rfl

theorem length_encrypted :
    (encryptSection descriptor plaintext (.counter key)).length = descriptor.size :=
  (length_encryptSection descriptor plaintext (.counter key)).trans length_plaintext

theorem holds_view : view.region.Holds media image := by
  refine Region.holds_memory ?_ (show 0xE00 < UInt64.size by decide)
  unfold image
  rw [List.length_append, length_encryptHeaders headers.length_encode, length_encrypted]
  rfl

theorem slice_image : slice image descriptor.start descriptor.size
    = encryptSection descriptor plaintext (.counter key) := by
  unfold image
  refine (slice_append_right (length_encryptHeaders headers.length_encode) _ 0 _).trans ?_
  rw [← length_encrypted, slice_all]

theorem readHeaders_view : readHeaders view.region media keys = .ok headers :=
  readHeaders_encode (by decide) (by decide) rfl rfl holds_view

theorem dataRegion_sectionHeader : sectionHeader.dataRegion = .ok (0x20, 0x1E0) := by
  have hsuperblock : sectionHeader.partitionSuperblock = .ok superblock :=
    Layout.decode_encode _ superblock _
  unfold SectionHeader.dataRegion
  rw [show sectionHeader.kind = .pfs0 from rfl]
  dsimp only
  rw [hsuperblock]
  rfl

theorem describe_headers : headers.describe 0xE00 = .ok [descriptor] := by
  have hsection : describeSection headers.main 0xE00 headersSize 0 ⟨6, 7, 0⟩ sectionHeader
      = .ok descriptor :=
    describeSection_eq_ok_iff.mpr
      ⟨by decide, by decide, 0x20, 0x1E0, dataRegion_sectionHeader, by decide, rfl⟩
  show (describeSection headers.main 0xE00 headersSize 0 ⟨6, 7, 0⟩ sectionHeader >>= fun d =>
    describeFrom headers.main 0xE00 d.stop _ >>= fun others => pure (d :: others)) = _
  rw [hsection]
  rfl

def sectionView : View := View.ofRegion (.counter (.medium 0 0xE00) ⟨0xC20, 0x1E0, key, 7⟩)

theorem sectionView_eq : Nca.sectionView view descriptor (.counter key) = .ok sectionView := rfl

theorem fits_descriptor : descriptor.Fits 0xE00 :=
  (Headers.describe_ok describe_headers).2 descriptor (List.mem_singleton_self descriptor)

theorem holds_sectionView :
    sectionView.region.Holds media (slice plaintext 0x20 0x1E0) :=
  Nca.holds_sectionView fits_descriptor holds_view sectionView_eq slice_image

/-- The plaintext is told for a partition filesystem, wherever a section holds it. -/
theorem openSection_plaintext {media : Media} {keys : KeyStore} {main : Header} {ring : KeyRing}
    {archive view : View} {image : List UInt8} {archiveSize : Nat} {d : Descriptor}
    {key : SectionKey} (hr : ring.Agrees main keys) (hkey : keyOf main keys d.protection = .ok key)
    (hd : d.Fits archiveSize) (hb : archive.region.Holds media image)
    (hview : Nca.sectionView archive d key = .ok view)
    (hp : slice image d.start d.size = encryptSection d plaintext key)
    (hregion : (d.kind, d.dataOffset, d.dataSize) = (.pfs0, 0x20, 0x1E0)) :
    ∃ s ring', (openSection archive media keys main d).outcome ring = (.ok s, ring') ∧
      s.outline = (d, view, .pfs0) ∧ ring'.Agrees main keys := by
  obtain ⟨hkind, hoffset, hdata⟩ : d.kind = .pfs0 ∧ d.dataOffset = 0x20 ∧ d.dataSize = 0x1E0 := by
    simpa using hregion
  have hholds := Nca.holds_sectionView hd hb hview hp
  rw [hoffset, hdata] at hholds
  have hhead : view.region.readAt media 0 (min view.region.size Format.headSize)
      = .ok (slice plaintext 0x20 0x1E0) := by
    have hsize := hholds.size_eq
    rw [hsize, Nat.min_eq_left (by rw [← hsize, (extent_sectionView hview).1, hdata]; decide),
      hholds.readAt_eq (Nat.le_of_eq (Nat.zero_add _)), slice_all]
  have hdetect : Format.detectBytes (slice plaintext 0x20 0x1E0) keys = some d.kind.format := by
    rw [hkind]
    rfl
  obtain ⟨s, ring', hrun, houtline, hr'⟩ := openSection_eq_ok hr hkey hview hhead hdetect
  rw [hkind] at houtline
  exact ⟨s, ring', hrun, houtline, hr'⟩

/-- The specimen's section opens. -/
theorem openSections_view : ∃ s ring, s.outline = (descriptor, sectionView, .pfs0) ∧
    (openSections view media keys headers.main [descriptor]).outcome KeyRing.empty
      = (.ok [s], ring) := by
  have hkey : keyOf headers.main keys descriptor.protection = .ok (.counter key) := rfl
  obtain ⟨s, ring, hrun, houtline, -⟩ := openSection_plaintext KeyRing.agrees_empty hkey
    fits_descriptor holds_view sectionView_eq slice_image rfl
  exact ⟨s, ring, houtline, outcome_openSections_cons rfl hrun rfl⟩

end Specimen

end Cartridge.Nca
