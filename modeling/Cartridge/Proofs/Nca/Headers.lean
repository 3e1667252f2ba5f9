import Cartridge.Nca.Archive
import Cartridge.Proofs.Contents
import Cartridge.Proofs.Sectors

/-!
# Reading encrypted headers

Reading the headers of an archive undoes their encryption. In version 3 the section headers are the
sectors behind the main header, in version 2 each is a sector 0 of its own, and either way decoding
sees the plain bytes.

Results:
* `decryptHeaders_encryptHeaders`: decrypting undoes encrypting.
* `readHeaders_eq_ok_iff`: what is read of an archive is what its decrypted headers hold.
* `readHeaders_encryptHeaders`: reading encrypted headers is decoding the plain ones.
* `readHeaders_encode`: headers that are written as bytes and encrypted are read back.
-/

namespace Cartridge.Nca

variable {media : Media} {keys : KeyStore} {region : Region} {key : Bytes 32} {version : Version}
  {plain body raw bytes main : List UInt8}

theorem Version.ofMagic?_magic (v : Version) : ofMagic? v.magic = some v := by
  cases v with
  | nca0 => rfl
  | nca2 => rfl
  | nca3 => rfl

theorem Version.magic_of_ofMagic? {magic : List UInt8} {v : Version} (h : ofMagic? magic = some v) :
    v.magic = magic := by
  unfold ofMagic? at h
  simpa using List.find?_some h

/-- The encrypted section headers of a version. -/
def encryptSectionHeaders (key : Bytes 32) (version : Version) (sections : List UInt8) :
    List UInt8 :=
  match version with
  | .nca0 => sections
  | .nca2 => Xts.mapSectors (fun _ => (XtsLayer.cipher key).encryptSector 0) sectionHeaderSize 4 0
      sections
  | .nca3 => (XtsLayer.cipher key).encryptArea sectorSize 2 sections

theorem encryptHeaders_eq :
    encryptHeaders key version plain
      = (XtsLayer.cipher key).encryptArea sectorSize 0 (plain.take mainHeaderSize)
        ++ encryptSectionHeaders key version (plain.drop mainHeaderSize) := by
  cases version <;> rfl

/-- Four section headers, each a sector of its own. -/
theorem mapSectors_eq_mapArea (f : Nat → List UInt8 → List UInt8) {sections : List UInt8}
    (h : sections.length = 4 * sectionHeaderSize) :
    Xts.mapSectors f sectionHeaderSize 4 0 sections = Xts.mapArea f sectionHeaderSize 0 sections := by
  unfold Xts.mapArea
  rw [h]
  rfl

theorem length_encryptSectionHeaders (key : Bytes 32) (version : Version) {sections : List UInt8}
    (h : sections.length = 4 * sectionHeaderSize) :
    (encryptSectionHeaders key version sections).length = 4 * sectionHeaderSize := by
  cases version with
  | nca0 => exact h
  | nca2 =>
    unfold encryptSectionHeaders
    rw [mapSectors_eq_mapArea _ h, Xts.length_mapArea (by decide) fun _ => Xts.length_encryptSector 0]
    exact h
  | nca3 => exact (Xts.length_encryptArea (by decide) 2 sections).trans h

theorem decryptSectionHeaders_encryptSectionHeaders {sections : List UInt8}
    (h : sections.length = 4 * sectionHeaderSize) :
    decryptSectionHeaders key version (encryptSectionHeaders key version sections) = sections := by
  have hlen := length_encryptSectionHeaders key version h
  cases version with
  | nca0 => rfl
  | nca2 =>
    unfold decryptSectionHeaders
    dsimp only
    rw [mapSectors_eq_mapArea _ hlen]
    unfold encryptSectionHeaders
    dsimp only
    rw [mapSectors_eq_mapArea _ h]
    exact Xts.mapArea_mapArea (by decide) (fun _ => Xts.length_encryptSector 0)
      (fun _ => Xts.length_decryptSector 0) (fun _ => Xts.decryptSector_encryptSector 0) 0 sections
  | nca3 => exact Xts.decryptArea_encryptArea (by decide) 2 sections

/-- The headers of an archive, decrypted as a version has them. -/
def decryptHeaders (key : Bytes 32) (version : Version) (raw : List UInt8) : List UInt8 :=
  (XtsLayer.cipher key).decryptArea sectorSize 0 (raw.take mainHeaderSize)
    ++ decryptSectionHeaders key version (raw.drop mainHeaderSize)

theorem length_decryptSectionHeaders (key : Bytes 32) (version : Version) {sections : List UInt8}
    (h : sections.length = 4 * sectionHeaderSize) :
    (decryptSectionHeaders key version sections).length = 4 * sectionHeaderSize := by
  cases version with
  | nca0 => exact h
  | nca2 =>
    unfold decryptSectionHeaders
    dsimp only
    rw [mapSectors_eq_mapArea _ h, Xts.length_mapArea (by decide) fun _ => Xts.length_decryptSector 0]
    exact h
  | nca3 => exact (Xts.length_decryptArea (by decide) 2 sections).trans h

theorem length_take_main (h : raw.length = headersSize) :
    (raw.take mainHeaderSize).length = mainHeaderSize := by
  rw [List.length_take, h]
  rfl

theorem length_drop_main (h : raw.length = headersSize) :
    (raw.drop mainHeaderSize).length = 4 * sectionHeaderSize := by
  rw [List.length_drop, h]
  rfl

section Encrypted

variable (hlen : plain.length = headersSize)

include hlen

theorem length_encrypted_main :
    ((XtsLayer.cipher key).encryptArea sectorSize 0 (plain.take mainHeaderSize)).length
      = mainHeaderSize :=
  (Xts.length_encryptArea (by decide) 0 _).trans (length_take_main hlen)

theorem length_encryptHeaders : (encryptHeaders key version plain).length = headersSize := by
  rw [encryptHeaders_eq, List.length_append, length_encrypted_main hlen,
    length_encryptSectionHeaders key version (length_drop_main hlen)]
  rfl

theorem take_encryptHeaders : (encryptHeaders key version plain).take mainHeaderSize
    = (XtsLayer.cipher key).encryptArea sectorSize 0 (plain.take mainHeaderSize) := by
  rw [encryptHeaders_eq, List.take_left' (length_encrypted_main hlen)]

theorem drop_encryptHeaders : (encryptHeaders key version plain).drop mainHeaderSize
    = encryptSectionHeaders key version (plain.drop mainHeaderSize) := by
  rw [encryptHeaders_eq, List.drop_left' (length_encrypted_main hlen)]

/-- **Decrypting undoes encrypting.** -/
theorem decryptHeaders_encryptHeaders :
    decryptHeaders key version (encryptHeaders key version plain) = plain := by
  rw [decryptHeaders, take_encryptHeaders hlen, drop_encryptHeaders hlen,
    Xts.decryptArea_encryptArea (by decide),
    decryptSectionHeaders_encryptSectionHeaders (length_drop_main hlen), List.take_append_drop]

end Encrypted

section Decrypted

variable (h : raw.length = headersSize)

include h

theorem length_decrypted_main :
    ((XtsLayer.cipher key).decryptArea sectorSize 0 (raw.take mainHeaderSize)).length
      = mainHeaderSize :=
  (Xts.length_decryptArea (by decide) 0 _).trans (length_take_main h)

theorem length_decryptHeaders : (decryptHeaders key version raw).length = headersSize := by
  rw [decryptHeaders, List.length_append, length_decrypted_main h,
    length_decryptSectionHeaders key version (length_drop_main h)]
  rfl

theorem slice_decryptHeaders : slice (decryptHeaders key version raw) 0 mainHeaderSize
    = (XtsLayer.cipher key).decryptArea sectorSize 0 (raw.take mainHeaderSize) :=
  slice_append_left (length_decrypted_main h) _

theorem drop_decryptHeaders : (decryptHeaders key version raw).drop mainHeaderSize
    = decryptSectionHeaders key version (raw.drop mainHeaderSize) :=
  List.drop_left' (length_decrypted_main h)

end Decrypted

/-- Only the main header counts for the magic. -/
theorem decryptMainHeader_take {n : Nat} (h : mainHeaderSize ≤ n) (key : Bytes 32)
    (bytes : List UInt8) : decryptMainHeader key (bytes.take n) = decryptMainHeader key bytes := by
  unfold decryptMainHeader
  rw [List.take_take, Nat.min_eq_left h]

theorem eq_of_decryptMainHeader (h : decryptMainHeader key bytes = .ok (main, version)) :
    main = (XtsLayer.cipher key).decryptArea sectorSize 0 (bytes.take mainHeaderSize) := by
  unfold decryptMainHeader at h
  dsimp only at h
  split at h
  · cases h
    rfl
  · cases h

/-- The version is the one whose magic is found. -/
theorem magic_of_decryptMainHeader (h : decryptMainHeader key bytes = .ok (main, version)) :
    slice main magicOffset 4 = version.magic := by
  unfold decryptMainHeader at h
  dsimp only at h
  split at h
  · rename_i hversion
    cases h
    exact (Version.magic_of_ofMagic? hversion).symm
  · cases h

/-- What decrypts to the magic of a version is a main header of that version. -/
theorem decryptMainHeader_of_magic
    (h : (((XtsLayer.cipher key).decryptArea sectorSize 0 (bytes.take mainHeaderSize)).drop
      magicOffset).take 4 = version.magic) :
    decryptMainHeader key bytes
      = .ok ((XtsLayer.cipher key).decryptArea sectorSize 0 (bytes.take mainHeaderSize), version) := by
  unfold decryptMainHeader
  dsimp only
  rw [h, Version.ofMagic?_magic]

theorem decryptMainHeader_encryptHeaders (hlen : plain.length = headersSize)
    (hmagic : slice plain magicOffset 4 = version.magic) :
    decryptMainHeader key (encryptHeaders key version plain) = .ok (plain.take mainHeaderSize, version)
      := by
  have hplain : (XtsLayer.cipher key).decryptArea sectorSize 0
      ((encryptHeaders key version plain).take mainHeaderSize) = plain.take mainHeaderSize := by
    rw [take_encryptHeaders hlen, Xts.decryptArea_encryptArea (by decide)]
  rw [← hplain]
  refine decryptMainHeader_of_magic ?_
  rw [hplain, List.drop_take, List.take_take]
  exact hmagic

/-! ## Reading headers -/

theorem Headers.vector_sections (h : Headers) :
    #v[h.sections.get 0, h.sections.get 1, h.sections.get 2, h.sections.get 3] = h.sections := by
  ext i hi
  have hcases : i = 0 ∨ i = 1 ∨ i = 2 ∨ i = 3 := by omega
  rcases hcases with rfl | rfl | rfl | rfl
  · rfl
  · rfl
  · rfl
  · rfl

/-- The headers that plain ones hold: a main header, and a section header wherever one is looked for. -/
structure Headers.HeldIn (h : Headers) (plain : List UInt8) : Prop where
  main : Header.layout.decode (slice plain 0 mainHeaderSize) = .ok h.main
  sections : ∀ i : Fin 4, readSectionHeader h.version (plain.drop mainHeaderSize) i
    (h.main.entries.get i) = .ok (h.sections.get i)

section Found

variable (hr : region.Holds media bytes) (hle : headersSize ≤ bytes.length)
  (hkey : keys.headerKey? = some key) (hmain : decryptMainHeader key bytes = .ok (main, version))

include hr hle hkey hmain

/-- **Reading headers is to decrypt them and to decode them one after the other**, if they are there and
their magic is found. -/
theorem readHeaders_eq : readHeaders region media keys = do
    let plain := decryptHeaders key version (bytes.take headersSize)
    let header ← Header.layout.decode (slice plain 0 mainHeaderSize)
    let read := fun i : Fin 4 =>
      readSectionHeader version (plain.drop mainHeaderSize) i (header.entries.get i)
    let s0 ← read 0
    let s1 ← read 1
    let s2 ← read 2
    let s3 ← read 3
    return ⟨header, version, #v[s0, s1, s2, s3]⟩ := by
  have hlen : (bytes.take headersSize).length = headersSize :=
    List.length_take_of_le hle
  have hsize : ¬ region.size < headersSize := by
    rw [hr.size_eq]
    omega
  have hraw : region.readAt media 0 headersSize = .ok (bytes.take headersSize) :=
    hr.readAt_eq (by omega)
  have hmain' : decryptMainHeader key (bytes.take headersSize) = .ok (main, version) := by
    rw [decryptMainHeader_take (by decide), hmain]
  unfold readHeaders
  simp only [hsize, if_false, hkey, hraw, ok_bind, hmain', eq_of_decryptMainHeader hmain',
    slice_decryptHeaders hlen, drop_decryptHeaders hlen]

/-- **Headers are read that the decrypted ones hold.** -/
theorem readHeaders_eq_ok_iff {h : Headers} : readHeaders region media keys = .ok h ↔
    h.version = version ∧ h.HeldIn (decryptHeaders key version (bytes.take headersSize)) := by
  rw [readHeaders_eq hr hle hkey hmain]
  constructor
  · intro hread
    obtain ⟨header, hheader, hread⟩ := bind_eq_ok_iff.mp hread
    obtain ⟨s0, h0, hread⟩ := bind_eq_ok_iff.mp hread
    obtain ⟨s1, h1, hread⟩ := bind_eq_ok_iff.mp hread
    obtain ⟨s2, h2, hread⟩ := bind_eq_ok_iff.mp hread
    obtain ⟨s3, h3, hread⟩ := bind_eq_ok_iff.mp hread
    cases hread
    refine ⟨rfl, hheader, fun i => ?_⟩
    match i with
    | 0 => exact h0
    | 1 => exact h1
    | 2 => exact h2
    | 3 => exact h3
  · rintro ⟨rfl, hheader, hall⟩
    dsimp only
    rw [hheader, ok_bind, hall 0, ok_bind, hall 1, ok_bind, hall 2, ok_bind, hall 3, ok_bind,
      h.vector_sections]
    rfl

/-- The first section header that cannot be decoded is what is reported. -/
theorem readHeaders_eq_error {header : Header} {i : Fin 4} {e : Error}
    (hheader : Header.layout.decode
      (slice (decryptHeaders key version (bytes.take headersSize)) 0 mainHeaderSize) = .ok header)
    (hfront : ∀ j < i, ∃ header?, readSectionHeader version
      ((decryptHeaders key version (bytes.take headersSize)).drop mainHeaderSize) j
        (header.entries.get j) = .ok header?)
    (hi : readSectionHeader version
      ((decryptHeaders key version (bytes.take headersSize)).drop mainHeaderSize) i
        (header.entries.get i) = .error e) :
    readHeaders region media keys = .error e := by
  rw [readHeaders_eq hr hle hkey hmain]
  dsimp only
  rw [hheader, ok_bind]
  match i with
  | 0 =>
    rw [hi]
    rfl
  | 1 =>
    obtain ⟨s0, h0⟩ := hfront 0 (by decide)
    rw [h0, ok_bind, hi]
    rfl
  | 2 =>
    obtain ⟨s0, h0⟩ := hfront 0 (by decide)
    obtain ⟨s1, h1⟩ := hfront 1 (by decide)
    rw [h0, ok_bind, h1, ok_bind, hi]
    rfl
  | 3 =>
    obtain ⟨s0, h0⟩ := hfront 0 (by decide)
    obtain ⟨s1, h1⟩ := hfront 1 (by decide)
    obtain ⟨s2, h2⟩ := hfront 2 (by decide)
    rw [h0, ok_bind, h1, ok_bind, h2, ok_bind, hi]
    rfl

end Found

/-- **Reading encrypted headers is decoding the plain ones**, whatever follows them. -/
theorem readHeaders_encryptHeaders {h : Headers} (hlen : plain.length = headersSize)
    (hmagic : slice plain magicOffset 4 = h.version.magic) (hkey : keys.headerKey? = some key)
    (hr : region.Holds media (encryptHeaders key h.version plain ++ body))
    (hdecode : Header.layout.decode (plain.take mainHeaderSize) = .ok h.main)
    (hheader : ∀ i : Fin 4, readSectionHeader h.version (plain.drop mainHeaderSize) i
      (h.main.entries.get i) = .ok (h.sections.get i)) :
    readHeaders region media keys = .ok h := by
  have hencrypted : (encryptHeaders key h.version plain).length = headersSize :=
    length_encryptHeaders hlen
  have hle : headersSize ≤ (encryptHeaders key h.version plain ++ body).length := by
    rw [List.length_append, hencrypted]
    omega
  have htake : (encryptHeaders key h.version plain ++ body).take headersSize
      = encryptHeaders key h.version plain := List.take_left' hencrypted
  have hmain := @decryptMainHeader_encryptHeaders key h.version plain hlen hmagic
  rw [← htake, decryptMainHeader_take (by decide)] at hmain
  rw [readHeaders_eq_ok_iff hr hle hkey hmain, htake, decryptHeaders_encryptHeaders hlen]
  exact ⟨rfl, hdecode, hheader⟩

/-! ## Headers as bytes -/

/-- A place for a section header; one that is not used is all zeros. -/
def encodeSectionHeader : Option SectionHeader → List UInt8
  | none => List.replicate sectionHeaderSize 0
  | some h => SectionHeader.layout.encode h
      ++ List.replicate (sectionHeaderSize - SectionHeader.layout.size) 0

/-- The headers of an archive as plain bytes. -/
def Headers.encode (h : Headers) : List UInt8 :=
  (Header.layout.encode h.main ++ List.replicate (mainHeaderSize - Header.layout.size) 0)
    ++ h.sections.toList.flatMap encodeSectionHeader

theorem length_encodeSectionHeader (h? : Option SectionHeader) :
    (encodeSectionHeader h?).length = sectionHeaderSize := by
  cases h? with
  | none => exact List.length_replicate
  | some h =>
    unfold encodeSectionHeader
    rw [List.length_append, Layout.length_encode, List.length_replicate]
    rfl

theorem length_encode_main (main : Header) :
    (Header.layout.encode main ++ List.replicate (mainHeaderSize - Header.layout.size) 0).length
      = mainHeaderSize := by
  rw [List.length_append, Layout.length_encode, List.length_replicate]
  rfl

theorem Headers.length_encode (h : Headers) : h.encode.length = headersSize := by
  unfold Headers.encode
  rw [List.length_append, length_encode_main, length_flatMap length_encodeSectionHeader,
    Vector.length_toList]
  rfl

/-- The place of the magic. -/
theorem Headers.slice_encode_magic (h : Headers) :
    slice h.encode magicOffset 4 = h.main.magic.toList := by
  obtain ⟨rest, hrest⟩ : ∃ rest, Header.layout.encode h.main = h.main.signature.toList
      ++ (h.main.programSignature.toList ++ (h.main.magic.toList ++ rest)) := ⟨_, rfl⟩
  unfold Headers.encode
  rw [hrest]
  simp only [List.append_assoc]
  refine (slice_append_right h.main.signature.length_toList _ 0x100 _).trans ?_
  refine (slice_append_right h.main.programSignature.length_toList _ 0 _).trans ?_
  exact slice_append_left h.main.magic.length_toList _

/-- The place of each section header. -/
theorem Headers.slice_encode (h : Headers) (i : Fin 4) :
    slice (h.encode.drop mainHeaderSize) (i * sectionHeaderSize) sectionHeaderSize
      = encodeSectionHeader (h.sections.get i) := by
  have hi : i.val < h.sections.toList.length := by
    rw [Vector.length_toList]
    exact i.isLt
  unfold Headers.encode
  rw [List.drop_left' (length_encode_main h.main),
    slice_flatMap length_encodeSectionHeader _ hi]
  rfl

theorem readSectionHeader_encode {rest : List UInt8} {index : Nat} {entry : SectionEntry}
    {header? : Option SectionHeader} (hv : version ≠ .nca0)
    (hpopulated : header?.isSome = entry.isPopulated)
    (hrest : slice rest (index * sectionHeaderSize) sectionHeaderSize
      = encodeSectionHeader header?) :
    readSectionHeader version rest index entry = .ok header? := by
  unfold readSectionHeader
  cases header? with
  | none =>
    have hentry : entry.isPopulated = false := hpopulated.symm
    rw [hentry, if_pos (show version = .nca0 ∨ (!false) = true from Or.inr rfl)]
    rfl
  | some header =>
    have hentry : entry.isPopulated = true := hpopulated.symm
    have hdecode : SectionHeader.layout.decode (slice rest (index * sectionHeaderSize)
        sectionHeaderSize) = .ok header := by
      rw [hrest]
      exact Layout.decode_encode _ header _
    unfold slice at hdecode
    rw [hentry, if_neg (by simp [hv])]
    simp only [hdecode, ok_bind]
    rfl

/-- **An archive's headers are read back**, whatever follows them, if there is a section header for
each section of the main header. -/
theorem readHeaders_encode {h : Headers} (hv : h.version ≠ .nca0)
    (hpopulated : ∀ i, (h.sections.get i).isSome = (h.main.entries.get i).isPopulated)
    (hmagic : h.main.magic.toList = h.version.magic) (hkey : keys.headerKey? = some key)
    (hr : region.Holds media (encryptHeaders key h.version h.encode ++ body)) :
    readHeaders region media keys = .ok h := by
  have hdecode : Header.layout.decode (h.encode.take mainHeaderSize) = .ok h.main := by
    unfold Headers.encode
    rw [List.take_left' (length_encode_main h.main)]
    exact Layout.decode_encode _ h.main _
  refine readHeaders_encryptHeaders h.length_encode ?_ hkey hr hdecode fun i => ?_
  · rw [h.slice_encode_magic, hmagic]
  · exact readSectionHeader_encode hv (hpopulated i) (h.slice_encode i)

end Cartridge.Nca
