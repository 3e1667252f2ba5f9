import Cartridge.Proofs.Nca.Placement
import Cartridge.Proofs.Nca.Readable

/-!
# Archives with another encryption in a section header

One byte of a section header stands for the encryption of the section. When it is replaced, and the
headers are encrypted again, the other headers are read as before. With a byte that stands for an
encryption that section header is too, but for the encryption; with any other byte nothing is read.

Results:
* `heldIn_of_readHeaders`: headers that are read are held by the decrypted ones.
* `readHeaders_replaceEncryption`: headers are read with the other encryption.
* `readHeaders_replaceEncryption_unknown`: or not at all, if the byte stands for none.
-/

namespace Cartridge.Nca

variable {media : Media} {keys : KeyStore} {region : Region} {key : Bytes 32} {version : Version}
  {plain raw image : List UInt8} {h : Headers} {header : SectionHeader} {i : Fin 4} {b : UInt8}

/-! ## Headers -/

/-- A section header with another encryption. -/
def SectionHeader.withEncryption (e : EncryptionType) (header : SectionHeader) : SectionHeader :=
  { header with encryption := e }

theorem SectionHeader.encode_withEncryption (e : EncryptionType) (header : SectionHeader) :
    layout.encode (header.withEncryption e) = (layout.encode header).set 4 e.toByte := rfl

/-- Headers with another encryption in one of the section headers. -/
def Headers.withEncryption (h : Headers) (i : Fin 4) (e : EncryptionType) : Headers :=
  { h with sections := h.sections.set i ((h.sections.get i).map (SectionHeader.withEncryption e)) }

theorem Headers.get_withEncryption_self (h : Headers) (i : Fin 4) (e : EncryptionType) :
    (h.withEncryption i e).sections.get i
      = (h.sections.get i).map (SectionHeader.withEncryption e) :=
  Vector.getElem_set_self i.isLt

theorem Headers.get_withEncryption_of_ne {j : Fin 4} (hij : j ≠ i) (e : EncryptionType) :
    (h.withEncryption i e).sections.get j = h.sections.get j :=
  Vector.getElem_set_ne i.isLt j.isLt fun heq => hij (Fin.ext heq.symm)

/-! ## Bytes of headers -/

/-- The place of the byte for the encryption of a section. -/
def encryptionPlace (i : Nat) : Nat := mainHeaderSize + i * sectionHeaderSize + 4

theorem mainHeaderSize_le_encryptionPlace (i : Nat) : mainHeaderSize ≤ encryptionPlace i := by
  unfold encryptionPlace
  omega

/-- The byte for the encryption is not in the header of another section. -/
theorem slice_set_encryptionPlace {j : Fin 4} (hij : j ≠ i) (plain : List UInt8) (b : UInt8) :
    slice (plain.set (encryptionPlace i) b) (mainHeaderSize + j * sectionHeaderSize) sectionHeaderSize
      = slice plain (mainHeaderSize + j * sectionHeaderSize) sectionHeaderSize := by
  unfold encryptionPlace sectionHeaderSize
  rcases Nat.lt_or_gt_of_ne (Fin.val_ne_of_ne hij) with hlt | hlt
  · exact slice_set_of_le (by omega) b
  · exact slice_set_of_lt (by omega) b

theorem readSectionHeader_congr {plain' : List UInt8} {index : Nat} (entry : SectionEntry)
    (hslice : slice plain' (mainHeaderSize + index * sectionHeaderSize) sectionHeaderSize
      = slice plain (mainHeaderSize + index * sectionHeaderSize) sectionHeaderSize) :
    readSectionHeader version (plain'.drop mainHeaderSize) index entry
      = readSectionHeader version (plain.drop mainHeaderSize) index entry := by
  rw [← slice_drop, ← slice_drop, slice, slice] at hslice
  unfold readSectionHeader
  rw [hslice]

/-- What is read of a section header that there is. -/
theorem readSectionHeader_of_isPopulated {index : Nat} {entry : SectionEntry}
    (hv : version ≠ .nca0) (hentry : entry.isPopulated = true) :
    readSectionHeader version (plain.drop mainHeaderSize) index entry
      = (SectionHeader.layout.decode
          (slice plain (mainHeaderSize + index * sectionHeaderSize) sectionHeaderSize)).map some := by
  rw [← slice_drop, slice]
  unfold readSectionHeader
  rw [if_neg (by simp [hv, hentry])]
  dsimp only
  cases SectionHeader.layout.decode
    (((plain.drop mainHeaderSize).drop (index * sectionHeaderSize)).take sectionHeaderSize) <;> rfl

namespace SectionHeader

/-- A section header is decoded with the encryption that its byte stands for. -/
theorem decode_set (h : layout.decode raw = .ok header) (e : EncryptionType) :
    layout.decode (raw.set 4 e.toByte) = .ok (header.withEncryption e) := by
  obtain ⟨hle, heq⟩ := slice?_eq_some_iff.mp ((Layout.decodeAt_eq_ok_iff _).mp h)
  refine (Layout.decodeAt_eq_ok_iff _).mpr (slice?_eq_some_iff.mpr ⟨?_, ?_⟩)
  · rwa [List.length_set]
  · rw [encode_withEncryption, heq, List.drop_zero, List.drop_zero, List.take_set]

/-- A section header is not decoded if its byte stands for no encryption. -/
theorem decode_set_unknown (h : layout.decode raw = .ok header)
    (hb : ∀ e : EncryptionType, e.toByte ≠ b) :
    layout.decode (raw.set 4 b) = .error (.invalidData (.unknownVariant 4)) := by
  have hlen : 4 < raw.length := by
    obtain ⟨hle, -⟩ := slice?_eq_some_iff.mp ((Layout.decodeAt_eq_ok_iff _).mp h)
    rw [size_layout] at hle
    omega
  have hkeep {α : Type} {field : Layout α} {position : Nat} {a : α}
      (hfield : field.decodeAt (.ofBytes raw) position = .ok a) (hle : position + field.size ≤ 4) :
      field.decodeAt (.ofBytes (raw.set 4 b)) position = .ok a := by
    obtain ⟨hroom, heq⟩ := slice?_eq_some_iff.mp ((Layout.decodeAt_eq_ok_iff _).mp hfield)
    refine (Layout.decodeAt_eq_ok_iff _).mpr (slice?_eq_some_iff.mpr ⟨?_, ?_⟩)
    · rwa [List.length_set]
    · exact heq.trans (slice_set_of_le hle b).symm
  have hencryption : EncryptionType.layout.decodeAt (.ofBytes (raw.set 4 b)) 4
      = .error (.invalidData (.unknownVariant 4)) :=
    Layout.decodeAt_ofValues_eq_error (List.getElem?_set_self hlen) hb
  have hfields := Layout.decodeAt_record_eq_ok_iff.mp h
  simp only [Layout.decodeAt_seq_eq_ok_iff] at hfields
  obtain ⟨hversion, hfilesystem, hhash, -⟩ := hfields
  refine bind_eq_error_iff.mpr (.inl ?_)
  -- the three fields in front of the byte are decoded as before
  refine Layout.decodeAt_seq_eq_error_iff.mpr (.inr ⟨_, hkeep hversion (by decide), ?_⟩)
  refine Layout.decodeAt_seq_eq_error_iff.mpr (.inr ⟨_, hkeep hfilesystem (by decide), ?_⟩)
  refine Layout.decodeAt_seq_eq_error_iff.mpr (.inr ⟨_, hkeep hhash (by decide), ?_⟩)
  exact Layout.decodeAt_seq_eq_error_iff.mpr (.inl hencryption)

end SectionHeader

theorem isPopulated_of_mem_populated (hi : i ∈ h.populated) :
    (h.main.entries.get i).isPopulated = true :=
  (List.mem_filter.mp hi).2

theorem slice_set_main (plain : List UInt8) (i : Nat) (b : UInt8) :
    slice (plain.set (encryptionPlace i) b) 0 mainHeaderSize = slice plain 0 mainHeaderSize :=
  slice_set_of_le (by simpa using mainHeaderSize_le_encryptionPlace i) b

namespace Headers.HeldIn

variable (hheld : h.HeldIn plain)

include hheld

/-- The header of a section that there is. -/
theorem exists_decode (hv : h.version ≠ .nca0) (hi : i ∈ h.populated) :
    ∃ header, h.sections.get i = some header ∧ SectionHeader.layout.decode
      (slice plain (mainHeaderSize + i * sectionHeaderSize) sectionHeaderSize) = .ok header := by
  have hread := hheld.sections i
  rw [readSectionHeader_of_isPopulated hv (isPopulated_of_mem_populated hi)] at hread
  cases hdecode : SectionHeader.layout.decode
    (slice plain (mainHeaderSize + i * sectionHeaderSize) sectionHeaderSize) with
  | error e =>
    rw [hdecode] at hread
    cases hread
  | ok header =>
    rw [hdecode] at hread
    exact ⟨header, (Except.ok.inj hread).symm, rfl⟩

/-- The other section headers are read as before. -/
theorem readSectionHeader_of_ne {j : Fin 4} (hij : j ≠ i) (b : UInt8) :
    readSectionHeader h.version ((plain.set (encryptionPlace i) b).drop mainHeaderSize) j
      (h.main.entries.get j) = .ok (h.sections.get j) := by
  rw [readSectionHeader_congr _ (slice_set_encryptionPlace hij plain b)]
  exact hheld.sections j

/-- The headers with the other encryption are held after the replacement. -/
theorem withEncryption (hv : h.version ≠ .nca0) (hi : i ∈ h.populated) (e : EncryptionType) :
    (h.withEncryption i e).HeldIn (plain.set (encryptionPlace i) e.toByte) := by
  obtain ⟨header, hheader, hdecode⟩ := hheld.exists_decode hv hi
  refine ⟨?_, fun j => ?_⟩
  · rw [slice_set_main]
    exact hheld.main
  · by_cases hij : j = i
    · subst hij
      rw [h.get_withEncryption_self, hheader]
      show readSectionHeader h.version _ _ (h.main.entries.get j) = _
      rw [readSectionHeader_of_isPopulated hv (isPopulated_of_mem_populated hi), encryptionPlace,
        slice_set, SectionHeader.decode_set hdecode]
      rfl
    · rw [get_withEncryption_of_ne hij]
      exact hheld.readSectionHeader_of_ne hij e.toByte

/-- After the replacement by a byte that stands for no encryption the section header is not read. -/
theorem readSectionHeader_unknown (hv : h.version ≠ .nca0) (hi : i ∈ h.populated)
    (hb : ∀ e : EncryptionType, e.toByte ≠ b) :
    readSectionHeader h.version ((plain.set (encryptionPlace i) b).drop mainHeaderSize) i
      (h.main.entries.get i) = .error (.invalidData (.unknownVariant 4)) := by
  obtain ⟨header, -, hdecode⟩ := hheld.exists_decode hv hi
  rw [readSectionHeader_of_isPopulated hv (isPopulated_of_mem_populated hi), encryptionPlace,
    slice_set, SectionHeader.decode_set_unknown hdecode hb]
  rfl

end Headers.HeldIn

/-! ## Archives -/

theorem exists_decryptMainHeader (hr : region.Holds media image) (hkey : keys.headerKey? = some key)
    (hread : readHeaders region media keys = .ok h) : headersSize ≤ image.length ∧
      ∃ main version, decryptMainHeader key image = .ok (main, version) := by
  unfold readHeaders at hread
  obtain ⟨hsize, hread⟩ := check_eq_ok_iff.mp hread
  rw [hr.size_eq, Nat.not_lt] at hsize
  rw [hkey] at hread
  obtain ⟨raw, hraw, hread⟩ := bind_eq_ok_iff.mp hread
  obtain ⟨⟨main, version⟩, hmain, -⟩ := bind_eq_ok_iff.mp hread
  rw [hr.readAt_eq (by omega)] at hraw
  cases hraw
  refine ⟨hsize, main, version, ?_⟩
  rw [← decryptMainHeader_take (show mainHeaderSize ≤ headersSize by decide)]
  exact hmain

/-- Headers that are read are held by the decrypted ones, which have the magic of the version. -/
theorem heldIn_of_readHeaders (hr : region.Holds media image) (hkey : keys.headerKey? = some key)
    (hread : readHeaders region media keys = .ok h) :
    headersSize ≤ image.length ∧
      slice (decryptHeaders key h.version (image.take headersSize)) magicOffset 4
        = h.version.magic ∧
      h.HeldIn (decryptHeaders key h.version (image.take headersSize)) := by
  obtain ⟨hle, main, version, hmain⟩ := exists_decryptMainHeader hr hkey hread
  have hlen : (image.take headersSize).length = headersSize :=
    List.length_take_of_le hle
  obtain ⟨rfl, hheld⟩ := (readHeaders_eq_ok_iff hr hle hkey hmain).mp hread
  refine ⟨hle, ?_, hheld⟩
  have hinside : magicOffset + 4 ≤ mainHeaderSize := by decide
  rw [← decryptMainHeader_take (show mainHeaderSize ≤ headersSize by decide)] at hmain
  have hmagic := magic_of_decryptMainHeader hmain
  rw [eq_of_decryptMainHeader hmain, ← slice_decryptHeaders hlen, slice_slice hinside,
    Nat.zero_add] at hmagic
  exact hmagic

/-- An archive in which another byte stands for the encryption of a section: the headers are decrypted,
and encrypted again with that byte in them. -/
def replaceEncryption (key : Bytes 32) (version : Version) (i : Nat) (b : UInt8)
    (image : List UInt8) : List UInt8 :=
  encryptHeaders key version
      ((decryptHeaders key version (image.take headersSize)).set (encryptionPlace i) b)
    ++ image.drop headersSize

section Replaced

variable (hle : headersSize ≤ image.length)

include hle

theorem length_plain_replaceEncryption (key : Bytes 32) (version : Version) (i : Nat) (b : UInt8) :
    ((decryptHeaders key version (image.take headersSize)).set (encryptionPlace i) b).length
      = headersSize := by
  have hlen : (image.take headersSize).length = headersSize :=
    List.length_take_of_le hle
  rw [List.length_set, length_decryptHeaders hlen]

theorem length_replaceEncryption (i : Nat) (b : UInt8) :
    (replaceEncryption key version i b image).length = image.length := by
  rw [replaceEncryption, List.length_append,
    length_encryptHeaders (length_plain_replaceEncryption hle key version i b), List.length_drop]
  omega

/-- Nothing behind the headers is replaced. -/
theorem slice_replaceEncryption (i : Nat) (b : UInt8) {offset : Nat} (ho : headersSize ≤ offset)
    (len : Nat) : slice (replaceEncryption key version i b image) offset len = slice image offset len := by
  obtain ⟨n, rfl⟩ := Nat.exists_eq_add_of_le ho
  rw [replaceEncryption, slice_append_right
    (length_encryptHeaders (length_plain_replaceEncryption hle key version i b)), slice_drop]

/-- What is decrypted after the replacement. -/
theorem decrypt_replaceEncryption (i : Nat) (b : UInt8)
    (hmagic : slice (decryptHeaders key version (image.take headersSize)) magicOffset 4
      = version.magic) :
    headersSize ≤ (replaceEncryption key version i b image).length ∧
      (∃ main, decryptMainHeader key (replaceEncryption key version i b image)
        = .ok (main, version)) ∧
      decryptHeaders key version ((replaceEncryption key version i b image).take headersSize)
        = (decryptHeaders key version (image.take headersSize)).set (encryptionPlace i) b := by
  have hlen := length_plain_replaceEncryption hle key version i b
  have htake : (replaceEncryption key version i b image).take headersSize
      = encryptHeaders key version
        ((decryptHeaders key version (image.take headersSize)).set (encryptionPlace i) b) :=
    List.take_left' (length_encryptHeaders hlen)
  have hinside : magicOffset + 4 ≤ encryptionPlace i :=
    Nat.le_trans (by decide) (mainHeaderSize_le_encryptionPlace i)
  have hmain := @decryptMainHeader_encryptHeaders key version _ hlen
    ((slice_set_of_le hinside b).trans hmagic)
  rw [← htake, decryptMainHeader_take (by decide)] at hmain
  rw [htake, decryptHeaders_encryptHeaders hlen, length_replaceEncryption hle]
  exact ⟨hle, ⟨_, hmain⟩, rfl⟩

end Replaced

section Reading

variable (hr : region.Holds media image) (hkey : keys.headerKey? = some key)
  (hread : readHeaders region media keys = .ok h) (hv : h.version ≠ .nca0) (hi : i ∈ h.populated)
  {media' : Media} {region' : Region}

include hr hkey hread hv hi

/-- **Headers are read with the other encryption.** -/
theorem readHeaders_replaceEncryption {e : EncryptionType}
    (hr' : region'.Holds media' (replaceEncryption key h.version i e.toByte image)) :
    readHeaders region' media' keys = .ok (h.withEncryption i e) := by
  obtain ⟨hle, hmagic, hheld⟩ := heldIn_of_readHeaders hr hkey hread
  obtain ⟨hle', ⟨main, hmain⟩, hplain⟩ := decrypt_replaceEncryption hle i e.toByte hmagic
  rw [readHeaders_eq_ok_iff hr' hle' hkey hmain, hplain]
  exact ⟨rfl, hheld.withEncryption hv hi e⟩

/-- **No headers are read** if the byte stands for no encryption. -/
theorem readHeaders_replaceEncryption_unknown (hb : ∀ e : EncryptionType, e.toByte ≠ b)
    (hr' : region'.Holds media' (replaceEncryption key h.version i b image)) :
    readHeaders region' media' keys = .error (.invalidData (.unknownVariant 4)) := by
  obtain ⟨hle, hmagic, hheld⟩ := heldIn_of_readHeaders hr hkey hread
  obtain ⟨hle', ⟨main, hmain⟩, hplain⟩ := decrypt_replaceEncryption hle i b hmagic
  have hheader := hheld.main
  rw [← slice_set_main _ i b] at hheader
  have hfailed := hheld.readSectionHeader_unknown hv hi hb
  rw [← hplain] at hheader hfailed
  refine readHeaders_eq_error hr' hle' hkey hmain hheader (fun j hj => ?_) hfailed
  rw [hplain]
  exact ⟨_, hheld.readSectionHeader_of_ne (Fin.ne_of_lt hj) b⟩

end Reading

end Cartridge.Nca
