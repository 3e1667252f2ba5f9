import Cartridge.Container
import Cartridge.Proofs.Nca.Readable
import Cartridge.Proofs.Xci.KeyArea

/-!
# What is detected and what is valid

A container is opened as what its beginning shows. For partition filesystems, directory tree images and
card images that is all that its validity asks for, so what is opened is valid. A content archive is
detected by the magic of its main header alone, but valid only if all of its headers can be read, so an
archive that is cut off behind its main header, or that has a byte whose meaning is not known, is opened
and is not valid.

Results:
* `Format.shows_of_detectBytes`: what a format is detected by.
* `Container.isValid_of_openDetected`: what is opened is valid, content archives exactly if their
  headers can be read.
* `Container.Stub.opened_and_not_valid`: an archive that is opened and is not valid.
-/

namespace Cartridge

variable {media : Media} {keys : KeyStore} {region : Region} {view : View} {head bytes : List UInt8}

/-! ## What is detected -/

namespace Format

/-- What the first bytes of a container of a format show, where these are enough to tell it. -/
def Shows (keys : KeyStore) (head : List UInt8) : Format → Prop
  | pfs0 => head.take 4 = Partition.Flavor.plain.magic.toList
  | hfs0 => head.take 4 = Partition.Flavor.hashed.magic.toList
  | romFs => (Endian.word64 (head.take 8)).toNat = RomFs.Header.size ∧ RomFs.Header.size ≤ head.length
  | xci => (head.drop Xci.magicOffset).take 4 = Xci.magic
  | nca => isArchive head keys = true

theorem shows_of_detectBytes {format : Format} (h : detectBytes head keys = some format) :
    format.Shows keys head := by
  unfold detectBytes at h
  split at h
  · cases h
    assumption
  split at h
  · cases h
    assumption
  split at h
  · cases h
    assumption
  split at h
  · cases h
    assumption
  split at h
  · cases h
    assumption
  · cases h

/-- A region without faults is told by its first bytes, or by the header behind a key area. -/
theorem result_detect (hr : region.Holds media bytes) :
    (detect region media keys).result = .ok ((detectBytes (bytes.take headSize) keys).or
      (if (Xci.headerOffset? region media).isSome then some .xci else none)) := by
  have hhead : region.readAt media 0 (min region.size headSize) = .ok (bytes.take headSize) := by
    rw [hr.size_eq, hr.readAt_eq (by omega), slice, List.drop_zero, Nat.min_comm, ← List.take_eq_take_min]
  unfold detect
  rw [hhead]
  simp only [Traced.result_bind, Traced.result_emit, ok_bind, Traced.result_pure]

end Format

/-! ## What is valid -/

/-- Bytes that are there can be read. -/
theorem Region.Holds.readAt_of_take (hr : region.Holds media bytes) {offset : Nat} {part : List UInt8}
    (hpart : part ≠ []) (h : (bytes.drop offset).take part.length = part) :
    region.readAt media offset part.length = .ok part := by
  have hpos := List.length_pos_iff.mpr hpart
  have hlen := congrArg List.length h
  rw [List.length_take, List.length_drop] at hlen
  rw [hr.readAt_eq (by omega)]
  exact congrArg Except.ok h

theorem Partition.Archive.isValid_of_take {F : Partition.Flavor} (hr : view.region.Holds media bytes)
    (h : bytes.take 4 = F.magic.toList) : (ofView view : Archive F).isValid media = true := by
  have hlen : F.magic.toList.length = 4 := F.magic.length_toList
  have hread : view.region.readAt media 0 F.magic.toList.length = .ok F.magic.toList :=
    hr.readAt_of_take (List.ne_nil_of_length_pos (by omega)) (by rwa [List.drop_zero, hlen])
  rw [hlen] at hread
  unfold isValid ofView magicOf
  dsimp only
  rw [hread]
  exact beq_self_eq_true _

theorem RomFs.Image.isValid_of_take (hr : view.region.Holds media bytes)
    (h : (Endian.word64 (bytes.take 8)).toNat = RomFs.Header.size)
    (hle : RomFs.Header.size ≤ bytes.length) : (ofView view).isValid media = true := by
  have hsize : view.size = bytes.length := hr.size_eq
  have hread : view.region.readAt media 0 8 = .ok (bytes.take 8) := by
    rw [hr.readAt_eq (by unfold RomFs.Header.size at hle; omega)]
    rfl
  unfold isValid ofView
  dsimp only
  rw [hread, hsize]
  simp [h, hle]

theorem Xci.Image.isValid_of_take (hr : view.region.Holds media bytes)
    (h : (bytes.drop magicOffset).take 4 = Xci.magic) : (ofView view).isValid media = true := by
  have hread : view.region.readAt media magicOffset Xci.magic.length = .ok Xci.magic :=
    hr.readAt_of_take (by decide) h
  rw [show Xci.magic.length = 4 from rfl] at hread
  have hmagic : hasMagicAt view.region media 0 = true := by
    unfold hasMagicAt
    rw [Nat.zero_add, hread]
    rfl
  unfold isValid headerOffset? ofView
  rw [if_pos hmagic]
  rfl

/-- An archive is detected by the magic of its main header. -/
theorem Nca.exists_of_isArchive {n : Nat} (hn : Nca.mainHeaderSize ≤ n)
    (h : Format.isArchive (bytes.take n) keys = true) :
    ∃ key main version, keys.headerKey? = some key ∧
      Nca.decryptMainHeader key bytes = .ok (main, version) := by
  unfold Format.isArchive at h
  split at h
  · cases h
  · rename_i key hkey
    rw [Bool.and_eq_true] at h
    obtain ⟨-, h⟩ := h
    rw [Nca.decryptMainHeader_take hn] at h
    cases hmain : Nca.decryptMainHeader key bytes with
    | error e =>
      rw [hmain] at h
      cases h
    | ok p => exact ⟨key, p.1, p.2, hkey, hmain⟩

namespace Container

/-- A container is opened as its beginning shows, or as a card image with a key area. -/
theorem format_of_openDetected {c : Container} (hr : view.region.Holds media bytes)
    (h : (openDetected view media keys).result = .ok c) :
    ∃ format, c = ofView format view ∧ (format.Shows keys (bytes.take Format.headSize) ∨
      format = .xci ∧ (Xci.headerOffset? view.region media).isSome = true) := by
  unfold openDetected at h
  rw [Traced.result_bind, Format.result_detect hr, ok_bind] at h
  split at h
  · rename_i format hfound
    refine ⟨format, (Except.ok.inj h).symm, ?_⟩
    obtain hhead | ⟨-, hbehind⟩ := Option.or_eq_some_iff.mp hfound
    · exact .inl (Format.shows_of_detectBytes hhead)
    · split at hbehind
      · cases hbehind
        exact .inr ⟨rfl, by assumption⟩
      · cases hbehind
  · cases h

/-- Whether a container that is no content archive is valid. -/
def looksRight (media : Media) : Container → Bool
  | pfs0 a => a.isValid media
  | hfs0 a => a.isValid media
  | romFs i => i.isValid media
  | xci i => i.isValid media
  | nca _ => false

theorem outcome_isValid {c : Container} (h : c.format ≠ .nca) :
    (isValid media keys).outcome c = (.ok (c.looksRight media), c) := by
  cases c with
  | nca a => exact absurd rfl h
  | pfs0 a | hfs0 a | romFs i | xci i => rfl

theorem outcome_isValid_nca {a a' : Nca.Archive} {valid : Bool}
    (h : (Nca.Archive.isValid media keys).outcome a = (.ok valid, a')) :
    (isValid media keys).outcome (nca a) = (.ok valid, nca a') := by
  have hanswer := congrArg Prod.fst h
  have hstate := congrArg Prod.snd h
  exact Prod.ext hanswer (congrArg nca hstate)

/-- What is opened is valid if it is no content archive. -/
theorem looksRight_of_shows {format : Format} (hr : view.region.Holds media bytes)
    (hformat : format ≠ .nca) (h : format.Shows keys (bytes.take Format.headSize)) :
    (ofView format view).looksRight media = true := by
  have htake {n : Nat} (hn : n ≤ Format.headSize) : (bytes.take Format.headSize).take n = bytes.take n := by
    rw [List.take_take, Nat.min_eq_left hn]
  cases format with
  | nca => exact absurd rfl hformat
  | pfs0 | hfs0 =>
    refine Partition.Archive.isValid_of_take hr ?_
    rw [← htake (by decide)]
    exact h
  | romFs =>
    obtain ⟨hsize, hle⟩ := h
    rw [htake (by decide)] at hsize
    rw [List.length_take] at hle
    exact RomFs.Image.isValid_of_take hr hsize (by omega)
  | xci =>
    refine Xci.Image.isValid_of_take hr ?_
    have hdrop : ((bytes.take Format.headSize).drop Xci.magicOffset).take 4
        = (bytes.drop Xci.magicOffset).take 4 := by
      rw [List.drop_take, List.take_take]
      rfl
    rw [← hdrop]
    exact h

/-- **What is opened is valid**, and a content archive exactly if all of its headers can be read. Its
magic is there in any case. -/
theorem isValid_of_openDetected {c : Container} (hr : view.region.Holds media bytes)
    (hopen : (openDetected view media keys).result = .ok c) :
    ∃ valid c', (isValid media keys).outcome c = (.ok valid, c') ∧
      (c.format ≠ .nca → valid = true) ∧
      (c.format = .nca → ∃ key main version, keys.headerKey? = some key ∧
        Nca.decryptMainHeader key bytes = .ok (main, version) ∧
          (valid = true ↔ Nca.Readable key version bytes)) := by
  obtain ⟨format, rfl, hshows⟩ := format_of_openDetected hr hopen
  have hformat : (ofView format view).format = format := by cases format <;> rfl
  rw [hformat]
  by_cases hnca : format = .nca
  · subst hnca
    obtain hshows | ⟨hxci, -⟩ := hshows
    · obtain ⟨key, main, version, hkey, hmain⟩ := Nca.exists_of_isArchive (by decide) hshows
      obtain ⟨valid, a', houtcome, hvalid⟩ := Nca.Archive.outcome_isValid_ofView media keys view
      rw [Nca.exists_readHeaders_iff hr hkey hmain] at hvalid
      exact ⟨valid, nca a', outcome_isValid_nca houtcome, fun h => absurd rfl h,
        fun _ => ⟨key, main, version, hkey, hmain, hvalid⟩⟩
    · cases hxci
  · refine ⟨true, ofView format view, ?_, fun _ => rfl, fun h => absurd h hnca⟩
    rw [outcome_isValid (by rwa [hformat])]
    obtain hshows | ⟨rfl, hmagic⟩ := hshows
    · rw [looksRight_of_shows hr hnca hshows]
    · exact congrArg (fun valid => (Except.ok valid, ofView .xci view)) hmagic

end Container

end Cartridge

/-! ## A main header, with and without what belongs behind it -/

namespace Cartridge.Container.Stub

open Nca (mainHeaderSize headersSize)

def key : Bytes 32 := Bytes.zero 32

/-- The second sector of the main header in plain: the magic, and zeros. -/
def plainSector : List UInt8 := Nca.Version.nca3.magic ++ List.replicate 0x1FC 0

/-- A main header. Its first sector, which holds nothing but signatures, is all zeros when encrypted. -/
def header : List UInt8 :=
  List.replicate 0x200 0 ++ (XtsLayer.cipher key).encryptSector 1 plainSector

/-- A main header with zeros behind it. -/
def bytes (rest : Nat) : List UInt8 := header ++ List.replicate rest 0

def media (rest : Nat) : Media := ⟨[.memory (bytes rest)]⟩

def view (rest : Nat) : View := .ofRegion (.medium 0 (mainHeaderSize + rest))

theorem length_plainSector : plainSector.length = 0x200 := by
  rw [plainSector, List.length_append, List.length_replicate]
  rfl

theorem length_header : header.length = mainHeaderSize := by
  rw [header, List.length_append, List.length_replicate, Xts.length_encryptSector, length_plainSector]
  rfl

theorem length_bytes (rest : Nat) : (bytes rest).length = mainHeaderSize + rest := by
  rw [bytes, List.length_append, length_header, List.length_replicate]

theorem holds_view {rest : Nat} (h : mainHeaderSize + rest < UInt64.size) :
    (view rest).region.Holds (media rest) (bytes rest) :=
  Region.holds_memory (length_bytes rest) h

/-- The first sector shows nothing. -/
theorem take_drop_header {offset n : Nat} (h : offset + n ≤ 0x200) :
    (header.drop offset).take n = List.replicate n 0 := by
  rw [header, List.drop_append_of_le_length (by rw [List.length_replicate]; omega),
    List.drop_replicate, List.take_append_of_le_length (by rw [List.length_replicate]; omega),
    List.take_replicate, Nat.min_eq_left (by omega)]

theorem take_header {n : Nat} (h : n ≤ 0x200) : header.take n = List.replicate n 0 := by
  have hdrop := take_drop_header (show 0 + n ≤ 0x200 by omega)
  rwa [List.drop_zero] at hdrop

theorem slice_header :
    slice header sectorSize sectorSize = (XtsLayer.cipher key).encryptSector 1 plainSector := by
  have hlen : ((XtsLayer.cipher key).encryptSector 1 plainSector).length = sectorSize :=
    (Xts.length_encryptSector 1 plainSector).trans length_plainSector
  have hbehind := slice_append_right (List.length_replicate (n := sectorSize) (a := (0 : UInt8)))
    ((XtsLayer.cipher key).encryptSector 1 plainSector) 0 sectorSize
  rw [Nat.add_zero, slice, slice, List.drop_zero, List.take_of_length_le (Nat.le_of_eq hlen)] at hbehind
  exact hbehind

/-- The second sector decrypts to its plain form. -/
theorem slice_decryptArea : slice ((XtsLayer.cipher key).decryptArea sectorSize 0 header)
    sectorSize sectorSize = plainSector := by
  have hle : 1 * sectorSize ≤ header.length := by
    rw [length_header]
    decide
  have hlen : ((XtsLayer.cipher key).encryptSector 1 plainSector).length ≤ sectorSize :=
    Nat.le_of_eq ((Xts.length_encryptSector 1 plainSector).trans length_plainSector)
  have hslice : slice (Xts.mapArea (XtsLayer.cipher key).decryptSector sectorSize 0 header)
      (1 * sectorSize) sectorSize = _ :=
    Xts.slice_mapArea (m := 1) (by decide) Xts.length_decryptSector 0 hle (.inl (Nat.one_mul _).symm)
  rw [Nat.one_mul, slice_header, Xts.mapArea_of_length_le (by decide) Xts.length_decryptSector _ hlen,
    Nat.zero_add, Xts.decryptSector_encryptSector] at hslice
  exact hslice

theorem take_bytes (rest : Nat) : (bytes rest).take mainHeaderSize = header :=
  List.take_left' length_header

theorem decryptMainHeader_header : Nca.decryptMainHeader key header
    = .ok ((XtsLayer.cipher key).decryptArea sectorSize 0 header, .nca3) := by
  have htake : header.take mainHeaderSize = header :=
    List.take_of_length_le (Nat.le_of_eq length_header)
  have hmagic : (((XtsLayer.cipher key).decryptArea sectorSize 0 header).drop Nca.magicOffset).take 4
      = Nca.Version.nca3.magic := by
    have hslice := congrArg (List.take 4) slice_decryptArea
    rwa [slice, List.take_take] at hslice
  rw [← htake] at hmagic
  have hmain := Nca.decryptMainHeader_of_magic hmagic
  rwa [htake] at hmain

theorem detectBytes_header : Format.detectBytes header Nca.Specimen.keys = some .nca := by
  have harchive : Format.isArchive header Nca.Specimen.keys = true := by
    have hkey : Nca.Specimen.keys.headerKey? = some key := rfl
    unfold Format.isArchive
    rw [hkey]
    dsimp only
    rw [decryptMainHeader_header, length_header]
    rfl
  unfold Format.detectBytes
  rw [take_header (by decide), take_header (by decide), take_drop_header (by decide),
    if_neg (by decide), if_neg (by decide), if_neg (by decide), if_neg (by decide), if_pos harchive]

theorem openDetected_view {rest : Nat} (h : mainHeaderSize + rest < UInt64.size) :
    (openDetected (view rest) (media rest) Nca.Specimen.keys).result
      = .ok (.nca (.ofView (view rest))) := by
  unfold openDetected
  rw [Traced.result_bind, Format.result_detect (holds_view h), ok_bind,
    show Format.headSize = mainHeaderSize from rfl, take_bytes, detectBytes_header]
  rfl

theorem decryptMainHeader_bytes (rest : Nat) : Nca.decryptMainHeader key (bytes rest)
    = .ok ((XtsLayer.cipher key).decryptArea sectorSize 0 header, .nca3) := by
  rw [← Nca.decryptMainHeader_take (Nat.le_refl _), take_bytes, decryptMainHeader_header]

/-- **Cut off behind its main header, the archive is opened and is not valid.** -/
theorem opened_and_not_valid :
    (view 0).region.Holds (media 0) (bytes 0) ∧
      (openDetected (view 0) (media 0) Nca.Specimen.keys).result = .ok (.nca (.ofView (view 0))) ∧
        ∃ c', (isValid (media 0) Nca.Specimen.keys).outcome (.nca (.ofView (view 0)))
          = (.ok false, c') := by
  have haddress : mainHeaderSize + 0 < UInt64.size := by decide
  have hr := holds_view haddress
  refine ⟨hr, openDetected_view haddress, ?_⟩
  obtain ⟨valid, a', houtcome, hvalid⟩ :=
    Nca.Archive.outcome_isValid_ofView (media 0) Nca.Specimen.keys (view 0)
  rw [Nca.exists_readHeaders_iff hr rfl (decryptMainHeader_bytes 0)] at hvalid
  have hfalse : valid = false := by
    rw [← Bool.not_eq_true, hvalid]
    intro hreadable
    have hle := hreadable.length_le
    rw [length_bytes] at hle
    exact absurd hle (by decide)
  subst hfalse
  exact ⟨.nca a', outcome_isValid_nca houtcome⟩

/-- The headers of the archive with zeros where its section headers belong. -/
def plain : List UInt8 := Nca.decryptHeaders key .nca3 ((bytes 0x800).take headersSize)

theorem slice_plain : slice plain sectorSize sectorSize = plainSector := by
  have hlen : ((bytes 0x800).take headersSize).length = headersSize := by
    rw [List.length_take, length_bytes]
    decide
  have hmain : slice plain 0 mainHeaderSize = _ := Nca.slice_decryptHeaders hlen
  rw [List.take_take, Nat.min_eq_left (by decide), take_bytes] at hmain
  have hslice := slice_decryptArea
  rw [← hmain, slice_slice (by decide), Nat.zero_add] at hslice
  exact hslice

/-- Behind the magic there are zeros. -/
theorem slice_plain_zeros {offset n : Nat} (hmagic : 0x204 ≤ offset) (hend : offset + n ≤ 0x400) :
    slice plain offset n = List.replicate n 0 := by
  obtain ⟨start, rfl⟩ := Nat.exists_eq_add_of_le hmagic
  have hplace : 0x204 + start = sectorSize + (4 + start) := by
    unfold sectorSize
    omega
  have hlen : Nca.Version.nca3.magic.length = 4 := rfl
  have hinside : 4 + start + n ≤ sectorSize := by
    unfold sectorSize
    omega
  rw [hplace, ← slice_slice hinside, slice_plain, plainSector, slice_append_right hlen, slice,
    List.drop_replicate, List.take_replicate, Nat.min_eq_left (by omega)]

theorem getElem?_plain {i : Nat} (hmagic : 0x204 ≤ i) (hend : i < 0x400) : plain[i]? = some 0 := by
  have hget : (slice plain i 1)[0]? = plain[i + 0]? := getElem?_slice (by decide)
  rw [slice_plain_zeros hmagic hend] at hget
  exact hget.symm

theorem knownMain_plain : Nca.KnownMain plain where
  distribution := ⟨.download, getElem?_plain (by decide) (by decide)⟩
  contentType := ⟨.program, getElem?_plain (by decide) (by decide)⟩

theorem not_populatedAt_plain (i : Fin 4) : ¬ Nca.PopulatedAt plain i := by
  have hi := i.isLt
  unfold Nca.PopulatedAt
  rw [slice_plain_zeros (by omega) (by omega), slice_plain_zeros (by omega) (by omega)]
  exact UInt32.lt_irrefl _

/-- Zeros are known, and name no section. -/
theorem readable : Nca.Readable key .nca3 (bytes 0x800) where
  length_le := by
    rw [length_bytes]
    decide
  main := knownMain_plain
  sections _ i hi := absurd hi (not_populatedAt_plain i)

/-- With zeros behind its main header, the archive is opened and valid. -/
theorem opened_and_valid :
    (view 0x800).region.Holds (media 0x800) (bytes 0x800) ∧
      (openDetected (view 0x800) (media 0x800) Nca.Specimen.keys).result
        = .ok (.nca (.ofView (view 0x800))) ∧
        ∃ c', (isValid (media 0x800) Nca.Specimen.keys).outcome (.nca (.ofView (view 0x800)))
          = (.ok true, c') := by
  have haddress : mainHeaderSize + 0x800 < UInt64.size := by decide
  have hr := holds_view haddress
  have hopen := openDetected_view haddress
  refine ⟨hr, hopen, ?_⟩
  obtain ⟨valid, c', houtcome, -, hvalid⟩ := isValid_of_openDetected hr hopen
  obtain ⟨key', main, version, hkey, hmain, hiff⟩ := hvalid rfl
  have hspecimen : Nca.Specimen.keys.headerKey? = some key := rfl
  obtain rfl := Option.some.inj (hspecimen.symm.trans hkey)
  obtain ⟨-, rfl⟩ := Prod.mk.inj (Except.ok.inj ((decryptMainHeader_bytes 0x800).symm.trans hmain))
  rw [hiff.mpr readable] at houtcome
  exact ⟨c', houtcome⟩

end Cartridge.Container.Stub
