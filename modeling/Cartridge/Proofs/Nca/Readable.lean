import Cartridge.Proofs.Nca.PlainHeaders

/-!
# Which archives have headers that can be read

Reading the headers of an archive takes more than to find its magic. All headers have to be there, and
wherever one of their bytes stands for something it has to stand for something known, in the main header
and in the header of every section that it names. Nothing else can go wrong once the magic is found.

Results:
* `exists_readHeaders_iff`: which bytes have headers that can be read.
* `Archive.outcome_isValid_ofView`: these are the bytes that are valid.
-/

namespace Cartridge.Nca

variable {media : Media} {keys : KeyStore} {region : Region} {view : View} {key : Bytes 32}
  {version : Version} {raw bytes main : List UInt8}

/-- All headers are there, and what stands for something in them stands for something known. -/
structure Readable (key : Bytes 32) (version : Version) (bytes : List UInt8) : Prop where
  length_le : headersSize ≤ bytes.length
  main : KnownMain (decryptHeaders key version (bytes.take headersSize))
  sections : version ≠ .nca0 → ∀ i : Fin 4,
    PopulatedAt (decryptHeaders key version (bytes.take headersSize)) i →
      KnownSection (decryptHeaders key version (bytes.take headersSize)) i

/-- A section header can be read if there is none to read, or if it can be decoded. -/
theorem exists_readSectionHeader_iff {plain : List UInt8} {index : Nat} {entry : SectionEntry} :
    (∃ header?, readSectionHeader version (plain.drop mainHeaderSize) index entry = .ok header?) ↔
      (version ≠ .nca0 → entry.isPopulated = true → ∃ header, SectionHeader.layout.decode
        (slice plain (mainHeaderSize + index * sectionHeaderSize) sectionHeaderSize) = .ok header) := by
  unfold readSectionHeader
  rw [← slice_drop, slice]
  by_cases hskip : version = .nca0 ∨ (!entry.isPopulated) = true
  · rw [if_pos hskip]
    refine iff_of_true ⟨none, rfl⟩ fun hversion hentry => ?_
    rw [hentry] at hskip
    simp [hversion] at hskip
  · rw [if_neg hskip]
    rw [not_or, Bool.not_eq_true', Bool.not_eq_false] at hskip
    dsimp only
    cases SectionHeader.layout.decode
      (((plain.drop mainHeaderSize).drop (index * sectionHeaderSize)).take sectionHeaderSize) with
    | error e => simp [hskip.1, hskip.2, bind, Except.bind]
    | ok header => simp [bind, Except.bind, pure, Except.pure]

/-- The section headers of plain headers can be read where they are known. -/
theorem exists_section_iff {plain : List UInt8} (hlen : plain.length = headersSize) {header : Header}
    (hheader : Header.layout.decode (slice plain 0 mainHeaderSize) = .ok header) (i : Fin 4) :
    (∃ header?, readSectionHeader version (plain.drop mainHeaderSize) i (header.entries.get i)
        = .ok header?) ↔
      (version ≠ .nca0 → PopulatedAt plain i → KnownSection plain i) := by
  rw [exists_readSectionHeader_iff, exists_decode_section_iff hlen, isPopulated_iff hheader]

/-- Plain headers can be read one after the other if what stands for something in them is known. -/
theorem exists_decode_headers_iff {plain : List UInt8} (hlen : plain.length = headersSize) :
    (∃ header, Header.layout.decode (slice plain 0 mainHeaderSize) = .ok header ∧
        ∀ i : Fin 4, ∃ header?, readSectionHeader version (plain.drop mainHeaderSize) i
          (header.entries.get i) = .ok header?) ↔
      KnownMain plain ∧
        (version ≠ .nca0 → ∀ i : Fin 4, PopulatedAt plain i → KnownSection plain i) := by
  have hknown := exists_decode_main_iff hlen
  constructor
  · rintro ⟨header, hheader, hall⟩
    exact ⟨hknown.mp ⟨header, hheader⟩,
      fun hversion i => (exists_section_iff hlen hheader i).mp (hall i) hversion⟩
  · rintro ⟨hmain, hsections⟩
    obtain ⟨header, hheader⟩ := hknown.mpr hmain
    exact ⟨header, hheader, fun i =>
      (exists_section_iff hlen hheader i).mpr fun hversion => hsections hversion i⟩

/-- Headers that are there can be read if the decrypted headers can be decoded one after the other. -/
theorem exists_readHeaders_iff_decode (hr : region.Holds media bytes)
    (hle : headersSize ≤ bytes.length) (hkey : keys.headerKey? = some key)
    (hmain : decryptMainHeader key bytes = .ok (main, version)) :
    (∃ h, readHeaders region media keys = .ok h) ↔
      ∃ header, Header.layout.decode
          (slice (decryptHeaders key version (bytes.take headersSize)) 0 mainHeaderSize) = .ok header ∧
        ∀ i : Fin 4, ∃ header?, readSectionHeader version
          ((decryptHeaders key version (bytes.take headersSize)).drop mainHeaderSize) i
            (header.entries.get i) = .ok header? := by
  simp only [readHeaders_eq_ok_iff hr hle hkey hmain]
  constructor
  · rintro ⟨h, rfl, hheader, hall⟩
    exact ⟨h.main, hheader, fun i => ⟨_, hall i⟩⟩
  · rintro ⟨header, hheader, hall⟩
    choose sections hsections using hall
    refine ⟨⟨header, version, .ofFn sections⟩, rfl, hheader, fun i => ?_⟩
    have hget : (Vector.ofFn sections).get i = sections i := Vector.getElem_ofFn i.isLt
    rw [hget]
    exact hsections i

/-- **Which headers can be read**, where the magic is found. -/
theorem exists_readHeaders_iff (hr : region.Holds media bytes) (hkey : keys.headerKey? = some key)
    (hmain : decryptMainHeader key bytes = .ok (main, version)) :
    (∃ h, readHeaders region media keys = .ok h) ↔ Readable key version bytes := by
  by_cases hle : headersSize ≤ bytes.length
  · have hlen : (bytes.take headersSize).length = headersSize :=
    List.length_take_of_le hle
    rw [exists_readHeaders_iff_decode hr hle hkey hmain,
      exists_decode_headers_iff (length_decryptHeaders hlen)]
    exact ⟨fun h => ⟨hle, h.1, h.2⟩, fun h => ⟨h.main, h.sections⟩⟩
  · have hsize : region.size < headersSize := by
      rw [hr.size_eq]
      exact Nat.not_le.mp hle
    have hshort : readHeaders region media keys = .error (.truncated (.archiveHeader region.size)) := by
      unfold readHeaders
      rw [if_pos hsize]
      rfl
    refine iff_of_false ?_ fun hreadable => hle hreadable.length_le
    rintro ⟨h, hh⟩
    rw [hshort] at hh
    cases hh

/-- An archive that has not been read is valid if its headers can be read. -/
theorem Archive.outcome_isValid_ofView (media : Media) (keys : KeyStore) (view : View) :
    ∃ valid a', (isValid media keys).outcome (ofView view) = (.ok valid, a') ∧
      (valid = true ↔ ∃ h, readHeaders view.region media keys = .ok h) := by
  have hvalid : (isValid media keys).outcome (ofView view) =
      (.ok ((headers media keys).outcome (ofView view)).1.toBool,
        ((headers media keys).outcome (ofView view)).2) := rfl
  rw [hvalid]
  refine ⟨_, _, rfl, ?_⟩
  simp only [headers, ofView, Access.outcome_bind, Access.outcome_get, Access.outcome_liftM,
    Traced.result_liftM]
  cases readHeaders view.region media keys with
  | error e => simp [Except.toBool]
  | ok h => exact iff_of_true rfl ⟨h, rfl⟩

end Cartridge.Nca
