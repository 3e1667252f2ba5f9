import Cartridge.Proofs.Nca.Rewriting
import Cartridge.Proofs.Validity

/-!
# What is valid and what is detected

A format is detected by the first bytes of a view, in a fixed order, while a container tells whether it
is valid by reads of its own. Three formats are told by the view's very beginning. Their beginnings
differ, so the order in which they are tried does not matter, and each of them is detected exactly where
its container is valid. A card image and a content archive may be taken for one of these three, but
where one of them is valid something is detected.

Results:
* `Format.detectBytes_eq_some_iff`: the formats that are told by the beginning are detected by it.
* `Partition.Archive.isValid_iff`, `RomFs.Image.isValid_iff`: the bytes that make them valid.
* `Container.eq_of_looksRight`: a view is valid as one of them at most.
* `Format.exists_detectBytes_of_shows`: what shows a format is not missed.
* `Format.result_detect_eq_some_iff`: what the beginning shows is detected.
* `Format.detect_exact`: detection against validity, for all formats.
-/

namespace Cartridge

variable {media : Media} {keys : KeyStore} {view : View} {head bytes : List UInt8}

/-! ## Formats that are told by the beginning -/

namespace Format

variable {f g : Format}

/-- The first four bytes of what shows a format by its beginning. -/
def beginning? : Format → Option (List UInt8)
  | pfs0 => some Partition.Flavor.plain.magic.toList
  | hfs0 => some Partition.Flavor.hashed.magic.toList
  | romFs => some (Endian.bytes32 (UInt32.ofNat RomFs.Header.size))
  | nca | xci => none

/-- The four bytes are those of one format only. -/
theorem eq_of_beginning? {start : List UInt8} (hf : f.beginning? = some start)
    (hg : g.beginning? = some start) : f = g := by
  have hstart : f.beginning? = g.beginning? := hf.trans hg.symm
  have hsome : f.beginning? ≠ none := by
    rw [hf]
    exact Option.some_ne_none start
  clear hf hg
  revert hstart hsome
  cases f <;> cases g <;> decide

/-- The size of a tree's header, as it is written. -/
theorem take_of_word64 (h : (Endian.word64 (head.take 8)).toNat = RomFs.Header.size)
    (hlen : 8 ≤ head.length) :
    head.take 4 = Endian.bytes32 (UInt32.ofNat RomFs.Header.size) := by
  have height : (head.take 8).length = 8 := List.length_take_of_le hlen
  have hword : Endian.word64 (head.take 8) = UInt64.ofNat RomFs.Header.size :=
    UInt64.toNat_inj.mp h
  have htake : head.take 8 = Endian.bytes64 (UInt64.ofNat RomFs.Header.size) := by
    rw [← hword, Endian.bytes64_word64 height]
  rw [show head.take 4 = (head.take 8).take 4 by rw [List.take_take]; rfl, htake]
  rfl

theorem take_of_shows {start : List UInt8} (hf : f.beginning? = some start)
    (h : f.Shows keys head) : head.take 4 = start := by
  cases f with
  | pfs0 | hfs0 =>
    cases hf
    exact h
  | romFs =>
    cases hf
    obtain ⟨hsize, hle⟩ := h
    exact take_of_word64 hsize (Nat.le_trans (by decide) hle)
  | nca | xci => cases hf

/-- The first bytes show at most one of the formats that are told by them. -/
theorem eq_of_shows (hf : f.beginning? ≠ none) (hg : g.beginning? ≠ none) (h : f.Shows keys head)
    (h' : g.Shows keys head) : f = g := by
  obtain ⟨start, hstart⟩ := Option.ne_none_iff_exists'.mp hf
  obtain ⟨start', hstart'⟩ := Option.ne_none_iff_exists'.mp hg
  obtain rfl := (take_of_shows hstart h).symm.trans (take_of_shows hstart' h')
  exact eq_of_beginning? hstart hstart'

/-- **What the beginning shows is detected by it**, whatever else the bytes show. -/
theorem detectBytes_eq_some_iff (hf : f.beginning? ≠ none) :
    detectBytes head keys = some f ↔ f.Shows keys head := by
  refine ⟨shows_of_detectBytes, fun h => ?_⟩
  have hsame (g : Format) (hg : g.beginning? ≠ none) (h' : g.Shows keys head) : some g = some f :=
    congrArg some (eq_of_shows hg hf h' h)
  unfold detectBytes
  split
  · exact hsame .pfs0 (by decide) (by assumption)
  split
  · exact hsame .hfs0 (by decide) (by assumption)
  split
  · exact hsame .romFs (by decide) (by assumption)
  · -- None of the three is shown, and `f` is one of them.
    cases f with
    | pfs0 | hfs0 | romFs => contradiction
    | nca | xci => exact absurd rfl hf

/-- What shows a format is not missed. -/
theorem exists_detectBytes_of_shows (h : f.Shows keys head) :
    ∃ g, detectBytes head keys = some g := by
  unfold detectBytes
  split
  · exact ⟨_, rfl⟩
  split
  · exact ⟨_, rfl⟩
  split
  · exact ⟨_, rfl⟩
  split
  · exact ⟨_, rfl⟩
  split
  · exact ⟨_, rfl⟩
  · cases f <;> contradiction

/-- Formats that are told by the beginning are told by as many bytes as are looked at. -/
theorem shows_take_iff (hf : f.beginning? ≠ none) :
    f.Shows keys (bytes.take headSize) ↔ f.Shows keys bytes := by
  have htake {n : Nat} (hn : n ≤ headSize) : (bytes.take headSize).take n = bytes.take n := by
    rw [List.take_take, Nat.min_eq_left hn]
  cases f with
  | pfs0 | hfs0 =>
    dsimp only [Shows]
    rw [htake (by decide)]
  | romFs =>
    have hmin : RomFs.Header.size ≤ min headSize bytes.length ↔ RomFs.Header.size ≤ bytes.length :=
      Nat.le_min.trans (and_iff_right (by decide))
    dsimp only [Shows]
    rw [htake (by decide), List.length_take, hmin]
  | nca | xci => exact absurd rfl hf

end Format

/-! ## The bytes that make a container valid -/

theorem Partition.Archive.isValid_iff {F : Partition.Flavor} (hr : view.region.Holds media bytes) :
    (ofView view : Archive F).isValid media = true ↔ bytes.take 4 = F.magic.toList := by
  refine ⟨fun h => ?_, isValid_of_take hr⟩
  have hmagic : magicOf view.region media = F.magic.toList := eq_of_beq h
  rw [magicOf_eq hr] at hmagic
  split at hmagic
  · exact hmagic
  · exact absurd hmagic F.magic_ne_zero

theorem RomFs.Image.isValid_iff (hr : view.region.Holds media bytes) :
    (ofView view).isValid media = true ↔
      (Endian.word64 (bytes.take 8)).toNat = RomFs.Header.size ∧ RomFs.Header.size ≤ bytes.length := by
  refine ⟨fun h => ?_, fun h => isValid_of_take hr h.1 h.2⟩
  have hsize : view.size = bytes.length := hr.size_eq
  unfold isValid ofView at h
  dsimp only at h
  by_cases hroom : 8 ≤ bytes.length
  · rw [hr.readAt_eq (by omega), slice, List.drop_zero, hsize] at h
    simpa using h
  · rw [hr.readAt_of_lt (by omega)] at h
    cases h

/-- A container whose format is told by the beginning is valid where the beginning shows it. -/
theorem Container.looksRight_iff {f : Format} (hr : view.region.Holds media bytes)
    (hf : f.beginning? ≠ none) (keys : KeyStore) :
    (ofView f view).looksRight media = true ↔ f.Shows keys bytes := by
  cases f with
  | pfs0 | hfs0 => exact Partition.Archive.isValid_iff hr
  | romFs => exact RomFs.Image.isValid_iff hr
  | nca | xci => exact absurd rfl hf

/-- A view is valid as at most one of the formats that are told by the beginning. -/
theorem Container.eq_of_looksRight {f g : Format} (hr : view.region.Holds media bytes)
    (hf : f.beginning? ≠ none) (hg : g.beginning? ≠ none)
    (h : (ofView f view).looksRight media = true) (h' : (ofView g view).looksRight media = true) :
    f = g :=
  Format.eq_of_shows hf hg ((looksRight_iff hr hf KeyStore.empty).mp h)
    ((looksRight_iff hr hg KeyStore.empty).mp h')

/-- The first bytes of a valid content archive show it. -/
theorem Nca.isArchive_of_isValid {a : Nca.Archive} (hr : view.region.Holds media bytes)
    (h : (Nca.Archive.isValid media keys).outcome (.ofView view) = (.ok true, a)) :
    Format.isArchive (bytes.take Format.headSize) keys = true := by
  obtain ⟨valid, a', houtcome, hvalid⟩ := Nca.Archive.outcome_isValid_ofView media keys view
  obtain ⟨hsame, -⟩ := Prod.mk.inj (houtcome.symm.trans h)
  cases hsame
  obtain ⟨headers, hread⟩ := hvalid.mp rfl
  cases hkey : keys.headerKey? with
  | none =>
    unfold readHeaders at hread
    rw [hkey] at hread
    obtain ⟨-, hread⟩ := check_eq_ok_iff.mp hread
    cases hread
  | some key =>
    obtain ⟨hle, main, version, hmain⟩ := exists_decryptMainHeader hr hkey hread
    have hlen : (bytes.take Format.headSize).length = mainHeaderSize :=
      List.length_take_of_le (Nat.le_trans (by decide) hle)
    unfold Format.isArchive
    rw [hkey]
    dsimp only
    rw [hlen, Format.headSize, decryptMainHeader_take (Nat.le_refl _), hmain]
    rfl

/-! ## Detection -/

namespace Format

variable {f : Format} {region : Region}

/-- What is detected behind a key area is a card image. -/
theorem fallback_eq_some_iff :
    (if (Xci.headerOffset? region media).isSome then some xci else none) = some f ↔
      f = xci ∧ (Xci.headerOffset? region media).isSome = true := by
  split
  · rename_i hmagic
    simp only [Option.some.injEq, hmagic, and_true, eq_comm]
  · rename_i hmagic
    simp only [hmagic, and_false, reduceCtorEq]

/-- **A format that is told by the beginning is detected where the bytes show it.** -/
theorem result_detect_eq_some_iff (hr : region.Holds media bytes) (hf : f.beginning? ≠ none) :
    (detect region media keys).result = .ok (some f) ↔ f.Shows keys bytes := by
  rw [result_detect hr, Except.ok.injEq, Option.or_eq_some_iff, fallback_eq_some_iff,
    detectBytes_eq_some_iff hf, shows_take_iff hf]
  refine or_iff_left fun ⟨_, h, _⟩ => ?_
  subst h
  exact hf rfl

/-- **Detection misses nothing.** In a view without faults, of any size and with any keys, a partition
filesystem of either flavor and a directory tree image are detected exactly if they are valid. A card
image that is detected is valid, and where a card image or a content archive is valid something is
detected. -/
theorem detect_exact (hr : view.region.Holds media bytes) (keys : KeyStore) :
    ∃ found, (detect view.region media keys).result = .ok found ∧
      (found = some .pfs0 ↔
        (Partition.Archive.ofView view : Partition.Archive .plain).isValid media = true) ∧
      (found = some .hfs0 ↔
        (Partition.Archive.ofView view : Partition.Archive .hashed).isValid media = true) ∧
      (found = some .romFs ↔ (RomFs.Image.ofView view).isValid media = true) ∧
      (found = some .xci → (Xci.Image.ofView view).isValid media = true) ∧
      ((Xci.Image.ofView view).isValid media = true → found ≠ none) ∧
      ∀ a, (Nca.Archive.isValid media keys).outcome (.ofView view) = (.ok true, a) →
        found ≠ none := by
  have hdetect : (detect view.region media keys).result = _ := result_detect hr
  have htold (f : Format) (hf : f.beginning? ≠ none) :
      (detectBytes (bytes.take headSize) keys).or
          (if (Xci.headerOffset? view.region media).isSome then some .xci else none) = some f ↔
        (Container.ofView f view).looksRight media = true := by
    rw [Container.looksRight_iff hr hf keys, ← result_detect_eq_some_iff hr hf, hdetect,
      Except.ok.injEq]
  refine ⟨_, hdetect, htold .pfs0 (by decide), htold .hfs0 (by decide), htold .romFs (by decide),
    ?_, ?_, ?_⟩
  · intro h
    obtain h | ⟨-, h⟩ := Option.or_eq_some_iff.mp h
    · exact Container.looksRight_of_shows hr (by decide) (shows_of_detectBytes h)
    · exact (fallback_eq_some_iff.mp h).2
  · intro hvalid h
    obtain ⟨-, hnone⟩ := Option.or_eq_none_iff.mp h
    have hmagic : (Xci.headerOffset? view.region media).isSome = true := hvalid
    rw [fallback_eq_some_iff.mpr ⟨rfl, hmagic⟩] at hnone
    cases hnone
  · intro a hvalid h
    obtain ⟨hnone, -⟩ := Option.or_eq_none_iff.mp h
    obtain ⟨g, hg⟩ := exists_detectBytes_of_shows (f := .nca) (Nca.isArchive_of_isValid hr hvalid)
    rw [hg] at hnone
    cases hnone

end Format

end Cartridge

/-! ## A header of a directory tree image, and one byte less -/

namespace Cartridge.Format.Boundary

/-- The size of a tree's header with as many zeros behind it as given. -/
def bytes (rest : Nat) : List UInt8 := Endian.bytes64 0x50 ++ List.replicate rest 0

def media (rest : Nat) : Media := ⟨[.memory (bytes rest)]⟩

def view (rest : Nat) : View := .ofRegion (.medium 0 (8 + rest))

theorem length_bytes (rest : Nat) : (bytes rest).length = 8 + rest := by
  rw [bytes, List.length_append, List.length_replicate]
  rfl

theorem holds_view {rest : Nat} (h : 8 + rest < UInt64.size) :
    (view rest).region.Holds (media rest) (bytes rest) :=
  Region.holds_memory (length_bytes rest) h

theorem isValid_view_iff {rest : Nat} (h : 8 + rest < UInt64.size) :
    (RomFs.Image.ofView (view rest)).isValid (media rest) = true ↔ 0x48 ≤ rest := by
  have hword : (Endian.word64 ((bytes rest).take 8)).toNat = RomFs.Header.size := by
    rw [bytes, List.take_left' (by rfl), Endian.word64_bytes64]
    rfl
  rw [RomFs.Image.isValid_iff (holds_view h), and_iff_right hword, length_bytes, RomFs.Header.size]
  omega

/-- The header is detected as soon as it is complete. -/
theorem detected_when_complete :
    (view 0x48).region.Holds (media 0x48) (bytes 0x48) ∧
      (detect (view 0x48).region (media 0x48) KeyStore.empty).result = .ok (some .romFs) ∧
      (view 0x47).region.Holds (media 0x47) (bytes 0x47) ∧
      (detect (view 0x47).region (media 0x47) KeyStore.empty).result ≠ .ok (some .romFs) := by
  have hall := holds_view (show 8 + 0x48 < UInt64.size by decide)
  have hcut := holds_view (show 8 + 0x47 < UInt64.size by decide)
  obtain ⟨found, hfound, -, -, hromFs, -⟩ := detect_exact hall KeyStore.empty
  obtain ⟨found', hfound', -, -, hromFs', -⟩ := detect_exact hcut KeyStore.empty
  rw [isValid_view_iff (by decide)] at hromFs hromFs'
  refine ⟨hall, ?_, hcut, ?_⟩
  · rw [hfound, hromFs.mpr (by decide)]
  · rw [hfound']
    intro h
    exact absurd (hromFs'.mp (Except.ok.inj h)) (by decide)

end Cartridge.Format.Boundary
