import Cartridge.Proofs.Likeness
import Cartridge.Proofs.Nca.SectionViews

/-!
# Sections that are opened alone

What opening a section gives depends on the main header, the store and the descriptor, and of the archive
on the bytes of the section alone.

Results:
* `exists_sectionView`: whether a section has a view depends on the length of the archive only.
* `exists_openAlone_alike`: a section opens alike in all archives that have its bytes where it is.
-/

namespace Cartridge

/-- Formats are told alike in alike regions. -/
theorem Region.Alike.detect_eq {media media' : Media} {r r' : Region} (h : Alike media media' r r')
    (keys : KeyStore) : Format.detect r' media' keys = Format.detect r media keys := by
  unfold Format.detect Xci.headerOffset? Xci.hasMagicAt
  simp only [h.size_eq, h.readAt_eq]

namespace Nca

variable {archive archive' : View} {media media' : Media} {keys : KeyStore} {main : Header}
  {d : Descriptor} {s : Section} {image image' : List UInt8}

/-- Two sections have one descriptor, one kind of filesystem and the same bytes, each in its media. -/
structure Section.Alike (media media' : Media) (s s' : Section) : Prop where
  descriptor_eq : s'.descriptor = s.descriptor
  kind_eq : s'.filesystem.kind = s.filesystem.kind
  holds : ∃ bytes, s.view.region.Holds media bytes ∧ s'.view.region.Holds media' bytes

/-- A section's view is there as soon as the archive is as long as another one that has it. -/
theorem exists_sectionView {key : SectionKey} {view : View}
    (hsize : archive'.region.size = archive.region.size) (h : sectionView archive d key = .ok view) :
    ∃ view', sectionView archive' d key = .ok view' := by
  cases key with
  | plain =>
    obtain ⟨r, hr, -⟩ := bind_eq_ok_iff.mp h
    obtain ⟨hle, -⟩ := Region.subregion_eq_ok_iff.mp hr
    rw [← hsize] at hle
    exact ⟨_, bind_eq_ok_iff.mpr ⟨_, Region.subregion_eq_ok_iff.mpr ⟨hle, rfl⟩, rfl⟩⟩
  | counter key =>
    obtain ⟨r, hr, -⟩ := bind_eq_ok_iff.mp h
    obtain ⟨hle, -⟩ := Region.decryptCounter_eq_ok_iff.mp hr
    rw [← hsize] at hle
    exact ⟨_, bind_eq_ok_iff.mpr ⟨_, Region.decryptCounter_eq_ok_iff.mpr ⟨hle, rfl⟩, rfl⟩⟩
  | xts key =>
    obtain ⟨r, hr, -⟩ := bind_eq_ok_iff.mp h
    obtain ⟨hle, hdata, -⟩ := Region.decryptXts_eq_ok_iff.mp hr
    rw [← hsize] at hle
    exact ⟨_, bind_eq_ok_iff.mpr ⟨_, Region.decryptXts_eq_ok_iff.mpr ⟨hle, hdata, rfl⟩, rfl⟩⟩

theorem detected_of_recognize {view : View} {detected : Option Format}
    {filesystem : SectionFilesystem} (h : (recognize d view detected).result = .ok filesystem) :
    detected = some d.kind.format := by
  have hkind := kind_of_recognize h
  unfold recognize at h
  split at h
  · dsimp only at h
    split at h
    · cases h
    · cases h
      exact congrArg (some ·.format) hkind
  · dsimp only at h
    split at h
    · cases h
    · cases h
      exact congrArg (some ·.format) hkind
  · cases h

/-- **A section opens alike** in archives of one length that have the same bytes where it is. -/
theorem exists_openAlone_alike {archiveSize : Nat} (hd : d.Fits archiveSize)
    (hb : archive.region.Holds media image) (hb' : archive'.region.Holds media' image')
    (hlen : image'.length = image.length)
    (hslice : slice image' d.start d.size = slice image d.start d.size)
    (h : openAlone archive media keys main d = .ok s) :
    ∃ s', openAlone archive' media' keys main d = .ok s' ∧ s.Alike media media' s' := by
  obtain ⟨key, hkey, h⟩ := bind_eq_ok_iff.mp h
  obtain ⟨view, hview, h⟩ := bind_eq_ok_iff.mp h
  obtain ⟨detected, hdetect, h⟩ := bind_eq_ok_iff.mp h
  obtain ⟨filesystem, hfs, h⟩ := bind_eq_ok_iff.mp h
  cases h
  have hsize : archive'.region.size = archive.region.size := by
    rw [hb.size_eq, hb'.size_eq, hlen]
  obtain ⟨view', hview'⟩ := exists_sectionView hsize hview
  have hholds := holds_decryptSection hd hb hview
  have hholds' := holds_decryptSection hd hb' hview'
  rw [hslice] at hholds'
  obtain ⟨filesystem', hfs', hkind⟩ := result_recognize d view'
  refine ⟨⟨d, view', filesystem'⟩, ?_, rfl, ?_, _, hholds, hholds'⟩
  · refine bind_eq_ok_iff.mpr ⟨key, hkey, bind_eq_ok_iff.mpr ⟨view', hview', ?_⟩⟩
    refine bind_eq_ok_iff.mpr ⟨detected, ?_, ?_⟩
    · rw [(Region.Alike.of_holds hholds hholds').detect_eq, hdetect]
    · rw [detected_of_recognize hfs]
      exact bind_eq_ok_iff.mpr ⟨filesystem', hfs', rfl⟩
  · exact hkind.trans (kind_of_recognize hfs).symm

end Nca

end Cartridge
