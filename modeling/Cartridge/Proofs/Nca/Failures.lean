import Cartridge.Proofs.Detecting
import Cartridge.Proofs.Keys.Resolution
import Cartridge.Proofs.Nca.Alone
import Cartridge.Proofs.Nca.Placement
import Cartridge.Proofs.Nca.Progress

/-!
# Why sections do not open

A section that has been described has a view under any key: describing it has checked that it lies in
the archive and that its filesystem lies in it. So there are two reasons only for which it does not open.
A key is missing that its protection needs, or what is decrypted does not begin as the declared
filesystem does. Of an archive that does not open, the first section that does not is the one to blame.

Results:
* `supplied_or_lacking`: the key of a section, or what is lacking.
* `Descriptor.Fits.exists_sectionView`: opening the view of a section does not fail.
* `openAlone_isOk_iff`, `openAlone_eq_error_iff`: when a section opens, and why it does not.
* `mapM_openAlone_eq_error_iff`: which of several sections is to blame.
* `Archive.Reaches.parse_failures`: when the sections of an archive open, and why they do not.
-/

namespace Cartridge

/-- A key that is neither registered nor derived is missed by its name. -/
theorem KeyStore.result_registeredOr {keys : KeyStore} {name : String} {derived : Option Block}
    {message : String} (h : ¬ ∃ key, (keys.registeredOr name derived message).result = .ok key) :
    (keys.registeredOr name derived message).result = .error (.missingAreaKey name) := by
  have hresolves : keys.Resolves name (derived = some ·)
      (keys.registeredOr name derived message).result :=
    resolves_registeredOr (fun _ => Iff.rfl) message
  cases hresult : (keys.registeredOr name derived message).result with
  | ok key => exact absurd ⟨key, hresult⟩ h
  | error e => rw [((hresolves.error_iff e).mp hresult).1]

namespace Nca

variable {main : Header} {keys : KeyStore} {p : Protection} {key : SectionKey} {d : Descriptor}
  {archive : View} {media : Media} {image : List UInt8} {archiveSize : Nat} {e : Error}

/-! ## The keys that a section needs -/

/-- The key that a store has for sections of a protection: none for plain ones, else what the key for
key areas or the key for title keys decrypts. -/
inductive Supplied (main : Header) (keys : KeyStore) : Protection → SectionKey → Prop where
  | plain : Supplied main keys .plain .plain
  | xts {kek : Block}
    (hkek : (keys.areaKey (.ofByte main.areaKeyIndex) main.keyGeneration).result = .ok kek) :
    Supplied main keys .xts
      (.xts (((Aes.cipher kek).decrypt main.keyArea.data).append
        ((Aes.cipher kek).decrypt main.keyArea.tweak)))
  | counter {kek : Block}
    (hkek : (keys.areaKey (.ofByte main.areaKeyIndex) main.keyGeneration).result = .ok kek) :
    Supplied main keys .counter (.counter ((Aes.cipher kek).decrypt main.keyArea.counter))
  | titleCounter {wrapped kek : Block} (htitle : keys.titleKey? main.rightsId = some wrapped)
    (hkek : (keys.titleKek main.keyGeneration).result = .ok kek) :
    Supplied main keys .titleCounter (.counter ((Aes.cipher kek).decrypt wrapped))

/-- What a store lacks for sections of a protection. The title key is looked for before the key that
decrypts it. -/
inductive Lacking (main : Header) (keys : KeyStore) : Protection → Error → Prop where
  | areaKey {p : Protection} (hp : p = .xts ∨ p = .counter)
    (hkek : ¬ ∃ kek,
      (keys.areaKey (.ofByte main.areaKeyIndex) main.keyGeneration).result = .ok kek) :
    Lacking main keys p
      (.missingAreaKey (KeyStore.areaKeyName (.ofByte main.areaKeyIndex) main.keyGeneration))
  | titleKey (htitle : keys.titleKey? main.rightsId = none) :
    Lacking main keys .titleCounter (.missingTitleKey main.rightsId)
  | titleKek {wrapped : Block} (htitle : keys.titleKey? main.rightsId = some wrapped)
    (hkek : ¬ ∃ kek, (keys.titleKek main.keyGeneration).result = .ok kek) :
    Lacking main keys .titleCounter (.missingAreaKey (KeyStore.titleKekName main.keyGeneration))

theorem Supplied.keyOf_eq (h : Supplied main keys p key) : keyOf main keys p = .ok key := by
  cases h with
  | plain => rfl
  | xts hkek | counter hkek => exact bind_eq_ok_iff.mpr ⟨_, hkek, rfl⟩
  | titleCounter htitle hkek =>
    unfold keyOf
    rw [htitle]
    exact bind_eq_ok_iff.mpr ⟨_, hkek, rfl⟩

theorem Lacking.keyOf_eq (h : Lacking main keys p e) : keyOf main keys p = .error e := by
  cases h with
  | areaKey hp hkek =>
    have hmissing := KeyStore.result_registeredOr hkek
    obtain rfl | rfl := hp
    · exact bind_eq_error_iff.mpr (.inl hmissing)
    · exact bind_eq_error_iff.mpr (.inl hmissing)
  | titleKey htitle =>
    unfold keyOf
    rw [htitle]
  | titleKek htitle hkek =>
    unfold keyOf
    rw [htitle]
    exact bind_eq_error_iff.mpr (.inl (KeyStore.result_registeredOr hkek))

/-- A section whose encryption can be read has a key, or something is lacking. -/
theorem supplied_or_lacking (main : Header) (keys : KeyStore) (hp : p.isSupported = true) :
    (∃ key, Supplied main keys p key) ∨ ∃ e, Lacking main keys p e := by
  cases p with
  | plain => exact .inl ⟨_, .plain⟩
  | xts =>
    by_cases hkek : ∃ kek,
        (keys.areaKey (.ofByte main.areaKeyIndex) main.keyGeneration).result = .ok kek
    · obtain ⟨kek, hkek⟩ := hkek
      exact .inl ⟨_, .xts hkek⟩
    · exact .inr ⟨_, .areaKey (.inl rfl) hkek⟩
  | counter =>
    by_cases hkek : ∃ kek,
        (keys.areaKey (.ofByte main.areaKeyIndex) main.keyGeneration).result = .ok kek
    · obtain ⟨kek, hkek⟩ := hkek
      exact .inl ⟨_, .counter hkek⟩
    · exact .inr ⟨_, .areaKey (.inr rfl) hkek⟩
  | titleCounter =>
    cases htitle : keys.titleKey? main.rightsId with
    | none => exact .inr ⟨_, .titleKey htitle⟩
    | some wrapped =>
      by_cases hkek : ∃ kek, (keys.titleKek main.keyGeneration).result = .ok kek
      · obtain ⟨kek, hkek⟩ := hkek
        exact .inl ⟨_, .titleCounter htitle hkek⟩
      · exact .inr ⟨_, .titleKek htitle hkek⟩
  | unsupported encryption => cases hp

/-! ## Sections -/

/-- The filesystem of a section, decrypted. -/
def Descriptor.contents (d : Descriptor) (image : List UInt8) (key : SectionKey) : List UInt8 :=
  slice (decryptSection d (slice image d.start d.size) key) d.dataOffset d.dataSize

/-- What a section needs to open: its key, under which the filesystem begins as the declared one does. -/
def Descriptor.Opens (main : Header) (keys : KeyStore) (image : List UInt8) (d : Descriptor) : Prop :=
  ∃ key, Supplied main keys d.protection key ∧ d.kind.format.Shows keys (d.contents image key)

/-- Why a section does not open: its key is not to be had, or under its key it does not begin as the
declared filesystem does. -/
inductive Descriptor.Fault (main : Header) (keys : KeyStore) (image : List UInt8) (d : Descriptor) :
    Error → Prop where
  | key {e : Error} (h : Lacking main keys d.protection e) : Fault main keys image d e
  | contents {key : SectionKey} (hkey : Supplied main keys d.protection key)
    (h : ¬ d.kind.format.Shows keys (d.contents image key)) :
    Fault main keys image d (.unrecognizedInnerFormat d.index)

/-- The filesystem of a section lies in the archive. -/
theorem Descriptor.Fits.data_le_archive (hd : d.Fits archiveSize) :
    d.start + d.dataOffset + d.dataSize ≤ archiveSize := by
  obtain ⟨entry, hentry, hstart, hstop⟩ := hd.blocks
  have hlt : d.start < d.stop := by
    rw [hstart, hstop]
    exact startOffset_lt_endOffset hentry
  have hdata := hd.data_le
  have hin := hd.stop_le
  unfold Descriptor.size at hdata
  omega

/-- **Opening the view of a section does not fail**, whatever the key. -/
theorem Descriptor.Fits.exists_sectionView (hd : d.Fits archive.size) (key : SectionKey) :
    ∃ view, sectionView archive d key = .ok view := by
  have hregion : d.start + d.dataOffset + d.dataSize ≤ archive.region.size := hd.data_le_archive
  cases key with
  | plain => exact ⟨_, View.subview_eq_ok_iff.mpr ⟨hregion, rfl⟩⟩
  | counter key =>
    exact ⟨_, bind_eq_ok_iff.mpr ⟨_, Region.decryptCounter_eq_ok_iff.mpr ⟨hregion, rfl⟩, rfl⟩⟩
  | xts key =>
    have hsection : d.start + d.size ≤ archive.region.size := by
      have hdata := hd.data_le
      have hin : d.stop ≤ archive.region.size := hd.stop_le
      unfold Descriptor.size at hdata ⊢
      omega
    exact ⟨_, bind_eq_ok_iff.mpr
      ⟨_, Region.decryptXts_eq_ok_iff.mpr ⟨hsection, hd.data_le, rfl⟩, rfl⟩⟩

/-- A view in which something else was detected is not taken for the declared filesystem. -/
theorem result_recognize_of_ne {view : View} {detected : Option Format}
    (h : detected ≠ some d.kind.format) :
    (recognize d view detected).result = .error (.unrecognizedInnerFormat d.index) := by
  cases hresult : (recognize d view detected).result with
  | ok filesystem => exact absurd (detected_of_recognize hresult) h
  | error e =>
    unfold recognize at hresult
    extract_lets found at hresult
    clear_value found
    cases found with
    | none =>
      cases hresult
      rfl
    | some filesystem =>
      dsimp only at hresult
      split at hresult
      · cases hresult
        rfl
      · cases hresult

theorem SectionKind.beginning?_format (kind : SectionKind) : kind.format.beginning? ≠ none := by
  cases kind <;> decide

section Alone

variable (hd : d.Fits archive.size) (himage : archive.region.Holds media image)

include hd himage

/-- With its key a section is as good as what is detected in it. -/
theorem openAlone_of_supplied (hkey : Supplied main keys d.protection key) :
    ∃ view found, openAlone archive media keys main d =
        (recognize d view found).result.map (fun filesystem => ⟨d, view, filesystem⟩) ∧
      (found = some d.kind.format ↔ d.kind.format.Shows keys (d.contents image key)) := by
  obtain ⟨view, hview⟩ := hd.exists_sectionView key
  have hholds : view.region.Holds media (d.contents image key) :=
    holds_decryptSection hd himage hview
  obtain ⟨found, hfound⟩ : ∃ found, (Format.detect view.region media keys).result = .ok found :=
    ⟨_, Format.result_detect hholds⟩
  refine ⟨view, found, ?_, ?_⟩
  · unfold openAlone
    rw [hkey.keyOf_eq, ok_bind, hview, ok_bind, hfound, ok_bind]
    cases (recognize d view found).result <;> rfl
  · rw [← Format.result_detect_eq_some_iff hholds d.kind.beginning?_format, hfound, Except.ok.injEq]

theorem Descriptor.Opens.exists_openAlone (h : d.Opens main keys image) :
    ∃ s, openAlone archive media keys main d = .ok s := by
  obtain ⟨key, hkey, hshows⟩ := h
  obtain ⟨view, found, halone, hfound⟩ := openAlone_of_supplied hd himage hkey
  obtain ⟨filesystem, hfilesystem, -⟩ := result_recognize d view
  rw [hfound.mpr hshows, hfilesystem] at halone
  exact ⟨_, halone⟩

theorem Descriptor.Fault.openAlone_eq (h : d.Fault main keys image e) :
    openAlone archive media keys main d = .error e := by
  cases h with
  | key hlacking => exact bind_eq_error_iff.mpr (.inl hlacking.keyOf_eq)
  | contents hkey hother =>
    obtain ⟨view, found, halone, hfound⟩ := openAlone_of_supplied hd himage hkey
    rw [result_recognize_of_ne (hother ∘ hfound.mp)] at halone
    exact halone

end Alone

/-- A section whose encryption can be read opens, or something is wrong with it. -/
theorem Descriptor.opens_or_fault (main : Header) (keys : KeyStore) (image : List UInt8)
    (hs : d.isSupported = true) : d.Opens main keys image ∨ ∃ e, d.Fault main keys image e := by
  obtain ⟨key, hkey⟩ | ⟨e, hlacking⟩ := supplied_or_lacking main keys hs
  · by_cases hshows : d.kind.format.Shows keys (d.contents image key)
    · exact .inl ⟨key, hkey, hshows⟩
    · exact .inr ⟨_, .contents hkey hshows⟩
  · exact .inr ⟨e, .key hlacking⟩

section Alone

variable (hd : d.Fits archive.size) (himage : archive.region.Holds media image)
  (hs : d.isSupported = true)

include hd himage hs

/-- **When a section opens.** -/
theorem openAlone_isOk_iff :
    (∃ s, openAlone archive media keys main d = .ok s) ↔ d.Opens main keys image := by
  refine ⟨?_, fun h => h.exists_openAlone hd himage⟩
  rintro ⟨s, hopen⟩
  obtain h | ⟨e, hfault⟩ := d.opens_or_fault main keys image hs
  · exact h
  · rw [hfault.openAlone_eq hd himage] at hopen
    cases hopen

/-- **Why a section does not open.** -/
theorem openAlone_eq_error_iff :
    openAlone archive media keys main d = .error e ↔ d.Fault main keys image e := by
  refine ⟨fun hfail => ?_, fun h => h.openAlone_eq hd himage⟩
  obtain h | ⟨e', hfault⟩ := d.opens_or_fault main keys image hs
  · obtain ⟨s, hopen⟩ := h.exists_openAlone hd himage
    rw [hopen] at hfail
    cases hfail
  · rw [hfault.openAlone_eq hd himage] at hfail
    cases hfail
    exact hfault

end Alone

/-! ## Lists of sections -/

section Lists

variable {ds : List Descriptor} (hfits : ∀ d ∈ ds, d.Fits archive.size)
  (himage : archive.region.Holds media image)

include hfits himage

/-- Sections open if each does whose encryption can be read. -/
theorem mapM_openAlone_isOk_iff :
    (∃ ss, (ds.filter Descriptor.isSupported).mapM (openAlone archive media keys main) = .ok ss) ↔
      ∀ d ∈ ds.filter Descriptor.isSupported, d.Opens main keys image := by
  refine mapM_isOk_iff.trans (forall₂_congr fun d hd => ?_)
  obtain ⟨hmem, hs⟩ := List.mem_filter.mp hd
  exact openAlone_isOk_iff (hfits d hmem) himage hs

/-- If not, the first of them that does not open is to blame. -/
theorem mapM_openAlone_eq_error_iff :
    (ds.filter Descriptor.isSupported).mapM (openAlone archive media keys main) = .error e ↔
      ∃ front d back, ds.filter Descriptor.isSupported = front ++ d :: back ∧
        (∀ d' ∈ front, d'.Opens main keys image) ∧ d.Fault main keys image e := by
  rw [mapM_eq_error_iff]
  refine exists₃_congr fun front d back => and_congr_right fun hds => ?_
  have hall (d' : Descriptor) (hd' : d' ∈ front ++ d :: back) :
      d'.Fits archive.size ∧ d'.isSupported = true := by
    rw [← hds] at hd'
    obtain ⟨hmem, hs⟩ := List.mem_filter.mp hd'
    exact ⟨hfits d' hmem, hs⟩
  refine and_congr (forall₂_congr fun d' hd' => ?_) ?_
  · obtain ⟨hd, hs⟩ := hall d' (List.mem_append_left _ hd')
    exact openAlone_isOk_iff hd himage hs
  · obtain ⟨hd, hs⟩ := hall d List.mem_append_cons_self
    exact openAlone_eq_error_iff hd himage hs

end Lists

/-! ## Archives -/

namespace Archive

variable {a : Archive}

/-- Parsing an archive whose sections are described is to open each of them alone that can be read. An
archive that does not open stays as it was. -/
theorem outcome_parse_sectionsResolved (archive : View) (h : Headers) (ds : List Descriptor)
    (media : Media) (keys : KeyStore) :
    (parse media keys).outcome ⟨archive, .sectionsResolved h ds⟩ =
      match (ds.filter Descriptor.isSupported).mapM (openAlone archive media keys h.main) with
      | .ok sections => (.ok (), ⟨archive, .parsed h sections⟩)
      | .error e => (.error e, ⟨archive, .sectionsResolved h ds⟩) := by
  obtain ⟨ring, hopen⟩ := outcome_openSections_empty archive media keys h.main ds
  have hstep := advance_sectionsResolved (congrArg Prod.fst hopen)
  rw [outcome_parse]
  cases hrun : (ds.filter Descriptor.isSupported).mapM (openAlone archive media keys h.main) with
  | ok sections =>
    rw [hrun] at hstep
    exact climb_of_advance hstep 0
  | error e =>
    rw [hrun] at hstep
    exact climb_of_advance_error hstep 0

/-- **When the sections of an archive open, and why they do not.** An archive whose sections have been
described, whatever happened to it before, is parsed with the keys of the moment while its view holds an
image.

* Every section's filesystem lies in the archive, and opening its view does not fail, whatever the key.
* All sections open if each does whose encryption can be read.
* Otherwise the first of these that does not open is to blame, for the reason for which it does not, and
  the archive stays as it was. -/
theorem Reaches.parse_failures {archive : View} (ha : Reaches (ofView archive) a)
    (hstate : a.state = .sectionsResolved) (himage : archive.region.Holds media image)
    (keys : KeyStore) :
    ∃ h ds, a.stage = .sectionsResolved h ds ∧
      (∀ d ∈ ds, d.start + d.dataOffset + d.dataSize ≤ archive.size ∧ archive.size < UInt64.size ∧
        ∀ key, ∃ view, sectionView archive d key = .ok view) ∧
      ((∃ b, (parse media keys).outcome a = (.ok (), b)) ↔
        ∀ d ∈ ds.filter Descriptor.isSupported, d.Opens h.main keys image) ∧
      (∀ e b, (parse media keys).outcome a = (.error e, b) ↔ b = a ∧ ∃ front d back,
        ds.filter Descriptor.isSupported = front ++ d :: back ∧
          (∀ d' ∈ front, d'.Opens h.main keys image) ∧ d.Fault h.main keys image e) := by
  obtain ⟨view, stage⟩ := a
  obtain ⟨hcons, hkeeps⟩ := keeps_of_reaches ha trivial
  obtain rfl : view = archive := hkeeps.view_eq
  cases stage with
  | unparsed | headerDecrypted h | parsed h sections => cases hstate
  | sectionsResolved h ds =>
    have hfits := (Headers.describe_ok hcons).2
    have haddress : view.size < UInt64.size := by
      rw [View.size, himage.size_eq]
      exact himage.addressable
    refine ⟨h, ds, rfl, fun d hd => ⟨(hfits d hd).data_le_archive, haddress,
      (hfits d hd).exists_sectionView⟩, ?_, fun e b => ?_⟩
    · rw [← mapM_openAlone_isOk_iff hfits himage, outcome_parse_sectionsResolved]
      cases (ds.filter Descriptor.isSupported).mapM (openAlone view media keys h.main) with
      | ok sections => exact iff_of_true ⟨_, rfl⟩ ⟨sections, rfl⟩
      | error e =>
        refine iff_of_false ?_ ?_
        · rintro ⟨b, hb⟩
          cases hb
        · rintro ⟨sections, hsections⟩
          cases hsections
    · rw [← mapM_openAlone_eq_error_iff hfits himage, outcome_parse_sectionsResolved]
      cases (ds.filter Descriptor.isSupported).mapM (openAlone view media keys h.main) with
      | ok sections =>
        refine iff_of_false ?_ ?_
        · intro hfail
          cases hfail
        · rintro ⟨-, hfail⟩
          cases hfail
      | error e' => simp only [Prod.mk.injEq, Except.error.injEq, and_comm, eq_comm]

end Archive

end Nca

end Cartridge

/-! ## The specimen, with and without the key of its key area -/

namespace Cartridge.Nca.Specimen

/-- The specimen with its section described. -/
def described : Archive := ⟨view, .sectionsResolved headers [descriptor]⟩

theorem reaches_described : Archive.Reaches (.ofView view) described := by
  have hds : headers.describe view.size = .ok [descriptor] := describe_headers
  have hrun : (Archive.resolveSections media keys).outcome (.ofView view) = (.ok (), described) := by
    rw [Archive.outcome_resolveSections]
    exact (Archive.climb_of_advance (Archive.advance_ofView readHeaders_view) 1).trans
      (Archive.climb_of_advance (Archive.advance_headerDecrypted hds) 0)
  have hstate : ((Archive.Call.run media keys .resolveSections).outcome (.ofView view)).2
      = described := congrArg Prod.snd hrun
  have hstep : Archive.Step media keys (.ofView view)
      ((Archive.Call.run media keys .resolveSections).outcome (.ofView view)).2 :=
    .call .resolveSections _
  rw [hstate] at hstep
  exact .single ⟨media, keys, hstep⟩

theorem contents_descriptor : descriptor.contents image (.counter key) = slice plaintext 0x20 0x1E0 := by
  unfold Descriptor.contents
  rw [slice_image, decryptSection_encryptSection]
  rfl

/-- The section opens with its key, and without it the key is what is missed. -/
theorem parse_failures_described :
    Archive.Reaches (.ofView view) described ∧ described.state = .sectionsResolved ∧
      view.region.Holds media image ∧
      (∃ b, (Archive.parse media keys).outcome described = (.ok (), b)) ∧
      (Archive.parse media .empty).outcome described
        = (.error (.missingAreaKey (KeyStore.areaKeyName .application 0)), described) := by
  refine ⟨reaches_described, rfl, holds_view, ?_, ?_⟩
  · obtain ⟨h, ds, hstage, -, hopens, -⟩ :=
      reaches_described.parse_failures rfl holds_view keys
    cases hstage
    refine hopens.mpr (List.forall_mem_singleton.mpr ⟨.counter key, .counter rfl, ?_⟩)
    rw [contents_descriptor]
    rfl
  · obtain ⟨h, ds, hstage, -, -, hfails⟩ :=
      reaches_described.parse_failures rfl holds_view KeyStore.empty
    cases hstage
    refine (hfails _ _).mpr ⟨rfl, [], descriptor, [], rfl, List.forall_mem_nil _, .key ?_⟩
    exact .areaKey (.inr rfl) (fun ⟨kek, hkek⟩ => nomatch hkek)

end Cartridge.Nca.Specimen
