import Cartridge.Nca.Archive
import Cartridge.Proofs.Traversals

/-!
# Opening the sections of a content archive

The keys that are decrypted on the way are kept for later sections. This is not to be seen from
outside: a section gets the key that its protection names in the archive's header and the store
(`keyOf`), whichever sections were opened before it.

Results:
* `KeyRing.Agrees.sectionKey`: keeping keys does not change them.
* `outcome_openSections`: opening sections is opening each of them alone that can be read.
* `openSections_ok`: when all sections are opened, there is one for each descriptor whose encryption
  can be read, in the same order, and each is what opening it alone gives (`Opened`).
-/

namespace Cartridge

namespace Nca

/-- Whether the bytes of a section can be read. -/
def Protection.isSupported : Protection → Bool
  | unsupported _ => false
  | _ => true

/-- Whether a section can be opened. -/
def Descriptor.isSupported (d : Descriptor) : Bool := d.protection.isSupported

theorem Protection.eq_unsupported {p : Protection} (h : ¬ p.isSupported = true) :
    ∃ encryption, p = unsupported encryption := by
  cases p with
  | unsupported encryption => exact ⟨encryption, rfl⟩
  | plain => exact absurd rfl h
  | xts => exact absurd rfl h
  | counter => exact absurd rfl h
  | titleCounter => exact absurd rfl h

/-! ## Keys -/

/-- The key of a section with the given protection, decrypted for it alone. -/
def keyOf (header : Header) (keys : KeyStore) : Protection → Except Error SectionKey
  | .plain => return .plain
  | .xts => do
    let kek ← (keys.areaKey (KeyIndex.ofByte header.areaKeyIndex) header.keyGeneration).result
    return .xts (((Aes.cipher kek).decrypt header.keyArea.data).append
      ((Aes.cipher kek).decrypt header.keyArea.tweak))
  | .counter => do
    let kek ← (keys.areaKey (KeyIndex.ofByte header.areaKeyIndex) header.keyGeneration).result
    return .counter ((Aes.cipher kek).decrypt header.keyArea.counter)
  | .titleCounter =>
    match keys.titleKey? header.rightsId with
    | none => .error (.missingTitleKey header.rightsId)
    | some wrapped => do
      let kek ← (keys.titleKek header.keyGeneration).result
      return .counter ((Aes.cipher kek).decrypt wrapped)
  | .unsupported encryption => .error (.unsupported (.encryption encryption.name))

namespace KeyRing

variable {header : Header} {keys : KeyStore} {ring : KeyRing}

theorem result_readArea : (readArea header keys).result = do
    let kek ← (keys.areaKey (KeyIndex.ofByte header.areaKeyIndex) header.keyGeneration).result
    return header.keyArea.map (Aes.cipher kek).decrypt := by
  simp only [readArea, Traced.result_bind, Traced.result_emit, Traced.result_pure]
  rfl

theorem result_readTitle : (readTitle header keys).result =
    match keys.titleKey? header.rightsId with
    | none => .error (.missingTitleKey header.rightsId)
    | some wrapped => do
      let kek ← (keys.titleKek header.keyGeneration).result
      return (Aes.cipher kek).decrypt wrapped := by
  unfold readTitle
  cases keys.titleKey? header.rightsId with
  | none => rfl
  | some wrapped =>
    simp only [Traced.result_bind, Traced.result_emit, Traced.result_pure]
    rfl

/-- A key ring holds nothing but what decrypting gives. -/
structure Agrees (header : Header) (keys : KeyStore) (ring : KeyRing) : Prop where
  area : ring.area.Agrees (readArea header keys).result
  title : ring.title.Agrees (readTitle header keys).result

theorem agrees_empty : empty.Agrees header keys :=
  ⟨Slot.agrees_unparsed _, Slot.agrees_unparsed _⟩

theorem Agrees.forceArea (h : ring.Agrees header keys) :
    ∃ ring', (forceArea header keys).outcome ring = ((readArea header keys).result, ring') ∧
      ring'.Agrees header keys := by
  obtain ⟨slot, hrun, hslot⟩ : ∃ slot, (Slot.force fun _ => readArea header keys).outcome ring.area
        = ((readArea header keys).result, slot) ∧ slot.Agrees (readArea header keys).result :=
    Slot.Agrees.force h.area
  refine ⟨⟨slot, ring.title⟩, ?_, hslot, h.title⟩
  unfold KeyRing.forceArea
  rw [Access.outcome_onPart, hrun]

theorem Agrees.forceTitle (h : ring.Agrees header keys) :
    ∃ ring', (forceTitle header keys).outcome ring = ((readTitle header keys).result, ring') ∧
      ring'.Agrees header keys := by
  obtain ⟨slot, hrun, hslot⟩ : ∃ slot,
        (Slot.force fun _ => readTitle header keys).outcome ring.title
          = ((readTitle header keys).result, slot) ∧
        slot.Agrees (readTitle header keys).result :=
    Slot.Agrees.force h.title
  refine ⟨⟨ring.area, slot⟩, ?_, h.area, hslot⟩
  unfold KeyRing.forceTitle
  rw [Access.outcome_onPart, hrun]

/-- **Keeping keys does not change them.** -/
theorem Agrees.sectionKey (h : ring.Agrees header keys) (p : Protection) :
    ∃ ring', (sectionKey header keys p).outcome ring = (keyOf header keys p, ring') ∧
      ring'.Agrees header keys := by
  cases p with
  | plain => exact ⟨ring, rfl, h⟩
  | unsupported encryption => exact ⟨ring, rfl, h⟩
  | xts =>
    obtain ⟨ring', hrun, h'⟩ := h.forceArea
    refine ⟨ring', ?_, h'⟩
    unfold KeyRing.sectionKey keyOf
    rw [Access.outcome_bind, hrun, result_readArea]
    cases (keys.areaKey (KeyIndex.ofByte header.areaKeyIndex) header.keyGeneration).result <;> rfl
  | counter =>
    obtain ⟨ring', hrun, h'⟩ := h.forceArea
    refine ⟨ring', ?_, h'⟩
    unfold KeyRing.sectionKey keyOf
    rw [Access.outcome_bind, hrun, result_readArea]
    cases (keys.areaKey (KeyIndex.ofByte header.areaKeyIndex) header.keyGeneration).result <;> rfl
  | titleCounter =>
    obtain ⟨ring', hrun, h'⟩ := h.forceTitle
    refine ⟨ring', ?_, h'⟩
    unfold KeyRing.sectionKey keyOf
    rw [Access.outcome_bind, hrun, result_readTitle]
    cases keys.titleKey? header.rightsId with
    | none => rfl
    | some wrapped => cases (keys.titleKek header.keyGeneration).result <;> rfl

end KeyRing

/-! ## Sections -/

variable {archive : View} {media : Media} {header : Header} {keys : KeyStore} {ring : KeyRing}

/-- What opening a section alone gives: its view is the decrypted filesystem under the section's
key, and the filesystem is of the kind that was declared. -/
structure Opened (archive : View) (header : Header) (keys : KeyStore) (s : Section) : Prop where
  view_eq : ∃ key, keyOf header keys s.descriptor.protection = .ok key ∧
    sectionView archive s.descriptor key = .ok s.view
  kind_eq : s.filesystem.kind = s.descriptor.kind

/-- What is fixed of an opened section: all but what has been read of its filesystem. -/
def Section.outline (s : Section) : Descriptor × View × SectionKind :=
  (s.descriptor, s.view, s.filesystem.kind)

/-- What opening a section gives is fixed. -/
theorem Opened.congr {s t : Section} (hs : Opened archive header keys s)
    (h : s.outline = t.outline) : Opened archive header keys t := by
  obtain ⟨key, hkey, hview⟩ := hs.view_eq
  have hdescriptor : s.descriptor = t.descriptor := congrArg Prod.fst h
  have hv : s.view = t.view := congrArg (fun o => o.2.1) h
  have hkind : s.filesystem.kind = t.filesystem.kind := congrArg (fun o => o.2.2) h
  rw [hdescriptor] at hkey hview
  rw [hv] at hview
  refine ⟨⟨key, hkey, hview⟩, ?_⟩
  rw [← hkind, hs.kind_eq, hdescriptor]

theorem kind_of_recognize {d : Descriptor} {view : View} {detected : Option Format}
    {filesystem : SectionFilesystem}
    (h : (recognize d view detected).result = .ok filesystem) : filesystem.kind = d.kind := by
  unfold recognize at h
  extract_lets found at h
  clear_value found
  cases found with
  | none => cases h
  | some fs =>
    dsimp only at h
    split at h
    · cases h
    · rename_i hkind
      cases h
      exact Decidable.of_not_not hkind

/-- What opening a section gives when its key has not been decrypted yet. -/
def openAlone (archive : View) (media : Media) (keys : KeyStore) (header : Header) (d : Descriptor) :
    Except Error Section := do
  let key ← keyOf header keys d.protection
  let view ← sectionView archive d key
  let detected ← (Format.detect view.region media keys).result
  let filesystem ← (recognize d view detected).result
  return ⟨d, view, filesystem⟩

theorem opened_of_openAlone {d : Descriptor} {s : Section}
    (h : openAlone archive media keys header d = .ok s) :
    s.descriptor = d ∧ Opened archive header keys s := by
  obtain ⟨key, hkey, h⟩ := bind_eq_ok_iff.mp h
  obtain ⟨view, hview, h⟩ := bind_eq_ok_iff.mp h
  obtain ⟨detected, -, h⟩ := bind_eq_ok_iff.mp h
  obtain ⟨filesystem, hfs, h⟩ := bind_eq_ok_iff.mp h
  cases h
  exact ⟨rfl, ⟨key, hkey, hview⟩, kind_of_recognize hfs⟩

theorem opened_of_forall₂ {ds : List Descriptor} {ss : List Section}
    (h : List.Forall₂ (fun d s => openAlone archive media keys header d = .ok s) ds ss) :
    ss.map Section.descriptor = ds ∧ ∀ s ∈ ss, Opened archive header keys s := by
  induction h with
  | nil => exact ⟨rfl, List.forall_mem_nil _⟩
  | cons hs _ ih =>
    obtain ⟨rfl, hopened⟩ := opened_of_openAlone hs
    exact ⟨congrArg _ ih.1, List.forall_mem_cons.mpr ⟨hopened, ih.2⟩⟩

/-- **A section is opened as if it were opened alone**, whichever keys have been decrypted. -/
theorem outcome_openSection (archive : View) (media : Media) (hr : ring.Agrees header keys)
    (d : Descriptor) :
    ∃ ring', (openSection archive media keys header d).outcome ring
      = (openAlone archive media keys header d, ring') ∧ ring'.Agrees header keys := by
  obtain ⟨ring', hrun, hr'⟩ := hr.sectionKey d.protection
  refine ⟨ring', ?_, hr'⟩
  unfold openSection openAlone
  rw [Access.outcome_bind, hrun]
  cases keyOf header keys d.protection with
  | error e => rfl
  | ok key =>
    rw [ok_bind]
    dsimp only
    rw [Access.outcome_bind, Access.outcome_liftM, Traced.result_liftM]
    cases sectionView archive d key with
    | error e => rfl
    | ok view =>
      rw [ok_bind]
      dsimp only
      rw [Access.outcome_bind, Access.outcome_liftM]
      cases (Format.detect view.region media keys).result with
      | error e => rfl
      | ok detected =>
        rw [ok_bind]
        dsimp only
        rw [Access.outcome_bind, Access.outcome_liftM]
        cases (recognize d view detected).result with
        | error e => rfl
        | ok filesystem => rfl

theorem result_recognize (d : Descriptor) (view : View) :
    ∃ filesystem, (recognize d view (some d.kind.format)).result = .ok filesystem ∧
      filesystem.kind = d.kind := by
  cases hd : d.kind with
  | pfs0 =>
    refine ⟨.pfs0 (.ofView view), ?_, rfl⟩
    unfold recognize
    rw [hd]
    rfl
  | romFs =>
    refine ⟨.romFs (.ofView view), ?_, rfl⟩
    unfold recognize
    rw [hd]
    rfl

/-- A section opens when its key is there and its view begins as the declared filesystem does. -/
theorem openSection_eq_ok {d : Descriptor} {key : SectionKey} {view : View} {head : List UInt8}
    (hr : ring.Agrees header keys) (hkey : keyOf header keys d.protection = .ok key)
    (hview : sectionView archive d key = .ok view)
    (hhead : view.region.readAt media 0 (min view.region.size Format.headSize) = .ok head)
    (hdetect : Format.detectBytes head keys = some d.kind.format) :
    ∃ s ring', (openSection archive media keys header d).outcome ring = (.ok s, ring') ∧
      s.outline = (d, view, d.kind) ∧ ring'.Agrees header keys := by
  obtain ⟨ring', hrun, hr'⟩ := outcome_openSection archive media hr d
  obtain ⟨filesystem, hfs, hkind⟩ := result_recognize d view
  have hdetected : (Format.detect view.region media keys).result = .ok (some d.kind.format) := by
    unfold Format.detect
    rw [hhead]
    dsimp only
    rw [hdetect]
    rfl
  have hopen : openAlone archive media keys header d = .ok ⟨d, view, filesystem⟩ :=
    bind_eq_ok_iff.mpr ⟨key, hkey, bind_eq_ok_iff.mpr ⟨view, hview,
      bind_eq_ok_iff.mpr ⟨_, hdetected, bind_eq_ok_iff.mpr ⟨filesystem, hfs, rfl⟩⟩⟩⟩
  rw [hopen] at hrun
  refine ⟨⟨d, view, filesystem⟩, ring', hrun, ?_, hr'⟩
  unfold Section.outline
  rw [hkind]

theorem openSections_cons_of_supported {d : Descriptor} (hd : d.isSupported = true)
    (rest : List Descriptor) : openSections archive media keys header (d :: rest) = do
      let s ← openSection archive media keys header d
      let others ← openSections archive media keys header rest
      return s :: others := by
  rw [openSections]
  cases hp : d.protection with
  | unsupported encryption =>
    unfold Descriptor.isSupported at hd
    rw [hp] at hd
    cases hd
  | plain => rfl
  | xts => rfl
  | counter => rfl
  | titleCounter => rfl

theorem outcome_openSections_cons {d : Descriptor} {rest : List Descriptor} {s : Section}
    {others : List Section} {ring₁ ring₂ : KeyRing} (hd : d.isSupported = true)
    (hs : (openSection archive media keys header d).outcome ring = (.ok s, ring₁))
    (hothers : (openSections archive media keys header rest).outcome ring₁ = (.ok others, ring₂)) :
    (openSections archive media keys header (d :: rest)).outcome ring
      = (.ok (s :: others), ring₂) := by
  rw [openSections_cons_of_supported hd]
  simp only [Access.outcome_bind, hs, hothers, Access.outcome_pure]

/-- **Opening sections is opening each of them alone that can be read.** -/
theorem outcome_openSections (archive : View) (media : Media) (hr : ring.Agrees header keys)
    (ds : List Descriptor) :
    ∃ ring', (openSections archive media keys header ds).outcome ring
      = ((ds.filter Descriptor.isSupported).mapM (openAlone archive media keys header), ring') ∧
        ring'.Agrees header keys := by
  induction ds generalizing ring with
  | nil => exact ⟨ring, rfl, hr⟩
  | cons d rest ih =>
    by_cases hd : d.isSupported = true
    · obtain ⟨ring₁, hrun, hr₁⟩ := outcome_openSection archive media hr d
      obtain ⟨ring₂, hrest, hr₂⟩ := ih hr₁
      rw [openSections_cons_of_supported hd, List.filter_cons_of_pos hd, List.mapM_cons,
        Access.outcome_bind, hrun]
      cases openAlone archive media keys header d with
      | error e => exact ⟨ring₁, rfl, hr₁⟩
      | ok s =>
        refine ⟨ring₂, ?_, hr₂⟩
        rw [ok_bind]
        dsimp only
        rw [Access.outcome_bind, hrest]
        cases (rest.filter Descriptor.isSupported).mapM (openAlone archive media keys header) <;> rfl
    · obtain ⟨e, he⟩ := Protection.eq_unsupported hd
      obtain ⟨ring', hrest, hr'⟩ := ih hr
      refine ⟨ring', ?_, hr'⟩
      rw [List.filter_cons_of_neg hd, ← hrest, openSections, he]
      rfl

/-- The sections of an archive that is opened for the first time. -/
theorem outcome_openSections_empty (archive : View) (media : Media) (keys : KeyStore)
    (header : Header) (ds : List Descriptor) :
    ∃ ring, (openSections archive media keys header ds).outcome KeyRing.empty
      = ((ds.filter Descriptor.isSupported).mapM (openAlone archive media keys header), ring) := by
  obtain ⟨ring, hrun, -⟩ := outcome_openSections archive media KeyRing.agrees_empty ds
  exact ⟨ring, hrun⟩

/-- **Opening sections in order** gives one for each descriptor whose encryption can be read, each as
if it were opened alone. -/
theorem openSections_ok {ds : List Descriptor} {ss : List Section} {ring' : KeyRing}
    (hr : ring.Agrees header keys)
    (h : (openSections archive media keys header ds).outcome ring = (.ok ss, ring')) :
    ss.map Section.descriptor = ds.filter Descriptor.isSupported ∧
      ∀ s ∈ ss, Opened archive header keys s := by
  obtain ⟨_, hrun, -⟩ := outcome_openSections archive media hr ds
  rw [hrun] at h
  exact opened_of_forall₂ (mapM_eq_ok_iff.mp (congrArg Prod.fst h))

end Nca

end Cartridge
