import Cartridge.Proofs.Nca.Alone
import Cartridge.Proofs.Nca.Rewriting
import Cartridge.Proofs.Nca.Steps

/-!
# Sections that cannot be read

When the byte for the encryption of a section is replaced by one that stands for an encryption that
cannot be read, that section is left out, and the others open as before: they have the same descriptors
and show the same bytes. A byte that stands for no encryption at all keeps every section from being
opened.

Results:
* `Headers.describe_withEncryption`: the descriptors are the same but for the protection of one section.
* `exists_parse_replaceEncryption`: the other sections open as before.
* `Archive.unreadable_section_left_out`: what becomes of an archive with any byte in the place.
-/

namespace Cartridge

/-- What goes with the members of a list can be found one by one. -/
theorem exists_forall₂_of_forall₂ {α β γ : Type} {R : α → β → Prop} {S : α → γ → Prop}
    {T : β → γ → Prop} {as : List α} {bs : List β} (h : List.Forall₂ R as bs)
    (hstep : ∀ a ∈ as, ∀ {b}, R a b → ∃ c, S a c ∧ T b c) :
    ∃ cs, List.Forall₂ S as cs ∧ List.Forall₂ T bs cs := by
  induction h with
  | nil => exact ⟨[], .nil, .nil⟩
  | @cons a b as bs hab _ ih =>
    obtain ⟨hhead, htail⟩ := List.forall_mem_cons.mp hstep
    obtain ⟨c, hac, hbc⟩ := hhead hab
    obtain ⟨cs, has, hbs⟩ := ih htail
    exact ⟨c :: cs, .cons hac has, .cons hbc hbs⟩

namespace Nca

section Changed

variable {media media' : Media} {keys : KeyStore} {view view' : View} {key : Bytes 32}
  {image : List UInt8} {h : Headers} {sections : List Section} {i : Fin 4} {e : EncryptionType}
  {archiveSize earliest index : Nat} {main : Header} {p : Place} {ps : List Place}

/-! ## Descriptors -/

/-- The section with this number, with another encryption in its header. -/
def Place.withEncryption (index : Nat) (e : EncryptionType) (p : Place) : Place :=
  if p.index = index then { p with header := p.header.withEncryption e } else p

/-- The descriptor of the section with this number, with another protection. -/
def Descriptor.withProtection (index : Nat) (protection : Protection) (d : Descriptor) : Descriptor :=
  if d.index = index then { d with protection := protection } else d

namespace Place

theorem entry_withEncryption (index : Nat) (e : EncryptionType) (p : Place) :
    (p.withEncryption index e).entry = p.entry := by
  unfold withEncryption
  split <;> rfl

/-- What makes a section sound is not its encryption. -/
theorem sound_withEncryption_iff :
    (p.withEncryption index e).Sound archiveSize earliest ↔ p.Sound archiveSize earliest := by
  unfold withEncryption
  split
  · exact ⟨fun h => ⟨h.1, h.2, h.3, h.4⟩, fun h => ⟨h.1, h.2, h.3, h.4⟩⟩
  · exact Iff.rfl

theorem descriptor_withEncryption (main : Header) (index : Nat) (e : EncryptionType) (p : Place) :
    (p.withEncryption index e).descriptor main
      = (p.descriptor main).withProtection index (.resolve e main.hasRightsId) := by
  unfold withEncryption Descriptor.withProtection
  show _ = if p.index = index then _ else _
  split <;> rfl

end Place

theorem allSound_withEncryption_iff :
    AllSound archiveSize earliest (ps.map (Place.withEncryption index e)) ↔
      AllSound archiveSize earliest ps := by
  induction ps generalizing earliest with
  | nil => exact Iff.rfl
  | cons p rest ih =>
    rw [List.map_cons, allSound_cons, allSound_cons, Place.sound_withEncryption_iff,
      Place.entry_withEncryption, ih]

namespace Headers

theorem named_withEncryption (h : Headers) (i : Fin 4) (e : EncryptionType) :
    (h.withEncryption i e).named = h.named.map (Place.withEncryption i e) := by
  unfold named places
  rw [List.filterMap_map, List.filterMap_map, List.map_filterMap]
  refine List.filterMap_congr fun j _ => ?_
  show place? (j.val, h.main.entries.get j, (h.withEncryption i e).sections.get j)
    = (place? (j.val, h.main.entries.get j, h.sections.get j)).map (Place.withEncryption i e)
  unfold place?
  by_cases hij : j = i
  · subst hij
    rw [get_withEncryption_self]
    dsimp only
    cases (h.main.entries.get j).isPopulated with
    | false => rfl
    | true =>
      cases h.sections.get j with
      | none => rfl
      | some header => exact congrArg some (if_pos rfl).symm
  · rw [get_withEncryption_of_ne hij]
    dsimp only
    cases (h.main.entries.get j).isPopulated with
    | false => rfl
    | true =>
      cases h.sections.get j with
      | none => rfl
      | some header => exact congrArg some (if_neg (Fin.val_ne_of_ne hij)).symm

/-- **The descriptors are the same** but for the protection of the section. -/
theorem describe_withEncryption {ds : List Descriptor} (hds : h.describe archiveSize = .ok ds)
    (i : Fin 4) (e : EncryptionType) : (h.withEncryption i e).describe archiveSize
      = .ok (ds.map (Descriptor.withProtection i (.resolve e h.main.hasRightsId))) := by
  obtain ⟨hv, hsound, rfl⟩ := describe_eq_ok_iff.mp hds
  refine describe_eq_ok_iff.mpr ⟨hv, ?_, ?_⟩
  · rw [named_withEncryption]
    exact allSound_withEncryption_iff.mpr hsound
  · rw [named_withEncryption, List.map_map, List.map_map]
    exact List.map_congr_left fun p _ => p.descriptor_withEncryption h.main i e

end Headers

/-- There are three encryptions that can be read. -/
theorem Protection.resolve_eq_unsupported (he : e.toByte ∉ [1, 2, 3]) (hasRightsId : Bool) :
    resolve e hasRightsId = .unsupported e := by
  cases e with
  | plain | xts | counter => exact absurd (by decide) he
  | auto | counterEx | counterSkipLayerHash | counterExSkipLayerHash => rfl

/-- Of the descriptors that can be read only that of the section is gone. -/
theorem filter_withProtection_unsupported (ds : List Descriptor) (index : Nat) (e : EncryptionType) :
    (ds.map (Descriptor.withProtection index (.unsupported e))).filter Descriptor.isSupported
      = (ds.filter Descriptor.isSupported).filter fun d => decide (d.index ≠ index) := by
  have hsupported (d : Descriptor) : (d.withProtection index (.unsupported e)).isSupported
      = (decide (d.index ≠ index) && d.isSupported) := by
    unfold Descriptor.withProtection
    split
    · rename_i hindex
      simp only [hindex, ne_eq, not_true_eq_false, decide_false, Bool.false_and]
      rfl
    · rename_i hindex
      simp only [hindex, ne_eq, not_false_eq_true, decide_true, Bool.true_and]
  rw [List.filter_map, List.filter_filter, show Descriptor.isSupported ∘ _ = _ from funext hsupported]
  refine (List.map_congr_left fun d hd => ?_).trans (List.map_id _)
  have hindex := (List.mem_filter.mp hd).2
  rw [Bool.and_eq_true, decide_eq_true_eq] at hindex
  exact if_neg hindex.1

/-! ## Sections -/

section Replaced

variable (hkey : keys.headerKey? = some key) (himage : view.region.Holds media image)
  (hparse : (Archive.parse media keys).outcome (.ofView view)
    = (.ok (), ⟨view, .parsed h sections⟩))
  (hi : i ∈ h.populated)

include hkey himage hparse hi

/-- **The other sections open as before** if the encryption of one of them cannot be read. -/
theorem exists_parse_replaceEncryption (he : e.toByte ∉ [1, 2, 3])
    (himage' : view'.region.Holds media' (replaceEncryption key h.version i e.toByte image)) :
    ∃ sections', (Archive.parse media' keys).outcome (.ofView view')
        = (.ok (), ⟨view', .parsed (h.withEncryption i e) sections'⟩) ∧
      List.Forall₂ (Section.Alike media media')
        (sections.filter fun s => decide (s.descriptor.index ≠ i)) sections' := by
  obtain ⟨hread, ds, hds, hopen⟩ := Archive.steps_of_outcome_parse hparse
  have hv : h.version ≠ .nca0 := (Headers.describe_eq_ok_iff.mp hds).1
  obtain ⟨hle, -, -⟩ := heldIn_of_readHeaders himage hkey hread
  have hlen : (replaceEncryption key h.version i e.toByte image).length = image.length :=
    length_replaceEncryption hle i _
  have hsize : view'.size = view.size := by
    rw [View.size, View.size, himage.size_eq, himage'.size_eq, hlen]
  have hds' := Headers.describe_withEncryption hds i e
  rw [Protection.resolve_eq_unsupported he, ← hsize] at hds'
  -- the sections that were opened, but for the one that cannot be opened any more
  obtain ⟨ring, hrun⟩ := outcome_openSections_empty view media keys h.main ds
  rw [hrun] at hopen
  have hothers : List.Forall₂ (fun d s => openAlone view media keys h.main d = .ok s)
      ((ds.filter Descriptor.isSupported).filter fun d => decide (d.index ≠ i))
      (sections.filter fun s => decide (s.descriptor.index ≠ i)) :=
    List.rel_filter (fun d s hs => by simp [(opened_of_openAlone hs).1]) (mapM_eq_ok_iff.mp hopen)
  have hopens : ∀ d ∈ (ds.filter Descriptor.isSupported).filter fun d => decide (d.index ≠ i.val),
      ∀ {s}, openAlone view media keys h.main d = .ok s →
        ∃ s', openAlone view' media' keys h.main d = .ok s' ∧ s.Alike media media' s' := by
    intro d hd s hs
    have hd : d ∈ ds := (List.mem_filter.mp (List.mem_filter.mp hd).1).1
    have hbehind := (((Headers.complete_of_readHeaders hread).describes hds).bounds d hd).1
    exact exists_openAlone_alike ((Headers.describe_ok hds).2 d hd) himage himage' hlen
      (slice_replaceEncryption hle i _ hbehind _) hs
  obtain ⟨sections', hall, halike⟩ := exists_forall₂_of_forall₂ hothers hopens
  obtain ⟨ring', hrun'⟩ := outcome_openSections_empty view' media' keys h.main
    (ds.map (Descriptor.withProtection i (.unsupported e)))
  rw [filter_withProtection_unsupported, mapM_eq_ok_iff.mpr hall] at hrun'
  exact ⟨sections', Archive.outcome_parse_ofView
    (readHeaders_replaceEncryption himage hkey hread hv hi himage') hds' hrun', halike⟩

end Replaced

end Changed

/-- **A section whose encryption cannot be read is left out**, and nothing else changes. Of an archive
that parses, the byte for the encryption of a section is replaced by any but the three that stand for one
that can be read. If it stands for an encryption, the headers are read with it, the archive parses, and
its sections are those of before but for that one, with the same descriptors and bytes. If it stands for
none, neither succeeds, and the place of the byte is reported. -/
theorem Archive.unreadable_section_left_out {media media' : Media} {keys : KeyStore}
    {view view' : View} {key : Bytes 32} {image : List UInt8} {h : Headers}
    {sections : List Section} {i : Fin 4} {b : UInt8} (hkey : keys.headerKey? = some key)
    (himage : view.region.Holds media image)
    (hparse : (parse media keys).outcome (ofView view)
      = (.ok (), ⟨view, .parsed h sections⟩))
    (hi : i ∈ h.populated) (hb : b ∉ [1, 2, 3])
    (himage' : view'.region.Holds media' (replaceEncryption key h.version i b image)) :
    (∀ e : EncryptionType, e.toByte = b →
      (headers media' keys).outcome (ofView view')
          = (.ok (h.withEncryption i e), ⟨view', .headerDecrypted (h.withEncryption i e)⟩) ∧
        ∃ sections', (parse media' keys).outcome (ofView view')
            = (.ok (), ⟨view', .parsed (h.withEncryption i e) sections'⟩) ∧
          List.Forall₂ (Section.Alike media media')
            (sections.filter fun s => decide (s.descriptor.index ≠ i)) sections') ∧
    ((∀ e : EncryptionType, e.toByte ≠ b) →
      (headers media' keys).outcome (ofView view')
          = (.error (.invalidData (.unknownVariant 4)), ofView view') ∧
        (parse media' keys).outcome (ofView view')
          = (.error (.invalidData (.unknownVariant 4)), ofView view')) := by
  obtain ⟨hread, ds, hds, -⟩ := steps_of_outcome_parse hparse
  have hv : h.version ≠ .nca0 := (Headers.describe_eq_ok_iff.mp hds).1
  constructor
  · rintro e rfl
    exact ⟨outcome_headers_ofView (readHeaders_replaceEncryption himage hkey hread hv hi himage'),
      exists_parse_replaceEncryption hkey himage hparse hi hb himage'⟩
  · intro hunknown
    have hread' := readHeaders_replaceEncryption_unknown himage hkey hread hv hi hunknown himage'
    refine ⟨outcome_headers_ofView hread', ?_⟩
    rw [outcome_parse]
    exact climb_of_advance_error (advance_ofView_error hread') 2

/-! ## Two sections -/

namespace Twins

/-- The headers of an archive of two sections. -/
def headers : Headers :=
  { Specimen.headers with
    main := { Specimen.headers.main with
      contentSize := 0x1000
      entries := #v[⟨6, 7, 0⟩, ⟨7, 8, 0⟩, ⟨0, 0, 0⟩, ⟨0, 0, 0⟩] }
    sections := #v[some Specimen.sectionHeader, some Specimen.sectionHeader, none, none] }

/-- The second section begins where the first one ends. -/
def second : Descriptor := { Specimen.descriptor with index := 1, start := 0xE00, stop := 0x1000 }

/-- A section with the plaintext of the specimen. -/
def body (d : Descriptor) : List UInt8 :=
  encryptSection d Specimen.plaintext (.counter Specimen.key)

def image : List UInt8 :=
  encryptHeaders (Bytes.zero 32) headers.version headers.encode
    ++ (body Specimen.descriptor ++ body second)

def media : Media := ⟨[.memory image]⟩

def view : View := .ofRegion (.medium 0 0x1000)

theorem length_body (d : Descriptor) : (body d).length = 0x200 :=
  (length_encryptSection d Specimen.plaintext (.counter Specimen.key)).trans
    Specimen.length_plaintext

theorem length_image : image.length = 0x1000 := by
  unfold image
  rw [List.length_append, List.length_append, length_encryptHeaders headers.length_encode,
    length_body, length_body]
  rfl

theorem holds_view : view.region.Holds media image :=
  Region.holds_memory length_image (show 0x1000 < UInt64.size by decide)

theorem slice_first : slice image 0xC00 0x200 = body Specimen.descriptor := by
  unfold image
  refine (slice_append_right (length_encryptHeaders headers.length_encode) _ 0 _).trans ?_
  exact slice_append_left (length_body _) _

theorem slice_second : slice image 0xE00 0x200 = body second := by
  unfold image
  refine (slice_append_right (length_encryptHeaders headers.length_encode) _ 0x200 _).trans ?_
  refine (slice_append_right (length_body _) _ 0 _).trans ?_
  rw [← length_body second, slice_all]

theorem readHeaders_view : readHeaders view.region media Specimen.keys = .ok headers :=
  readHeaders_encode (by decide) (by decide) rfl rfl holds_view

theorem describe_headers : headers.describe 0x1000 = .ok [Specimen.descriptor, second] := by
  have hfirst : describeSection headers.main 0x1000 headersSize 0 ⟨6, 7, 0⟩ Specimen.sectionHeader
      = .ok Specimen.descriptor :=
    describeSection_eq_ok_iff.mpr
      ⟨by decide, by decide, 0x20, 0x1E0, Specimen.dataRegion_sectionHeader, by decide, rfl⟩
  have hsecond : describeSection headers.main 0x1000 0xE00 1 ⟨7, 8, 0⟩ Specimen.sectionHeader
      = .ok second :=
    describeSection_eq_ok_iff.mpr
      ⟨by decide, by decide, 0x20, 0x1E0, Specimen.dataRegion_sectionHeader, by decide, rfl⟩
  show (describeSection headers.main 0x1000 headersSize 0 ⟨6, 7, 0⟩ Specimen.sectionHeader >>=
    fun d => (describeSection headers.main 0x1000 d.stop 1 ⟨7, 8, 0⟩ Specimen.sectionHeader >>=
      fun d' => describeFrom headers.main 0x1000 d'.stop _ >>= fun others => pure (d' :: others)) >>=
        fun others => pure (d :: others)) = _
  rw [hfirst, ok_bind, show Specimen.descriptor.stop = 0xE00 from rfl, hsecond]
  rfl

theorem parse_view : ∃ s t : Section, s.descriptor = Specimen.descriptor ∧ t.descriptor = second ∧
    (Archive.parse media Specimen.keys).outcome (.ofView view)
      = (.ok (), ⟨view, .parsed headers [s, t]⟩) := by
  have hfits := (Headers.describe_ok describe_headers).2
  have hkey : keyOf headers.main Specimen.keys .counter = .ok (.counter Specimen.key) := rfl
  obtain ⟨v, hv⟩ : ∃ v, sectionView view Specimen.descriptor (.counter Specimen.key) = .ok v :=
    ⟨_, rfl⟩
  obtain ⟨w, hw⟩ : ∃ w, sectionView view second (.counter Specimen.key) = .ok w := ⟨_, rfl⟩
  obtain ⟨s, ring₁, hs, hsd, hr₁⟩ := Specimen.openSection_plaintext KeyRing.agrees_empty hkey
    (hfits Specimen.descriptor (by simp)) holds_view hv slice_first rfl
  obtain ⟨t, ring₂, ht, htd, -⟩ := Specimen.openSection_plaintext hr₁ hkey
    (hfits second (by simp)) holds_view hw slice_second rfl
  have hopen : (openSections view media Specimen.keys headers.main
      [Specimen.descriptor, second]).outcome KeyRing.empty = (.ok [s, t], ring₂) :=
    outcome_openSections_cons rfl hs (outcome_openSections_cons rfl ht rfl)
  exact ⟨s, t, congrArg Prod.fst hsd, congrArg Prod.fst htd,
    Archive.outcome_parse_ofView readHeaders_view describe_headers hopen⟩

/-- The archive with another byte for the encryption of the first section. -/
def replaced (b : UInt8) : Media :=
  ⟨[.memory (replaceEncryption (Bytes.zero 32) headers.version 0 b image)]⟩

theorem holds_replaced (b : UInt8) : view.region.Holds (replaced b)
    (replaceEncryption (Bytes.zero 32) headers.version 0 b image) := by
  refine Region.holds_memory ?_ (show 0x1000 < UInt64.size by decide)
  rw [length_replaceEncryption (by rw [length_image]; decide), length_image]

/-- Without the first section, the second one opens as before. -/
theorem parse_replaced : ∃ s t t' : Section,
    Specimen.keys.headerKey? = some (Bytes.zero 32) ∧ view.region.Holds media image ∧
    (Archive.parse media Specimen.keys).outcome (.ofView view)
      = (.ok (), ⟨view, .parsed headers [s, t]⟩) ∧
    (0 : Fin 4) ∈ headers.populated ∧ EncryptionType.counterEx.toByte ∉ [1, 2, 3] ∧
    view.region.Holds (replaced EncryptionType.counterEx.toByte) (replaceEncryption (Bytes.zero 32)
      headers.version 0 EncryptionType.counterEx.toByte image) ∧
    (Archive.parse (replaced EncryptionType.counterEx.toByte) Specimen.keys).outcome (.ofView view)
      = (.ok (), ⟨view, .parsed (headers.withEncryption 0 .counterEx) [t']⟩) ∧
    t'.descriptor = second ∧ t.Alike media (replaced EncryptionType.counterEx.toByte) t' := by
  obtain ⟨s, t, hs, ht, hparse⟩ := parse_view
  have hi : (0 : Fin 4) ∈ headers.populated := by decide
  have hb : EncryptionType.counterEx.toByte ∉ [1, 2, 3] := by decide
  obtain ⟨-, sections, hparse', halike⟩ := (Archive.unreadable_section_left_out rfl holds_view hparse
    hi hb (holds_replaced _)).1 .counterEx rfl
  have hothers : ([s, t].filter fun s => decide (s.descriptor.index ≠ (0 : Fin 4).val)) = [t] := by
    rw [List.filter_cons_of_neg (by rw [hs]; decide), List.filter_cons_of_pos (by rw [ht]; decide)]
    rfl
  rw [hothers] at halike
  obtain ⟨t', rest, ht', hrest, rfl⟩ := List.forall₂_cons_left_iff.mp halike
  cases List.forall₂_nil_left_iff.mp hrest
  exact ⟨s, t, t', rfl, holds_view, hparse, hi, hb, holds_replaced _, hparse',
    ht'.descriptor_eq.trans ht, ht'⟩

/-- With a byte that stands for no encryption, the second section does not open either. -/
theorem parse_replaced_ne : ∃ s t : Section,
    (Archive.parse media Specimen.keys).outcome (.ofView view)
      = (.ok (), ⟨view, .parsed headers [s, t]⟩) ∧
    (0 : Fin 4) ∈ headers.populated ∧ (7 : UInt8) ∉ [1, 2, 3] ∧
    view.region.Holds (replaced 7) (replaceEncryption (Bytes.zero 32) headers.version 0 7 image) ∧
    (Archive.headers (replaced 7) Specimen.keys).outcome (.ofView view)
      = (.error (.invalidData (.unknownVariant 4)), .ofView view) ∧
    (Archive.parse (replaced 7) Specimen.keys).outcome (.ofView view)
      = (.error (.invalidData (.unknownVariant 4)), .ofView view) := by
  obtain ⟨s, t, -, -, hparse⟩ := parse_view
  have hi : (0 : Fin 4) ∈ headers.populated := by decide
  have hunknown (e : EncryptionType) : e.toByte ≠ 7 := by
    cases e <;> decide
  have hread : readHeaders view.region (replaced 7) Specimen.keys
      = .error (.invalidData (.unknownVariant 4)) :=
    readHeaders_replaceEncryption_unknown holds_view rfl readHeaders_view (by decide) hi hunknown
      (holds_replaced 7)
  refine ⟨s, t, hparse, hi, by decide, holds_replaced 7, Archive.outcome_headers_ofView hread, ?_⟩
  rw [Archive.outcome_parse]
  exact Archive.climb_of_advance_error (Archive.advance_ofView_error hread) 2

end Twins

end Nca

end Cartridge
