import Cartridge.Proofs.Keys.Names
import Cartridge.Proofs.Nca.Agreement

/-!
# What title keys decide

A title key is asked for where a section in counter mode belongs to an archive with a rights ID, and
nowhere else. So an archive without a rights ID is the same under all title keys, and an archive with
one is the same whether its title key was set by the user or is registered under the rights ID. Where
there is none of either, a section that needs it does not open, and nothing that was tried before makes
a difference.

Results:
* `agree_of_key?_eq`: which stores agree on an archive.
* `openSections_of_missing`, `openSections_of_find?_missing`: opening sections without a title key.
* `Archive.retraced_of_refused`: an archive that never opens is where its steps would lead.
* `Archive.transcript_blind_to_titleKeys`: without a rights ID, title keys are not to be seen.
* `Archive.userTitleKey_acts_as_registered`: with one, the user's title key is as good as a registered
  one, and without either the archive does not open.
-/

namespace Cartridge.Nca

section TitleKeys

variable {media : Media} {keys keys' : KeyStore} {main : Header}

/-! ## Stores that agree -/

theorem readTitle_congr (hkeys : keys'.keys = keys.keys)
    (htitle : keys'.titleKey? main.rightsId = keys.titleKey? main.rightsId) :
    KeyRing.readTitle main keys' = KeyRing.readTitle main keys := by
  unfold KeyRing.readTitle
  rw [htitle, KeyStore.titleKek_congr hkeys]

/-- Stores agree on an archive if they have the same named keys, apart from those for title keys, and
give the same title key where one is asked for. -/
theorem agree_of_key?_eq
    (hnames : ∀ name, ¬ KeyStore.IsTitleKekName (foldCase name) → keys'.key? name = keys.key? name)
    (htitle : main.hasRightsId = true → KeyRing.readTitle main keys' = KeyRing.readTitle main keys) :
    Agree main keys keys' := by
  refine ⟨?_, htitle⟩
  unfold KeyRing.readArea
  simp only [KeyStore.areaKey_congr hnames]

/-! ## Without a title key -/

section Missing

variable {archive : View} {ring : KeyRing} {ds : List Descriptor}

theorem keyOf_titleCounter (hmissing : keys.titleKey? main.rightsId = none) :
    keyOf main keys .titleCounter = .error (.missingTitleKey main.rightsId) := by
  unfold keyOf
  rw [hmissing]

/-- Sections of which one needs the title key do not all open. -/
theorem openSections_of_missing (hmissing : keys.titleKey? main.rightsId = none)
    (hr : ring.Agrees main keys) (hd : ∃ d ∈ ds, d.protection = .titleCounter) :
    ∃ e, ((openSections archive media keys main ds).outcome ring).1 = .error e := by
  obtain ⟨d, hmem, hprotection⟩ := hd
  cases hrun : ((openSections archive media keys main ds).outcome ring).1 with
  | error e => exact ⟨e, rfl⟩
  | ok ss =>
    obtain ⟨hmap, hopened⟩ := openSections_ok hr (Prod.ext hrun rfl)
    have hsupported : d.isSupported = true := by
      unfold Descriptor.isSupported
      rw [hprotection]
      rfl
    have hin : d ∈ ss.map Section.descriptor := by
      rw [hmap]
      exact List.mem_filter.mpr ⟨hmem, hsupported⟩
    obtain ⟨s, hs, rfl⟩ := List.mem_map.mp hin
    obtain ⟨key, hkey, -⟩ := (hopened s hs).view_eq
    rw [hprotection, keyOf_titleCounter hmissing] at hkey
    cases hkey

/-- If the first section that can be read needs the title key, that is what is missing. -/
theorem openSections_of_find?_missing (hmissing : keys.titleKey? main.rightsId = none)
    (hr : ring.Agrees main keys) {d : Descriptor} (hfind : ds.find? Descriptor.isSupported = some d)
    (hd : d.protection = .titleCounter) :
    ((openSections archive media keys main ds).outcome ring).1
      = .error (.missingTitleKey main.rightsId) := by
  obtain ⟨_, hrun, -⟩ := outcome_openSections archive media hr ds
  rw [← List.head?_filter] at hfind
  obtain ⟨rest, hsupported⟩ := List.head?_eq_some_iff.mp hfind
  have halone : openAlone archive media keys main d = .error (.missingTitleKey main.rightsId) := by
    unfold openAlone
    rw [hd, keyOf_titleCounter hmissing]
    rfl
  rw [hrun, hsupported, List.mapM_cons, halone]
  rfl

end Missing

namespace Archive

variable {view : View} {a : Archive}

theorem outcome_parse_ofView_error {h : Headers} {ds : List Descriptor} {e : Error}
    (hread : readHeaders view.region media keys = .ok h) (hds : h.describe view.size = .ok ds)
    (hopen : ((openSections view media keys h.main ds).outcome KeyRing.empty).1 = .error e) :
    (parse media keys).outcome (ofView view) = (.error e, ⟨view, .sectionsResolved h ds⟩) := by
  rw [outcome_parse]
  exact (climb_of_advance (advance_ofView hread) 2).trans
    ((climb_of_advance (advance_headerDecrypted hds) 1).trans
      (climb_of_advance_error (advance_sectionsResolved hopen) 0))

/-- An archive that does not open is where its steps, taken anew, would lead, whatever is done to it. -/
theorem retraced_of_refused {e : Error} {b : Archive}
    (hrefused : (parse media keys).outcome (ofView view) = (.error e, b))
    (h : Relation.ReflTransGen (Step media keys) (ofView view) a) :
    a.Consistent ∧ Retraced media keys view a := by
  induction h with
  | refl => exact ⟨trivial, retraced_ofView media keys view⟩
  | @tail a c _ hstep ih =>
    obtain ⟨hcons, hretraced⟩ := ih
    obtain ⟨goal, hc, -, hstate⟩ := hstep.exists_reach hcons
    refine ⟨hc, ?_⟩
    have hreach := hretraced.reach goal
    by_cases hparsed : c.state = .parsed
    · -- an archive that is open has been led there by all three steps
      rw [hstate] at hparsed
      unfold Retraced at hreach
      rw [hparsed] at hreach
      rw [outcome_parse] at hrefused
      cases hrefused.symm.trans hreach
    · obtain ⟨goal', rfl⟩ := hstep.eq_reach hparsed
      exact hretraced.reach goal'

/-! ## Archives without a rights ID -/

/-- **Without a rights ID, title keys are not to be seen.** Two stores may differ in all title keys and
in the named keys that only serve these. If the headers of an archive, once decrypted, have a rights ID
of zeros, then every sequence of operations gives the same answers, with the same events, under both
stores, and leaves the same archives behind. -/
theorem transcript_blind_to_titleKeys
    (hrights : ∀ h, readHeaders view.region media keys = .ok h → h.main.rightsId = Bytes.zero 16)
    (hnames : ∀ name, ¬ KeyStore.IsTitleKekName (foldCase name) → keys'.key? name = keys.key? name)
    (operations : List (Σ α : Type, Operation α)) :
    transcript media keys' operations (ofView view)
      = transcript media keys operations (ofView view) := by
  have hserved : ServedAlike media keys keys' (ofView view) := by
    intro h hread
    refine agree_of_key?_eq hnames fun hhas => ?_
    unfold Header.hasRightsId at hhas
    rw [hrights h hread] at hhas
    cases hhas
  exact transcript_congr (KeyStore.headerKey?_congr hnames) hserved operations

end Archive

end TitleKeys

namespace Specimen

/-- The specimen's keys with a title key, a title key of the user, and the keys for both. -/
def titledKeys : KeyStore where
  keys := (keys.keys.insert (KeyStore.titleKekName 0) (.single (Bytes.zero 16))).insert
    "titlekek_source" (.single (Bytes.zero 16))
  titleKeys := Catalog.empty.insert (Bytes.zero 16) (Bytes.zero 16)
  userTitleKey := some (Bytes.zero 16)

theorem key?_titledKeys (name : String) (h : ¬ KeyStore.IsTitleKekName (foldCase name)) :
    titledKeys.key? name = keys.key? name := by
  have hsource : foldCase name ≠ "titlekek_source" := fun heq => h (.inl heq)
  have hkek : foldCase name ≠ KeyStore.titleKekName 0 := fun heq => h (.inr ⟨0, heq⟩)
  unfold KeyStore.key? titledKeys
  rw [Catalog.find?_insert, if_neg hsource, Catalog.find?_insert, if_neg hkek]

/-- The specimen's section, read when the sections are open. -/
theorem readSection_parsed {s : Section} (hs : s.outline = (descriptor, sectionView, .pfs0))
    (keys : KeyStore) : ((Archive.Operation.readSection 0 0 4).run media keys).outcome
      ⟨view, .parsed headers [s]⟩
        = (.ok Partition.Flavor.plain.magic.toList, ⟨view, .parsed headers [s]⟩) := by
  have hdescriptor : s.descriptor = descriptor := congrArg Prod.fst hs
  have hview : s.view = sectionView := congrArg (fun o => o.2.1) hs
  have hsection : (Archive.sectionAt media keys 0).outcome ⟨view, .parsed headers [s]⟩
      = (.ok s, ⟨view, .parsed headers [s]⟩) := by
    have hsections : (Archive.sections media keys).outcome ⟨view, .parsed headers [s]⟩
        = (.ok [s], ⟨view, .parsed headers [s]⟩) := rfl
    have hfind : [s].find? (fun s => s.descriptor.index == 0) = some s := by
      rw [List.find?_cons_of_pos]
      rw [hdescriptor]
      rfl
    unfold Archive.sectionAt
    rw [Access.outcome_bind, hsections]
    dsimp only
    rw [hfind]
    rfl
  have hread : s.view.readAt media 0 4 = .ok Partition.Flavor.plain.magic.toList := by
    have hle : 0 + 4 ≤ (slice plaintext 0x20 0x1E0).length := by
      rw [← holds_sectionView.size_eq]
      decide
    have hslice : slice (slice plaintext 0x20 0x1E0) 0 4 = Partition.Flavor.plain.magic.toList := rfl
    have hbytes := holds_sectionView.readAt_eq hle
    rw [hslice] at hbytes
    rw [hview]
    exact hbytes
  unfold Archive.Operation.run
  rw [Access.outcome_bind, hsection]
  dsimp only
  rw [hread]
  rfl

/-- The specimen has no rights ID: parsed and read under title keys, it shows what it shows without. -/
theorem transcript_titledKeys : ∃ (parsed : Traced Unit) (read : Traced (List UInt8)) (a : Archive),
    (∀ h, readHeaders view.region media keys = .ok h → h.main.rightsId = Bytes.zero 16) ∧
    (∀ name, ¬ KeyStore.IsTitleKekName (foldCase name) → titledKeys.key? name = keys.key? name) ∧
    titledKeys.titleKey? (Bytes.zero 16) ≠ keys.titleKey? (Bytes.zero 16) ∧
    Archive.transcript media titledKeys
        [⟨_, .call .parse⟩, ⟨_, .readSection 0 0 4⟩] (.ofView view)
      = [⟨Unit, parsed, a⟩, ⟨List UInt8, read, a⟩] ∧
    parsed.result = .ok () ∧ a.state = .parsed ∧
    read.result = .ok Partition.Flavor.plain.magic.toList := by
  have hrights : ∀ h, readHeaders view.region media keys = .ok h →
      h.main.rightsId = Bytes.zero 16 := by
    intro h hread
    rw [readHeaders_view] at hread
    cases hread
    rfl
  obtain ⟨s, houtline, hparse⟩ := parse_view
  have hread := readSection_parsed houtline keys
  obtain ⟨hparsed, hopen⟩ := Prod.mk.inj hparse
  obtain ⟨hbytes, hstay⟩ := Prod.mk.inj hread
  generalize hsecond : (Archive.Operation.readSection 0 0 4).run media keys
    ⟨view, .parsed headers [s]⟩ = second at hbytes hstay
  generalize hfirst : Archive.parse media keys (.ofView view) = first at hparsed hopen
  obtain ⟨parsed, a⟩ := first
  obtain ⟨read, b⟩ := second
  cases hopen
  cases hstay
  refine ⟨parsed, read, ⟨view, .parsed headers [s]⟩, hrights, key?_titledKeys, by decide, ?_, hparsed,
    rfl, hbytes⟩
  rw [Archive.transcript_blind_to_titleKeys hrights key?_titledKeys]
  simp only [Archive.transcript, Archive.Operation.run, Archive.Call.run, hfirst]
  rw [← hsecond]
  rfl

end Specimen

/-! ## Archives with a rights ID -/

namespace Archive

variable {media : Media} {view : View}

/-- **The user's title key acts as a registered one.** Of an archive that has a rights ID, once its
headers are decrypted with the named keys:

* every sequence of operations shows the same when the user has set a title key, whatever is
  registered, as when he has set none and the same one is registered under the rights ID;
* with neither, an archive some section of which needs the title key does not open, whatever has been
  tried before: parsing fails and leaves it with its sections described. If the first section that can
  be read is such a one, the error names the title key by its rights ID. -/
theorem userTitleKey_acts_as_registered {named : Catalog String Key} {rightsId : Bytes 16}
    (hrights : ∀ h, readHeaders view.region media ⟨named, .empty, none⟩ = .ok h →
      h.main.rightsId = rightsId) :
    (∀ {key : Block} {titles titles' : Catalog (Bytes 16) Block},
      titles'.find? rightsId = some key → ∀ operations : List (Σ α : Type, Operation α),
        transcript media ⟨named, titles, some key⟩ operations (ofView view)
          = transcript media ⟨named, titles', none⟩ operations (ofView view)) ∧
    (∀ {titles : Catalog (Bytes 16) Block} {h : Headers} {ds : List Descriptor},
      titles.find? rightsId = none →
      readHeaders view.region media ⟨named, titles, none⟩ = .ok h → h.describe view.size = .ok ds →
      (∃ d ∈ ds, d.protection = .titleCounter) →
      ∃ e, (∀ a, Relation.ReflTransGen (Step media ⟨named, titles, none⟩) (ofView view) a →
          (parse media ⟨named, titles, none⟩).outcome a
            = (.error e, ⟨view, .sectionsResolved h ds⟩)) ∧
        ((∃ d, ds.find? Descriptor.isSupported = some d ∧ d.protection = .titleCounter) →
          e = .missingTitleKey rightsId ∧
          e.message = "Title key missing for rights ID " ++ Hex.encodeUpper rightsId.toList)) := by
  constructor
  · intro key titles titles' hkey operations
    have hserved : ServedAlike media ⟨named, titles', none⟩ ⟨named, titles, some key⟩
        (ofView view) := by
      intro h hread
      have hid : h.main.rightsId = rightsId := hrights h hread
      refine agree_of_key?_eq (fun _ _ => rfl) fun _ => readTitle_congr rfl ?_
      show some key = titles'.find? h.main.rightsId
      rw [hid, hkey]
    have hheader : (⟨named, titles, some key⟩ : KeyStore).headerKey?
        = (⟨named, titles', none⟩ : KeyStore).headerKey? := rfl
    exact transcript_congr hheader hserved operations
  · intro titles h ds htitles hread hds hneeds
    have hid : h.main.rightsId = rightsId := hrights h hread
    have hmissing : (⟨named, titles, none⟩ : KeyStore).titleKey? h.main.rightsId = none := by
      rw [hid]
      exact htitles
    obtain ⟨e, hopen⟩ : ∃ e, ((openSections view media ⟨named, titles, none⟩ h.main ds).outcome
        KeyRing.empty).1 = .error e :=
      openSections_of_missing hmissing KeyRing.agrees_empty hneeds
    have hparse := outcome_parse_ofView_error hread hds hopen
    refine ⟨e, fun a ha => ?_, ?_⟩
    · rw [(retraced_of_refused hparse ha).2.outcome_parse]
      exact hparse
    · rintro ⟨d, hfind, hd⟩
      have hfirst : ((openSections view media ⟨named, titles, none⟩ h.main ds).outcome
          KeyRing.empty).1 = .error (.missingTitleKey h.main.rightsId) :=
        openSections_of_find?_missing hmissing KeyRing.agrees_empty hfind hd
      rw [hopen, hid] at hfirst
      cases hfirst
      exact ⟨rfl, rfl⟩

end Archive

namespace Specimen

def rightsId : Bytes 16 := ⟨List.replicate 16 1, rfl⟩

def titledHeaders : Headers :=
  { headers with main := { headers.main with rightsId := rightsId } }

def titledDescriptor : Descriptor := { descriptor with protection := .titleCounter }

/-- The specimen's named keys, and the key that encrypts its title key. -/
def named : Catalog String Key :=
  keys.keys.insert (KeyStore.titleKekName 0) (.single (Bytes.zero 16))

/-- A title key of another archive. -/
def otherTitles : Catalog (Bytes 16) Block := Catalog.empty.insert (Bytes.zero 16) (Bytes.zero 16)

def titledImage : List UInt8 :=
  encryptHeaders (Bytes.zero 32) titledHeaders.version titledHeaders.encode
    ++ encryptSection titledDescriptor plaintext (.counter key)

def titledMedia : Media := ⟨[.memory titledImage]⟩

theorem holds_titledView : view.region.Holds titledMedia titledImage := by
  refine Region.holds_memory ?_ (show 0xE00 < UInt64.size by decide)
  unfold titledImage
  rw [List.length_append, length_encryptHeaders titledHeaders.length_encode, length_encryptSection,
    length_plaintext]
  rfl

theorem slice_titledImage : slice titledImage titledDescriptor.start titledDescriptor.size
    = encryptSection titledDescriptor plaintext (.counter key) := by
  have hlen : (encryptSection titledDescriptor plaintext (.counter key)).length
      = titledDescriptor.size :=
    (length_encryptSection titledDescriptor plaintext (.counter key)).trans length_plaintext
  unfold titledImage
  refine (slice_append_right (length_encryptHeaders titledHeaders.length_encode) _ 0 _).trans ?_
  rw [← hlen, slice_all]

theorem readHeaders_titledView (titles : Catalog (Bytes 16) Block) (user : Option Block) :
    readHeaders view.region titledMedia ⟨named, titles, user⟩ = .ok titledHeaders :=
  readHeaders_encode (by decide) (by decide) rfl rfl holds_titledView

theorem describe_titledHeaders : titledHeaders.describe 0xE00 = .ok [titledDescriptor] := by
  have hsection : describeSection titledHeaders.main 0xE00 headersSize 0 ⟨6, 7, 0⟩ sectionHeader
      = .ok titledDescriptor :=
    describeSection_eq_ok_iff.mpr
      ⟨by decide, by decide, 0x20, 0x1E0, dataRegion_sectionHeader, by decide, rfl⟩
  show (describeSection titledHeaders.main 0xE00 headersSize 0 ⟨6, 7, 0⟩ sectionHeader >>= fun d =>
    describeFrom titledHeaders.main 0xE00 d.stop _ >>= fun others => pure (d :: others)) = _
  rw [hsection]
  rfl

/-- With the title key registered, the specimen opens. -/
theorem parse_titledView : ∃ s : Section, s.outline = (titledDescriptor, sectionView, .pfs0) ∧
    (Archive.parse titledMedia ⟨named, otherTitles.insert rightsId (Bytes.zero 16), none⟩).outcome
      (.ofView view) = (.ok (), ⟨view, .parsed titledHeaders [s]⟩) := by
  have hkey : keyOf titledHeaders.main
      ⟨named, otherTitles.insert rightsId (Bytes.zero 16), none⟩ titledDescriptor.protection
        = .ok (.counter key) := rfl
  have hview : Nca.sectionView view titledDescriptor (.counter key) = .ok sectionView := rfl
  have hfits := (Headers.describe_ok describe_titledHeaders).2 _ (List.mem_singleton_self _)
  obtain ⟨s, ring, hrun, houtline, -⟩ := openSection_plaintext KeyRing.agrees_empty hkey hfits
    holds_titledView hview slice_titledImage rfl
  exact ⟨s, houtline, Archive.outcome_parse_ofView (readHeaders_titledView _ _)
    describe_titledHeaders (outcome_openSections_cons rfl hrun rfl)⟩

/-- The specimen opens with the title key set by the user, as it does with the same one registered; with
that of another archive only, it does not. -/
theorem parse_userTitleKey : ∃ (parsed : Traced Unit) (s : Section),
    (∀ h, readHeaders view.region titledMedia ⟨named, .empty, none⟩ = .ok h →
      h.main.rightsId = rightsId) ∧
    (otherTitles.insert rightsId (Bytes.zero 16)).find? rightsId = some (Bytes.zero 16) ∧
    Archive.transcript titledMedia ⟨named, otherTitles, some (Bytes.zero 16)⟩
        [⟨_, .call .parse⟩] (.ofView view)
      = [⟨Unit, parsed, ⟨view, .parsed titledHeaders [s]⟩⟩] ∧
    parsed.result = .ok () ∧ s.outline = (titledDescriptor, sectionView, .pfs0) ∧
    otherTitles.find? rightsId = none ∧
    (Archive.parse titledMedia ⟨named, otherTitles, none⟩).outcome (.ofView view)
      = (.error (.missingTitleKey rightsId),
        ⟨view, .sectionsResolved titledHeaders [titledDescriptor]⟩) := by
  have hrights : ∀ h, readHeaders view.region titledMedia ⟨named, .empty, none⟩ = .ok h →
      h.main.rightsId = rightsId := by
    intro h hread
    rw [readHeaders_titledView] at hread
    cases hread
    rfl
  obtain ⟨hsame, hmissing⟩ := Archive.userTitleKey_acts_as_registered hrights
  have hregistered : (otherTitles.insert rightsId (Bytes.zero 16)).find? rightsId
      = some (Bytes.zero 16) := by decide
  have hnone : otherTitles.find? rightsId = none := by decide
  obtain ⟨s, houtline, hparse⟩ := parse_titledView
  obtain ⟨hparsed, hopen⟩ := Prod.mk.inj hparse
  generalize hrun : Archive.parse titledMedia
    ⟨named, otherTitles.insert rightsId (Bytes.zero 16), none⟩ (.ofView view) = run at hparsed hopen
  obtain ⟨parsed, a⟩ := run
  cases hopen
  refine ⟨parsed, s, hrights, hregistered, ?_, hparsed, houtline, hnone, ?_⟩
  · rw [hsame hregistered]
    simp only [Archive.transcript, Archive.Operation.run, Archive.Call.run, hrun]
  · obtain ⟨e, hall, hfirst⟩ := hmissing hnone (readHeaders_titledView _ _) describe_titledHeaders
      ⟨titledDescriptor, List.mem_singleton_self _, rfl⟩
    obtain ⟨rfl, -⟩ := hfirst ⟨titledDescriptor, rfl, rfl⟩
    exact hall _ .refl

end Specimen

end Cartridge.Nca
