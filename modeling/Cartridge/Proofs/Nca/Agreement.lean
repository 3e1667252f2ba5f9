import Cartridge.Proofs.Nca.Placement
import Cartridge.Proofs.Nca.Retry

/-!
# Archives under two key stores

An archive asks its store for the header key, then for the key of its key area, and for its title key
if it has a rights ID. Two stores that answer these alike (`Agree`) cannot be told apart by anything
that is done to the archive: every operation gives the same answer with the same events and leaves
the same archive behind, whichever of the two is at hand.

What has to be asked depends on how far the archive has been read, so the condition is one on archives
(`Archive.ServedAlike`). It is kept by the steps that an archive takes.

Results:
* `openSections_congr`: opening sections under stores that agree.
* `Archive.ServedAlike.of_advance`: a step keeps the condition.
* `Archive.Operation.run_congr`: an operation under stores that agree.
* `Archive.transcript_congr`: a sequence of operations under stores that agree.
-/

namespace Cartridge

variable {media : Media} {keys keys' : KeyStore}

/-! ## Detection -/

theorem Format.detectBytes_congr (hkey : keys'.headerKey? = keys.headerKey?) (head : List UInt8) :
    detectBytes head keys' = detectBytes head keys := by
  unfold detectBytes isArchive
  rw [hkey]

theorem Format.detect_congr (hkey : keys'.headerKey? = keys.headerKey?) (region : Region) :
    detect region media keys' = detect region media keys := by
  unfold detect
  simp only [detectBytes_congr hkey]

namespace Nca

/-! ## Keys of sections -/

/-- Two stores give an archive with the given header the same key area, and the same title key if it
has a rights ID. -/
structure Agree (main : Header) (keys keys' : KeyStore) : Prop where
  area : KeyRing.readArea main keys' = KeyRing.readArea main keys
  title : main.hasRightsId = true → KeyRing.readTitle main keys' = KeyRing.readTitle main keys

/-- A protection with the title key occurs only where there is a rights ID. -/
def Protection.Suits (main : Header) (p : Protection) : Prop :=
  p = .titleCounter → main.hasRightsId = true

theorem Protection.suits_resolve (main : Header) (encryption : EncryptionType) :
    (Protection.resolve encryption main.hasRightsId).Suits main := by
  unfold Suits resolve
  cases encryption with
  | counter =>
    cases main.hasRightsId with
    | true => exact fun _ => rfl
    | false => exact fun h => nomatch h
  | _ => exact fun h => nomatch h

theorem Headers.suits_of_describe {h : Headers} {archiveSize : Nat} {ds : List Descriptor}
    (hds : h.describe archiveSize = .ok ds) : ∀ d ∈ ds, d.protection.Suits h.main := by
  obtain ⟨-, -, rfl⟩ := Headers.describe_eq_ok_iff.mp hds
  intro d hd
  obtain ⟨p, -, rfl⟩ := List.mem_map.mp hd
  exact Protection.suits_resolve h.main p.header.encryption

variable {main : Header}

theorem KeyRing.sectionKey_congr (h : Agree main keys keys') {p : Protection} (hp : p.Suits main) :
    sectionKey main keys' p = sectionKey main keys p := by
  cases p with
  | plain => rfl
  | unsupported encryption => rfl
  | xts =>
    unfold sectionKey forceArea
    rw [h.area]
  | counter =>
    unfold sectionKey forceArea
    rw [h.area]
  | titleCounter =>
    unfold sectionKey forceTitle
    rw [h.title (hp rfl)]

/-! ## Sections -/

variable {archive : View}

theorem openSection_congr (hkey : keys'.headerKey? = keys.headerKey?) (h : Agree main keys keys')
    {d : Descriptor} (hd : d.protection.Suits main) :
    openSection archive media keys' main d = openSection archive media keys main d := by
  unfold openSection
  simp only [KeyRing.sectionKey_congr h hd, Format.detect_congr hkey]

/-- **Opening sections under stores that agree** is the same, whatever has been decrypted before. -/
theorem openSections_congr (hkey : keys'.headerKey? = keys.headerKey?) (h : Agree main keys keys')
    {ds : List Descriptor} (hds : ∀ d ∈ ds, d.protection.Suits main) :
    openSections archive media keys' main ds = openSections archive media keys main ds := by
  induction ds with
  | nil => rfl
  | cons d rest ih =>
    obtain ⟨hd, hrest⟩ := List.forall_mem_cons.mp hds
    unfold openSections
    rw [ih hrest, openSection_congr hkey h hd]

namespace Archive

variable {α : Type} {a b : Archive}

/-! ## Archives -/

/-- Two stores answer alike what an archive has still to ask for. -/
def ServedAlike (media : Media) (keys keys' : KeyStore) (a : Archive) : Prop :=
  match a.stage with
  | .unparsed => ∀ h, readHeaders a.view.region media keys = .ok h → Agree h.main keys keys'
  | .headerDecrypted h => Agree h.main keys keys'
  | .sectionsResolved h ds => Agree h.main keys keys' ∧ ∀ d ∈ ds, d.protection.Suits h.main
  | .parsed _ _ => True

theorem servedAlike_of_parsed (ha : a.state = .parsed) : ServedAlike media keys keys' a := by
  obtain ⟨h, sections, hstage⟩ := exists_stage_of_parsed ha
  unfold ServedAlike
  rw [hstage]
  trivial

theorem ServedAlike.of_advance (ha : ServedAlike media keys keys' a)
    (hab : a.advance media keys = .ok b) : ServedAlike media keys keys' b := by
  obtain ⟨view, stage⟩ := a
  cases stage with
  | unparsed =>
    obtain ⟨h, hread, hb⟩ := bind_eq_ok_iff.mp hab
    cases hb
    exact ha h hread
  | headerDecrypted h =>
    obtain ⟨ds, hds, hb⟩ := bind_eq_ok_iff.mp hab
    cases hb
    exact ⟨ha, Headers.suits_of_describe hds⟩
  | sectionsResolved h ds =>
    obtain ⟨sections, -, hb⟩ := bind_eq_ok_iff.mp hab
    cases hb
    exact servedAlike_of_parsed rfl
  | parsed h sections =>
    cases hab
    exact ha

theorem ServedAlike.reach (ha : ServedAlike media keys keys' a) (goal : State) :
    ServedAlike media keys keys' (reach media keys goal a).2 :=
  climb_preserves ServedAlike.of_advance _ ha

/-! ## Calls -/

theorem headers_congr (hkey : keys'.headerKey? = keys.headerKey?) :
    headers media keys' = headers media keys := by
  unfold headers
  simp only [readHeaders_congr hkey]

theorem resolveSections_congr (hkey : keys'.headerKey? = keys.headerKey?) :
    resolveSections media keys' = resolveSections media keys := by
  unfold resolveSections
  rw [headers_congr hkey]

/-- Parsing is where the keys of sections are asked for. -/
theorem parse_congr (hkey : keys'.headerKey? = keys.headerKey?)
    (ha : ServedAlike media keys keys' a) : parse media keys' a = parse media keys a := by
  have hreach : ServedAlike media keys keys' (resolveSections media keys a).2 := by
    show ServedAlike media keys keys' ((resolveSections media keys).outcome a).2
    rw [outcome_resolveSections]
    exact ha.reach .sectionsResolved
  unfold parse
  rw [resolveSections_congr hkey]
  refine Access.bind_congr_at rfl fun _ _ => ?_
  generalize (resolveSections media keys a).2 = b at hreach
  refine Access.bind_congr_at rfl fun c hc => ?_
  cases hc
  obtain ⟨view, stage⟩ := b
  cases stage with
  | sectionsResolved h ds =>
    dsimp only
    rw [openSections_congr hkey hreach.1 hreach.2]
  | unparsed => rfl
  | headerDecrypted h => rfl
  | parsed h sections => rfl

theorem sections_congr (hkey : keys'.headerKey? = keys.headerKey?)
    (ha : ServedAlike media keys keys' a) : sections media keys' a = sections media keys a := by
  unfold sections
  exact Access.bind_congr_at (parse_congr hkey ha) fun _ _ => rfl

theorem sectionAt_congr (hkey : keys'.headerKey? = keys.headerKey?)
    (ha : ServedAlike media keys keys' a) (index : Nat) :
    sectionAt media keys' index a = sectionAt media keys index a := by
  unfold sectionAt
  exact Access.bind_congr_at (sections_congr hkey ha) fun _ _ => rfl

theorem openFile_congr (hkey : keys'.headerKey? = keys.headerKey?)
    (ha : ServedAlike media keys keys' a) (name : String) :
    openFile media keys' name a = openFile media keys name a := by
  unfold openFile
  cases indexOfName? name with
  | none => rfl
  | some index => exact Access.bind_congr_at (sectionAt_congr hkey ha index) fun _ _ => rfl

theorem Call.run_congr (hkey : keys'.headerKey? = keys.headerKey?)
    (ha : ServedAlike media keys keys' a) (c : Call α) :
    c.run media keys' a = c.run media keys a := by
  cases c with
  | isValid =>
    unfold run Archive.isValid
    rw [headers_congr hkey]
  | headers read =>
    unfold run
    rw [headers_congr hkey]
  | resolveSections => exact congrFun (resolveSections_congr hkey) a
  | descriptors read =>
    unfold run Archive.descriptors
    rw [resolveSections_congr hkey]
  | parse => exact parse_congr hkey ha
  | sections => exact sections_congr hkey ha
  | sectionAt index => exact sectionAt_congr hkey ha index
  | listFiles => exact Access.bind_congr_at (sections_congr hkey ha) fun _ _ => rfl
  | openFile name => exact openFile_congr hkey ha name

/-! ## Sequences of operations -/

/-- What can be done to an archive, by the type of what is answered: a call, a read of the bytes that a
section shows, or an operation on the filesystem of a section. -/
inductive Operation : Type → Type 1 where
  | call {α : Type} (c : Call α) : Operation α
  | readSection (index offset length : Nat) : Operation (List UInt8)
  | onSection {α : Type} (index : Nat) (operation : Access SectionFilesystem α) : Operation α

namespace Operation

/-- Carries out an operation. -/
def run (media : Media) (keys : KeyStore) {α : Type} : Operation α → Access Archive α
  | call c => c.run media keys
  | readSection index offset length => do
    let s ← sectionAt media keys index
    (s.view.readAt media offset length : Traced (List UInt8))
  | onSection index operation => Archive.onSection media keys index operation

theorem run_congr (hkey : keys'.headerKey? = keys.headerKey?)
    (ha : ServedAlike media keys keys' a) (x : Operation α) :
    x.run media keys' a = x.run media keys a := by
  cases x with
  | call c => exact c.run_congr hkey ha
  | readSection index offset length =>
    exact Access.bind_congr_at (sectionAt_congr hkey ha index) fun _ _ => rfl
  | onSection index operation =>
    exact Access.bind_congr_at (sectionAt_congr hkey ha index) fun _ _ => rfl

end Operation

theorem ServedAlike.operation (ha : ServedAlike media keys keys' a) (x : Operation α) :
    ServedAlike media keys keys' (x.run media keys a).2 := by
  show ServedAlike media keys keys' ((x.run media keys).outcome a).2
  cases x with
  | call c =>
    rw [Operation.run, (outcome_call media keys c a).1]
    exact ha.reach c.goal
  | readSection index offset length =>
    rw [Operation.run, ((climbsTo_sectionAt index).bind fun _ _ => rfl).state_eq]
    exact ha.reach .parsed
  | onSection index operation =>
    by_cases hparsed : ((onSection media keys index operation).outcome a).2.state = .parsed
    · exact servedAlike_of_parsed hparsed
    · rw [Operation.run, onSection_eq_reach hparsed]
      exact ha.reach .parsed

/-- What a sequence of operations shows: of each its answer with the events, and the archive that it
leaves behind. -/
def transcript (media : Media) (keys : KeyStore) :
    List (Σ α : Type, Operation α) → Archive → List (Σ α : Type, Traced α × Archive)
  | [], _ => []
  | ⟨α, x⟩ :: rest, a =>
    ⟨α, x.run media keys a⟩ :: transcript media keys rest (x.run media keys a).2

/-- **Stores that agree cannot be told apart** by any sequence of operations. -/
theorem transcript_congr (hkey : keys'.headerKey? = keys.headerKey?)
    (ha : ServedAlike media keys keys' a) (operations : List (Σ α : Type, Operation α)) :
    transcript media keys' operations a = transcript media keys operations a := by
  induction operations generalizing a with
  | nil => rfl
  | cons x rest ih =>
    obtain ⟨α, x⟩ := x
    rw [transcript, transcript, x.run_congr hkey ha, ih (ha.operation x)]

end Archive

end Nca

end Cartridge
