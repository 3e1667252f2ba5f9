import Cartridge.Proofs.Nca.Progress

/-!
# Trying again

When a key is missing, it can be registered and the call be made again. That is as good as starting
over: the archive has kept what earlier steps found, and finding it anew would give the same, since
the media have not changed and the first two steps depend on no key but the header key. Nothing is
kept of a step that failed. So an archive whose sections are not open yet is where taking its steps
anew, with the keys of now, would lead (`Archive.Retraced`).

Results:
* `Archive.Retraced.of_advance`, `Archive.Retraced.of_headerKey`: a step keeps this, and so does a
  change of any key but the header key.
* `Session.retraced`: a session keeps this for as long as the sections are not open.
* `Session.Reaches.parse_eq_fresh`: parsing an archive at the end of a session is parsing it afresh.
-/

namespace Cartridge.Nca

section Retrying

variable {media : Media} {keys keys' : KeyStore} {view : View}

/-- The headers depend on no key but the header key. -/
theorem readHeaders_congr (h : keys'.headerKey? = keys.headerKey?) (region : Region) :
    readHeaders region media keys' = readHeaders region media keys := by
  unfold readHeaders
  rw [h]

namespace Archive

variable {a b : Archive}

/-! ## Steps taken anew -/

theorem climb_add (media : Media) (keys : KeyStore) (m n : Nat) (a : Archive) :
    climb media keys (m + n) a = match climb media keys m a with
      | (.ok _, b) => climb media keys n b
      | (.error e, b) => (.error e, b) := by
  induction m generalizing a with
  | zero => rw [Nat.zero_add, climb]
  | succ m ih =>
    rw [Nat.succ_add, climb, climb]
    cases a.advance media keys with
    | ok b => exact ih b
    | error e => rfl

/-- A step that does not open the sections depends on no key but the header key. -/
theorem advance_congr (h : keys'.headerKey? = keys.headerKey?)
    (ha : a.state.rank < State.sectionsResolved.rank) :
    a.advance media keys' = a.advance media keys := by
  obtain ⟨view, stage⟩ := a
  cases stage with
  | unparsed =>
    unfold advance
    dsimp only
    rw [readHeaders_congr h]
  | headerDecrypted h => rfl
  | sectionsResolved h ds => exact absurd ha (Nat.lt_irrefl _)
  | parsed h sections => exact absurd ha (show ¬ 3 < 2 by decide)

theorem climb_congr (h : keys'.headerKey? = keys.headerKey?) {n : Nat}
    (hn : a.state.rank + n ≤ State.sectionsResolved.rank) :
    climb media keys' n a = climb media keys n a := by
  induction n generalizing a with
  | zero => rfl
  | succ n ih =>
    rw [climb, climb, advance_congr h (by omega)]
    split
    · rename_i b hb
      have hrank := rank_of_advance hb
      exact ih (by omega)
    · rfl

/-- An archive is where as many steps from the start lead as it has taken. -/
def Retraced (media : Media) (keys : KeyStore) (view : View) (a : Archive) : Prop :=
  climb media keys a.state.rank (ofView view) = (.ok (), a)

theorem retraced_ofView (media : Media) (keys : KeyStore) (view : View) :
    Retraced media keys view (ofView view) := rfl

theorem Retraced.of_advance (ha : Retraced media keys view a)
    (hab : a.advance media keys = .ok b) : Retraced media keys view b := by
  have hrank := rank_of_advance hab
  by_cases hparsed : a.state = .parsed
  · obtain ⟨h, sections, hstage⟩ := exists_stage_of_parsed hparsed
    unfold advance at hab
    rw [hstage] at hab
    cases hab
    exact ha
  · have hlt : a.state.rank < 3 := by
      cases hstate : a.state with
      | parsed => exact absurd hstate hparsed
      | unparsed => decide
      | headerDecrypted => decide
      | sectionsResolved => decide
    unfold Retraced at ha ⊢
    rw [hrank, Nat.min_eq_left (by omega), climb_succ, ha]
    exact climb_of_advance hab 0

theorem Retraced.reach (ha : Retraced media keys view a) (goal : State) :
    Retraced media keys view (reach media keys goal a).2 :=
  climb_preserves Retraced.of_advance _ ha

/-- Where an archive is whose sections are not open depends on no key but the header key, and not
even on that while nothing has been read. -/
theorem Retraced.of_headerKey (ha : Retraced media keys view a) (hopen : a.state ≠ .parsed)
    (h : a.state ≠ .unparsed → keys'.headerKey? = keys.headerKey?) :
    Retraced media keys' view a := by
  by_cases hstart : a.state = .unparsed
  · unfold Retraced at ha ⊢
    rw [hstart] at ha ⊢
    exact ha
  · have hrank : a.state.rank ≤ State.sectionsResolved.rank := by
      cases hstate : a.state with
      | parsed => exact absurd hstate hopen
      | unparsed => decide
      | headerDecrypted => decide
      | sectionsResolved => decide
    unfold Retraced at ha ⊢
    rw [climb_congr (h hstart) (by rw [show (ofView view).state.rank = 0 from rfl]; omega)]
    exact ha

/-- **Parsing goes on where the steps before have led**, so that it ends as if it had taken them. -/
theorem Retraced.outcome_parse (ha : Retraced media keys view a) :
    (parse media keys).outcome a = (parse media keys).outcome (ofView view) := by
  have hle : a.state.rank ≤ State.parsed.rank := by cases a.state <;> decide
  have hclimb := climb_add media keys a.state.rank (State.parsed.rank - a.state.rank) (ofView view)
  rw [Nat.add_sub_cancel' hle, show climb media keys a.state.rank (ofView view) = (.ok (), a) from ha]
    at hclimb
  rw [Archive.outcome_parse, Archive.outcome_parse]
  exact hclimb.symm

/-- The sections are those that parsing has opened. -/
theorem outcome_sections_of_parse {h : Headers} {opened : List Section}
    (hparse : (parse media keys).outcome a = (.ok (), ⟨view, .parsed h opened⟩)) :
    (sections media keys).outcome a = (.ok opened, ⟨view, .parsed h opened⟩) := by
  unfold sections
  rw [Access.outcome_bind, hparse]
  rfl

/-! ## What steps do before the sections are open -/

theorem state_setFilesystem (index : Nat) (filesystem : SectionFilesystem) (a : Archive) :
    ((setFilesystem index filesystem).outcome a).2.state = a.state := by
  obtain ⟨view, stage⟩ := a
  cases stage <;> rfl

/-- Operating on a section's filesystem is a climb, as long as the sections are not open. -/
theorem onSection_eq_reach {α : Type} {index : Nat} {operation : Access SectionFilesystem α}
    (hb : ((onSection media keys index operation).outcome a).2.state ≠ .parsed) :
    ((onSection media keys index operation).outcome a).2 = (reach media keys .parsed a).2 := by
  rw [← (climbsTo_sectionAt index).state_eq]
  unfold onSection at hb ⊢
  rw [Access.outcome_bind] at hb ⊢
  generalize hrun : (sectionAt media keys index).outcome a = r at hb ⊢
  obtain ⟨_ | s, c⟩ := r
  · rfl
  · obtain ⟨h, sections, hstage, -, -⟩ := outcome_sectionAt_ok hrun
    refine absurd ?_ hb
    have hstate := state_setFilesystem index (operation s.filesystem).2 c
    rw [← Access.state_bind_liftM _ (operation s.filesystem).1] at hstate
    refine hstate.trans ?_
    unfold state
    rw [hstage]

/-- Whatever happens to an archive is a climb, as long as its sections are not open. -/
theorem Step.eq_reach (h : Step media keys a b) (hb : b.state ≠ .parsed) :
    ∃ goal, b = (reach media keys goal a).2 := by
  cases h with
  | call c a => exact ⟨c.goal, (outcome_call media keys c a).1⟩
  | operate index operation hkind a => exact ⟨.parsed, onSection_eq_reach hb⟩

end Archive

/-! ## Sessions -/

open Archive

/-- An archive and the keys of the moment. -/
structure Session where
  archive : Archive
  keys : KeyStore

/-- What can happen in a session while the media stay as they are: something to the archive under the
keys of the moment, or a change of keys, to which the header key belongs only until the headers have
been decrypted. -/
inductive Session.Step (media : Media) : Session → Session → Prop where
  | archive {a b : Archive} {keys : KeyStore} (h : Archive.Step media keys a b) :
    Step media ⟨a, keys⟩ ⟨b, keys⟩
  | keys {a : Archive} {keys keys' : KeyStore}
    (h : a.state ≠ .unparsed → keys'.headerKey? = keys.headerKey?) :
    Step media ⟨a, keys⟩ ⟨a, keys'⟩

/-- What can become of a session while the media stay as they are. -/
def Session.Reaches (media : Media) : Session → Session → Prop :=
  Relation.ReflTransGen (Session.Step media)

namespace Session

variable {s t : Session}

/-- Opened sections stay open. -/
theorem Step.state_parsed (h : Step media s t) (ht : t.archive.state ≠ .parsed)
    (hs : s.archive.Consistent) : s.archive.state ≠ .parsed := by
  intro hparsed
  cases h with
  | keys => exact ht hparsed
  | @archive a b keys h =>
    have hrank := (h.keeps hs).2.rank_le
    rw [show a.state = .parsed from hparsed] at hrank
    refine ht (State.rank_injective ?_)
    have hle : b.state.rank ≤ State.parsed.rank := by cases b.state <;> decide
    exact Nat.le_antisymm hle hrank

/-- **An archive whose sections are not open is where its steps, taken anew, would lead.** -/
theorem retraced (h : Reaches media ⟨.ofView view, keys⟩ s) :
    s.archive.Consistent ∧
      (s.archive.state ≠ .parsed → Retraced media s.keys view s.archive) := by
  induction h with
  | refl => exact ⟨trivial, fun _ => retraced_ofView media keys view⟩
  | @tail s t _ hstep ih =>
    obtain ⟨hcons, hretraced⟩ := ih
    have hback (ht : t.archive.state ≠ .parsed) := hretraced (hstep.state_parsed ht hcons)
    cases hstep with
    | keys h => exact ⟨hcons, fun ht => (hback ht).of_headerKey ht h⟩
    | archive h =>
      refine ⟨(h.keeps hcons).1, fun ht => ?_⟩
      obtain ⟨goal, rfl⟩ := h.eq_reach ht
      exact (hback ht).reach goal

/-- **Registering a key and trying again is as good as starting over.** At the end of any session
with an archive over media that do not change, in which the header key was not changed once the
headers had been decrypted, if the sections are not open: parsing answers what it answers for an
archive of which nothing has been read, with the keys of now, and leaves the same archive behind; and
asking for the sections gives the same sections or the same error. -/
theorem Reaches.parse_eq_fresh (h : Reaches media ⟨.ofView view, keys⟩ s)
    (hs : s.archive.state ≠ .parsed) :
    (parse media s.keys).outcome s.archive = (parse media s.keys).outcome (.ofView view) ∧
    (sections media s.keys).outcome s.archive = (sections media s.keys).outcome (.ofView view) := by
  have hparse := ((retraced h).2 hs).outcome_parse
  refine ⟨hparse, ?_⟩
  unfold sections
  rw [Access.outcome_bind, Access.outcome_bind, hparse]

end Session

end Retrying

namespace Specimen

open Archive

/-- The header key alone. -/
def headerKeys : KeyStore :=
  ⟨⟨[(KeyStore.headerKeyName, .double (Bytes.zero 32))], by decide⟩, .empty, none⟩

/-- The specimen, first parsed with the header key alone, which decrypts the headers, and then with
the key of its key area. -/
theorem parse_eq_fresh_specimen : ∃ (a : Archive) (s : Section),
    (Archive.parse media headerKeys).outcome (.ofView view)
      = (.error (.missingAreaKey (KeyStore.areaKeyName .application 0)), a) ∧
    Session.Reaches media ⟨.ofView view, headerKeys⟩ ⟨a, keys⟩ ∧
    a.state = .sectionsResolved ∧
    (Archive.parse media keys).outcome a = (.ok (), ⟨view, .parsed headers [s]⟩) ∧
    (Archive.sections media keys).outcome a = (.ok [s], ⟨view, .parsed headers [s]⟩) := by
  have hheader : headerKeys.headerKey? = keys.headerKey? := rfl
  have hread : readHeaders view.region media headerKeys = .ok headers :=
    (readHeaders_congr hheader _).trans readHeaders_view
  have hopen : ((openSections view media headerKeys headers.main [descriptor]).outcome
      KeyRing.empty).1 = .error (.missingAreaKey (KeyStore.areaKeyName .application 0)) := rfl
  have hfail : (Archive.parse media headerKeys).outcome (.ofView view)
      = (.error (.missingAreaKey (KeyStore.areaKeyName .application 0)),
        ⟨view, .sectionsResolved headers [descriptor]⟩) := by
    have hds : headers.describe view.size = .ok [descriptor] := describe_headers
    rw [Archive.outcome_parse]
    exact (climb_of_advance (advance_ofView hread) 2).trans
      ((climb_of_advance (advance_headerDecrypted hds) 1).trans
        (climb_of_advance_error (advance_sectionsResolved hopen) 0))
  have hsession : Session.Reaches media ⟨.ofView view, headerKeys⟩
      ⟨⟨view, .sectionsResolved headers [descriptor]⟩, keys⟩ := by
    have hfirst : Archive.Step media headerKeys (.ofView view)
        ((Archive.parse media headerKeys).outcome (.ofView view)).2 := .call .parse _
    rw [hfail] at hfirst
    exact (Relation.ReflTransGen.single (.archive hfirst)).tail (.keys fun _ => hheader.symm)
  obtain ⟨s, -, hparse⟩ := parse_view
  have hopened : (⟨view, .sectionsResolved headers [descriptor]⟩ : Archive).state ≠ .parsed := by
    decide
  obtain ⟨hagain, hsections⟩ := Session.Reaches.parse_eq_fresh hsession hopened
  exact ⟨_, s, hfail, hsession, rfl, hagain.trans hparse,
    hsections.trans (outcome_sections_of_parse hparse)⟩

end Specimen

end Cartridge.Nca
