import Cartridge.Nca.Archive

/-!
# The steps of a content archive

An archive is read in three steps: its headers are decrypted, its sections are described, its
sections are opened (`Archive.advance`). Every operation begins by taking the steps that it needs and
that have not been taken. The steps stop at the first one that fails, so a failed call leaves the
archive where the last successful step brought it, and a later call goes on from there. What an
operation does behind the steps does not move the archive.

Results:
* `Archive.climb_preserves`: what a climb has in common with its steps.
* `Archive.rank_of_climb`, `Archive.advance_of_climb`: where a climb ends when it succeeds, and when
  it fails.
* `Archive.outcome_headers`, `Archive.outcome_resolveSections`, `Archive.outcome_parse`: the three
  operations that take steps climb to their states.
* `Archive.outcome_call`: a call climbs to its goal and does not move the archive otherwise.
-/

namespace Cartridge.Nca

theorem State.rank_injective {s t : State} (h : s.rank = t.rank) : s = t := by
  cases s <;> cases t <;> first | rfl | cases h

namespace Archive

variable {α β : Type} {media : Media} {keys : KeyStore} {a b : Archive}

/-! ## Steps -/

/-- Takes the next of the three steps. -/
def advance (media : Media) (keys : KeyStore) (a : Archive) : Except Error Archive :=
  match a.stage with
  | .unparsed => do
    let h ← readHeaders a.view.region media keys
    return ⟨a.view, .headerDecrypted h⟩
  | .headerDecrypted h => do
    let descriptors ← h.describe a.view.size
    return ⟨a.view, .sectionsResolved h descriptors⟩
  | .sectionsResolved h descriptors => do
    let sections ← ((openSections a.view media keys h.main descriptors).outcome KeyRing.empty).1
    return ⟨a.view, .parsed h sections⟩
  | .parsed _ _ => return a

/-- Takes as many steps as given. The first one that fails ends the climb and leaves the archive
where the last successful one brought it. -/
def climb (media : Media) (keys : KeyStore) : Nat → Archive → Except Error Unit × Archive
  | 0, a => (.ok (), a)
  | n + 1, a =>
    match a.advance media keys with
    | .ok b => climb media keys n b
    | .error e => (.error e, a)

/-- Climbs to a state; an archive that is there already, or further, stays. -/
def reach (media : Media) (keys : KeyStore) (goal : State) (a : Archive) :
    Except Error Unit × Archive :=
  climb media keys (goal.rank - a.state.rank) a

theorem climb_succ (media : Media) (keys : KeyStore) (n : Nat) (a : Archive) :
    climb media keys (n + 1) a = match climb media keys n a with
      | (.ok _, b) => climb media keys 1 b
      | (.error e, b) => (.error e, b) := by
  induction n generalizing a with
  | zero => rfl
  | succ n ih =>
    rw [climb, climb]
    cases a.advance media keys with
    | ok b => exact ih b
    | error e => rfl

/-- A climb that fails ends before the step that fails. -/
theorem advance_of_climb {n : Nat} {e : Error} (h : climb media keys n a = (.error e, b)) :
    b.advance media keys = .error e := by
  induction n generalizing a with
  | zero => cases h
  | succ n ih =>
    rw [climb] at h
    split at h
    · exact ih h
    · rename_i e' he
      cases h
      exact he

/-- A step goes to the next state; there is none behind the last one. -/
theorem rank_of_advance (h : a.advance media keys = .ok b) :
    b.state.rank = min (a.state.rank + 1) 3 := by
  obtain ⟨view, stage⟩ := a
  cases stage with
  | unparsed =>
    obtain ⟨h', -, hb⟩ := bind_eq_ok_iff.mp h
    cases hb
    rfl
  | headerDecrypted h' =>
    obtain ⟨descriptors, -, hb⟩ := bind_eq_ok_iff.mp h
    cases hb
    rfl
  | sectionsResolved h' descriptors =>
    obtain ⟨sections, -, hb⟩ := bind_eq_ok_iff.mp h
    cases hb
    rfl
  | parsed h' sections =>
    cases h
    rfl

/-- What every step preserves, a climb preserves, however it ends. -/
theorem climb_preserves {P : Archive → Prop}
    (hstep : ∀ {a b}, P a → a.advance media keys = .ok b → P b) (n : Nat) (ha : P a) :
    P (climb media keys n a).2 := by
  induction n generalizing a with
  | zero => exact ha
  | succ n ih =>
    rw [climb]
    cases hb : a.advance media keys with
    | error e => exact ha
    | ok b => exact ih (hstep ha hb)

theorem rank_of_climb {n : Nat} (hn : a.state.rank + n ≤ 3)
    (h : climb media keys n a = (.ok (), b)) : b.state.rank = a.state.rank + n := by
  induction n generalizing a with
  | zero =>
    cases h
    rfl
  | succ n ih =>
    rw [climb] at h
    split at h
    · rename_i a' ha
      have hrank := rank_of_advance ha
      rw [ih (by omega) h]
      omega
    · cases h

theorem rank_of_reach {goal : State} (h : reach media keys goal a = (.ok (), b)) :
    goal.rank ≤ b.state.rank := by
  have hgoal : goal.rank ≤ 3 := by cases goal <;> decide
  by_cases hle : goal.rank ≤ a.state.rank
  · unfold reach at h
    rw [Nat.sub_eq_zero_of_le hle] at h
    cases h
    exact hle
  · rw [rank_of_climb (by omega) h]
    omega

/-- Climbing one state further is climbing to the state before it and taking a step from there. -/
theorem reach_next {goal next : State} (hnext : next.rank = goal.rank + 1) (a : Archive) :
    reach media keys next a = match reach media keys goal a with
      | (.ok _, b) => if b.state = goal then climb media keys 1 b else (.ok (), b)
      | (.error e, b) => (.error e, b) := by
  have hgoal : next.rank ≤ 3 := by cases next <;> decide
  by_cases hle : a.state.rank ≤ goal.rank
  · have hclimb := climb_succ media keys (goal.rank - a.state.rank) a
    unfold reach
    rw [hnext, Nat.sub_add_comm hle, hclimb]
    split
    · rename_i b hb
      have hrank := rank_of_climb (by omega) hb
      rw [if_pos (State.rank_injective (by omega))]
    · rfl
  · unfold reach
    rw [Nat.sub_eq_zero_of_le (show next.rank ≤ a.state.rank by omega),
      Nat.sub_eq_zero_of_le (show goal.rank ≤ a.state.rank by omega)]
    have hne : a.state ≠ goal := fun h => hle (Nat.le_of_eq (congrArg State.rank h))
    exact (if_neg hne).symm

/-! ## Operations climb -/

/-- The headers, once they have been decrypted. -/
def headers? (a : Archive) : Option Headers :=
  match a.stage with
  | .unparsed => none
  | .headerDecrypted h | .sectionsResolved h _ | .parsed h _ => some h

/-- Asking for the headers climbs to where they have been decrypted and gives those. -/
theorem outcome_headers (media : Media) (keys : KeyStore) (a : Archive) :
    ∃ answer, (headers media keys).outcome a = (answer, (reach media keys .headerDecrypted a).2) ∧
      answer.map (fun _ => ()) = (reach media keys .headerDecrypted a).1 ∧
      ∀ h, answer = .ok h → (reach media keys .headerDecrypted a).2.headers? = some h := by
  obtain ⟨view, stage⟩ := a
  cases stage with
  | unparsed =>
    simp only [headers, Access.outcome_bind, Access.outcome_get, Access.outcome_liftM,
      Traced.result_liftM, reach, climb, advance, state, State.rank]
    cases readHeaders view.region media keys with
    | error e => exact ⟨.error e, rfl, rfl, fun h hh => nomatch hh⟩
    | ok h =>
      refine ⟨.ok h, rfl, rfl, fun h' hh => ?_⟩
      cases hh
      rfl
  | headerDecrypted h => exact ⟨.ok h, rfl, rfl, fun h' hh => congrArg _ (Except.ok.inj hh)⟩
  | sectionsResolved h descriptors =>
    exact ⟨.ok h, rfl, rfl, fun h' hh => congrArg _ (Except.ok.inj hh)⟩
  | parsed h sections => exact ⟨.ok h, rfl, rfl, fun h' hh => congrArg _ (Except.ok.inj hh)⟩

theorem outcome_resolveSections (a : Archive) :
    (resolveSections media keys).outcome a = reach media keys .sectionsResolved a := by
  obtain ⟨answer, hrun, hmap, -⟩ := outcome_headers media keys a
  rw [reach_next (show State.sectionsResolved.rank = State.headerDecrypted.rank + 1 from rfl)]
  unfold resolveSections
  rw [Access.outcome_bind, hrun]
  generalize reach media keys .headerDecrypted a = r at hmap ⊢
  obtain ⟨_, ⟨view, stage⟩⟩ := r
  subst hmap
  cases answer with
  | error e => rfl
  | ok h =>
    cases stage with
    | headerDecrypted h' =>
      simp only [Except.map, Access.outcome_bind, Access.outcome_get, Access.outcome_liftM,
        Traced.result_liftM, state, if_true, climb, advance]
      cases h'.describe view.size with
      | error e => rfl
      | ok descriptors => rfl
    | unparsed => rfl
    | sectionsResolved h' descriptors => rfl
    | parsed h' sections => rfl

theorem outcome_parse (a : Archive) :
    (parse media keys).outcome a = reach media keys .parsed a := by
  rw [reach_next (show State.parsed.rank = State.sectionsResolved.rank + 1 from rfl)]
  unfold parse
  rw [Access.outcome_bind, outcome_resolveSections]
  obtain ⟨_ | _, ⟨view, stage⟩⟩ := reach media keys .sectionsResolved a
  · rfl
  · cases stage with
    | sectionsResolved h descriptors =>
      simp only [Access.outcome_bind, Access.outcome_get, Access.outcome_liftM, state, if_true,
        climb, advance]
      unfold Access.outcome
      cases (openSections view media keys h.main descriptors KeyRing.empty).1.result with
      | error e => rfl
      | ok sections => rfl
    | unparsed => rfl
    | headerDecrypted h => rfl
    | parsed h sections => rfl

theorem climb_of_advance (h : a.advance media keys = .ok b) (n : Nat) :
    climb media keys (n + 1) a = climb media keys n b := by
  rw [climb, h]

theorem climb_of_advance_error {e : Error} (h : a.advance media keys = .error e) (n : Nat) :
    climb media keys (n + 1) a = (.error e, a) := by
  rw [climb, h]

/-! The three steps, by what each of them has to find. -/

theorem advance_ofView {view : View} {h : Headers}
    (hread : readHeaders view.region media keys = .ok h) :
    advance media keys (ofView view) = .ok ⟨view, .headerDecrypted h⟩ := by
  unfold advance ofView
  dsimp only
  rw [hread]
  rfl

theorem advance_headerDecrypted {view : View} {h : Headers} {ds : List Descriptor}
    (hds : h.describe view.size = .ok ds) :
    advance media keys ⟨view, .headerDecrypted h⟩ = .ok ⟨view, .sectionsResolved h ds⟩ := by
  unfold advance
  dsimp only
  rw [hds]
  rfl

theorem advance_sectionsResolved {view : View} {h : Headers} {ds : List Descriptor}
    {answer : Except Error (List Section)}
    (hopen : ((openSections view media keys h.main ds).outcome KeyRing.empty).1 = answer) :
    advance media keys ⟨view, .sectionsResolved h ds⟩
      = answer.map fun sections => ⟨view, .parsed h sections⟩ := by
  unfold advance
  dsimp only
  rw [hopen]
  cases answer <;> rfl

theorem outcome_parse_ofView {view : View} {h : Headers} {ds : List Descriptor}
    {sections : List Section} {ring : KeyRing}
    (hread : readHeaders view.region media keys = .ok h) (hds : h.describe view.size = .ok ds)
    (hopen : (openSections view media keys h.main ds).outcome KeyRing.empty
      = (.ok sections, ring)) :
    (parse media keys).outcome (ofView view) = (.ok (), ⟨view, .parsed h sections⟩) := by
  have hlast := advance_sectionsResolved (congrArg Prod.fst hopen)
  rw [outcome_parse]
  exact (climb_of_advance (advance_ofView hread) 2).trans
    ((climb_of_advance (advance_headerDecrypted hds) 1).trans (climb_of_advance hlast 0))

theorem advance_ofView_error {view : View} {e : Error}
    (hread : readHeaders view.region media keys = .error e) :
    advance media keys (ofView view) = .error e := by
  unfold advance ofView
  dsimp only
  rw [hread]
  rfl

theorem outcome_headers_ofView {view : View} {answer : Except Error Headers}
    (hread : readHeaders view.region media keys = answer) :
    (headers media keys).outcome (ofView view) = (answer, match answer with
      | .ok h => ⟨view, .headerDecrypted h⟩
      | .error _ => ofView view) := by
  simp only [headers, ofView, Access.outcome_bind, Access.outcome_get, Access.outcome_liftM,
    Traced.result_liftM, hread]
  cases answer <;> rfl

/-- Each of the three steps was taken when a view was parsed. -/
theorem steps_of_outcome_parse {view : View} {h : Headers} {sections : List Section}
    (hparse : (parse media keys).outcome (ofView view) = (.ok (), ⟨view, .parsed h sections⟩)) :
    readHeaders view.region media keys = .ok h ∧ ∃ ds, h.describe view.size = .ok ds ∧
      ((openSections view media keys h.main ds).outcome KeyRing.empty).1 = .ok sections := by
  rw [outcome_parse] at hparse
  have hclimb : climb media keys 3 (ofView view) = (.ok (), ⟨view, .parsed h sections⟩) := hparse
  cases hread : readHeaders view.region media keys with
  | error e =>
    rw [climb_of_advance_error (advance_ofView_error hread)] at hclimb
    cases hclimb
  | ok h' =>
    rw [climb_of_advance (advance_ofView hread)] at hclimb
    cases hds : h'.describe view.size with
    | error e =>
      have hstep : advance media keys ⟨view, .headerDecrypted h'⟩ = .error e := by
        unfold advance
        dsimp only
        rw [hds]
        rfl
      rw [climb_of_advance_error hstep] at hclimb
      cases hclimb
    | ok ds =>
      rw [climb_of_advance (advance_headerDecrypted hds)] at hclimb
      cases hopen : ((openSections view media keys h'.main ds).outcome KeyRing.empty).1 with
      | error e =>
        rw [climb_of_advance_error (advance_sectionsResolved hopen)] at hclimb
        cases hclimb
      | ok sections' =>
        rw [climb_of_advance (advance_sectionsResolved hopen)] at hclimb
        cases hclimb
        exact ⟨rfl, ds, hds, hopen⟩

/-- An operation climbs to a state: the archive moves as in the climb, and the operation fails where
the climb does. -/
structure ClimbsTo (media : Media) (keys : KeyStore) (goal : State) (x : Access Archive α) :
    Prop where
  state_eq : ∀ a, (x.outcome a).2 = (reach media keys goal a).2
  fails : ∀ {a e}, (reach media keys goal a).1 = .error e → (x.outcome a).1 = .error e

/-- What follows a climb may read the archive, and fail, as long as it does not move it. -/
theorem ClimbsTo.bind {goal : State} {x : Access Archive α} {f : α → Access Archive β}
    (hx : ClimbsTo media keys goal x) (hf : ∀ v b, ((f v).outcome b).2 = b) :
    ClimbsTo media keys goal (x >>= f) := by
  constructor
  · intro a
    rw [Access.outcome_bind, ← hx.state_eq]
    obtain ⟨_ | v, b⟩ := x.outcome a
    · rfl
    · exact hf v b
  · intro a e he
    have hxa := hx.fails he
    rw [Access.outcome_bind]
    generalize x.outcome a = r at hxa ⊢
    obtain ⟨_, b⟩ := r
    cases hxa
    rfl

theorem ClimbsTo.apply {goal : State} {x : Access Archive α} (hx : ClimbsTo media keys goal x)
    (a : Archive) : (x.outcome a).2 = (reach media keys goal a).2 ∧
      ∀ e, (reach media keys goal a).1 = .error e → (x.outcome a).1 = .error e :=
  ⟨hx.state_eq a, fun _ he => hx.fails he⟩

theorem climbsTo_headers : ClimbsTo media keys .headerDecrypted (headers media keys) := by
  constructor
  · intro a
    obtain ⟨answer, hrun, -, -⟩ := outcome_headers media keys a
    rw [hrun]
  · intro a e he
    obtain ⟨answer, hrun, hmap, -⟩ := outcome_headers media keys a
    rw [he] at hmap
    rw [hrun]
    cases answer with
    | error e' =>
      cases hmap
      rfl
    | ok h => cases hmap

theorem climbsTo_resolveSections :
    ClimbsTo media keys .sectionsResolved (resolveSections media keys) :=
  ⟨fun a => by rw [outcome_resolveSections], fun he => by rw [outcome_resolveSections, he]⟩

theorem climbsTo_parse : ClimbsTo media keys .parsed (parse media keys) :=
  ⟨fun a => by rw [outcome_parse], fun he => by rw [outcome_parse, he]⟩

theorem climbsTo_descriptors :
    ClimbsTo media keys .sectionsResolved (descriptors media keys) := by
  refine climbsTo_resolveSections.bind fun _ b => ?_
  obtain ⟨view, stage⟩ := b
  cases stage <;> rfl

theorem climbsTo_sections : ClimbsTo media keys .parsed (sections media keys) := by
  refine climbsTo_parse.bind fun _ b => ?_
  obtain ⟨view, stage⟩ := b
  cases stage <;> rfl

theorem climbsTo_sectionAt (index : Nat) :
    ClimbsTo media keys .parsed (sectionAt media keys index) := by
  refine climbsTo_sections.bind fun all b => ?_
  cases all.find? fun s => s.descriptor.index == index <;> rfl

/-- A name that is no number is refused before anything is read. -/
theorem climbsTo_openFile (name : String) :
    ClimbsTo media keys (if (indexOfName? name).isSome then .parsed else .unparsed)
      (openFile media keys name) := by
  unfold openFile
  cases indexOfName? name with
  | none =>
    show ClimbsTo media keys .unparsed (Access.fail (.entryNotFound name))
    have hstay (a : Archive) : reach media keys .unparsed a = (.ok (), a) := by
      unfold reach
      rw [State.rank, Nat.zero_sub, climb]
    constructor
    · intro a
      rw [hstay, Access.outcome_fail]
    · intro a e he
      rw [hstay] at he
      cases he
  | some index => exact (climbsTo_sectionAt index).bind fun _ _ => rfl

/-! ## Calls -/

/-- The calls on an archive, by the type of what they answer. The accessors of single header fields
and of single properties of the descriptors are calls that read these off. -/
inductive Call : Type → Type 1 where
  | isValid : Call Bool
  | headers {α : Type} (read : Headers → α) : Call α
  | resolveSections : Call Unit
  | descriptors {α : Type} (read : List Descriptor → α) : Call α
  | parse : Call Unit
  | sections : Call (List Section)
  | sectionAt (index : Nat) : Call Section
  | listFiles : Call (List String)
  | openFile (name : String) : Call View

namespace Call

/-- Makes a call. -/
def run (media : Media) (keys : KeyStore) {α : Type} : Call α → Access Archive α
  | isValid => Archive.isValid media keys
  | headers read => do
    let h ← Archive.headers media keys
    return read h
  | resolveSections => Archive.resolveSections media keys
  | descriptors read => do
    let all ← Archive.descriptors media keys
    return read all
  | parse => Archive.parse media keys
  | sections => Archive.sections media keys
  | sectionAt index => Archive.sectionAt media keys index
  | listFiles => Archive.listFiles media keys
  | openFile name => Archive.openFile media keys name

/-- How far an archive has to be read for a call. A name that is no number is refused at once. -/
def goal {α : Type} : Call α → State
  | isValid | headers _ => .headerDecrypted
  | resolveSections | descriptors _ => .sectionsResolved
  | openFile name => if (indexOfName? name).isSome then .parsed else .unparsed
  | parse | sections | sectionAt _ | listFiles => .parsed

/-- What a call answers if a step on the way to its goal fails. -/
def refusal {α : Type} : Call α → Error → Except Error α
  | isValid, _ => .ok false
  | headers _, e | resolveSections, e | descriptors _, e | parse, e | sections, e | sectionAt _, e
  | listFiles, e | openFile _, e => .error e

end Call

/-- **A call climbs to its goal** and does not move the archive otherwise. -/
theorem outcome_call (media : Media) (keys : KeyStore) (c : Call α) (a : Archive) :
    ((c.run media keys).outcome a).2 = (reach media keys c.goal a).2 ∧
    ∀ e, (reach media keys c.goal a).1 = .error e →
      ((c.run media keys).outcome a).1 = c.refusal e := by
  cases c with
  | isValid =>
    obtain ⟨hstate, hfails⟩ := climbsTo_headers.apply a
    refine ⟨hstate, ?_⟩
    intro e he
    have hfail : (headers media keys a).1.result = .error e := hfails e he
    show Except.ok (headers media keys a).1.result.toBool = Except.ok false
    rw [hfail]
    rfl
  | headers read => exact (climbsTo_headers.bind fun _ _ => rfl).apply a
  | resolveSections => exact climbsTo_resolveSections.apply a
  | descriptors read => exact (climbsTo_descriptors.bind fun _ _ => rfl).apply a
  | parse => exact climbsTo_parse.apply a
  | sections => exact climbsTo_sections.apply a
  | sectionAt index => exact (climbsTo_sectionAt index).apply a
  | listFiles => exact (climbsTo_sections.bind fun _ _ => rfl).apply a
  | openFile name => exact (climbsTo_openFile name).apply a

end Archive

end Cartridge.Nca
