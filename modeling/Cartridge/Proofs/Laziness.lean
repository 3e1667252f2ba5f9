import Cartridge.Proofs.Likeness

/-!
# Containers that are read when they are first needed

A container is a view and a slot for the tables that are read from it. Some calls ask for the tables,
and the first of them reads them; others only look at the view. The media may change between the calls
in any way, bytes and failures alike.

A kind of containers is given by its parts and its calls (`LazyKind`), and owes what each call does to a
container that has been read and to one that has not (`LazyKind.Lawful`). What follows for whole
sequences of calls is proved here once, for every kind.

Results:
* `Lazy.Asks.bind`: an operation that begins by asking for the tables asks for them.
* `LazyKind.Lawful.after_eq_fresh`: failed attempts leave a container as new.
* `LazyKind.Lawful.after_eq_build`: the first successful attempt fixes the tables.
* `LazyKind.Lawful.atomic`: what holds of every sequence of calls.
-/

namespace Cartridge

/-! ## Operations that change nothing -/

namespace Access

variable {σ α β : Type} {x : Access σ α} {f : α → Access σ β} {s : σ}

/-- An operation leaves a state as it is. -/
def Idle (x : Access σ α) (s : σ) : Prop := (x.outcome s).2 = s

instance : LawfulMonad (Access σ) :=
  LawfulMonad.mk' _
    (fun x => by
      funext s
      show (x >>= fun a => pure a) s = x s
      rw [run_bind]
      obtain ⟨⟨_ | _, _⟩, _⟩ := x s
      · rfl
      · simp [pure, Access.pure, Traced.pure])
    (fun a f => by
      funext s
      rw [run_bind]
      rfl)
    (fun x f g => by
      funext s
      rw [run_bind, run_bind, run_bind]
      obtain ⟨⟨_ | a, _⟩, s'⟩ := x s
      · rfl
      · dsimp only
        rw [run_bind]
        obtain ⟨⟨_ | _, _⟩, _⟩ := f a s'
        · rfl
        · simp only [List.append_assoc])

theorem idle_pure (a : α) (s : σ) : (pure a : Access σ α).Idle s := rfl

theorem idle_liftM (t : Traced α) (s : σ) : (liftM t : Access σ α).Idle s := rfl

theorem Idle.bind (hx : x.Idle s) (hf : ∀ a, (f a).Idle s) : (x >>= f).Idle s := by
  unfold Idle at hx ⊢
  rw [outcome_bind]
  generalize x.outcome s = r at hx
  obtain ⟨_ | a, s'⟩ := r
  · exact hx
  · cases hx
    exact hf a

end Access

/-! ## A view and a slot -/

/-- Containers of type `σ` that hold a view, and tables of type `τ` once they have been read from it. -/
structure Lazy (σ τ : Type) where
  view : σ → View
  slot : σ → Slot τ
  build : View → Slot τ → σ
  /-- Reads the tables. -/
  read : View → Media → Traced τ
  view_build : ∀ v s, view (build v s) = v
  slot_build : ∀ v s, slot (build v s) = s
  build_view_slot : ∀ c, build (view c) (slot c) = c

namespace Lazy

variable {σ τ α β : Type} {L : Lazy σ τ} {media media' : Media} {c : σ} {v : View} {t : τ} {e : Error}

/-- A container that has not been read. -/
def fresh (L : Lazy σ τ) (v : View) : σ := L.build v .unparsed

/-- A container that has been read. -/
def parsed (L : Lazy σ τ) (v : View) (t : τ) : σ := L.build v (.parsed t)

/-- The tables, read if that has not been done. -/
def force (L : Lazy σ τ) (media : Media) : Access σ τ := fun c =>
  let (answer, slot) := Slot.force (fun _ => L.read (L.view c) media) (L.slot c)
  (answer, L.build (L.view c) slot)

theorem fresh_or_parsed (L : Lazy σ τ) (c : σ) :
    (∃ v, c = L.fresh v) ∨ ∃ v t, c = L.parsed v t := by
  have hc := L.build_view_slot c
  cases hslot : L.slot c with
  | unparsed =>
    rw [hslot] at hc
    exact .inl ⟨_, hc.symm⟩
  | parsed t =>
    rw [hslot] at hc
    exact .inr ⟨_, t, hc.symm⟩

@[simp] theorem force_parsed (L : Lazy σ τ) (media : Media) (v : View) (t : τ) :
    L.force media (L.parsed v t) = (pure t, L.parsed v t) := by
  unfold force parsed
  rw [L.slot_build, L.view_build]
  rfl

/-- A container that has not been read answers as reading does, and keeps what it gives. -/
theorem force_fresh (L : Lazy σ τ) (media : Media) (v : View) :
    L.force media (L.fresh v) = (L.read v media, match (L.read v media).result with
      | .ok t => L.parsed v t
      | .error _ => L.fresh v) := by
  unfold force fresh
  rw [L.slot_build, L.view_build]
  unfold Slot.force
  obtain ⟨_ | t, events⟩ := L.read v media <;> rfl

theorem outcome_force_fresh (h : (L.read v media).result = .ok t) :
    (L.force media).outcome (L.fresh v) = (.ok t, L.parsed v t) := by
  rw [Access.outcome, force_fresh]
  dsimp only
  rw [h]

/-- What asking for the tables does to a container that has not been read depends on what the view
shows alone. -/
theorem force_fresh_congr (h : L.read v media' = L.read v media) :
    L.force media' (L.fresh v) = L.force media (L.fresh v) := by
  rw [force_fresh, force_fresh, h]

/-- On a container that has been read, the tables are given without looking at the media. -/
theorem force_parsed_congr (L : Lazy σ τ) (media media' : Media) (v : View) (t : τ) :
    L.force media' (L.parsed v t) = L.force media (L.parsed v t) := by
  rw [force_parsed, force_parsed]

/-- A container as it may be later: with its view, and with the tables that it had, if it had any. -/
structure Later (L : Lazy σ τ) (c c' : σ) : Prop where
  view_eq : L.view c' = L.view c
  slot_eq : ∀ {t}, L.slot c = .parsed t → L.slot c' = .parsed t

theorem Later.refl (c : σ) : L.Later c c := ⟨rfl, fun h => h⟩

theorem Later.trans {c c' c'' : σ} (h : L.Later c c') (h' : L.Later c' c'') : L.Later c c'' :=
  ⟨h'.view_eq.trans h.view_eq, fun ht => h'.slot_eq (h.slot_eq ht)⟩

theorem later_fresh_parsed (L : Lazy σ τ) (v : View) (t : τ) :
    L.Later (L.fresh v) (L.parsed v t) := by
  constructor
  · rw [parsed, fresh, L.view_build, L.view_build]
  · intro t' h
    rw [fresh, L.slot_build] at h
    cases h

/-- An operation that asks for the tables before anything else, and changes nothing else. -/
structure Asks (L : Lazy σ τ) (media : Media) (x : Access σ α) : Prop where
  /-- To ask for the tables before it makes no difference. -/
  first : (L.force media >>= fun _ => x) = x
  /-- Where they have been read, it changes nothing. -/
  idle : ∀ v t, x.Idle (L.parsed v t)

theorem asks_force : L.Asks media (L.force media) where
  first := by
    funext c
    obtain ⟨v, rfl⟩ | ⟨v, t, rfl⟩ := L.fresh_or_parsed c
    · rw [Access.run_bind, force_fresh]
      obtain ⟨_ | t, events⟩ := L.read v media
      · rfl
      · dsimp only
        rw [force_parsed]
        exact Prod.ext (congrArg (Traced.mk _) (List.append_nil _)) rfl
    · rw [Access.run_bind, force_parsed, Traced.result_pure]
      dsimp only
      rw [force_parsed]
      rfl
  idle v t := by rw [Access.Idle, Access.outcome, force_parsed]

/-- What follows may ask again, as the tables are there by then. -/
theorem Asks.bind {x : Access σ α} {f : α → Access σ β} (hx : L.Asks media x)
    (hf : ∀ a v t, (f a).Idle (L.parsed v t)) : L.Asks media (x >>= f) where
  first := by rw [← bind_assoc, hx.first]
  idle v t := (hx.idle v t).bind fun a => hf a v t

/-- Two operations in the same way agree on a container that has been read, where their parts do. -/
theorem Asks.bind_congr {x x' : Access σ α} {f f' : α → Access σ β} (hx : L.Asks media x)
    (h : x' (L.parsed v t) = x (L.parsed v t))
    (hf : ∀ a, (x (L.parsed v t)).1.result = .ok a → f' a (L.parsed v t) = f a (L.parsed v t)) :
    (x' >>= f') (L.parsed v t) = (x >>= f) (L.parsed v t) := by
  refine Access.bind_congr_at h fun a ha => ?_
  have hstate : (x (L.parsed v t)).2 = L.parsed v t := hx.idle v t
  rw [hstate]
  exact hf a ha

/-- Two operations agree on a container that has not been read, where both find the same tables and
agree once these have been read. -/
theorem Asks.fresh_congr {x x' : Access σ α} (hx : L.Asks media x) (hx' : L.Asks media' x')
    (hread : L.read v media' = L.read v media)
    (h : ∀ t, (L.read v media).result = .ok t → x' (L.parsed v t) = x (L.parsed v t)) :
    x' (L.fresh v) = x (L.fresh v) := by
  rw [← hx.first, ← hx'.first]
  refine Access.bind_congr_at (force_fresh_congr hread) fun t ht => ?_
  rw [force_fresh] at ht ⊢
  dsimp only at ht ⊢
  rw [ht]
  exact h t ht

theorem Asks.outcome_fresh_error {x : Access σ α} (hx : L.Asks media x)
    (h : (L.read v media).result = .error e) : x.outcome (L.fresh v) = (.error e, L.fresh v) := by
  rw [← hx.first, Access.outcome_bind, Access.outcome, force_fresh]
  dsimp only
  rw [h]

theorem Asks.state_fresh {x : Access σ α} (hx : L.Asks media x)
    (h : (L.read v media).result = .ok t) : (x.outcome (L.fresh v)).2 = L.parsed v t := by
  rw [← hx.first, Access.outcome_bind, outcome_force_fresh h]
  exact hx.idle v t

theorem Asks.later {x : Access σ α} (hx : L.Asks media x) (c : σ) :
    L.Later c (x.outcome c).2 := by
  obtain ⟨v, rfl⟩ | ⟨v, t, rfl⟩ := L.fresh_or_parsed c
  · cases hread : (L.read v media).result with
    | error e =>
      rw [hx.outcome_fresh_error hread]
      exact .refl _
    | ok t =>
      rw [hx.state_fresh hread]
      exact L.later_fresh_parsed v t
  · rw [hx.idle v t]
    exact .refl _

end Lazy

/-! ## Kinds of containers -/

/-- A kind of containers that are read when that is first needed, with the calls on them by the type of
what they answer. -/
structure LazyKind where
  Container : Type
  Tables : Type
  parts : Lazy Container Tables
  Call : Type → Type 1
  /-- Makes a call. -/
  run : {α : Type} → Media → Call α → Access Container α
  /-- Whether a call asks for the tables. -/
  asks : {α : Type} → Call α → Bool
  /-- The regions that a call reads from, on a container with these tables. -/
  looks : {α : Type} → Call α → View → Tables → List Region
  /-- What is fixed of some tables is the same in others. -/
  Fixed : Tables → Tables → Prop

namespace LazyKind

/-- What a kind owes of its calls. -/
structure Lawful (K : LazyKind) : Prop where
  fixed_refl : ∀ t, K.Fixed t t
  fixed_trans : ∀ {t u w}, K.Fixed t u → K.Fixed u w → K.Fixed t w
  /-- A call that does not ask for the tables leaves a container as it is. -/
  idle : ∀ {α media} {x : K.Call α}, K.asks x = false → ∀ c, ((K.run media x).outcome c).2 = c
  /-- One that does fails where they cannot be read, and leaves the container as it is. -/
  refused : ∀ {α media v e} {x : K.Call α}, K.asks x = true →
    (K.parts.read v media).result = .error e →
      (K.run media x).outcome (K.parts.fresh v) = (.error e, K.parts.fresh v)
  /-- Where they can be read, it leaves them in the container. -/
  filled : ∀ {α media v t} {x : K.Call α}, K.asks x = true → (K.parts.read v media).result = .ok t →
    ∃ u, ((K.run media x).outcome (K.parts.fresh v)).2 = K.parts.parsed v u ∧ K.Fixed t u
  /-- Where they have been read, it changes nothing that is fixed of them. -/
  kept : ∀ {α} {x : K.Call α}, K.asks x = true → ∀ media v t,
    ∃ u, ((K.run media x).outcome (K.parts.parsed v t)).2 = K.parts.parsed v u ∧ K.Fixed t u
  /-- Where they have been read, nothing is read but what the call has to look at. -/
  blind : ∀ {α media media' v t} {x : K.Call α}, (∀ r ∈ K.looks x v t, Region.Alike media media' r r) →
    K.run media' x (K.parts.parsed v t) = K.run media x (K.parts.parsed v t)

variable {K : LazyKind} {v : View} {t : K.Tables}

/-- A kind whose calls ask for the tables, or leave the container as it is, owes no more than that they
read nothing but what they have to look at. -/
theorem Lawful.of_asks (hrefl : ∀ t, K.Fixed t t)
    (htrans : ∀ {t u w}, K.Fixed t u → K.Fixed u w → K.Fixed t w)
    (hasks : ∀ {α} {x : K.Call α}, K.asks x = true → ∀ media, K.parts.Asks media (K.run media x))
    (hidle : ∀ {α} {x : K.Call α}, K.asks x = false → ∀ media c, (K.run media x).Idle c)
    (hblind : ∀ {α media media' v t} {x : K.Call α},
      (∀ r ∈ K.looks x v t, Region.Alike media media' r r) →
        K.run media' x (K.parts.parsed v t) = K.run media x (K.parts.parsed v t)) : K.Lawful where
  fixed_refl := hrefl
  fixed_trans := htrans
  idle hx := hidle hx _
  refused hx hread := (hasks hx _).outcome_fresh_error hread
  filled hx hread := ⟨_, (hasks hx _).state_fresh hread, hrefl _⟩
  kept hx media v t := ⟨t, (hasks hx media).idle v t, hrefl t⟩
  blind := hblind

/-- Calls, each with the media as they are when it is made. -/
abbrev History (K : LazyKind) : Type 1 := List (Media × Σ α : Type, K.Call α)

/-- The container after some calls. -/
def after (K : LazyKind) : K.History → K.Container → K.Container
  | [], c => c
  | (media, ⟨_, x⟩) :: rest, c => K.after rest ((K.run media x).outcome c).2

/-- The tables that a call can read. -/
def attempt? (K : LazyKind) (v : View) : Media × (Σ α : Type, K.Call α) → Option K.Tables
  | (media, ⟨_, x⟩) => if K.asks x then (K.parts.read v media).result.toOption else none

/-- The tables that the first successful attempt to read them gives. -/
def firstRead? (K : LazyKind) (v : View) (history : K.History) : Option K.Tables :=
  history.findSome? (K.attempt? v)

theorem after_append (first later : K.History) (c : K.Container) :
    K.after (first ++ later) c = K.after later (K.after first c) := by
  induction first generalizing c with
  | nil => rfl
  | cons call rest ih => exact ih _

theorem attempt?_eq_some_iff {media : Media} {α : Type} {x : K.Call α} :
    K.attempt? v (media, ⟨α, x⟩) = some t ↔
      K.asks x = true ∧ (K.parts.read v media).result = .ok t := by
  show (if K.asks x then (K.parts.read v media).result.toOption else none) = some t ↔ _
  cases K.asks x with
  | false => simp
  | true => cases (K.parts.read v media).result <;> simp [Except.toOption]

namespace Lawful

theorem state_of_attempt_eq_none (hK : K.Lawful) {media : Media} {α : Type} {x : K.Call α}
    (h : K.attempt? v (media, ⟨α, x⟩) = none) :
    ((K.run media x).outcome (K.parts.fresh v)).2 = K.parts.fresh v := by
  cases hasks : K.asks x with
  | false => exact hK.idle hasks _
  | true =>
    cases hread : (K.parts.read v media).result with
    | error e => rw [hK.refused hasks hread]
    | ok t =>
      rw [attempt?_eq_some_iff.mpr ⟨hasks, hread⟩] at h
      cases h

theorem state_of_attempt_eq_some (hK : K.Lawful) {media : Media} {α : Type} {x : K.Call α}
    (h : K.attempt? v (media, ⟨α, x⟩) = some t) :
    ∃ u, ((K.run media x).outcome (K.parts.fresh v)).2 = K.parts.parsed v u ∧ K.Fixed t u := by
  obtain ⟨hasks, hread⟩ := attempt?_eq_some_iff.mp h
  exact hK.filled hasks hread

/-- A container that has been read stays so, with what is fixed of its tables. -/
theorem after_parsed (hK : K.Lawful) (history : K.History) (v : View) (t : K.Tables) :
    ∃ u, K.after history (K.parts.parsed v t) = K.parts.parsed v u ∧ K.Fixed t u := by
  induction history generalizing t with
  | nil => exact ⟨t, rfl, hK.fixed_refl t⟩
  | cons call rest ih =>
    obtain ⟨media, α, x⟩ := call
    rw [after]
    cases hasks : K.asks x with
    | false =>
      rw [hK.idle hasks]
      exact ih t
    | true =>
      obtain ⟨u, hu, hfixed⟩ := hK.kept hasks media v t
      obtain ⟨w, hw, hfixed'⟩ := ih u
      rw [hu]
      exact ⟨w, hw, hK.fixed_trans hfixed hfixed'⟩

/-- **Failed attempts leave a container as new.** -/
theorem after_eq_fresh (hK : K.Lawful) {history : K.History} (h : K.firstRead? v history = none) :
    K.after history (K.parts.fresh v) = K.parts.fresh v := by
  induction history with
  | nil => rfl
  | cons call rest ih =>
    obtain ⟨media, α, x⟩ := call
    rw [firstRead?, List.findSome?_cons] at h
    split at h
    · cases h
    · rename_i hattempt
      rw [after, hK.state_of_attempt_eq_none hattempt]
      exact ih h

/-- **The first successful attempt fixes the tables.** -/
theorem after_eq_build (hK : K.Lawful) {history : K.History} (h : K.firstRead? v history = some t) :
    ∃ u, K.after history (K.parts.fresh v) = K.parts.parsed v u ∧ K.Fixed t u := by
  induction history with
  | nil => cases h
  | cons call rest ih =>
    obtain ⟨media, α, x⟩ := call
    rw [firstRead?, List.findSome?_cons] at h
    rw [after]
    split at h
    · rename_i hattempt
      cases h
      obtain ⟨u, hu, hfixed⟩ := hK.state_of_attempt_eq_some hattempt
      obtain ⟨w, hw, hfixed'⟩ := hK.after_parsed rest v u
      rw [hu]
      exact ⟨w, hw, hK.fixed_trans hfixed hfixed'⟩
    · rename_i hattempt
      rw [hK.state_of_attempt_eq_none hattempt]
      exact ih h

end Lawful

/-- Reading the tables is atomic, and what has been read is stable, whatever the media do between the
calls. -/
structure Atomic (K : LazyKind) : Prop where
  /-- Until an attempt succeeds the container is as new, with its view and the view's cursor, and a call
  on it does what it does on a new one. -/
  asNew : ∀ {v history}, K.firstRead? v history = none →
    K.after history (K.parts.fresh v) = K.parts.fresh v ∧
      ∀ {α} (media : Media) (x : K.Call α),
        K.run media x (K.after history (K.parts.fresh v)) = K.run media x (K.parts.fresh v)
  /-- An attempt that fails gives its error and leaves the container as it was. -/
  refused : ∀ {v history α media e} {x : K.Call α}, K.firstRead? v history = none →
    K.asks x = true → (K.parts.read v media).result = .error e →
      (K.run media x).outcome (K.after history (K.parts.fresh v)) = (.error e, K.parts.fresh v)
  /-- The first attempt that succeeds fixes the tables. -/
  firstRead : ∀ {v history t}, K.firstRead? v history = some t →
    ∃ u, K.after history (K.parts.fresh v) = K.parts.parsed v u ∧ K.Fixed t u
  /-- No later call changes what is fixed of them. -/
  lasting : ∀ {v history t}, K.after history (K.parts.fresh v) = K.parts.parsed v t →
    ∀ later, ∃ u, K.after (history ++ later) (K.parts.fresh v) = K.parts.parsed v u ∧ K.Fixed t u
  /-- No later call reads them again: whatever has become of the media, a call gives the same answer,
  with the same events, and leaves the same container, as long as what it has to look at is the same. -/
  unread : ∀ {v history t α media media'} {x : K.Call α},
    K.after history (K.parts.fresh v) = K.parts.parsed v t →
      (∀ r ∈ K.looks x v t, Region.Alike media media' r r) →
        K.run media' x (K.parts.parsed v t) = K.run media x (K.parts.parsed v t)

theorem Lawful.atomic (hK : K.Lawful) : K.Atomic where
  asNew h := ⟨hK.after_eq_fresh h, fun _ _ => by rw [hK.after_eq_fresh h]⟩
  refused h hasks hread := by
    rw [hK.after_eq_fresh h]
    exact hK.refused hasks hread
  firstRead h := hK.after_eq_build h
  lasting h later := by
    rw [after_append, h]
    exact hK.after_parsed later _ _
  unread _ hlooks := hK.blind hlooks

end LazyKind

end Cartridge
