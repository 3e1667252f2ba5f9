import Cartridge.Error

/-!
# Results with a trace

An operation answers with a value or an error and leaves a trace of events, which stays when it
fails. `Traced` is such an answer; `Access σ` is an operation on a state of type `σ` that answers so
and keeps the state it reached, also when it fails.

* `Traced.result_bind`: the answer of a sequence depends on the answers of its parts alone.
* `Access.run_bind`: a failed step ends a sequence in the state that it left.
* `Access.outcome_bind`: the same of answers and states, whose trace is left out.
-/

namespace Cartridge

/-- How much an event matters. -/
inductive Level where
  | trace
  | debug
  | warn
deriving DecidableEq, Repr

/-- The level's name. -/
def Level.name : Level → String
  | trace => "TRACE"
  | debug => "DEBUG"
  | warn => "WARN"

/-- Something worth noting: a message and named values. -/
structure Event where
  level : Level
  message : String
  fields : List (String × String)
deriving DecidableEq, Repr

namespace Event

/-- A detail of the inner workings. -/
def trace (message : String) (fields : List (String × String)) : Event := ⟨.trace, message, fields⟩

/-- A step of interest to someone who looks for a fault. -/
def debug (message : String) (fields : List (String × String)) : Event := ⟨.debug, message, fields⟩

/-- Something that is probably wrong with the input. -/
def warn (message : String) (fields : List (String × String)) : Event := ⟨.warn, message, fields⟩

/-- The event on one line. -/
def render (e : Event) : String :=
  " ".intercalate (e.level.name :: e.message :: e.fields.map fun f => f.1 ++ "=" ++ f.2)

end Event

theorem ok_bind {α β : Type} (a : α) (f : α → Except Error β) : Except.ok a >>= f = f a := rfl

theorem error_bind {α β : Type} (e : Error) (f : α → Except Error β) :
    Except.error e >>= f = .error e := rfl

/-- A sequence succeeds where both of its parts do. -/
theorem bind_eq_ok_iff {ε α β : Type} {x : Except ε α} {f : α → Except ε β} {b : β} :
    x >>= f = .ok b ↔ ∃ a, x = .ok a ∧ f a = .ok b := by
  cases x with
  | error e => simp [bind, Except.bind]
  | ok a => simp [bind, Except.bind]

/-- A sequence fails where one of its parts does. -/
theorem bind_eq_error_iff {α β : Type} {x : Except Error α} {f : α → Except Error β} {e : Error} :
    x >>= f = .error e ↔ x = .error e ∨ ∃ a, x = .ok a ∧ f a = .error e := by
  cases x with
  | error e' => simp [bind, Except.bind]
  | ok a => simp [bind, Except.bind]

/-- A sequence behind a check succeeds where the check passes and the sequence does. -/
theorem check_eq_ok_iff {β : Type} {c : Prop} [Decidable c] {e : Error}
    {f : Unit → Except Error β} {b : β} :
    (if c then throw e >>= f else f ()) = .ok b ↔ ¬ c ∧ f () = .ok b := by
  by_cases h : c
  · rw [if_pos h]
    constructor
    · intro h'
      cases h'
    · rintro ⟨hn, -⟩
      exact absurd h hn
  · rw [if_neg h]
    exact ⟨fun h' => ⟨h, h'⟩, fun h' => h'.2⟩

/-! ## Traced answers -/

/-- A value or an error, and the events on the way to it. -/
structure Traced (α : Type) where
  result : Except Error α
  events : List Event

namespace Traced

variable {α β : Type}

/-- A value without events. -/
protected def pure (a : α) : Traced α := ⟨.ok a, []⟩

/-- Goes on with the value; an error ends the sequence and keeps the events. -/
protected def bind (t : Traced α) (f : α → Traced β) : Traced β :=
  match t with
  | ⟨.ok a, events⟩ =>
    let u := f a
    ⟨u.result, events ++ u.events⟩
  | ⟨.error e, events⟩ => ⟨.error e, events⟩

instance : Monad Traced where
  pure := Traced.pure
  bind := Traced.bind

/-- An error without events. -/
def fail (e : Error) : Traced α := ⟨.error e, []⟩

/-- An answer without events. -/
def ofExcept (r : Except Error α) : Traced α := ⟨r, []⟩

/-- An event and nothing else. -/
def emit (e : Event) : Traced Unit := ⟨.ok (), [e]⟩

instance : MonadLift (Except Error) Traced := ⟨ofExcept⟩

@[simp] theorem result_pure (a : α) : (pure a : Traced α).result = .ok a := rfl

@[simp] theorem result_fail (e : Error) : (fail e : Traced α).result = .error e := rfl

@[simp] theorem result_ofExcept (r : Except Error α) : (ofExcept r).result = r := rfl

@[simp] theorem result_emit (e : Event) : (emit e).result = .ok () := rfl

@[simp] theorem result_liftM (r : Except Error α) : (liftM r : Traced α).result = r := rfl

@[simp] theorem result_bind (t : Traced α) (f : α → Traced β) :
    (t >>= f).result = t.result >>= fun a => (f a).result := by
  obtain ⟨_ | _, _⟩ := t <;> rfl

end Traced

/-! ## Operations on a state -/

/-- An operation on a state: its traced answer and the state afterwards. -/
def Access (σ α : Type) : Type := σ → Traced α × σ

namespace Access

variable {σ τ α β : Type}

/-- A value; the state stays. -/
protected def pure (a : α) : Access σ α := fun s => (Traced.pure a, s)

/-- Goes on with the value from the state reached; an error ends the sequence in the state that the
failed step left. -/
protected def bind (x : Access σ α) (f : α → Access σ β) : Access σ β := fun s =>
  match x s with
  | (⟨.ok a, events⟩, s') =>
    let (t, s'') := f a s'
    (⟨t.result, events ++ t.events⟩, s'')
  | (⟨.error e, events⟩, s') => (⟨.error e, events⟩, s')

instance : Monad (Access σ) where
  pure := Access.pure
  bind := Access.bind

/-- An answer that leaves the state alone. -/
def ofTraced (t : Traced α) : Access σ α := fun s => (t, s)

/-- An answer from the state, which stays. -/
def ask (f : σ → Traced α) : Access σ α := fun s => (f s, s)

/-- The state. -/
def get : Access σ σ := fun s => (Traced.pure s, s)

/-- Replaces the state. -/
def set (s : σ) : Access σ Unit := fun _ => (Traced.pure (), s)

/-- An error; the state stays. -/
def fail (e : Error) : Access σ α := fun s => (Traced.fail e, s)

instance : MonadLift Traced (Access σ) := ⟨ofTraced⟩

/-- Lets an operation on a part of the state act on the whole. -/
def onPart (part : σ → τ) (replace : τ → σ → σ) (x : Access τ α) : Access σ α := fun s =>
  ((x (part s)).1, replace (x (part s)).2 s)

theorem run_bind (x : Access σ α) (f : α → Access σ β) (s : σ) :
    (x >>= f) s = match (x s).1.result with
      | .ok a =>
        (⟨(f a (x s).2).1.result, (x s).1.events ++ (f a (x s).2).1.events⟩, (f a (x s).2).2)
      | .error e => (⟨.error e, (x s).1.events⟩, (x s).2) := by
  change Access.bind x f s = _
  unfold Access.bind
  obtain ⟨⟨_ | _, _⟩, _⟩ := x s <;> rfl

/-- Sequences agree where their first parts do, and their second parts on what the first gives. -/
theorem bind_congr_at {x x' : Access σ α} {f f' : α → Access σ β} {s : σ} (hx : x' s = x s)
    (hf : ∀ a, (x s).1.result = .ok a → f' a (x s).2 = f a (x s).2) :
    (x' >>= f') s = (x >>= f) s := by
  rw [run_bind, run_bind, hx]
  cases hresult : (x s).1.result with
  | error e => rfl
  | ok a =>
    dsimp only
    rw [hf a hresult]

/-- What an operation answers and the state afterwards, without the trace. -/
def outcome (x : Access σ α) (s : σ) : Except Error α × σ := ((x s).1.result, (x s).2)

theorem outcome_bind (x : Access σ α) (f : α → Access σ β) (s : σ) :
    (x >>= f).outcome s = match x.outcome s with
      | (.ok a, s') => (f a).outcome s'
      | (.error e, s') => (.error e, s') := by
  unfold outcome
  rw [run_bind]
  obtain ⟨⟨_ | _, _⟩, _⟩ := x s <;> rfl

/-- Where its first part succeeds a sequence goes on from the state reached. -/
theorem outcome_bind_of_ok {x : Access σ α} {f : α → Access σ β} {s s' : σ} {a : α}
    (h : x.outcome s = (.ok a, s')) : (x >>= f).outcome s = (f a).outcome s' := by
  rw [outcome_bind, h]

/-- A sequence succeeds where its first part does, and its second part from the state reached. -/
theorem outcome_bind_eq_ok_iff {x : Access σ α} {f : α → Access σ β} {s s'' : σ} {b : β} :
    (x >>= f).outcome s = (.ok b, s'')
      ↔ ∃ a s', x.outcome s = (.ok a, s') ∧ (f a).outcome s' = (.ok b, s'') := by
  rw [outcome_bind]
  obtain ⟨_ | a, s'⟩ := x.outcome s
  · simp
  · constructor
    · intro h
      exact ⟨a, s', rfl, h⟩
    · rintro ⟨_, _, h, h'⟩
      cases h
      exact h'

@[simp] theorem outcome_pure (a : α) (s : σ) : (pure a : Access σ α).outcome s = (.ok a, s) := rfl

@[simp] theorem outcome_fail (e : Error) (s : σ) :
    (fail e : Access σ α).outcome s = (.error e, s) := rfl

@[simp] theorem outcome_get (s : σ) : (get : Access σ σ).outcome s = (.ok s, s) := rfl

@[simp] theorem outcome_liftM (t : Traced α) (s : σ) :
    (liftM t : Access σ α).outcome s = (t.result, s) := rfl

/-- A sequence goes on with what a computation gives. -/
theorem outcome_bind_liftM_of_ok {x : Except Error α} {a : α} (h : x = .ok a)
    (f : α → Access σ β) (s : σ) :
    ((liftM (liftM x : Traced α) : Access σ α) >>= f).outcome s = (f a).outcome s := by
  refine outcome_bind_of_ok ?_
  rw [outcome_liftM, Traced.result_liftM, h]

/-- An answer at the end of a sequence leaves the state alone. -/
theorem state_bind_liftM (x : Access σ α) (t : Traced β) (s : σ) :
    ((x >>= fun _ => (liftM t : Access σ β)).outcome s).2 = (x.outcome s).2 := by
  rw [outcome_bind]
  obtain ⟨_ | _, _⟩ := x.outcome s <;> rfl

@[simp] theorem outcome_onPart (part : σ → τ) (replace : τ → σ → σ) (x : Access τ α) (s : σ) :
    (onPart part replace x).outcome s
      = ((x.outcome (part s)).1, replace (x.outcome (part s)).2 s) := rfl

end Access

end Cartridge
