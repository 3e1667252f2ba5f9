import Cartridge.Traced

/-!
# Lazily filled slots

A slot is empty until its value is asked for. Then the value is made; if that fails the slot stays
empty and the next request tries again, and once it is there it never changes.

* `Slot.force_parsed`: a full slot gives its value and does nothing else.
* `Slot.force_unparsed`: an empty slot answers as the attempt to fill it does.
* `Slot.Agrees.force`: a slot that holds what the attempt gives answers as the attempt does, full or
  empty, and still holds nothing else.
-/

namespace Cartridge

/-- A value that is made when it is first asked for. -/
inductive Slot (α : Type) where
  | unparsed
  | parsed (value : α)

namespace Slot

variable {α : Type}

/-- Whether the value is there. -/
def isParsed : Slot α → Bool
  | unparsed => false
  | parsed _ => true

/-- The value, if it is there. -/
def get? : Slot α → Option α
  | unparsed => none
  | parsed value => some value

/-- The value, made by `make` if it is not there. -/
def force (make : Unit → Traced α) : Access (Slot α) α
  | parsed value => (pure value, parsed value)
  | unparsed =>
    match make () with
    | ⟨.ok value, events⟩ => (⟨.ok value, events⟩, parsed value)
    | ⟨.error e, events⟩ => (⟨.error e, events⟩, unparsed)

@[simp] theorem force_parsed (make : Unit → Traced α) (value : α) :
    force make (parsed value) = (pure value, parsed value) := rfl

theorem force_unparsed (make : Unit → Traced α) :
    (force make unparsed).1 = make () := by
  unfold force
  obtain ⟨_ | _, _⟩ := make () <;> rfl

/-- A slot holds nothing but what an attempt to fill it gives. -/
def Agrees (result : Except Error α) (s : Slot α) : Prop :=
  ∀ value, s.get? = some value → result = .ok value

theorem agrees_unparsed (result : Except Error α) : (unparsed : Slot α).Agrees result := by
  intro value h
  cases h

theorem Agrees.force {make : Unit → Traced α} {s : Slot α} (h : s.Agrees (make ()).result) :
    ∃ s', (Slot.force make).outcome s = ((make ()).result, s') ∧ s'.Agrees (make ()).result := by
  cases s with
  | parsed value =>
    refine ⟨parsed value, ?_, h⟩
    rw [h value rfl]
    rfl
  | unparsed =>
    unfold Access.outcome Slot.force
    obtain ⟨_ | value, _⟩ := make ()
    · exact ⟨unparsed, rfl, agrees_unparsed _⟩
    · refine ⟨parsed value, rfl, fun v hv => ?_⟩
      cases hv
      rfl

/-- Replaces the value, if it is there. -/
def modify (f : α → α) : Slot α → Slot α
  | unparsed => unparsed
  | parsed value => parsed (f value)

end Slot

end Cartridge
