import Cartridge.Proofs.Nca.Opening

/-!
# Kept keys are not seen

The keys of sections come from two things that are decrypted when they are first needed and then kept: the
key area and the title key. A ring of kept keys is asked for the keys of any sections in any order, and
some requests fail. What the ring has afterwards depends on what was asked for and not on the order: a part
is there exactly if a request needed it and it can be decrypted, so a request that failed has left nothing.
Each request is answered as by a ring that was never asked for anything.

The store and the header stay the same while a ring is in use.

Results:
* `Slot.outcome_force_tried`: a slot is filled by the first attempt that succeeds and by nothing else.
* `KeyRing.outcome_sectionKey_after`: what one request answers, and what it adds to the ring.
* `KeyRing.requests_as_fresh`: what any requests answer, and what they leave.
-/

namespace Cartridge

namespace Slot

variable {α : Type}

/-- A slot behind an attempt to fill it, if there was one. -/
def tried (attempted : Bool) (result : Except Error α) : Slot α :=
  match attempted, result with
  | true, .ok value => parsed value
  | _, _ => unparsed

theorem agrees_tried (attempted : Bool) (result : Except Error α) :
    (tried attempted result).Agrees result := by
  cases attempted with
  | false => exact agrees_unparsed result
  | true =>
    cases result with
    | error e => exact agrees_unparsed _
    | ok value =>
      intro v hv
      cases hv
      rfl

/-- Another attempt answers as the first one did and changes nothing more. -/
theorem outcome_force_tried (attempted : Bool) (make : Unit → Traced α) :
    (force make).outcome (tried attempted (make ()).result)
      = ((make ()).result, tried true (make ()).result) := by
  unfold Access.outcome force
  generalize make () = t
  obtain ⟨_ | value, events⟩ := t <;> cases attempted <;> rfl

end Slot

namespace Nca

/-! ## What requests need -/

/-- Whether the key of a section comes from the key area. -/
def Protection.needsArea : Protection → Bool
  | xts | counter => true
  | plain | titleCounter | unsupported _ => false

/-- Whether the key of a section is the title key. -/
def Protection.needsTitle : Protection → Bool
  | titleCounter => true
  | plain | xts | counter | unsupported _ => false

namespace KeyRing

variable (header : Header) (keys : KeyStore)

/-- The ring behind any requests: it has what was needed and can be decrypted. -/
def after (requests : List Protection) : KeyRing where
  area := .tried (requests.any Protection.needsArea) (readArea header keys).result
  title := .tried (requests.any Protection.needsTitle) (readTitle header keys).result

/-- Asks a ring for the keys of sections one after another, also behind requests that fail. -/
def request : List Protection → KeyRing → List (Except Error SectionKey) × KeyRing
  | [], ring => ([], ring)
  | p :: rest, ring =>
    let (answer, next) := (sectionKey header keys p).outcome ring
    let (answers, last) := request rest next
    (answer :: answers, last)

/-! ## One request -/

theorem agrees_after (requests : List Protection) : (after header keys requests).Agrees header keys :=
  ⟨Slot.agrees_tried _ _, Slot.agrees_tried _ _⟩

theorem outcome_forceArea (attempted : Bool) (title : Slot Block) :
    (forceArea header keys).outcome ⟨.tried attempted (readArea header keys).result, title⟩
      = ((readArea header keys).result, ⟨.tried true (readArea header keys).result, title⟩) := by
  have hforce := Slot.outcome_force_tried attempted fun _ => readArea header keys
  unfold forceArea
  rw [Access.outcome_onPart, hforce]

theorem outcome_forceTitle (attempted : Bool) (area : Slot KeyArea) :
    (forceTitle header keys).outcome ⟨area, .tried attempted (readTitle header keys).result⟩
      = ((readTitle header keys).result, ⟨area, .tried true (readTitle header keys).result⟩) := by
  have hforce := Slot.outcome_force_tried attempted fun _ => readTitle header keys
  unfold forceTitle
  rw [Access.outcome_onPart, hforce]

/-- Using a part of the ring leaves the ring alone. -/
theorem state_bind_pure {α : Type} (x : Access KeyRing α) (use : α → SectionKey) (ring : KeyRing) :
    ((x >>= fun value => pure (use value)).outcome ring).2 = (x.outcome ring).2 := by
  rw [Access.outcome_bind]
  obtain ⟨_ | _, _⟩ := x.outcome ring <;> rfl

/-- A request adds to the ring what it needs. -/
theorem state_sectionKey_after (requests : List Protection) (p : Protection) :
    ((sectionKey header keys p).outcome (after header keys requests)).2
      = after header keys (requests ++ [p]) := by
  unfold after
  rw [List.any_append, List.any_append, List.any_cons, List.any_cons, List.any_nil, List.any_nil,
    Bool.or_false, Bool.or_false]
  cases p with
  | plain | unsupported =>
    simp only [Protection.needsArea, Protection.needsTitle, Bool.or_false]
    rfl
  | xts | counter =>
    unfold sectionKey
    rw [state_bind_pure, outcome_forceArea]
    simp only [Protection.needsArea, Protection.needsTitle, Bool.or_true, Bool.or_false]
  | titleCounter =>
    unfold sectionKey
    rw [state_bind_pure, outcome_forceTitle]
    simp only [Protection.needsArea, Protection.needsTitle, Bool.or_true, Bool.or_false]

/-- **One request** is answered with the key that the protection names, whatever was asked for before. -/
theorem outcome_sectionKey_after (requests : List Protection) (p : Protection) :
    (sectionKey header keys p).outcome (after header keys requests)
      = (keyOf header keys p, after header keys (requests ++ [p])) := by
  obtain ⟨ring, hrun, -⟩ := (agrees_after header keys requests).sectionKey p
  have hstate := state_sectionKey_after header keys requests p
  rw [hrun] at hstate ⊢
  exact congrArg (Prod.mk _) hstate

/-! ## Any requests -/

theorem request_after (before requests : List Protection) :
    request header keys requests (after header keys before)
      = (requests.map (keyOf header keys), after header keys (before ++ requests)) := by
  induction requests generalizing before with
  | nil => rw [request, List.map_nil, List.append_nil]
  | cons p rest ih =>
    rw [request, outcome_sectionKey_after]
    dsimp only
    rw [ih, List.map_cons, List.append_assoc, List.singleton_append]

/-- **Keeping keys is not seen.** Whatever a ring is asked for, in any order and with any failures in
between, each request has the answer that a ring has for it that was never asked for anything, and the
ring has in the end what some request needed and can be decrypted. -/
theorem requests_as_fresh (requests : List Protection) :
    request header keys requests empty
      = (requests.map fun p => ((sectionKey header keys p).outcome empty).1,
        after header keys requests) := by
  have hfresh (p : Protection) : ((sectionKey header keys p).outcome empty).1 = keyOf header keys p :=
    congrArg Prod.fst (outcome_sectionKey_after header keys [] p)
  have hrequest := request_after header keys [] requests
  rw [List.nil_append] at hrequest
  rw [List.map_congr_left fun p _ => hfresh p]
  exact hrequest

end KeyRing

end Nca

end Cartridge
