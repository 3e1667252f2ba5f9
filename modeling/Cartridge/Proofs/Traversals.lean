import Cartridge.Traced
import Mathlib.Data.List.Forall2

/-!
# Traversals that can fail

A list is traversed from its front on by steps that can fail, and the first one that fails ends the
traversal.

Results:
* `mapM_eq_ok_iff`, `mapM_isOk_iff`: a traversal succeeds where each of its steps does.
* `mapM_eq_error_iff`: it fails with the first of its steps that fails.
-/

namespace Cartridge

/-- A traversal succeeds where each of its steps does. -/
theorem mapM_eq_ok_iff {α β : Type} {f : α → Except Error β} {as : List α} {bs : List β} :
    as.mapM f = .ok bs ↔ List.Forall₂ (fun a b => f a = .ok b) as bs := by
  induction as generalizing bs with
  | nil =>
    rw [List.mapM_nil, List.forall₂_nil_left_iff]
    exact ⟨fun h => (Except.ok.inj h).symm, fun h => congrArg _ h.symm⟩
  | cons a as ih =>
    rw [List.mapM_cons, bind_eq_ok_iff, List.forall₂_cons_left_iff]
    constructor
    · rintro ⟨b, hb, h⟩
      obtain ⟨bs', hbs, h⟩ := bind_eq_ok_iff.mp h
      cases h
      exact ⟨b, bs', hb, ih.mp hbs, rfl⟩
    · rintro ⟨b, bs', hb, hbs, rfl⟩
      exact ⟨b, hb, bind_eq_ok_iff.mpr ⟨bs', ih.mpr hbs, rfl⟩⟩

/-- A traversal fails with the first of its steps that fails. -/
theorem mapM_eq_error_iff {α β : Type} {f : α → Except Error β} {as : List α} {e : Error} :
    as.mapM f = .error e ↔ ∃ front a back, as = front ++ a :: back ∧
      (∀ b ∈ front, ∃ c, f b = .ok c) ∧ f a = .error e := by
  induction as with
  | nil =>
    rw [List.mapM_nil]
    refine iff_of_false (fun h => nomatch h) ?_
    rintro ⟨front, a, back, h, -⟩
    exact absurd h.symm (List.append_ne_nil_of_right_ne_nil front (List.cons_ne_nil a back))
  | cons a as ih =>
    rw [List.mapM_cons, bind_eq_error_iff]
    constructor
    · rintro (h | ⟨b, hb, h⟩)
      · exact ⟨[], a, as, rfl, List.forall_mem_nil _, h⟩
      · obtain h | ⟨bs, -, h⟩ := bind_eq_error_iff.mp h
        · obtain ⟨front, a', back, rfl, hfront, ha'⟩ := ih.mp h
          exact ⟨a :: front, a', back, rfl, List.forall_mem_cons.mpr ⟨⟨b, hb⟩, hfront⟩, ha'⟩
        · cases h
    · rintro ⟨front, a', back, h, hfront, ha'⟩
      cases front with
      | nil =>
        cases h
        exact .inl ha'
      | cons b front =>
        cases h
        obtain ⟨⟨c, hc⟩, hfront⟩ := List.forall_mem_cons.mp hfront
        exact .inr ⟨c, hc, bind_eq_error_iff.mpr (.inl (ih.mpr ⟨front, a', back, rfl, hfront, ha'⟩))⟩

/-- A traversal succeeds where no step fails. -/
theorem mapM_isOk_iff {α β : Type} {f : α → Except Error β} {as : List α} :
    (∃ bs, as.mapM f = .ok bs) ↔ ∀ a ∈ as, ∃ b, f a = .ok b := by
  induction as with
  | nil => exact iff_of_true ⟨[], rfl⟩ (List.forall_mem_nil _)
  | cons a as ih =>
    rw [List.forall_mem_cons, ← ih, List.mapM_cons]
    constructor
    · rintro ⟨bs, h⟩
      obtain ⟨b, hb, h⟩ := bind_eq_ok_iff.mp h
      obtain ⟨bs', hbs, -⟩ := bind_eq_ok_iff.mp h
      exact ⟨⟨b, hb⟩, bs', hbs⟩
    · rintro ⟨⟨b, hb⟩, bs, hbs⟩
      exact ⟨b :: bs, bind_eq_ok_iff.mpr ⟨b, hb, bind_eq_ok_iff.mpr ⟨bs, hbs, rfl⟩⟩⟩

end Cartridge
