import Cartridge.Catalog
import Mathlib.Data.List.Induction
import Mathlib.Data.List.Nodup
import Mathlib.Order.Bounds.Defs

/-!
# Catalogs made from lists

A list of keys numbers them by their positions, and a catalog of the numbers under the keys goes back
from key to number. Where the keys are different this undoes the numbering; of equal keys the last one
counts. The same catalog can be made of values that have keys.

Results:
* `Catalog.find?_eq_some_iff`: a look-up finds the one entry of its key.
* `Catalog.mem_keys_ofList`: the keys of the catalog are those that were written.
* `Catalog.find?_indexed_eq_some_iff`: a key leads to the last value that has it.
* `Catalog.find?_numbered_iff_isGreatest`: a key leads to the last position that has it.
* `Catalog.find?_numbered_eq_some_iff`: different keys lead back to their positions.
-/

namespace Cartridge.Catalog

variable {κ ν : Type} [DecidableEq κ]

/-! ## Look-ups -/

/-- **A look-up finds the one entry of its key.** -/
theorem find?_eq_some_iff {c : Catalog κ ν} {key : κ} {value : ν} :
    c.find? key = some value ↔ (key, value) ∈ c.entries := by
  unfold find?
  rw [Option.map_eq_some_iff]
  constructor
  · rintro ⟨e, he, rfl⟩
    have hkey : e.1 = key := by simpa using List.find?_some he
    rw [← hkey]
    exact List.mem_of_find?_eq_some he
  · intro hmem
    obtain ⟨e, he⟩ := Option.isSome_iff_exists.mp (List.find?_isSome (p := fun e => e.1 == key).mpr
      ⟨_, hmem, by simp⟩)
    have hkey : e.1 = key := by simpa using List.find?_some he
    have heq := List.inj_on_of_nodup_map c.nodup_keys (List.mem_of_find?_eq_some he) hmem hkey
    exact ⟨e, he, by rw [heq]⟩

theorem find?_modify (c : Catalog κ ν) (key other : κ) (f : ν → ν) :
    (c.modify key f).find? other = if other = key then (c.find? key).map f else c.find? other := by
  ext value
  rw [find?_eq_some_iff, modify, List.mem_map]
  by_cases h : other = key
  · subst h
    simp only [if_true, Option.map_eq_some_iff, find?_eq_some_iff]
    constructor
    · rintro ⟨⟨k, v⟩, hmem, heq⟩
      by_cases hk : k = other
      · rw [if_pos hk] at heq
        cases heq
        exact ⟨v, by rw [← hk]; exact hmem, rfl⟩
      · rw [if_neg hk] at heq
        cases heq
        exact absurd rfl hk
    · rintro ⟨v, hmem, rfl⟩
      exact ⟨_, hmem, by simp⟩
  · rw [if_neg h, find?_eq_some_iff]
    constructor
    · rintro ⟨⟨k, v⟩, hmem, heq⟩
      by_cases hk : k = key <;> simp_all
    · intro hmem
      exact ⟨_, hmem, if_neg h⟩

theorem keys_modify (c : Catalog κ ν) (key : κ) (f : ν → ν) : (c.modify key f).keys = c.keys := by
  unfold keys modify
  rw [List.map_map]
  refine List.map_congr_left fun e _ => ?_
  simp only [Function.comp]
  split <;> rfl

theorem not_mem_keys_iff {c : Catalog κ ν} {key : κ} : key ∉ c.keys ↔ c.find? key = none := by
  rw [mem_keys_iff, contains, Option.not_isSome_iff_eq_none]

/-! ## Catalogs as lists of writes -/

theorem ofList_concat (writes : List (κ × ν)) (key : κ) (value : ν) :
    ofList (writes ++ [(key, value)]) = (ofList writes).insert key value := by
  rw [ofList, List.foldl_append]
  rfl

theorem mem_keys_insert {c : Catalog κ ν} {key other : κ} {value : ν} :
    other ∈ (c.insert key value).keys ↔ other = key ∨ other ∈ c.keys := by
  rw [mem_keys_iff, mem_keys_iff, contains, contains, find?_insert]
  by_cases h : other = key
  · simp [h]
  · simp [h]

/-- The keys are those that were written. -/
theorem mem_keys_ofList {writes : List (κ × ν)} {key : κ} :
    key ∈ (ofList writes).keys ↔ key ∈ writes.map Prod.fst := by
  induction writes using List.reverseRecOn with
  | nil => rfl
  | append_singleton writes w ih =>
    rw [ofList_concat, mem_keys_insert, ih, List.map_append, List.mem_append, or_comm]
    exact or_congr_right List.mem_singleton.symm

/-- Where no key is written twice, every write stays. -/
theorem find?_ofList_of_nodup {writes : List (κ × ν)} (h : (writes.map Prod.fst).Nodup) {key : κ}
    {value : ν} : (ofList writes).find? key = some value ↔ (key, value) ∈ writes := by
  induction writes using List.reverseRecOn with
  | nil => simp [ofList]
  | append_singleton writes w ih =>
    rw [List.map_append, List.nodup_append] at h
    obtain ⟨hwrites, -, hnew⟩ := h
    rw [ofList_concat, find?_insert, List.mem_append, List.mem_singleton]
    split
    · rename_i hkey
      subst hkey
      have hold : (w.1, value) ∉ writes := fun hmem =>
        hnew w.1 (List.mem_map.mpr ⟨_, hmem, rfl⟩) w.1 (by simp) rfl
      simp [hold, Prod.ext_iff, eq_comm]
    · rename_i hkey
      rw [ih hwrites]
      have hne : (key, value) ≠ w := fun heq => hkey (congrArg Prod.fst heq)
      simp [hne]

/-! ## Values under their keys -/

/-- The catalog that has values under their keys. -/
def indexed (f : ν → κ) (values : List ν) : Catalog κ ν := ofList (values.map fun v => (f v, v))

theorem indexed_concat (f : ν → κ) (values : List ν) (value : ν) :
    indexed f (values ++ [value]) = (indexed f values).insert (f value) value := by
  rw [indexed, List.map_append]
  exact ofList_concat _ _ _

theorem mem_keys_indexed {f : ν → κ} {values : List ν} {key : κ} :
    key ∈ (indexed f values).keys ↔ key ∈ values.map f := by
  rw [indexed, mem_keys_ofList, List.map_map]
  rfl

/-- A value in a list with one more behind it is that one, or it was in the list before. -/
theorem concat_eq_append_cons {α : Type} {values front back : List α} {last value : α}
    (h : values ++ [last] = front ++ value :: back) :
    value = last ∧ back = [] ∨ ∃ back', back = back' ++ [last] ∧ values = front ++ value :: back' := by
  induction back using List.reverseRecOn with
  | nil => exact .inl ⟨(List.singleton_inj.mp (List.append_inj' h rfl).2).symm, rfl⟩
  | append_singleton back' last' _ =>
    rw [← List.cons_append, ← List.append_assoc] at h
    obtain ⟨hvalues, hlast⟩ := List.append_inj' h rfl
    exact .inr ⟨back', by rw [List.singleton_inj.mp hlast], hvalues⟩

/-- **A key leads to the last value that has it.** -/
theorem find?_indexed_eq_some_iff {f : ν → κ} {values : List ν} {key : κ} {value : ν} :
    (indexed f values).find? key = some value ↔
      f value = key ∧ ∃ front back, values = front ++ value :: back ∧ key ∉ back.map f := by
  induction values using List.reverseRecOn with
  | nil => simp [indexed, ofList]
  | append_singleton values last ih =>
    rw [indexed_concat, find?_insert]
    split
    · rename_i hkey
      subst hkey
      constructor
      · intro h
        cases h
        exact ⟨rfl, values, [], rfl, List.not_mem_nil⟩
      · rintro ⟨-, front, back, heq, hback⟩
        rcases concat_eq_append_cons heq with ⟨rfl, -⟩ | ⟨back', rfl, -⟩
        · rfl
        · rw [List.map_append] at hback
          exact absurd (List.mem_append_right _ (List.mem_singleton_self _)) hback
    · rename_i hkey
      rw [ih]
      refine and_congr_right fun hvalue => ?_
      constructor
      · rintro ⟨front, back, rfl, hback⟩
        refine ⟨front, back ++ [last], by simp, ?_⟩
        simp only [List.map_append, List.mem_append, hback, false_or]
        exact mt List.mem_singleton.mp hkey
      · rintro ⟨front, back, heq, hback⟩
        rcases concat_eq_append_cons heq with ⟨rfl, -⟩ | ⟨back', rfl, hvalues⟩
        · exact absurd hvalue.symm hkey
        · rw [List.map_append] at hback
          exact ⟨front, back', hvalues, fun hmem => hback (List.mem_append_left _ hmem)⟩

/-! ## Positions under their keys -/

/-- The catalog that has the position of each key under the key. -/
def numbered (names : List κ) : Catalog κ Nat := ofList names.zipIdx

theorem numbered_concat (names : List κ) (name : κ) :
    numbered (names ++ [name]) = (numbered names).insert name names.length := by
  rw [numbered, List.zipIdx_append, List.zipIdx_singleton, Nat.zero_add, ofList_concat]
  rfl

theorem mem_keys_numbered {names : List κ} {key : κ} :
    key ∈ (numbered names).keys ↔ key ∈ names := by
  rw [numbered, mem_keys_ofList, List.zipIdx_map_fst]

/-- **A key leads to the last position that has it.** -/
theorem find?_numbered_iff_isGreatest {names : List κ} {key : κ} {i : Nat} :
    (numbered names).find? key = some i ↔ IsGreatest {j | names[j]? = some key} i := by
  induction names using List.reverseRecOn with
  | nil =>
    constructor
    · intro h
      cases h
    · rintro ⟨hi, -⟩
      cases hi
  | append_singleton names name ih =>
    rw [numbered_concat, find?_insert]
    split
    · rename_i hkey
      subst hkey
      have hlast : (names ++ [key])[names.length]? = some key := List.getElem?_concat_length
      constructor
      · intro h
        cases h
        refine ⟨hlast, fun j hj => ?_⟩
        have hlt := (List.getElem?_eq_some_iff.mp hj).1
        rw [List.length_append, List.length_singleton] at hlt
        exact Nat.le_of_lt_succ hlt
      · rintro ⟨hi, hgreatest⟩
        have hle := hgreatest hlast
        have hlt := (List.getElem?_eq_some_iff.mp hi).1
        rw [List.length_append, List.length_singleton] at hlt
        rw [Nat.le_antisymm hle (Nat.le_of_lt_succ hlt)]
    · rename_i hkey
      -- The new position has another key.
      have hsame (j : Nat) : (names ++ [name])[j]? = some key ↔ names[j]? = some key := by
        rw [List.getElem?_append]
        split
        · rfl
        · rename_i hj
          rw [List.getElem?_eq_none (Nat.le_of_not_lt hj), List.getElem?_singleton]
          split
          · simp [Ne.symm hkey]
          · rfl
      simp only [ih, hsame]

/-- **Different keys lead back to their positions.** -/
theorem find?_numbered_eq_some_iff {names : List κ} (h : names.Nodup) {key : κ} {i : Nat} :
    (numbered names).find? key = some i ↔ names[i]? = some key := by
  rw [find?_numbered_iff_isGreatest]
  refine ⟨And.left, fun hi => ⟨hi, fun j hj => ?_⟩⟩
  have hlt := (List.getElem?_eq_some_iff.mp hj).1
  exact Nat.le_of_eq ((List.getElem?_inj hlt h).mp (hj.trans hi.symm))

end Cartridge.Catalog
