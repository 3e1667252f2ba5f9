/-!
# Catalogs

A catalog holds one value under each of finitely many keys. Writing under a key that is there
already replaces its value, so of several writes the last one counts.

* `find?_insert`: what a look-up gives after a write.
* `mem_keys_iff`: the keys are those a look-up finds.
* `find?_ofList_append`: of two lists of writes, the later one is asked first.
-/

namespace Cartridge

/-- A finite map. No key occurs twice. -/
structure Catalog (κ ν : Type) where
  entries : List (κ × ν)
  nodup_keys : (entries.map Prod.fst).Nodup

namespace Catalog

variable {κ ν : Type}

/-- The catalog without entries. -/
def empty : Catalog κ ν := ⟨[], by simp⟩

instance : Inhabited (Catalog κ ν) := ⟨empty⟩

/-- The keys, in no particular order. -/
def keys (c : Catalog κ ν) : List κ := c.entries.map Prod.fst

/-- The number of keys. -/
def size (c : Catalog κ ν) : Nat := c.entries.length

/-- The value under a key. -/
def find? [DecidableEq κ] (c : Catalog κ ν) (key : κ) : Option ν :=
  (c.entries.find? fun e => e.1 == key).map Prod.snd

/-- Whether there is a value under a key. -/
def contains [DecidableEq κ] (c : Catalog κ ν) (key : κ) : Bool := (c.find? key).isSome

theorem nodup_insert [DecidableEq κ] (c : Catalog κ ν) (key : κ) (value : ν) :
    (((key, value) :: c.entries.filter fun e => e.1 != key).map Prod.fst).Nodup := by
  rw [List.map_cons, List.nodup_cons]
  constructor
  · simp
  · exact c.nodup_keys.sublist (List.filter_sublist.map _)

/-- Writes a value under a key. -/
def insert [DecidableEq κ] (c : Catalog κ ν) (key : κ) (value : ν) : Catalog κ ν :=
  ⟨(key, value) :: c.entries.filter fun e => e.1 != key, c.nodup_insert key value⟩

/-- Replaces the value under a key by what a function makes of it. -/
def modify [DecidableEq κ] (c : Catalog κ ν) (key : κ) (f : ν → ν) : Catalog κ ν :=
  ⟨c.entries.map fun e => if e.1 = key then (e.1, f e.2) else e, by
    have : c.entries.map (Prod.fst ∘ fun e => if e.1 = key then (e.1, f e.2) else e)
        = c.entries.map Prod.fst := by
      apply List.map_congr_left
      intro e _
      simp only [Function.comp]
      split <;> rfl
    rw [List.map_map, this]
    exact c.nodup_keys⟩

/-- The catalog that a list of writes makes. -/
def ofList [DecidableEq κ] (writes : List (κ × ν)) : Catalog κ ν :=
  writes.foldl (fun c w => c.insert w.1 w.2) empty

@[simp] theorem find?_empty [DecidableEq κ] (key : κ) : (empty : Catalog κ ν).find? key = none := rfl

theorem find?_insert [DecidableEq κ] (c : Catalog κ ν) (key other : κ) (value : ν) :
    (c.insert key value).find? other = if other = key then some value else c.find? other := by
  unfold find? insert
  by_cases h : other = key
  · simp [h]
  · have hk : (key == other) = false := by simp [Ne.symm h]
    simp only [List.find?_cons, hk, List.find?_filter, if_neg h]
    congr 2
    funext e
    by_cases he : e.1 = other
    · simp [he, h]
    · simp [he]

theorem find?_foldl [DecidableEq κ] (c : Catalog κ ν) (writes : List (κ × ν)) (key : κ) :
    (writes.foldl (fun c w => c.insert w.1 w.2) c).find? key =
      ((ofList writes).find? key).or (c.find? key) := by
  induction writes generalizing c with
  | nil => simp [ofList]
  | cons w rest ih =>
    have hcons : (ofList (w :: rest)).find? key =
        ((ofList rest).find? key).or ((empty.insert w.1 w.2).find? key) := ih (empty.insert w.1 w.2)
    rw [List.foldl_cons, ih, hcons, find?_insert, find?_insert]
    split <;> simp

theorem find?_ofList_append [DecidableEq κ] (first later : List (κ × ν)) (key : κ) :
    (ofList (first ++ later)).find? key =
      ((ofList later).find? key).or ((ofList first).find? key) := by
  rw [ofList, List.foldl_append, find?_foldl]
  rfl

theorem mem_keys_iff [DecidableEq κ] (c : Catalog κ ν) (key : κ) : key ∈ c.keys ↔ c.contains key = true := by
  simp [keys, contains, find?]

theorem size_eq_length_keys (c : Catalog κ ν) : c.size = c.keys.length := by
  simp [size, keys]

end Catalog

end Cartridge
