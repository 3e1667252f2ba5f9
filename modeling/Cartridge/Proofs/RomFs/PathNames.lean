import Cartridge.RomFs.Tree
import Mathlib.Data.List.DropRight

/-!
# The names on a path

A look-up through the hash buckets goes by the names that stand between the slashes of a path. Slashes
that follow each other, and those in front and behind, make no difference.

Results:
* `components_trimSlashes`: a path without its outer slashes has the same names on it.
* `findDir?_eq`, `findFile?_eq`: what a look-up makes of a path.
-/

namespace Cartridge.RomFs

/-- The names on a path: what stands between its slashes and is not empty. -/
def pathNames (path : String) : List String :=
  ((path.toList.splitOn '/').filter (!·.isEmpty)).map String.ofList

namespace Tree

theorem segments_eq_splitOn (path : List Char) : segments path = path.splitOn '/' := by
  induction path with
  | nil => rfl
  | cons c rest ih =>
    rw [List.splitOn_cons_eq_if_modifyHead, ← ih]
    unfold segments
    rw [Text.split]
    by_cases h : (c == '/') = true
    · simp [h]
    · simp [h]

theorem segments_ne_nil (path : List Char) : segments path ≠ [] := by
  rw [segments_eq_splitOn]
  exact List.splitOn_ne_nil '/' path

theorem components_eq_pathNames (path : String) : components path.toList = pathNames path := by
  rw [components, segments_eq_splitOn, pathNames]

/-! ## Slashes make no difference -/

/-- The names on both sides of a slash. -/
theorem components_append_slash (front back : List Char) :
    components (front ++ '/' :: back) = components front ++ components back := by
  simp only [components, segments_eq_splitOn]
  rw [List.splitOn_append_cons_self, List.filter_append, List.map_append]

theorem components_dropWhile (path : List Char) :
    components (path.dropWhile (· == '/')) = components path := by
  induction path with
  | nil => rfl
  | cons c rest ih =>
    by_cases h : c = '/'
    · subst h
      exact ih.trans (components_append_slash [] rest).symm
    · rw [List.dropWhile_cons_of_neg (by simpa using h)]

theorem components_rdropWhile (path : List Char) :
    components (path.rdropWhile (· == '/')) = components path := by
  induction path using List.reverseRecOn with
  | nil => rfl
  | append_singleton front c ih =>
    by_cases h : c = '/'
    · subst h
      rw [List.rdropWhile_concat_pos _ _ _ rfl, ih, components_append_slash]
      exact (List.append_nil _).symm
    · rw [List.rdropWhile_concat_neg _ _ _ (by simpa using h)]

theorem components_trimSlashes (path : List Char) :
    components (trimSlashes path) = components path :=
  (components_rdropWhile _).trans (components_dropWhile path)

/-! ## The last name -/

theorem intercalate_append {α : Type} (separator : List α) {front back : List (List α)}
    (hfront : front ≠ []) (hback : back ≠ []) :
    separator.intercalate (front ++ back) =
      separator.intercalate front ++ separator ++ separator.intercalate back := by
  induction front with
  | nil => exact absurd rfl hfront
  | cons segment rest ih =>
    rw [List.cons_append, List.intercalate_cons_of_ne_nil (List.append_ne_nil_of_right_ne_nil _ hback)]
    by_cases hrest : rest = []
    · subst hrest
      simp [List.intercalate]
    · rw [ih hrest, List.intercalate_cons_of_ne_nil hrest]
      simp only [List.append_assoc]

/-- A path whose last segment is empty ends with a slash, unless it is empty. -/
theorem intercalate_concat_nil {α : Type} (separator : α) {segments : List (List α)}
    (h : segments ≠ []) :
    [separator].intercalate (segments ++ [[]]) = [separator].intercalate segments ++ [separator] := by
  rw [intercalate_append [separator] h (List.cons_ne_nil _ _)]
  exact List.append_nil _

/-- A path without its outer slashes does not begin with a slash. -/
theorem head?_trimSlashes_ne (path : List Char) : (trimSlashes path).head? ≠ some '/' := by
  intro hhead
  obtain ⟨back, hback⟩ : trimSlashes path <+: path.dropWhile (· == '/') :=
    List.rdropWhile_prefix ..
  have hkept := List.head?_dropWhile_not (· == '/') path
  rw [← hback, List.head?_append, hhead] at hkept
  cases hkept

/-- A path without its outer slashes does not end with a slash. -/
theorem getLast?_trimSlashes_ne (path : List Char) : (trimSlashes path).getLast? ≠ some '/' := by
  by_cases h : trimSlashes path = []
  · rw [h]
    exact Option.some_ne_none _ ∘ Eq.symm
  · rw [List.getLast?_eq_some_getLast h]
    have hkept := List.rdropWhile_last_not (· == '/') (path.dropWhile (· == '/')) h
    exact fun heq => hkept (beq_iff_eq.mpr (Option.some.inj heq))

/-- The last segment of a path without its outer slashes is not empty, unless the path is. -/
theorem getLast_segments_ne_nil {path : List Char} (h : trimSlashes path ≠ []) :
    (segments (trimSlashes path)).getLast (segments_ne_nil _) ≠ [] := by
  intro hlast
  have hjoin := @List.intercalate_splitOn _ (trimSlashes path) _ _ '/'
  have hsegments := List.dropLast_append_getLast (segments_ne_nil (trimSlashes path))
  rw [hlast] at hsegments
  rw [← segments_eq_splitOn, ← hsegments] at hjoin
  by_cases hfront : (segments (trimSlashes path)).dropLast = []
  · rw [hfront] at hjoin
    exact h hjoin.symm
  · rw [intercalate_concat_nil '/' hfront] at hjoin
    have hends := congrArg List.getLast? hjoin
    rw [List.getLast?_concat] at hends
    exact getLast?_trimSlashes_ne path hends.symm

/-- The segments of a path without its outer slashes, the last one apart from the others. -/
theorem components_eq_concat {path : List Char} (h : trimSlashes path ≠ []) :
    components path =
      (((segments (trimSlashes path)).dropLast.filter fun s => !s.isEmpty).map String.ofList) ++
        [String.ofList ((segments (trimSlashes path)).getLastD [])] := by
  have hne := segments_ne_nil (trimSlashes path)
  have hlast := getLast_segments_ne_nil h
  have hkept : (!((segments (trimSlashes path)).getLast hne).isEmpty) = true := by simpa using hlast
  rw [← components_trimSlashes, components, List.getLastD_eq_getLast?,
    List.getLast?_eq_some_getLast hne]
  conv_lhs => rw [← List.dropLast_append_getLast hne]
  rw [List.filter_append, List.map_append]
  congr 1
  rw [List.filter_singleton, hkept]
  rfl

/-! ## Look-ups -/

/-- The file of the given name in a directory, looked up through the hash buckets. -/
def findFileIn? (t : Tree) (name : String) (id : Nat) : Option Nat := do
  let dir ← t.dir? id
  let start ← chainStart? t.fileHash dir.tableOffset name
  t.findInFileChain? dir.tableOffset name (t.files.size + 1) start

/-- A directory is looked up by the names on the path. -/
theorem findDir?_eq (t : Tree) (path : String) :
    t.findDir? path = t.findByNames? (pathNames path) := by
  rw [findDir?, components_trimSlashes, components_eq_pathNames]

/-- A file is looked up by the last name on the path in the directory to which the others lead. -/
theorem findFile?_eq (t : Tree) (path : String) :
    t.findFile? path = (t.findByNames? (pathNames path).dropLast).bind
      (t.findFileIn? ((pathNames path).getLastD "")) := by
  rw [← components_eq_pathNames]
  by_cases h : trimSlashes path.toList = []
  · rw [← components_trimSlashes, h, findFile?, h]
    rfl
  · rw [components_eq_concat h, List.dropLast_concat, List.getLastD_concat]
    rfl

end Tree

end Cartridge.RomFs
