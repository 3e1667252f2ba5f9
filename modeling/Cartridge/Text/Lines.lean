/-!
# Lines

A line ends at a line feed or at the end of the text. One carriage return in front of a line feed
belongs to the line's end; a carriage return anywhere else belongs to the line. A text that ends in
a line feed has no empty line behind it.

The same splitting serves characters and bytes.

* `join_split`: the segments between separators, put together again, are the text.
* `split_join`: segments without separators, put together, are found again.
-/

namespace Cartridge.Text

variable {α : Type} [BEq α]

/-- The segment up to the first separator, and the segments behind each separator. -/
def split (separator : α) : List α → List α × List (List α)
  | [] => ([], [])
  | c :: rest =>
    let (segment, more) := split separator rest
    if c == separator then ([], segment :: more) else (c :: segment, more)

/-- Segments put together with a separator between them. -/
def join (separator : α) (first : List α) (more : List (List α)) : List α :=
  first ++ more.flatMap (separator :: ·)

theorem join_split [LawfulBEq α] (separator : α) (text : List α) :
    join separator (split separator text).1 (split separator text).2 = text := by
  induction text with
  | nil => rfl
  | cons c rest ih =>
    unfold split
    by_cases h : c = separator
    · subst h
      simpa [join] using ih
    · simpa [join, h] using ih

omit [BEq α] in
theorem join_cons (separator : α) (first next : List α) (more : List (List α)) :
    join separator first (next :: more) = first ++ separator :: join separator next more := by
  simp [join]

/-- No segment has a separator in it. -/
theorem not_mem_of_mem_split [LawfulBEq α] (separator : α) (text : List α) :
    ∀ segment ∈ (split separator text).1 :: (split separator text).2, separator ∉ segment := by
  induction text with
  | nil => simp [split]
  | cons c rest ih =>
    rw [List.forall_mem_cons] at ih
    unfold split
    by_cases h : c = separator
    · simpa [h] using ih
    · simpa [h, Ne.symm h] using ih

section Segments

variable [LawfulBEq α] {separator : α} {line : List α}

theorem split_of_not_mem (h : separator ∉ line) : split separator line = (line, []) := by
  induction line with
  | nil => rfl
  | cons c rest ih =>
    rw [List.mem_cons, not_or] at h
    rw [split, ih h.2]
    simp [Ne.symm h.1]

theorem split_append_separator (h : separator ∉ line) (rest : List α) :
    split separator (line ++ separator :: rest) =
      (line, (split separator rest).1 :: (split separator rest).2) := by
  induction line with
  | nil => simp [split]
  | cons c line ih =>
    rw [List.mem_cons, not_or] at h
    rw [List.cons_append, split, ih h.2]
    simp [Ne.symm h.1]

theorem split_join {first : List α} {more : List (List α)}
    (h : ∀ segment ∈ first :: more, separator ∉ segment) :
    split separator (join separator first more) = (first, more) := by
  induction more generalizing first with
  | nil =>
    rw [List.forall_mem_cons] at h
    rw [join, List.flatMap_nil, List.append_nil, split_of_not_mem h.1]
  | cons next more ih =>
    rw [List.forall_mem_cons] at h
    rw [join_cons, split_append_separator h.1, ih h.2]

end Segments

/-- A list without its last element if that is `c`. -/
def dropLastIf (c : α) (line : List α) : List α :=
  if line.getLast? == some c then line.dropLast else line

/-- The lines that segments between line feeds make up. -/
def linesOfSegments (ret : α) : List α → List (List α) → List (List α)
  | last, [] => if last.isEmpty then [] else [last]
  | line, next :: more => dropLastIf ret line :: linesOfSegments ret next more

/-- The lines of a text with the given line feed and carriage return. -/
def linesBy (feed ret : α) (text : List α) : List (List α) :=
  linesOfSegments ret (split feed text).1 (split feed text).2

/-- The lines of a text. -/
def lines (text : List Char) : List (List Char) := linesBy '\n' '\r' text

/-- The lines of a byte string. -/
def byteLines (bytes : List UInt8) : List (List UInt8) := linesBy 0x0A 0x0D bytes

end Cartridge.Text
