/-!
# Byte strings

A byte string of any length is a `List UInt8`. `Bytes n` are the byte strings of exactly `n` bytes:
keys, hashes and the fixed fields of a record have their length in their type.

* `Bytes.ext`: a byte string of known length is its list of bytes.
* `Bytes.fit_toList`: fitting a byte string to its own length changes nothing.
* `slice?_eq_some_iff`: a slice is there exactly when its range lies inside the byte string.
* `slice_slice`, `slice_append_slice`: slices of slices, and slices that meet.
-/

namespace Cartridge

/-- A byte string of exactly `n` bytes. -/
structure Bytes (n : Nat) where
  toList : List UInt8
  length_toList : toList.length = n
deriving DecidableEq

namespace Bytes

attribute [simp] length_toList

@[ext] theorem ext {n : Nat} {a b : Bytes n} (h : a.toList = b.toList) : a = b := by
  cases a
  cases b
  simp only at h
  subst h
  rfl

/-- All zeros. -/
def zero (n : Nat) : Bytes n := ⟨List.replicate n 0, List.length_replicate⟩

instance {n : Nat} : Inhabited (Bytes n) := ⟨zero n⟩

/-- A list as a byte string of `n` bytes, if it has that length. -/
def ofList? (n : Nat) (bytes : List UInt8) : Option (Bytes n) :=
  if h : bytes.length = n then some ⟨bytes, h⟩ else none

/-- The first `n` bytes of a list, filled up with zeros where it is shorter. -/
def fit (n : Nat) (bytes : List UInt8) : Bytes n :=
  ⟨(bytes ++ List.replicate n 0).take n, by simp⟩

theorem toList_fit {n : Nat} {bytes : List UInt8} (h : bytes.length = n) :
    (fit n bytes).toList = bytes := by
  simp [fit, ← h]

@[simp] theorem fit_toList {n : Nat} (b : Bytes n) : fit n b.toList = b :=
  Bytes.ext (toList_fit b.length_toList)

@[simp] theorem ofList?_toList {n : Nat} (b : Bytes n) : ofList? n b.toList = some b := by
  simp [ofList?]

/-- One byte string behind another. -/
def append {m n : Nat} (a : Bytes m) (b : Bytes n) : Bytes (m + n) :=
  ⟨a.toList ++ b.toList, by simp⟩

/-- Bytewise exclusive or. -/
def xor {n : Nat} (a b : Bytes n) : Bytes n :=
  ⟨List.zipWith (· ^^^ ·) a.toList b.toList, by simp⟩

/-- The first half of a byte string of even length. -/
def firstHalf {n : Nat} (b : Bytes (n + n)) : Bytes n :=
  ⟨b.toList.take n, by simp⟩

/-- The second half of a byte string of even length. -/
def secondHalf {n : Nat} (b : Bytes (n + n)) : Bytes n :=
  ⟨b.toList.drop n, by simp⟩

@[simp] theorem firstHalf_append {n : Nat} (a b : Bytes n) : (append a b).firstHalf = a := by
  ext1
  simp [firstHalf, append]

@[simp] theorem secondHalf_append {n : Nat} (a b : Bytes n) : (append a b).secondHalf = b := by
  ext1
  simp [secondHalf, append]

/-- Whether every byte is zero. -/
def isZero {n : Nat} (b : Bytes n) : Bool := b.toList.all (· == 0)

end Bytes

/-! ## Slices -/

/-- The `len` bytes from `offset` on, if the byte string has them all. -/
def slice? (bytes : List UInt8) (offset len : Nat) : Option (List UInt8) :=
  if offset + len ≤ bytes.length then some ((bytes.drop offset).take len) else none

theorem slice?_eq_some_iff {bytes part : List UInt8} {offset len : Nat} :
    slice? bytes offset len = some part ↔
      offset + len ≤ bytes.length ∧ part = (bytes.drop offset).take len := by
  unfold slice?
  split
  case isTrue h => simp only [Option.some.injEq, h, true_and, eq_comm]
  case isFalse h => simp only [h, false_and, reduceCtorEq]

theorem length_of_slice? {bytes part : List UInt8} {offset len : Nat}
    (h : slice? bytes offset len = some part) : part.length = len := by
  obtain ⟨hle, rfl⟩ := slice?_eq_some_iff.1 h
  simp
  omega

/-- The `len` bytes from `offset` on, or as many of them as there are. -/
def slice (bytes : List UInt8) (offset len : Nat) : List UInt8 := (bytes.drop offset).take len

theorem slice?_of_le {bytes : List UInt8} {offset len : Nat} (h : offset + len ≤ bytes.length) :
    slice? bytes offset len = some (slice bytes offset len) :=
  slice?_eq_some_iff.2 ⟨h, rfl⟩

theorem length_slice {bytes : List UInt8} {offset len : Nat} (h : offset + len ≤ bytes.length) :
    (slice bytes offset len).length = len :=
  length_of_slice? (slice?_of_le h)

@[simp] theorem slice_zero_length (bytes : List UInt8) (offset : Nat) : slice bytes offset 0 = [] :=
  List.take_zero

theorem slice_all (bytes : List UInt8) : slice bytes 0 bytes.length = bytes := by
  simp [slice]

/-- A slice of a slice. -/
theorem slice_slice {bytes : List UInt8} {offset len offset' len' : Nat}
    (h : offset' + len' ≤ len) :
    slice (slice bytes offset len) offset' len' = slice bytes (offset + offset') len' := by
  unfold slice
  rw [List.drop_take, List.drop_drop, List.take_take, Nat.min_eq_left (by omega)]

theorem slice_drop (bytes : List UInt8) (n offset len : Nat) :
    slice (bytes.drop n) offset len = slice bytes (n + offset) len := by
  unfold slice
  rw [List.drop_drop]

/-- Two slices that meet are one. -/
theorem slice_append_slice (bytes : List UInt8) (offset m n : Nat) :
    slice bytes offset m ++ slice bytes (offset + m) n = slice bytes offset (m + n) := by
  unfold slice
  rw [List.take_add, List.drop_drop]

/-- Two slices that meet, read as one. -/
theorem slice?_append_eq_some_iff {bytes first second : List UInt8} {offset m n : Nat}
    (hm : first.length = m) :
    slice? bytes offset (m + n) = some (first ++ second) ↔
      slice? bytes offset m = some first ∧ slice? bytes (offset + m) n = some second := by
  simp only [slice?_eq_some_iff]
  constructor
  · rintro ⟨hle, heq⟩
    rw [List.take_add, List.drop_drop] at heq
    have hlen : first.length = ((bytes.drop offset).take m).length := by
      rw [List.length_take, List.length_drop]
      omega
    obtain ⟨hfirst, hsecond⟩ := List.append_inj heq hlen
    exact ⟨⟨by omega, hfirst⟩, by omega, hsecond⟩
  · rintro ⟨⟨-, rfl⟩, hle, rfl⟩
    refine ⟨by omega, ?_⟩
    rw [List.take_add, List.drop_drop]

/-- A byte string between two others. -/
theorem slice?_append (front : List UInt8) {part : List UInt8} (back : List UInt8)
    {offset len : Nat} (hfront : front.length = offset) (hpart : part.length = len) :
    slice? (front ++ (part ++ back)) offset len = some part := by
  subst hfront hpart
  rw [slice?_eq_some_iff, List.drop_left, List.take_left]
  refine ⟨?_, rfl⟩
  simp only [List.length_append]
  omega

/-- The front of two byte strings, one behind the other. -/
theorem slice_append_left {front : List UInt8} {n : Nat} (h : front.length = n)
    (back : List UInt8) : slice (front ++ back) 0 n = front :=
  List.take_left' h

/-- What lies behind the front. -/
theorem slice_append_right {front : List UInt8} {n : Nat} (h : front.length = n)
    (back : List UInt8) (offset len : Nat) :
    slice (front ++ back) (n + offset) len = slice back offset len := by
  unfold slice
  rw [← List.drop_drop, List.drop_left' h]

/-- Byte strings of the same length, one behind the other. -/
theorem length_flatMap {α : Type} {f : α → List UInt8} {n : Nat} (hf : ∀ a, (f a).length = n)
    (as : List α) : (as.flatMap f).length = as.length * n := by
  induction as with
  | nil => exact (Nat.zero_mul n).symm
  | cons a rest ih =>
    rw [List.flatMap_cons, List.length_append, hf, ih, List.length_cons, Nat.succ_mul, Nat.add_comm]

/-- One of many byte strings of the same length, one behind the other. -/
theorem slice_flatMap {α : Type} {f : α → List UInt8} {n : Nat} (hf : ∀ a, (f a).length = n)
    (as : List α) {i : Nat} (h : i < as.length) :
    slice (as.flatMap f) (i * n) n = f as[i] := by
  induction as generalizing i with
  | nil => exact absurd h (Nat.not_lt_zero i)
  | cons a rest ih =>
    rw [List.flatMap_cons]
    cases i with
    | zero =>
      rw [Nat.zero_mul]
      exact slice_append_left (hf a) _
    | succ i =>
      rw [Nat.succ_mul, Nat.add_comm, slice_append_right (hf a)]
      exact ih (Nat.lt_of_succ_lt_succ h)

theorem getElem?_slice {bytes : List UInt8} {offset len i : Nat} (h : i < len) :
    (slice bytes offset len)[i]? = bytes[offset + i]? := by
  unfold slice
  rw [List.getElem?_take_of_lt h, List.getElem?_drop]

/-- A byte that is replaced behind a slice. -/
theorem slice_set_of_le {bytes : List UInt8} {offset len n : Nat} (h : offset + len ≤ n) (b : UInt8) :
    slice (bytes.set n b) offset len = slice bytes offset len := by
  unfold slice
  rw [List.drop_set, if_neg (by omega), List.take_set_of_le (by omega)]

/-- A byte that is replaced in front of a slice. -/
theorem slice_set_of_lt {bytes : List UInt8} {offset len n : Nat} (h : n < offset) (b : UInt8) :
    slice (bytes.set n b) offset len = slice bytes offset len := by
  unfold slice
  rw [List.drop_set_of_lt h]

/-- A byte that is replaced in a slice. -/
theorem slice_set (bytes : List UInt8) (offset len n : Nat) (b : UInt8) :
    slice (bytes.set (offset + n) b) offset len = (slice bytes offset len).set n b := by
  unfold slice
  rw [List.drop_set, if_neg (by omega), Nat.add_sub_cancel_left, List.take_set]

/-- The byte string with the bytes from `offset` on replaced by `patch`, if `patch` fits in there. -/
def splice? (bytes : List UInt8) (offset : Nat) (patch : List UInt8) : Option (List UInt8) :=
  if offset + patch.length ≤ bytes.length then
    some (bytes.take offset ++ patch ++ bytes.drop (offset + patch.length))
  else none

theorem length_of_splice? {bytes patch result : List UInt8} {offset : Nat}
    (h : splice? bytes offset patch = some result) : result.length = bytes.length := by
  unfold splice? at h
  split at h
  · cases h
    simp
    omega
  · cases h

end Cartridge
