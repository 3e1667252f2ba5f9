import Cartridge.Storage.Region

/-!
# Views

A view is a region with a cursor. Reading and writing at the cursor move it by the number of bytes;
a read or write that does not fit fails and leaves the cursor where it was. Reading as a stream gives
what is left instead. Copies of a view have cursors of their own.
-/

namespace Cartridge

/-- A region and a position in it. -/
structure View where
  region : Region
  position : Nat

/-- Where a cursor is to go. -/
inductive Target where
  /-- An offset from the start. -/
  | fromStart (offset : Nat)
  /-- A distance from the end. -/
  | fromEnd (distance : Int)
  /-- A distance from where the cursor is. -/
  | fromCursor (distance : Int)

namespace View

/-- A view of a whole region with its cursor at the start. -/
def ofRegion (r : Region) : View := ⟨r, 0⟩

/-- The number of bytes. -/
def size (v : View) : Nat := v.region.size

/-- Where the view begins in its medium. -/
def parentOffset (v : View) : Nat := v.region.parentOffset

/-- The part of a view from `offset` on, with its cursor at the start. -/
def subview (v : View) (offset size : Nat) : Except Error View := do
  let r ← v.region.subregion offset size
  return ofRegion r

/-- The view's place and cursor in words. -/
def describe (v : View) : String :=
  "ByteView \x7b origin: " ++ toString v.region.origin ++ ", len: " ++ toString v.size ++
    ", pos: " ++ toString v.position ++ ", parent_offset: " ++ toString v.parentOffset ++ " \x7d"

/-- Reads at an offset; the cursor stays. -/
def readAt (v : View) (media : Media) (offset length : Nat) : Except Error (List UInt8) :=
  v.region.readAt media offset length

/-- Reads at the cursor and moves it. -/
def read (v : View) (media : Media) (length : Nat) : Except Error (List UInt8 × View) := do
  let bytes ← v.readAt media v.position length
  return (bytes, { v with position := v.position + length })

/-- Writes at the cursor and moves it. -/
def write (v : View) (media : Media) (bytes : List UInt8) : Except Error (View × Media) := do
  let media ← v.region.writeAt media v.position bytes
  return ({ v with position := v.position + bytes.length }, media)

/-- The position that a target names. -/
def Target.position (v : View) : Target → Int
  | .fromStart offset => offset
  | .fromEnd distance => v.size + distance
  | .fromCursor distance => v.position + distance

/-- A position as an address of 64 bits; the greatest one stands for those that are none. -/
def address (position : Int) : Nat :=
  if 0 ≤ position ∧ position < UInt64.size then position.toNat else UInt64.size - 1

/-- Moves the cursor to a position in the view or to its end. -/
def seek (v : View) (target : Target) : Except Error View :=
  let position := Target.position v target
  if 0 ≤ position ∧ position ≤ v.size then .ok { v with position := position.toNat }
  else .error (.outOfBounds (address position) 0 v.size)

/-! ## As a stream -/

/-- Reads at the cursor and moves it; fewer bytes than asked for if the view ends before. -/
def readStream (v : View) (media : Media) (length : Nat) : Except Error (List UInt8 × View) :=
  let available := min length (v.size - v.position)
  match v.readAt media v.position available with
  | .error e => .error (.stream e.toStreamFailure)
  | .ok bytes => .ok (bytes, { v with position := v.position + available })

/-- Reads from the cursor to the end. -/
def readToEnd (v : View) (media : Media) : Except Error (List UInt8 × View) :=
  v.readStream media (v.size - v.position)

/-- Moves the cursor, with the failure of a stream. -/
def seekStream (v : View) (target : Target) : Except Error View :=
  match v.seek target with
  | .ok v' => .ok v'
  | .error _ => .error (.stream .seekOutside)

end View

end Cartridge
