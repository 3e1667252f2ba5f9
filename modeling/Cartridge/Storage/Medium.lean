import Cartridge.Error

/-!
# Media

Where bytes are kept: memory, which can be written, or a device, which can only be read and whose
reads may fail. Media are numbered; a view names its medium and finds there the bytes as they are at
the moment of the access.

* `Medium.length_read`: a read that succeeds gives as many bytes as were asked for.
* `Medium.size_write`: writing does not change a medium's size.
-/

namespace Cartridge

/-- A device: its bytes, and which reads fail. -/
structure Device where
  size : Nat
  byte : Nat → UInt8
  /-- Why a read of `length` bytes from `offset` on fails, if it does. -/
  fault : (offset length : Nat) → Option Error

namespace Device

/-- Reads `length` bytes from `offset` on. -/
def read (d : Device) (offset length : Nat) : Except Error (List UInt8) :=
  match d.fault offset length with
  | some e => .error e
  | none => .ok ((List.range length).map fun i => d.byte (offset + i))

/-- A device that holds the given bytes. A read that passes its end fails. -/
def ofBytes (bytes : List UInt8) : Device :=
  let stored := bytes.toArray
  { size := stored.size
    byte := fun i => stored.getD i 0
    fault := fun offset length =>
      if length = 0 ∨ offset + length ≤ stored.size then none
      else some (.truncated .streamEnd) }

end Device

/-- A place where bytes are kept. -/
inductive Medium where
  | memory (bytes : List UInt8)
  | device (d : Device)

namespace Medium

instance : Inhabited Medium := ⟨memory []⟩

/-- The number of bytes. -/
def size : Medium → Nat
  | memory bytes => bytes.length
  | device d => d.size

/-- Reads `length` bytes from `offset` on. -/
def read : Medium → (offset length : Nat) → Except Error (List UInt8)
  | memory bytes, offset, length =>
    match slice? bytes offset length with
    | some part => .ok part
    | none => .error (.outOfBounds offset length bytes.length)
  | device d, offset, length => d.read offset length

/-- Replaces the bytes from `offset` on. -/
def write : Medium → (offset : Nat) → List UInt8 → Except Error Medium
  | memory bytes, offset, patch =>
    match splice? bytes offset patch with
    | some bytes' => .ok (memory bytes')
    | none => .error (.outOfBounds offset patch.length bytes.length)
  | device _, _, _ => .error (.unsupported .readOnly)

theorem length_read {m : Medium} {offset length : Nat} {part : List UInt8}
    (h : m.read offset length = .ok part) : part.length = length := by
  cases m with
  | memory bytes =>
    simp only [read] at h
    split at h
    · rename_i hs
      cases h
      exact length_of_slice? hs
    · cases h
  | device d =>
    simp only [read, Device.read] at h
    split at h
    · cases h
    · cases h
      simp

theorem size_write {m m' : Medium} {offset : Nat} {patch : List UInt8}
    (h : m.write offset patch = .ok m') : m'.size = m.size := by
  cases m with
  | memory bytes =>
    simp only [write] at h
    split at h
    · rename_i hs
      cases h
      exact length_of_splice? hs
    · cases h
  | device d => cases h

end Medium

/-- The media at hand, by number. -/
structure Media where
  list : List Medium

namespace Media

/-- No media. -/
def empty : Media := ⟨[]⟩

/-- The medium with the given number; there is an empty one behind every unused number. -/
def get (m : Media) (id : Nat) : Medium := m.list.getD id (.memory [])

/-- Adds a medium, whose number is that of media before. -/
def add (m : Media) (medium : Medium) : Media × Nat := (⟨m.list ++ [medium]⟩, m.list.length)

/-- Replaces the medium with the given number. -/
def set (m : Media) (id : Nat) (medium : Medium) : Media := ⟨m.list.set id medium⟩

/-- Writes to the medium with the given number. -/
def write (m : Media) (id offset : Nat) (patch : List UInt8) : Except Error Media := do
  let medium ← (m.get id).write offset patch
  return m.set id medium

end Media

end Cartridge
