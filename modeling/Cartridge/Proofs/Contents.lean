import Cartridge.Storage.View
import Mathlib.Algebra.GroupWithZero.Nat

/-!
# What a region holds

A region without faults is a byte string: a read within its bounds succeeds and gives the bytes that
are there (`Region.Holds`). A medium without faults holds its bytes, and a part of a region holds a
slice of what the region holds. What a region behind a cipher holds is the subject of the modules on
counter mode and on sectors.

Results:
* `Medium.read_eq`: a medium without faults gives a slice of its bytes.
* `Region.holds_medium`, `Region.holds_memory`, `Region.Holds.part`: whole media and parts of
  regions.
* `Region.Holds.readPieces_eq`: reading a range in adjacent pieces is reading it at once.
-/

namespace Cartridge

/-! ## Media -/

namespace Medium

/-- A medium whose reads within its size all succeed. -/
def FaultFree : Medium → Prop
  | memory _ => True
  | device d => ∀ offset length, offset + length ≤ d.size → d.fault offset length = none

/-- All bytes of a medium. -/
def bytes : Medium → List UInt8
  | memory bytes => bytes
  | device d => (List.range d.size).map d.byte

theorem length_bytes (m : Medium) : m.bytes.length = m.size := by
  cases m with
  | memory bytes => rfl
  | device d => simp [bytes, size]

theorem slice_map_range (f : Nat → UInt8) {n offset length : Nat} (h : offset + length ≤ n) :
    slice ((List.range n).map f) offset length
      = (List.range length).map fun i => f (offset + i) := by
  apply List.ext_getElem?
  intro i
  by_cases hi : i < length
  · rw [getElem?_slice hi]
    simp [hi, show offset + i < n by omega]
  · rw [List.getElem?_eq_none, List.getElem?_eq_none]
    · simp; omega
    · rw [length_slice (by simpa using h)]; omega

theorem read_eq {m : Medium} (hm : m.FaultFree) {offset length : Nat}
    (h : offset + length ≤ m.size) : m.read offset length = .ok (slice m.bytes offset length) := by
  cases m with
  | memory bytes =>
    have hs : slice? bytes offset length = some (slice bytes offset length) := slice?_of_le h
    simp only [read, hs, Medium.bytes]
  | device d =>
    have hd : d.fault offset length = none := hm offset length h
    have hb : slice ((List.range d.size).map d.byte) offset length
        = (List.range length).map fun i => d.byte (offset + i) := slice_map_range d.byte h
    simp only [read, Device.read, hd, Medium.bytes, hb]

end Medium

/-! ## Regions -/

namespace Region

variable {media : Media} {r base : Region} {bytes : List UInt8} {offset length size : Nat}

theorem checkRange_of_le (h : offset + length ≤ size) : checkRange size offset length = .ok () :=
  if_pos h

theorem readWithin_eq (fetch : Nat → Nat → Except Error (List UInt8))
    (h : offset + length ≤ size) :
    readWithin size fetch offset length = if length = 0 then .ok [] else fetch offset length := by
  unfold readWithin
  rw [checkRange_of_le h]
  rfl

/-- What follows the check of a range succeeds only if the range is there. -/
theorem checkRange_bind_eq_ok_iff {α : Type} {f : Unit → Except Error α} {x : α} :
    (checkRange size offset length >>= f) = .ok x ↔ offset + length ≤ size ∧ f () = .ok x := by
  unfold checkRange
  by_cases h : offset + length ≤ size
  · rw [if_pos h]
    exact (and_iff_right h).symm
  · rw [if_neg h]
    exact iff_of_false nofun fun hf => h hf.1

theorem subregion_eq_ok_iff :
    base.subregion offset size = .ok r ↔ offset + size ≤ base.size ∧ r = part base offset size := by
  unfold subregion
  rw [checkRange_bind_eq_ok_iff]
  simp only [pure, Except.pure, Except.ok.injEq, eq_comm]

theorem decryptCounter_eq_ok_iff {layer : CounterLayer} :
    base.decryptCounter layer = .ok r
      ↔ layer.start + layer.size ≤ base.size ∧ r = counter base layer := by
  unfold decryptCounter
  rw [checkRange_bind_eq_ok_iff]
  simp only [pure, Except.pure, Except.ok.injEq, eq_comm]

theorem decryptXts_eq_ok_iff {layer : XtsLayer} :
    base.decryptXts layer = .ok r
      ↔ layer.sectionStart + layer.sectionSize ≤ base.size
        ∧ layer.dataOffset + layer.size ≤ layer.sectionSize ∧ r = xts base layer := by
  unfold decryptXts
  rw [checkRange_bind_eq_ok_iff]
  refine and_congr_right fun _ => ?_
  split
  · rename_i h
    simp only [pure, Except.pure, Except.ok.injEq, h, true_and, eq_comm]
  · rename_i h
    simp only [throw, throwThe, MonadExceptOf.throw, h, false_and, reduceCtorEq]

/-- A read that leaves the bounds is refused. -/
theorem readAt_of_not_le (media : Media) (h : ¬ offset + length ≤ r.size) :
    r.readAt media offset length = .error (.outOfBounds offset length r.size) := by
  unfold readAt readWithin checkRange
  rw [if_neg h]
  rfl

theorem le_of_readAt (h : r.readAt media offset length = .ok bytes) : offset + length ≤ r.size := by
  by_cases hle : offset + length ≤ r.size
  · exact hle
  · rw [readAt_of_not_le media hle] at h
    cases h

/-- A region holds a byte string: it has its size, which is a 64-bit number, and a read within its
bounds gives the bytes that are there. -/
structure Holds (media : Media) (r : Region) (bytes : List UInt8) : Prop where
  size_eq : r.size = bytes.length
  addressable : bytes.length < UInt64.size
  readAt_eq : ∀ {offset length : Nat}, offset + length ≤ bytes.length →
    r.readAt media offset length = .ok (slice bytes offset length)

/-- It suffices to look at reads that reach what holds the bytes. -/
theorem holds_of_fetch (hs : r.size = bytes.length) (ha : bytes.length < UInt64.size)
    (hf : ∀ offset length, 0 < length → offset + length ≤ bytes.length →
      r.fetch media offset length = .ok (slice bytes offset length)) : r.Holds media bytes := by
  constructor
  · exact hs
  · exact ha
  intro offset length h
  unfold readAt
  rw [readWithin_eq _ (by rw [hs]; exact h)]
  split
  · rename_i h0
    rw [h0, slice_zero_length]
  · exact hf offset length (by omega) h

theorem Holds.fetch_eq (hr : r.Holds media bytes) (hpos : 0 < length)
    (h : offset + length ≤ bytes.length) :
    r.fetch media offset length = .ok (slice bytes offset length) := by
  have hread := hr.readAt_eq h
  unfold readAt at hread
  rw [readWithin_eq _ (by rw [hr.size_eq]; exact h), if_neg (by omega)] at hread
  exact hread

/-- Reading all of a region gives all that it holds. -/
theorem Holds.readAll_eq (hr : r.Holds media bytes) : r.readAll media = .ok bytes := by
  rw [readAll, hr.size_eq, hr.readAt_eq (Nat.le_of_eq (Nat.zero_add _)), slice_all]

/-- A whole medium holds the medium's bytes. -/
theorem holds_medium {id : Nat} (hm : (media.get id).FaultFree)
    (ha : (media.get id).size < UInt64.size) :
    (medium id (media.get id).size).Holds media (media.get id).bytes := by
  have hlen := (media.get id).length_bytes
  exact holds_of_fetch hlen.symm (by omega) fun _ _ _ h => Medium.read_eq hm (by omega)

/-- A byte string in memory. -/
theorem holds_memory (h : bytes.length = size) (ha : size < UInt64.size) :
    (medium 0 size).Holds ⟨[.memory bytes]⟩ bytes := by
  subst h
  have hm : ((⟨[.memory bytes]⟩ : Media).get 0).FaultFree := trivial
  exact holds_medium hm ha

/-- A part of a region holds a slice of what the region holds. -/
theorem Holds.part (hb : base.Holds media bytes) (h : offset + size ≤ base.size) :
    (Region.part base offset size).Holds media (slice bytes offset size) := by
  have hsize := hb.size_eq
  have ha := hb.addressable
  have hlen : (slice bytes offset size).length = size := length_slice (by omega)
  refine holds_of_fetch hlen.symm (by omega) ?_
  intro o n hpos hle
  show base.fetch media (offset + o) n = _
  rw [hb.fetch_eq hpos (by omega), slice_slice (by omega)]

end Region

/-! ## Reading in pieces -/

/-- Reads pieces of the given lengths, each behind the one before it, and joins them. -/
def View.readPieces (v : View) (media : Media) : (offset : Nat) → (lengths : List Nat) →
    Except Error (List UInt8)
  | _, [] => return []
  | offset, length :: rest => do
    let piece ← v.readAt media offset length
    let others ← v.readPieces media (offset + length) rest
    return piece ++ others

/-- **Splitting a range does not change what is read.** -/
theorem Region.Holds.readPieces_eq {media : Media} {v : View} {bytes : List UInt8}
    (hv : v.region.Holds media bytes) {offset : Nat} {lengths : List Nat}
    (h : offset + lengths.sum ≤ bytes.length) :
    v.readPieces media offset lengths = v.readAt media offset lengths.sum := by
  show _ = v.region.readAt media offset lengths.sum
  rw [hv.readAt_eq h]
  induction lengths generalizing offset with
  | nil => simp [View.readPieces, pure, Except.pure]
  | cons length rest ih =>
    rw [List.sum_cons] at h ⊢
    have hpiece : v.readAt media offset length = .ok (slice bytes offset length) :=
      hv.readAt_eq (by omega)
    rw [View.readPieces, hpiece, ih (by omega), ← slice_append_slice]
    rfl

end Cartridge
