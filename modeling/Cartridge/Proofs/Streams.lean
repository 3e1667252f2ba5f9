import Cartridge.Proofs.Contents
import Cartridge.Proofs.Decoding

/-!
# Structures in regions

A region that holds a byte string, read as a stream, gives what the byte string gives, also where the
byte string ends. So a structure is decoded from the region as it is from the bytes.

Results:
* `Region.Holds.streamAt_eq`: the stream of a region gives the bytes that the region holds.
* `Region.Holds.decodeAt_eq`: decoding from a region is decoding from the bytes that it holds.
-/

namespace Cartridge.Region.Holds

variable {media : Media} {r : Region} {bytes : List UInt8} {offset length position : Nat}

/-- A read that passes the end fails. -/
theorem readAt_of_lt (hr : r.Holds media bytes) (h : bytes.length < offset + length) :
    r.readAt media offset length = .error (.outOfBounds offset length bytes.length) := by
  rw [← hr.size_eq] at h ⊢
  exact readAt_of_not_le media (Nat.not_le.mpr h)

/-- **The stream of a region gives the bytes that the region holds**, up to their end. -/
theorem streamAt_eq (hr : r.Holds media bytes) (h : position ≤ bytes.length) :
    r.streamAt media position length = Source.ofBytes bytes position length := by
  unfold streamAt
  dsimp only
  rw [hr.size_eq, hr.readAt_eq (by omega)]
  dsimp only
  by_cases hroom : position + length ≤ bytes.length
  · have havailable : min length (bytes.length - position) = length := by omega
    rw [havailable, if_pos rfl, Source.ofBytes, slice?_of_le hroom]
  · rw [if_neg (by omega), Source.ofBytes, slice?, if_neg hroom]

/-- **Decoding from a region is decoding from the bytes that it holds.** -/
theorem decodeAt_eq {α : Type} (hr : r.Holds media bytes) (layout : Layout α)
    (h : position ≤ bytes.length) :
    layout.decodeAt (r.streamAt media) position = layout.decodeAt (Source.ofBytes bytes) position :=
  layout.decodeAt_eq_of_source (fun _ _ hposition => hr.streamAt_eq hposition) h

end Cartridge.Region.Holds
