import Cartridge.Partition.Archive
import Cartridge.Proofs.Contents

/-!
# Regions that show the same

Two regions are alike if they have one size and every read of the one gives what the same read of the
other gives, bytes or error. They may lie in different media, or in the same media at different times.
What is read from a region depends on nothing else, so alike regions have the same structures, tables
and hashes, down to the events of reading them.

Results:
* `Region.Alike.of_holds`: regions that hold the same bytes are alike.
* `Region.Alike.part`: the same parts of alike regions are alike.
* `Region.Alike.readTable_eq`, `Region.Alike.hashOfPrefix_eq`: what alike regions have in common.
* `Region.readAt_eq_of_part`: a read is determined by the part that it reads.
-/

namespace Cartridge.Region

variable {media media' : Media} {r r' : Region} {bytes : List UInt8} {offset length size : Nat}

/-- Two regions show the same, each in its media. -/
structure Alike (media media' : Media) (r r' : Region) : Prop where
  size_eq : r'.size = r.size
  readAt_eq : ∀ offset length, r'.readAt media' offset length = r.readAt media offset length

/-- A read of a part is a read of what it is a part of. -/
theorem readAt_part (media : Media) (hpart : offset + size ≤ r.size) {start : Nat}
    (h : start + length ≤ size) :
    (part r offset size).readAt media start length = r.readAt media (offset + start) length := by
  have hin : start + length ≤ (part r offset size).size := h
  unfold readAt
  rw [readWithin_eq _ hin, readWithin_eq _ (by omega)]
  rfl

namespace Alike

theorem of_holds (h : r.Holds media bytes) (h' : r'.Holds media' bytes) : Alike media media' r r' := by
  have hsize : r'.size = r.size := h'.size_eq.trans h.size_eq.symm
  refine ⟨hsize, fun offset length => ?_⟩
  by_cases hle : offset + length ≤ bytes.length
  · rw [h.readAt_eq hle, h'.readAt_eq hle]
  · rw [readAt_of_not_le media (by rwa [h.size_eq]), readAt_of_not_le media' (by rwa [h'.size_eq]),
      hsize]

/-- Alike regions have the same parts. -/
theorem part (h : Alike media media' r r') (hle : offset + size ≤ r.size) :
    Alike media media' (part r offset size) (part r' offset size) := by
  refine ⟨rfl, fun start length => ?_⟩
  by_cases hin : start + length ≤ size
  · have hle' : offset + size ≤ r'.size := by
      rw [h.size_eq]
      exact hle
    rw [readAt_part media hle hin, readAt_part media' hle' hin, h.readAt_eq]
  · have hout (base : Region) (media : Media) :=
      readAt_of_not_le (r := Region.part base offset size) media hin
    rw [hout, hout]
    rfl

theorem streamAt_eq (h : Alike media media' r r') : r'.streamAt media' = r.streamAt media := by
  funext position length
  unfold streamAt
  simp only [h.size_eq, h.readAt_eq]

theorem readTable_eq {F : Partition.Flavor} (h : Alike media media' r r') :
    Partition.Table.read F r' media' = Partition.Table.read F r media := by
  unfold Partition.Table.read Partition.magicOf
  simp only [h.streamAt_eq, h.size_eq, h.readAt_eq]

theorem readChunks_eq (h : Alike media media' r r') (count offset length : Nat) :
    Partition.readChunks r' media' count offset length
      = Partition.readChunks r media count offset length := by
  induction count generalizing offset length with
  | zero => rfl
  | succ count ih =>
    unfold Partition.readChunks
    simp only [h.readAt_eq, ih]

theorem hashOfPrefix_eq (h : Alike media media' r r') (length : Nat) :
    Partition.hashOfPrefix r' media' length = Partition.hashOfPrefix r media length := by
  unfold Partition.hashOfPrefix
  rw [h.readChunks_eq]

end Alike

/-- A read is determined by the part that it reads. -/
theorem readAt_eq_of_part (h : Alike media media' (part r offset length) (part r offset length)) :
    r.readAt media' offset length = r.readAt media offset length := by
  by_cases hle : offset + length ≤ r.size
  · have hread := h.readAt_eq 0 length
    have hzero : 0 + length ≤ length := by omega
    rw [readAt_part media' hle hzero, readAt_part media hle hzero, Nat.add_zero] at hread
    exact hread
  · rw [readAt_of_not_le media' hle, readAt_of_not_le media hle]

end Cartridge.Region
