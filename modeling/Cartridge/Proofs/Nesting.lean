import Cartridge.Proofs.CounterMode
import Cartridge.Proofs.Sectors

/-!
# Views nest

Parts and ciphers can be laid over one another to any depth. What a nested region shows is computed
from the bytes of its medium alone (`Region.contents`), from the inside out: a part cuts, counter mode
adds its key stream, XTS decrypts its section at once. Every construction that was accepted over media
without faults shows exactly that, so nothing more has to be assumed of the region below a cipher than
that it was built this way.

The conditions are those under which the constructors promise anything: reads of the medium succeed
within its size, its size is a 64-bit number, and the section of an XTS layer ends in a whole sector or
in one that is not too short for stealing (`XtsLayer.Sectored`).

Results:
* `Region.Nested.holds`: every nested region holds its contents.
* `Region.Nested.readAt_isOk_iff`: a read succeeds exactly within the bounds.
-/

namespace Cartridge.Region

variable {media : Media} {r base : Region}

/-- What a region shows, from the bytes of its medium. -/
def contents (media : Media) : Region → List UInt8
  | medium id _ => (media.get id).bytes
  | part base offset size => slice (contents media base) offset size
  | counter base layer =>
    Counter.mask (Aes.cipher layer.key) layer.upper layer.start
      (slice (contents media base) layer.start layer.size)
  | xts base layer =>
    slice (layer.plain (slice (contents media base) layer.sectionStart layer.sectionSize))
      layer.dataOffset layer.size

/-- A region that accepted constructions nest over media without faults. -/
inductive Nested (media : Media) : Region → Prop where
  | medium (id : Nat) (hfaults : (media.get id).FaultFree)
      (hsize : (media.get id).size < UInt64.size) : Nested media (.medium id (media.get id).size)
  | part {base r : Region} {offset size : Nat} (hbase : Nested media base)
      (hr : base.subregion offset size = .ok r) : Nested media r
  | counter {base r : Region} {layer : CounterLayer} (hbase : Nested media base)
      (hr : base.decryptCounter layer = .ok r) : Nested media r
  | xts {base r : Region} {layer : XtsLayer} (hbase : Nested media base)
      (hr : base.decryptXts layer = .ok r) (hl : layer.Sectored) : Nested media r

/-- **Every nested region holds its contents.** -/
theorem Nested.holds (h : Nested media r) : r.Holds media (r.contents media) := by
  induction h with
  | medium id hfaults hsize => exact holds_medium hfaults hsize
  | part hbase hr ih =>
    obtain ⟨hle, rfl⟩ := subregion_eq_ok_iff.mp hr
    exact ih.part hle
  | counter hbase hr ih =>
    obtain ⟨hle, rfl⟩ := decryptCounter_eq_ok_iff.mp hr
    exact ih.counter hle
  | xts hbase hr hl ih =>
    obtain ⟨hle, hd, rfl⟩ := decryptXts_eq_ok_iff.mp hr
    exact ih.xts hl hle hd

theorem Nested.length_contents (h : Nested media r) : (r.contents media).length = r.size :=
  h.holds.size_eq.symm

/-- A read within a nested region succeeds, and no other does. -/
theorem Nested.readAt_isOk_iff (h : Nested media r) {offset length : Nat} :
    (∃ bytes, r.readAt media offset length = .ok bytes) ↔ offset + length ≤ r.size := by
  constructor
  · rintro ⟨bytes, hread⟩
    exact le_of_readAt hread
  · intro hle
    exact ⟨_, h.holds.readAt_eq (by rw [h.length_contents]; exact hle)⟩

end Cartridge.Region
