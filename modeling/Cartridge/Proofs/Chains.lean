import Cartridge.Proofs.Addresses
import Cartridge.Traced

/-!
# Chains of constructions

From the view of a whole medium, views are made of views: a part of one, counter mode over one, XTS over
one. Whatever the chain, its view begins in the medium where the offsets of its constructions add up to,
and shows what is there as far as its own size goes, and no further.

A read goes down the chain. A part passes it on, a cipher widens it and reads from the view below, which
checks it, until it comes to the medium. `Region.serve` is such a read with a record of every read that
a medium or a cipher receives for it (`result_serveAt`).

Results:
* `Region.Built.within_of_mem_serve`: a medium or a cipher receives no read that leaves its bounds.
* `Region.Bare.readAt_eq`: parts of a medium give the bytes of the medium.
* `View.chain_addresses_medium`: a chain of constructions addresses its medium exactly.
-/

namespace Cartridge

/-- A read within a medium that succeeds gives what is there. -/
theorem Medium.eq_slice_of_read {m : Medium} {offset length : Nat} {part : List UInt8}
    (hle : offset + length ≤ m.size) (h : m.read offset length = .ok part) :
    part = slice m.bytes offset length := by
  cases m with
  | memory bytes =>
    have hread := Medium.read_eq (m := .memory bytes) trivial hle
    rw [h] at hread
    exact Except.ok.inj hread
  | device d =>
    simp only [Medium.read, Device.read] at h
    split at h
    · cases h
    · cases h
      exact (Medium.slice_map_range d.byte hle).symm

/-! ## Reads and what they take -/

/-- A read that a medium or a cipher receives. -/
structure Request where
  storage : Region
  offset : Nat
  length : Nat

/-- The read does not leave the bounds of what receives it. -/
def Request.Within (q : Request) : Prop := q.offset + q.length ≤ q.storage.size

/-- What a read gives, and the reads that media and ciphers receive for it, also those that fail. -/
structure Served where
  result : Except Error (List UInt8)
  requests : List Request

namespace Region

variable {media : Media} {r : Region}

/-- Reads a range that lies in `size` bytes, as `readWithin` does. -/
def serveWithin (size : Nat) (serve : Nat → Nat → Served) (offset length : Nat) : Served :=
  match checkRange size offset length with
  | .error e => ⟨.error e, []⟩
  | .ok _ => if length = 0 then ⟨.ok [], []⟩ else serve offset length

/-- Reads without looking at the region's bounds, as `fetch` does. -/
def serve (media : Media) : Region → (offset length : Nat) → Served
  | medium id size, offset, length =>
    ⟨(media.get id).read offset length, [⟨medium id size, offset, length⟩]⟩
  | part base start _, offset, length => serve media base (start + offset) length
  | counter base layer, offset, length =>
    let aligned := layer.alignedStart offset
    let skip := layer.start + offset - aligned
    let below := serveWithin base.size (serve media base) aligned (skip + length)
    { result := do
        let raw ← below.result
        return (layer.decrypt offset raw).drop skip
      requests := ⟨counter base layer, offset, length⟩ :: below.requests }
  | xts base layer, offset, length =>
    let first := layer.firstSector offset
    let aligned := first * sectorSize
    let below := serveWithin base.size (serve media base) (layer.sectionStart + aligned)
      (layer.alignedEnd offset length - aligned)
    { result := do
        let raw ← below.result
        let plain := (XtsLayer.cipher layer.key).decryptArea sectorSize first raw
        return (plain.drop (layer.dataOffset + offset - aligned)).take length
      requests := ⟨xts base layer, offset, length⟩ :: below.requests }

/-- Reads as `readAt` does. -/
def serveAt (r : Region) (media : Media) (offset length : Nat) : Served :=
  serveWithin r.size (r.serve media) offset length

theorem result_serveWithin {serve : Nat → Nat → Served}
    {fetch : Nat → Nat → Except Error (List UInt8)} (h : ∀ o l, (serve o l).result = fetch o l)
    (size offset length : Nat) :
    (serveWithin size serve offset length).result = readWithin size fetch offset length := by
  unfold serveWithin readWithin
  cases checkRange size offset length with
  | error e => rfl
  | ok _ =>
    dsimp only [bind, Except.bind]
    split
    · rfl
    · exact h offset length

theorem result_serve (r : Region) (offset length : Nat) :
    (r.serve media offset length).result = r.fetch media offset length := by
  induction r generalizing offset length with
  | medium id size => rfl
  | part base start size ih => exact ih (start + offset) length
  | counter base layer ih => simp only [serve, fetch, result_serveWithin ih]
  | xts base layer ih => simp only [serve, fetch, result_serveWithin ih]

/-- The record belongs to the read: what is read is the same. -/
theorem result_serveAt (r : Region) (offset length : Nat) :
    (r.serveAt media offset length).result = r.readAt media offset length :=
  result_serveWithin (fun o l => r.result_serve o l) r.size offset length

theorem within_of_mem_serveWithin {serve : Nat → Nat → Served} {size : Nat}
    (h : ∀ {o l}, o + l ≤ size → ∀ q ∈ (serve o l).requests, q.Within) (offset length : Nat) :
    ∀ q ∈ (serveWithin size serve offset length).requests, q.Within := by
  unfold serveWithin checkRange
  by_cases hle : offset + length ≤ size
  · rw [if_pos hle]
    dsimp only
    split
    · exact fun q hq => nomatch hq
    · exact h hle
  · rw [if_neg hle]
    exact fun q hq => nomatch hq

/-- **No read leaves the bounds of a medium or a cipher** on its way down a chain of constructions. -/
theorem Built.within_of_mem_serve (h : r.Built) {offset length : Nat}
    (hle : offset + length ≤ r.size) : ∀ q ∈ (r.serve media offset length).requests, q.Within := by
  induction h generalizing offset length with
  | medium id hsize => exact List.forall_mem_singleton.mpr hle
  | @part base r start size hbase hr ih =>
    -- a part hands the read on, and lies within what it is a part of
    obtain ⟨hpart, rfl⟩ := subregion_eq_ok_iff.mp hr
    have hin : offset + length ≤ size := hle
    exact ih (by omega)
  | counter hbase hr ih =>
    -- the read is widened, but what goes below is checked anew
    obtain ⟨-, rfl⟩ := decryptCounter_eq_ok_iff.mp hr
    exact List.forall_mem_cons.mpr ⟨hle, within_of_mem_serveWithin ih _ _⟩
  | xts hbase hr ih =>
    obtain ⟨-, -, rfl⟩ := decryptXts_eq_ok_iff.mp hr
    exact List.forall_mem_cons.mpr ⟨hle, within_of_mem_serveWithin ih _ _⟩

/-! ## Parts of a medium -/

/-- A region without ciphers: a whole medium, or a part of such a region. -/
inductive Bare (id size : Nat) : Region → Prop where
  | medium : Bare id size (.medium id size)
  | part {base r : Region} {offset length : Nat} (hbase : Bare id size base)
      (hr : base.subregion offset length = .ok r) : Bare id size r

namespace Bare

variable {id mediumSize offset length : Nat} {bytes : List UInt8}

/-- Its reads are those of the medium. -/
theorem fetch_eq (h : Bare id mediumSize r) (offset length : Nat) :
    r.fetch media offset length = (media.get id).read (r.parentOffset + offset) length := by
  induction h generalizing offset with
  | medium => rw [fetch, parentOffset, Nat.zero_add]
  | part _ hr ih =>
    obtain ⟨-, rfl⟩ := subregion_eq_ok_iff.mp hr
    rw [fetch, ih, parentOffset, Nat.add_assoc]

theorem parentOffset_add_size_le (h : Bare id mediumSize r) :
    r.parentOffset + r.size ≤ mediumSize := by
  induction h with
  | medium => exact Nat.le_of_eq (Nat.zero_add mediumSize)
  | part _ hr ih =>
    obtain ⟨hle, rfl⟩ := subregion_eq_ok_iff.mp hr
    simp only [parentOffset, size]
    omega

/-- **Parts of a medium give the bytes of the medium**, also if some of its reads fail. -/
theorem readAt_eq (h : Bare id (media.get id).size r)
    (hread : r.readAt media offset length = .ok bytes) :
    bytes = slice (media.get id).bytes (r.parentOffset + offset) length := by
  have hsize := h.parentOffset_add_size_le
  have hle := le_of_readAt hread
  unfold readAt at hread
  rw [readWithin_eq _ hle] at hread
  by_cases hzero : length = 0
  · rw [if_pos hzero] at hread
    cases hread
    rw [hzero, slice_zero_length]
  · rw [if_neg hzero, h.fetch_eq] at hread
    exact Medium.eq_slice_of_read (by omega) hread

end Bare

end Region

/-! ## Chains -/

/-- How a view is made of another one. -/
inductive Construction where
  | part (offset size : Nat)
  | counter (layer : CounterLayer)
  | xts (layer : XtsLayer)

namespace Construction

/-- Makes the new view. -/
def apply (v : View) : Construction → Except Error View
  | part offset size => v.subview offset size
  | counter layer => do
    let r ← v.region.decryptCounter layer
    return .ofRegion r
  | xts layer => do
    let r ← v.region.decryptXts layer
    return .ofRegion r

/-- How far behind the start of the other view the new one begins. -/
def offset : Construction → Nat
  | part offset _ => offset
  | counter layer => layer.start
  | xts layer => layer.sectionStart + layer.dataOffset

/-- The section of an XTS layer ends in a whole sector, or in one that is not too short for stealing. -/
def EndsWell : Construction → Prop
  | xts layer => layer.sectionSize % sectorSize = 0 ∨ 16 ≤ layer.sectionSize % sectorSize
  | _ => True

/-- The construction is no cipher. -/
def IsPart : Construction → Prop
  | part _ _ => True
  | _ => False

variable {media : Media} {c : Construction} {v v' : View}

/-- What an accepted construction makes. -/
theorem apply_cases (h : c.apply v = .ok v') :
    (∃ offset size, c = part offset size ∧ v.region.subregion offset size = .ok v'.region) ∨
    (∃ layer, c = counter layer ∧ v.region.decryptCounter layer = .ok v'.region) ∨
    (∃ layer, c = xts layer ∧ v.region.decryptXts layer = .ok v'.region) := by
  cases c with
  | part offset size =>
    obtain ⟨r, hr, hv⟩ := bind_eq_ok_iff.mp h
    cases hv
    exact .inl ⟨offset, size, rfl, hr⟩
  | counter layer =>
    obtain ⟨r, hr, hv⟩ := bind_eq_ok_iff.mp h
    cases hv
    exact .inr (.inl ⟨layer, rfl, hr⟩)
  | xts layer =>
    obtain ⟨r, hr, hv⟩ := bind_eq_ok_iff.mp h
    cases hv
    exact .inr (.inr ⟨layer, rfl, hr⟩)

theorem built_of_apply (h : c.apply v = .ok v') (hv : v.region.Built) : v'.region.Built := by
  obtain ⟨_, _, rfl, hr⟩ | ⟨_, rfl, hr⟩ | ⟨_, rfl, hr⟩ := apply_cases h
  · exact .part hv hr
  · exact .counter hv hr
  · exact .xts hv hr

theorem mediumSize_of_apply (h : c.apply v = .ok v') :
    v'.region.mediumSize = v.region.mediumSize := by
  obtain ⟨_, _, rfl, hr⟩ | ⟨_, rfl, hr⟩ | ⟨_, rfl, hr⟩ := apply_cases h
  · rw [(Region.subregion_eq_ok_iff.mp hr).2, Region.mediumSize]
  · rw [(Region.decryptCounter_eq_ok_iff.mp hr).2, Region.mediumSize]
  · rw [(Region.decryptXts_eq_ok_iff.mp hr).2.2, Region.mediumSize]

theorem parentOffset_of_apply (h : c.apply v = .ok v') :
    v'.parentOffset = v.parentOffset + c.offset := by
  unfold View.parentOffset
  obtain ⟨_, _, rfl, hr⟩ | ⟨_, rfl, hr⟩ | ⟨_, rfl, hr⟩ := apply_cases h
  · rw [(Region.subregion_eq_ok_iff.mp hr).2, Region.parentOffset, offset]
  · rw [(Region.decryptCounter_eq_ok_iff.mp hr).2, Region.parentOffset, offset]
  · rw [(Region.decryptXts_eq_ok_iff.mp hr).2.2, Region.parentOffset, offset, Nat.add_assoc]

/-- Sections of a medium that is not too large have addresses of 64 bits. -/
theorem nested_of_apply (h : c.apply v = .ok v') (hc : c.EndsWell)
    (hsize : v.region.mediumSize ≤ 2 ^ 63) (hv : v.region.Nested media) :
    v'.region.Nested media := by
  obtain ⟨_, _, rfl, hr⟩ | ⟨_, rfl, hr⟩ | ⟨layer, rfl, hr⟩ := apply_cases h
  · exact .part hv hr
  · exact .counter hv hr
  · have hle := hv.built.parentOffset_add_size_le
    have hsection := (Region.decryptXts_eq_ok_iff.mp hr).1
    exact .xts hv hr ⟨by omega, hc⟩

theorem bare_of_apply {id size : Nat} (h : c.apply v = .ok v') (hc : c.IsPart)
    (hv : v.region.Bare id size) : v'.region.Bare id size := by
  obtain ⟨_, _, rfl, hr⟩ | ⟨_, rfl, -⟩ | ⟨_, rfl, -⟩ := apply_cases h
  · exact .part hv hr
  · exact hc.elim
  · exact hc.elim

end Construction

namespace View

variable {media : Media} {v v' : View} {cs : List Construction} {id : Nat}

/-- Constructions one upon the other. -/
def chain (v : View) : List Construction → Except Error View
  | [] => return v
  | c :: rest => do
    let next ← c.apply v
    next.chain rest

/-- What every accepted construction keeps, an accepted chain keeps. -/
theorem chain_induction {P : View → Prop} (h : v.chain cs = .ok v') (hv : P v)
    (hstep : ∀ c ∈ cs, ∀ {w w' : View}, c.apply w = .ok w' → P w → P w') : P v' := by
  induction cs generalizing v with
  | nil =>
    cases h
    exact hv
  | cons c rest ih =>
    obtain ⟨next, hnext, hrest⟩ := bind_eq_ok_iff.mp h
    obtain ⟨hc, hcs⟩ := List.forall_mem_cons.mp hstep
    exact ih hrest (hc hnext hv) hcs

theorem parentOffset_of_chain (h : v.chain cs = .ok v') :
    v'.parentOffset = v.parentOffset + (cs.map Construction.offset).sum := by
  induction cs generalizing v with
  | nil =>
    cases h
    rfl
  | cons c rest ih =>
    obtain ⟨next, hnext, hrest⟩ := bind_eq_ok_iff.mp h
    rw [ih hrest, Construction.parentOffset_of_apply hnext, List.map_cons, List.sum_cons,
      Nat.add_assoc]

/-- **A chain of constructions addresses its medium exactly.** Let a view be made, by any accepted
chain, of the view of a whole medium of at most 2⁶³ bytes. Then

* it begins in the medium where the offsets of the constructions add up to, and ends within;
* if the medium has no faults and no section ends in a sector too short for stealing, a read of it
  succeeds if and only if it stays within its size;
* if it is made of parts alone, what is read of it is what is there in the medium;
* for none of its reads does the medium, or a cipher on the way, receive one that leaves its bounds. -/
theorem chain_addresses_medium (hsize : (media.get id).size ≤ 2 ^ 63)
    (hv : (ofRegion (.medium id (media.get id).size)).chain cs = .ok v) :
    v.parentOffset = (cs.map Construction.offset).sum ∧
    v.parentOffset + v.size ≤ (media.get id).size ∧
    ((media.get id).FaultFree → (∀ c ∈ cs, c.EndsWell) → ∀ offset length,
      (∃ bytes, v.readAt media offset length = .ok bytes) ↔ offset + length ≤ v.size) ∧
    ((∀ c ∈ cs, c.IsPart) → ∀ {offset length bytes}, v.readAt media offset length = .ok bytes →
      bytes = slice (media.get id).bytes (v.parentOffset + offset) length) ∧
    ∀ offset length, (v.region.serveAt media offset length).result = v.readAt media offset length ∧
      ∀ q ∈ (v.region.serveAt media offset length).requests, q.Within := by
  have hlt : (media.get id).size < UInt64.size := Nat.lt_of_le_of_lt hsize (by decide)
  have hbuilt : v.region.Built :=
    chain_induction hv (.medium id hlt) fun _ _ _ _ => Construction.built_of_apply
  have hmedium : v.region.mediumSize = (media.get id).size :=
    chain_induction (P := fun w => w.region.mediumSize = (media.get id).size) hv rfl
      fun _ _ _ _ h hw => (Construction.mediumSize_of_apply h).trans hw
  refine ⟨?_, ?_, ?_, ?_, ?_⟩
  · have hparent := parentOffset_of_chain hv
    rw [hparent]
    exact Nat.zero_add _
  · rw [← hmedium]
    exact hbuilt.parentOffset_add_size_le
  · intro hfaults hends offset length
    have hnested : v.region.Nested media ∧ v.region.mediumSize ≤ 2 ^ 63 :=
      chain_induction (P := fun w => w.region.Nested media ∧ w.region.mediumSize ≤ 2 ^ 63) hv
        ⟨.medium id hfaults hlt, hsize⟩ fun c hc _ _ h hw =>
          ⟨Construction.nested_of_apply h (hends c hc) hw.2 hw.1,
            Nat.le_trans (Nat.le_of_eq (Construction.mediumSize_of_apply h)) hw.2⟩
    exact hnested.1.readAt_isOk_iff
  · intro hparts offset length bytes hread
    have hbare : v.region.Bare id (media.get id).size :=
      chain_induction (P := fun w => w.region.Bare id (media.get id).size) hv .medium
        fun c hc _ _ h => Construction.bare_of_apply h (hparts c hc)
    exact hbare.readAt_eq hread
  · intro offset length
    exact ⟨v.region.result_serveAt offset length,
      Region.within_of_mem_serveWithin hbuilt.within_of_mem_serve offset length⟩

end View

namespace Construction.Specimen

def media : Media := ⟨[.memory ((List.range 0x300).map UInt8.ofNat)]⟩

/-- XTS, in counter mode, in a part of the medium: the section ends in a sector of sixteen bytes. -/
def ciphers : List Construction :=
  [.part 0x20 0x2C0, .counter ⟨0x15, 0x2A0, Bytes.zero 16, 7⟩,
    .xts ⟨0x11, 0x210, 0x8, 0x200, Bytes.zero 32⟩, .part 0x3 0x1F0]

def parts : List Construction := [.part 0x20 0x2C0, .part 0x15 0x2A0]

theorem size_media : (media.get 0).size = 0x300 :=
  (List.length_map UInt8.ofNat).trans List.length_range

/-- Both chains end within the medium: the one with ciphers can be read up to its last byte, and the
other one gives the bytes of the medium. -/
theorem chain_addresses_specimen : ∃ deciphered inner : View,
    (media.get 0).size ≤ 2 ^ 63 ∧
    (View.ofRegion (.medium 0 (media.get 0).size)).chain ciphers = .ok deciphered ∧
    deciphered.parentOffset = 0x51 ∧
    (∃ bytes, deciphered.readAt media 0x1EF 1 = .ok bytes) ∧
    (¬ ∃ bytes, deciphered.readAt media 0x1EF 2 = .ok bytes) ∧
    (View.ofRegion (.medium 0 (media.get 0).size)).chain parts = .ok inner ∧
    inner.readAt media 1 2 = .ok [0x36, 0x37] := by
  have hsize : (media.get 0).size ≤ 2 ^ 63 := by
    rw [size_media]
    decide
  have hchain : (View.ofRegion (.medium 0 (media.get 0).size)).chain ciphers = .ok
      (.ofRegion (.part (.xts (.counter (.part (.medium 0 (media.get 0).size) 0x20 0x2C0)
        ⟨0x15, 0x2A0, Bytes.zero 16, 7⟩) ⟨0x11, 0x210, 0x8, 0x200, Bytes.zero 32⟩) 0x3 0x1F0)) := by
    rw [size_media]
    rfl
  have hparts : (View.ofRegion (.medium 0 (media.get 0).size)).chain parts = .ok
      (.ofRegion (.part (.part (.medium 0 (media.get 0).size) 0x20 0x2C0) 0x15 0x2A0)) := by
    rw [size_media]
    rfl
  have hends : ∀ c ∈ ciphers, c.EndsWell := by
    simp [ciphers, EndsWell, sectorSize]
  have hallParts : ∀ c ∈ parts, c.IsPart := by
    simp [parts, IsPart]
  have hallEnd : ∀ c ∈ parts, c.EndsWell := by
    simp [parts, EndsWell]
  obtain ⟨hparent, -, hreads, -⟩ := View.chain_addresses_medium hsize hchain
  obtain ⟨-, -, hinner, hbytes, -⟩ := View.chain_addresses_medium hsize hparts
  obtain ⟨bytes, hread⟩ := (hinner trivial hallEnd 1 2).mpr (by decide)
  have hslice : bytes = [0x36, 0x37] :=
    (hbytes hallParts hread).trans (Medium.slice_map_range UInt8.ofNat (by decide))
  refine ⟨_, _, hsize, hchain, hparent, (hreads trivial hends _ _).mpr (by decide),
    mt (hreads trivial hends _ _).mp (by decide), hparts, ?_⟩
  rw [hread, hslice]

end Construction.Specimen

end Cartridge
