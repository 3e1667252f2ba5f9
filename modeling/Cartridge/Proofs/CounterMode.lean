import Cartridge.Proofs.Alignment
import Cartridge.Proofs.Contents

/-!
# Counter mode is random access

The key stream of counter mode has a byte for every address. It depends on the key, the upper half
of the counter and the address, and on nothing else: the counter block of an address is the upper
half followed by the number of the address's block, each as eight big-endian bytes. The 128-bit
counter never carries into its upper half, since the blocks below a 64-bit address have numbers of
60 bits.

Results:
* `Counter.apply_eq_mask`: applying the key stream from the start of a block is adding to every byte
  the key stream's byte at its address (`mask`).
* `Counter.mask_mask`: adding the key stream twice gives the bytes back.
* `Region.Holds.counter`: what a region in counter mode holds.
* `readAt_decryptCounter`: a read through counter mode gives the bytes below it, each with the key
  stream's byte at its own address, wherever the read begins and however it is split.
-/

namespace Cartridge

/-! ## Numbers in two halves -/

namespace Endian

theorem little_mod (width n : Nat) : little width (n % capacity width) = little width n := by
  have h := little_ofLittle (little width n)
  rwa [length_little, ofLittle_little] at h

theorem little_add (m n x : Nat) : little (m + n) x = little m x ++ little n (x / capacity m) := by
  induction m generalizing x with
  | zero => simp [little, capacity]
  | succ m ih =>
    rw [Nat.succ_add, little, ih, little, capacity, Nat.div_div_eq_div_mul, List.cons_append]

/-- A number in two halves: the bytes of the high one, then those of the low one. -/
theorem big_add (m n : Nat) {high low : Nat} (hl : low < capacity m) :
    big (m + n) (high * capacity m + low) = big n high ++ big m low := by
  have hpos : 0 < capacity m := by omega
  have hdiv : (high * capacity m + low) / capacity m = high := by
    rw [Nat.mul_comm, Nat.mul_add_div hpos, Nat.div_eq_of_lt hl, Nat.add_zero]
  have hmod : (high * capacity m + low) % capacity m = low := by
    rw [Nat.mul_comm, Nat.mul_add_mod, Nat.mod_eq_of_lt hl]
  unfold big
  rw [little_add, hdiv, ← little_mod m, hmod, List.reverse_append]

end Endian

/-! ## The key stream by address -/

namespace Counter

variable {c : BlockCipher} {upper : UInt64}

/-- The counter block of an address: the upper half, then the number of the address's block. -/
def addressBlock (upper : UInt64) (address : Nat) : Block :=
  (Endian.bigBytes 8 upper.toNat).append (Endian.bigBytes 8 (address / 16))

/-- The byte of the key stream at an address. -/
def keyByte (c : BlockCipher) (upper : UInt64) (address : Nat) : UInt8 :=
  (c.encrypt (addressBlock upper address)).toList.getD (address % 16) 0

/-- Adds the key stream to bytes that begin at an address. -/
def mask (c : BlockCipher) (upper : UInt64) (address : Nat) (bytes : List UInt8) : List UInt8 :=
  bytes.mapIdx fun i b => b ^^^ keyByte c upper (address + i)

@[simp] theorem length_mask (address : Nat) (bytes : List UInt8) :
    (mask c upper address bytes).length = bytes.length :=
  List.length_mapIdx

theorem getElem?_mask (address : Nat) (bytes : List UInt8) (i : Nat) :
    (mask c upper address bytes)[i]? = bytes[i]?.map (· ^^^ keyByte c upper (address + i)) :=
  List.getElem?_mapIdx

theorem drop_mask (address n : Nat) (bytes : List UInt8) :
    (mask c upper address bytes).drop n = mask c upper (address + n) (bytes.drop n) := by
  apply List.ext_getElem?
  intro i
  rw [List.getElem?_drop, getElem?_mask, getElem?_mask, List.getElem?_drop, Nat.add_assoc]

theorem take_mask (address n : Nat) (bytes : List UInt8) :
    (mask c upper address bytes).take n = mask c upper address (bytes.take n) := by
  apply List.ext_getElem?
  intro i
  rw [getElem?_mask]
  by_cases hi : i < n
  · rw [List.getElem?_take_of_lt hi, List.getElem?_take_of_lt hi, getElem?_mask]
  · rw [List.getElem?_take_eq_none (by omega), List.getElem?_take_eq_none (by omega)]
    rfl

/-- A slice of masked bytes is masked from its own address on. -/
theorem slice_mask (address offset length : Nat) (bytes : List UInt8) :
    slice (mask c upper address bytes) offset length
      = mask c upper (address + offset) (slice bytes offset length) := by
  unfold slice
  rw [drop_mask, take_mask]

/-- **Adding the key stream twice gives the bytes back.** -/
theorem mask_mask (address : Nat) (bytes : List UInt8) :
    mask c upper address (mask c upper address bytes) = bytes := by
  apply List.ext_getElem?
  intro i
  rw [getElem?_mask, getElem?_mask]
  cases bytes[i]? with
  | none => rfl
  | some b =>
    rw [Option.map_some, Option.map_some, UInt8.xor_assoc, UInt8.xor_self, UInt8.xor_zero]

/-! ## The counter stays in its lower half -/

/-- The counter block with a lower half that does not overflow. -/
theorem block_eq_addressBlock {n : Nat} (hn : n < UInt64.size) {address : Nat}
    (ha : address / 16 = n) :
    block (upper.toNat * UInt64.size + n) = addressBlock upper address := by
  apply Bytes.ext
  show Endian.big (8 + 8) (upper.toNat * Endian.capacity 8 + n)
    = Endian.big 8 upper.toNat ++ Endian.big 8 (address / 16)
  rw [Endian.big_add 8 8 hn, ha]

/-- One block of the key stream. -/
theorem zipWith_encrypt_block {n : Nat} (hn : n < UInt64.size) {bytes : List UInt8}
    (hb : bytes.length ≤ 16) :
    List.zipWith (· ^^^ ·) bytes (c.encrypt (block (upper.toNat * UInt64.size + n))).toList
      = mask c upper (16 * n) bytes := by
  have hlen := (c.encrypt (block (upper.toNat * UInt64.size + n))).length_toList
  apply List.ext_getElem
  · rw [List.length_zipWith, hlen, length_mask]
    omega
  intro i h1 h2
  have hi : i < 16 := by
    rw [length_mask] at h2
    omega
  have hin : i < (c.encrypt (block (upper.toNat * UInt64.size + n))).toList.length := by omega
  have hblock : block (upper.toNat * UInt64.size + n) = addressBlock upper (16 * n + i) :=
    block_eq_addressBlock hn (by omega)
  have hkey : keyByte c upper (16 * n + i)
      = (c.encrypt (block (upper.toNat * UInt64.size + n))).toList[i] := by
    unfold keyByte
    rw [← hblock, show (16 * n + i) % 16 = i by omega, List.getD_eq_getElem?_getD,
      List.getElem?_eq_getElem hin, Option.getD_some]
  rw [List.getElem_zipWith, ← hkey]
  simp [mask]

/-- Counting blocks from a number of 64 bits on, as long as they do not pass the last one. -/
theorem applyBlocks_eq_mask (count n : Nat) (bytes : List UInt8) (hn : n + count ≤ UInt64.size)
    (hb : bytes.length ≤ 16 * count) :
    applyBlocks c (upper.toNat * UInt64.size + n) count bytes = mask c upper (16 * n) bytes := by
  induction count generalizing n bytes with
  | zero =>
    have hnil : bytes = [] := List.eq_nil_of_length_eq_zero (by omega)
    rw [hnil]
    rfl
  | succ count ih =>
    have hrest : applyBlocks c (upper.toNat * UInt64.size + n + 1) count (bytes.drop 16)
        = mask c upper (16 * (n + 1)) (bytes.drop 16) := by
      rw [Nat.add_assoc]
      exact ih (n + 1) (bytes.drop 16) (by omega) (by rw [List.length_drop]; omega)
    have hfirst : List.zipWith (· ^^^ ·) (bytes.take 16)
          (c.encrypt (block (upper.toNat * UInt64.size + n))).toList
        = mask c upper (16 * n) (bytes.take 16) :=
      zipWith_encrypt_block (by omega) (by rw [List.length_take]; omega)
    rw [applyBlocks, hrest, hfirst, ← take_mask, Nat.mul_succ, ← drop_mask,
      List.take_append_drop]

/-- **Applying the key stream from the start of a block** adds to every byte the key stream's byte
at its address. -/
theorem apply_eq_mask {address : Nat} {bytes : List UInt8} (ha : address % 16 = 0)
    (hb : address + bytes.length ≤ UInt64.size) :
    apply c (start upper address) bytes = mask c upper address bytes := by
  have hsize : UInt64.size = 18446744073709551616 := rfl
  unfold apply start
  rw [applyBlocks_eq_mask _ _ _ (by omega) (by omega), show 16 * (address / 16) = address by omega]

/-- The counters of the blocks below a 64-bit address have the same upper half. -/
theorem start_add_div {address k : Nat} (h : address / 16 + k < UInt64.size) :
    (start upper address + k) / UInt64.size = upper.toNat := by
  unfold start
  rw [Nat.add_assoc, Nat.mul_comm, Nat.mul_add_div (by decide), Nat.div_eq_of_lt h, Nat.add_zero]

end Counter

/-! ## Regions in counter mode -/

theorem CounterLayer.alignedStart_eq (l : CounterLayer) {offset : Nat}
    (h : l.start + offset < UInt64.size) :
    l.alignedStart offset = (l.start + offset) / 16 * 16 := by
  unfold CounterLayer.alignedStart
  rw [Align.toNat_down (k := 4) rfl, UInt64.toNat_ofNat_of_lt' h]
  rfl

/-- A region in counter mode holds what lies below it, masked by address. -/
theorem Region.Holds.counter {media : Media} {base : Region} {bytes : List UInt8}
    {layer : CounterLayer} (hb : base.Holds media bytes)
    (h : layer.start + layer.size ≤ base.size) :
    (Region.counter base layer).Holds media (Counter.mask (Aes.cipher layer.key) layer.upper
      layer.start (slice bytes layer.start layer.size)) := by
  have hsize := hb.size_eq
  have haddr := hb.addressable
  have hlen : (Counter.mask (Aes.cipher layer.key) layer.upper layer.start
      (slice bytes layer.start layer.size)).length = layer.size := by
    rw [Counter.length_mask, length_slice (by omega)]
  refine Region.holds_of_fetch hlen.symm (by omega) ?_
  intro offset length hpos hle
  have halign := layer.alignedStart_eq (show layer.start + offset < UInt64.size by omega)
  generalize hal : layer.alignedStart offset = aligned at halign
  have hraw : base.readAt media aligned (layer.start + offset - aligned + length)
      = .ok (slice bytes aligned (layer.start + offset - aligned + length)) :=
    hb.readAt_eq (by omega)
  have hplain : layer.decrypt offset
        (slice bytes aligned (layer.start + offset - aligned + length))
      = Counter.mask (Aes.cipher layer.key) layer.upper aligned
        (slice bytes aligned (layer.start + offset - aligned + length)) := by
    unfold CounterLayer.decrypt
    rw [hal, Counter.apply_eq_mask (by omega) (by rw [length_slice (by omega)]; omega)]
  unfold Region.readAt at hraw
  simp only [Region.fetch, hal, hraw, bind, Except.bind, pure, Except.pure, hplain]
  rw [Counter.slice_mask, slice_slice (by omega), Counter.drop_mask,
    show aligned + (layer.start + offset - aligned) = layer.start + offset by omega]
  congr 2
  unfold slice
  rw [List.drop_take, List.drop_drop, Nat.add_sub_cancel_left,
    show aligned + (layer.start + offset - aligned) = layer.start + offset by omega]

/-- **A read through counter mode** succeeds and gives the bytes below it, each with the key
stream's byte at its own address in the region below. The counter of no block that is read has
another upper half than the layer's, and a range read in pieces is the range read at once. -/
theorem readAt_decryptCounter {media : Media} {base r : Region} {bytes : List UInt8}
    {layer : CounterLayer} (hb : base.Holds media bytes) (hr : base.decryptCounter layer = .ok r) :
    (∀ {offset length : Nat}, offset + length ≤ r.size →
      ∃ plain, (View.ofRegion r).readAt media offset length = .ok plain ∧ plain.length = length ∧
        ∀ i < length, plain[i]? = bytes[layer.start + offset + i]?.map
          (· ^^^ Counter.keyByte (Aes.cipher layer.key) layer.upper (layer.start + offset + i))) ∧
    (∀ {offset length k : Nat}, offset + length ≤ r.size →
      layer.alignedStart offset + 16 * k < layer.start + offset + length →
      (Counter.start layer.upper (layer.alignedStart offset) + k) / UInt64.size
        = layer.upper.toNat) ∧
    (∀ {offset : Nat} {lengths : List Nat}, offset + lengths.sum ≤ r.size →
      (View.ofRegion r).readPieces media offset lengths
        = (View.ofRegion r).readAt media offset lengths.sum) := by
  obtain ⟨hle, rfl⟩ := Region.decryptCounter_eq_ok_iff.mp hr
  have hsize := hb.size_eq
  have haddr := hb.addressable
  have hc := hb.counter hle
  have hlen := hc.size_eq
  have hlayer : (Region.counter base layer).size = layer.size := rfl
  constructor
  · intro offset length h
    refine ⟨_, hc.readAt_eq (by omega), length_slice (by omega), ?_⟩
    intro i hi
    have hin : offset + i < layer.size := by omega
    rw [getElem?_slice hi, Counter.getElem?_mask, getElem?_slice hin, Nat.add_assoc]
  constructor
  · intro offset length k h hk
    have hsz : UInt64.size = 18446744073709551616 := rfl
    exact Counter.start_add_div (by omega)
  · intro offset lengths h
    exact hc.readPieces_eq (v := View.ofRegion _) (by omega)

/-- A range that begins and ends within blocks, read in three pieces under the greatest counter. -/
theorem readAt_decryptCounter_unaligned :
    (Region.medium 0 0x50).Holds ⟨[.memory (List.replicate 0x50 0x5A)]⟩
      (List.replicate 0x50 0x5A) ∧
    (Region.medium 0 0x50).decryptCounter ⟨0x15, 0x30, Bytes.zero 16, 0xFFFFFFFFFFFFFFFF⟩
      = .ok (.counter (.medium 0 0x50) ⟨0x15, 0x30, Bytes.zero 16, 0xFFFFFFFFFFFFFFFF⟩) ∧
    (View.ofRegion (.counter (.medium 0 0x50)
        ⟨0x15, 0x30, Bytes.zero 16, 0xFFFFFFFFFFFFFFFF⟩)).readPieces
        ⟨[.memory (List.replicate 0x50 0x5A)]⟩ 0x7 [3, 0, 0x21]
      = (View.ofRegion (.counter (.medium 0 0x50)
        ⟨0x15, 0x30, Bytes.zero 16, 0xFFFFFFFFFFFFFFFF⟩)).readAt
        ⟨[.memory (List.replicate 0x50 0x5A)]⟩ 0x7 0x24 := by
  have hb : (Region.medium 0 0x50).Holds ⟨[.memory (List.replicate 0x50 0x5A)]⟩
      (List.replicate 0x50 0x5A) := Region.holds_memory List.length_replicate (by decide)
  have hr : (Region.medium 0 0x50).decryptCounter
        ⟨0x15, 0x30, Bytes.zero 16, 0xFFFFFFFFFFFFFFFF⟩
      = .ok (.counter (.medium 0 0x50) ⟨0x15, 0x30, Bytes.zero 16, 0xFFFFFFFFFFFFFFFF⟩) :=
    Region.decryptCounter_eq_ok_iff.mpr ⟨by decide, rfl⟩
  exact ⟨hb, hr, (readAt_decryptCounter hb hr).2.2 (by decide)⟩

end Cartridge
