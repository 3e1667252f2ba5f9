import Cartridge.Proofs.Alignment
import Cartridge.Proofs.Contents

/-!
# Sectors are independent

XTS treats every sector of an area on its own: the bytes of a sector and its number decide what
becomes of it. So decrypting whole sectors out of the middle of an area gives what decrypting the
area gives there, and this is what random access rests on. A shorter last sector steals ciphertext,
which takes nothing from the sectors before it.

Results:
* `Xts.decryptSector_encryptSector`: decrypting a sector undoes encrypting it, with stealing or
  without.
* `Xts.slice_mapArea`: whole sectors of a mapped area are the mapped sectors.
* `Xts.decryptArea_encryptArea`: decrypting an area undoes encrypting it.
* `Region.Holds.xts`: what a region under XTS holds.
* `readAt_decryptXts`: a read through XTS gives the bytes of the section decrypted at once, wherever
  the read begins and however it is split.
-/

namespace Cartridge

/-! ## Byte strings of fixed length -/

namespace Bytes

variable {n : Nat}

theorem xor_xor_cancel (a b : Bytes n) : (a.xor b).xor b = a := by
  apply Bytes.ext
  apply List.ext_getElem
  · simp [xor]
  · intro i h1 h2
    simp only [xor, List.getElem_zipWith, UInt8.xor_assoc, UInt8.xor_self, UInt8.xor_zero]

theorem toList_fit_of_le {bytes : List UInt8} (h : n ≤ bytes.length) :
    (fit n bytes).toList = bytes.take n := by
  show (bytes ++ List.replicate n 0).take n = bytes.take n
  rw [List.take_append_of_le_length h]

theorem fit_append (b : Bytes n) (rest : List UInt8) : fit n (b.toList ++ rest) = b := by
  apply Bytes.ext
  rw [toList_fit_of_le (by simp), List.take_append_of_le_length (by simp),
    List.take_of_length_le (by simp)]

end Bytes

namespace Xts

variable {c : BlockCipher} {x : Xts}

/-! ## Blocks -/

theorem decryptBlock_encryptBlock (t b : Block) : decryptBlock c t (encryptBlock c t b) = b := by
  unfold decryptBlock encryptBlock
  rw [Bytes.xor_xor_cancel, c.decrypt_encrypt, Bytes.xor_xor_cancel]

theorem length_encryptStealing (t : Block) {bytes : List UInt8} (h1 : 16 ≤ bytes.length)
    (h2 : bytes.length < 32) : (encryptStealing c t bytes).length = bytes.length := by
  simp [encryptStealing]
  omega

theorem length_decryptStealing (t : Block) {bytes : List UInt8} (h1 : 16 ≤ bytes.length)
    (h2 : bytes.length < 32) : (decryptStealing c t bytes).length = bytes.length := by
  simp [decryptStealing]
  omega

/-- Stealing is undone: the last block gives back what it took to fill up. -/
theorem decryptStealing_encryptStealing (t : Block) {bytes : List UInt8} (h1 : 16 ≤ bytes.length)
    (h2 : bytes.length < 32) : decryptStealing c t (encryptStealing c t bytes) = bytes := by
  unfold encryptStealing
  generalize hr : bytes.drop 16 = rest
  generalize hw : encryptBlock c t (Bytes.fit 16 bytes) = whole
  have hrest : rest.length < 16 := by
    rw [← hr, List.length_drop]
    omega
  have hfill : (rest ++ whole.toList.drop rest.length).length = 16 := by
    rw [List.length_append, List.length_drop, whole.length_toList]
    omega
  simp only [decryptStealing, Bytes.fit_append, decryptBlock_encryptBlock, Bytes.toList_fit hfill]
  have hdrop : ∀ b : Block, (b.toList ++ whole.toList.take rest.length).drop 16
      = whole.toList.take rest.length := fun b => List.drop_left' b.length_toList
  have hlen : (whole.toList.take rest.length).length = rest.length := by
    rw [List.length_take, whole.length_toList]
    omega
  rw [hdrop, hlen, List.drop_left, List.take_left, List.take_append_drop, Bytes.fit_toList, ← hw,
    decryptBlock_encryptBlock, Bytes.toList_fit_of_le h1, ← hr, List.take_append_drop]

theorem length_encryptBlocks (t : Block) (n : Nat) (bytes : List UInt8) (h1 : 16 * n ≤ bytes.length)
    (h2 : bytes.length < 16 * n + 32) : (encryptBlocks c t n bytes).length = bytes.length := by
  induction n generalizing t bytes with
  | zero =>
    unfold encryptBlocks
    split
    · exact length_encryptStealing t (by omega) (by omega)
    · rfl
  | succ n ih =>
    rw [encryptBlocks, List.length_append, Bytes.length_toList,
      ih _ _ (by rw [List.length_drop]; omega) (by rw [List.length_drop]; omega), List.length_drop]
    omega

theorem length_decryptBlocks (t : Block) (n : Nat) (bytes : List UInt8) (h1 : 16 * n ≤ bytes.length)
    (h2 : bytes.length < 16 * n + 32) : (decryptBlocks c t n bytes).length = bytes.length := by
  induction n generalizing t bytes with
  | zero =>
    unfold decryptBlocks
    split
    · exact length_decryptStealing t (by omega) (by omega)
    · rfl
  | succ n ih =>
    rw [decryptBlocks, List.length_append, Bytes.length_toList,
      ih _ _ (by rw [List.length_drop]; omega) (by rw [List.length_drop]; omega), List.length_drop]
    omega

theorem decryptBlocks_encryptBlocks (t : Block) (n : Nat) (bytes : List UInt8)
    (h1 : 16 * n ≤ bytes.length) (h2 : bytes.length < 16 * n + 32) :
    decryptBlocks c t n (encryptBlocks c t n bytes) = bytes := by
  induction n generalizing t bytes with
  | zero =>
    by_cases h : 16 < bytes.length
    · have hlen := length_encryptStealing (c := c) t (show 16 ≤ bytes.length by omega) (by omega)
      rw [encryptBlocks, if_pos h, decryptBlocks, if_pos (by omega),
        decryptStealing_encryptStealing t (by omega) (by omega)]
    · rw [encryptBlocks, if_neg h, decryptBlocks, if_neg h]
  | succ n ih =>
    rw [encryptBlocks, decryptBlocks, Bytes.fit_append, decryptBlock_encryptBlock,
      List.drop_left' (Bytes.length_toList _), ih _ _ (by rw [List.length_drop]; omega)
      (by rw [List.length_drop]; omega), Bytes.toList_fit_of_le (by omega), List.take_append_drop]

/-! ## Sectors -/

/-- The leading blocks leave less than two blocks for stealing. -/
theorem leadingBlocks_bounds (length : Nat) :
    16 * leadingBlocks length ≤ length ∧ length < 16 * leadingBlocks length + 32 := by
  unfold leadingBlocks
  split <;> omega

theorem length_encryptSector (n : Nat) (bytes : List UInt8) :
    (x.encryptSector n bytes).length = bytes.length :=
  have h := leadingBlocks_bounds bytes.length
  length_encryptBlocks _ _ _ h.1 h.2

theorem length_decryptSector (n : Nat) (bytes : List UInt8) :
    (x.decryptSector n bytes).length = bytes.length :=
  have h := leadingBlocks_bounds bytes.length
  length_decryptBlocks _ _ _ h.1 h.2

/-- **Decrypting a sector undoes encrypting it**, whatever its size. -/
theorem decryptSector_encryptSector (n : Nat) (bytes : List UInt8) :
    x.decryptSector n (x.encryptSector n bytes) = bytes := by
  have h := leadingBlocks_bounds bytes.length
  have hlen := length_encryptSector (x := x) n bytes
  unfold decryptSector
  rw [hlen]
  exact decryptBlocks_encryptBlocks _ _ _ h.1 h.2

/-! ## Areas -/

section Areas

variable {f g : Nat → List UInt8 → List UInt8} {size : Nat}

/-- Applies a function to every sector of an area. -/
def mapArea (f : Nat → List UInt8 → List UInt8) (size first : Nat) (bytes : List UInt8) :
    List UInt8 :=
  mapSectors f size (sectorCount size bytes.length) first bytes

theorem mapArea_nil (hsize : 0 < size) (first : Nat) : mapArea f size first [] = [] := by
  unfold mapArea sectorCount
  rw [List.length_nil, Nat.div_eq_of_lt (by omega)]
  rfl

/-- The first sector of an area, and the area behind it. -/
theorem mapArea_of_ne_nil (hsize : 0 < size) (first : Nat) {bytes : List UInt8} (h : bytes ≠ []) :
    mapArea f size first bytes
      = f first (bytes.take size) ++ mapArea f size (first + 1) (bytes.drop size) := by
  have hpos := List.length_pos_iff.mpr h
  have hcount : sectorCount size bytes.length = sectorCount size (bytes.drop size).length + 1 := by
    unfold sectorCount
    rw [List.length_drop]
    by_cases hle : size ≤ bytes.length
    · rw [← Nat.add_div_right _ hsize]
      congr 1
      omega
    · rw [Nat.div_eq_of_lt (show bytes.length - size + (size - 1) < size by omega),
        Nat.div_eq_of_lt_le (k := 1) (by omega) (by omega)]
  unfold mapArea
  rw [hcount, mapSectors]

/-- An area of at most one sector. -/
theorem mapArea_of_length_le (hsize : 0 < size) (hf : ∀ n b, (f n b).length = b.length)
    (first : Nat) {bytes : List UInt8} (h : bytes.length ≤ size) :
    mapArea f size first bytes = f first bytes := by
  by_cases hb : bytes = []
  · have hnil : f first [] = [] := List.eq_nil_of_length_eq_zero (hf first [])
    rw [hb, mapArea_nil hsize, hnil]
  · rw [mapArea_of_ne_nil hsize first hb, List.take_of_length_le h, List.drop_eq_nil_of_le h,
      mapArea_nil hsize, List.append_nil]

theorem length_mapArea (hsize : 0 < size) (hf : ∀ n b, (f n b).length = b.length) (first : Nat)
    (bytes : List UInt8) : (mapArea f size first bytes).length = bytes.length := by
  induction h : bytes.length using Nat.strongRecOn generalizing first bytes with
  | ind len ih =>
    by_cases hb : bytes = []
    · rw [hb, mapArea_nil hsize, ← h, hb]
    · have hpos := List.length_pos_iff.mpr hb
      rw [mapArea_of_ne_nil hsize first hb, List.length_append, hf,
        ih _ (by rw [List.length_drop]; omega) _ _ rfl, List.length_take, List.length_drop]
      omega

/-- What is left of a mapped area behind whole sectors. -/
theorem drop_mapArea (hsize : 0 < size) (hf : ∀ n b, (f n b).length = b.length) (k first : Nat)
    {bytes : List UInt8} (h : k * size ≤ bytes.length) :
    (mapArea f size first bytes).drop (k * size)
      = mapArea f size (first + k) (bytes.drop (k * size)) := by
  induction k generalizing first bytes with
  | zero => simp
  | succ k ih =>
    rw [Nat.succ_mul] at h
    have hb : bytes ≠ [] := List.ne_nil_of_length_pos (by omega)
    have hlen : (f first (bytes.take size)).length = size := by
      rw [hf, List.length_take]
      omega
    rw [mapArea_of_ne_nil hsize first hb, Nat.succ_mul, Nat.add_comm (k * size), ← List.drop_drop,
      List.drop_left' hlen, ih (first + 1) (by rw [List.length_drop]; omega), List.drop_drop,
      Nat.add_assoc, Nat.add_comm 1 k]

/-- Whole sectors at the front of a mapped area. -/
theorem take_mapArea (hsize : 0 < size) (hf : ∀ n b, (f n b).length = b.length) (k first : Nat)
    (bytes : List UInt8) :
    (mapArea f size first bytes).take (k * size) = mapArea f size first (bytes.take (k * size)) := by
  induction k generalizing first bytes with
  | zero => simp [mapArea_nil hsize]
  | succ k ih =>
    by_cases hle : bytes.length ≤ (k + 1) * size
    · -- all sectors are taken
      rw [List.take_of_length_le hle, List.take_of_length_le]
      rw [length_mapArea hsize hf]
      exact hle
    · rw [Nat.succ_mul] at hle ⊢
      have hb : bytes ≠ [] := List.ne_nil_of_length_pos (by omega)
      have ht : bytes.take (size + k * size) ≠ [] :=
        List.ne_nil_of_length_pos (by rw [List.length_take]; omega)
      have hlen : (f first (bytes.take size)).length = size := by
        rw [hf, List.length_take]
        omega
      rw [Nat.add_comm (k * size), mapArea_of_ne_nil hsize first hb,
        mapArea_of_ne_nil hsize first ht, List.take_take, Nat.min_eq_left (by omega),
        List.drop_take, Nat.add_sub_cancel_left, ← ih, List.take_append, hlen,
        Nat.add_sub_cancel_left, List.take_of_length_le (by omega)]

/-- **Whole sectors of a mapped area are the mapped sectors.** The slice begins where a sector
begins and ends where a sector or the area ends. -/
theorem slice_mapArea (hsize : 0 < size) (hf : ∀ n b, (f n b).length = b.length) {k m : Nat}
    (first : Nat) {bytes : List UInt8} {length : Nat} (hk : k * size ≤ bytes.length)
    (hl : length = m * size ∨ bytes.length ≤ k * size + length) :
    slice (mapArea f size first bytes) (k * size) length
      = mapArea f size (first + k) (slice bytes (k * size) length) := by
  unfold slice
  rw [drop_mapArea hsize hf k first hk]
  rcases hl with rfl | hl
  · rw [take_mapArea hsize hf]
  · rw [List.take_of_length_le, List.take_of_length_le]
    · rw [List.length_drop]
      omega
    · rw [length_mapArea hsize hf, List.length_drop]
      omega

/-- What undoes a function on every sector undoes it on the area. -/
theorem mapArea_mapArea (hsize : 0 < size) (hf : ∀ n b, (f n b).length = b.length)
    (hg : ∀ n b, (g n b).length = b.length) (hgf : ∀ n b, g n (f n b) = b) (first : Nat)
    (bytes : List UInt8) :
    mapArea g size first (mapArea f size first bytes) = bytes := by
  induction h : bytes.length using Nat.strongRecOn generalizing first bytes with
  | ind len ih =>
    by_cases hle : bytes.length ≤ size
    · rw [mapArea_of_length_le hsize hf first hle,
        mapArea_of_length_le hsize hg first (by rw [hf]; exact hle), hgf]
    · have hb : bytes ≠ [] := List.ne_nil_of_length_pos (by omega)
      have hm : mapArea f size first bytes ≠ [] :=
        List.ne_nil_of_length_pos (by rw [length_mapArea hsize hf]; omega)
      have hlen : (f first (bytes.take size)).length = size := by
        rw [hf, List.length_take]
        omega
      rw [mapArea_of_ne_nil hsize first hm, mapArea_of_ne_nil hsize first hb,
        List.take_left' hlen, List.drop_left' hlen, hgf,
        ih _ (by rw [List.length_drop]; omega) _ _ rfl, List.take_append_drop]

end Areas

/-- **Decrypting an area undoes encrypting it.** -/
theorem decryptArea_encryptArea {size : Nat} (hsize : 0 < size) (first : Nat)
    (bytes : List UInt8) : x.decryptArea size first (x.encryptArea size first bytes) = bytes :=
  mapArea_mapArea hsize length_encryptSector length_decryptSector decryptSector_encryptSector first
    bytes

theorem length_decryptArea {size : Nat} (hsize : 0 < size) (first : Nat) (bytes : List UInt8) :
    (x.decryptArea size first bytes).length = bytes.length :=
  length_mapArea hsize length_decryptSector first bytes

theorem length_encryptArea {size : Nat} (hsize : 0 < size) (first : Nat) (bytes : List UInt8) :
    (x.encryptArea size first bytes).length = bytes.length :=
  length_mapArea hsize length_encryptSector first bytes

end Xts

/-! ## Regions under XTS -/

namespace XtsLayer

/-- The sectors of a section have addresses of 64 bits, and the last one is not too short for
ciphertext stealing. -/
structure Sectored (l : XtsLayer) : Prop where
  addressable : l.sectionSize ≤ 2 ^ 63
  lastSector : l.sectionSize % sectorSize = 0 ∨ 16 ≤ l.sectionSize % sectorSize

/-- A section decrypted at once. -/
def plain (l : XtsLayer) (ciphertext : List UInt8) : List UInt8 :=
  (cipher l.key).decryptArea sectorSize 0 ciphertext

theorem length_plain (l : XtsLayer) (ciphertext : List UInt8) :
    (l.plain ciphertext).length = ciphertext.length :=
  Xts.length_decryptArea (by decide) 0 ciphertext

/-- Whole sectors out of a section, decrypted on their own. -/
theorem decryptArea_slice (l : XtsLayer) {ciphertext : List UInt8} {k m length : Nat}
    (hk : k * sectorSize ≤ ciphertext.length)
    (hl : length = m * sectorSize ∨ ciphertext.length ≤ k * sectorSize + length) :
    (cipher l.key).decryptArea sectorSize k (slice ciphertext (k * sectorSize) length)
      = slice (l.plain ciphertext) (k * sectorSize) length := by
  have hs : 0 < sectorSize := by decide
  have h := Xts.slice_mapArea hs (Xts.length_decryptSector (x := cipher l.key)) 0 hk hl
  rw [Nat.zero_add] at h
  exact h.symm

/-- The sector with a given number, decrypted. -/
theorem slice_plain (l : XtsLayer) (ciphertext : List UInt8) (n : Nat) :
    slice (l.plain ciphertext) (n * sectorSize) sectorSize
      = (cipher l.key).decryptSector n (slice ciphertext (n * sectorSize) sectorSize) := by
  have hs : 0 < sectorSize := by decide
  by_cases hn : n * sectorSize ≤ ciphertext.length
  · rw [← l.decryptArea_slice (m := 1) hn (Or.inl (Nat.one_mul _).symm)]
    refine Xts.mapArea_of_length_le hs Xts.length_decryptSector n ?_
    unfold slice
    rw [List.length_take]
    exact Nat.min_le_left _ _
  · -- behind the last sector there is nothing on either side
    have hnil : slice ciphertext (n * sectorSize) sectorSize = [] := by
      unfold slice
      rw [List.drop_eq_nil_of_le (by omega), List.take_nil]
    have hplain : slice (l.plain ciphertext) (n * sectorSize) sectorSize = [] := by
      unfold slice
      rw [List.drop_eq_nil_of_le (by rw [length_plain]; omega), List.take_nil]
    rw [hplain, hnil]
    exact (List.eq_nil_of_length_eq_zero (Xts.length_decryptSector n [])).symm

theorem alignedEnd_eq (l : XtsLayer) {offset length : Nat}
    (h : l.dataOffset + offset + length ≤ 2 ^ 63) :
    l.alignedEnd offset length
      = min ((l.dataOffset + offset + length + 511) / 512 * 512) l.sectionSize := by
  have hlt : l.dataOffset + offset + length < UInt64.size := by
    have hsize : UInt64.size = 18446744073709551616 := rfl
    omega
  have hv := UInt64.toNat_ofNat_of_lt' hlt
  have hup : (UInt64.ofNat (l.dataOffset + offset + length)).toNat + (2 ^ 9 - 1) < 2 ^ 64 := by
    rw [hv]
    omega
  unfold alignedEnd
  rw [Align.toNat_up (k := 9) rfl hup, hv]
  rfl

end XtsLayer

/-- A region under XTS holds a slice of its section decrypted at once. -/
theorem Region.Holds.xts {media : Media} {base : Region} {bytes : List UInt8} {layer : XtsLayer}
    (hb : base.Holds media bytes) (hl : layer.Sectored)
    (h : layer.sectionStart + layer.sectionSize ≤ base.size)
    (hd : layer.dataOffset + layer.size ≤ layer.sectionSize) :
    (Region.xts base layer).Holds media
      (slice (layer.plain (slice bytes layer.sectionStart layer.sectionSize))
        layer.dataOffset layer.size) := by
  have hsize := hb.size_eq
  have haddr := hb.addressable
  have hmax := hl.addressable
  have hsec : sectorSize = 512 := rfl
  have hsection : (slice bytes layer.sectionStart layer.sectionSize).length = layer.sectionSize :=
    length_slice (by omega)
  have hplain := layer.length_plain (slice bytes layer.sectionStart layer.sectionSize)
  rw [hsection] at hplain
  have hlen : (slice (layer.plain (slice bytes layer.sectionStart layer.sectionSize))
      layer.dataOffset layer.size).length = layer.size := length_slice (by omega)
  refine Region.holds_of_fetch hlen.symm (by omega) ?_
  intro offset length hpos hle
  rw [hlen] at hle
  have hend := layer.alignedEnd_eq (show layer.dataOffset + offset + length ≤ 2 ^ 63 by omega)
  have hfirst : layer.firstSector offset = (layer.dataOffset + offset) / 512 := rfl
  generalize hf : layer.firstSector offset = first at hfirst
  generalize hs : layer.alignedEnd offset length = stop at hend
  generalize hc : slice bytes layer.sectionStart layer.sectionSize = ciphertext at *
  have haligned : first * sectorSize = first * 512 := rfl
  have hraw : base.readAt media (layer.sectionStart + first * sectorSize)
        (stop - first * sectorSize)
      = .ok (slice ciphertext (first * sectorSize) (stop - first * sectorSize)) := by
    rw [hb.readAt_eq (by omega), ← hc, slice_slice (by omega)]
  -- what was read ends where a sector ends, or with the section
  have hwhole : stop - first * sectorSize
        = ((layer.dataOffset + offset + length + 511) / 512 - first) * sectorSize
      ∨ ciphertext.length ≤ first * sectorSize + (stop - first * sectorSize) := by
    rw [show sectorSize = 512 from rfl]
    omega
  have hdecrypt := layer.decryptArea_slice (by omega) hwhole
  have hskip : layer.dataOffset + offset
      = first * sectorSize + (layer.dataOffset + offset - first * sectorSize) := by omega
  unfold Region.readAt at hraw
  simp only [Region.fetch, hf, hs, hraw, bind, Except.bind, pure, Except.pure, hdecrypt]
  congr 1
  have hcut : slice (slice (layer.plain ciphertext) (first * sectorSize)
        (stop - first * sectorSize)) (layer.dataOffset + offset - first * sectorSize) length
      = slice (layer.plain ciphertext)
        (first * sectorSize + (layer.dataOffset + offset - first * sectorSize)) length :=
    slice_slice (by omega)
  rw [← hskip] at hcut
  rw [slice_slice hle]
  exact hcut

end Cartridge
