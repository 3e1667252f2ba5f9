import Cartridge.Proofs.Validity

/-!
# Detection and longer beginnings

Every format is told by a first part of a container: the magics by four bytes, the size of a tree's header
by as many bytes as the header has, the magic of a card image by the bytes up to its end, and a content
archive by its whole main header. Whether these bytes show the format does not depend on what follows, and
fewer bytes never show it. The formats are tried in the order of the lengths of these parts, so bytes that
are appended only let later formats be tried; what an earlier one has decided stays. As many bytes as the
main header has decide everything.

Results:
* `Format.detectBytes_eq_find?`: the format that is detected is the first one that is shown.
* `Format.shows_append_iff`, `Format.extent_le_of_shows`: which bytes decide what is shown.
* `Format.detectBytes_append_of_eq_some`, `Format.detectBytes_append_of_le`: what appended bytes change.
* `Format.result_detect_eq`: what is detected in a view, by all of its bytes.
* `Format.detection_stable`: all of it together.
-/

namespace Cartridge.Format

variable {media : Media} {keys : KeyStore} {region : Region} {head tail bytes : List UInt8} {f : Format}

/-! ## The first part -/

/-- The length of the first part of a container that tells its format. -/
def extent : Format → Nat
  | pfs0 | hfs0 => 4
  | romFs => RomFs.Header.size
  | xci => Xci.magicOffset + 4
  | nca => Nca.mainHeaderSize

theorem extent_le_headSize (f : Format) : f.extent ≤ headSize := by
  cases f <;> decide

/-- What follows the first part does not matter. -/
theorem shows_append_iff (h : f.extent ≤ head.length) :
    f.Shows keys (head ++ tail) ↔ f.Shows keys head := by
  have htake {n : Nat} (hn : n ≤ f.extent) : (head ++ tail).take n = head.take n :=
    List.take_append_of_le_length (Nat.le_trans hn h)
  cases f with
  | pfs0 | hfs0 =>
    dsimp only [Shows]
    rw [htake (Nat.le_refl 4)]
  | romFs =>
    have hroom : RomFs.Header.size ≤ head.length := h
    dsimp only [Shows]
    rw [htake (by decide), List.length_append]
    exact and_congr_right fun _ => iff_of_true (by omega) hroom
  | xci =>
    have hroom : Xci.magicOffset + 4 ≤ head.length := h
    have hmagic : ((head ++ tail).drop Xci.magicOffset).take 4 = (head.drop Xci.magicOffset).take 4 := by
      rw [List.drop_append_of_le_length (by omega),
        List.take_append_of_le_length (by rw [List.length_drop]; omega)]
    dsimp only [Shows]
    rw [hmagic]
  | nca =>
    have hroom : Nca.mainHeaderSize ≤ head.length := h
    have hfirst : (head ++ tail).take Nca.mainHeaderSize = head.take Nca.mainHeaderSize :=
      htake (Nat.le_refl _)
    have hmain (key : Bytes 32) :
        Nca.decryptMainHeader key (head ++ tail) = Nca.decryptMainHeader key head := by
      rw [← Nca.decryptMainHeader_take (Nat.le_refl _) key (head ++ tail), hfirst,
        Nca.decryptMainHeader_take (Nat.le_refl _)]
    have hlong : Nca.mainHeaderSize ≤ (head ++ tail).length := by
      rw [List.length_append]
      omega
    dsimp only [Shows, isArchive]
    cases keys.headerKey? with
    | none => rfl
    | some key =>
      dsimp only
      rw [hmain, decide_eq_true hroom, decide_eq_true hlong]

/-- A format is not shown by less than the first part. -/
theorem extent_le_of_shows (h : f.Shows keys head) : f.extent ≤ head.length := by
  cases f with
  | pfs0 | hfs0 =>
    have hlen := congrArg List.length h
    rw [List.length_take, Bytes.length_toList] at hlen
    show 4 ≤ head.length
    omega
  | romFs => exact h.2
  | xci =>
    have hlen := congrArg List.length h
    have hmagic : Xci.magic.length = 4 := rfl
    rw [List.length_take, List.length_drop, hmagic] at hlen
    show Xci.magicOffset + 4 ≤ head.length
    omega
  | nca =>
    dsimp only [Shows, isArchive] at h
    split at h
    · cases h
    · rw [Bool.and_eq_true] at h
      exact of_decide_eq_true h.1

/-! ## The order -/

instance decidableShows (keys : KeyStore) (head : List UInt8) :
    (f : Format) → Decidable (f.Shows keys head)
  | pfs0 => inferInstanceAs (Decidable (head.take 4 = Partition.Flavor.plain.magic.toList))
  | hfs0 => inferInstanceAs (Decidable (head.take 4 = Partition.Flavor.hashed.magic.toList))
  | romFs => inferInstanceAs (Decidable
      ((Endian.word64 (head.take 8)).toNat = RomFs.Header.size ∧ RomFs.Header.size ≤ head.length))
  | xci => inferInstanceAs (Decidable ((head.drop Xci.magicOffset).take 4 = Xci.magic))
  | nca => inferInstanceAs (Decidable (isArchive head keys = true))

/-- The formats in the order in which they are tried. -/
def order : List Format := [pfs0, hfs0, romFs, xci, nca]

theorem mem_order (f : Format) : f ∈ order := by
  cases f <;> decide

/-- A format that is tried later needs no fewer bytes. -/
theorem pairwise_order : order.Pairwise fun f g => f.extent ≤ g.extent := by
  decide

/-- **The first format that is shown is detected.** -/
theorem detectBytes_eq_find? :
    detectBytes head keys = order.find? fun f => decide (f.Shows keys head) := by
  have htry (f : Format) (rest : List Format) :
      (f :: rest).find? (fun f => decide (f.Shows keys head))
        = if f.Shows keys head then some f else rest.find? fun f => decide (f.Shows keys head) := by
    rw [List.find?_cons]
    by_cases h : f.Shows keys head
    · rw [decide_eq_true h, if_pos h]
    · rw [decide_eq_false h, if_neg h]
  unfold order
  rw [htry, htry, htry, htry, htry]
  rfl

/-! ## Longer beginnings -/

/-- **What is detected stays.** All formats that are tried before it need no more bytes than are there. -/
theorem detectBytes_append_of_eq_some (h : detectBytes head keys = some f) (tail : List UInt8) :
    detectBytes (head ++ tail) keys = some f := by
  rw [detectBytes_eq_find?, List.find?_eq_some_iff_append] at h ⊢
  obtain ⟨hf, before, behind, horder, hbefore⟩ := h
  have hroom : f.extent ≤ head.length := extent_le_of_shows (of_decide_eq_true hf)
  have hsame (g : Format) (hg : g.extent ≤ f.extent) :
      decide (g.Shows keys (head ++ tail)) = decide (g.Shows keys head) :=
    decide_eq_decide.mpr (shows_append_iff (Nat.le_trans hg hroom))
  have hpairwise := pairwise_order
  rw [horder, List.pairwise_append] at hpairwise
  refine ⟨(hsame f (Nat.le_refl _)).trans hf, before, behind, horder, fun g hg => ?_⟩
  rw [hsame g (hpairwise.2.2 g hg f List.mem_cons_self)]
  exact hbefore g hg

/-- **A whole main header decides everything.** -/
theorem detectBytes_append_of_le (h : headSize ≤ head.length) (tail : List UInt8) :
    detectBytes (head ++ tail) keys = detectBytes head keys := by
  have hsame : (fun f : Format => decide (f.Shows keys (head ++ tail)))
      = fun f => decide (f.Shows keys head) :=
    funext fun f => decide_eq_decide.mpr (shows_append_iff (Nat.le_trans f.extent_le_headSize h))
  rw [detectBytes_eq_find?, detectBytes_eq_find?, hsame]

theorem detectBytes_take (bytes : List UInt8) (keys : KeyStore) :
    detectBytes (bytes.take headSize) keys = detectBytes bytes keys := by
  by_cases hle : headSize ≤ bytes.length
  · have hroom : headSize ≤ (bytes.take headSize).length :=
      Nat.le_of_eq (List.length_take_of_le hle).symm
    have happend : detectBytes (bytes.take headSize ++ bytes.drop headSize) keys
        = detectBytes (bytes.take headSize) keys := detectBytes_append_of_le hroom _
    rw [List.take_append_drop] at happend
    exact happend.symm
  · rw [List.take_of_length_le (Nat.le_of_not_le hle)]

/-! ## Views -/

/-- Where a region without faults has the magic of a card image. -/
theorem hasMagicAt_iff_take (hr : region.Holds media bytes) (base : Nat) :
    Xci.hasMagicAt region media base = true ↔
      (bytes.drop (base + Xci.magicOffset)).take 4 = Xci.magic := by
  rw [Xci.hasMagicAt_iff hr, slice?_eq_some_iff, eq_comm (a := Xci.magic)]
  refine and_iff_right_of_imp fun h => ?_
  have hlen := congrArg List.length h
  have hmagic : Xci.magic.length = 4 := rfl
  rw [List.length_take, List.length_drop, hmagic] at hlen
  omega

/-- **A view is told by all of its bytes.** Only where these tell nothing, the magic of a card image behind
a key area counts. -/
theorem result_detect_eq (hr : region.Holds media bytes) (keys : KeyStore) :
    (detect region media keys).result = .ok ((detectBytes bytes keys).or
      (if (bytes.drop (Xci.keyAreaSize + Xci.magicOffset)).take 4 = Xci.magic then some xci
        else none)) := by
  rw [result_detect hr, detectBytes_take]
  cases hfound : detectBytes bytes keys with
  | some f => rfl
  | none =>
    have hfirst : ¬ Xci.hasMagicAt region media 0 = true := by
      rw [hasMagicAt_iff_take hr, Nat.zero_add]
      intro hmagic
      rw [detectBytes_eq_find?, List.find?_eq_none] at hfound
      exact hfound xci (mem_order xci) (decide_eq_true hmagic)
    have hbehind := hasMagicAt_iff_take hr Xci.keyAreaSize
    unfold Xci.headerOffset?
    rw [if_neg hfirst]
    by_cases hmagic : Xci.hasMagicAt region media Xci.keyAreaSize = true
    · rw [if_pos hmagic, if_pos (hbehind.mp hmagic)]
      rfl
    · rw [if_neg hmagic, if_neg (mt hbehind.mpr hmagic)]
      rfl

/-- **Detection is stable under more data.** With any keys, a format that bytes show is detected whatever
is appended to them; behind as many bytes as a main header has, nothing that is appended changes anything.
So what is detected in a view without faults is what all of its bytes show, except that the magic of a card
image behind a key area makes it a card image where they show nothing. -/
theorem detection_stable (keys : KeyStore) (head tail : List UInt8) :
    (∀ f, detectBytes head keys = some f → detectBytes (head ++ tail) keys = some f) ∧
    (headSize ≤ head.length → detectBytes (head ++ tail) keys = detectBytes head keys) ∧
    ∀ {media : Media} {region : Region}, region.Holds media head →
      (detect region media keys).result = .ok (match detectBytes head keys with
        | some f => some f
        | none => if (head.drop (Xci.keyAreaSize + Xci.magicOffset)).take 4 = Xci.magic then some xci
            else none) := by
  refine ⟨fun f h => detectBytes_append_of_eq_some h tail, fun h => detectBytes_append_of_le h tail,
    fun {media region} hr => ?_⟩
  rw [result_detect_eq hr keys]
  cases detectBytes head keys <;> rfl

end Cartridge.Format

/-! ## A main header with a byte behind it, and a card image behind its key area -/

namespace Cartridge.Xci.Specimen

open Format (detectBytes detect headSize)

theorem detectBytes_zeros : detectBytes keyAreaOfZeros.toList .empty = none := by
  decide +kernel

theorem headSize_le_zeros : headSize ≤ keyAreaOfZeros.toList.length := by
  rw [keyAreaOfZeros.length_toList]
  decide

theorem take_drop_fullBytes : (fullBytes.drop (keyAreaSize + magicOffset)).take 4 = magic := by
  have happend := slice?_append_right keyAreaOfZeros.toList bytes magicOffset 4
  rw [keyAreaOfZeros.length_toList, dumps.hasMagic] at happend
  exact (slice?_eq_some_iff.mp happend).2.symm

/-- A content archive is told by its main header, with or without a byte behind it. The zeros of a key area
tell nothing, nor does the card image behind them, but a view of both is one of a card image. -/
theorem detected_with_more :
    (detectBytes Container.Stub.header Nca.Specimen.keys = some .nca ∧
      detectBytes (Container.Stub.header ++ [0x50]) Nca.Specimen.keys = some .nca) ∧
    (headSize ≤ keyAreaOfZeros.toList.length ∧ detectBytes fullBytes .empty = none) ∧
    fullView.region.Holds fullMedia fullBytes ∧
      (detect fullView.region fullMedia .empty).result = .ok (some .xci) := by
  obtain ⟨harchive, -⟩ := Format.detection_stable Nca.Specimen.keys Container.Stub.header [0x50]
  obtain ⟨-, hzeros, -⟩ := Format.detection_stable .empty keyAreaOfZeros.toList bytes
  obtain ⟨-, -, hview⟩ := Format.detection_stable .empty fullBytes []
  have hnone : detectBytes fullBytes .empty = none := (hzeros headSize_le_zeros).trans detectBytes_zeros
  have hdetect := hview holds_fullView
  rw [hnone] at hdetect
  dsimp only at hdetect
  rw [if_pos take_drop_fullBytes] at hdetect
  exact ⟨⟨Container.Stub.detectBytes_header, harchive _ Container.Stub.detectBytes_header⟩,
    ⟨headSize_le_zeros, hnone⟩, holds_fullView, hdetect⟩

end Cartridge.Xci.Specimen
