import Cartridge.Nca.Archive
import Mathlib.Data.List.Nodup

/-!
# Where the sections of a content archive lie

Describing sections accepts them one by one, each behind the one before it. What is accepted lies
within the archive, is a whole number of blocks long and has room for its filesystem.

Results:
* `describeSection_eq_ok_iff`: what an accepted section is and what it was checked for.
* `Headers.describe_ok`: every described section fits (`Descriptor.Fits`), and the sections come in
  the order of their numbers.
-/

namespace Cartridge.Nca

variable {main : Header} {archiveSize earliest index : Nat} {entry : SectionEntry}
  {header : SectionHeader} {d : Descriptor}

/-- A section lies within the archive, on block borders, and its filesystem within the section. -/
structure Descriptor.Fits (archiveSize : Nat) (d : Descriptor) : Prop where
  blocks : ∃ entry : SectionEntry, entry.isPopulated = true ∧ d.start = entry.startOffset ∧
    d.stop = entry.endOffset
  stop_le : d.stop ≤ archiveSize
  data_le : d.dataOffset + d.dataSize ≤ d.size

theorem describeSection_eq_ok_iff :
    describeSection main archiveSize earliest index entry header = .ok d ↔
      earliest ≤ entry.startOffset ∧ entry.endOffset ≤ archiveSize ∧
      ∃ offset size, header.dataRegion = .ok (offset, size) ∧
        offset.toNat + size.toNat ≤ entry.endOffset - entry.startOffset ∧
        ⟨index, header.kind, .resolve header.encryption main.hasRightsId, main.keyGeneration,
          entry.startOffset, entry.endOffset, offset.toNat, size.toNat, header.upperCounter⟩ = d := by
  simp only [describeSection, check_eq_ok_iff, bind_eq_ok_iff, Prod.exists, Nat.not_lt, pure,
    Except.pure, Except.ok.injEq]

theorem fits_of_describeSection (hentry : entry.isPopulated = true)
    (h : describeSection main archiveSize earliest index entry header = .ok d) :
    d.index = index ∧ d.Fits archiveSize := by
  obtain ⟨-, hstop, offset, size, -, hdata, rfl⟩ := describeSection_eq_ok_iff.mp h
  exact ⟨rfl, ⟨entry, hentry, rfl, rfl⟩, hstop, hdata⟩

theorem describeFrom_ok {places : List (Nat × SectionEntry × Option SectionHeader)}
    {ds : List Descriptor} (h : describeFrom main archiveSize earliest places = .ok ds) :
    (ds.map Descriptor.index).Sublist (places.map Prod.fst) ∧ ∀ d ∈ ds, d.Fits archiveSize := by
  induction places generalizing earliest ds with
  | nil =>
    cases h
    exact ⟨List.Sublist.refl [], fun d hd => nomatch hd⟩
  | cons place rest ih =>
    obtain ⟨index, entry, header?⟩ := place
    unfold describeFrom at h
    split at h
    · rename_i header hentry
      obtain ⟨d, hd, h⟩ := bind_eq_ok_iff.mp h
      obtain ⟨others, hothers, h⟩ := bind_eq_ok_iff.mp h
      cases h
      obtain ⟨hsub, hall⟩ := ih hothers
      obtain ⟨hindex, hfits⟩ := fits_of_describeSection hentry hd
      refine ⟨?_, List.forall_mem_cons.mpr ⟨hfits, hall⟩⟩
      rw [List.map_cons, List.map_cons, hindex]
      exact hsub.cons_cons index
    · obtain ⟨hsub, hall⟩ := ih h
      exact ⟨hsub.cons index, hall⟩

theorem Headers.map_fst_places (h : Headers) : h.places.map Prod.fst = [0, 1, 2, 3] := rfl

/-- Described sections have the numbers of their places. -/
theorem Headers.describe_places {h : Headers} {ds : List Descriptor}
    (hd : h.describe archiveSize = .ok ds) :
    (ds.map Descriptor.index).Sublist [0, 1, 2, 3] ∧ ∀ d ∈ ds, d.Fits archiveSize := by
  unfold Headers.describe at hd
  split at hd
  · cases hd
  · rw [← h.map_fst_places]
    exact describeFrom_ok hd

/-- **Described sections** fit the archive and come in the order of their numbers. -/
theorem Headers.describe_ok {h : Headers} {ds : List Descriptor}
    (hd : h.describe archiveSize = .ok ds) :
    ds.Pairwise (fun a b => a.index < b.index) ∧ ∀ d ∈ ds, d.Fits archiveSize := by
  obtain ⟨hsub, hall⟩ := describe_places hd
  have hsorted : [0, 1, 2, 3].Pairwise (· < ·) := by decide
  exact ⟨List.pairwise_map.mp (hsorted.sublist hsub), hall⟩

/-- A section is known by its number. -/
theorem Headers.eq_of_index_eq {h : Headers} {ds : List Descriptor} {a b : Descriptor}
    (hd : h.describe archiveSize = .ok ds) (ha : a ∈ ds) (hb : b ∈ ds)
    (hi : a.index = b.index) : a = b := by
  have hnodup : (ds.map Descriptor.index).Nodup :=
    List.pairwise_map.mpr ((Headers.describe_ok hd).1.imp Nat.ne_of_lt)
  exact List.inj_on_of_nodup_map hnodup ha hb hi

end Cartridge.Nca
