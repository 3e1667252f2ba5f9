import Cartridge.Proofs.RomFs.Records
import Cartridge.RomFs.Walk

/-!
# What a walk preserves

A walk adds one file or directory after the other, each from a record to which no link has led
before, in a directory whose turn it is. What each such step preserves, of the arena and of the
directories that are pending, the whole walk preserves (`Preserved.of_walk`). So an argument about
arenas never has to go along the chains again.
-/

namespace Cartridge.RomFs

/-- A property of arenas, with one of pending directories, that each step of a walk preserves. -/
structure Preserved (dirTable fileTable : List UInt8) (Inv : Arena → Prop)
    (Fits : Arena → Pending → Prop) : Prop where
  /-- A file is added to a pending directory. -/
  addFile : ∀ {a : Arena} {dir : Pending} {place : UInt32} {record : FileRecord} {name : String},
    Inv a → Fits a dir → place ∉ a.filePlaces → FileAt fileTable place record name →
    Inv (a.addFile ⟨name, dir.id, record.dataOffset, record.dataSize, place⟩
      (joinPath dir.path name))
  /-- Adding a file leaves what is pending alone. -/
  fits_addFile : ∀ {a : Arena} {p : Pending}, Fits a p → ∀ (f : File) (path : String),
    Fits (a.addFile f path) p
  /-- A directory is added to a pending directory. -/
  addChild : ∀ {a : Arena} {dir : Pending} {place : UInt32} {record : DirectoryRecord}
    {name : String}, Inv a → Fits a dir → place ∉ a.dirPlaces →
    DirectoryAt dirTable place record name →
    Inv (a.addChild dir.id name place (joinPath dir.path name))
  /-- Adding a directory to one that is pending leaves what is pending alone. -/
  fits_addChild : ∀ {a : Arena} {dir p : Pending}, Fits a dir → Fits a p →
    ∀ (name : String) (place : UInt32) (path : String), Fits (a.addChild dir.id name place path) p
  /-- The directory that is added is pending from then on. -/
  fits_child : ∀ {a : Arena} {dir : Pending}, Fits a dir →
    ∀ (name : String) (place firstChild firstFile : UInt32),
    Fits (a.addChild dir.id name place (joinPath dir.path name))
      ⟨a.dirs.size, joinPath dir.path name, firstChild, firstFile⟩

namespace Preserved

variable {dirTable fileTable : List UInt8} {Inv : Arena → Prop} {Fits : Arena → Pending → Prop}
  {dir : Pending} {pending : List Pending} {link : UInt32} {a a' : Arena}

theorem followFiles (h : Preserved dirTable fileTable Inv Fits) (ha : Inv a) (hdir : Fits a dir)
    (hfollow : followFiles fileTable dir link a = .ok a') :
    Inv a' ∧ ∀ p, Fits a p → Fits a' p := by
  fun_induction RomFs.followFiles fileTable dir link a generalizing a' with
  | case1 =>
    cases hfollow
    exact ⟨ha, fun _ hp => hp⟩
  | case2 => cases hfollow
  | case3 => cases hfollow
  | case4 link a _ hseen record name hread ih =>
    have hadd := h.addFile ha hdir hseen (readFile_eq_ok_iff.mp hread)
    obtain ⟨ha', hfits⟩ := ih hadd (h.fits_addFile hdir _ _) hfollow
    exact ⟨ha', fun p hp => hfits p (h.fits_addFile hp _ _)⟩

theorem followChildren (h : Preserved dirTable fileTable Inv Fits) (ha : Inv a)
    (hdir : Fits a dir) (hfollow : followChildren dirTable dir link a = .ok (a', pending)) :
    Inv a' ∧ (∀ p, Fits a p → Fits a' p) ∧ ∀ p ∈ pending, Fits a' p := by
  fun_induction RomFs.followChildren dirTable dir link a generalizing a' pending with
  | case1 =>
    cases hfollow
    exact ⟨ha, fun _ hp => hp, by simp⟩
  | case2 => cases hfollow
  | case3 => cases hfollow
  | case4 => cases hfollow
  | case5 link a _ hseen record name hread path a₁ _ hrest =>
    rename_i ih
    cases hfollow
    have hadd := h.addChild ha hdir hseen (readDirectory_eq_ok_iff.mp hread)
    obtain ⟨ha', hfits, hpending⟩ := ih hadd (h.fits_addChild hdir hdir _ _ _) hrest
    refine ⟨ha', fun p hp => hfits p (h.fits_addChild hdir hp _ _ _), ?_⟩
    intro p hp
    rcases List.mem_cons.mp hp with rfl | hp
    · exact hfits _ (h.fits_child hdir ..)
    · exact hpending p hp

theorem visit (h : Preserved dirTable fileTable Inv Fits) (ha : Inv a)
    (hpending : ∀ p ∈ pending, Fits a p) (hvisit : visit dirTable fileTable pending a = .ok a') :
    Inv a' := by
  fun_induction RomFs.visit dirTable fileTable pending a generalizing a' with
  | case1 =>
    cases hvisit
    exact ha
  | case2 => cases hvisit
  | case3 => cases hvisit
  | case4 dir rest a a₁ hfiles a₂ children hchildren ih =>
    have hdir := hpending dir List.mem_cons_self
    obtain ⟨ha₁, hfits₁⟩ := h.followFiles ha hdir hfiles
    obtain ⟨ha₂, hfits₂, hnew⟩ := h.followChildren ha₁ (hfits₁ dir hdir) hchildren
    refine ih ha₂ ?_ hvisit
    intro p hp
    rcases List.mem_append.mp hp with hp | hp
    · exact hnew p hp
    · exact hfits₂ p (hfits₁ p (hpending p (List.mem_cons_of_mem dir hp)))

/-- **What each step preserves the whole walk preserves**, from the root on. -/
theorem of_walk (h : Preserved dirTable fileTable Inv Fits) (hroot : Inv .ofRoot)
    (hpending : ∀ firstChild firstFile, Fits .ofRoot ⟨0, "/", firstChild, firstFile⟩)
    (hwalk : walk dirTable fileTable = .ok a) : Inv a := by
  unfold walk at hwalk
  split at hwalk
  · cases hwalk
  · refine h.visit hroot ?_ hwalk
    intro p hp
    rw [List.mem_singleton.mp hp]
    exact hpending _ _

end Preserved

end Cartridge.RomFs
