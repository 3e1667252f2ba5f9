import Cartridge.RomFs.Arena

/-!
# Walking a directory tree

The tree is walked from the root record, a directory before its children and the children in the
order of their chain. When a directory's turn comes, its chain of files is followed and then its chain
of children; what it finds is numbered in that order. A record to which two links lead, one that does
not lie in its table and one whose name is not UTF-8 end the walk.

The walk ends because every step of a chain goes to a record that no link has led to before, and a
table has only so many places.

* `unseen_lt`: going to a new place leaves fewer of them.
* `followChildren_measure`: a chain of children finds as many directories as it leaves fewer places.
* `dirPlaces_followFiles`: a chain of files leaves the places of directories as they are.
* `followFiles_eq`, `followChildren_eq`, `visit_cons`: each recursion, unfolded once.
* `followFiles_of_read`, `followChildren_of_read`, `visit_of_follow`: one step of each recursion.
-/

namespace Cartridge.RomFs

/-- A directory whose chains have not been followed yet. -/
structure Pending where
  id : Nat
  path : String
  firstChild : UInt32
  firstFile : UInt32

/-! ## Places -/

/-- The number of places in a table of the given length to which no link has led. -/
def unseen (length : Nat) (seen : List UInt32) : Nat :=
  ((List.range length).filter fun place => !(seen.map UInt32.toNat).contains place).length

theorem unseen_lt {length : Nat} {seen seen' : List UInt32} {place : UInt32}
    (hlt : place.toNat < length) (hnew : place ∉ seen) (hall : seen' = seen ++ [place]) :
    unseen length seen' < unseen length seen := by
  subst hall
  unfold unseen
  have hsub : (List.range length).filter
        (fun p => !((seen ++ [place]).map UInt32.toNat).contains p)
      = ((List.range length).filter fun p => !(seen.map UInt32.toNat).contains p).filter
        (fun p => p != place.toNat) := by
    rw [List.filter_filter]
    apply List.filter_congr
    intro p _
    simp [Bool.and_comm, bne, Bool.beq_eq_decide_eq]
  rw [hsub]
  apply List.length_filter_lt_length_iff_exists.2
  refine ⟨place.toNat, ?_, by simp⟩
  simp only [List.mem_filter, List.mem_range, hlt, true_and, Bool.not_eq_true',
    List.contains_eq_mem, decide_eq_false_iff_not, List.mem_map, not_exists, not_and]
  intro other hmem heq
  exact hnew (UInt32.toNat_inj.mp heq ▸ hmem)

/-! ## Chains -/

/-- Follows a chain of files of a directory. -/
def followFiles (table : List UInt8) (dir : Pending) (link : UInt32) (a : Arena) :
    Except TreeFault Arena :=
  if link = noLink then .ok a
  else if _hseen : link ∈ a.filePlaces then .error (.linkedTwice .file link.toNat)
  else
    match _hread : readFile table link with
    | .error fault => .error fault
    | .ok (record, name) =>
      followFiles table dir record.sibling
        (a.addFile ⟨name, dir.id, record.dataOffset, record.dataSize, link⟩ (joinPath dir.path name))
termination_by unseen table.length a.filePlaces
decreasing_by
  exact unseen_lt (lt_length_of_readFile _hread) _hseen (Arena.filePlaces_addFile ..)

/-- Follows a chain of children of a directory, and gives them as directories whose chains are still
to be followed. -/
def followChildren (table : List UInt8) (dir : Pending) (link : UInt32) (a : Arena) :
    Except TreeFault (Arena × List Pending) :=
  if link = noLink then .ok (a, [])
  else if _hseen : link ∈ a.dirPlaces then .error (.linkedTwice .directory link.toNat)
  else
    match _hread : readDirectory table link with
    | .error fault => .error fault
    | .ok (record, name) =>
      let path := joinPath dir.path name
      match followChildren table dir record.sibling (a.addChild dir.id name link path) with
      | .error fault => .error fault
      | .ok (a', children) =>
        .ok (a', ⟨a.dirs.size, path, record.firstChild, record.firstFile⟩ :: children)
termination_by unseen table.length a.dirPlaces
decreasing_by
  exact unseen_lt (lt_length_of_readDirectory _hread) _hseen (Arena.dirPlaces_addChild ..)

/-! ### Steps of a chain -/

/-- A chain of files, unfolded once. -/
theorem followFiles_eq (table : List UInt8) (dir : Pending) (link : UInt32) (a : Arena) :
    followFiles table dir link a =
      if link = noLink then .ok a
      else if link ∈ a.filePlaces then .error (.linkedTwice .file link.toNat)
      else (do
        let (record, name) ← readFile table link
        followFiles table dir record.sibling
          (a.addFile ⟨name, dir.id, record.dataOffset, record.dataSize, link⟩
            (joinPath dir.path name))) := by
  rw [followFiles]
  split
  · rfl
  · split
    · rfl
    · split <;> rename_i hread <;> rw [hread] <;> rfl

@[simp] theorem followFiles_noLink (table : List UInt8) (dir : Pending) (a : Arena) :
    followFiles table dir noLink a = .ok a := by
  rw [followFiles, if_pos rfl]

/-- A chain of files goes on behind a record that no link has led to. -/
theorem followFiles_of_read {table : List UInt8} {dir : Pending} {link : UInt32} {a : Arena}
    {record : FileRecord} {name : String} (hlink : link ≠ noLink) (hnew : link ∉ a.filePlaces)
    (hread : readFile table link = .ok (record, name)) :
    followFiles table dir link a = followFiles table dir record.sibling
      (a.addFile ⟨name, dir.id, record.dataOffset, record.dataSize, link⟩
        (joinPath dir.path name)) := by
  rw [followFiles_eq, if_neg hlink, if_neg hnew, hread]
  rfl

/-- A chain of children, unfolded once. -/
theorem followChildren_eq (table : List UInt8) (dir : Pending) (link : UInt32) (a : Arena) :
    followChildren table dir link a =
      if link = noLink then .ok (a, [])
      else if link ∈ a.dirPlaces then .error (.linkedTwice .directory link.toNat)
      else (do
        let (record, name) ← readDirectory table link
        let path := joinPath dir.path name
        let (a', children) ← followChildren table dir record.sibling
          (a.addChild dir.id name link path)
        return (a', ⟨a.dirs.size, path, record.firstChild, record.firstFile⟩ :: children)) := by
  rw [followChildren]
  split
  · rfl
  · split
    · rfl
    · split <;> rename_i hread <;> rw [hread]
      · rfl
      · dsimp only [bind, Except.bind]
        split <;> rename_i hrest <;> rw [hrest]
        rfl

@[simp] theorem followChildren_noLink (table : List UInt8) (dir : Pending) (a : Arena) :
    followChildren table dir noLink a = .ok (a, []) := by
  rw [followChildren, if_pos rfl]

/-- A chain of children goes on behind a record that no link has led to. -/
theorem followChildren_of_read {table : List UInt8} {dir : Pending} {link : UInt32} {a a' : Arena}
    {record : DirectoryRecord} {name : String} {children : List Pending} (hlink : link ≠ noLink)
    (hnew : link ∉ a.dirPlaces) (hread : readDirectory table link = .ok (record, name))
    (hrest : followChildren table dir record.sibling
      (a.addChild dir.id name link (joinPath dir.path name)) = .ok (a', children)) :
    followChildren table dir link a = .ok (a',
      ⟨a.dirs.size, joinPath dir.path name, record.firstChild, record.firstFile⟩ :: children) := by
  rw [followChildren_eq, if_neg hlink, if_neg hnew, hread]
  dsimp only [bind, Except.bind]
  rw [hrest]
  rfl

/-- Following files finds no directories. -/
theorem dirPlaces_followFiles {table : List UInt8} {dir : Pending} {link : UInt32} {a a' : Arena}
    (h : followFiles table dir link a = .ok a') : a'.dirPlaces = a.dirPlaces := by
  fun_induction followFiles table dir link a generalizing a' with
  | case1 =>
    cases h
    rfl
  | case2 => cases h
  | case3 => cases h
  | case4 _ _ _ _ _ _ _ ih => rw [ih h, Arena.dirPlaces_addFile]

theorem followChildren_measure {table : List UInt8} {dir : Pending} {link : UInt32}
    {a a' : Arena} {children : List Pending}
    (h : followChildren table dir link a = .ok (a', children)) :
    unseen table.length a'.dirPlaces + children.length ≤ unseen table.length a.dirPlaces := by
  fun_induction followChildren table dir link a generalizing a' children with
  | case1 => simp_all
  | case2 => simp_all
  | case3 => simp_all
  | case4 => simp_all
  | case5 =>
    rename_i link a _ hseen record name hread path a₁ children₁ hrest ih
    simp only [Except.ok.injEq, Prod.mk.injEq] at h
    obtain ⟨rfl, rfl⟩ := h
    have hlt : unseen table.length (a.addChild dir.id name link path).dirPlaces <
        unseen table.length a.dirPlaces :=
      unseen_lt (lt_length_of_readDirectory hread) hseen (Arena.dirPlaces_addChild ..)
    have := ih hrest
    simp only [List.length_cons]
    omega

/-! ## The walk -/

/-- Visits directories in turn, each followed by its descendants. -/
def visit (dirTable fileTable : List UInt8) : List Pending → Arena → Except TreeFault Arena
  | [], a => .ok a
  | dir :: rest, a =>
    match _hfiles : followFiles fileTable dir dir.firstFile a with
    | .error fault => .error fault
    | .ok a₁ =>
      match _hchildren : followChildren dirTable dir dir.firstChild a₁ with
      | .error fault => .error fault
      | .ok (a₂, children) => visit dirTable fileTable (children ++ rest) a₂
termination_by pending a => unseen dirTable.length a.dirPlaces + pending.length
decreasing_by
  have := followChildren_measure _hchildren
  rw [dirPlaces_followFiles _hfiles] at this
  simp only [List.length_append, List.length_cons]
  omega

@[simp] theorem visit_nil (dirTable fileTable : List UInt8) (a : Arena) :
    visit dirTable fileTable [] a = .ok a := by
  rw [visit]

/-- The visit of pending directories, unfolded once. -/
theorem visit_cons (dirTable fileTable : List UInt8) (dir : Pending) (rest : List Pending)
    (a : Arena) :
    visit dirTable fileTable (dir :: rest) a = (do
      let a₁ ← followFiles fileTable dir dir.firstFile a
      let (a₂, children) ← followChildren dirTable dir dir.firstChild a₁
      visit dirTable fileTable (children ++ rest) a₂) := by
  rw [visit]
  split <;> rename_i hfiles <;> rw [hfiles]
  · rfl
  · dsimp only [bind, Except.bind]
    split <;> rename_i hchildren <;> rw [hchildren]

/-- A directory whose chains can be followed is followed by what its children chain found. -/
theorem visit_of_follow {dirTable fileTable : List UInt8} {dir : Pending}
    {rest children : List Pending} {a a₁ a₂ : Arena}
    (hfiles : followFiles fileTable dir dir.firstFile a = .ok a₁)
    (hchildren : followChildren dirTable dir dir.firstChild a₁ = .ok (a₂, children)) :
    visit dirTable fileTable (dir :: rest) a =
      visit dirTable fileTable (children ++ rest) a₂ := by
  rw [visit_cons, hfiles]
  dsimp only [bind, Except.bind]
  rw [hchildren]

/-- Walks the tree that hangs from the directory record at the start of its table. -/
def walk (dirTable fileTable : List UInt8) : Except TreeFault Arena :=
  match readDirectory dirTable 0 with
  | .error fault => .error fault
  | .ok (root, _) =>
    visit dirTable fileTable [⟨0, "/", root.firstChild, root.firstFile⟩] .ofRoot

theorem walk_of_read {dirTable fileTable : List UInt8} {root : DirectoryRecord} {name : String}
    (hread : readDirectory dirTable 0 = .ok (root, name)) :
    walk dirTable fileTable =
      visit dirTable fileTable [⟨0, "/", root.firstChild, root.firstFile⟩] .ofRoot := by
  rw [walk, hread]

end Cartridge.RomFs
