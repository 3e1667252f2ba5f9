import Cartridge.Proofs.RomFs.Accesses
import Cartridge.Proofs.RomFs.Rooted

/-!
# The loops of a walk

The recursion of the walk as three loops that share a stack: one takes the last directory off the stack
and follows the chain of its files and then that of its children, and puts the children on the stack,
the last one first, so that the first one is taken next. The links are whatever the tables say, so they
may lead around in circles, and a loop ends only because it stops at a record it has been to.

A move that would access something out of range has no answer (`step`), and a run is a finite sequence
of moves that ends with an answer, counted by the links that are followed (`Runs`). So that there is a
run says that the loops end and that no access is out of range.

Results:
* `step_progress`: from where the loops can be, there is a move; what it leads to has the same answer,
  is nearer to the end, and each link is paid for by a place that is new.
* `runs_of_ready`, `Runs.unique`: there is just one run, and it gives what the recursion gives.
* `walk_halts`: the loops end for any two tables, after no more links than the tables have bytes, and
  two, and what they find is bounded by the sizes of the tables.
-/

namespace Cartridge.RomFs

theorem unseen_le (length : Nat) (seen : List UInt32) : unseen length seen ≤ length := by
  have hle := List.length_filter_le (fun place => !(seen.map UInt32.toNat).contains place)
    (List.range length)
  rwa [List.length_range] at hle

namespace Loops

/-! ## The loops -/

/-- Where the loops are. -/
inductive State where
  /-- The record of the root is to be read. -/
  | start
  /-- The last directory is to be taken off the stack. -/
  | next (stack : List Pending) (a : Arena)
  /-- The chain of the files of a directory is followed. -/
  | files (dir : Pending) (link : UInt32) (stack : List Pending) (a : Arena)
  /-- The chain of the children of a directory is followed. -/
  | children (dir : Pending) (link : UInt32) (found stack : List Pending) (a : Arena)

/-- What a move leads to. -/
inductive Move where
  | goto (s : State)
  | halt (answer : Except TreeFault Arena)

/-- A move of the loops. It has no answer if a field of a record is taken from outside its fixed part,
or if something is listed in a directory that is not there. -/
def step (dirTable fileTable : List UInt8) : State → Option Move
  | .start => do
    match ← fetchDirectory? dirTable 0 with
    | .error fault => return .halt (.error fault)
    | .ok (root, _) =>
      return .goto (.next [⟨0, "/", root.firstChild, root.firstFile⟩] .ofRoot)
  | .next stack a =>
    match stack.getLast? with
    | none => return .halt (.ok a)
    | some dir => return .goto (.files dir dir.firstFile stack.dropLast a)
  | .files dir link stack a =>
    if link = noLink then return .goto (.children dir dir.firstChild [] stack a)
    else if link ∈ a.filePlaces then return .halt (.error (.linkedTwice .file link.toNat))
    else do
      match ← fetchFile? fileTable link with
      | .error fault => return .halt (.error fault)
      | .ok (record, name) =>
        let _ ← a.dir? dir.id
        return .goto (.files dir record.sibling stack
          (a.addFile ⟨name, dir.id, record.dataOffset, record.dataSize, link⟩
            (joinPath dir.path name)))
  | .children dir link found stack a =>
    if link = noLink then return .goto (.next (stack ++ found.reverse) a)
    else if link ∈ a.dirPlaces then return .halt (.error (.linkedTwice .directory link.toNat))
    else do
      match ← fetchDirectory? dirTable link with
      | .error fault => return .halt (.error fault)
      | .ok (record, name) =>
        let _ ← a.dir? dir.id
        let path := joinPath dir.path name
        return .goto (.children dir record.sibling
          (found ++ [⟨a.dirs.size, path, record.firstChild, record.firstFile⟩]) stack
          (a.addChild dir.id name link path))

namespace State

/-- The number of links that the move from here follows. -/
def links : State → Nat
  | .start => 0
  | .next _ _ => 0
  | .files _ link _ _ => if link = noLink then 0 else 1
  | .children _ link _ _ _ => if link = noLink then 0 else 1

/-- What has been found so far. -/
def arena : State → Arena
  | .start => .empty
  | .next _ a => a
  | .files _ _ _ a => a
  | .children _ _ _ _ a => a

/-- The directories whose chains have not been followed to their end. -/
def pending : State → List Pending
  | .start => []
  | .next stack _ => stack
  | .files dir _ stack _ => dir :: stack
  | .children dir _ found stack _ => dir :: (found ++ stack)

/-- All of them are in the arena. -/
def Ready (s : State) : Prop := ∀ p ∈ s.pending, p.id < s.arena.dirs.size

end State

/-! ## Runs -/

section Runs

variable (dirTable fileTable : List UInt8)

/-- From here the loops come to an answer, and follow so many links until then. -/
inductive Runs : State → Nat → Except TreeFault Arena → Prop
  | halt {s : State} {answer : Except TreeFault Arena}
      (hstep : step dirTable fileTable s = some (.halt answer)) : Runs s s.links answer
  | goto {s s' : State} {links : Nat} {answer : Except TreeFault Arena}
      (hstep : step dirTable fileTable s = some (.goto s')) (hrest : Runs s' links answer) :
      Runs s (s.links + links) answer

/-- What the recursion makes of what is still to be done. -/
def State.answer : State → Except TreeFault Arena
  | .start => walk dirTable fileTable
  | .next stack a => visit dirTable fileTable stack.reverse a
  | .files dir link stack a => do
    let a₁ ← followFiles fileTable dir link a
    let (a₂, found) ← followChildren dirTable dir dir.firstChild a₁
    visit dirTable fileTable (found ++ stack.reverse) a₂
  | .children dir link found stack a => do
    let (a₁, others) ← followChildren dirTable dir link a
    visit dirTable fileTable (found ++ others ++ stack.reverse) a₁

/-- The places of both tables to which no link has led. -/
def State.budget (s : State) : Nat :=
  unseen dirTable.length s.arena.dirPlaces + unseen fileTable.length s.arena.filePlaces

/-- How far the loops can be from their end: a place that is new is worth more than the directory that
is pending instead, and the loops come one after the other. -/
def State.weight (s : State) : Nat :=
  4 * unseen dirTable.length s.arena.dirPlaces + unseen fileTable.length s.arena.filePlaces +
    3 * s.pending.length + match s with
      | .start => 6
      | .next _ _ => 2
      | .files _ _ _ _ => 1
      | .children _ _ _ _ _ => 0

/-- A move goes on: what it leads to has the same answer, is nearer to the end, and a link that is
followed uses up a place. -/
structure Advances (s s' : State) : Prop where
  ready : s'.Ready
  answer_eq : s'.answer dirTable fileTable = s.answer dirTable fileTable
  weight_lt : s'.weight dirTable fileTable < s.weight dirTable fileTable
  budget_le : s.links + s'.budget dirTable fileTable ≤ s.budget dirTable fileTable

end Runs

variable {dirTable fileTable : List UInt8}

/-- A move that comes to an answer comes to that of the recursion, any other goes on. -/
def Move.Sound (dirTable fileTable : List UInt8) (s : State) : Move → Prop
  | .goto s' => Advances dirTable fileTable s s'
  | .halt answer => answer = s.answer dirTable fileTable

/-- There is a move, and it is sound. -/
def Progresses (dirTable fileTable : List UInt8) (s : State) : Prop :=
  ∃ m, step dirTable fileTable s = some m ∧ m.Sound dirTable fileTable s

theorem start_progresses : Progresses dirTable fileTable .start := by
  cases hread : readDirectory dirTable 0 with
  | error fault =>
    have hstep : step dirTable fileTable .start = some (.halt (.error fault)) := by
      rw [step, fetchDirectory?_eq, hread]
      rfl
    refine ⟨_, hstep, ?_⟩
    change _ = walk dirTable fileTable
    rw [walk, hread]
  | ok root =>
    obtain ⟨record, name⟩ := root
    have hstep : step dirTable fileTable .start =
        some (.goto (.next [⟨0, "/", record.firstChild, record.firstFile⟩] .ofRoot)) := by
      rw [step, fetchDirectory?_eq, hread]
      rfl
    have hless : unseen dirTable.length Arena.ofRoot.dirPlaces <
        unseen dirTable.length Arena.empty.dirPlaces :=
      unseen_lt (lt_length_of_readDirectory hread) List.not_mem_nil rfl
    have hfiles : Arena.ofRoot.filePlaces = Arena.empty.filePlaces := rfl
    refine ⟨_, hstep, ?_, (walk_of_read hread).symm, ?_, ?_⟩
    · intro p hp
      rw [List.mem_singleton.mp hp]
      exact Nat.zero_lt_one
    · simp only [State.weight, State.arena, State.pending, List.length_singleton, List.length_nil,
        hfiles]
      omega
    · simp only [State.budget, State.links, State.arena, hfiles]
      omega

theorem next_progresses {stack : List Pending} {a : Arena} (h : (State.next stack a).Ready) :
    Progresses dirTable fileTable (.next stack a) := by
  cases hlast : stack.getLast? with
  | none =>
    obtain rfl := List.getLast?_eq_none_iff.mp hlast
    exact ⟨.halt (.ok a), by rw [step]; rfl, (visit_nil ..).symm⟩
  | some dir =>
    obtain ⟨below, rfl⟩ := List.getLast?_eq_some_iff.mp hlast
    have hstep : step dirTable fileTable (.next (below ++ [dir]) a) =
        some (.goto (.files dir dir.firstFile below a)) := by
      rw [step, hlast]
      dsimp only
      rw [List.dropLast_concat]
      rfl
    refine ⟨_, hstep, ?_, ?_, ?_, Nat.le_of_eq (Nat.zero_add _)⟩
    · intro p hp
      exact h p (by simpa [State.pending, or_comm] using hp)
    · rw [State.answer, State.answer, List.reverse_concat, visit_cons]
    · simp only [State.weight, State.arena, State.pending, List.length_append, List.length_cons]
      omega

section Chains

variable {dir : Pending} {link : UInt32} {found stack : List Pending} {a : Arena} {name : String}

/-- A file is listed in the directory whose chain is followed, which is in the arena. -/
theorem step_files_of_read {record : FileRecord} (hlink : link ≠ noLink) (hnew : link ∉ a.filePlaces)
    (hread : readFile fileTable link = .ok (record, name)) (hdir : dir.id < a.dirs.size) :
    step dirTable fileTable (.files dir link stack a) = some (.goto (.files dir record.sibling stack
      (a.addFile ⟨name, dir.id, record.dataOffset, record.dataSize, link⟩
        (joinPath dir.path name)))) := by
  obtain ⟨d, hd⟩ := Arena.dir?_isSome hdir
  rw [step, if_neg hlink, if_neg hnew, fetchFile?_eq, hread]
  dsimp only [bind, Option.bind_some]
  rw [hd]
  rfl

/-- A child is listed in the directory whose chain is followed, which is in the arena. -/
theorem step_children_of_read {record : DirectoryRecord} (hlink : link ≠ noLink)
    (hnew : link ∉ a.dirPlaces) (hread : readDirectory dirTable link = .ok (record, name))
    (hdir : dir.id < a.dirs.size) :
    step dirTable fileTable (.children dir link found stack a) =
      some (.goto (.children dir record.sibling
        (found ++ [⟨a.dirs.size, joinPath dir.path name, record.firstChild, record.firstFile⟩])
        stack (a.addChild dir.id name link (joinPath dir.path name)))) := by
  obtain ⟨d, hd⟩ := Arena.dir?_isSome hdir
  rw [step, if_neg hlink, if_neg hnew, fetchDirectory?_eq, hread]
  dsimp only [bind, Option.bind_some]
  rw [hd]
  rfl

/-- A file that is new brings the loops nearer to their end. -/
theorem files_advances_of_read {record : FileRecord} (h : (State.files dir link stack a).Ready)
    (hlink : link ≠ noLink) (hnew : link ∉ a.filePlaces)
    (hread : readFile fileTable link = .ok (record, name)) :
    Advances dirTable fileTable (.files dir link stack a) (.files dir record.sibling stack
      (a.addFile ⟨name, dir.id, record.dataOffset, record.dataSize, link⟩
        (joinPath dir.path name))) := by
  have hless := unseen_lt (lt_length_of_readFile hread) hnew
    (a.filePlaces_addFile ⟨name, dir.id, record.dataOffset, record.dataSize, link⟩
      (joinPath dir.path name))
  constructor
  · intro p hp
    rw [State.arena, Arena.size_dirs_addFile]
    exact h p hp
  · rw [State.answer, State.answer, followFiles_of_read hlink hnew hread]
  · simp only [State.weight, State.arena, State.pending, Arena.dirPlaces_addFile]
    omega
  · simp only [State.budget, State.links, State.arena, Arena.dirPlaces_addFile, if_neg hlink]
    omega

/-- A child that is new brings the loops nearer to their end, although it is pending from now on. -/
theorem children_advances_of_read {record : DirectoryRecord}
    (h : (State.children dir link found stack a).Ready) (hlink : link ≠ noLink)
    (hnew : link ∉ a.dirPlaces) (hread : readDirectory dirTable link = .ok (record, name)) :
    Advances dirTable fileTable (.children dir link found stack a)
      (.children dir record.sibling
        (found ++ [⟨a.dirs.size, joinPath dir.path name, record.firstChild, record.firstFile⟩])
        stack (a.addChild dir.id name link (joinPath dir.path name))) := by
  have hless := unseen_lt (lt_length_of_readDirectory hread) hnew
    (a.dirPlaces_addChild dir.id name link (joinPath dir.path name))
  constructor
  · intro p hp
    rw [State.arena, Arena.size_dirs_addChild]
    have hcases : p ∈ dir :: (found ++ stack) ∨ p.id = a.dirs.size := by
      simp only [State.pending, List.mem_cons, List.mem_append, List.not_mem_nil, or_false] at hp
      rcases hp with hp | (hp | rfl) | hp
      · exact .inl (by simp [hp])
      · exact .inl (by simp [hp])
      · exact .inr rfl
      · exact .inl (by simp [hp])
    rcases hcases with hp | hp
    · exact Nat.lt_succ_of_lt (h p hp)
    · exact hp ▸ Nat.lt_succ_self _
  · rw [State.answer, State.answer, followChildren_eq dirTable dir link, if_neg hlink,
      if_neg hnew, hread]
    dsimp only [bind, Except.bind]
    cases followChildren dirTable dir record.sibling
        (a.addChild dir.id name link (joinPath dir.path name)) with
    | error fault => rfl
    | ok rest => simp [pure, Except.pure]
  · simp only [State.weight, State.arena, State.pending, Arena.filePlaces_addChild,
      List.length_cons, List.length_append, List.length_nil]
    omega
  · simp only [State.budget, State.links, State.arena, Arena.filePlaces_addChild, if_neg hlink]
    omega

end Chains

theorem files_progresses {dir : Pending} {link : UInt32} {stack : List Pending} {a : Arena}
    (h : (State.files dir link stack a).Ready) :
    Progresses dirTable fileTable (.files dir link stack a) := by
  by_cases hlink : link = noLink
  · subst hlink
    have hstep : step dirTable fileTable (.files dir noLink stack a) =
        some (.goto (.children dir dir.firstChild [] stack a)) := by
      rw [step, if_pos rfl]
      rfl
    refine ⟨_, hstep, h, ?_, ?_, Nat.le_of_eq (Nat.zero_add _)⟩
    · rw [State.answer, State.answer, followFiles_noLink]
      rfl
    · simp only [State.weight, State.arena, State.pending, List.length_cons, List.nil_append]
      omega
  by_cases hseen : link ∈ a.filePlaces
  · have hstep : step dirTable fileTable (.files dir link stack a) =
        some (.halt (.error (.linkedTwice .file link.toNat))) := by
      rw [step, if_neg hlink, if_pos hseen]
      rfl
    refine ⟨_, hstep, ?_⟩
    rw [Move.Sound, State.answer, followFiles_eq, if_neg hlink, if_pos hseen]
    rfl
  cases hread : readFile fileTable link with
  | error fault =>
    have hstep : step dirTable fileTable (.files dir link stack a) =
        some (.halt (.error fault)) := by
      rw [step, if_neg hlink, if_neg hseen, fetchFile?_eq, hread]
      rfl
    refine ⟨_, hstep, ?_⟩
    rw [Move.Sound, State.answer, followFiles_eq, if_neg hlink, if_neg hseen, hread]
    rfl
  | ok found =>
    obtain ⟨record, name⟩ := found
    have hdir : dir.id < a.dirs.size := h dir List.mem_cons_self
    exact ⟨_, step_files_of_read hlink hseen hread hdir,
      files_advances_of_read h hlink hseen hread⟩

theorem children_progresses {dir : Pending} {link : UInt32} {found stack : List Pending} {a : Arena}
    (h : (State.children dir link found stack a).Ready) :
    Progresses dirTable fileTable (.children dir link found stack a) := by
  by_cases hlink : link = noLink
  · subst hlink
    have hstep : step dirTable fileTable (.children dir noLink found stack a) =
        some (.goto (.next (stack ++ found.reverse) a)) := by
      rw [step, if_pos rfl]
      rfl
    refine ⟨_, hstep, ?_, ?_, ?_, Nat.le_of_eq (Nat.zero_add _)⟩
    · intro p hp
      refine h p (List.mem_cons_of_mem _ ?_)
      simpa [State.pending, or_comm] using hp
    · rw [State.answer, State.answer, followChildren_noLink, List.reverse_append,
        List.reverse_reverse]
      change _ = visit dirTable fileTable (found ++ [] ++ stack.reverse) a
      rw [List.append_nil]
    · simp only [State.weight, State.arena, State.pending, List.length_cons, List.length_append,
        List.length_reverse]
      omega
  by_cases hseen : link ∈ a.dirPlaces
  · have hstep : step dirTable fileTable (.children dir link found stack a) =
        some (.halt (.error (.linkedTwice .directory link.toNat))) := by
      rw [step, if_neg hlink, if_pos hseen]
      rfl
    refine ⟨_, hstep, ?_⟩
    rw [Move.Sound, State.answer, followChildren_eq, if_neg hlink, if_pos hseen]
    rfl
  cases hread : readDirectory dirTable link with
  | error fault =>
    have hstep : step dirTable fileTable (.children dir link found stack a) =
        some (.halt (.error fault)) := by
      rw [step, if_neg hlink, if_neg hseen, fetchDirectory?_eq, hread]
      rfl
    refine ⟨_, hstep, ?_⟩
    rw [Move.Sound, State.answer, followChildren_eq, if_neg hlink, if_neg hseen, hread]
    rfl
  | ok entry =>
    obtain ⟨record, name⟩ := entry
    have hdir : dir.id < a.dirs.size := h dir List.mem_cons_self
    exact ⟨_, step_children_of_read hlink hseen hread hdir,
      children_advances_of_read h hlink hseen hread⟩

/-- **From where the loops can be there is a move, and it is sound.** -/
theorem step_progress {s : State} (h : s.Ready) : Progresses dirTable fileTable s := by
  cases s with
  | start => exact start_progresses
  | next stack a => exact next_progresses h
  | files dir link stack a => exact files_progresses h
  | children dir link found stack a => exact children_progresses h

theorem State.links_le_one (s : State) : s.links ≤ 1 := by
  have hchoice (link : UInt32) : (if link = noLink then 0 else 1) ≤ 1 := by
    split <;> decide
  cases s with
  | start => exact Nat.zero_le 1
  | next => exact Nat.zero_le 1
  | files _ link => exact hchoice link
  | children _ link => exact hchoice link

/-- **The loops come to the answer of the recursion**, after no more links than there are new places,
and one that leads to an old one. -/
theorem runs_of_ready {s : State} (h : s.Ready) :
    ∃ links ≤ s.budget dirTable fileTable + 1,
      Runs dirTable fileTable s links (s.answer dirTable fileTable) := by
  generalize hweight : s.weight dirTable fileTable = weight
  induction weight using Nat.strongRecOn generalizing s with
  | ind weight ih =>
    have hprogress : Progresses dirTable fileTable s := step_progress h
    obtain ⟨s' | answer, hstep, hright⟩ := hprogress
    · obtain ⟨hready, hanswer, hlt, hbudget⟩ := hright
      obtain ⟨links, hlinks, hruns⟩ := ih _ (hweight ▸ hlt) hready rfl
      rw [hanswer] at hruns
      exact ⟨s.links + links, by omega, .goto hstep hruns⟩
    · obtain rfl : answer = s.answer dirTable fileTable := hright
      exact ⟨s.links, Nat.le_trans s.links_le_one (Nat.le_add_left ..), .halt hstep⟩

theorem Runs.unique {s : State} {links links' : Nat} {answer answer' : Except TreeFault Arena}
    (h : Runs dirTable fileTable s links answer) (h' : Runs dirTable fileTable s links' answer') :
    links = links' ∧ answer = answer' := by
  induction h generalizing links' answer' with
  | halt hstep =>
    cases h' with
    | halt hstep' =>
      rw [hstep] at hstep'
      cases hstep'
      exact ⟨rfl, rfl⟩
    | goto hstep' =>
      rw [hstep] at hstep'
      cases hstep'
  | goto hstep _ ih =>
    cases h' with
    | halt hstep' =>
      rw [hstep] at hstep'
      cases hstep'
    | goto hstep' hrest' =>
      rw [hstep] at hstep'
      cases hstep'
      obtain ⟨rfl, rfl⟩ := ih hrest'
      exact ⟨rfl, rfl⟩

end Loops

/-! ## What the tables have room for -/

/-- The fixed part of each record that has been found lies in its table. -/
structure Arena.Within (dirTable fileTable : List UInt8) (a : Arena) : Prop where
  dir : ∀ place ∈ a.dirPlaces, place.toNat + DirectoryRecord.layout.size ≤ dirTable.length
  file : ∀ place ∈ a.filePlaces, place.toNat + FileRecord.layout.size ≤ fileTable.length

/-- At different places of a table, records lie that have the same size and may overlap: there are as
many places as leave room for one record behind them. -/
theorem length_places_le {places : List UInt32} {size length : Nat} (hnodup : places.Nodup)
    (hroom : ∀ place ∈ places, place.toNat + size ≤ length) :
    places.length ≤ length + 1 - size := by
  have hsubset : places.map UInt32.toNat ⊆ List.range (length + 1 - size) := by
    intro n hn
    obtain ⟨place, hplace, rfl⟩ := List.mem_map.mp hn
    have := hroom place hplace
    rw [List.mem_range]
    omega
  have hle := ((hnodup.map fun _ _ => UInt32.toNat_inj.mp).subperm hsubset).length_le
  rwa [List.length_map, List.length_range] at hle

section Room

variable {dirTable fileTable : List UInt8} {a b : Arena}

/-- **A step goes to a record that lies in its table.** -/
theorem Arena.Step.within (h : Step dirTable fileTable a b) (ha : a.Within dirTable fileTable) :
    b.Within dirTable fileTable := by
  cases h with
  | child path _ _ hrecord =>
    refine ⟨fun place hplace => ?_, ha.file⟩
    rw [dirPlaces_addChild] at hplace
    rcases List.mem_append.mp hplace with hplace | hplace
    · exact ha.dir place hplace
    · rw [List.mem_singleton.mp hplace]
      exact (slice?_eq_some_iff.mp hrecord.fixed_eq).1
  | file path _ _ hrecord =>
    refine ⟨fun place hplace => ha.dir place (by rwa [dirPlaces_addFile] at hplace), ?_⟩
    intro place hplace
    rw [filePlaces_addFile] at hplace
    rcases List.mem_append.mp hplace with hplace | hplace
    · exact ha.file place hplace
    · rw [List.mem_singleton.mp hplace]
      exact (slice?_eq_some_iff.mp hrecord.fixed_eq).1

theorem Arena.within_of_walk (h : walk dirTable fileTable = .ok a) :
    a.Within dirTable fileTable := by
  have hroot : ofRoot.Within dirTable fileTable := by
    cases hread : readDirectory dirTable 0 with
    | error fault =>
      rw [walk, hread] at h
      cases h
    | ok record =>
      refine ⟨fun place hplace => ?_, fun place hplace => absurd hplace List.not_mem_nil⟩
      rw [List.mem_singleton.mp hplace]
      exact add_size_le_of_readNamed hread
  have hsteps := walk_grows h
  clear h
  induction hsteps with
  | refl => exact hroot
  | tail _ hstep ih => exact hstep.within ih

end Room

/-- **The loops of a walk end for any two tables**: there is just one run, so no access is out of range;
it gives what the recursion gives, and follows no more links than there are bytes in the tables, and
two. Where it succeeds, the tables have room for the directories and files that it has found. -/
theorem walk_halts (dirTable fileTable : List UInt8) :
    (∃ links ≤ dirTable.length + fileTable.length + 2, ∀ count answer,
      Loops.Runs dirTable fileTable .start count answer ↔
        count = links ∧ answer = walk dirTable fileTable) ∧
    ∀ a, walk dirTable fileTable = .ok a →
      a.dirs.size + 0x17 ≤ dirTable.length ∧ a.files.size ≤ fileTable.length - 0x1F := by
  constructor
  · have hready : Loops.State.start.Ready := fun p hp => absurd hp List.not_mem_nil
    obtain ⟨links, hlinks, hruns⟩ : ∃ links ≤ Loops.State.budget dirTable fileTable .start + 1,
        Loops.Runs dirTable fileTable .start links (walk dirTable fileTable) :=
      Loops.runs_of_ready hready
    have hbudget : Loops.State.budget dirTable fileTable .start ≤
        dirTable.length + fileTable.length :=
      Nat.add_le_add (unseen_le ..) (unseen_le ..)
    refine ⟨links, by omega, fun count answer => ⟨fun h => h.unique hruns, ?_⟩⟩
    rintro ⟨rfl, rfl⟩
    exact hruns
  · intro a ha
    have hwithin := Arena.within_of_walk ha
    have hconsistent := Arena.consistent_of_walk ha
    have hdirs := length_places_le hconsistent.dirPlaces_nodup hwithin.dir
    have hfiles := length_places_le hconsistent.filePlaces_nodup hwithin.file
    have hdirSize : DirectoryRecord.layout.size = 0x18 := rfl
    have hfileSize : FileRecord.layout.size = 0x20 := rfl
    obtain ⟨others, hroot⟩ := (Arena.recorded_of_walk ha).root_place
    have hlength := hwithin.dir 0 (hroot ▸ List.mem_cons_self)
    rw [Arena.length_dirPlaces] at hdirs
    rw [Arena.length_filePlaces] at hfiles
    omega

namespace Specimen

theorem walk_halts_tables :
    (∃ links ≤ 0x54, Loops.Runs dirTable fileTable .start links (.ok arena)) ∧
      walk dirTable fileTable = .ok arena ∧ arena.dirs.size + 0x17 ≤ 0x31 ∧
      arena.files.size ≤ 0x21 - 0x1F := by
  obtain ⟨⟨links, hlinks, hruns⟩, hsizes⟩ := walk_halts dirTable fileTable
  obtain ⟨hdirs, hfiles⟩ := hsizes arena walk_tables
  exact ⟨⟨links, hlinks, (hruns _ _).mpr ⟨rfl, walk_tables.symm⟩⟩, walk_tables, hdirs, hfiles⟩

end Specimen

end Cartridge.RomFs
