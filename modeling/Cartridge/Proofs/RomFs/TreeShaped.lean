import Cartridge.Proofs.RomFs.Reading
import Mathlib.Data.List.Forall2
import Mathlib.Data.List.Nodup
import Mathlib.Data.List.Pairwise
import Mathlib.Data.List.Perm.Basic

/-!
# Which tables can be walked

Two tables can be walked exactly if the records that are reached from the root form a tree: each of
them can be read, and no two links lead to one of them or one to the root (`TreeShaped`).

The walk is compared with a search that keeps the records found and the links still to be followed.
What such a search keeps (`Explored`) is that every record found but the root is the target of one of
the links followed so far. The walk follows the links of its pending directories in its own order;
which one comes first does not matter.

Results:
* `Explored.treeShaped`: a search that has followed all links has seen a tree.
* `Explored.not_again`, `Explored.not_readable`: what stops the search is not there in a tree.
* `walk_isOk_iff_treeShaped`: the walk accepts exactly the tables with the shape of a tree, and for
  others parsing ends with the fault of the tree.
-/

namespace Cartridge.RomFs

/-! ## Records and links -/

/-- A record, by its place in its table. -/
inductive Node where
  | directory (place : UInt32)
  | file (place : UInt32)
deriving DecidableEq

/-- A field that leads from a record to another one. -/
inductive Link where
  | firstChild (dir : UInt32)
  | firstFile (dir : UInt32)
  | nextDirectory (dir : UInt32)
  | nextFile (file : UInt32)
deriving DecidableEq

/-- The root. -/
def Node.root : Node := directory 0

/-- The links of a record that are followed: all but the root's own sibling. -/
def Node.links : Node → List Link
  | directory place =>
    [.firstChild place, .firstFile place] ++ if place = 0 then [] else [.nextDirectory place]
  | file place => [.nextFile place]

section Tables

variable (dirTable fileTable : List UInt8)

/-- The record can be read: it lies in its table with its name, which is UTF-8. -/
def Readable : Node → Prop
  | .directory place => ∃ record name, DirectoryAt dirTable place record name
  | .file place => ∃ record name, FileAt fileTable place record name

/-- Where a link of a record that can be read leads, if it leads anywhere. -/
inductive Leads : Link → Node → Prop
  | firstChild {place : UInt32} {record : DirectoryRecord} {name : String}
      (hrecord : DirectoryAt dirTable place record name) (hlink : record.firstChild ≠ noLink) :
      Leads (.firstChild place) (.directory record.firstChild)
  | firstFile {place : UInt32} {record : DirectoryRecord} {name : String}
      (hrecord : DirectoryAt dirTable place record name) (hlink : record.firstFile ≠ noLink) :
      Leads (.firstFile place) (.file record.firstFile)
  | nextDirectory {place : UInt32} {record : DirectoryRecord} {name : String}
      (hrecord : DirectoryAt dirTable place record name) (hlink : record.sibling ≠ noLink) :
      Leads (.nextDirectory place) (.directory record.sibling)
  | nextFile {place : UInt32} {record : FileRecord} {name : String}
      (hrecord : FileAt fileTable place record name) (hlink : record.sibling ≠ noLink) :
      Leads (.nextFile place) (.file record.sibling)

/-- The records that links lead to from the root on. -/
inductive Reached : Node → Prop
  | root : Reached .root
  | follow {n m : Node} {link : Link} (hn : Reached n) (hlink : link ∈ n.links)
      (hleads : Leads dirTable fileTable link m) : Reached m

/-- The link belongs to a record that is reached. -/
def ReachedLink (link : Link) : Prop := ∃ n, Reached dirTable fileTable n ∧ link ∈ n.links

/-- The records that are reached form a tree. -/
structure TreeShaped : Prop where
  root_readable : Readable dirTable fileTable .root
  readable : ∀ {link m}, ReachedLink dirTable fileTable link →
    Leads dirTable fileTable link m → Readable dirTable fileTable m
  ne_root : ∀ {link m}, ReachedLink dirTable fileTable link →
    Leads dirTable fileTable link m → m ≠ .root
  unique : ∀ {link link' m}, ReachedLink dirTable fileTable link →
    ReachedLink dirTable fileTable link' → Leads dirTable fileTable link m →
    Leads dirTable fileTable link' m → link = link'

/-! ## Following a link -/

/-- The directory record that a link value leads to. -/
def dirNode? (place : UInt32) : Option Node :=
  if place = noLink then none else some (.directory place)

/-- The file record that a link value leads to. -/
def fileNode? (place : UInt32) : Option Node :=
  if place = noLink then none else some (.file place)

/-- Where a link leads, read off its record. -/
def Link.target? : Link → Option Node
  | firstChild place => (readDirectory dirTable place).toOption.bind (dirNode? ·.1.firstChild)
  | firstFile place => (readDirectory dirTable place).toOption.bind (fileNode? ·.1.firstFile)
  | nextDirectory place => (readDirectory dirTable place).toOption.bind (dirNode? ·.1.sibling)
  | nextFile place => (readFile fileTable place).toOption.bind (fileNode? ·.1.sibling)

end Tables

section Walk

variable {dirTable fileTable : List UInt8}

theorem dirNode?_eq_some_iff {place : UInt32} {m : Node} :
    dirNode? place = some m ↔ place ≠ noLink ∧ .directory place = m := by
  unfold dirNode?
  split <;> simp_all

theorem fileNode?_eq_some_iff {place : UInt32} {m : Node} :
    fileNode? place = some m ↔ place ≠ noLink ∧ .file place = m := by
  unfold fileNode?
  split <;> simp_all

theorem toOption_bind_eq_some_iff {ε α β : Type} {x : Except ε α} {f : α → Option β} {b : β} :
    x.toOption.bind f = some b ↔ ∃ a, x = .ok a ∧ f a = some b := by
  cases x with
  | error e => simp [Except.toOption]
  | ok a => simp [Except.toOption]

theorem target?_eq_some_iff {link : Link} {m : Node} :
    link.target? dirTable fileTable = some m ↔ Leads dirTable fileTable link m := by
  constructor
  · intro h
    cases link with
    | firstChild place =>
      obtain ⟨⟨record, name⟩, hread, hnode⟩ := toOption_bind_eq_some_iff.mp h
      obtain ⟨hlink, rfl⟩ := dirNode?_eq_some_iff.mp hnode
      exact .firstChild (readDirectory_eq_ok_iff.mp hread) hlink
    | firstFile place =>
      obtain ⟨⟨record, name⟩, hread, hnode⟩ := toOption_bind_eq_some_iff.mp h
      obtain ⟨hlink, rfl⟩ := fileNode?_eq_some_iff.mp hnode
      exact .firstFile (readDirectory_eq_ok_iff.mp hread) hlink
    | nextDirectory place =>
      obtain ⟨⟨record, name⟩, hread, hnode⟩ := toOption_bind_eq_some_iff.mp h
      obtain ⟨hlink, rfl⟩ := dirNode?_eq_some_iff.mp hnode
      exact .nextDirectory (readDirectory_eq_ok_iff.mp hread) hlink
    | nextFile place =>
      obtain ⟨⟨record, name⟩, hread, hnode⟩ := toOption_bind_eq_some_iff.mp h
      obtain ⟨hlink, rfl⟩ := fileNode?_eq_some_iff.mp hnode
      exact .nextFile (readFile_eq_ok_iff.mp hread) hlink
  · intro h
    cases h with
    | firstChild hrecord hlink =>
      exact toOption_bind_eq_some_iff.mpr
        ⟨_, readDirectory_eq_ok_iff.mpr hrecord, dirNode?_eq_some_iff.mpr ⟨hlink, rfl⟩⟩
    | firstFile hrecord hlink =>
      exact toOption_bind_eq_some_iff.mpr
        ⟨_, readDirectory_eq_ok_iff.mpr hrecord, fileNode?_eq_some_iff.mpr ⟨hlink, rfl⟩⟩
    | nextDirectory hrecord hlink =>
      exact toOption_bind_eq_some_iff.mpr
        ⟨_, readDirectory_eq_ok_iff.mpr hrecord, dirNode?_eq_some_iff.mpr ⟨hlink, rfl⟩⟩
    | nextFile hrecord hlink =>
      exact toOption_bind_eq_some_iff.mpr
        ⟨_, readFile_eq_ok_iff.mpr hrecord, fileNode?_eq_some_iff.mpr ⟨hlink, rfl⟩⟩

/-- Where the links of a directory lead, once its record is read. -/
theorem target?_of_readDirectory {place : UInt32} {record : DirectoryRecord} {name : String}
    (hread : readDirectory dirTable place = .ok (record, name)) :
    (Link.firstChild place).target? dirTable fileTable = dirNode? record.firstChild ∧
      (Link.firstFile place).target? dirTable fileTable = fileNode? record.firstFile ∧
      (Link.nextDirectory place).target? dirTable fileTable = dirNode? record.sibling := by
  simp [Link.target?, hread, Except.toOption]

/-- Where the link of a file leads, once its record is read. -/
theorem target?_of_readFile {place : UInt32} {record : FileRecord} {name : String}
    (hread : readFile fileTable place = .ok (record, name)) :
    (Link.nextFile place).target? dirTable fileTable = fileNode? record.sibling := by
  simp [Link.target?, hread, Except.toOption]

/-- The record that a link belongs to. -/
def Link.owner : Link → Node
  | firstChild place => .directory place
  | firstFile place => .directory place
  | nextDirectory place => .directory place
  | nextFile place => .file place

theorem owner_of_mem_links {n : Node} {link : Link} (h : link ∈ n.links) : link.owner = n := by
  cases n with
  | directory place =>
    by_cases hroot : place = 0
    · simp only [Node.links, hroot, if_true, List.append_nil, List.mem_cons, List.not_mem_nil,
        or_false] at h
      rcases h with rfl | rfl <;> simp [Link.owner, hroot]
    · simp only [Node.links, hroot, if_false, List.mem_append, List.mem_cons, List.not_mem_nil,
        or_false] at h
      rcases h with (rfl | rfl) | rfl <;> rfl
  | file place =>
    rw [Node.links, List.mem_singleton] at h
    rw [h]
    rfl

theorem nodup_links (n : Node) : n.links.Nodup := by
  cases n with
  | directory place =>
    by_cases hroot : place = 0 <;> simp [Node.links, hroot]
  | file place => exact List.nodup_singleton _

/-- Different records have different links. -/
theorem nodup_flatMap_links {found : List Node} (h : found.Nodup) :
    (found.flatMap Node.links).Nodup := by
  rw [List.nodup_flatMap]
  refine ⟨fun n _ => nodup_links n, h.imp ?_⟩
  intro n m hne link hn hm
  exact hne (((owner_of_mem_links hn).symm).trans (owner_of_mem_links hm))

/-! ## The search -/

section Search

variable (dirTable fileTable)

/-- What a search has found and what it has still to follow: of the links of the records found, some
have been followed, and these lead to the records found but the root, one to each. -/
structure Explored (found : List Node) (todo : List Link) : Prop where
  nodup : found.Nodup
  reached : ∀ n ∈ found, Reached dirTable fileTable n
  readable : ∀ n ∈ found, Readable dirTable fileTable n
  followed : ∃ done : List Link, (done ++ todo).Perm (found.flatMap Node.links) ∧
    found.Perm (.root :: done.filterMap (Link.target? dirTable fileTable))

end Search

namespace Explored

variable {found : List Node} {todo : List Link} {link : Link} {n : Node}

theorem root_mem (h : Explored dirTable fileTable found todo) : Node.root ∈ found := by
  obtain ⟨done, -, htargets⟩ := h.followed
  exact htargets.symm.subset List.mem_cons_self

/-- The links to be followed belong to records found. -/
theorem reachedLink (h : Explored dirTable fileTable found (link :: todo)) :
    ReachedLink dirTable fileTable link := by
  obtain ⟨done, hlinks, -⟩ := h.followed
  have hmem : link ∈ found.flatMap Node.links := hlinks.subset (by simp)
  obtain ⟨n, hn, hlink⟩ := List.mem_flatMap.mp hmem
  exact ⟨n, h.reached n hn, hlink⟩

theorem perm {found' : List Node} {todo' : List Link} (h : Explored dirTable fileTable found todo)
    (hfound : found'.Perm found) (htodo : todo'.Perm todo) :
    Explored dirTable fileTable found' todo' where
  nodup := hfound.nodup_iff.mpr h.nodup
  reached := fun n hn => h.reached n (hfound.subset hn)
  readable := fun n hn => h.readable n (hfound.subset hn)
  followed := by
    obtain ⟨done, hlinks, htargets⟩ := h.followed
    exact ⟨done, ((htodo.append_left done).trans hlinks).trans (hfound.flatMap_right _).symm,
      hfound.trans htargets⟩

/-- A link that leads nowhere has been followed. -/
theorem skip (h : Explored dirTable fileTable found (link :: todo))
    (hlink : link.target? dirTable fileTable = none) :
    Explored dirTable fileTable found todo where
  nodup := h.nodup
  reached := h.reached
  readable := h.readable
  followed := by
    obtain ⟨done, hlinks, htargets⟩ := h.followed
    refine ⟨done ++ [link], ?_, ?_⟩
    · rw [List.append_assoc]
      exact hlinks
    · rw [List.filterMap_append, List.filterMap_cons_none hlink, List.filterMap_nil,
        List.append_nil]
      exact htargets

/-- A link that leads to a record that was not found before has been followed. -/
theorem step (h : Explored dirTable fileTable found (link :: todo))
    (hlink : link.target? dirTable fileTable = some n) (hnew : n ∉ found)
    (hread : Readable dirTable fileTable n) :
    Explored dirTable fileTable (n :: found) (n.links ++ todo) where
  nodup := List.nodup_cons.mpr ⟨hnew, h.nodup⟩
  reached := by
    intro m hm
    rcases List.mem_cons.mp hm with rfl | hm
    · obtain ⟨owner, howner, hmem⟩ := h.reachedLink
      exact .follow howner hmem (target?_eq_some_iff.mp hlink)
    · exact h.reached m hm
  readable := by
    intro m hm
    rcases List.mem_cons.mp hm with rfl | hm
    · exact hread
    · exact h.readable m hm
  followed := by
    obtain ⟨done, hlinks, htargets⟩ := h.followed
    refine ⟨link :: done, ?_, ?_⟩
    · rw [List.flatMap_cons]
      calc link :: done ++ (n.links ++ todo)
        _ |>.Perm (n.links ++ (link :: done ++ todo)) := List.perm_append_comm_assoc ..
        _ |>.Perm (n.links ++ (done ++ link :: todo)) := List.perm_middle.symm.append_left n.links
        _ |>.Perm (n.links ++ found.flatMap Node.links) := hlinks.append_left n.links
    · rw [List.filterMap_cons_some hlink]
      exact (htargets.cons n).trans (List.Perm.swap _ _ _)

/-- In a tree no link leads to a record found before. -/
theorem not_again (h : Explored dirTable fileTable found (link :: todo))
    (hlink : link.target? dirTable fileTable = some n) (hold : n ∈ found) :
    ¬ TreeShaped dirTable fileTable := by
  intro htree
  obtain ⟨done, hlinks, htargets⟩ := h.followed
  have hleads := target?_eq_some_iff.mp hlink
  rcases List.mem_cons.mp (htargets.subset hold) with hroot | hdone
  · exact htree.ne_root h.reachedLink hleads hroot
  · obtain ⟨link', hlink', hleads'⟩ := List.mem_filterMap.mp hdone
    obtain ⟨owner, howner, hmem⟩ : ∃ owner ∈ found, link' ∈ owner.links :=
      List.mem_flatMap.mp (hlinks.subset (List.mem_append_left _ hlink'))
    have heq : link = link' := htree.unique h.reachedLink ⟨owner, h.reached owner howner, hmem⟩
      hleads (target?_eq_some_iff.mp hleads')
    have hnodup : (done ++ link :: todo).Nodup :=
      hlinks.nodup_iff.mpr (nodup_flatMap_links h.nodup)
    rw [heq] at hnodup
    exact (List.nodup_append.mp hnodup).2.2 link' hlink' link' List.mem_cons_self rfl

/-- In a tree every link leads to a record that can be read. -/
theorem not_readable (h : Explored dirTable fileTable found (link :: todo))
    (hlink : link.target? dirTable fileTable = some n) (hread : ¬ Readable dirTable fileTable n) :
    ¬ TreeShaped dirTable fileTable :=
  fun htree => hread (htree.readable h.reachedLink (target?_eq_some_iff.mp hlink))

/-- **A search that has followed all links has seen a tree.** -/
theorem treeShaped (h : Explored dirTable fileTable found []) : TreeShaped dirTable fileTable := by
  obtain ⟨done, hlinks, htargets⟩ := h.followed
  rw [List.append_nil] at hlinks
  have hnodup := htargets.nodup_iff.mp h.nodup
  have htarget {link : Link} {m : Node} (hlink : link ∈ done)
      (hleads : Leads dirTable fileTable link m) :
      m ∈ done.filterMap (Link.target? dirTable fileTable) :=
    List.mem_filterMap.mpr ⟨link, hlink, target?_eq_some_iff.mpr hleads⟩
  have hdone {n : Node} {link : Link} (hn : n ∈ found) (hlink : link ∈ n.links) : link ∈ done :=
    hlinks.symm.subset (List.mem_flatMap.mpr ⟨n, hn, hlink⟩)
  have hfound {n : Node} (hn : Reached dirTable fileTable n) : n ∈ found := by
    induction hn with
    | root => exact h.root_mem
    | follow _ hlink hleads ih =>
      exact htargets.symm.subset (List.mem_cons_of_mem _ (htarget (hdone ih hlink) hleads))
  have hreached {link : Link} (hlink : ReachedLink dirTable fileTable link) : link ∈ done := by
    obtain ⟨n, hn, hmem⟩ := hlink
    exact hdone (hfound hn) hmem
  constructor
  · exact h.readable _ h.root_mem
  · rintro link m ⟨n, hn, hmem⟩ hleads
    exact h.readable m (hfound (.follow hn hmem hleads))
  · rintro link m hlink hleads rfl
    exact (List.nodup_cons.mp hnodup).1 (htarget (hreached hlink) hleads)
  · intro link link' m hlink hlink' hleads hleads'
    by_contra hne
    have hpairwise := List.pairwise_filterMap.mp (List.nodup_cons.mp hnodup).2
    have : Std.Symm fun a a' : Link => ∀ b, a.target? dirTable fileTable = some b →
        ∀ b', a'.target? dirTable fileTable = some b' → b ≠ b' :=
      ⟨fun _ _ h b hb b' hb' heq => h b' hb' b hb heq.symm⟩
    exact hpairwise.forall (hreached hlink) (hreached hlink') hne m
      (target?_eq_some_iff.mpr hleads) m (target?_eq_some_iff.mpr hleads') rfl

end Explored

/-! ## The walk as a search -/

/-- The records that an arena has directories and files for. -/
def Arena.nodes (a : Arena) : List Node :=
  a.dirPlaces.map Node.directory ++ a.filePlaces.map Node.file

namespace Arena

variable {a : Arena}

theorem directory_mem_nodes {place : UInt32} : .directory place ∈ a.nodes ↔ place ∈ a.dirPlaces := by
  simp [nodes]

theorem file_mem_nodes {place : UInt32} : .file place ∈ a.nodes ↔ place ∈ a.filePlaces := by
  simp [nodes]

theorem nodes_addChild (owner : Nat) (name : String) (place : UInt32) (path : String) :
    (a.addChild owner name place path).nodes.Perm (.directory place :: a.nodes) := by
  unfold nodes
  rw [dirPlaces_addChild, filePlaces_addChild, List.map_append, List.append_assoc]
  exact List.perm_middle

theorem nodes_addFile (f : File) (path : String) :
    (a.addFile f path).nodes.Perm (.file f.tableOffset :: a.nodes) := by
  unfold nodes
  rw [dirPlaces_addFile, filePlaces_addFile, List.map_append, ← List.append_assoc]
  exact List.perm_append_singleton ..

end Arena

/-- An answer settles the shape of the tables: a value goes with a search that is where the walk is,
and a fault is found only where there is no tree. -/
def Settles (dirTable fileTable : List UInt8) {α : Type} (P : α → Prop) : Except TreeFault α → Prop
  | .ok a => P a
  | .error _ => ¬ TreeShaped dirTable fileTable

section Chains

variable {dir : Pending} {place : UInt32} {a : Arena} {link : Link} {todo : List Link}

theorem readable_file_iff :
    Readable dirTable fileTable (.file place) ↔ ∃ record, readFile fileTable place = .ok record := by
  constructor
  · rintro ⟨record, name, h⟩
    exact ⟨(record, name), readFile_eq_ok_iff.mpr h⟩
  · rintro ⟨⟨record, name⟩, h⟩
    exact ⟨record, name, readFile_eq_ok_iff.mp h⟩

theorem readable_directory_iff :
    Readable dirTable fileTable (.directory place) ↔
      ∃ record, readDirectory dirTable place = .ok record := by
  constructor
  · rintro ⟨record, name, h⟩
    exact ⟨(record, name), readDirectory_eq_ok_iff.mpr h⟩
  · rintro ⟨⟨record, name⟩, h⟩
    exact ⟨record, name, readDirectory_eq_ok_iff.mp h⟩

/-- Following a chain of files follows the link that it hangs from and those behind it. -/
theorem followFiles_settles (hlink : link.target? dirTable fileTable = fileNode? place)
    (h : Explored dirTable fileTable a.nodes (link :: todo)) :
    Settles dirTable fileTable (fun a' => Explored dirTable fileTable a'.nodes todo)
      (followFiles fileTable dir place a) := by
  fun_induction followFiles fileTable dir place a generalizing link with
  | case1 a =>
    exact h.skip (hlink.trans (if_pos rfl))
  | case2 place a hplace hseen =>
    exact h.not_again (hlink.trans (if_neg hplace)) (Arena.file_mem_nodes.mpr hseen)
  | case3 place a hplace hseen fault hread =>
    refine h.not_readable (hlink.trans (if_neg hplace)) ?_
    rw [readable_file_iff]
    rintro ⟨record, hrecord⟩
    rw [hread] at hrecord
    cases hrecord
  | case4 place a hplace hseen record name hread ih =>
    have hstep := h.step (hlink.trans (if_neg hplace)) (mt Arena.file_mem_nodes.mp hseen)
      (readable_file_iff.mpr ⟨_, hread⟩)
    exact ih (target?_of_readFile hread) (hstep.perm (Arena.nodes_addFile ..) (.refl _))

variable (dirTable fileTable) in
/-- A pending directory stands for the two links to its chains. -/
structure Awaits (dir : Pending) (place : UInt32) : Prop where
  firstChild : (Link.firstChild place).target? dirTable fileTable = dirNode? dir.firstChild
  firstFile : (Link.firstFile place).target? dirTable fileTable = fileNode? dir.firstFile

/-- The links to the chains of directories. -/
def chainLinks (places : List UInt32) : List Link :=
  places.flatMap fun place => [.firstChild place, .firstFile place]

/-- A child that is found is added to the arena, and its links are to be followed: its sibling next,
its chains later. -/
theorem Explored.addChild (h : Explored dirTable fileTable a.nodes (link :: todo))
    (hlink : link.target? dirTable fileTable = some (.directory place)) (hnew : place ∉ a.dirPlaces)
    (hread : Readable dirTable fileTable (.directory place)) (owner : Nat) (name path : String) :
    Explored dirTable fileTable (a.addChild owner name place path).nodes
      (.nextDirectory place :: (chainLinks [place] ++ todo)) := by
  have hstep := h.step hlink (mt Arena.directory_mem_nodes.mp hnew) hread
  have hplace : place ≠ 0 := by
    rintro rfl
    exact hnew (Arena.directory_mem_nodes.mp h.root_mem)
  refine hstep.perm (Arena.nodes_addChild ..) ?_
  rw [Node.links, if_neg hplace]
  exact List.perm_middle.symm

/-- Following a chain of children follows the link that it hangs from and those behind it, and leaves
the links of the children to be followed. -/
theorem followChildren_settles (hlink : link.target? dirTable fileTable = dirNode? place)
    (h : Explored dirTable fileTable a.nodes (link :: todo)) :
    Settles dirTable fileTable
      (fun answer => ∃ places, List.Forall₂ (Awaits dirTable fileTable) answer.2 places ∧
        Explored dirTable fileTable answer.1.nodes (chainLinks places ++ todo))
      (followChildren dirTable dir place a) := by
  fun_induction followChildren dirTable dir place a generalizing link todo with
  | case1 a =>
    exact ⟨[], .nil, h.skip (hlink.trans (if_pos rfl))⟩
  | case2 place a hplace hseen =>
    exact h.not_again (hlink.trans (if_neg hplace)) (Arena.directory_mem_nodes.mpr hseen)
  | case3 place a hplace hseen fault hread =>
    refine h.not_readable (hlink.trans (if_neg hplace)) ?_
    rw [readable_directory_iff]
    rintro ⟨record, hrecord⟩
    rw [hread] at hrecord
    cases hrecord
  | case4 place a hplace hseen record name hread path fault hrest =>
    rename_i ih
    obtain ⟨-, -, hnext⟩ := target?_of_readDirectory hread
    have hchild := h.addChild (hlink.trans (if_neg hplace)) hseen
      (readable_directory_iff.mpr ⟨_, hread⟩) dir.id name path
    have hsettles := ih hnext hchild
    rw [hrest] at hsettles
    exact hsettles
  | case5 place a hplace hseen record name hread path a' children hrest =>
    rename_i ih
    obtain ⟨hfirstChild, hfirstFile, hnext⟩ := target?_of_readDirectory hread
    have hchild := h.addChild (hlink.trans (if_neg hplace)) hseen
      (readable_directory_iff.mpr ⟨_, hread⟩) dir.id name path
    have hsettles := ih hnext hchild
    rw [hrest] at hsettles
    obtain ⟨places, hawaits, hexplored⟩ := hsettles
    exact ⟨place :: places, .cons ⟨hfirstChild, hfirstFile⟩ hawaits,
      hexplored.perm (.refl _) (List.perm_append_comm_assoc (chainLinks [place]) _ _)⟩

end Chains

/-- Visiting pending directories follows the links that they stand for. -/
theorem visit_settles {pending : List Pending} {places : List UInt32} {a : Arena}
    (hpending : List.Forall₂ (Awaits dirTable fileTable) pending places)
    (h : Explored dirTable fileTable a.nodes (chainLinks places)) :
    Settles dirTable fileTable (fun a' => Explored dirTable fileTable a'.nodes [])
      (visit dirTable fileTable pending a) := by
  have hfirst {dir : Pending} {place : UInt32} {rest : List UInt32} {a : Arena}
      (hdir : Awaits dirTable fileTable dir place)
      (h : Explored dirTable fileTable a.nodes (chainLinks (place :: rest))) :
      Settles dirTable fileTable
        (fun a' => Explored dirTable fileTable a'.nodes (.firstChild place :: chainLinks rest))
        (followFiles fileTable dir dir.firstFile a) :=
    followFiles_settles hdir.firstFile (h.perm (.refl _) (List.Perm.swap _ _ _))
  fun_induction visit dirTable fileTable pending a generalizing places with
  | case1 a =>
    cases hpending
    exact h
  | case2 dir rest a fault hfiles =>
    obtain _ | ⟨hdir, hrest⟩ := hpending
    have hexplored := hfirst hdir h
    rw [hfiles] at hexplored
    exact hexplored
  | case3 dir rest a a₁ hfiles fault hchildren =>
    obtain _ | ⟨hdir, hrest⟩ := hpending
    have hexplored := hfirst hdir h
    rw [hfiles] at hexplored
    have hsettles := @followChildren_settles _ _ dir _ _ _ _ hdir.firstChild hexplored
    rw [hchildren] at hsettles
    exact hsettles
  | case4 dir rest a a₁ hfiles a₂ children hchildren ih =>
    obtain _ | ⟨hdir, hrest⟩ := hpending
    have hexplored := hfirst hdir h
    rw [hfiles] at hexplored
    have hsettles := @followChildren_settles _ _ dir _ _ _ _ hdir.firstChild hexplored
    rw [hchildren] at hsettles
    obtain ⟨places', hchildren', hexplored'⟩ := hsettles
    refine ih (List.rel_append hchildren' hrest) ?_
    rw [chainLinks, List.flatMap_append]
    exact hexplored'

/-- The search begins at the root. -/
theorem explored_ofRoot (hroot : Readable dirTable fileTable .root) :
    Explored dirTable fileTable Arena.ofRoot.nodes (chainLinks [0]) where
  nodup := List.nodup_singleton _
  reached := by
    intro n hn
    rw [List.mem_singleton.mp hn]
    exact .root
  readable := by
    intro n hn
    rw [List.mem_singleton.mp hn]
    exact hroot
  followed := ⟨[], .refl _, .refl _⟩

/-- The walk gives an arena exactly if the tables have the shape of a tree. -/
theorem walk_settles (dirTable fileTable : List UInt8) :
    Settles dirTable fileTable (fun _ => TreeShaped dirTable fileTable)
      (walk dirTable fileTable) := by
  cases hread : readDirectory dirTable 0 with
  | error fault =>
    rw [walk, hread]
    intro htree
    obtain ⟨record, hrecord⟩ := readable_directory_iff.mp htree.root_readable
    rw [hread] at hrecord
    cases hrecord
  | ok root =>
    obtain ⟨record, name⟩ := root
    obtain ⟨hfirstChild, hfirstFile, -⟩ := target?_of_readDirectory hread
    have hroot : Awaits dirTable fileTable ⟨0, "/", record.firstChild, record.firstFile⟩ 0 :=
      ⟨hfirstChild, hfirstFile⟩
    have hsettles := visit_settles (.cons hroot .nil)
      (explored_ofRoot (readable_directory_iff.mpr ⟨_, hread⟩))
    rw [walk_of_read hread]
    revert hsettles
    cases visit dirTable fileTable [⟨0, "/", record.firstChild, record.firstFile⟩] .ofRoot with
    | error fault => exact id
    | ok a => exact Explored.treeShaped

end Walk

/-- **The walk accepts exactly the tables with the shape of a tree**, and an image with other tables is
refused for the fault of its tree and for nothing else. -/
theorem walk_isOk_iff_treeShaped (dirTable fileTable : List UInt8) :
    ((∃ a, walk dirTable fileTable = .ok a) ↔ TreeShaped dirTable fileTable) ∧
      ∀ {region : Region} {media : Media} {header : Header} {dirHash fileHash : List UInt8},
        TablesRead region media header dirHash fileHash dirTable fileTable →
        ((∃ t, (Tree.read region media).result = .ok t) ↔ TreeShaped dirTable fileTable) ∧
          (¬ TreeShaped dirTable fileTable →
            ∃ fault, (Tree.read region media).result = .error (.malformedTree fault)) := by
  have hsettles := walk_settles dirTable fileTable
  constructor
  · constructor
    · rintro ⟨a, ha⟩
      rw [ha] at hsettles
      exact hsettles
    · intro htree
      cases hwalk : walk dirTable fileTable with
      | error fault =>
        rw [hwalk] at hsettles
        exact absurd htree hsettles
      | ok a => exact ⟨a, rfl⟩
  · intro region media header dirHash fileHash htables
    rw [htables.result_read]
    cases hwalk : walk dirTable fileTable with
    | error fault =>
      rw [hwalk] at hsettles
      refine ⟨⟨?_, fun htree => absurd htree hsettles⟩, fun _ => ⟨fault, rfl⟩⟩
      rintro ⟨t, ht⟩
      cases ht
    | ok a =>
      rw [hwalk] at hsettles
      exact ⟨⟨fun _ => hsettles, fun _ => ⟨_, rfl⟩⟩, fun hno => absurd hsettles hno⟩

namespace Specimen

/-- A root that is its own child. -/
def loopTable : List UInt8 :=
  DirectoryRecord.layout.encode ⟨0, noLink, 0, noLink, noLink, 0⟩ ++ (Utf8.encode "" ++ [])

theorem not_treeShaped_loopTable : ¬ TreeShaped loopTable [] := by
  intro htree
  have hroot : DirectoryAt loopTable 0 ⟨0, noLink, 0, noLink, noLink, 0⟩ "" :=
    RecordAt.of_append [] [] rfl rfl
  exact htree.ne_root ⟨.root, .root, List.mem_cons_self⟩ (.firstChild hroot (by decide)) rfl

theorem walk_isOk_iff_treeShaped_specimen :
    TreeShaped dirTable fileTable ∧ (∃ t, (Tree.read view.region media).result = .ok t) ∧
      ¬ ∃ a, walk loopTable [] = .ok a := by
  have htree := (walk_isOk_iff_treeShaped dirTable fileTable).1.mp ⟨arena, walk_tables⟩
  refine ⟨htree, ?_, ?_⟩
  · exact ((walk_isOk_iff_treeShaped dirTable fileTable).2
      (stored_image.tablesRead holds_image)).1.mpr htree
  · exact mt (walk_isOk_iff_treeShaped loopTable []).1.mp not_treeShaped_loopTable

end Specimen

end Cartridge.RomFs
