import Cartridge.Proofs.Cursors
import Cartridge.Proofs.Laziness
import Cartridge.Proofs.Partition.Opening

/-!
# The calls on a partition filesystem

An archive's tables are read by the first call that asks for them. Every call does so but the two that
are about the archive as it is: whether it has been read, and whether its magic is right. Once the tables
are there, only the checks of hashes read again, and they read the data of a file.

Results:
* `Archive.asks_run`: a call that asks for the tables does so first, and changes nothing else.
* `Archive.run_parsed`: on an archive that has been read, nothing is read but what a call has to look at.
* `Archive.run_congr`: on any archive, a call depends on what it reads and on nothing else.
* `Archive.lawful_kind`: partition filesystems are lazily read containers.
-/

namespace Cartridge.Partition.Archive

variable {F : Flavor} {α : Type} {media media' : Media} {view : View} {t : Table F} {name : String}

/-- An archive holds a view and its tables. -/
def parts (F : Flavor) : Lazy (Archive F) (Table F) where
  view := Archive.view
  slot := Archive.slot
  build := Archive.mk
  read v media := Table.read F v.region media
  view_build _ _ := rfl
  slot_build _ _ := rfl
  build_view_slot _ := rfl

/-- The calls on an archive, by the type of what they answer. The accessors of single parts of the
tables are calls that read these off. -/
inductive Call : Flavor → Type → Type 1 where
  | isParsed {F : Flavor} : Call F Bool
  | isValid {F : Flavor} : Call F Bool
  | parse {F : Flavor} : Call F Unit
  | table {F : Flavor} {α : Type} (read : Table F → α) : Call F α
  | listFiles {F : Flavor} : Call F (List String)
  | entry {F : Flavor} (name : String) : Call F (Entry F)
  | openEntry {F : Flavor} (e : Entry F) : Call F View
  | openFile {F : Flavor} (name : String) : Call F View
  | check (name : String) : Call .hashed Verification
  | verify (name : String) : Call .hashed Unit
  | openVerified (name : String) : Call .hashed (View × Verification)

namespace Call

/-- Makes a call. -/
def run (media : Media) : {F : Flavor} → {α : Type} → Call F α → Access (Archive F) α
  | _, _, isParsed => Access.ask fun a => pure a.isParsed
  | _, _, isValid => Access.ask fun a => pure (a.isValid media)
  | _, _, parse => Archive.parse media
  | _, _, table read => do
    let t ← Archive.table media
    return read t
  | _, _, listFiles => Archive.listFiles media
  | _, _, entry name => Archive.entry media name
  | _, _, openEntry e => Archive.openEntry media e
  | _, _, openFile name => Archive.openFile media name
  | _, _, check name => Archive.check media name
  | _, _, verify name => Archive.verify media name
  | _, _, openVerified name => Archive.openVerified media name

/-- Whether the call asks for the tables. -/
def asks : {F : Flavor} → {α : Type} → Call F α → Bool
  | _, _, isParsed | _, _, isValid => false
  | _, _, _ => true

/-- The data of the file with the given name. -/
def fileRegions (t : Table F) (v : View) (name : String) : List Region :=
  match t.entries.find? name with
  | some e => [.part v.region (t.dataOffset + e.dataOffset.toNat) e.dataSize.toNat]
  | none => []

/-- What a call reads on an archive with these tables: the magic, or the data of the file to check. -/
def looks : {F : Flavor} → {α : Type} → Call F α → View → Table F → List Region
  | _, _, isValid, v, _ => [.part v.region 0 4]
  | _, _, check name, v, t | _, _, verify name, v, t | _, _, openVerified name, v, t =>
    fileRegions t v name
  | _, _, _, _, _ => []

/-- What a call reads on an archive as it is. If that has not been read, it may be all of it. -/
def reads (x : Call F α) (a : Archive F) : List Region :=
  match a.slot with
  | .parsed t => x.looks a.view t
  | .unparsed => [a.view.region]

end Call

/-! Every call but two asks for the tables. -/

theorem asks_table : (parts F).Asks media (table media) := Lazy.asks_force

theorem asks_entry (name : String) : (parts F).Asks media (entry media name) := by
  refine asks_table.bind fun t _ _ => ?_
  cases t.entries.find? name <;> rfl

theorem asks_openEntry (e : Entry F) : (parts F).Asks media (openEntry media e) :=
  asks_table.bind fun _ _ _ => rfl

theorem asks_openFile (name : String) : (parts F).Asks media (openFile media name) :=
  (asks_entry name).bind fun e => (asks_openEntry e).idle

theorem asks_check (name : String) : (parts .hashed).Asks media (check media name) := by
  refine (asks_entry name).bind fun e v t => ?_
  refine ((asks_openEntry e).idle v t).bind fun file => (Access.idle_liftM _ _).bind fun actual => ?_
  split
  · exact Access.idle_pure _ _
  · exact (Access.idle_liftM _ _).bind fun _ => Access.idle_pure _ _

theorem asks_verify (name : String) : (parts .hashed).Asks media (verify media name) := by
  refine (asks_check name).bind fun verification _ _ => ?_
  cases verification <;> rfl

theorem asks_openVerified (name : String) :
    (parts .hashed).Asks media (openVerified media name) :=
  (asks_check name).bind fun _ v t =>
    ((asks_openFile name).idle v t).bind fun _ => Access.idle_pure _ _

theorem asks_run (x : Call F α) (hx : x.asks = true) : (parts F).Asks media (x.run media) := by
  cases x with
  | isParsed => cases hx
  | isValid => cases hx
  | parse => exact asks_table.bind fun _ _ _ => rfl
  | table read => exact asks_table.bind fun _ _ _ => rfl
  | listFiles => exact asks_table.bind fun _ _ _ => rfl
  | entry name => exact asks_entry name
  | openEntry e => exact asks_openEntry e
  | openFile name => exact asks_openFile name
  | check name => exact asks_check name
  | verify name => exact asks_verify name
  | openVerified name => exact asks_openVerified name

theorem idle_run (x : Call F α) (hx : x.asks = false) (a : Archive F) : (x.run media).Idle a := by
  cases x with
  | isParsed => rfl
  | isValid => rfl
  | _ => cases hx

/-! On an archive that has been read, a call reads nothing but what it has to look at. -/

theorem entry_parsed (media : Media) (v : View) (t : Table F) (name : String) :
    entry media name ⟨v, .parsed t⟩ =
      (match t.entries.find? name with
        | some e => pure e
        | none => Traced.fail (.entryNotFound name), ⟨v, .parsed t⟩) := by
  have htable : table media (⟨v, .parsed t⟩ : Archive F) = (pure t, ⟨v, .parsed t⟩) := rfl
  unfold entry
  rw [Access.run_bind, htable]
  dsimp only [Traced.result_pure]
  cases t.entries.find? name <;> rfl

/-- Opening an entry cuts its data out of the archive, and reads nothing. -/
theorem result_openEntry (t : Table F) (v : View) (e : Entry F) :
    (t.openEntry v e).result = v.subview (t.dataOffset + e.dataOffset.toNat) e.dataSize.toNat := by
  unfold Table.openEntry
  simp only [Traced.result_bind, Traced.result_emit, Traced.result_liftM, ok_bind]

theorem region_of_openEntry {file : View} {e : Entry F} (h : (t.openEntry view e).result = .ok file) :
    file.region = .part view.region (t.dataOffset + e.dataOffset.toNat) e.dataSize.toNat := by
  rw [result_openEntry] at h
  exact congrArg View.region (View.subview_eq_ok_iff.mp h).2

theorem check_parsed {v : View} {t : Table .hashed}
    (h : ∀ r ∈ Call.fileRegions t v name, Region.Alike media media' r r) :
    check media' name ⟨v, .parsed t⟩ = check media name ⟨v, .parsed t⟩ := by
  unfold check
  refine Access.bind_congr_at (by rw [entry_parsed, entry_parsed]) fun e he => ?_
  rw [entry_parsed] at he ⊢
  cases hfind : t.entries.find? name with
  | none =>
    rw [hfind] at he
    cases he
  | some e' =>
    rw [hfind] at he
    cases he
    refine Access.bind_congr_at rfl fun file hfile => ?_
    have hregion := region_of_openEntry hfile
    unfold Call.fileRegions at h
    rw [hfind, List.forall_mem_singleton, ← hregion] at h
    rw [h.hashOfPrefix_eq]

theorem openFile_parsed (media media' : Media) (v : View) (t : Table F) (name : String) :
    openFile media' name ⟨v, .parsed t⟩ = openFile media name ⟨v, .parsed t⟩ := by
  unfold openFile
  refine Access.bind_congr_at (by rw [entry_parsed, entry_parsed]) fun e _ => ?_
  rw [entry_parsed]
  rfl

theorem isValid_congr {a : Archive F}
    (h : a.view.region.readAt media' 0 4 = a.view.region.readAt media 0 4) :
    Call.isValid.run media' a = Call.isValid.run media a := by
  show (pure (a.isValid media'), a) = _
  unfold isValid magicOf
  rw [h]
  rfl

/-- **On an archive that has been read, nothing is read but what a call has to look at.** -/
theorem run_parsed {x : Call F α} (h : ∀ r ∈ x.looks view t, Region.Alike media media' r r) :
    x.run media' ⟨view, .parsed t⟩ = x.run media ⟨view, .parsed t⟩ := by
  cases x with
  | isValid => exact isValid_congr (Region.readAt_eq_of_part (h _ List.mem_cons_self))
  | entry name => exact (entry_parsed media' _ _ _).trans (entry_parsed media _ _ _).symm
  | openFile name => exact openFile_parsed media media' view t name
  | check name => exact check_parsed h
  | verify name => exact Access.bind_congr_at (check_parsed h) fun _ _ => rfl
  | openVerified name =>
    refine Access.bind_congr_at (check_parsed h) fun verification _ => ?_
    have hstate : (check media name ⟨view, .parsed t⟩).2 = ⟨view, .parsed t⟩ :=
      (asks_check name).idle view t
    rw [hstate]
    exact Access.bind_congr_at (openFile_parsed media media' view t name) fun _ _ => rfl
  | isParsed | parse | table read | listFiles | openEntry e => rfl

/-- What a call looks at on an archive with the tables of its region lies in that region. -/
theorem alike_of_mem_looks {x : Call F α} (hx : x.asks = true)
    (ht : (Table.read F view.region media).result = .ok t)
    (h : Region.Alike media media' view.region view.region) :
    ∀ r ∈ x.looks view t, Region.Alike media media' r r := by
  have hchecked : t.Checked view.region.size := Table.checked_of_read ht
  have hfile (name : String) : ∀ r ∈ Call.fileRegions t view name, Region.Alike media media' r r := by
    intro r hr
    unfold Call.fileRegions at hr
    split at hr
    · rename_i e he
      cases List.mem_singleton.mp hr
      exact h.part (hchecked.stop_le he)
    · cases hr
  intro r hr
  cases x with
  | check name => exact hfile name r hr
  | verify name => exact hfile name r hr
  | openVerified name => exact hfile name r hr
  | isValid => cases hx
  | _ => cases hr

/-- **A call depends on what it reads and on nothing else.** -/
theorem run_congr {x : Call F α} {a : Archive F}
    (h : ∀ r ∈ x.reads a, Region.Alike media media' r r) : x.run media' a = x.run media a := by
  obtain ⟨view, _ | t⟩ := a
  · have hregion : Region.Alike media media' view.region view.region := h _ List.mem_cons_self
    cases hx : x.asks with
    | true =>
      exact (asks_run x hx).fresh_congr (asks_run x hx) hregion.readTable_eq fun t ht =>
        run_parsed (alike_of_mem_looks hx ht hregion)
    | false =>
      cases x with
      | isParsed => rfl
      | isValid => exact isValid_congr (hregion.readAt_eq 0 4)
      | _ => cases hx
  · exact run_parsed h

/-- A call leaves the archive where it is, and the tables that have been read. -/
theorem later_run (media : Media) (x : Call F α) (a : Archive F) :
    (parts F).Later a ((x.run media).outcome a).2 := by
  cases hx : x.asks with
  | true => exact (asks_run x hx).later a
  | false =>
    rw [idle_run x hx a]
    exact .refl a

/-- Partition filesystems are a kind of lazily read containers. What is fixed of their tables is
everything. -/
def kind (F : Flavor) : LazyKind where
  Container := Archive F
  Tables := Table F
  parts := parts F
  Call := Call F
  run media x := x.run media
  asks := Call.asks
  looks := Call.looks
  Fixed := Eq

theorem lawful_kind (F : Flavor) : (kind F).Lawful :=
  .of_asks (fun _ => rfl) Eq.trans (fun hx _ => asks_run _ hx) (fun hx _ => idle_run _ hx) run_parsed

end Cartridge.Partition.Archive
