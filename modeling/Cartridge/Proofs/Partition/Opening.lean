import Cartridge.Proofs.Addresses
import Cartridge.Proofs.Partition.Reading

/-!
# Opening the files of a partition filesystem

The extent of every record is checked against the data region when the tables are read. When a file is
opened later its place is added up without a further check, so what was checked then has to be enough:
the entry comes from a record of the table, the record's extent ends within the data region, and the
data region ends with the archive. Nothing in this depends on what the medium holds when the file is
opened.

Results:
* `Table.checked_of_read`: what reading the tables has checked of every entry.
* `Table.Checked.openEntry_eq`: opening an entry succeeds, without a read.
* `Archive.Sound.opens`: the names that are listed are those that can be opened, and a file's view is
  the part of the archive that its entry names (`Exposes`).
-/

namespace Cartridge.Partition

variable {F : Flavor} {media : Media} {region : Region} {strings bytes : List UInt8}
  {records : List (Record F)} {dataSize : Nat}

/-! ## What has been checked -/

theorem exists_entries_of_resolveAll {c c' : Catalog String (Entry F)}
    (h : (resolveAll strings dataSize records c).result = .ok c') :
    ∃ entries, List.Forall₂ (fun r e => r.Denotes strings dataSize e) records entries ∧
      c' = addEntries entries c := by
  rcases sound_or_first_fault records strings dataSize with
    hsound | ⟨front, r, back, e, rfl, hfront, hfault⟩
  · obtain ⟨entries, hall⟩ := exists_forall₂_of_sound hsound
    rw [result_resolveAll_of_forall₂ hall] at h
    cases h
    exact ⟨entries, hall, rfl⟩
  · rw [result_resolveAll_of_fault hfront hfault] at h
    cases h

theorem extent_le_of_mem {entries : List (Entry F)}
    (hall : List.Forall₂ (fun r e => r.Denotes strings dataSize e) records entries) :
    ∀ e ∈ entries, e.dataOffset.toNat + e.dataSize.toNat ≤ dataSize := by
  induction hall with
  | nil => simp
  | cons he _ ih =>
    refine List.forall_mem_cons.mpr ⟨?_, ih⟩
    rw [he.dataOffset_eq, he.dataSize_eq]
    exact he.extent_le

/-- What reading the tables of an archive of the given size has checked. -/
structure Table.Checked (t : Table F) (size : Nat) : Prop where
  dataOffset_eq : t.dataOffset = tablesSize F t.header
  dataOffset_le : t.dataOffset ≤ size
  name_eq : ∀ {name : String} {e : Entry F}, t.entries.find? name = some e → e.name = name
  extent_le : ∀ {name : String} {e : Entry F}, t.entries.find? name = some e →
    e.dataOffset.toNat + e.dataSize.toNat ≤ size - t.dataOffset

/-- **What reading the tables has checked**, whatever is in the region and however reads of it fail. -/
theorem Table.checked_of_read {t : Table F} (h : (Table.read F region media).result = .ok t) :
    t.Checked region.size := by
  unfold Table.read at h
  dsimp only at h
  split at h
  · cases h
  · rw [Traced.result_bind, Traced.result_liftM] at h
    obtain ⟨header, -, h⟩ := bind_eq_ok_iff.mp h
    split at h
    · cases h
    · rename_i hroom
      simp only [Traced.result_bind, Traced.result_liftM] at h
      obtain ⟨records, -, h⟩ := bind_eq_ok_iff.mp h
      obtain ⟨strings, -, h⟩ := bind_eq_ok_iff.mp h
      obtain ⟨c, hc, h⟩ := bind_eq_ok_iff.mp h
      cases h
      obtain ⟨entries, hall, rfl⟩ := exists_entries_of_resolveAll hc
      have hfind {name : String} {e : Entry F}
          (he : (addEntries entries Catalog.empty).find? name = some e) :
          e.name = name ∧ e ∈ entries := by
        rw [addEntries_empty, Catalog.find?_indexed_eq_some_iff] at he
        obtain ⟨hname, front, back, rfl, -⟩ := he
        exact ⟨hname, by simp⟩
      exact ⟨rfl, Nat.not_lt.mp hroom, fun he => (hfind he).1,
        fun he => extent_le_of_mem hall _ (hfind he).2⟩

/-- The file of an entry lies in the archive. -/
theorem Table.Checked.stop_le {t : Table F} {size : Nat} (h : t.Checked size) {name : String}
    {e : Entry F} (he : t.entries.find? name = some e) :
    t.dataOffset + e.dataOffset.toNat + e.dataSize.toNat ≤ size := by
  have hextent := h.extent_le he
  have hroom := h.dataOffset_le
  omega

/-! ## Opening an entry -/

/-- Opening an entry gives the part of the archive that it names, and reads nothing. -/
theorem Table.Checked.openEntry_eq {archive : View} {t : Table F} (h : t.Checked archive.size)
    {name : String} {e : Entry F} (he : t.entries.find? name = some e) :
    (t.openEntry archive e).result =
      .ok (.ofRegion (.part archive.region (t.dataOffset + e.dataOffset.toNat) e.dataSize.toNat)) := by
  have hle : t.dataOffset + e.dataOffset.toNat + e.dataSize.toNat ≤ archive.region.size :=
    h.stop_le he
  unfold openEntry
  simp only [Traced.result_bind, Traced.result_emit, Traced.result_liftM, ok_bind]
  exact bind_eq_ok_iff.mpr ⟨_, Region.subregion_eq_ok_iff.mpr ⟨hle, rfl⟩, rfl⟩

/-- A view exposes the file of an entry: it has the file's size and bytes and nothing else, and lies
behind the tables and within the archive. The sums that say where it lies stay below 64 bits. -/
structure Exposes (media : Media) (bytes : List UInt8) (archive : View) (t : Table F) (e : Entry F)
    (v : View) : Prop where
  position_eq : v.position = 0
  size_eq : v.size = e.dataSize.toNat
  holds : v.region.Holds media (slice bytes (t.dataOffset + e.dataOffset.toNat) e.dataSize.toNat)
  tables_le : tablesSize F t.header ≤ t.dataOffset + e.dataOffset.toNat
  stop_le : t.dataOffset + e.dataOffset.toNat + e.dataSize.toNat ≤ archive.size
  parentOffset_eq : v.parentOffset = archive.parentOffset + t.dataOffset + e.dataOffset.toNat
  addressable : archive.parentOffset + t.dataOffset + e.dataOffset.toNat + e.dataSize.toNat
    < UInt64.size
  origin_le : v.region.origin ≤ v.parentOffset
  built : v.region.Built

theorem Table.Checked.exposes {archive : View} {t : Table F} (h : t.Checked archive.size)
    (hr : archive.region.Holds media bytes) (hb : archive.region.Built) {name : String} {e : Entry F}
    (he : t.entries.find? name = some e) :
    Exposes media bytes archive t e
      (.ofRegion (.part archive.region (t.dataOffset + e.dataOffset.toNat) e.dataSize.toNat)) := by
  have hle : t.dataOffset + e.dataOffset.toNat + e.dataSize.toNat ≤ archive.size := h.stop_le he
  have hlt : archive.parentOffset + archive.size < UInt64.size := hb.parentOffset_add_size_lt
  constructor
  · rfl
  · rfl
  · exact hr.part hle
  · rw [← h.dataOffset_eq]
    exact Nat.le_add_right _ _
  · exact hle
  · exact (Nat.add_assoc _ _ _).symm
  · omega
  · exact Region.origin_le_parentOffset _
  · exact hb.part (Region.subregion_eq_ok_iff.mpr ⟨hle, rfl⟩)

/-! ## Archives -/

namespace Archive

variable {a : Archive F} {t : Table F}

/-- Where parsing succeeds, the tables can be read. -/
theorem Sound.exists_read {a' : Archive F} (ha : a.Sound media)
    (hparse : (parse media).outcome a = (.ok (), a')) :
    ∃ t, (Table.read F a.view.region media).result = .ok t := by
  obtain ⟨a₁, heq⟩ := ha.outcome_parse
  rw [hparse] at heq
  obtain ⟨t, ht, -⟩ := bind_eq_ok_iff.mp (congrArg Prod.fst heq).symm
  exact ⟨t, ht⟩

section Answers

variable (ha : a.Sound media) (hread : (Table.read F a.view.region media).result = .ok t)

include ha hread

theorem Sound.outcome_listFiles :
    ∃ a', (listFiles media).outcome a = (.ok t.entries.keys, a') := by
  obtain ⟨a', htable, -⟩ := ha.outcome_table_of_read hread
  refine ⟨a', ?_⟩
  rw [listFiles, Access.outcome_bind, htable]
  rfl

/-- A name that is not listed is not found. -/
theorem Sound.outcome_openFile_of_not_mem {name : String} (hname : name ∉ t.entries.keys) :
    ∃ a', (openFile media name).outcome a = (.error (.entryNotFound name), a') := by
  obtain ⟨a', htable, -⟩ := ha.outcome_table_of_read hread
  refine ⟨a', ?_⟩
  rw [openFile, Access.outcome_bind, entry, Access.outcome_bind, htable]
  dsimp only
  rw [Catalog.not_mem_keys_iff.mp hname]
  rfl

end Answers

/-- What opening does in an archive with these tables: the listed names, and no others, can be opened,
and the view of a file is the part of the archive that its entry names. -/
structure Opens (media : Media) (bytes : List UInt8) (a : Archive F) (t : Table F)
    (names : List String) : Prop where
  table : ∃ a', (Archive.table media).outcome a = (.ok t, a')
  listFiles : ∃ a', (Archive.listFiles media).outcome a = (.ok names, a')
  opened : ∀ name ∈ names, ∃ e v, t.entries.find? name = some e ∧ e.name = name ∧
    (∃ a', (openFile media name).outcome a = (.ok v, a')) ∧ Exposes media bytes a.view t e v
  notFound : ∀ name, name ∉ names →
    ∃ a', (openFile media name).outcome a = (.error (.entryNotFound name), a')

/-- **The names that are listed are those that can be opened**, in an archive that parses, and each of
them opens to its own part of the archive. -/
theorem Sound.opens (ha : a.Sound media) (hr : a.view.region.Holds media bytes)
    (hb : a.view.region.Built) {a' : Archive F} (hparse : (parse media).outcome a = (.ok (), a')) :
    ∃ t names, a.Opens media bytes t names := by
  obtain ⟨t, hread⟩ := ha.exists_read hparse
  have hchecked : t.Checked a.view.size := Table.checked_of_read hread
  refine ⟨t, t.entries.keys, ?_, ha.outcome_listFiles hread, ?_, ?_⟩
  · obtain ⟨a₁, htable, -⟩ := ha.outcome_table_of_read hread
    exact ⟨a₁, htable⟩
  · intro name hname
    rw [Catalog.mem_keys_iff, Catalog.contains, Option.isSome_iff_exists] at hname
    obtain ⟨e, he⟩ := hname
    obtain ⟨a₁, hopen⟩ := ha.outcome_openFile hread he
    rw [hchecked.openEntry_eq he] at hopen
    exact ⟨e, _, he, hchecked.name_eq he, ⟨a₁, hopen⟩, hchecked.exposes hr hb he⟩
  · exact fun name hname => ha.outcome_openFile_of_not_mem hread hname

end Archive

end Cartridge.Partition
