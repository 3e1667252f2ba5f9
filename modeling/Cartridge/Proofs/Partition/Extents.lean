import Mathlib.Algebra.BigOperators.Ring.Finset
import Mathlib.Algebra.Order.BigOperators.Group.Finset
import Mathlib.Order.Interval.Finset.Nat
import Cartridge.Proofs.Partition.Opening
import Cartridge.Proofs.Partition.RoundTrip

/-!
# How much data the files of an archive have together

Each file of an archive that parses lies in the data region, but nothing keeps two files from lying on
the same bytes. The sizes of the files add up to the bytes of the data region, each counted once for
every file that it belongs to. So the sum is bounded by the archive's size where no byte belongs to two
files, and by a multiple of it otherwise.

Results:
* `sum_coverage`: the sizes add up to what the bytes of the region are counted for.
* `totalSize_le_mul`: the sum is bounded by the number of files that a byte belongs to.
* `Archive.Sound.extents`: what holds of the files of an archive that parses.
* `totalSize_shared`: an archive that parses although its files have more data than it has bytes.
-/

namespace Cartridge.Partition

section Counting

variable {F : Flavor} {media : Media} {entries : List (Entry F)} {room n : Nat}

/-! ## Counting the bytes of files -/

/-- A byte of the data region belongs to the file. -/
def Entry.Covers (e : Entry F) (k : Nat) : Prop :=
  e.dataOffset.toNat ≤ k ∧ k < e.dataOffset.toNat + e.dataSize.toNat

instance (e : Entry F) : DecidablePred e.Covers := fun _ => inferInstanceAs (Decidable (_ ∧ _))

/-- The file lies in a data region of this size. -/
def Entry.FitsIn (e : Entry F) (room : Nat) : Prop :=
  e.dataOffset.toNat + e.dataSize.toNat ≤ room

/-- No byte belongs to both files. -/
def Entry.Apart (e e' : Entry F) : Prop := ∀ k, ¬ (e.Covers k ∧ e'.Covers k)

/-- The number of files that a byte of the data region belongs to. -/
def coverage (entries : List (Entry F)) (k : Nat) : Nat := entries.countP fun e => e.Covers k

/-- The sizes of the files together. -/
def totalSize (entries : List (Entry F)) : Nat := (entries.map fun e => e.dataSize.toNat).sum

theorem coverage_cons (e : Entry F) (rest : List (Entry F)) (k : Nat) :
    coverage (e :: rest) k = coverage rest k + if e.Covers k then 1 else 0 := by
  simp only [coverage, List.countP_cons, decide_eq_true_eq]

/-- The bytes of a file are as many as its size says. -/
theorem Entry.FitsIn.card_covers {e : Entry F} (h : e.FitsIn room) :
    ((Finset.range room).filter e.Covers).card = e.dataSize.toNat := by
  have heq : (Finset.range room).filter e.Covers =
      Finset.Ico e.dataOffset.toNat (e.dataOffset.toNat + e.dataSize.toNat) := by
    ext k
    unfold Entry.FitsIn at h
    simp only [Entry.Covers, Finset.mem_filter, Finset.mem_range, Finset.mem_Ico]
    omega
  rw [heq, Nat.card_Ico, Nat.add_sub_cancel_left]

/-- **The sizes add up to what the bytes of the region are counted for.** -/
theorem sum_coverage (h : ∀ e ∈ entries, e.FitsIn room) :
    ∑ k ∈ Finset.range room, coverage entries k = totalSize entries := by
  induction entries with
  | nil => exact Finset.sum_const_zero
  | cons e rest ih =>
    obtain ⟨he, hrest⟩ := List.forall_mem_cons.mp h
    simp only [coverage_cons]
    rw [Finset.sum_add_distrib, ih hrest, ← Finset.card_filter, he.card_covers, totalSize, totalSize,
      List.map_cons, List.sum_cons, Nat.add_comm]

/-- The sum is bounded by the number of files that a byte belongs to. -/
theorem totalSize_le_mul (h : ∀ e ∈ entries, e.FitsIn room)
    (hn : ∀ k < room, coverage entries k ≤ n) : totalSize entries ≤ n * room := by
  calc totalSize entries = ∑ k ∈ Finset.range room, coverage entries k := (sum_coverage h).symm
    _ ≤ ∑ _k ∈ Finset.range room, n :=
      Finset.sum_le_sum fun k hk => hn k (Finset.mem_range.mp hk)
    _ = n * room := by rw [Finset.sum_const, Finset.card_range, Nat.nsmul_eq_mul, Nat.mul_comm]

/-- A byte belongs to one file at most where no two files have a byte in common. -/
theorem coverage_le_one (h : entries.Pairwise Entry.Apart) (k : Nat) : coverage entries k ≤ 1 := by
  induction entries with
  | nil => exact Nat.zero_le 1
  | cons e rest ih =>
    obtain ⟨he, hrest⟩ := List.pairwise_cons.mp h
    rw [coverage_cons]
    by_cases hk : e.Covers k
    · have hnone : coverage rest k = 0 := by
        rw [coverage, List.countP_eq_zero]
        intro e' he' hk'
        exact he e' he' k ⟨hk, of_decide_eq_true hk'⟩
      rw [hnone, if_pos hk]
    · rw [if_neg hk]
      exact ih hrest

/-! ## The files of an archive -/

/-- The files that a table leads to, in no particular order. -/
def Table.files (t : Table F) : List (Entry F) := t.entries.entries.map Prod.snd

theorem Table.Checked.fitsIn {t : Table F} {size : Nat} (h : t.Checked size) :
    ∀ e ∈ t.files, e.FitsIn (size - t.dataOffset) := by
  intro e he
  obtain ⟨⟨name, e⟩, hmem, rfl⟩ := List.mem_map.mp he
  exact h.extent_le (Catalog.find?_eq_some_iff.mpr hmem)

/-- How much data the files of an archive with these tables have together. -/
structure Archive.Extents (a : Archive F) (t : Table F) : Prop where
  dataOffset_le : t.dataOffset ≤ a.view.size
  fitsIn : ∀ e ∈ t.files, e.FitsIn (a.view.size - t.dataOffset)
  totalSize_eq : totalSize t.files =
    ∑ k ∈ Finset.range (a.view.size - t.dataOffset), coverage t.files k
  totalSize_le_mul : ∀ n, (∀ k < a.view.size - t.dataOffset, coverage t.files k ≤ n) →
    totalSize t.files ≤ n * (a.view.size - t.dataOffset)
  totalSize_le : t.files.Pairwise Entry.Apart → totalSize t.files ≤ a.view.size

end Counting

/-! ## Two files on the same bytes -/

namespace Shared

/-- The records of two files that both have all of the data. -/
def records : List (Record .plain) :=
  [⟨0, 0x50, 0, Bytes.zero 4⟩, ⟨0, 0x50, 2, Bytes.zero 4⟩]

def header : Header := ⟨Flavor.magic .plain, 2, 4, Bytes.zero 4⟩

/-- The names of the files, `a` and `b`. -/
def strings : List UInt8 := [0x61, 0, 0x62, 0]

def bytes : List UInt8 :=
  Header.layout.encode header ++ (records.flatMap (Record.layout .plain).encode ++
    (strings ++ List.replicate 0x50 0))

def entries : List (Entry .plain) :=
  [⟨"a", 0, 0x50, Bytes.zero 4⟩, ⟨"b", 0, 0x50, Bytes.zero 4⟩]

def table : Table .plain := ⟨header, 0x44, .indexed Entry.name entries⟩

def media : Media := ⟨[.memory bytes]⟩

def archive : Archive .plain := .ofView (.ofRegion (.medium 0 0x94))

theorem length_bytes : bytes.length = 0x94 := by
  simp only [bytes, List.length_append, Layout.length_encode,
    length_flatMap (Layout.length_encode (Record.layout .plain)), List.length_replicate]
  rfl

theorem holds_archive : archive.view.region.Holds media bytes :=
  Region.holds_memory length_bytes (by decide)

/-- Each record is sound on its own. -/
theorem forall₂_denotes_entries :
    List.Forall₂ (fun r e => r.Denotes strings 0x50 e) records entries :=
  .cons (Record.resolve_eq_ok_iff.mp rfl) (.cons (Record.resolve_eq_ok_iff.mp rfl) .nil)

theorem result_read : (Table.read .plain archive.view.region media).result = .ok table := by
  rw [result_read_of_tablesIn holds_archive rfl (tablesIn_append rfl rfl _), length_bytes]
  exact bind_eq_ok_iff.mpr ⟨_, result_resolveAll_of_forall₂ forall₂_denotes_entries _, rfl⟩

theorem sound_archive : archive.Sound media := Archive.sound_ofView _ _

theorem outcome_parse : ∃ a', (Archive.parse media).outcome archive = (.ok (), a') := by
  obtain ⟨a', hparse⟩ := sound_archive.outcome_parse
  rw [result_read] at hparse
  exact ⟨a', hparse⟩

end Shared

/-! ## The sum of the sizes -/

/-- **The files of an archive that parses have no more data than the archive has bytes, if no byte
belongs to two of them.** In general they have as much as the bytes of the data region are counted for,
and no more than the region's size as often as a byte can belong to a file. -/
theorem Archive.Sound.extents {F : Flavor} {media : Media} {a a' : Archive F} (ha : a.Sound media)
    (hparse : (Archive.parse media).outcome a = (.ok (), a')) :
    ∃ t, (∃ a₁, (Archive.table media).outcome a = (.ok t, a₁)) ∧ a.Extents t := by
  obtain ⟨t, hread⟩ := ha.exists_read hparse
  have hchecked : t.Checked a.view.size := Table.checked_of_read hread
  obtain ⟨a₁, htable, -⟩ := ha.outcome_table_of_read hread
  refine ⟨t, ⟨a₁, htable⟩, ?_⟩
  constructor
  · exact hchecked.dataOffset_le
  · exact hchecked.fitsIn
  · exact (sum_coverage hchecked.fitsIn).symm
  · exact fun n hn => Partition.totalSize_le_mul hchecked.fitsIn hn
  · intro hapart
    calc totalSize t.files
      _ ≤ 1 * (a.view.size - t.dataOffset) :=
        Partition.totalSize_le_mul hchecked.fitsIn fun k _ => coverage_le_one hapart k
      _ ≤ a.view.size := by omega

theorem extents_shared :
    Shared.archive.Sound Shared.media ∧
    (∃ a', (Archive.parse Shared.media).outcome Shared.archive = (.ok (), a')) ∧
    ∃ t, (∃ a₁, (Archive.table Shared.media).outcome Shared.archive = (.ok t, a₁)) ∧
      Shared.archive.Extents t := by
  obtain ⟨a', hparse⟩ := Shared.outcome_parse
  exact ⟨Shared.sound_archive, ⟨a', hparse⟩, Shared.sound_archive.extents hparse⟩

/-- **The files of an archive can have more data than the archive has bytes**: two files that lie on
the same bytes, none of which passes the end of the archive. -/
theorem totalSize_shared :
    (∃ a', (Archive.parse Shared.media).outcome Shared.archive = (.ok (), a')) ∧
    (∃ a', (Archive.table Shared.media).outcome Shared.archive = (.ok Shared.table, a')) ∧
      Shared.archive.view.size < totalSize Shared.table.files := by
  obtain ⟨a', htable, -⟩ := Shared.sound_archive.outcome_table_of_read Shared.result_read
  exact ⟨Shared.outcome_parse, ⟨a', htable⟩, by decide⟩

end Cartridge.Partition
