import Cartridge.Proofs.Partition.Calls
import Cartridge.Proofs.Partition.RoundTrip

/-!
# Checking the files of a hashed partition filesystem

The beginning of a file is read in chunks and hashed. How it is cut does not matter: what is compared
with the recorded hash is the hash of as many bytes as the entry says, or of the whole file if that is
shorter. So a verdict depends on the tables and on these bytes, and on nothing else in the archive.

Results:
* `readChunks_eq`, `hashOfPrefix_eq`: reading in chunks is reading at once.
* `Table.read_congr`: the tables are determined by the bytes that they take, and by the size.
* `Archive.Sound.outcome_of_asks`: an archive answers as one that has been read.
* `Archive.Sound.checks`: what checking, verifying and opening give in an archive that parses.
* `Archive.Checks.check_congr`: bytes that are not covered make no difference.
-/

namespace Cartridge

/-- A slice lies in the beginning that it does not leave. -/
theorem slice_take {bytes : List UInt8} {n offset len : Nat} (h : offset + len ≤ n) :
    slice (bytes.take n) offset len = slice bytes offset len := by
  unfold slice
  rw [List.drop_take, List.take_take, Nat.min_eq_left (by omega)]

/-- Byte strings that begin alike have the same slices there. -/
theorem slice?_eq_of_take_eq {bytes bytes' part : List UInt8} {n offset len : Nat}
    (htake : bytes'.take n = bytes.take n) (hle : offset + len ≤ n)
    (h : slice? bytes offset len = some part) : slice? bytes' offset len = some part := by
  obtain ⟨hin, -⟩ := slice?_eq_some_iff.mp h
  have hlen := congrArg List.length htake
  rw [List.length_take, List.length_take] at hlen
  rw [slice?_of_le hin] at h
  rw [slice?_of_le (show offset + len ≤ bytes'.length by omega), ← h, ← slice_take hle, htake,
    slice_take hle]

namespace Partition

variable {media media' : Media} {region region' : Region} {bytes bytes' : List UInt8} {name : String}

/-! ## Hashing a beginning -/

/-- **Reading in chunks is reading at once**, if there are enough of them. -/
theorem readChunks_eq (hr : region.Holds media bytes) {count offset length : Nat}
    (hcount : length ≤ count * chunkSize) (hle : offset + length ≤ bytes.length) :
    readChunks region media count offset length = .ok (slice bytes offset length) := by
  induction count generalizing offset length with
  | zero =>
    obtain rfl : length = 0 := by omega
    rw [slice_zero_length]
    rfl
  | succ count ih =>
    have hread := hr.readAt_eq (show offset + min length chunkSize ≤ bytes.length by omega)
    have hrest := @ih (offset + min length chunkSize) (length - min length chunkSize)
      (by rw [Nat.succ_mul] at hcount; omega) (by omega)
    rw [readChunks, hread, ok_bind, hrest, ok_bind, slice_append_slice,
      Nat.add_sub_cancel' (Nat.min_le_left _ _)]
    rfl

/-- The hash of a beginning is that of its bytes. -/
theorem hashOfPrefix_eq (hr : region.Holds media bytes) {length : Nat} (hle : length ≤ bytes.length) :
    hashOfPrefix region media length = .ok (Sha256.hash (bytes.take length)) := by
  have hcount : length ≤ (length + (chunkSize - 1)) / chunkSize * chunkSize := by
    rw [show chunkSize = 0x10000 from rfl]
    omega
  unfold hashOfPrefix
  rw [readChunks_eq hr hcount (by omega), ok_bind]
  rfl

/-! ## The tables and what lies behind them -/

theorem TablesIn.of_take {F : Flavor} {h : Header} {records : List (Record F)} {strings : List UInt8}
    (ht : TablesIn F bytes h records strings)
    (htake : bytes'.take (tablesSize F h) = bytes.take (tablesSize F h)) :
    TablesIn F bytes' h records strings where
  header_eq := slice?_eq_of_take_eq htake (by unfold tablesSize; omega) ht.header_eq
  length_records := ht.length_records
  records_eq := slice?_eq_of_take_eq htake (by unfold tablesSize; omega) ht.records_eq
  strings_eq := slice?_eq_of_take_eq htake (by unfold tablesSize; omega) ht.strings_eq

/-- **The tables are determined by the bytes that they take**, and by the size of the archive. -/
theorem Table.read_congr {F : Flavor} {t : Table F} (hr : region.Holds media bytes)
    (hr' : region'.Holds media' bytes') (hlen : bytes'.length = bytes.length)
    (hread : (Table.read F region media).result = .ok t)
    (htake : bytes'.take t.dataOffset = bytes.take t.dataOffset) :
    (Table.read F region' media').result = .ok t := by
  obtain ⟨h, records, strings, hsound⟩ | ⟨e, hrefused⟩ := sound_or_refused F bytes
  · have hshows := result_read_of_tablesIn hr hsound.magic_eq hsound.toTablesIn
    rw [hread] at hshows
    obtain ⟨entries, -, ht⟩ := bind_eq_ok_iff.mp hshows.symm
    cases ht
    have htables := hsound.toTablesIn.of_take htake
    have hmagic : bytes'.take 4 = F.magic.toList := by
      have hfour : 4 ≤ tablesSize F h := by
        unfold tablesSize
        rw [Header.size_layout]
        omega
      have hfront := congrArg (List.take 4) htake
      rwa [List.take_take, List.take_take, Nat.min_eq_left hfour, hsound.magic_eq] at hfront
    rw [result_read_of_tablesIn hr' hmagic htables, hlen, ← hread,
      result_read_of_tablesIn hr hsound.magic_eq hsound.toTablesIn]
  · rw [Table.read_of_refused hr hrefused] at hread
    cases hread

/-! ## Verdicts on files -/

/-- The bytes of a file. -/
def Table.data {F : Flavor} (t : Table F) (bytes : List UInt8) (e : Entry F) : List UInt8 :=
  slice bytes (t.dataOffset + e.dataOffset.toNat) e.dataSize.toNat

/-- The bytes of a file that its hash covers. -/
def Table.covered (t : Table .hashed) (bytes : List UInt8) (e : Entry .hashed) : List UInt8 :=
  (t.data bytes e).take (Archive.coveredSize e)

/-- The verdict on a file by the bytes that its hash covers. -/
def Entry.judge (e : Entry .hashed) (covered : List UInt8) : Verification :=
  if Sha256.hash covered = e.tail.hash then .valid
  else .mismatch e.tail.hash (Sha256.hash covered)

/-- A file is valid exactly if its covered bytes have the recorded hash. -/
theorem Entry.judge_eq_valid_iff {e : Entry .hashed} {covered : List UInt8} :
    e.judge covered = .valid ↔ Sha256.hash covered = e.tail.hash := by
  unfold judge
  split
  · rename_i h
    exact iff_of_true rfl h
  · rename_i h
    exact iff_of_false nofun h

/-- What verifying a file gives that has this verdict. -/
def Verification.demand (name : String) : Verification → Except Error Unit
  | valid => .ok ()
  | mismatch _ _ => .error (.hashMismatch name)

namespace Archive

variable {F : Flavor} {a : Archive F} {t : Table F}

/-- **An archive answers as one that has been read.** -/
theorem Sound.outcome_of_asks {α : Type} {x : Access (Archive F) α} (ha : a.Sound media)
    (hread : (Table.read F a.view.region media).result = .ok t)
    (hx : (parts F).Asks media x) : x.outcome a = x.outcome ⟨a.view, .parsed t⟩ := by
  obtain ⟨view, _ | t₀⟩ := a
  · have hforce : ((parts F).force media).outcome ((parts F).fresh view)
        = (.ok t, (parts F).parsed view t) := Lazy.outcome_force_fresh hread
    have hfresh : ((parts F).force media >>= fun _ => x).outcome ((parts F).fresh view)
        = x.outcome ((parts F).parsed view t) := by
      rw [Access.outcome_bind, hforce]
    rw [hx.first] at hfresh
    exact hfresh
  · obtain rfl := Except.ok.inj (hread.symm.trans (ha t₀ rfl))
    rfl

end Archive

namespace Archive

variable {a a' : Archive .hashed} {t : Table .hashed} {view : View} {e : Entry .hashed}

theorem outcome_entry_parsed (media : Media) (view : View) (h : t.entries.find? name = some e) :
    (entry media name).outcome ⟨view, .parsed t⟩ = (.ok e, ⟨view, .parsed t⟩) := by
  rw [Access.outcome, entry_parsed, h]
  rfl

section Found

variable (hchecked : t.Checked view.size) (hfind : t.entries.find? name = some e)
  (hr : view.region.Holds media bytes)

include hchecked hfind

theorem outcome_openFile_parsed (media : Media) : (openFile media name).outcome ⟨view, .parsed t⟩ =
    (.ok (.ofRegion (.part view.region (t.dataOffset + e.dataOffset.toNat) e.dataSize.toNat)),
      ⟨view, .parsed t⟩) := by
  rw [openFile, Access.outcome_bind_of_ok (outcome_entry_parsed media view hfind),
    ← hchecked.openEntry_eq hfind]
  rfl

include hr

/-- Checking compares the hash of the covered bytes with the recorded one. -/
theorem outcome_check_parsed : (check media name).outcome ⟨view, .parsed t⟩
    = (.ok (e.judge (t.covered bytes e)), ⟨view, .parsed t⟩) := by
  have hle : t.dataOffset + e.dataOffset.toNat + e.dataSize.toNat ≤ view.region.size :=
    hchecked.stop_le hfind
  have hdata : (t.data bytes e).length = e.dataSize.toNat := by
    rw [hr.size_eq] at hle
    exact length_slice hle
  have hcovered : coveredSize e ≤ (t.data bytes e).length := by
    rw [hdata]
    exact Nat.min_le_right _ _
  have hopen : (openEntry media e).outcome ⟨view, .parsed t⟩ = (.ok (.ofRegion (.part view.region
      (t.dataOffset + e.dataOffset.toNat) e.dataSize.toNat)), ⟨view, .parsed t⟩) :=
    congrArg (·, _) (hchecked.openEntry_eq hfind)
  have hhash : hashOfPrefix (View.ofRegion (.part view.region (t.dataOffset + e.dataOffset.toNat)
      e.dataSize.toNat)).region media (coveredSize e) = .ok (Sha256.hash (t.covered bytes e)) :=
    hashOfPrefix_eq (hr.part hle) hcovered
  rw [check, Access.outcome_bind_of_ok (outcome_entry_parsed media view hfind),
    Access.outcome_bind_of_ok hopen, Access.outcome_bind_liftM_of_ok hhash]
  unfold Entry.judge
  split <;> rfl

theorem outcome_verify_parsed : (verify media name).outcome ⟨view, .parsed t⟩
    = ((e.judge (t.covered bytes e)).demand name, ⟨view, .parsed t⟩) := by
  rw [verify, Access.outcome_bind_of_ok (outcome_check_parsed hchecked hfind hr)]
  cases e.judge (t.covered bytes e) <;> rfl

theorem outcome_openVerified_parsed : (openVerified media name).outcome ⟨view, .parsed t⟩ =
    (.ok (.ofRegion (.part view.region (t.dataOffset + e.dataOffset.toNat) e.dataSize.toNat),
      e.judge (t.covered bytes e)), ⟨view, .parsed t⟩) := by
  rw [openVerified, Access.outcome_bind_of_ok (outcome_check_parsed hchecked hfind hr),
    Access.outcome_bind_of_ok (outcome_openFile_parsed hchecked hfind media), Access.outcome_pure]

end Found

/-- A name that is not found is not checked. -/
theorem outcome_check_parsed_of_not_mem (media : Media) (view : View)
    (hname : name ∉ t.entries.keys) : (check media name).outcome ⟨view, .parsed t⟩
      = (.error (.entryNotFound name), ⟨view, .parsed t⟩) := by
  have hentry : (entry media name).outcome ⟨view, .parsed t⟩
      = (.error (.entryNotFound name), ⟨view, .parsed t⟩) := by
    rw [Access.outcome, entry_parsed, Catalog.not_mem_keys_iff.mp hname]
    rfl
  rw [check, Access.outcome_bind, hentry]

/-- What hashes say in an archive with these tables that holds these bytes. -/
structure Checks (media : Media) (bytes : List UInt8) (a : Archive .hashed) (t : Table .hashed) :
    Prop where
  table : (Archive.table media).outcome a = (.ok t, ⟨a.view, .parsed t⟩)
  /-- The verdict is on the covered bytes. -/
  check : ∀ {name e}, t.entries.find? name = some e → (Archive.check media name).outcome a
    = (.ok (e.judge (t.covered bytes e)), ⟨a.view, .parsed t⟩)
  check_valid_iff : ∀ {name e}, t.entries.find? name = some e →
    ((Archive.check media name).outcome a = (.ok .valid, ⟨a.view, .parsed t⟩) ↔
      Sha256.hash (t.covered bytes e) = e.tail.hash)
  /-- Verifying demands that a file is valid. -/
  verify : ∀ {name e}, t.entries.find? name = some e → (Archive.verify media name).outcome a
    = ((e.judge (t.covered bytes e)).demand name, ⟨a.view, .parsed t⟩)
  /-- Whatever the verdict is, the file is opened. -/
  openVerified : ∀ {name e}, t.entries.find? name = some e → ∃ file,
    (openFile media name).outcome a = (.ok file, ⟨a.view, .parsed t⟩) ∧
      file.region.Holds media (t.data bytes e) ∧
      (Archive.openVerified media name).outcome a
        = (.ok (file, e.judge (t.covered bytes e)), ⟨a.view, .parsed t⟩)
  notFound : ∀ {name}, name ∉ t.entries.keys →
    (Archive.check media name).outcome a = (.error (.entryNotFound name), ⟨a.view, .parsed t⟩) ∧
      (Archive.verify media name).outcome a = (.error (.entryNotFound name), ⟨a.view, .parsed t⟩) ∧
      (Archive.openVerified media name).outcome a
        = (.error (.entryNotFound name), ⟨a.view, .parsed t⟩)

theorem Sound.checks_of_read (ha : a.Sound media) (hr : a.view.region.Holds media bytes)
    (hread : (Table.read .hashed a.view.region media).result = .ok t) : a.Checks media bytes t := by
  have hchecked : t.Checked a.view.size := Table.checked_of_read hread
  have hcheck {name : String} {e : Entry .hashed} (he : t.entries.find? name = some e) :
      (Archive.check media name).outcome a
        = (.ok (e.judge (t.covered bytes e)), ⟨a.view, .parsed t⟩) := by
    rw [ha.outcome_of_asks hread (asks_check name), outcome_check_parsed hchecked he hr]
  constructor
  · exact ha.outcome_of_asks hread asks_table
  · exact hcheck
  · intro name e he
    rw [hcheck he, ← Entry.judge_eq_valid_iff, Prod.mk.injEq, Except.ok.injEq, and_iff_left rfl]
  · intro name e he
    rw [ha.outcome_of_asks hread (asks_verify name), outcome_verify_parsed hchecked he hr]
  · intro name e he
    rw [ha.outcome_of_asks hread (asks_openVerified name),
      outcome_openVerified_parsed hchecked he hr, ha.outcome_of_asks hread (asks_openFile name),
      outcome_openFile_parsed hchecked he]
    exact ⟨_, rfl, hr.part (hchecked.stop_le he), rfl⟩
  · intro name hname
    have hnone := outcome_check_parsed_of_not_mem media a.view hname
    rw [ha.outcome_of_asks hread (asks_check name), ha.outcome_of_asks hread (asks_verify name),
      ha.outcome_of_asks hread (asks_openVerified name), Archive.verify, Archive.openVerified,
      Access.outcome_bind, Access.outcome_bind, hnone]
    exact ⟨rfl, rfl, rfl⟩

/-- The verdict is the same where the covered bytes are, whatever lies behind them. -/
theorem Checks.check_congr {b : Archive .hashed} (h : a.Checks media bytes t)
    (h' : b.Checks media' bytes' t) (hfind : t.entries.find? name = some e)
    (hcovered : t.covered bytes' e = t.covered bytes e) :
    ((Archive.check media' name).outcome b).1 = ((Archive.check media name).outcome a).1 := by
  rw [h.check hfind, h'.check hfind, hcovered]

/-- **What hashes say in an archive that parses**, whether it was parsed before or not. In an archive of
the same size that begins with the same tables they say the same of files whose covered bytes are the
same. -/
theorem Sound.checks (ha : a.Sound media) (hr : a.view.region.Holds media bytes)
    (hparse : (parse media).outcome a = (.ok (), a')) :
    ∃ t, a.Checks media bytes t ∧
      ∀ {media' : Media} {bytes' : List UInt8} {b : Archive .hashed}, b.Sound media' →
        b.view.region.Holds media' bytes' → bytes'.length = bytes.length →
        bytes'.take t.dataOffset = bytes.take t.dataOffset →
        b.Checks media' bytes' t ∧ ∀ {name : String} {e : Entry .hashed},
          t.entries.find? name = some e → t.covered bytes' e = t.covered bytes e →
          ((Archive.check media' name).outcome b).1 = ((Archive.check media name).outcome a).1 := by
  obtain ⟨t, hread⟩ := ha.exists_read hparse
  have h := ha.checks_of_read hr hread
  refine ⟨t, h, fun {media' bytes' b} hb hr' hlen htake => ?_⟩
  have h' := hb.checks_of_read hr' (Table.read_congr hr hr' hlen hread htake)
  exact ⟨h', fun hfind hcovered => h.check_congr h' hfind hcovered⟩

end Archive

/-! ## Checking what was packed -/

section Packing

variable {p : Parts .hashed} {front back : List (Content .hashed)} {f : Content .hashed}

/-- Of a file that was packed the first bytes of its data are covered. -/
theorem Parts.Fits.covered_eq (h : p.Fits) (heq : p.files = front ++ f :: back)
    (haddressable : p.image.length < UInt64.size) :
    p.table.covered p.image (f.entryAt (dataBytes front).length)
      = f.data.take f.tail.coveredSize.toNat := by
  have hslice := h.slice_image heq
  have hle := (slice?_eq_some_iff.mp hslice).1
  have hat : f.IsAt (dataBytes front).length (f.entryAt (dataBytes front).length) :=
    f.isAt_entryAt (by omega)
  rw [slice?_of_le hle] at hslice
  unfold Table.covered Table.data Archive.coveredSize
  rw [hat.dataOffset_eq, hat.dataSize_eq, hat.tail_eq, show p.table.dataOffset
    = tablesSize .hashed p.header from rfl, Option.some.inj hslice, ← List.take_eq_take_min]

end Packing

end Partition

end Cartridge
