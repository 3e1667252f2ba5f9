import Cartridge.Proofs.Cursors

/-!
# Writing where views overlap

Views of one medium may overlap in any way: a view and its copies, a view and its parts, parts of
parts. Bytes that are written through one of them are seen through all of them, each of which shows them
where it has that place of the medium. Every other byte of every view stays, and so do the windows and
the cursors of the views that were not written through.

A device cannot be written, and nothing is written through a cipher. A view of such a storage, and any
part of one, refuses every write and nothing changes.

Results:
* `Medium.getElem?_overwrite`: what is in a medium after a write, byte by byte.
* `View.Placed.readAt_overwrite`: what a view shows of a write.
* `View.write_of_sealed`: how a view that cannot be written refuses.
* `Bench.write_changes_what_it_covers`: a write changes what it covers, in all views, and nothing else.
-/

namespace Cartridge

/-! ## Bytes -/

namespace Medium

variable {m : Medium} {offset : Nat} {patch : List UInt8}

/-- A byte of a medium after a write. -/
theorem getElem?_overwrite (hm : m.IsWritable) (hle : offset + patch.length ≤ m.size) (k : Nat) :
    (m.overwrite offset patch).bytes[k]? =
      if offset ≤ k ∧ k < offset + patch.length then patch[k - offset]? else m.bytes[k]? := by
  cases m with
  | device d => exact hm.elim
  | memory bytes =>
    have hle : offset + patch.length ≤ bytes.length := hle
    have htake : (bytes.take offset).length = offset := by
      rw [List.length_take]
      omega
    simp only [overwrite, Medium.bytes, List.append_assoc, List.getElem?_append, htake,
      List.getElem?_take, List.getElem?_drop]
    by_cases hfront : k < offset
    · rw [if_pos hfront, if_pos hfront, if_neg (by omega)]
    · rw [if_neg hfront]
      by_cases hpatch : k < offset + patch.length
      · rw [if_pos (by omega), if_pos (by omega)]
      · rw [if_neg (by omega), if_neg (by omega),
          show offset + patch.length + (k - offset - patch.length) = k by omega]

end Medium

/-! ## Views -/

namespace View

variable {media media' : Media} {v w : View} {id offset length : Nat} {patch : List UInt8}

/-- How far behind the cursor of `v` the byte of `w` at an offset lies, if both are views of one
medium. Negative in front of the cursor. -/
def distance (v w : View) (i : Nat) : Int :=
  ((w.parentOffset + i : Nat) : Int) - ((v.parentOffset + v.position : Nat) : Int)

/-- The byte of `w` at an offset after writing at the cursor of `v`. -/
def overlay (v w : View) (patch : List UInt8) (i : Nat) (old : UInt8) : UInt8 :=
  if 0 ≤ v.distance w i ∧ v.distance w i < patch.length then patch.getD (v.distance w i).toNat 0
  else old

theorem Placed.readAt_eq (h : w.Placed media id) (hfaults : (media.get id).FaultFree)
    (hle : offset + length ≤ w.size) :
    w.readAt media offset length = .ok (slice (w.window (media.get id).bytes) offset length) := by
  obtain ⟨bytes, hread⟩ := h.exists_readAt hfaults hle
  rw [hread, (h.readAt_ok hread).2]

theorem getElem?_slice_window {bytes : List UInt8} {k : Nat} (hle : offset + length ≤ w.size)
    (hk : k < length) :
    (slice (w.window bytes) offset length)[k]? = bytes[w.region.origin + (offset + k)]? := by
  rw [window, getElem?_slice hk, getElem?_slice (by omega)]

/-- The same condition, said of addresses and not of distances. -/
theorem Placed.some_overlay (hv : v.Placed media id) (hw : w.Placed media id) (patch : List UInt8)
    (i : Nat) (old : UInt8) : some (v.overlay w patch i old) =
      if v.region.origin + v.position ≤ w.region.origin + i ∧
          w.region.origin + i < v.region.origin + v.position + patch.length then
        patch[w.region.origin + i - (v.region.origin + v.position)]?
      else some old := by
  rw [overlay, distance, parentOffset, parentOffset, ← hv.bare.origin_eq, ← hw.bare.origin_eq]
  by_cases hcovered : v.region.origin + v.position ≤ w.region.origin + i ∧
      w.region.origin + i < v.region.origin + v.position + patch.length
  · have hindex : (((w.region.origin + i : Nat) : Int) -
        ((v.region.origin + v.position : Nat) : Int)).toNat
          = w.region.origin + i - (v.region.origin + v.position) := by omega
    rw [if_pos hcovered, if_pos (by omega), hindex, List.getD_eq_getElem?_getD,
      List.getElem?_eq_getElem (by omega), Option.getD_some]
  · rw [if_neg hcovered, if_neg (by omega)]

/-- **What a view shows of a write at the cursor of another one**: the bytes that were written where it
has their place, and what it showed before everywhere else. -/
theorem Placed.readAt_overwrite (hv : v.Placed media id) (hw : w.Placed media id)
    (hwritable : (media.get id).IsWritable) (hfits : v.position + patch.length ≤ v.size)
    (hmedium : media'.get id = (media.get id).overwrite (v.region.origin + v.position) patch)
    (hle : offset + length ≤ w.size) :
    ∃ old, w.readAt media offset length = .ok old ∧
      w.readAt media' offset length =
        .ok (old.mapIdx fun k b => v.overlay w patch (offset + k) b) := by
  have hroom : v.region.origin + v.position + patch.length ≤ (media.get id).size := by
    have := hv.origin_add_size_le
    omega
  have hfaults : (media.get id).FaultFree := by
    cases hm : media.get id with
    | memory bytes => trivial
    | device d =>
      rw [hm] at hwritable
      exact hwritable.elim
  have hw' : w.Placed media' id := hw.of_size_eq (by rw [hmedium, Medium.size_overwrite hroom])
  have hfaults' : (media'.get id).FaultFree := by
    rw [hmedium]
    exact Medium.faultFree_overwrite.mpr hfaults
  refine ⟨_, hw.readAt_eq hfaults hle, (hw'.readAt_eq hfaults' hle).trans (congrArg Except.ok ?_)⟩
  apply List.ext_getElem?
  intro k
  rw [List.getElem?_mapIdx]
  by_cases hk : k < length
  · have hsome : w.region.origin + (offset + k) < (media.get id).bytes.length := by
      have := hw.origin_add_size_le
      rw [Medium.length_bytes]
      omega
    rw [getElem?_slice_window hle hk, getElem?_slice_window hle hk, hmedium,
      Medium.getElem?_overwrite hwritable hroom, List.getElem?_eq_getElem hsome, Option.map_some]
    exact (hv.some_overlay hw patch (offset + k) _).symm
  · have hnone (bytes : List UInt8) : (slice (w.window bytes) offset length)[k]? = none := by
      rw [List.getElem?_eq_none]
      unfold slice
      rw [List.length_take]
      omega
    rw [hnone, hnone]
    rfl

end View

/-! ## Views that cannot be written -/

namespace Region

variable {media : Media} {r : Region} {offset : Nat} {patch : List UInt8}

/-- What a region is a part of, through all parts: a medium, or what a cipher shows. -/
def storage : Region → Region
  | part base _ _ => base.storage
  | r => r

/-- The storage cannot be written: it is a device, or behind a cipher. -/
def IsSealed (media : Media) (r : Region) : Prop :=
  match r.storage with
  | medium id _ => ¬ (media.get id).IsWritable
  | counter _ _ | xts _ _ => True
  | part _ _ _ => False

theorem store_of_sealed (h : r.IsSealed media) (offset : Nat) :
    store media r offset patch = .error (.unsupported .readOnly) := by
  induction r generalizing offset with
  | medium id size =>
    have hsealed : ¬ (media.get id).IsWritable := h
    rw [store, Media.write]
    cases hm : media.get id with
    | memory bytes =>
      rw [hm] at hsealed
      exact absurd trivial hsealed
    | device d => rfl
  | part base start size ih => exact ih h (start + offset)
  | counter base layer => rfl
  | xts base layer => rfl

end Region

/-- A view that cannot be written refuses: what does not fit, because it does not fit, and everything
else, because it cannot be written. -/
theorem View.write_of_sealed {media : Media} {v : View} (h : v.region.IsSealed media)
    (patch : List UInt8) : v.write media patch =
      .error (if v.position + patch.length ≤ v.size then .unsupported .readOnly
        else .outOfBounds v.position patch.length v.size) := by
  unfold write Region.writeAt Region.checkRange View.size
  split
  · rw [Region.store_of_sealed h]
    rfl
  · rfl

/-! ## Views side by side -/

namespace Bench

variable {media : Media} {id : Nat} {b b' : Bench}

/-- What a write through one of the views has changed: the bytes that it covers, whatever views show
them, and the cursor of that view. -/
structure Overwrote (id : Nat) (b : Bench) (i : Fin b.views.length) (patch : List UInt8)
    (b' : Bench) : Prop where
  /-- Every read of every view. -/
  shown : ∀ w ∈ b.views, ∀ {offset length : Nat}, offset + length ≤ w.size →
    ∃ old, w.readAt b.media offset length = .ok old ∧
      w.readAt b'.media offset length =
        .ok (old.mapIdx fun k byte => (b.views.get i).overlay w patch (offset + k) byte)
  size_eq : (b'.media.get id).size = (b.media.get id).size
  others_eq : ∀ other ≠ id, b'.media.get other = b.media.get other
  /-- All windows are the same, and all cursors but that one. -/
  views_eq : b'.views =
    b.views.set i { b.views.get i with position := (b.views.get i).position + patch.length }

/-- **A write changes what it covers, in all views, and nothing else.** Let views be made from the view
of a memory, by copying views and cutting parts out of them, and used in any order. A write at the
cursor of one of them succeeds if it fits into that view, and then every view shows the bytes that were
written where it has their place, and what it showed before everywhere else.

Through a view of a device or of a cipher no write succeeds, and a write that fails changes nothing. -/
theorem write_changes_what_it_covers :
    (∀ {media : Media} {id : Nat} {bytes : List UInt8} {b : Bench}, media.get id = .memory bytes →
      Relation.ReflTransGen Step (ofMedium media id) b →
        ∀ (i : Fin b.views.length) (patch : List UInt8),
          ((∃ answer b', b.step i (.write patch) = (.ok answer, b')) ↔
            (b.views.get i).position + patch.length ≤ (b.views.get i).size) ∧
          ∀ {answer b'}, b.step i (.write patch) = (.ok answer, b') → b.Overwrote id i patch b') ∧
    (∀ (b : Bench) (i : Fin b.views.length), (b.views.get i).region.IsSealed b.media →
      ∀ patch, ∃ e, b.step i (.write patch) = (.error e, b)) := by
  refine ⟨?_, ?_⟩
  · intro media id bytes b hmemory hsteps i patch
    have hb := sound_of_steps hsteps
    have hv : (b.views.get i).Placed b.media id := hb.placed _ (List.get_mem _ _)
    have hwritable : (b.media.get id).IsWritable := by
      rw [hb.writable_iff, hmemory]
      trivial
    have hfaults : (b.media.get id).FaultFree := by
      rw [hb.faultFree_iff, hmemory]
      trivial
    refine ⟨⟨?_, fun hfits => ?_⟩, ?_⟩
    · rintro ⟨answer, b', hstep⟩
      obtain ⟨w, media', hrun, -⟩ := step_eq_ok_iff.mp hstep
      exact (View.Operation.run_ok hv hrun).allowed.2
    · obtain ⟨⟨answer, w, media'⟩, hrun⟩ :=
        View.Operation.exists_run_ok (x := .write patch) hv hfaults ⟨hwritable, hfits⟩
      exact ⟨answer, _, step_eq_ok_iff.mpr ⟨w, media', hrun, rfl⟩⟩
    · intro answer b' hstep
      obtain ⟨w, media', hrun, rfl⟩ := step_eq_ok_iff.mp hstep
      obtain ⟨⟨-, hfits⟩, rfl, rfl, hmedium, hothers⟩ := View.Operation.run_ok hv hrun
      refine ⟨fun w hw {_ _} hle => ?_, ?_, hothers, List.append_nil _⟩
      · exact hv.readAt_overwrite (hb.placed w hw) hwritable hfits hmedium hle
      · show (media'.get id).size = _
        rw [hmedium]
        exact View.Operation.size_medium hv ⟨hwritable, hfits⟩
  · intro b i hsealed patch
    have hrun := congrArg (· >>= fun done => Except.ok (View.Reply.number patch.length, done))
      (View.write_of_sealed hsealed patch)
    exact ⟨_, step_eq_error_iff.mpr ⟨hrun, rfl⟩⟩

end Bench

namespace Bench.Specimen

/-- Counter mode over the medium. -/
def enciphered : Bench := ⟨media, [.ofRegion (.counter root ⟨1, 6, Bytes.zero 16, 0⟩)]⟩

/-- What is written behind the cursor of a part is seen through a copy of the part and through the whole
medium; nothing is written through a cipher. -/
theorem overlaps_show_write :
    media.get 0 = .memory [0, 1, 2, 3, 4, 5, 6, 7] ∧
    Relation.ReflTransGen Step (ofMedium media 0) shared ∧
    (∃ answer b', shared.step ⟨1, by decide⟩ (.write [8, 8]) = (.ok answer, b') ∧
      (⟨.part root 2 4, 0⟩ : View).readAt b'.media 1 3 = .ok [9, 8, 8] ∧
      (⟨root, 0⟩ : View).readAt b'.media 3 4 = .ok [9, 8, 8, 6]) ∧
    (¬ ∃ answer b', shared.step ⟨1, by decide⟩ (.write [8, 8, 8]) = (.ok answer, b')) ∧
    ∃ e, enciphered.step ⟨0, by decide⟩ (.write [8]) = (.error e, enciphered) := by
  have hmemory : media.get 0 = .memory [0, 1, 2, 3, 4, 5, 6, 7] := rfl
  obtain ⟨hfits, hdone⟩ :=
    write_changes_what_it_covers.1 hmemory steps_shared ⟨1, by decide⟩ [8, 8]
  obtain ⟨hrefused, -⟩ :=
    write_changes_what_it_covers.1 hmemory steps_shared ⟨1, by decide⟩ [8, 8, 8]
  obtain ⟨answer, b', hstep⟩ := hfits.mpr (by decide)
  have hshown := (hdone hstep).shown
  refine ⟨hmemory, steps_shared, ⟨answer, b', hstep, ?_, ?_⟩, mt hrefused.mp (by decide), ?_⟩
  · obtain ⟨old, hold, hnew⟩ := hshown ⟨.part root 2 4, 0⟩ (by simp [shared])
      (show 1 + 3 ≤ 4 by decide)
    cases hold
    exact hnew
  · obtain ⟨old, hold, hnew⟩ := hshown ⟨root, 0⟩ (by simp [shared]) (show 3 + 4 ≤ 8 by decide)
    cases hold
    exact hnew
  · exact write_changes_what_it_covers.2 enciphered ⟨0, by decide⟩ trivial [8]

end Bench.Specimen

end Cartridge
