import Cartridge.Proofs.Chains
import Mathlib.Logic.Relation

/-!
# Views as slices with cursors

The views of a medium are windows on its bytes, each with a cursor of its own. Any number of them can be
made, by copying a view or cutting a part out of one, and used in any order (`Bench`). What an operation
on one of them gives depends on its window, as it is at that moment, and on its cursor: a read or write
at the cursor fits or fails, a read as a stream takes what there is, a cursor moves within the window
or not at all. Nothing else changes but the cursor of that view and, when bytes are written, what all
windows show of the place.

A medium may be a device whose reads fail. Then an operation may fail that is allowed, but if it does
not, it does the same.

Results:
* `View.Operation.run_ok`: what an operation does to the state if it succeeds.
* `View.Operation.exists_run_ok`: without faults, an operation succeeds if it is allowed.
* `Bench.Sound.step`: views stay within their medium, and cursors within their views.
* `Bench.view_acts_as_cursor`: so it is in every state that operations lead to.
-/

namespace Cartridge

/-! ## Writing to media -/

namespace Medium

/-- Whether bytes can be written: not to a device. -/
def IsWritable : Medium → Prop
  | memory _ => True
  | device _ => False

/-- The medium with other bytes from `offset` on. -/
def overwrite : Medium → (offset : Nat) → List UInt8 → Medium
  | memory bytes, offset, patch =>
    memory (bytes.take offset ++ patch ++ bytes.drop (offset + patch.length))
  | device d, _, _ => device d

variable {m m' : Medium} {offset : Nat} {patch : List UInt8}

theorem write_eq_ok_iff : m.write offset patch = .ok m' ↔
    m.IsWritable ∧ offset + patch.length ≤ m.size ∧ m.overwrite offset patch = m' := by
  cases m with
  | memory bytes =>
    unfold write splice? IsWritable size overwrite
    by_cases hle : offset + patch.length ≤ bytes.length
    · simp [hle]
    · simp [hle]
  | device d => simp [write, IsWritable]

theorem size_overwrite (h : offset + patch.length ≤ m.size) :
    (m.overwrite offset patch).size = m.size := by
  cases m with
  | memory bytes =>
    have hle : offset + patch.length ≤ bytes.length := h
    simp only [overwrite, size, List.length_append, List.length_take, List.length_drop]
    omega
  | device d => rfl

theorem isWritable_overwrite : (m.overwrite offset patch).IsWritable ↔ m.IsWritable := by
  cases m <;> rfl

theorem faultFree_overwrite : (m.overwrite offset patch).FaultFree ↔ m.FaultFree := by
  cases m <;> rfl

end Medium

namespace Media

variable {m m' : Media} {id other offset : Nat} {medium : Medium} {patch : List UInt8}

theorem get_set (h : id < m.list.length) : (m.set id medium).get id = medium := by
  unfold get set
  simp [List.getD_eq_getElem?_getD, h]

theorem get_set_of_ne (h : other ≠ id) : (m.set id medium).get other = m.get other := by
  unfold get set
  simp [List.getD_eq_getElem?_getD, List.getElem?_set_ne (Ne.symm h)]

theorem get_of_le (h : m.list.length ≤ id) : m.get id = .memory [] := by
  unfold get
  simp [List.getD_eq_getElem?_getD, h]

theorem write_isOk_iff : (∃ m', m.write id offset patch = .ok m') ↔
    (m.get id).IsWritable ∧ offset + patch.length ≤ (m.get id).size := by
  unfold write
  constructor
  · rintro ⟨m', h⟩
    obtain ⟨medium, hmedium, -⟩ := bind_eq_ok_iff.mp h
    obtain ⟨hwritable, hle, -⟩ := Medium.write_eq_ok_iff.mp hmedium
    exact ⟨hwritable, hle⟩
  · rintro ⟨hwritable, hle⟩
    exact ⟨_, bind_eq_ok_iff.mpr ⟨_, Medium.write_eq_ok_iff.mpr ⟨hwritable, hle, rfl⟩, rfl⟩⟩

/-- Writing changes one medium. -/
theorem get_of_write (h : m.write id offset patch = .ok m') :
    m'.get id = (m.get id).overwrite offset patch ∧ ∀ other ≠ id, m'.get other = m.get other := by
  obtain ⟨medium, hmedium, hm'⟩ := bind_eq_ok_iff.mp h
  cases hm'
  obtain ⟨-, hle, rfl⟩ := Medium.write_eq_ok_iff.mp hmedium
  refine ⟨?_, fun other hne => get_set_of_ne hne⟩
  by_cases hid : id < m.list.length
  · exact get_set hid
  · -- behind a number that is not in use there is nothing, and nothing can be written to it
    have hnone : m.get id = .memory [] := get_of_le (Nat.le_of_not_lt hid)
    have hset : m.set id ((m.get id).overwrite offset patch) = m := by
      unfold set
      rw [List.set_eq_of_length_le (Nat.le_of_not_lt hid)]
    rw [hset, hnone]
    rw [hnone] at hle
    have hpatch : patch = [] := List.eq_nil_of_length_eq_zero (Nat.eq_zero_of_le_zero
      (Nat.le_trans (Nat.le_add_left patch.length offset) hle))
    simp [Medium.overwrite, hpatch]

end Media

/-! ## Regions without ciphers -/

namespace Region.Bare

variable {media media' : Media} {r : Region} {id mediumSize offset length : Nat} {patch : List UInt8}

theorem origin_eq (h : Bare id mediumSize r) : r.origin = r.parentOffset := by
  induction h with
  | medium => rfl
  | part _ hr ih =>
    obtain ⟨-, rfl⟩ := subregion_eq_ok_iff.mp hr
    rw [origin, parentOffset, ih]

theorem store_eq (h : Bare id mediumSize r) (offset : Nat) :
    store media r offset patch = media.write id (r.origin + offset) patch := by
  induction h generalizing offset with
  | medium =>
    show media.write id offset patch = media.write id (0 + offset) patch
    rw [Nat.zero_add]
  | part _ hr ih =>
    obtain ⟨-, rfl⟩ := subregion_eq_ok_iff.mp hr
    rw [store, ih, origin, Nat.add_assoc]

theorem writeAt_eq_ok_iff (h : Bare id mediumSize r) : r.writeAt media offset patch = .ok media' ↔
    offset + patch.length ≤ r.size ∧ media.write id (r.origin + offset) patch = .ok media' := by
  unfold writeAt
  rw [checkRange_bind_eq_ok_iff, h.store_eq]

theorem exists_readAt (h : Bare id (media.get id).size r) (hfaults : (media.get id).FaultFree)
    (hle : offset + length ≤ r.size) : ∃ bytes, r.readAt media offset length = .ok bytes := by
  have hsize := h.parentOffset_add_size_le
  unfold readAt
  rw [readWithin_eq _ hle]
  by_cases hzero : length = 0
  · exact ⟨[], if_pos hzero⟩
  · rw [if_neg hzero, h.fetch_eq]
    exact ⟨_, Medium.read_eq hfaults (by omega)⟩

end Region.Bare

/-! ## Views -/

namespace View

variable {media media' : Media} {v w : View} {id length : Nat} {bytes : List UInt8} {target : Target}
  {patch : List UInt8}

theorem read_eq_ok_iff : v.read media length = .ok (bytes, w) ↔
    v.readAt media v.position length = .ok bytes ∧
      w = { v with position := v.position + length } := by
  unfold read
  rw [bind_eq_ok_iff]
  constructor
  · rintro ⟨_, hread, hw⟩
    cases hw
    exact ⟨hread, rfl⟩
  · rintro ⟨hread, rfl⟩
    exact ⟨bytes, hread, rfl⟩

theorem readStream_eq_ok_iff : v.readStream media length = .ok (bytes, w) ↔
    v.readAt media v.position (min length (v.size - v.position)) = .ok bytes ∧
      w = { v with position := v.position + min length (v.size - v.position) } := by
  unfold readStream
  dsimp only
  cases v.readAt media v.position (min length (v.size - v.position)) with
  | error e => simp
  | ok read => simp [eq_comm]

theorem seek_eq_ok_iff : v.seek target = .ok w ↔
    (0 ≤ Target.position v target ∧ Target.position v target ≤ v.size) ∧
      w = { v with position := (Target.position v target).toNat } := by
  unfold seek
  by_cases h : 0 ≤ Target.position v target ∧ Target.position v target ≤ v.size
  · simp [h, eq_comm]
  · simp [h]

theorem seekStream_eq_ok_iff : v.seekStream target = .ok w ↔ v.seek target = .ok w := by
  unfold seekStream
  cases v.seek target with
  | error e => simp
  | ok moved => rfl

theorem write_eq_ok_iff : v.write media patch = .ok (w, media') ↔
    v.region.writeAt media v.position patch = .ok media' ∧
      w = { v with position := v.position + patch.length } := by
  unfold write
  rw [bind_eq_ok_iff]
  constructor
  · rintro ⟨_, hwrite, hw⟩
    cases hw
    exact ⟨hwrite, rfl⟩
  · rintro ⟨hwrite, rfl⟩
    exact ⟨media', hwrite, rfl⟩

theorem subview_eq_ok_iff {offset size : Nat} : v.subview offset size = .ok w ↔
    offset + size ≤ v.size ∧ w = ofRegion (.part v.region offset size) := by
  unfold subview
  rw [bind_eq_ok_iff]
  constructor
  · rintro ⟨r, hr, hw⟩
    obtain ⟨hle, rfl⟩ := Region.subregion_eq_ok_iff.mp hr
    cases hw
    exact ⟨hle, rfl⟩
  · rintro ⟨hle, rfl⟩
    exact ⟨_, Region.subregion_eq_ok_iff.mpr ⟨hle, rfl⟩, rfl⟩

/-- What a view shows of the bytes that its medium holds. -/
def window (v : View) (bytes : List UInt8) : List UInt8 := slice bytes v.region.origin v.size

/-- A view without ciphers on a medium, with its cursor in the view or at its end. -/
structure Placed (media : Media) (id : Nat) (v : View) : Prop where
  bare : v.region.Bare id (media.get id).size
  position_le : v.position ≤ v.size

namespace Placed

theorem of_size_eq (h : v.Placed media id) (hsize : (media'.get id).size = (media.get id).size) :
    v.Placed media' id := by
  refine ⟨?_, h.position_le⟩
  rw [hsize]
  exact h.bare

theorem origin_add_size_le (h : v.Placed media id) :
    v.region.origin + v.size ≤ (media.get id).size := by
  rw [h.bare.origin_eq]
  exact h.bare.parentOffset_add_size_le

theorem length_window (h : v.Placed media id) :
    (v.window (media.get id).bytes).length = v.size := by
  refine length_slice ?_
  rw [Medium.length_bytes]
  exact h.origin_add_size_le

theorem readAt_ok (h : v.Placed media id) {offset length : Nat} {bytes : List UInt8}
    (hread : v.readAt media offset length = .ok bytes) :
    offset + length ≤ v.size ∧
      bytes = slice (v.window (media.get id).bytes) offset length := by
  have hle : offset + length ≤ v.size := Region.le_of_readAt hread
  refine ⟨hle, ?_⟩
  rw [window, slice_slice hle, h.bare.origin_eq]
  exact h.bare.readAt_eq hread

theorem exists_readAt (h : v.Placed media id) (hfaults : (media.get id).FaultFree)
    {offset length : Nat} (hle : offset + length ≤ v.size) :
    ∃ bytes, v.readAt media offset length = .ok bytes :=
  h.bare.exists_readAt hfaults hle

end Placed

/-! ## Operations -/

/-- What can be done to a view. -/
inductive Operation where
  /-- Reads at the cursor, all that is asked for. -/
  | read (length : Nat)
  /-- Reads at the cursor, as much as there is. -/
  | readStream (length : Nat)
  | readToEnd
  | seek (target : Target)
  | seekStream (target : Target)
  | tell
  /-- Reads at an offset, into bytes at hand or new ones. -/
  | readAt (offset length : Nat)
  | write (patch : List UInt8)
  | clone
  | subview (offset size : Nat)

/-- What an operation answers. -/
inductive Reply where
  | bytes (bytes : List UInt8)
  | number (n : Nat)
  | view (v : View)

/-- The view that was made. -/
def Reply.views : Reply → List View
  | view v => [v]
  | _ => []

namespace Operation

/-- Carries out an operation: the answer, the view afterwards, and the media afterwards. -/
def run (media : Media) (v : View) : Operation → Except Error (Reply × View × Media)
  | read length => do
    let (bytes, w) ← v.read media length
    return (.bytes bytes, w, media)
  | readStream length => do
    let (bytes, w) ← v.readStream media length
    return (.bytes bytes, w, media)
  | readToEnd => do
    let (bytes, w) ← v.readToEnd media
    return (.bytes bytes, w, media)
  | seek target => do
    let w ← v.seek target
    return (.number w.position, w, media)
  | seekStream target => do
    let w ← v.seekStream target
    return (.number w.position, w, media)
  | tell => return (.number v.position, v, media)
  | readAt offset length => do
    let bytes ← v.readAt media offset length
    return (.bytes bytes, v, media)
  | write patch => do
    let (w, media) ← v.write media patch
    return (.number patch.length, w, media)
  | clone => return (.view v, v, media)
  | subview offset size => do
    let part ← v.subview offset size
    return (.view part, v, media)

/-! What slices and cursors say of it. -/

/-- The operation fits: a read or write into the window, a part into the window, a cursor between its
bounds. Only what can be written is written to. -/
def Allowed (writable : Prop) (v : View) : Operation → Prop
  | read length => v.position + length ≤ v.size
  | seek target | seekStream target =>
    0 ≤ Target.position v target ∧ Target.position v target ≤ v.size
  | readAt offset length => offset + length ≤ v.size
  | write patch => writable ∧ v.position + patch.length ≤ v.size
  | subview offset size => offset + size ≤ v.size
  | readStream _ | readToEnd | tell | clone => True

/-- What is answered, from what the view shows. -/
def reply (v : View) (shown : List UInt8) : Operation → Reply
  | read length => .bytes (slice shown v.position length)
  | readStream length => .bytes (slice shown v.position (min length (v.size - v.position)))
  | readToEnd => .bytes (shown.drop v.position)
  | seek target | seekStream target => .number (Target.position v target).toNat
  | tell => .number v.position
  | readAt offset length => .bytes (slice shown offset length)
  | write patch => .number patch.length
  | clone => .view v
  | subview offset size => .view (ofRegion (.part v.region offset size))

/-- Where the cursor is afterwards. -/
def cursor (v : View) : Operation → Nat
  | read length => v.position + length
  | readStream length => v.position + min length (v.size - v.position)
  | readToEnd => v.size
  | seek target | seekStream target => (Target.position v target).toNat
  | write patch => v.position + patch.length
  | tell | readAt _ _ | clone | subview _ _ => v.position

/-- What the medium is afterwards. -/
def medium (v : View) (m : Medium) : Operation → Medium
  | write patch => m.overwrite (v.region.origin + v.position) patch
  | _ => m

/-- An operation has done what slices and cursors say. -/
structure Done (x : Operation) (media : Media) (id : Nat) (v : View) (answer : Reply) (w : View)
    (media' : Media) : Prop where
  allowed : x.Allowed (media.get id).IsWritable v
  reply_eq : answer = x.reply v (v.window (media.get id).bytes)
  view_eq : w = { v with position := x.cursor v }
  medium_eq : media'.get id = x.medium v (media.get id)
  others_eq : ∀ other ≠ id, media'.get other = media.get other

variable {x : Operation} {answer : Reply}

/-- **An operation that succeeds does what slices and cursors say**, and nothing else. -/
theorem run_ok (hv : v.Placed media id) (h : x.run media v = .ok (answer, w, media')) :
    x.Done media id v answer w media' := by
  have hposition := hv.position_le
  cases x with
  | read length =>
    obtain ⟨⟨bytes, moved⟩, hread, hrest⟩ := bind_eq_ok_iff.mp h
    cases hrest
    obtain ⟨hbytes, rfl⟩ := read_eq_ok_iff.mp hread
    obtain ⟨hle, rfl⟩ := hv.readAt_ok hbytes
    exact ⟨hle, rfl, rfl, rfl, fun _ _ => rfl⟩
  | readStream length =>
    obtain ⟨⟨bytes, moved⟩, hread, hrest⟩ := bind_eq_ok_iff.mp h
    cases hrest
    obtain ⟨hbytes, rfl⟩ := readStream_eq_ok_iff.mp hread
    obtain ⟨-, rfl⟩ := hv.readAt_ok hbytes
    exact ⟨trivial, rfl, rfl, rfl, fun _ _ => rfl⟩
  | readToEnd =>
    obtain ⟨⟨bytes, moved⟩, hread, hrest⟩ := bind_eq_ok_iff.mp h
    cases hrest
    obtain ⟨hbytes, rfl⟩ := readStream_eq_ok_iff.mp hread
    obtain ⟨-, rfl⟩ := hv.readAt_ok hbytes
    -- a stream read of all that is left
    have hlen : ((v.window (media.get id).bytes).drop v.position).length = v.size - v.position := by
      rw [List.length_drop, hv.length_window]
    rw [Nat.min_self]
    refine ⟨trivial, ?_, ?_, rfl, fun _ _ => rfl⟩
    · rw [reply, slice, List.take_of_length_le (Nat.le_of_eq hlen)]
    · rw [cursor, Nat.add_sub_cancel' hposition]
  | seek target =>
    obtain ⟨moved, hseek, hrest⟩ := bind_eq_ok_iff.mp h
    cases hrest
    obtain ⟨hin, rfl⟩ := seek_eq_ok_iff.mp hseek
    exact ⟨hin, rfl, rfl, rfl, fun _ _ => rfl⟩
  | seekStream target =>
    obtain ⟨moved, hseek, hrest⟩ := bind_eq_ok_iff.mp h
    cases hrest
    obtain ⟨hin, rfl⟩ := seek_eq_ok_iff.mp (seekStream_eq_ok_iff.mp hseek)
    exact ⟨hin, rfl, rfl, rfl, fun _ _ => rfl⟩
  | tell =>
    cases h
    exact ⟨trivial, rfl, rfl, rfl, fun _ _ => rfl⟩
  | readAt offset length =>
    obtain ⟨bytes, hread, hrest⟩ := bind_eq_ok_iff.mp h
    cases hrest
    obtain ⟨hle, rfl⟩ := hv.readAt_ok hread
    exact ⟨hle, rfl, rfl, rfl, fun _ _ => rfl⟩
  | write patch =>
    obtain ⟨⟨moved, written⟩, hwrite, hrest⟩ := bind_eq_ok_iff.mp h
    cases hrest
    obtain ⟨hstore, rfl⟩ := write_eq_ok_iff.mp hwrite
    obtain ⟨hle, hmedia⟩ := hv.bare.writeAt_eq_ok_iff.mp hstore
    obtain ⟨hmedium, hothers⟩ := Media.get_of_write hmedia
    exact ⟨⟨(Media.write_isOk_iff.mp ⟨_, hmedia⟩).1, hle⟩, rfl, rfl, hmedium, hothers⟩
  | clone =>
    cases h
    exact ⟨trivial, rfl, rfl, rfl, fun _ _ => rfl⟩
  | subview offset size =>
    obtain ⟨part, hpart, hrest⟩ := bind_eq_ok_iff.mp h
    cases hrest
    obtain ⟨hle, rfl⟩ := subview_eq_ok_iff.mp hpart
    exact ⟨hle, rfl, rfl, rfl, fun _ _ => rfl⟩

/-- **Without faults, an operation succeeds if it is allowed.** -/
theorem exists_run_ok (hv : v.Placed media id) (hfaults : (media.get id).FaultFree)
    (hx : x.Allowed (media.get id).IsWritable v) : ∃ done, x.run media v = .ok done := by
  have hposition := hv.position_le
  have hfits := hv.origin_add_size_le
  have hstream (length : Nat) : ∃ bytes w, v.readStream media length = .ok (bytes, w) := by
    obtain ⟨bytes, hbytes⟩ := hv.exists_readAt hfaults
      (show v.position + min length (v.size - v.position) ≤ v.size by omega)
    exact ⟨bytes, _, readStream_eq_ok_iff.mpr ⟨hbytes, rfl⟩⟩
  cases x with
  | read length =>
    obtain ⟨bytes, hbytes⟩ := hv.exists_readAt hfaults hx
    exact ⟨_, bind_eq_ok_iff.mpr ⟨_, read_eq_ok_iff.mpr ⟨hbytes, rfl⟩, rfl⟩⟩
  | readStream length =>
    obtain ⟨bytes, w, hread⟩ := hstream length
    exact ⟨_, bind_eq_ok_iff.mpr ⟨_, hread, rfl⟩⟩
  | readToEnd =>
    obtain ⟨bytes, w, hread⟩ := hstream (v.size - v.position)
    exact ⟨_, bind_eq_ok_iff.mpr ⟨_, hread, rfl⟩⟩
  | seek target => exact ⟨_, bind_eq_ok_iff.mpr ⟨_, seek_eq_ok_iff.mpr ⟨hx, rfl⟩, rfl⟩⟩
  | seekStream target =>
    exact ⟨_, bind_eq_ok_iff.mpr
      ⟨_, seekStream_eq_ok_iff.mpr (seek_eq_ok_iff.mpr ⟨hx, rfl⟩), rfl⟩⟩
  | tell => exact ⟨_, rfl⟩
  | readAt offset length =>
    obtain ⟨bytes, hbytes⟩ := hv.exists_readAt hfaults hx
    exact ⟨_, bind_eq_ok_iff.mpr ⟨_, hbytes, rfl⟩⟩
  | write patch =>
    obtain ⟨hwritable, hle⟩ := hx
    obtain ⟨written, hwritten⟩ := Media.write_isOk_iff.mpr
      ⟨hwritable, (show v.region.origin + v.position + patch.length ≤ (media.get id).size by omega)⟩
    exact ⟨_, bind_eq_ok_iff.mpr ⟨_, write_eq_ok_iff.mpr
      ⟨hv.bare.writeAt_eq_ok_iff.mpr ⟨hle, hwritten⟩, rfl⟩, rfl⟩⟩
  | clone => exact ⟨_, rfl⟩
  | subview offset size =>
    exact ⟨_, bind_eq_ok_iff.mpr ⟨_, subview_eq_ok_iff.mpr ⟨hx, rfl⟩, rfl⟩⟩

/-! What stays as it is. -/

theorem size_medium {writable : Prop} (hv : v.Placed media id) (hx : x.Allowed writable v) :
    (x.medium v (media.get id)).size = (media.get id).size := by
  cases x with
  | write patch =>
    have hfits := hv.origin_add_size_le
    have hle : v.position + patch.length ≤ v.size := hx.2
    exact Medium.size_overwrite (by omega)
  | _ => rfl

theorem isWritable_medium (m : Medium) : (x.medium v m).IsWritable ↔ m.IsWritable := by
  cases x with
  | write patch => exact Medium.isWritable_overwrite
  | _ => rfl

theorem faultFree_medium (m : Medium) : (x.medium v m).FaultFree ↔ m.FaultFree := by
  cases x with
  | write patch => exact Medium.faultFree_overwrite
  | _ => rfl

theorem cursor_le {writable : Prop} (hposition : v.position ≤ v.size) (hx : x.Allowed writable v) :
    x.cursor v ≤ v.size := by
  cases x with
  | read length => exact hx
  | readStream length =>
    rw [cursor]
    omega
  | readToEnd => exact Nat.le_refl _
  | seek target => exact Int.toNat_le.mpr hx.2
  | seekStream target => exact Int.toNat_le.mpr hx.2
  | write patch => exact hx.2
  | tell | readAt | clone | subview => exact hposition

theorem placed_of_mem_views {writable : Prop} {shown : List UInt8} (hv : v.Placed media id)
    (hx : x.Allowed writable v) : ∀ w ∈ (x.reply v shown).views, w.Placed media id := by
  cases x with
  | clone => exact List.forall_mem_singleton.mpr hv
  | subview offset size =>
    have hpart := Region.subregion_eq_ok_iff.mpr ⟨hx, rfl⟩
    exact List.forall_mem_singleton.mpr ⟨.part hv.bare hpart, Nat.zero_le _⟩
  | _ => exact fun w hw => nomatch hw

end Operation

end View

/-! ## Views side by side -/

/-- Media, and the views that have been made. -/
structure Bench where
  media : Media
  views : List View

namespace Bench

variable {media : Media} {id : Nat} {b b' : Bench}

/-- A medium with the view of all of it. -/
def ofMedium (media : Media) (id : Nat) : Bench :=
  ⟨media, [.ofRegion (.medium id (media.get id).size)]⟩

/-- Carries out an operation on one of the views. A view that it makes joins the others; an operation
that fails leaves nothing behind. -/
def step (b : Bench) (i : Fin b.views.length) (x : View.Operation) :
    Except Error View.Reply × Bench :=
  match x.run b.media b.views[i] with
  | .ok (answer, w, media) => (.ok answer, ⟨media, b.views.set i w ++ answer.views⟩)
  | .error e => (.error e, b)

/-- One operation leads from one state to the next. -/
inductive Step : Bench → Bench → Prop where
  | operation (b : Bench) (i : Fin b.views.length) (x : View.Operation) : Step b (b.step i x).2

/-- Views are within their medium, and cursors within their views; the medium has kept its kind and its
size since it was `original`. -/
structure Sound (original : Medium) (id : Nat) (b : Bench) : Prop where
  size_eq : (b.media.get id).size = original.size
  writable_iff : (b.media.get id).IsWritable ↔ original.IsWritable
  faultFree_iff : (b.media.get id).FaultFree ↔ original.FaultFree
  placed : ∀ v ∈ b.views, v.Placed b.media id

theorem sound_ofMedium (media : Media) (id : Nat) : (ofMedium media id).Sound (media.get id) id :=
  ⟨rfl, .rfl, .rfl, List.forall_mem_singleton.mpr ⟨.medium, Nat.zero_le _⟩⟩

theorem step_eq_ok_iff {i : Fin b.views.length} {x : View.Operation} {answer : View.Reply} :
    b.step i x = (.ok answer, b') ↔ ∃ w media', x.run b.media b.views[i] = .ok (answer, w, media') ∧
      ⟨media', b.views.set i w ++ answer.views⟩ = b' := by
  unfold step
  cases x.run b.media b.views[i] with
  | error e => simp
  | ok result =>
    obtain ⟨answer', w, media'⟩ := result
    constructor
    · intro h
      cases h
      exact ⟨w, media', rfl, rfl⟩
    · rintro ⟨w, media', hrun, rfl⟩
      cases hrun
      rfl

theorem step_eq_error_iff {i : Fin b.views.length} {x : View.Operation} {e : Error} :
    b.step i x = (.error e, b') ↔ x.run b.media b.views[i] = .error e ∧ b = b' := by
  unfold step
  cases x.run b.media b.views[i] with
  | error e => simp
  | ok result => simp

/-- **Views stay within their medium, and cursors within their views**, whatever is done to one of
them. -/
theorem Sound.step {original : Medium} (hb : b.Sound original id) (i : Fin b.views.length)
    (x : View.Operation) : (b.step i x).2.Sound original id := by
  have hv : b.views[i].Placed b.media id := hb.placed _ (List.getElem_mem i.isLt)
  rcases hstep : b.step i x with ⟨result, b'⟩
  cases result with
  | error e =>
    obtain ⟨-, rfl⟩ := step_eq_error_iff.mp hstep
    exact hb
  | ok answer =>
    obtain ⟨w, media, hrun, rfl⟩ := step_eq_ok_iff.mp hstep
    obtain ⟨hallowed, rfl, rfl, hmedium, -⟩ := View.Operation.run_ok hv hrun
    have hsize : (media.get id).size = (b.media.get id).size := by
      rw [hmedium]
      exact View.Operation.size_medium hv hallowed
    refine ⟨hsize.trans hb.size_eq, ?_, ?_, ?_⟩
    · show (media.get id).IsWritable ↔ original.IsWritable
      rw [hmedium, View.Operation.isWritable_medium]
      exact hb.writable_iff
    · show (media.get id).FaultFree ↔ original.FaultFree
      rw [hmedium, View.Operation.faultFree_medium]
      exact hb.faultFree_iff
    · -- the view that was used has another cursor, and one may be new
      intro u hu
      refine View.Placed.of_size_eq ?_ hsize
      rcases List.mem_append.mp hu with hold | hnew
      · rcases List.mem_or_eq_of_mem_set hold with hmem | rfl
        · exact hb.placed u hmem
        · exact ⟨hv.bare, View.Operation.cursor_le hv.position_le hallowed⟩
      · exact View.Operation.placed_of_mem_views hv hallowed u hnew

theorem sound_of_steps (h : Relation.ReflTransGen Step (ofMedium media id) b) :
    b.Sound (media.get id) id := by
  induction h with
  | refl => exact sound_ofMedium media id
  | tail _ hstep ih =>
    cases hstep with
    | operation i x => exact ih.step i x

/-- **Every view acts as a cursor of its own on the bytes of its window.** Whatever operations were
carried out, in whatever order, on the view of a whole medium and on views made from it: each view lies
within the medium, which has kept its size, and its cursor lies within the view. Of any operation on it,

* if it succeeds, it was allowed, its answer is what the window shows, its cursor moves as it should and
  no other one does, a view that it makes joins the others, and nothing is written but at the cursor;
* if it fails, nothing changes (only reading to the end may take several reads of a medium with faults);
* if the medium has no faults, it succeeds if and only if it is allowed. -/
theorem view_acts_as_cursor (h : Relation.ReflTransGen Step (ofMedium media id) b)
    (i : Fin b.views.length) :
    b.views[i].position ≤ b.views[i].size ∧
    b.views[i].region.origin + b.views[i].size ≤ (b.media.get id).size ∧
    (b.media.get id).size = (media.get id).size ∧
    (∀ {x answer b'}, b.step i x = (.ok answer, b') →
      x.Allowed (media.get id).IsWritable b.views[i] ∧
      answer = x.reply b.views[i] (b.views[i].window (b.media.get id).bytes) ∧
      b'.views = b.views.set i { b.views[i] with position := x.cursor b.views[i] } ++ answer.views ∧
      b'.media.get id = x.medium b.views[i] (b.media.get id) ∧
      ∀ other ≠ id, b'.media.get other = b.media.get other) ∧
    (∀ {x e b'}, b.step i x = (.error e, b') →
      (media.get id).FaultFree ∨ x ≠ .readToEnd → b' = b) ∧
    ((media.get id).FaultFree → ∀ x, (∃ answer b', b.step i x = (.ok answer, b')) ↔
      x.Allowed (media.get id).IsWritable b.views[i]) := by
  have hb := sound_of_steps h
  have hv : b.views[i].Placed b.media id := hb.placed _ (List.getElem_mem i.isLt)
  refine ⟨hv.position_le, hv.origin_add_size_le, hb.size_eq, ?_, ?_, ?_⟩
  · intro x answer b' hstep
    obtain ⟨w, media', hrun, rfl⟩ := step_eq_ok_iff.mp hstep
    obtain ⟨hallowed, hreply, rfl, hmedium, hothers⟩ := View.Operation.run_ok hv hrun
    rw [hb.writable_iff] at hallowed
    exact ⟨hallowed, hreply, rfl, hmedium, hothers⟩
  · intro x e b' hstep _
    exact (step_eq_error_iff.mp hstep).2.symm
  · intro hfaults x
    rw [← hb.writable_iff]
    constructor
    · rintro ⟨answer, b', hstep⟩
      obtain ⟨w, media', hrun, -⟩ := step_eq_ok_iff.mp hstep
      exact (View.Operation.run_ok hv hrun).allowed
    · intro hallowed
      obtain ⟨⟨answer, w, media'⟩, hrun⟩ :=
        View.Operation.exists_run_ok hv (hb.faultFree_iff.mpr hfaults) hallowed
      exact ⟨answer, _, step_eq_ok_iff.mpr ⟨w, media', hrun, rfl⟩⟩

end Bench

namespace Bench.Specimen

def media : Media := ⟨[.memory [0, 1, 2, 3, 4, 5, 6, 7]]⟩

def root : Region := .medium 0 8

/-- A part and a copy of it, after writing to the part. -/
def shared : Bench :=
  ⟨⟨[.memory [0, 1, 9, 9, 4, 5, 6, 7]]⟩, [⟨root, 0⟩, ⟨.part root 2 4, 2⟩, ⟨.part root 2 4, 0⟩]⟩

theorem steps_shared : Relation.ReflTransGen Step (ofMedium media 0) shared :=
  .tail (.tail (.tail .refl (.operation (ofMedium media 0) ⟨0, by decide⟩ (.subview 2 4)))
    (.operation ⟨media, [⟨root, 0⟩, ⟨.part root 2 4, 0⟩]⟩ ⟨1, by decide⟩ .clone))
    (.operation ⟨media, [⟨root, 0⟩, ⟨.part root 2 4, 0⟩, ⟨.part root 2 4, 0⟩]⟩ ⟨1, by decide⟩
      (.write [9, 9]))

/-- The copy shows what was written, and has its own cursor; a read of the part that leaves its bounds
fails and changes nothing. -/
theorem copy_shows_write :
    Relation.ReflTransGen Step (ofMedium media 0) shared ∧
    (∃ b', shared.step ⟨2, by decide⟩ (.readStream 10) = (.ok (.bytes [9, 9, 4, 5]), b') ∧
      b'.views = [⟨root, 0⟩, ⟨.part root 2 4, 2⟩, ⟨.part root 2 4, 4⟩]) ∧
    ∃ e, shared.step ⟨1, by decide⟩ (.read 3) = (.error e, shared) := by
  obtain ⟨-, -, -, hdone, -, hallowed⟩ := view_acts_as_cursor steps_shared ⟨2, by decide⟩
  obtain ⟨-, -, -, -, hfailed, hrefused⟩ := view_acts_as_cursor steps_shared ⟨1, by decide⟩
  refine ⟨steps_shared, ?_, ?_⟩
  · obtain ⟨answer, b', hstep⟩ := (hallowed trivial (.readStream 10)).mpr trivial
    obtain ⟨-, rfl, hviews, -⟩ := hdone hstep
    exact ⟨b', hstep, hviews⟩
  · have hnot := mt (hrefused trivial (.read 3)).mp (show ¬ 2 + 3 ≤ 4 by decide)
    cases hstep : shared.step ⟨1, by decide⟩ (.read 3) with
    | mk result b' =>
      cases result with
      | ok answer => exact absurd ⟨answer, b', hstep⟩ hnot
      | error e =>
        obtain rfl := hfailed hstep (.inl trivial)
        exact ⟨e, rfl⟩

end Bench.Specimen

end Cartridge
