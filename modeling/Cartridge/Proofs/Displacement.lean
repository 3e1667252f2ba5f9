import Cartridge.Proofs.Likewise
import Cartridge.Proofs.Partition.Calls
import Cartridge.Proofs.Streams

/-!
# Views that show the same at another place

A view may show what another one shows and begin elsewhere in its medium, because something is in front
of it there. Nothing that is read through the one tells it from the other: structures decode alike, and
every call on a partition filesystem answers alike. Only the places of the views that come out of it
differ, and all by the same distance.

Results:
* `Layout.likewise_decodeAt_append`: what is in front of a structure has no part in it.
* `View.Displaced.subview`: parts of such views are displaced by the same distance.
* `Partition.Archive.parallel_run`: calls on archives in such views go in parallel.
-/

namespace Cartridge

/-! ## Bytes in front -/

theorem slice?_append_right (front bytes : List UInt8) (position length : Nat) :
    slice? (front ++ bytes) (front.length + position) length = slice? bytes position length := by
  have hlength : (front ++ bytes).length = front.length + bytes.length := List.length_append
  by_cases h : position + length ≤ bytes.length
  · rw [slice?_of_le h, slice?_of_le (by omega), slice_append_right rfl]
  · unfold slice?
    rw [if_neg h, if_neg (by omega)]

theorem slice?_append_left {front : List UInt8} (bytes : List UInt8) {position length : Nat}
    (h : position + length ≤ front.length) :
    slice? (front ++ bytes) position length = slice? front position length := by
  have hdrop : (front ++ bytes).drop position = front.drop position ++ bytes :=
    List.drop_append_of_le_length (by omega)
  unfold slice?
  rw [List.length_append, if_pos (by omega), if_pos h, hdrop,
    List.take_append_of_le_length (by rw [List.length_drop]; omega)]

theorem Source.ofBytes_append (front bytes : List UInt8) (position length : Nat) :
    Source.ofBytes (front ++ bytes) (front.length + position) length
      = Source.ofBytes bytes position length := by
  unfold Source.ofBytes
  rw [slice?_append_right]

/-- **What is in front of a structure has no part in it**, but for the positions in errors. -/
theorem Layout.likewise_decodeAt_append {α : Type} (layout : Layout α) (front bytes : List UInt8)
    (position : Nat) :
    Likewise Eq (layout.decodeAt (Source.ofBytes bytes) position)
      (layout.decodeAt (Source.ofBytes (front ++ bytes)) (front.length + position)) := by
  have htake (position length : Nat) :
      Likewise Eq (take (Source.ofBytes bytes) position length)
        (take (Source.ofBytes (front ++ bytes)) (front.length + position) length) := by
    refine .of_eq ?_
    unfold take
    rw [Source.ofBytes_append]
  induction layout generalizing position with
  | bytes | word8 | word16 | word32 | word64 => exact (htake _ _).bind_eq fun _ => .ok rfl
  | tag ofByte? =>
    refine (htake _ _).bind_eq fun _ => ?_
    split
    · exact .ok rfl
    · exact .error rfl
  | literal magic =>
    refine (htake _ _).bind_eq fun _ => ?_
    split
    · exact .ok rfl
    · exact .error rfl
  | seq first second ih₁ ih₂ =>
    refine (ih₁ position).bind_eq fun _ => ?_
    rw [Nat.add_assoc]
    exact (ih₂ _).bind_eq fun _ => .ok rfl
  | record build _ _ _ layout ih => exact (ih position).bind_eq fun _ => .ok rfl

/-! ## Views -/

namespace View

variable {media media' : Media} {distance : Int} {v v' : View}

/-- A view that shows what another one shows, at a distance from where that one begins. -/
structure Displaced (media media' : Media) (distance : Int) (v v' : View) : Prop where
  position_eq : v'.position = v.position
  alike : Region.Alike media media' v.region v'.region
  parentOffset_eq : (v'.parentOffset : Int) = v.parentOffset + distance

theorem subview_of_not_le {offset size : Nat} (h : ¬ offset + size ≤ v.size) :
    v.subview offset size = .error (.outOfBounds offset size v.size) := by
  have hregion : ¬ offset + size ≤ v.region.size := h
  unfold subview Region.subregion Region.checkRange
  rw [if_neg hregion]
  rfl

/-- Parts are displaced as the whole is. -/
theorem Displaced.subview (h : Displaced media media' distance v v') (offset size : Nat) :
    Likewise (Displaced media media' distance) (v.subview offset size) (v'.subview offset size) := by
  have hsize : v'.size = v.size := h.alike.size_eq
  by_cases hle : offset + size ≤ v.size
  · rw [subview_eq_ok_iff.mpr ⟨hle, rfl⟩, subview_eq_ok_iff.mpr ⟨hsize ▸ hle, rfl⟩]
    refine .ok ⟨rfl, h.alike.part hle, ?_⟩
    have hbase := h.parentOffset_eq
    show ((v'.parentOffset + offset : Nat) : Int) = (v.parentOffset + offset : Nat) + distance
    omega
  · rw [subview_of_not_le hle, subview_of_not_le (hsize ▸ hle)]
    exact .error rfl

end View

/-! ## Partition filesystems -/

namespace Partition

variable {F : Flavor} {α : Type} {media media' : Media} {distance : Int} {v v' : View}

theorem Table.likewise_openEntry (h : View.Displaced media media' distance v v') (t : Table F)
    (e : Entry F) :
    Likewise (View.Displaced media media' distance) (t.openEntry v e).result
      (t.openEntry v' e).result := by
  rw [Archive.result_openEntry, Archive.result_openEntry]
  exact h.subview _ _

namespace Archive

/-- Archives that show the same at a distance: with the same tables, if these have been read. -/
abbrev Displaced (F : Flavor) (media media' : Media) (distance : Int) : Archive F → Archive F → Prop :=
  (parts F).Related (View.Displaced media media' distance) Eq

/-- How the answers of a call on two archives are related: views by the given relation, anything else by
equality. -/
def Call.Answers (V : View → View → Prop) : {F : Flavor} → {α : Type} → Call F α → α → α → Prop
  | _, _, openEntry _ | _, _, openFile _ => V
  | _, _, openVerified _ => fun a a' => V a.1 a'.1 ∧ a.2 = a'.2
  | _, _, _ => Eq

theorem parallel_table :
    Access.Parallel (Displaced F media media' distance) Eq (table media) (table media') :=
  Lazy.parallel_force fun h => .of_eq (congrArg Traced.result h.alike.readTable_eq)

theorem parallel_entry (name : String) :
    Access.Parallel (Displaced F media media' distance) Eq (entry media name) (entry media' name) := by
  refine parallel_table.bind_eq fun t => ?_
  split
  · exact .pure rfl
  · exact .fail _

theorem parallel_openEntry (e : Entry F) :
    Access.Parallel (Displaced F media media' distance) (View.Displaced media media' distance)
      (openEntry media e) (openEntry media' e) :=
  parallel_table.bind_eq fun t => .ask fun ha => Table.likewise_openEntry ha.view t e

theorem parallel_openFile (name : String) :
    Access.Parallel (Displaced F media media' distance) (View.Displaced media media' distance)
      (openFile media name) (openFile media' name) :=
  (parallel_entry name).bind_eq fun e => parallel_openEntry e

theorem parallel_check (name : String) :
    Access.Parallel (Displaced .hashed media media' distance) Eq (check media name)
      (check media' name) := by
  refine (parallel_entry name).bind_eq fun e => ?_
  refine (parallel_openEntry e).bind fun hfile => ?_
  refine (Access.Parallel.liftM (.of_eq (hfile.alike.hashOfPrefix_eq _))).bind_eq fun actual => ?_
  split
  · exact .pure rfl
  · exact (Access.Parallel.liftM (.of_eq rfl)).bind_eq fun _ => .pure rfl

/-- **Calls on archives that show the same go in parallel.** -/
theorem parallel_run (x : Call F α) :
    Access.Parallel (Displaced F media media' distance)
      (x.Answers (View.Displaced media media' distance)) (x.run media) (x.run media') := by
  cases x with
  | isParsed => exact .ask fun h => .ok h.slot.isParsed_eq.symm
  | isValid =>
    refine .ask fun {a a'} h => .of_eq ?_
    have hread : a'.view.region.readAt media' 0 4 = a.view.region.readAt media 0 4 :=
      h.view.alike.readAt_eq 0 4
    unfold isValid magicOf
    rw [hread]
  | parse => exact parallel_table.bind_eq fun _ => .pure rfl
  | table read => exact parallel_table.bind_eq fun _ => .pure rfl
  | listFiles => exact parallel_table.bind_eq fun _ => .pure rfl
  | entry name => exact parallel_entry name
  | openEntry e => exact parallel_openEntry e
  | openFile name => exact parallel_openFile name
  | check name => exact parallel_check name
  | verify name =>
    refine (parallel_check name).bind_eq fun verification => ?_
    cases verification with
    | valid => exact .pure rfl
    | mismatch _ _ => exact .fail _
  | openVerified name =>
    refine (parallel_check name).bind_eq fun verification => ?_
    exact (parallel_openFile name).bind fun hfile => .pure ⟨hfile, rfl⟩

end Archive

end Partition

end Cartridge
