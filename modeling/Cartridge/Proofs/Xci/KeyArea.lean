import Cartridge.Proofs.Displacement
import Cartridge.Proofs.Xci.Calls

/-!
# Dumps with and without key area

A full dump of a card is a trimmed one behind the card's key area. Both are read alike: the header, the
root and the partitions are the same, or the error is of the same kind, and the only difference is that
whatever is found begins behind the key area. All places in a card image are added to the place of the
header, so the key area is counted once in each of them, also in the checks against the end of the image.

A call is made on both dumps and goes in parallel, so after any calls both dumps are still alike.

Results:
* `Dumps.likewise_read`: the contents are read alike.
* `Image.parallel_run`: calls on the images go in parallel.
* `Dumps.answers_alike`: after any calls, any call answers alike.
-/

namespace Cartridge.Xci

variable {media media' : Media} {distance : Int} {image bytes : List UInt8} {keyArea : Bytes keyAreaSize}
  {view view' : View}

/-! ## Two dumps -/

/-- A trimmed dump and a full one. Both hold the same image, the full one behind a key area, so things in
the full dump are at a distance from where they are in the trimmed one. The magic is where a trimmed dump
has it, and the key area has none there. -/
structure Dumps (media media' : Media) (distance : Int) (image : List UInt8)
    (keyArea : Bytes keyAreaSize) (view view' : View) : Prop where
  trimmed : view.region.Holds media image
  full : view'.region.Holds media' (keyArea.toList ++ image)
  hasMagic : slice? image magicOffset 4 = some magic
  noMagic : slice? keyArea.toList magicOffset 4 ≠ some magic
  distance_eq : view.parentOffset + distance = view'.parentOffset + keyAreaSize

theorem hasMagicAt_iff {region : Region} (hr : region.Holds media bytes) {base : Nat} :
    hasMagicAt region media base = true ↔ slice? bytes (base + magicOffset) 4 = some magic := by
  unfold hasMagicAt
  by_cases hle : base + magicOffset + 4 ≤ bytes.length
  · rw [hr.readAt_eq hle, slice?_of_le hle]
    simp
  · rw [hr.readAt_of_lt (Nat.not_le.mp hle), slice?, if_neg hle]
    simp

namespace Dumps

variable (h : Dumps media media' distance image keyArea view view')

include h

theorem headerOffset?_trimmed : headerOffset? view.region media = some 0 := by
  have hmagic : hasMagicAt view.region media 0 = true := by
    rw [hasMagicAt_iff h.trimmed, Nat.zero_add]
    exact h.hasMagic
  unfold headerOffset?
  rw [if_pos hmagic]

theorem headerOffset?_full : headerOffset? view'.region media' = some keyAreaSize := by
  have hfirst : ¬ hasMagicAt view'.region media' 0 = true := by
    have hinside : magicOffset + 4 ≤ keyArea.toList.length := by
      rw [keyArea.length_toList]
      decide
    rw [hasMagicAt_iff h.full, Nat.zero_add, slice?_append_left _ hinside]
    exact h.noMagic
  have hsecond : hasMagicAt view'.region media' keyAreaSize = true := by
    have happend := slice?_append_right keyArea.toList image magicOffset 4
    rw [keyArea.length_toList] at happend
    rw [hasMagicAt_iff h.full, happend]
    exact h.hasMagic
  unfold headerOffset?
  rw [if_neg hfirst, if_pos hsecond]

theorem size_full : view'.size = keyAreaSize + view.size := by
  have htrimmed : view.size = image.length := h.trimmed.size_eq
  have hfull : view'.size = (keyArea.toList ++ image).length := h.full.size_eq
  rw [htrimmed, hfull, List.length_append, keyArea.length_toList]

/-- The header is decoded from behind the key area as it is without one. -/
theorem likewise_header :
    Likewise Eq (Header.layout.decodeAt (view.region.streamAt media) 0)
      (Header.layout.decodeAt (view'.region.streamAt media') keyAreaSize) := by
  have hroom : keyAreaSize ≤ (keyArea.toList ++ image).length := by
    rw [List.length_append, keyArea.length_toList]
    omega
  have happend := Header.layout.likewise_decodeAt_append keyArea.toList image 0
  rw [keyArea.length_toList] at happend
  rw [h.trimmed.decodeAt_eq _ (Nat.zero_le _), h.full.decodeAt_eq _ hroom]
  exact happend

/-- A part of the trimmed dump is a part of the full one, behind the key area. -/
theorem likewise_subview (offset size : Nat) :
    Likewise (View.Displaced media media' distance) (view.subview offset size)
      (view'.subview (keyAreaSize + offset) size) := by
  have hsize := h.size_full
  by_cases hle : offset + size ≤ view.size
  · have hle' : keyAreaSize + offset + size ≤ view'.size := by omega
    rw [View.subview_eq_ok_iff.mpr ⟨hle, rfl⟩, View.subview_eq_ok_iff.mpr ⟨hle', rfl⟩]
    have htrimmed := h.trimmed.part hle
    have hfull := h.full.part hle'
    rw [slice_append_right keyArea.length_toList] at hfull
    refine .ok ⟨rfl, .of_holds htrimmed hfull, ?_⟩
    have hdistance := h.distance_eq
    show ((view'.parentOffset + (keyAreaSize + offset) : Nat) : Int)
      = (view.parentOffset + offset : Nat) + distance
    omega
  · rw [View.subview_of_not_le hle, View.subview_of_not_le (by omega)]
    exact .error rfl

end Dumps

/-! ## Contents -/

/-- Partitions of one kind that show the same at a distance. -/
structure CardPartition.Displaced (media media' : Media) (distance : Int) (p p' : CardPartition) :
    Prop where
  kind_eq : p'.kind = p.kind
  archive : Partition.Archive.Displaced .hashed media media' distance p.archive p'.archive

/-- What is found behind a key area, and what is found where there is none: one header and partitions of
the same names and kinds, all behind the key area. -/
structure Contents.Displaced (media media' : Media) (distance : Int) (c c' : Contents) : Prop where
  header_eq : c'.header = c.header
  headerOffset_trimmed : c.headerOffset = 0
  headerOffset_full : c'.headerOffset = keyAreaSize
  rootOffset_eq : c'.rootOffset = keyAreaSize + c.rootOffset
  partitions : Catalog.Related (CardPartition.Displaced media media' distance)
    c.partitions c'.partitions

theorem likewise_openPartition {root : Partition.Table .hashed} {v v' : View}
    (hv : View.Displaced media media' distance v v') (e : Partition.Entry .hashed) :
    Likewise (fun p p' => p'.1 = p.1 ∧ CardPartition.Displaced media media' distance p.2 p'.2)
      (openPartition root v e).result (openPartition root v' e).result := by
  rw [result_openPartition, result_openPartition]
  exact (Partition.Table.likewise_openEntry hv root e).bind fun hdata =>
    .ok ⟨rfl, rfl, Lazy.related_fresh hdata⟩

theorem likewise_openPartitions {root : Partition.Table .hashed} {v v' : View}
    (hv : View.Displaced media media' distance v v') (entries : List (Partition.Entry .hashed)) :
    Likewise
      (List.Forall₂ fun p p' => p'.1 = p.1 ∧ CardPartition.Displaced media media' distance p.2 p'.2)
      (openPartitions root v entries).result (openPartitions root v' entries).result := by
  induction entries with
  | nil => exact .ok .nil
  | cons e rest ih =>
    rw [openPartitions, openPartitions, Traced.result_bind, Traced.result_bind]
    refine (likewise_openPartition hv e).bind fun hp => ?_
    rw [Traced.result_bind, Traced.result_bind]
    exact ih.bind fun hothers => .ok (.cons hp hothers)

/-- Reading from behind a magic that has been found. -/
theorem Contents.result_read {headerOffset : Nat} {view : View}
    (hoffset : headerOffset? view.region media = some headerOffset) :
    (Contents.read view media).result =
      Header.layout.decodeAt (view.region.streamAt media) headerOffset >>= fun header =>
        let rootOffset := headerOffset + header.rootOffset.toNat
        if view.size ≤ rootOffset then
          .error (.truncated (.rootPartition headerOffset header.rootOffset.toNat view.size))
        else
          view.subview rootOffset (view.size - rootOffset) >>= fun rootView =>
            (Partition.Table.read .hashed rootView.region media).result >>= fun root =>
              (openPartitions root rootView (root.entries.entries.map Prod.snd)).result >>= fun ps =>
                .ok ⟨header, headerOffset, rootOffset, .ofList ps⟩ := by
  unfold Contents.read
  rw [hoffset]
  simp only [Traced.result_bind, Traced.result_emit, Traced.result_liftM, ok_bind]
  congr 1
  funext header
  split
  · rfl
  · simp only [Traced.result_bind, Traced.result_liftM, Traced.result_pure]

/-- **Both dumps are read alike.** -/
theorem Dumps.likewise_read (h : Dumps media media' distance image keyArea view view') :
    Likewise (Contents.Displaced media media' distance) (Contents.read view media).result
      (Contents.read view' media').result := by
  have hsize := h.size_full
  rw [Contents.result_read h.headerOffset?_trimmed, Contents.result_read h.headerOffset?_full]
  refine h.likewise_header.bind_eq fun header => ?_
  rw [Nat.zero_add]
  dsimp only
  by_cases hend : view.size ≤ header.rootOffset.toNat
  · rw [if_pos hend, if_pos (by omega)]
    exact .error rfl
  · have hrest : view'.size - (keyAreaSize + header.rootOffset.toNat)
        = view.size - header.rootOffset.toNat := by omega
    rw [if_neg hend, if_neg (by omega), hrest]
    refine (h.likewise_subview _ _).bind fun {root root'} hroot => ?_
    have htable := Likewise.of_eq (congrArg Traced.result (hroot.alike.readTable_eq (F := .hashed)))
    refine htable.bind_eq fun t => ?_
    refine (likewise_openPartitions hroot _).bind fun hps => ?_
    exact .ok ⟨rfl, rfl, rfl, rfl, Catalog.related_ofList hps⟩

/-! ## Images -/

namespace Image

variable {α : Type}

/-- Images of two dumps, of which neither has been read, or both have been and their contents are
alike. -/
abbrev Displaced (media media' : Media) (distance : Int) (image : List UInt8)
    (keyArea : Bytes keyAreaSize) : Image → Image → Prop :=
  parts.Related (Dumps media media' distance image keyArea) (Contents.Displaced media media' distance)

/-- How the answers of a call on the images of two dumps are related: views and archives are at a
distance, what is read off the contents is read off contents that are alike, and anything else is
equal. -/
def Call.Answers (media media' : Media) (distance : Int) : Call α → α → α → Prop
  | contents read => fun a a' =>
    ∃ c c', Contents.Displaced media media' distance c c' ∧ a = read c ∧ a' = read c'
  | partition _ => Partition.Archive.Displaced .hashed media media' distance
  | openFile _ => View.Displaced media media' distance
  | onPartition _ x => x.Answers (View.Displaced media media' distance)
  | _ => Eq

theorem parallel_contents :
    Access.Parallel (Displaced media media' distance image keyArea)
      (Contents.Displaced media media' distance) (contents media) (contents media') :=
  Lazy.parallel_force Dumps.likewise_read

theorem parallel_partition (name : String) :
    Access.Parallel (Displaced media media' distance image keyArea)
      (Partition.Archive.Displaced .hashed media media' distance) (partition media name)
      (partition media' name) := by
  refine parallel_contents.bind fun {c c'} hc => ?_
  have hfind := hc.partitions.find? name
  cases hp : c.partitions.find? name <;> cases hp' : c'.partitions.find? name <;>
    rw [hp, hp'] at hfind <;> cases hfind
  · exact .fail _
  · rename_i hp
    exact .pure hp.archive

theorem parallel_setPartition (name : String) {a a' : Partition.Archive .hashed}
    (ha : Partition.Archive.Displaced .hashed media media' distance a a') :
    Access.Parallel (Displaced media media' distance image keyArea) Eq (setPartition name a)
      (setPartition name a') := by
  refine ⟨fun _ => .ok rfl, fun {i i'} hi => ⟨hi.view, ?_⟩⟩
  have hslot : Slot.Related _ i.slot i'.slot := hi.slot
  show Slot.Related _ (i.slot.modify _) (i'.slot.modify _)
  generalize i.slot = s at hslot
  generalize i'.slot = s' at hslot
  cases hslot with
  | unparsed => exact .unparsed
  | parsed hc =>
    exact .parsed { hc with partitions := hc.partitions.modify name fun hp => ⟨hp.kind_eq, ha⟩ }

theorem parallel_verifyRootHeader :
    Access.Parallel (Displaced media media' distance image keyArea) Eq (verifyRootHeader media)
      (verifyRootHeader media') := by
  refine parallel_contents.bind fun {c c'} hc => ?_
  refine Access.Parallel.get.bind fun {i i'} hi => ?_
  rw [hc.header_eq, hc.rootOffset_eq]
  refine (Access.Parallel.liftM (hi.view.likewise_subview _ _)).bind fun hroot => ?_
  refine (Access.Parallel.liftM (.of_eq (hroot.alike.hashOfPrefix_eq _))).bind_eq fun actual => ?_
  split
  · exact .pure rfl
  · exact (Access.Parallel.liftM (.of_eq rfl)).bind_eq fun _ => .fail _

/-- **Calls on the images of two dumps go in parallel.** -/
theorem parallel_run (x : Call α) :
    Access.Parallel (Displaced media media' distance image keyArea) (x.Answers media media' distance)
      (x.run media) (x.run media') := by
  cases x with
  | isParsed => exact .ask fun hi => .ok hi.slot.isParsed_eq.symm
  | isValid =>
    refine .ask fun {i i'} hi => .of_eq ?_
    have htrimmed : i.isValid media = true := congrArg Option.isSome hi.view.headerOffset?_trimmed
    have hfull : i'.isValid media' = true := congrArg Option.isSome hi.view.headerOffset?_full
    rw [htrimmed, hfull]
  | parse => exact parallel_contents.bind fun _ => .pure rfl
  | contents read => exact parallel_contents.bind fun hc => .pure ⟨_, _, hc, rfl, rfl⟩
  | listFiles => exact parallel_contents.bind fun hc => .pure hc.partitions.keys_eq.symm
  | partition name => exact parallel_partition name
  | openFile name => exact (parallel_partition name).bind fun hp => .pure hp.view
  | verifyRootHeader => exact parallel_verifyRootHeader
  | onPartition name x =>
    refine (parallel_partition name).bind fun hp => ?_
    have hstates := (Partition.Archive.parallel_run x).states hp
    have hanswers := (Partition.Archive.parallel_run x).answers hp
    exact (parallel_setPartition name hstates).bind_eq fun _ => .liftM hanswers

/-- The images of two dumps are alike after any calls. -/
theorem displaced_after (calls : List (Σ α : Type, Call α)) {i i' : Image}
    (hi : Displaced media media' distance image keyArea i i') :
    Displaced media media' distance image keyArea (kind.after (calls.map (media, ·)) i)
      (kind.after (calls.map (media', ·)) i') := by
  induction calls generalizing i i' with
  | nil => exact hi
  | cons call rest ih =>
    obtain ⟨β, x⟩ := call
    exact ih ((parallel_run x).states hi)

end Image

/-- **Full and trimmed dumps are read alike**: the contents are alike or the errors of one kind, and
after any calls, any call answers alike on both images. -/
theorem Dumps.answers_alike (h : Dumps media media' distance image keyArea view view') :
    Likewise (Contents.Displaced media media' distance) (Contents.read view media).result
        (Contents.read view' media').result ∧
      ∀ (calls : List (Σ α : Type, Image.Call α)) {α : Type} (x : Image.Call α),
        Likewise (x.Answers media media' distance)
          ((x.run media).outcome (Image.kind.after (calls.map (media, ·)) (.ofView view))).1
          ((x.run media').outcome (Image.kind.after (calls.map (media', ·)) (.ofView view'))).1 :=
  ⟨h.likewise_read, fun calls _ x =>
    (Image.parallel_run x).answers (Image.displaced_after calls (Lazy.related_fresh h))⟩

end Cartridge.Xci

/-! ## A dump of two partitions -/

namespace Cartridge.Xci.Specimen

def keyAreaOfZeros : Bytes keyAreaSize := Bytes.zero keyAreaSize

def fullBytes : List UInt8 := keyAreaOfZeros.toList ++ bytes

def fullMedia : Media := ⟨[.memory fullBytes]⟩

def fullView : View := .ofRegion (.medium 0 fullBytes.length)

theorem addressable_fullBytes : fullBytes.length < UInt64.size := by
  have hdata : (Partition.dataBytes parts.files).length = Partition.Packed.parts.image.length + 2 := by
    simp [parts, Partition.dataBytes]
  rw [fullBytes, List.length_append, keyAreaOfZeros.length_toList, length_bytes,
    Partition.Parts.length_image, hdata, Partition.Parts.length_image]
  decide

theorem noMagic_zeros : slice? keyAreaOfZeros.toList magicOffset 4 ≠ some magic := by
  intro h
  have hslice := (slice?_eq_some_iff.mp h).2
  have hfirst : (0x48 : UInt8) ∈ magic := List.mem_cons_self
  rw [hslice] at hfirst
  have hzero : (0x48 : UInt8) = 0 :=
    List.eq_of_mem_replicate (List.mem_of_mem_drop (List.mem_of_mem_take hfirst))
  exact absurd hzero (by decide)

theorem holds_fullView : fullView.region.Holds fullMedia fullBytes :=
  Region.holds_memory rfl addressable_fullBytes

theorem dumps : Dumps media fullMedia keyAreaSize bytes keyAreaOfZeros image.view fullView where
  trimmed := holds_region
  full := holds_fullView
  hasMagic := slice?_encode_magic header parts.image
  noMagic := noMagic_zeros
  distance_eq := by
    have htrimmed : image.view.parentOffset = 0 := rfl
    have hfull : fullView.parentOffset = 0 := rfl
    rw [htrimmed, hfull]

/-- A trimmed dump of two partitions, and the same dump behind a key area of zeros. -/
theorem contents_behind_key_area :
    Dumps media fullMedia keyAreaSize bytes keyAreaOfZeros image.view fullView ∧
      ∃ c c', (Contents.read image.view media).result = .ok c ∧
        (Contents.read fullView fullMedia).result = .ok c' ∧
          Contents.Displaced media fullMedia keyAreaSize c c' := by
  refine ⟨dumps, ?_⟩
  obtain ⟨c, hc⟩ := read_media
  have halike := dumps.answers_alike.1
  rw [hc] at halike
  generalize hc' : (Contents.read fullView fullMedia).result = r at halike
  cases halike with
  | ok h => exact ⟨c, _, hc, rfl, h⟩

end Cartridge.Xci.Specimen
