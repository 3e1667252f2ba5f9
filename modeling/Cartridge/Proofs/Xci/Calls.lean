import Cartridge.Proofs.Partition.Calls
import Cartridge.Proofs.RomFs.Calls
import Cartridge.Proofs.Xci.Partitions

/-!
# The calls on a card image

The first call that asks for a card image's contents reads its header and the tables of its root, and
makes the list of the partitions. A call on a partition goes on with the partition, which is a lazily
read container itself: what it finds out stays with the partition, and neither moves it nor changes
anything else of the image.

Results:
* `Image.asks_or_onPartition`: the calls that ask for the contents.
* `Image.state_onPartition_call`: what a call on a partition leaves behind.
* `Image.lawful_kind`: card images are lazily read containers.
* `reading_is_atomic`: so are partition filesystems and directory tree images, and for all of them
  reading is atomic and what has been read is stable.
-/

namespace Cartridge.Xci

/-! ## What stays of the contents -/

/-- What is fixed of contents that have been read: everything but the tables of partitions that have not
been read themselves. -/
structure Contents.Fixed (c c' : Contents) : Prop where
  header_eq : c'.header = c.header
  headerOffset_eq : c'.headerOffset = c.headerOffset
  rootOffset_eq : c'.rootOffset = c.rootOffset
  keys_eq : c'.partitions.keys = c.partitions.keys
  partition : ∀ {name p}, c.partitions.find? name = some p →
    ∃ p', c'.partitions.find? name = some p' ∧ p'.kind = p.kind ∧
      (Partition.Archive.parts .hashed).Later p.archive p'.archive

theorem Contents.Fixed.refl (c : Contents) : c.Fixed c :=
  ⟨rfl, rfl, rfl, rfl, fun h => ⟨_, h, rfl, .refl _⟩⟩

theorem Contents.Fixed.trans {c c' c'' : Contents} (h : c.Fixed c') (h' : c'.Fixed c'') :
    c.Fixed c'' where
  header_eq := h'.header_eq.trans h.header_eq
  headerOffset_eq := h'.headerOffset_eq.trans h.headerOffset_eq
  rootOffset_eq := h'.rootOffset_eq.trans h.rootOffset_eq
  keys_eq := h'.keys_eq.trans h.keys_eq
  partition := by
    intro name p hp
    obtain ⟨p', hp', hkind, hlater⟩ := h.partition hp
    obtain ⟨p'', hp'', hkind', hlater'⟩ := h'.partition hp'
    exact ⟨p'', hp'', hkind'.trans hkind, hlater.trans hlater'⟩

/-- To know more of one partition changes nothing that is fixed. -/
theorem Contents.fixed_modify {c : Contents} {name : String} {p : CardPartition}
    {archive : Partition.Archive .hashed} (hp : c.partitions.find? name = some p)
    (h : (Partition.Archive.parts .hashed).Later p.archive archive) :
    c.Fixed { c with partitions := c.partitions.modify name fun q => { q with archive := archive } } where
  header_eq := rfl
  headerOffset_eq := rfl
  rootOffset_eq := rfl
  keys_eq := Catalog.keys_modify _ _ _
  partition := by
    intro other q hq
    rw [Catalog.find?_modify]
    by_cases hname : other = name
    · subst hname
      rw [hp] at hq
      cases hq
      refine ⟨{ p with archive := archive }, ?_, rfl, h⟩
      rw [if_pos rfl, hp]
      rfl
    · exact ⟨q, by rw [if_neg hname, hq], rfl, .refl _⟩

namespace Image

variable {α : Type} {media media' : Media} {view : View} {c : Contents} {name : String}

/-- An image holds a view and its contents. -/
def parts : Lazy Image Contents where
  view := Image.view
  slot := Image.slot
  build := Image.mk
  read v media := Contents.read v media
  view_build _ _ := rfl
  slot_build _ _ := rfl
  build_view_slot _ := rfl

/-- The calls on an image, by the type of what they answer. The accessors of single parts of the contents
are calls that read these off. -/
inductive Call : Type → Type 1 where
  | isParsed : Call Bool
  | isValid : Call Bool
  | parse : Call Unit
  | contents {α : Type} (read : Contents → α) : Call α
  | listFiles : Call (List String)
  | partition (name : String) : Call (Partition.Archive .hashed)
  | openFile (name : String) : Call View
  | verifyRootHeader : Call Unit
  | onPartition {α : Type} (name : String) (x : Partition.Archive.Call .hashed α) : Call α

namespace Call

/-- Makes a call. -/
def run (media : Media) : Call α → Access Image α
  | isParsed => Access.ask fun i => pure i.isParsed
  | isValid => Access.ask fun i => pure (i.isValid media)
  | parse => Image.parse media
  | contents read => do
    let c ← Image.contents media
    return read c
  | listFiles => Image.listFiles media
  | partition name => Image.partition media name
  | openFile name => Image.openFile media name
  | verifyRootHeader => Image.verifyRootHeader media
  | onPartition name x => Image.onPartition media name (x.run media)

/-- Whether the call asks for the contents. -/
def asks : Call α → Bool
  | isParsed | isValid => false
  | _ => true

/-- What a call on a partition reads of it. -/
def partitionReads (c : Contents) (name : String) (x : Partition.Archive.Call .hashed α) : List Region :=
  match c.partitions.find? name with
  | some p => x.reads p.archive
  | none => []

/-- What a call reads on an image with these contents: the places of the magic, the tables of the root to
hash, or what a call on a partition reads of the partition. -/
def looks : Call α → View → Contents → List Region
  | isValid, v, _ =>
    [.part v.region magicOffset 4, .part v.region (keyAreaSize + magicOffset) 4]
  | verifyRootHeader, v, c => [.part v.region c.rootOffset c.header.rootHeaderSize.toNat]
  | onPartition name x, _, c => partitionReads c name x
  | _, _, _ => []

end Call

/-! ## The calls that ask for the contents -/

theorem asks_contents : parts.Asks media (contents media) := Lazy.asks_force

theorem asks_partition (name : String) : parts.Asks media (partition media name) := by
  refine asks_contents.bind fun c _ _ => ?_
  cases c.partitions.find? name <;> rfl

theorem asks_verifyRootHeader : parts.Asks media (verifyRootHeader media) := by
  refine asks_contents.bind fun c _ _ => ?_
  refine .bind rfl fun i => (Access.idle_liftM _ _).bind fun root => ?_
  refine (Access.idle_liftM _ _).bind fun actual => ?_
  split
  · exact Access.idle_pure _ _
  · exact (Access.idle_liftM _ _).bind fun _ => rfl

/-- A call that asks for the contents changes nothing else, unless it is a call on a partition. -/
theorem asks_or_onPartition (x : Call α) (hx : x.asks = true) :
    (∀ media, parts.Asks media (x.run media)) ∨
      ∃ name, ∃ y : Partition.Archive.Call .hashed α, x = .onPartition name y := by
  cases x with
  | isParsed => cases hx
  | isValid => cases hx
  | parse => exact .inl fun _ => asks_contents.bind fun _ _ _ => rfl
  | contents read => exact .inl fun _ => asks_contents.bind fun _ _ _ => rfl
  | listFiles => exact .inl fun _ => asks_contents.bind fun _ _ _ => rfl
  | partition name => exact .inl fun _ => asks_partition name
  | openFile name => exact .inl fun _ => (asks_partition name).bind fun _ _ _ => rfl
  | verifyRootHeader => exact .inl fun _ => asks_verifyRootHeader
  | onPartition name y => exact .inr ⟨name, y, rfl⟩

theorem idle_run (x : Call α) (hx : x.asks = false) (i : Image) : (x.run media).Idle i := by
  cases x with
  | isParsed => rfl
  | isValid => rfl
  | _ => cases hx

/-! ## Calls on partitions -/

theorem outcome_onPartition_of_error {operation : Access (Partition.Archive .hashed) α} {e : Error}
    {i i' : Image} (h : (partition media name).outcome i = (.error e, i')) :
    (onPartition media name operation).outcome i = (.error e, i') := by
  rw [onPartition, Access.outcome_bind, h]

/-- What a call on a partition leaves behind, once the contents are there. -/
theorem state_onPartition_call {i : Image} (x : Partition.Archive.Call .hashed α)
    (hcontents : (contents media).outcome i = (.ok c, parts.parsed view c)) :
    ∃ c', ((onPartition media name (x.run media)).outcome i).2 = parts.parsed view c' ∧
      c.Fixed c' := by
  cases hfind : c.partitions.find? name with
  | none =>
    rw [onPartition, Access.outcome_bind,
      outcome_partition_of_not_mem hcontents (Catalog.not_mem_keys_iff.mpr hfind)]
    exact ⟨c, rfl, .refl c⟩
  | some p =>
    rw [state_onPartition hcontents hfind]
    exact ⟨_, rfl, Contents.fixed_modify hfind (Partition.Archive.later_run media x p.archive)⟩

theorem partition_parsed (media : Media) (view : View) (c : Contents) (name : String) :
    partition media name (parts.parsed view c) =
      (match c.partitions.find? name with
        | some p => pure p.archive
        | none => Traced.fail (.partitionNotFound name), parts.parsed view c) := by
  have hcontents : contents media (parts.parsed view c) = (pure c, parts.parsed view c) := rfl
  unfold partition
  rw [Access.run_bind, hcontents]
  dsimp only [Traced.result_pure]
  cases c.partitions.find? name <;> rfl

theorem onPartition_parsed {x : Partition.Archive.Call .hashed α}
    (h : ∀ r ∈ Call.partitionReads c name x, Region.Alike media media' r r) :
    onPartition media' name (x.run media') (parts.parsed view c)
      = onPartition media name (x.run media) (parts.parsed view c) := by
  unfold onPartition
  refine Access.bind_congr_at (by rw [partition_parsed, partition_parsed]) fun p hp => ?_
  rw [partition_parsed] at hp ⊢
  cases hfind : c.partitions.find? name with
  | none =>
    rw [hfind] at hp
    cases hp
  | some q =>
    rw [hfind] at hp
    cases hp
    unfold Call.partitionReads at h
    rw [hfind] at h
    dsimp only
    rw [Partition.Archive.run_congr h]

/-! ## Card images -/

theorem verifyRootHeader_parsed
    (h : ∀ r ∈ Call.verifyRootHeader.looks view c, Region.Alike media media' r r) :
    verifyRootHeader media' (parts.parsed view c) = verifyRootHeader media (parts.parsed view c) := by
  unfold verifyRootHeader
  refine asks_contents.bind_congr (parts.force_parsed_congr media media' view c) fun c' hc' => ?_
  cases hc'
  refine Access.bind_congr_at rfl fun i hi => ?_
  cases hi
  refine Access.bind_congr_at rfl fun root hroot => ?_
  have halike : Region.Alike media media' root.region root.region := by
    obtain ⟨-, rfl⟩ := View.subview_eq_ok_iff.mp hroot
    exact h _ List.mem_cons_self
  refine Access.bind_congr_at ?_ fun _ _ => rfl
  rw [halike.hashOfPrefix_eq]

theorem isValid_parsed {i : Image}
    (h : ∀ r ∈ Call.isValid.looks i.view c, Region.Alike media media' r r) :
    i.isValid media' = i.isValid media := by
  obtain ⟨hfirst, hsecond⟩ := List.forall_mem_cons.mp h
  have hread := Region.readAt_eq_of_part hfirst
  have hread' := Region.readAt_eq_of_part (hsecond _ List.mem_cons_self)
  unfold isValid headerOffset? hasMagicAt
  rw [Nat.zero_add, hread, hread']

/-- **On an image whose contents have been read, nothing is read but what a call has to look at.** -/
theorem run_parsed {x : Call α} (h : ∀ r ∈ x.looks view c, Region.Alike media media' r r) :
    x.run media' (parts.parsed view c) = x.run media (parts.parsed view c) := by
  have hcontents := parts.force_parsed_congr media media' view c
  cases x with
  | isParsed => rfl
  | isValid =>
    show (pure ((parts.parsed view c).isValid media'), _) = _
    rw [isValid_parsed h]
    rfl
  | verifyRootHeader => exact verifyRootHeader_parsed h
  | onPartition name x => exact onPartition_parsed h
  | parse | contents read | listFiles | partition name =>
    exact asks_contents.bind_congr hcontents fun _ _ => rfl
  | openFile name =>
    exact (asks_partition name).bind_congr (asks_contents.bind_congr hcontents fun _ _ => rfl)
      fun _ _ => rfl

/-- Card images are a kind of lazily read containers. What is fixed of their contents is everything but
what is not known of the partitions. -/
def kind : LazyKind where
  Container := Image
  Tables := Contents
  parts := parts
  Call := Call
  run media x := x.run media
  asks := Call.asks
  looks := Call.looks
  Fixed := Contents.Fixed

theorem lawful_kind : kind.Lawful where
  fixed_refl := Contents.Fixed.refl
  fixed_trans := Contents.Fixed.trans
  idle hx := idle_run _ hx
  refused := by
    intro α media v e x hx hread
    obtain hasks | ⟨name, y, rfl⟩ := asks_or_onPartition x hx
    · exact (hasks media).outcome_fresh_error hread
    · exact outcome_onPartition_of_error ((asks_partition name).outcome_fresh_error hread)
  filled := by
    intro α media v t x hx hread
    obtain hasks | ⟨name, y, rfl⟩ := asks_or_onPartition x hx
    · exact ⟨t, (hasks media).state_fresh hread, .refl t⟩
    · exact state_onPartition_call y (Lazy.outcome_force_fresh hread)
  kept := by
    intro α x hx media v t
    obtain hasks | ⟨name, y, rfl⟩ := asks_or_onPartition x hx
    · exact ⟨t, (hasks media).idle v t, .refl t⟩
    · exact state_onPartition_call y rfl
  blind := run_parsed

end Image

end Cartridge.Xci

namespace Cartridge

/-- **Reading is atomic, and what has been read is stable**, for partition filesystems of both flavors,
directory tree images and card images. -/
theorem reading_is_atomic :
    (∀ F : Partition.Flavor, (Partition.Archive.kind F).Atomic) ∧
      RomFs.Image.kind.Atomic ∧ Xci.Image.kind.Atomic :=
  ⟨fun F => (Partition.Archive.lawful_kind F).atomic, RomFs.Image.lawful_kind.atomic,
    Xci.Image.lawful_kind.atomic⟩

namespace Xci.Specimen

/-- A medium that has gone, and comes back. -/
def attempts : Image.kind.History :=
  [(Media.empty, ⟨Unit, Image.Call.parse⟩), (media, ⟨Unit, Image.Call.parse⟩)]

theorem exists_readAt_empty (offset : Nat) : ∃ e, region.readAt Media.empty offset 4 = .error e := by
  by_cases h : offset + 4 ≤ region.size
  · refine ⟨.outOfBounds offset 4 0, ?_⟩
    unfold Region.readAt
    rw [Region.readWithin_eq _ h, if_neg (by omega)]
    have hslice : slice? ([] : List UInt8) offset 4 = none := if_neg (by simp)
    show Medium.read (.memory []) offset 4 = _
    unfold Medium.read
    dsimp only
    rw [hslice]
    rfl
  · exact ⟨_, Region.readAt_of_not_le _ h⟩

theorem read_empty : ∃ e, (Contents.read image.view Media.empty).result = .error e := by
  have hmagic (base : Nat) : hasMagicAt region Media.empty base = false := by
    obtain ⟨e, he⟩ := exists_readAt_empty (base + magicOffset)
    unfold hasMagicAt
    rw [he]
  have hoffset : headerOffset? image.view.region Media.empty = none := by
    show headerOffset? region Media.empty = none
    unfold headerOffset?
    rw [hmagic, hmagic]
    rfl
  unfold Contents.read
  rw [hoffset]
  exact ⟨_, rfl⟩

theorem read_media : ∃ c, (Contents.read image.view media).result = .ok c := by
  obtain ⟨i', hparse⟩ := outcome_parse_image
  cases hread : (Contents.read image.view media).result with
  | ok c => exact ⟨c, rfl⟩
  | error e =>
    have hasks : Image.parts.Asks media (Image.parse media) := Image.asks_contents.bind fun _ _ _ => rfl
    have houtcome : (Image.parse media).outcome image = (.error e, image) :=
      hasks.outcome_fresh_error hread
    rw [hparse] at houtcome
    cases houtcome

theorem exists_firstRead : ∃ c, Image.kind.firstRead? image.view attempts = some c := by
  obtain ⟨e, hempty⟩ := read_empty
  obtain ⟨c, hread⟩ := read_media
  have hfirst : Image.kind.attempt? image.view (Media.empty, ⟨Unit, Image.Call.parse⟩) = none := by
    show (Contents.read image.view Media.empty).result.toOption = none
    rw [hempty]
    rfl
  have hsecond : Image.kind.attempt? image.view (media, ⟨Unit, Image.Call.parse⟩) = some c :=
    LazyKind.attempt?_eq_some_iff.mpr ⟨rfl, hread⟩
  refine ⟨c, ?_⟩
  unfold LazyKind.firstRead? attempts
  rw [List.findSome?_cons, hfirst, List.findSome?_cons, hsecond]

/-- The contents are read when the medium is there, and stay when it has gone again. -/
theorem contents_survive : ∃ c u, Image.kind.firstRead? image.view attempts = some c ∧
    Image.kind.after (attempts ++ [(Media.empty, ⟨_, Image.Call.listFiles⟩)])
      (Image.parts.fresh image.view) = Image.parts.parsed image.view u ∧ c.Fixed u := by
  obtain ⟨c, hc⟩ := exists_firstRead
  obtain ⟨u, hu, hfixed⟩ := reading_is_atomic.2.2.firstRead hc
  obtain ⟨w, hw, hfixed'⟩ := reading_is_atomic.2.2.lasting hu
    [(Media.empty, ⟨_, Image.Call.listFiles⟩)]
  exact ⟨c, w, hc, hw, hfixed.trans hfixed'⟩

end Xci.Specimen

end Cartridge
