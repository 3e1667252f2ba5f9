import Cartridge.Proofs.Laziness
import Cartridge.RomFs.Image

/-!
# The calls on a directory tree image

An image is walked by the first call that asks for its tree. Once that is done no call reads anything,
except the one that asks whether the image begins as it should.

Results:
* `Image.asks_run`: a call that asks for the tree does so first, and changes nothing else.
* `Image.run_parsed`: on an image that has been walked, nothing is read but what a call has to look at.
* `Image.lawful_kind`: directory tree images are lazily read containers.
-/

namespace Cartridge.RomFs.Image

variable {α : Type} {media media' : Media} {view : View} {t : Tree}

/-- An image holds a view and its tree. -/
def parts : Lazy Image Tree where
  view := Image.view
  slot := Image.slot
  build := Image.mk
  read v media := Tree.read v.region media
  view_build _ _ := rfl
  slot_build _ _ := rfl
  build_view_slot _ := rfl

/-- The calls on an image, by the type of what they answer. The accessors of single parts of the tree,
and the look-ups in it, are calls that read these off. -/
inductive Call : Type → Type 1 where
  | isParsed : Call Bool
  | isValid : Call Bool
  | parse : Call Unit
  | tree {α : Type} (read : Tree → α) : Call α
  | listFiles : Call (List String)
  | file (path : String) : Call File
  | openData (name : String) (dataOffset dataSize : UInt64) : Call View
  | openFile (path : String) : Call View

namespace Call

/-- Makes a call. -/
def run (media : Media) : Call α → Access Image α
  | isParsed => Access.ask fun i => pure i.isParsed
  | isValid => Access.ask fun i => pure (i.isValid media)
  | parse => Image.parse media
  | tree read => do
    let t ← Image.tree media
    return read t
  | listFiles => Image.listFiles media
  | file path => Image.file media path
  | openData name dataOffset dataSize => Image.openData media name dataOffset dataSize
  | openFile path => Image.openFile media path

/-- Whether the call asks for the tree. -/
def asks : Call α → Bool
  | isParsed | isValid => false
  | _ => true

/-- What a call reads on an image that has been walked: the size of the header, or nothing. -/
def looks : Call α → View → Tree → List Region
  | isValid, v, _ => [.part v.region 0 8]
  | _, _, _ => []

end Call

theorem asks_tree : parts.Asks media (tree media) := Lazy.asks_force

theorem asks_file (path : String) : parts.Asks media (file media path) :=
  asks_tree.bind fun _ _ _ => rfl

theorem asks_openData (name : String) (dataOffset dataSize : UInt64) :
    parts.Asks media (openData media name dataOffset dataSize) :=
  asks_tree.bind fun _ _ _ => rfl

theorem asks_run (x : Call α) (hx : x.asks = true) : parts.Asks media (x.run media) := by
  cases x with
  | isParsed => cases hx
  | isValid => cases hx
  | parse => exact asks_tree.bind fun _ _ _ => rfl
  | tree read => exact asks_tree.bind fun _ _ _ => rfl
  | listFiles => exact asks_tree.bind fun _ _ _ => rfl
  | file path => exact asks_file path
  | openData name dataOffset dataSize => exact asks_openData name dataOffset dataSize
  | openFile path => exact (asks_file path).bind fun f => (asks_openData _ _ _).idle

theorem idle_run (x : Call α) (hx : x.asks = false) (i : Image) : (x.run media).Idle i := by
  cases x with
  | isParsed => rfl
  | isValid => rfl
  | _ => cases hx

/-- On an image that has been walked, nothing is read but what a call has to look at. -/
theorem run_parsed {x : Call α} (h : ∀ r ∈ x.looks view t, Region.Alike media media' r r) :
    x.run media' (parts.parsed view t) = x.run media (parts.parsed view t) := by
  have htree := parts.force_parsed_congr media media' view t
  cases x with
  | isParsed => rfl
  | isValid =>
    have hread := Region.readAt_eq_of_part (h _ List.mem_cons_self)
    show (pure (Image.isValid ⟨view, .parsed t⟩ media'), _) = _
    unfold Image.isValid
    rw [hread]
    rfl
  | parse | tree read | listFiles | file path | openData name dataOffset dataSize =>
    exact asks_tree.bind_congr htree fun _ _ => rfl
  | openFile path =>
    refine (asks_file path).bind_congr (asks_tree.bind_congr htree fun _ _ => rfl) fun f _ => ?_
    exact asks_tree.bind_congr htree fun _ _ => rfl

/-- Directory tree images are a kind of lazily read containers. What is fixed of their trees is
everything. -/
def kind : LazyKind where
  Container := Image
  Tables := Tree
  parts := parts
  Call := Call
  run media x := x.run media
  asks := Call.asks
  looks := Call.looks
  Fixed := Eq

theorem lawful_kind : kind.Lawful :=
  .of_asks (fun _ => rfl) Eq.trans (fun hx _ => asks_run _ hx) (fun hx _ => idle_run _ hx) run_parsed

end Cartridge.RomFs.Image
