import Cartridge.Partition.Archive
import Cartridge.Xci.Header

/-!
# Card images

A card image holds a root partition filesystem whose files are partition filesystems themselves. The
header, the root's tables and the list of partitions are read when they are first needed; the
partitions' own tables are not read with them.
-/

namespace Cartridge.Xci

/-- A partition of the card. -/
structure CardPartition where
  /-- None for a name that is not known. -/
  kind : Option PartitionKind
  archive : Partition.Archive .hashed

/-- What is known of a card image. -/
structure Contents where
  header : Header
  /-- Where the header begins. -/
  headerOffset : Nat
  /-- Where the root partition begins. -/
  rootOffset : Nat
  partitions : Catalog String CardPartition

/-- Opens the file of a root entry as a partition. -/
def openPartition (root : Partition.Table .hashed) (view : View)
    (entry : Partition.Entry .hashed) : Traced (String × CardPartition) := do
  let kind := PartitionKind.ofEntryName? entry.name
  if kind.isNone then
    Traced.emit (.debug "Unknown XCI partition" [("name", entry.name)])
  let data ← root.openEntry view entry
  return (entry.name, ⟨kind, .ofView data⟩)

/-- Opens the files of root entries as partitions. -/
def openPartitions (root : Partition.Table .hashed) (view : View) :
    List (Partition.Entry .hashed) → Traced (List (String × CardPartition))
  | [] => return []
  | entry :: rest => do
    let p ← openPartition root view entry
    let others ← openPartitions root view rest
    return p :: others

/-- The bytes where the header of an image without key area has its magic; zeros where they cannot be
read. -/
def foundMagic (region : Region) (media : Media) : List UInt8 :=
  match region.readAt media magicOffset 4 with
  | .ok bytes => bytes
  | .error _ => List.replicate 4 0

/-- Reads the header and the root partition of a card image. -/
def Contents.read (view : View) (media : Media) : Traced Contents :=
  match headerOffset? view.region media with
  | none => Traced.fail (.invalidMagic .xci (foundMagic view.region media))
  | some headerOffset => do
    Traced.emit (.trace "Found XCI header" [("header_offset", toString headerOffset)])
    let header ← Header.layout.decodeAt (view.region.streamAt media) headerOffset
    Traced.emit (.trace "Read XCI header"
      [("rom_size", RomSize.describe? header.romSize?),
        ("package_id", Hex.paddedUpper 16 header.packageId.toNat),
        ("hfs0_offset", Hex.paddedUpper 12 header.rootOffset.toNat)])
    let rootOffset := headerOffset + header.rootOffset.toNat
    if view.size ≤ rootOffset then
      Traced.fail
        (.truncated (.rootPartition headerOffset header.rootOffset.toNat view.size))
    else
      let rootView ← view.subview rootOffset (view.size - rootOffset)
      let root ← Partition.Table.read .hashed rootView.region media
      let partitions ← openPartitions root rootView (root.entries.entries.map Prod.snd)
      return ⟨header, headerOffset, rootOffset, .ofList partitions⟩

/-- A card image. -/
structure Image where
  view : View
  slot : Slot Contents

namespace Image

/-- A view taken for a card image; nothing has been read. -/
def ofView (view : View) : Image := ⟨view, .unparsed⟩

/-- Whether the contents have been read. -/
def isParsed (i : Image) : Bool := i.slot.isParsed

/-- Whether the header's magic is found. -/
def isValid (i : Image) (media : Media) : Bool := (headerOffset? i.view.region media).isSome

/-- The contents. -/
def contents (media : Media) : Access Image Contents := fun i =>
  let (answer, slot) := Slot.force (fun _ => Contents.read i.view media) i.slot
  (answer, { i with slot := slot })

/-- Reads the contents if that has not been done. -/
def parse (media : Media) : Access Image Unit := do
  let _ ← contents media
  return ()

/-- The names of the partitions. -/
def listFiles (media : Media) : Access Image (List String) := do
  let c ← contents media
  return c.partitions.keys

/-- The partition with the given name. -/
def partition (media : Media) (name : String) : Access Image (Partition.Archive .hashed) := do
  let c ← contents media
  match c.partitions.find? name with
  | some p => return p.archive
  | none => Access.fail (.partitionNotFound name)

/-- Replaces the partition with the given name. -/
def setPartition (name : String) (archive : Partition.Archive .hashed) :
    Access Image Unit := fun i =>
  let replace := fun c : Contents =>
    { c with partitions := c.partitions.modify name fun p => { p with archive := archive } }
  (pure (), { i with slot := i.slot.modify replace })

/-- Operates on the partition with the given name. -/
def onPartition {α : Type} (media : Media) (name : String)
    (operation : Access (Partition.Archive .hashed) α) : Access Image α := do
  let p ← partition media name
  let (answer, p') := operation p
  setPartition name p'
  answer

/-- The data of the partition with the given name. -/
def openFile (media : Media) (name : String) : Access Image View := do
  let p ← partition media name
  return p.view

/-- Compares the hash of the root partition's tables with the one in the header. -/
def verifyRootHeader (media : Media) : Access Image Unit := do
  let c ← contents media
  let i ← Access.get
  let size := c.header.rootHeaderSize.toNat
  let root ← (i.view.subview c.rootOffset size : Traced View)
  let actual ← (Partition.hashOfPrefix root.region media size : Traced (Bytes 32))
  if actual = c.header.rootHeaderHash then
    return ()
  else
    Traced.emit (.warn "Root HFS0 header hash mismatch"
      [("expected", Hex.encode c.header.rootHeaderHash.toList),
        ("actual", Hex.encode actual.toList)])
    Access.fail (.hashMismatch "root HFS0 header")

end Image

end Cartridge.Xci
