import Cartridge.Nca.Encryption

/-!
# The sections of a content archive

The sections named in the main header are checked in order: each lies behind the one before it and
within the archive, and the filesystem lies within the section. The result describes everything that
is needed to open them.
-/

namespace Cartridge.Nca

/-- The decrypted headers of an archive. -/
structure Headers where
  main : Header
  version : Version
  /-- The headers of the sections that there are. -/
  sections : Vector (Option SectionHeader) 4

/-- How the bytes of a section are protected. -/
inductive Protection where
  | plain
  /-- XTS with the first two keys of the key area. -/
  | xts
  /-- Counter mode with the third key of the key area. -/
  | counter
  /-- Counter mode with the title key. -/
  | titleCounter
  /-- An encryption that cannot be read. -/
  | unsupported (encryption : EncryptionType)
deriving DecidableEq, Repr

namespace Protection

/-- The protection that an encryption means in an archive with or without a rights ID. -/
def resolve (encryption : EncryptionType) (hasRightsId : Bool) : Protection :=
  match encryption with
  | .plain => plain
  | .xts => xts
  | .counter => if hasRightsId then titleCounter else counter
  | other => unsupported other

/-- The protection's name. -/
def name : Protection → String
  | plain => "None"
  | xts => "Xts"
  | counter => "Ctr"
  | titleCounter => "CtrWithRightsId"
  | unsupported encryption => "Unsupported(" ++ encryption.name ++ ")"

end Protection

/-- Everything that is needed to open a section. -/
structure Descriptor where
  index : Nat
  kind : SectionKind
  protection : Protection
  keyGeneration : UInt8
  /-- Where the section begins in the archive. -/
  start : Nat
  /-- Where the section ends in the archive. -/
  stop : Nat
  /-- Where the filesystem begins in the section. -/
  dataOffset : Nat
  dataSize : Nat
  upperCounter : UInt64
deriving DecidableEq

/-- The size of the section. -/
def Descriptor.size (d : Descriptor) : Nat := d.stop - d.start

/-- Where the filesystem lies in its section. -/
def SectionHeader.dataRegion (h : SectionHeader) : Except Error (UInt64 × UInt64) :=
  match h.kind with
  | .pfs0 => do
    let s ← h.partitionSuperblock
    return (s.dataOffset, s.dataSize)
  | .romFs => do
    let s ← h.integritySuperblock
    return (s.dataLevel.offset, s.dataLevel.size)

/-- Describes a section that may begin at `earliest` and has to end within the archive. -/
def describeSection (main : Header) (archiveSize earliest index : Nat) (entry : SectionEntry)
    (header : SectionHeader) : Except Error Descriptor := do
  let start := entry.startOffset
  let stop := entry.endOffset
  if start < earliest then throw (.invalidData (.sectionOverlap index start))
  if archiveSize < stop then throw (.truncated (.archiveSection index stop archiveSize))
  let (offset, size) ← header.dataRegion
  if stop - start < offset.toNat + size.toNat then
    throw (.invalidData (.sectionRegion index offset.toNat size.toNat))
  return {
    index := index
    kind := header.kind
    protection := .resolve header.encryption main.hasRightsId
    keyGeneration := main.keyGeneration
    start := start
    stop := stop
    dataOffset := offset.toNat
    dataSize := size.toNat
    upperCounter := header.upperCounter }

/-- Describes the sections with the given numbers, bounds and headers. -/
def describeFrom (main : Header) (archiveSize : Nat) :
    (earliest : Nat) → List (Nat × SectionEntry × Option SectionHeader) →
    Except Error (List Descriptor)
  | _, [] => return []
  | earliest, (index, entry, header?) :: rest =>
    match entry.isPopulated, header? with
    | true, some header => do
      let d ← describeSection main archiveSize earliest index entry header
      let others ← describeFrom main archiveSize d.stop rest
      return d :: others
    | _, _ => describeFrom main archiveSize earliest rest

/-- The number, the bounds and the header of each place for a section. -/
def Headers.places (h : Headers) : List (Nat × SectionEntry × Option SectionHeader) :=
  (List.finRange 4).map fun i => (i.val, h.main.entries.get i, h.sections.get i)

/-- Describes the sections of an archive. -/
def Headers.describe (h : Headers) (archiveSize : Nat) : Except Error (List Descriptor) :=
  if h.version = .nca0 then .error (.unsupported .oldSectionHeaders)
  else describeFrom h.main archiveSize headersSize h.places

end Cartridge.Nca
