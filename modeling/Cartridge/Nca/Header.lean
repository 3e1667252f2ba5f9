import Cartridge.Layout

/-!
# The headers of a content archive

A content archive begins with a main header, which names up to four sections, and a header for each
of them. The part of a section header behind its first bytes tells where the filesystem lies in the
section, in one of two forms.
-/

namespace Cartridge.Nca

/-! ## Bytes that stand for something -/

/-- How the content reached the console. -/
inductive Distribution where
  | download
  | gameCard
deriving DecidableEq, Repr

namespace Distribution

/-- The byte of a value. -/
def toByte : Distribution → UInt8
  | download => 0
  | gameCard => 1

/-- The value's name. -/
def name : Distribution → String
  | download => "Download"
  | gameCard => "GameCard"

/-- One byte. -/
def layout : Layout Distribution :=
  .ofValues [download, gameCard] toByte (by intro a; cases a <;> rfl)

end Distribution

/-- What an archive holds. -/
inductive ContentType where
  | program
  | metadata
  | control
  | manual
  | data
  | publicData
deriving DecidableEq, Repr

namespace ContentType

/-- The byte of a value. -/
def toByte : ContentType → UInt8
  | program => 0
  | metadata => 1
  | control => 2
  | manual => 3
  | data => 4
  | publicData => 5

/-- The value's name. -/
def name : ContentType → String
  | program => "Program"
  | metadata => "Meta"
  | control => "Control"
  | manual => "Manual"
  | data => "Data"
  | publicData => "PublicData"

/-- One byte. -/
def layout : Layout ContentType :=
  .ofValues [program, metadata, control, manual, data, publicData] toByte
    (by intro a; cases a <;> rfl)

end ContentType

/-- The filesystem that a section header declares. -/
inductive FilesystemType where
  | romFs
  | partition
deriving DecidableEq, Repr

namespace FilesystemType

/-- The byte of a value. -/
def toByte : FilesystemType → UInt8
  | romFs => 0
  | partition => 1

/-- The value's name. -/
def name : FilesystemType → String
  | romFs => "RomFs"
  | partition => "PartitionFs"

/-- One byte. -/
def layout : Layout FilesystemType :=
  .ofValues [romFs, partition] toByte (by intro a; cases a <;> rfl)

end FilesystemType

/-- How the bytes of a section are hashed. -/
inductive HashType where
  | auto
  | unhashed
  | sha256
  | integrity
  | autoSha3
  | sha3
  | integritySha3
deriving DecidableEq, Repr

namespace HashType

/-- The byte of a value. -/
def toByte : HashType → UInt8
  | auto => 0
  | unhashed => 1
  | sha256 => 2
  | integrity => 3
  | autoSha3 => 4
  | sha3 => 5
  | integritySha3 => 6

/-- The value's name. -/
def name : HashType → String
  | auto => "Auto"
  | unhashed => "None"
  | sha256 => "HierarchicalSha256Hash"
  | integrity => "HierarchicalIntegrityHash"
  | autoSha3 => "AutoSha3"
  | sha3 => "HierarchicalSha3256Hash"
  | integritySha3 => "HierarchicalIntegritySha3Hash"

/-- One byte. -/
def layout : Layout HashType :=
  .ofValues [auto, unhashed, sha256, integrity, autoSha3, sha3, integritySha3] toByte
    (by intro a; cases a <;> rfl)

end HashType

/-- How the bytes of a section are encrypted. -/
inductive EncryptionType where
  | auto
  | plain
  | xts
  | counter
  | counterEx
  | counterSkipLayerHash
  | counterExSkipLayerHash
deriving DecidableEq, Repr

namespace EncryptionType

/-- The byte of a value. -/
def toByte : EncryptionType → UInt8
  | auto => 0
  | plain => 1
  | xts => 2
  | counter => 3
  | counterEx => 4
  | counterSkipLayerHash => 5
  | counterExSkipLayerHash => 6

/-- The value's name. -/
def name : EncryptionType → String
  | auto => "Auto"
  | plain => "None"
  | xts => "AesXts"
  | counter => "AesCtr"
  | counterEx => "AesCtrEx"
  | counterSkipLayerHash => "AesCtrSkipLayerHash"
  | counterExSkipLayerHash => "AesCtrExSkipLayerHash"

/-- One byte. -/
def layout : Layout EncryptionType :=
  .ofValues
    [auto, plain, xts, counter, counterEx, counterSkipLayerHash, counterExSkipLayerHash] toByte
    (by intro a; cases a <;> rfl)

end EncryptionType

/-! ## The main header -/

/-- The unit of section bounds. -/
def mediaBlockSize : Nat := 0x200

/-- The bounds of a section. -/
structure SectionEntry where
  startBlock : UInt32
  endBlock : UInt32
  reserved : UInt64
deriving DecidableEq

namespace SectionEntry

/-- Where the section begins. -/
def startOffset (e : SectionEntry) : Nat := e.startBlock.toNat * mediaBlockSize

/-- Where the section ends. -/
def endOffset (e : SectionEntry) : Nat := e.endBlock.toNat * mediaBlockSize

/-- Whether there is a section at all. -/
def isPopulated (e : SectionEntry) : Bool := e.startBlock < e.endBlock

/-- The layout of the bounds. -/
def layout : Layout SectionEntry :=
  .record (fun (startBlock, endBlock, reserved) => ⟨startBlock, endBlock, reserved⟩)
    (fun e => (e.startBlock, e.endBlock, e.reserved)) (fun _ => rfl) (fun _ => rfl)
    (.seq .word32 (.seq .word32 .word64))

end SectionEntry

/-- The keys that an archive brings along for its sections. -/
structure KeyArea where
  /-- The half of an XTS key that is for data. -/
  data : Bytes 16
  /-- The half of an XTS key that is for tweaks. -/
  tweak : Bytes 16
  /-- The key for counter mode. -/
  counter : Bytes 16
  unused : Bytes 16
deriving DecidableEq

namespace KeyArea

/-- The layout of a key area. -/
def layout : Layout KeyArea :=
  .record (fun (data, tweak, counter, unused) => ⟨data, tweak, counter, unused⟩)
    (fun a => (a.data, a.tweak, a.counter, a.unused)) (fun _ => rfl) (fun _ => rfl)
    (.seq (.bytes 16) (.seq (.bytes 16) (.seq (.bytes 16) (.bytes 16))))

/-- Does the same to every key. -/
def map (f : Bytes 16 → Bytes 16) (a : KeyArea) : KeyArea :=
  ⟨f a.data, f a.tweak, f a.counter, f a.unused⟩

end KeyArea

/-- The main header. -/
structure Header where
  /-- A signature with a fixed key. -/
  signature : Bytes 0x100
  /-- A signature with a key of the program. -/
  programSignature : Bytes 0x100
  magic : Bytes 4
  distribution : Distribution
  contentType : ContentType
  /-- The key generation, if it is small. -/
  oldKeyGeneration : UInt8
  areaKeyIndex : UInt8
  contentSize : UInt64
  programId : UInt64
  contentIndex : UInt32
  sdkVersion : UInt32
  /-- The key generation, if it is not small. -/
  newKeyGeneration : UInt8
  signatureKeyGeneration : UInt8
  reserved : Bytes 14
  rightsId : Bytes 16
  entries : Vector SectionEntry 4
  /-- The hash of each section's header. -/
  sectionHashes : Vector (Bytes 32) 4
  /-- The keys of sections, encrypted. -/
  keyArea : KeyArea

namespace Header

/-- The layout of the main header. -/
def layout : Layout Header :=
  .record
    (fun (a, b, c, d, e, f, g, h, i, j, k, l, m, n, o, p, q, r) =>
      ⟨a, b, c, d, e, f, g, h, i, j, k, l, m, n, o, p, q, r⟩)
    (fun h => (h.signature, h.programSignature, h.magic, h.distribution, h.contentType,
      h.oldKeyGeneration, h.areaKeyIndex, h.contentSize, h.programId, h.contentIndex,
      h.sdkVersion, h.newKeyGeneration, h.signatureKeyGeneration, h.reserved, h.rightsId,
      h.entries, h.sectionHashes, h.keyArea))
    (fun _ => rfl) (fun _ => rfl)
    (.seq (.bytes 0x100) (.seq (.bytes 0x100) (.seq (.bytes 4) (.seq Distribution.layout
      (.seq ContentType.layout (.seq .word8 (.seq .word8 (.seq .word64 (.seq .word64
      (.seq .word32 (.seq .word32 (.seq .word8 (.seq .word8 (.seq (.bytes 14)
      (.seq (.bytes 16) (.seq SectionEntry.layout.four (.seq (Layout.bytes 32).four
      KeyArea.layout)))))))))))))))))

theorem size_layout : layout.size = 0x340 := rfl

/-- The key generation in effect: one less than the greater of the two in the header. -/
def keyGeneration (h : Header) : UInt8 :=
  let greater := max h.oldKeyGeneration h.newKeyGeneration
  if greater = 0 then 0 else greater - 1

/-- Whether the archive is under a title key. -/
def hasRightsId (h : Header) : Bool := !h.rightsId.isZero

/-- The SDK version as four numbers, the major one first. -/
def sdkVersionParts (h : Header) : List UInt8 := Endian.big 4 h.sdkVersion.toNat

end Header

/-! ## Section headers -/

/-- Where a partition filesystem lies in its section. -/
structure PartitionSuperblock where
  masterHash : Bytes 32
  blockSize : UInt32
  layerCount : UInt32
  hashTableOffset : UInt64
  hashTableSize : UInt64
  dataOffset : UInt64
  dataSize : UInt64
deriving DecidableEq

/-- The layout of a partition superblock. -/
def PartitionSuperblock.layout : Layout PartitionSuperblock :=
  .record (fun (a, b, c, d, e, f, g) => ⟨a, b, c, d, e, f, g⟩)
    (fun s => (s.masterHash, s.blockSize, s.layerCount, s.hashTableOffset, s.hashTableSize,
      s.dataOffset, s.dataSize))
    (fun _ => rfl) (fun _ => rfl)
    (.seq (.bytes 32) (.seq .word32 (.seq .word32 (.seq .word64 (.seq .word64 (.seq .word64
      .word64))))))

/-- A level of a hash tree. -/
structure IntegrityLevel where
  offset : UInt64
  size : UInt64
  /-- The base-2 logarithm of the size of its blocks. -/
  blockSizeLog : UInt32
  reserved : UInt32
deriving DecidableEq

/-- The layout of a level. -/
def IntegrityLevel.layout : Layout IntegrityLevel :=
  .record (fun (a, b, c, d) => ⟨a, b, c, d⟩)
    (fun l => (l.offset, l.size, l.blockSizeLog, l.reserved)) (fun _ => rfl) (fun _ => rfl)
    (.seq .word64 (.seq .word64 (.seq .word32 .word32)))

/-- The bytes that an integrity superblock begins with. -/
def integrityMagic : List UInt8 := [0x49, 0x56, 0x46, 0x43]

/-- Where a directory tree image lies in its section: on the last of the levels of a hash tree. -/
structure IntegritySuperblock where
  id : UInt32
  masterHashSize : UInt32
  levelCount : UInt32
  levels : Vector IntegrityLevel 6

namespace IntegritySuperblock

/-- The layout of an integrity superblock. -/
def layout : Layout IntegritySuperblock :=
  .record (fun ((), a, b, c, d) => ⟨a, b, c, d⟩)
    (fun s => ((), s.id, s.masterHashSize, s.levelCount, s.levels)) (fun _ => rfl) (fun _ => rfl)
    (.seq (.literal integrityMagic) (.seq .word32 (.seq .word32 (.seq .word32
      IntegrityLevel.layout.six))))

/-- The level that holds the image. -/
def dataLevel (s : IntegritySuperblock) : IntegrityLevel := s.levels.get 5

end IntegritySuperblock

/-- The two filesystems that a section can hold. -/
inductive SectionKind where
  | pfs0
  | romFs
deriving DecidableEq, Repr

/-- The container format of the kind. -/
def SectionKind.format : SectionKind → Format
  | pfs0 => .pfs0
  | romFs => .romFs

/-- The header of a section. -/
structure SectionHeader where
  version : UInt16
  filesystem : FilesystemType
  hash : HashType
  encryption : EncryptionType
  metadataHash : UInt8
  reserved : Bytes 2
  /-- The superblock, in a form that depends on the filesystem. -/
  superblock : Bytes 0xF8
  patchInfo : Bytes 0x40
  /-- The upper half of the counter. -/
  upperCounter : UInt64

namespace SectionHeader

/-- The layout of a section header. -/
def layout : Layout SectionHeader :=
  .record (fun (a, b, c, d, e, f, g, h, i) => ⟨a, b, c, d, e, f, g, h, i⟩)
    (fun h => (h.version, h.filesystem, h.hash, h.encryption, h.metadataHash, h.reserved,
      h.superblock, h.patchInfo, h.upperCounter))
    (fun _ => rfl) (fun _ => rfl)
    (.seq .word16 (.seq FilesystemType.layout (.seq HashType.layout (.seq EncryptionType.layout
      (.seq .word8 (.seq (.bytes 2) (.seq (.bytes 0xF8) (.seq (.bytes 0x40) .word64))))))))

theorem size_layout : layout.size = 0x148 := rfl

/-- The superblock of a partition filesystem. -/
def partitionSuperblock (h : SectionHeader) : Except Error PartitionSuperblock :=
  PartitionSuperblock.layout.decode h.superblock.toList

/-- The superblock of a directory tree image. -/
def integritySuperblock (h : SectionHeader) : Except Error IntegritySuperblock :=
  IntegritySuperblock.layout.decode h.superblock.toList

/-- The filesystem in the section: a partition filesystem if it is declared so and hashed in the way
that belongs to it, and else a directory tree image. -/
def kind (h : SectionHeader) : SectionKind :=
  if h.filesystem = .partition ∧ h.hash = .sha256 then .pfs0 else .romFs

end SectionHeader

end Cartridge.Nca
