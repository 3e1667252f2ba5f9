import Cartridge.Nca.Header
import Cartridge.Partition.Record
import Cartridge.Proofs.Offsets
import Cartridge.RomFs.Record
import Cartridge.Xci.Header

/-!
# The structures of the formats

The offset of every field of the nine structures that the formats begin with or refer to, with the
known values of the bytes that stand for something and the bytes that are always the same. Decoding
does what these tables say and nothing else.

* `structures_decode`: the structures, field by field, and the superblocks of a section header.
-/

namespace Cartridge

namespace Partition

/-- The header of a partition filesystem. -/
def Header.fields (h : Header) : List Field :=
  [.raw 0x0 h.magic.toList,
    .number 0x4 4 h.fileCount.toNat,
    .number 0x8 4 h.stringTableSize.toNat,
    .raw 0xC h.reserved.toList]

/-- A record without a hash. -/
def Record.plainFields (r : Record .plain) : List Field :=
  [.number 0x0 8 r.dataOffset.toNat,
    .number 0x8 8 r.dataSize.toNat,
    .number 0x10 4 r.nameOffset.toNat,
    .raw 0x14 (r.tail : Bytes 4).toList]

/-- A record with a hash. -/
def Record.hashedFields (r : Record .hashed) : List Field :=
  [.number 0x0 8 r.dataOffset.toNat,
    .number 0x8 8 r.dataSize.toNat,
    .number 0x10 4 r.nameOffset.toNat,
    .number 0x14 4 (r.tail : Seal).coveredSize.toNat,
    .number 0x18 8 (r.tail : Seal).reserved.toNat,
    .raw 0x20 (r.tail : Seal).hash.toList]

end Partition

/-- The header of a directory tree image. -/
def RomFs.Header.fields (h : RomFs.Header) : List Field :=
  [.number 0x0 8 h.headerSize.toNat,
    .number 0x8 8 h.dirHashOffset.toNat,
    .number 0x10 8 h.dirHashSize.toNat,
    .number 0x18 8 h.dirTableOffset.toNat,
    .number 0x20 8 h.dirTableSize.toNat,
    .number 0x28 8 h.fileHashOffset.toNat,
    .number 0x30 8 h.fileHashSize.toNat,
    .number 0x38 8 h.fileTableOffset.toNat,
    .number 0x40 8 h.fileTableSize.toNat,
    .number 0x48 8 h.fileDataOffset.toNat]

namespace Nca

/-- The bounds of a section, from an offset on. -/
def SectionEntry.fields (offset : Nat) (e : SectionEntry) : List Field :=
  [.number offset 4 e.startBlock.toNat,
    .number (offset + 0x4) 4 e.endBlock.toNat,
    .number (offset + 0x8) 8 e.reserved.toNat]

/-- The main header of a content archive. -/
def Header.fields (h : Header) : List Field :=
  [.raw 0x0 h.signature.toList,
    .raw 0x100 h.programSignature.toList,
    .raw 0x200 h.magic.toList,
    .number 0x204 1 h.distribution.toByte.toNat,
    .number 0x205 1 h.contentType.toByte.toNat,
    .number 0x206 1 h.oldKeyGeneration.toNat,
    .number 0x207 1 h.areaKeyIndex.toNat,
    .number 0x208 8 h.contentSize.toNat,
    .number 0x210 8 h.programId.toNat,
    .number 0x218 4 h.contentIndex.toNat,
    .number 0x21C 4 h.sdkVersion.toNat,
    .number 0x220 1 h.newKeyGeneration.toNat,
    .number 0x221 1 h.signatureKeyGeneration.toNat,
    .raw 0x222 h.reserved.toList,
    .raw 0x230 h.rightsId.toList] ++
  ((List.finRange 4).flatMap fun i => (h.entries.get i).fields (0x240 + 0x10 * i)) ++
  ((List.finRange 4).map fun i => .raw (0x280 + 0x20 * i) (h.sectionHashes.get i).toList) ++
  [.raw 0x300 h.keyArea.data.toList,
    .raw 0x310 h.keyArea.tweak.toList,
    .raw 0x320 h.keyArea.counter.toList,
    .raw 0x330 h.keyArea.unused.toList]

/-- The header of a section. -/
def SectionHeader.fields (h : SectionHeader) : List Field :=
  [.number 0x0 2 h.version.toNat,
    .number 0x2 1 h.filesystem.toByte.toNat,
    .number 0x3 1 h.hash.toByte.toNat,
    .number 0x4 1 h.encryption.toByte.toNat,
    .number 0x5 1 h.metadataHash.toNat,
    .raw 0x6 h.reserved.toList,
    .raw 0x8 h.superblock.toList,
    .raw 0x100 h.patchInfo.toList,
    .number 0x140 8 h.upperCounter.toNat]

/-- The superblock of a partition filesystem. -/
def PartitionSuperblock.fields (s : PartitionSuperblock) : List Field :=
  [.raw 0x0 s.masterHash.toList,
    .number 0x20 4 s.blockSize.toNat,
    .number 0x24 4 s.layerCount.toNat,
    .number 0x28 8 s.hashTableOffset.toNat,
    .number 0x30 8 s.hashTableSize.toNat,
    .number 0x38 8 s.dataOffset.toNat,
    .number 0x40 8 s.dataSize.toNat]

/-- A level of a hash tree, from an offset on. -/
def IntegrityLevel.fields (offset : Nat) (l : IntegrityLevel) : List Field :=
  [.number offset 8 l.offset.toNat,
    .number (offset + 0x8) 8 l.size.toNat,
    .number (offset + 0x10) 4 l.blockSizeLog.toNat,
    .number (offset + 0x14) 4 l.reserved.toNat]

/-- The superblock of a directory tree image. -/
def IntegritySuperblock.fields (s : IntegritySuperblock) : List Field :=
  [.raw 0x0 integrityMagic,
    .number 0x4 4 s.id.toNat,
    .number 0x8 4 s.masterHashSize.toNat,
    .number 0xC 4 s.levelCount.toNat] ++
  ((List.finRange 6).flatMap fun i => (s.levels.get i).fields (0x10 + 0x18 * i))

end Nca

/-- The header of a card image. -/
def Xci.Header.fields (h : Xci.Header) : List Field :=
  [.raw 0x0 h.signature.toList,
    .raw 0x100 Xci.magic,
    .number 0x104 4 h.romAreaOffset.toNat,
    .number 0x108 4 h.backupAreaOffset.toNat,
    .number 0x10C 1 h.titleKekIndex.toNat,
    .number 0x10D 1 h.romSizeCode.toNat,
    .number 0x10E 1 h.version.toNat,
    .number 0x10F 1 h.flags.toNat,
    .number 0x110 8 h.packageId.toNat,
    .number 0x118 8 h.validDataEnd.toNat,
    .raw 0x120 h.reversedIv.toList,
    .number 0x130 8 h.rootOffset.toNat,
    .number 0x138 8 h.rootHeaderSize.toNat,
    .raw 0x140 h.rootHeaderHash.toList,
    .raw 0x160 h.initialDataHash.toList,
    .number 0x180 4 h.securityMode.toNat,
    .number 0x184 4 h.titleKeyMode.toNat,
    .number 0x188 4 h.keyMode.toNat,
    .number 0x18C 4 h.limitArea.toNat,
    .raw 0x190 h.encrypted.toList]

/-! ## Decoding -/

theorem Partition.Header.decodesAs :
    Partition.Header.layout.DecodesAs 0x10 [] Partition.Header.fields :=
  Layout.decodesAs Partition.Header.size_layout rfl fun _ => rfl

theorem Partition.Record.plain_decodesAs :
    (Partition.Record.layout .plain).DecodesAs 0x18 [] Partition.Record.plainFields :=
  Layout.decodesAs Partition.Record.size_layout_plain rfl fun _ => rfl

theorem Partition.Record.hashed_decodesAs :
    (Partition.Record.layout .hashed).DecodesAs 0x40 [] Partition.Record.hashedFields :=
  Layout.decodesAs Partition.Record.size_layout_hashed rfl fun _ => rfl

theorem RomFs.Header.decodesAs : RomFs.Header.layout.DecodesAs 0x50 [] RomFs.Header.fields :=
  Layout.decodesAs RomFs.Header.size_layout rfl fun _ => rfl

theorem Nca.Header.decodesAs : Nca.Header.layout.DecodesAs 0x340
    [.variant 0x204 [0, 1], .variant 0x205 [0, 1, 2, 3, 4, 5]] Nca.Header.fields :=
  Layout.decodesAs Nca.Header.size_layout (by decide +kernel) fun _ => rfl

theorem Nca.SectionHeader.decodesAs : Nca.SectionHeader.layout.DecodesAs 0x148
    [.variant 0x2 [0, 1], .variant 0x3 [0, 1, 2, 3, 4, 5, 6], .variant 0x4 [0, 1, 2, 3, 4, 5, 6]]
    Nca.SectionHeader.fields :=
  Layout.decodesAs Nca.SectionHeader.size_layout (by decide +kernel) fun _ => rfl

theorem Nca.PartitionSuperblock.decodesAs :
    Nca.PartitionSuperblock.layout.DecodesAs 0x48 [] Nca.PartitionSuperblock.fields :=
  Layout.decodesAs rfl rfl fun _ => rfl

theorem Nca.IntegritySuperblock.decodesAs : Nca.IntegritySuperblock.layout.DecodesAs 0xA0
    [.magic 0x0 integrityMagic] Nca.IntegritySuperblock.fields :=
  Layout.decodesAs rfl rfl fun _ => rfl

theorem Xci.Header.decodesAs :
    Xci.Header.layout.DecodesAs 0x200 [.magic 0x100 Xci.magic] Xci.Header.fields :=
  Layout.decodesAs Xci.Header.size_layout rfl fun _ => rfl

/-- The bounds of the sections are read one behind the other. -/
theorem Nca.Header.holds_entry {input : List UInt8} {h : Nca.Header}
    (hdecode : Nca.Header.layout.decode input = .ok h) (i : Fin 4) :
    ∀ f ∈ (h.entries.get i).fields (0x240 + 0x10 * i), f.Holds input := by
  intro f hf
  have hentry : f ∈ (List.finRange 4).flatMap fun i =>
      (h.entries.get i).fields (0x240 + 0x10 * i) :=
    List.mem_flatMap.mpr ⟨i, List.mem_finRange i, hf⟩
  refine ((Nca.Header.decodesAs.decode_eq_ok_iff input h).mp hdecode).2 f ?_
  exact List.mem_append_left _ (List.mem_append_left _ (List.mem_append_right _ hentry))

namespace Nca.SectionHeader

/-- Every superblock is that of a partition filesystem. -/
theorem exists_partitionSuperblock (h : SectionHeader) : ∃ s, h.partitionSuperblock = .ok s := by
  refine (PartitionSuperblock.decodesAs.exists_decode_iff _).mpr ⟨?_, List.forall_mem_nil _⟩
  rw [h.superblock.length_toList]
  decide

/-- A superblock that does not begin with its magic is not that of a directory tree image, and any
other one is. -/
theorem integritySuperblock_fails_iff (h : SectionHeader) :
    (∃ e, h.integritySuperblock = .error e) ↔ ¬ integrityMagic <+: h.superblock.toList := by
  have hroom : 0xA0 ≤ h.superblock.toList.length := by
    rw [h.superblock.length_toList]
    decide
  have hmagic : 0x0 + integrityMagic.length ≤ h.superblock.toList.length :=
    Nat.le_trans (by decide) hroom
  simp only [integritySuperblock, IntegritySuperblock.decodesAs.decode_eq_error_iff]
  rw [← Option.ne_none_iff_exists', ne_eq, firstProblem?_eq_none_iff, and_iff_right hroom,
    List.forall_mem_singleton, Check.fault?_magic_eq_none_iff hmagic, slice, List.drop_zero,
    List.prefix_iff_eq_take, eq_comm]

end Nca.SectionHeader

/-- **The structures of the formats are decoded field by field from their documented offsets**, and of
the two forms of a superblock only the one with a magic can be refused. -/
theorem structures_decode :
    Partition.Header.layout.DecodesAs 0x10 [] Partition.Header.fields ∧
    (Partition.Record.layout .plain).DecodesAs 0x18 [] Partition.Record.plainFields ∧
    (Partition.Record.layout .hashed).DecodesAs 0x40 [] Partition.Record.hashedFields ∧
    RomFs.Header.layout.DecodesAs 0x50 [] RomFs.Header.fields ∧
    Nca.Header.layout.DecodesAs 0x340
      [.variant 0x204 [0, 1], .variant 0x205 [0, 1, 2, 3, 4, 5]] Nca.Header.fields ∧
    Nca.SectionHeader.layout.DecodesAs 0x148
      [.variant 0x2 [0, 1], .variant 0x3 [0, 1, 2, 3, 4, 5, 6],
        .variant 0x4 [0, 1, 2, 3, 4, 5, 6]] Nca.SectionHeader.fields ∧
    Nca.PartitionSuperblock.layout.DecodesAs 0x48 [] Nca.PartitionSuperblock.fields ∧
    Nca.IntegritySuperblock.layout.DecodesAs 0xA0
      [.magic 0x0 Nca.integrityMagic] Nca.IntegritySuperblock.fields ∧
    Xci.Header.layout.DecodesAs 0x200 [.magic 0x100 Xci.magic] Xci.Header.fields ∧
    (∀ h : Nca.SectionHeader, ∃ s, h.partitionSuperblock = .ok s) ∧
    ∀ h : Nca.SectionHeader,
      (∃ e, h.integritySuperblock = .error e) ↔ ¬ Nca.integrityMagic <+: h.superblock.toList :=
  ⟨Partition.Header.decodesAs, Partition.Record.plain_decodesAs, Partition.Record.hashed_decodesAs,
    RomFs.Header.decodesAs, Nca.Header.decodesAs, Nca.SectionHeader.decodesAs,
    Nca.PartitionSuperblock.decodesAs, Nca.IntegritySuperblock.decodesAs, Xci.Header.decodesAs,
    Nca.SectionHeader.exists_partitionSuperblock, Nca.SectionHeader.integritySuperblock_fails_iff⟩

/-- A section header that ends behind an unknown byte is refused for the byte. -/
example : Nca.SectionHeader.layout.decode [2, 0, 9] = .error (.invalidData (.unknownVariant 2)) := rfl

end Cartridge
