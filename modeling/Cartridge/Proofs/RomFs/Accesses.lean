import Cartridge.Proofs.RomFs.Records

/-!
# Accesses to the bytes of a record

A record is read in two goes. The fixed part is cut out of the table, which is refused if it does not
lie in the table; then the fields are taken from their offsets in the fixed part, without a check. So
there are accesses that could be out of range: they have no answer here (`none`), and neither has what
goes on from them.

Results:
* `fetchDirectory?_eq`, `fetchFile?_eq`: no access is out of range, and what is read is the record.
-/

namespace Cartridge.RomFs

/-! ## Fields at their offsets -/

/-- The 32-bit word at an offset, if it lies in the byte string. -/
def word32At? (bytes : List UInt8) (offset : Nat) : Option UInt32 :=
  (slice? bytes offset 4).map Endian.word32

/-- The 64-bit word at an offset, if it lies in the byte string. -/
def word64At? (bytes : List UInt8) (offset : Nat) : Option UInt64 :=
  (slice? bytes offset 8).map Endian.word64

/-- The fields of a directory record, each from its offset in the fixed part. -/
def directoryFields? (part : List UInt8) : Option DirectoryRecord := do
  let parent ← word32At? part 0x0
  let sibling ← word32At? part 0x4
  let firstChild ← word32At? part 0x8
  let firstFile ← word32At? part 0xC
  let hashSibling ← word32At? part 0x10
  let nameLength ← word32At? part 0x14
  return ⟨parent, sibling, firstChild, firstFile, hashSibling, nameLength⟩

/-- The fields of a file record, each from its offset in the fixed part. -/
def fileFields? (part : List UInt8) : Option FileRecord := do
  let parent ← word32At? part 0x0
  let sibling ← word32At? part 0x4
  let dataOffset ← word64At? part 0x8
  let dataSize ← word64At? part 0x10
  let hashSibling ← word32At? part 0x18
  let nameLength ← word32At? part 0x1C
  return ⟨parent, sibling, dataOffset, dataSize, hashSibling, nameLength⟩

/-- Reads a record whose fixed part has the given size and ends with the length of the name. -/
def fetchNamed? {α : Type} (kind : RecordKind) (size : Nat) (fields? : List UInt8 → Option α)
    (table : List UInt8) (offset : UInt32) : Option (Except TreeFault (α × String)) :=
  match slice? table offset.toNat size with
  | none => some (.error (.outside kind offset.toNat))
  | some part => do
    let length ← word32At? part (size - 4)
    match slice? table (offset.toNat + size) length.toNat with
    | none => return .error (.nameOutside kind offset.toNat)
    | some bytes =>
      match Utf8.decode bytes with
      | .error fault => return .error (.nameNotUtf8 kind offset.toNat fault)
      | .ok name =>
        let fixed ← fields? part
        return .ok (fixed, name)

/-- Reads a directory record. -/
def fetchDirectory? (table : List UInt8) (offset : UInt32) :
    Option (Except TreeFault (DirectoryRecord × String)) :=
  fetchNamed? .directory 0x18 directoryFields? table offset

/-- Reads a file record. -/
def fetchFile? (table : List UInt8) (offset : UInt32) :
    Option (Except TreeFault (FileRecord × String)) :=
  fetchNamed? .file 0x20 fileFields? table offset

/-! ## No access is out of range -/

theorem word32At?_eq_some {bytes : List UInt8} {offset : Nat} {w : UInt32}
    (h : slice? bytes offset 4 = some (Endian.bytes32 w)) : word32At? bytes offset = some w := by
  rw [word32At?, h, Option.map_some, Endian.word32_bytes32]

theorem word64At?_eq_some {bytes : List UInt8} {offset : Nat} {w : UInt64}
    (h : slice? bytes offset 8 = some (Endian.bytes64 w)) : word64At? bytes offset = some w := by
  rw [word64At?, h, Option.map_some, Endian.word64_bytes64]

/-- The fields of a directory record lie in its fixed part. -/
theorem directoryFields?_encode (record : DirectoryRecord) :
    directoryFields? (DirectoryRecord.layout.encode record) = some record := by
  generalize hpart : DirectoryRecord.layout.encode record = part
  have hparent : word32At? part 0x0 = some record.parent := hpart ▸ word32At?_eq_some rfl
  have hsibling : word32At? part 0x4 = some record.sibling := hpart ▸ word32At?_eq_some rfl
  have hfirstChild : word32At? part 0x8 = some record.firstChild := hpart ▸ word32At?_eq_some rfl
  have hfirstFile : word32At? part 0xC = some record.firstFile := hpart ▸ word32At?_eq_some rfl
  have hhashSibling : word32At? part 0x10 = some record.hashSibling :=
    hpart ▸ word32At?_eq_some rfl
  have hnameLength : word32At? part 0x14 = some record.nameLength := hpart ▸ word32At?_eq_some rfl
  rw [directoryFields?, hparent, hsibling, hfirstChild, hfirstFile, hhashSibling, hnameLength]
  rfl

/-- The fields of a file record lie in its fixed part. -/
theorem fileFields?_encode (record : FileRecord) :
    fileFields? (FileRecord.layout.encode record) = some record := by
  generalize hpart : FileRecord.layout.encode record = part
  have hparent : word32At? part 0x0 = some record.parent := hpart ▸ word32At?_eq_some rfl
  have hsibling : word32At? part 0x4 = some record.sibling := hpart ▸ word32At?_eq_some rfl
  have hdataOffset : word64At? part 0x8 = some record.dataOffset := hpart ▸ word64At?_eq_some rfl
  have hdataSize : word64At? part 0x10 = some record.dataSize := hpart ▸ word64At?_eq_some rfl
  have hhashSibling : word32At? part 0x18 = some record.hashSibling :=
    hpart ▸ word32At?_eq_some rfl
  have hnameLength : word32At? part 0x1C = some record.nameLength := hpart ▸ word32At?_eq_some rfl
  rw [fileFields?, hparent, hsibling, hdataOffset, hdataSize, hhashSibling, hnameLength]
  rfl

/-- **A record is read without an access out of range**, if its fields lie in its fixed part and the last
of them is the length of the name. -/
theorem fetchNamed?_eq {α : Type} {kind : RecordKind} {layout : Layout α} (hplain : layout.Plain)
    {nameLength : α → UInt32} {fields? : List UInt8 → Option α}
    (hfields : ∀ fixed, fields? (layout.encode fixed) = some fixed)
    (hlength : ∀ fixed, word32At? (layout.encode fixed) (layout.size - 4) = some (nameLength fixed))
    (table : List UInt8) (offset : UInt32) :
    fetchNamed? kind layout.size fields? table offset =
      some (readNamed kind layout nameLength table offset) := by
  unfold fetchNamed? readNamed
  cases hpart : slice? table offset.toNat layout.size with
  | none =>
    cases hdecode : layout.decodeAt (Source.ofBytes table) offset.toNat with
    | error => rfl
    | ok fixed =>
      rw [(Layout.decodeAt_eq_ok_iff layout).mp hdecode] at hpart
      cases hpart
  | some part =>
    obtain ⟨fixed, rfl⟩ := hplain.exists_encode (length_of_slice? hpart)
    rw [(Layout.decodeAt_eq_ok_iff layout).mpr hpart]
    simp only [hlength, Option.bind_eq_bind, Option.bind_some]
    cases hname : slice? table (offset.toNat + layout.size) (nameLength fixed).toNat with
    | none => rfl
    | some bytes =>
      dsimp only
      cases Utf8.decode bytes with
      | error fault => rfl
      | ok name => simp only [hfields, Option.bind_some, Option.pure_def]

theorem fetchDirectory?_eq (table : List UInt8) (offset : UInt32) :
    fetchDirectory? table offset = some (readDirectory table offset) :=
  fetchNamed?_eq DirectoryRecord.plain_layout directoryFields?_encode
    (fun _ => word32At?_eq_some rfl) table offset

theorem fetchFile?_eq (table : List UInt8) (offset : UInt32) :
    fetchFile? table offset = some (readFile table offset) :=
  fetchNamed?_eq FileRecord.plain_layout fileFields?_encode (fun _ => word32At?_eq_some rfl) table
    offset

end Cartridge.RomFs
