import Cartridge.Bytes
import Cartridge.Bytes.Hex
import Cartridge.Format
import Cartridge.Text.Utf8

/-!
# Errors

Every way in which an operation can fail, as a cause with the numbers and names that belong to it.
The wording of a cause stands in one place, `Error.message`.
-/

namespace Cartridge

open Hex (number)

/-- A failure of an input or output stream. -/
inductive StreamFailure where
  /-- A cursor was to be moved out of its view. -/
  | seekOutside
  /-- A text stream holds bytes that are not UTF-8. -/
  | notUtf8
  /-- The stream ended too early. -/
  | ended (detail : String)
  /-- Anything else that the stream reports. -/
  | other (detail : String)
deriving DecidableEq, Repr

/-- The failure in words. -/
def StreamFailure.message : StreamFailure → String
  | seekOutside => "Cannot seek outside of the byte view"
  | notUtf8 => "stream did not contain valid UTF-8"
  | ended detail => detail
  | other detail => detail

/-- The tables of a directory tree image. -/
inductive TreeTable where
  | hash
  | directory
  | file
deriving DecidableEq, Repr

/-- The table's name. -/
def TreeTable.name : TreeTable → String
  | hash => "hash table"
  | directory => "directory table"
  | file => "file table"

/-- The two kinds of records of a directory tree. -/
inductive RecordKind where
  | directory
  | file
deriving DecidableEq, Repr

/-- The kind's name. -/
def RecordKind.name : RecordKind → String
  | directory => "directory"
  | file => "file"

/-- Something ends before what it should hold. -/
inductive Truncation where
  /-- The input ends inside a fixed-layout structure. -/
  | structureEnd
  /-- A read through a stream passes its end. -/
  | streamEnd
  /-- The string table of a partition passes the end of its view. -/
  | stringTable
  /-- The tables of a partition with `count` entries need more bytes than the archive has. -/
  | partitionTables (format : Format) (count needed size : Nat)
  /-- An entry of a partition does not fit into the data region. -/
  | partitionEntry (format : Format) (name : String) (offset size : Nat)
  /-- A table of a directory tree does not fit into the image. -/
  | treeTable (table : TreeTable) (offset size imageSize : Nat)
  /-- A content archive is smaller than its headers. -/
  | archiveHeader (size : Nat)
  /-- A section passes the end of its content archive. -/
  | archiveSection (index sectionEnd size : Nat)
  /-- The root partition lies behind the end of a card image. -/
  | rootPartition (headerOffset offset size : Nat)
deriving DecidableEq, Repr

/-- The truncation in words. -/
def Truncation.message : Truncation → String
  | structureEnd => "input ends inside a structure"
  | streamEnd => "read extends past the end of the view"
  | stringTable => "string table extends past the end of the view"
  | partitionTables format count needed size =>
    format.abbreviation ++ " tables of " ++ toString count ++ " entries need " ++ number needed ++
      " bytes, archive has " ++ number size
  | partitionEntry format name offset size =>
    format.abbreviation ++ " entry " ++ name ++ " (" ++ number offset ++ "+" ++ number size ++
      ") extends past the end of the archive"
  | treeTable table offset size imageSize =>
    "RomFS " ++ table.name ++ " at " ++ number offset ++ "+" ++ number size ++
      " extends past the image (" ++ number imageSize ++ ")"
  | archiveHeader size => "NCA of " ++ number size ++ " bytes is smaller than its header"
  | archiveSection index sectionEnd size =>
    "section " ++ toString index ++ " ends at " ++ number sectionEnd ++
      ", past the end of the NCA (" ++ number size ++ ")"
  | rootPartition headerOffset offset size =>
    "root HFS0 at " ++ number headerOffset ++ "+" ++ number offset ++
      " is past the end of the image (" ++ number size ++ ")"

/-- What makes the records of a directory tree not a tree. -/
inductive TreeFault where
  /-- The record's fixed part does not lie in its table. -/
  | outside (kind : RecordKind) (offset : Nat)
  /-- The record's name does not lie in its table. -/
  | nameOutside (kind : RecordKind) (offset : Nat)
  /-- The record's name is not UTF-8. -/
  | nameNotUtf8 (kind : RecordKind) (offset : Nat) (fault : Utf8.Fault)
  /-- Two links lead to the record. -/
  | linkedTwice (kind : RecordKind) (offset : Nat)
deriving DecidableEq, Repr

/-- The fault in words. -/
def TreeFault.message : TreeFault → String
  | outside kind offset => kind.name ++ " offset " ++ number offset ++ " is outside its table"
  | nameOutside kind offset => kind.name ++ " name at " ++ number offset ++ " runs past its table"
  | nameNotUtf8 kind offset fault =>
    kind.name ++ " name at " ++ number offset ++ " is not UTF-8: " ++ fault.message
  | linkedTwice kind offset => kind.name ++ " record " ++ number offset ++ " is linked twice"

/-- Why a key is refused. -/
inductive KeyFault where
  | emptyName
  /-- A named key has neither sixteen nor thirty-two bytes. -/
  | namedLength (name : String) (length : Nat)
  /-- A title key does not have sixteen bytes. -/
  | titleLength (length : Nat)
  /-- The user's title key does not have sixteen bytes. -/
  | userTitleLength (length : Nat)
deriving DecidableEq, Repr

/-- The fault in words. -/
def KeyFault.message : KeyFault → String
  | emptyName => "empty key name"
  | namedLength name length => name ++ ": expected 16 or 32 bytes, got " ++ toString length
  | titleLength length => "title key: expected 16 bytes, got " ++ toString length
  | userTitleLength length => "user title key: expected 16 bytes, got " ++ toString length

/-- Data that cannot be what it should be. -/
inductive DataFault where
  /-- The byte at a position stands for no known value. -/
  | unknownVariant (position : Nat)
  /-- The bytes at a position are not the expected ones. -/
  | badMagic (found : List UInt8) (position : Nat)
  /-- A region to decrypt does not lie in its section. -/
  | cipherRegion (offset size sectionSize : Nat)
  /-- A name begins outside of its string table. -/
  | nameOutside (offset tableSize : Nat)
  /-- A name is not UTF-8. -/
  | nameNotUtf8 (offset : Nat) (fault : Utf8.Fault)
  /-- A table of a directory tree is larger than any real one. -/
  | treeTableSize (table : TreeTable) (size : Nat)
  /-- The offset of a file's data is no 64-bit number. -/
  | dataOffset (name : String)
  /-- A section begins before the end of the previous one or of the headers. -/
  | sectionOverlap (index start : Nat)
  /-- The data of a section does not lie in it. -/
  | sectionRegion (index offset size : Nat)
  /-- What a storage device or a caller reports. -/
  | reported (detail : String)
deriving DecidableEq, Repr

/-- The fault in words. -/
def DataFault.message : DataFault → String
  | unknownVariant position => "no variants matched at " ++ number position
  | badMagic found position =>
    "bad magic [" ++ ", ".intercalate (found.map fun b => toString b.toNat) ++ "] at " ++
      number position
  | cipherRegion offset size sectionSize =>
    "XTS data region " ++ number offset ++ "+" ++ number size ++ " exceeds section of " ++
      number sectionSize ++ " bytes"
  | nameOutside offset tableSize =>
    "name offset " ++ number offset ++ " outside string table of " ++ number tableSize ++ " bytes"
  | nameNotUtf8 offset fault => "name at " ++ number offset ++ " is not UTF-8: " ++ fault.message
  | treeTableSize table size => "RomFS " ++ table.name ++ " too large: " ++ number size
  | dataOffset name => "data offset of " ++ name ++ " overflows"
  | sectionOverlap index start =>
    "section " ++ toString index ++ " at " ++ number start ++
      " overlaps the previous section or the header"
  | sectionRegion index offset size =>
    "section " ++ toString index ++ " data region " ++ number offset ++ "+" ++ number size ++
      " exceeds the section"
  | reported detail => detail

/-- What the library does not do. -/
inductive Refusal where
  /-- Writing to a storage that can only be read. -/
  | readOnly
  /-- The section headers of the oldest content archives. -/
  | oldSectionHeaders
  /-- A section under an encryption of the given name. -/
  | encryption (name : String)
deriving DecidableEq, Repr

/-- The refusal in words. -/
def Refusal.message : Refusal → String
  | readOnly => "storage is read-only"
  | oldSectionHeaders => "NCA0 section headers"
  | encryption name => "section encryption " ++ name

/-- A failed operation. -/
inductive Error where
  | stream (failure : StreamFailure)
  /-- The bytes where a format's magic should be are others. -/
  | invalidMagic (format : Format) (found : List UInt8)
  | truncated (what : Truncation)
  /-- A range does not lie in the view of `size` bytes. -/
  | outOfBounds (offset length size : Nat)
  | malformedTree (fault : TreeFault)
  | entryNotFound (name : String)
  | partitionNotFound (name : String)
  | missingTitleKey (rightsId : Bytes 16)
  /-- Neither the named key nor the keys to derive it from are registered. -/
  | missingAreaKey (name : String)
  | missingHeaderKey
  /-- A decrypted header has no known magic. -/
  | headerDecryptFailed (found : List UInt8)
  /-- A decrypted section is not the filesystem that its header declares. -/
  | unrecognizedInnerFormat (index : Nat)
  | unrecognizedFormat
  | hashMismatch (name : String)
  | invalidKey (fault : KeyFault)
  | invalidData (fault : DataFault)
  | unsupported (what : Refusal)
deriving DecidableEq

/-- The error in words. -/
def Error.message : Error → String
  | stream failure => "IO error: " ++ failure.message
  | invalidMagic format found =>
    "Invalid magic for " ++ format.abbreviation ++ ": found " ++ Hex.bracketed found
  | truncated what => "Truncated data: " ++ what.message
  | outOfBounds offset length size =>
    "Out of bounds access: " ++ number length ++ " bytes at " ++ number offset ++
      " in a view of " ++ number size ++ " bytes"
  | malformedTree fault => "Malformed RomFS tree: " ++ fault.message
  | entryNotFound name => "Entry not found: " ++ name
  | partitionNotFound name => "Partition not found: " ++ name
  | missingTitleKey rightsId =>
    "Title key missing for rights ID " ++ Hex.encodeUpper rightsId.toList
  | missingAreaKey name => "Key area key missing: " ++ name
  | missingHeaderKey => "NCA header key is not registered"
  | headerDecryptFailed found =>
    "NCA header decryption failed: found magic " ++ Hex.bracketed found
  | unrecognizedInnerFormat index =>
    "Section " ++ toString index ++ " decrypted to an unrecognized format"
  | unrecognizedFormat => "Unrecognized container format"
  | hashMismatch name => "Hash mismatch for " ++ name
  | invalidKey fault => "Invalid key: " ++ fault.message
  | invalidData fault => "Invalid data: " ++ fault.message
  | unsupported what => "Not supported: " ++ what.message

/-- The error as the failure of a stream that wraps it. -/
def Error.toStreamFailure : Error → StreamFailure
  | stream failure => failure
  | e => .other e.message

/-- The error of a structure that could not be read because its stream failed. -/
def StreamFailure.toStructureError : StreamFailure → Error
  | ended _ => .truncated .structureEnd
  | failure => .invalidData (.reported failure.message)

end Cartridge
