import Cartridge.Nca.Header
import Cartridge.Storage.Region

/-!
# The encryption of the headers

The main header takes two XTS sectors, numbered 0 and 1. What follows depends on the version, which
is the last character of the main header's magic: in version 3 the section headers are the sectors
from 2 on, in version 2 each of them is a sector 0 of its own, and in version 0 they are encrypted
in a way that is not read here.
-/

namespace Cartridge.Nca

/-- The version of an archive. -/
inductive Version where
  | nca0
  | nca2
  | nca3
deriving DecidableEq, Repr

namespace Version

/-- The version's digit. -/
def digit : Version → Char
  | nca0 => '0'
  | nca2 => '2'
  | nca3 => '3'

/-- The magic of the version. -/
def magic (v : Version) : List UInt8 := [0x4E, 0x43, 0x41, UInt8.ofNat v.digit.toNat]

/-- The version with the given magic. -/
def ofMagic? (magic : List UInt8) : Option Version :=
  [nca0, nca2, nca3].find? fun v => v.magic == magic

end Version

/-- The size of the main header. -/
def mainHeaderSize : Nat := 0x400

/-- The size of a section header. -/
def sectionHeaderSize : Nat := 0x200

/-- The size of all headers. -/
def headersSize : Nat := mainHeaderSize + 4 * sectionHeaderSize

/-- Where the magic lies in the main header. -/
def magicOffset : Nat := 0x200

/-- Decrypts the main header and finds its version. -/
def decryptMainHeader (key : Bytes 32) (raw : List UInt8) : Except Error (List UInt8 × Version) :=
  let plain := (XtsLayer.cipher key).decryptArea sectorSize 0 (raw.take mainHeaderSize)
  let magic := (plain.drop magicOffset).take 4
  match Version.ofMagic? magic with
  | some version => .ok (plain, version)
  | none => .error (.headerDecryptFailed magic)

/-- Decrypts the section headers, which follow the main header. -/
def decryptSectionHeaders (key : Bytes 32) (version : Version) (raw : List UInt8) : List UInt8 :=
  let cipher := XtsLayer.cipher key
  match version with
  | .nca0 => raw
  | .nca2 => Xts.mapSectors (fun _ => cipher.decryptSector 0) sectionHeaderSize 4 0 raw
  | .nca3 => cipher.decryptArea sectorSize 2 raw

/-- Encrypts the headers of an archive of the given version. -/
def encryptHeaders (key : Bytes 32) (version : Version) (plain : List UInt8) : List UInt8 :=
  let cipher := XtsLayer.cipher key
  let sections := plain.drop mainHeaderSize
  cipher.encryptArea sectorSize 0 (plain.take mainHeaderSize) ++
    match version with
    | .nca0 => sections
    | .nca2 => Xts.mapSectors (fun _ => cipher.encryptSector 0) sectionHeaderSize 4 0 sections
    | .nca3 => cipher.encryptArea sectorSize 2 sections

end Cartridge.Nca
