import Cartridge.Keys.Store
import Cartridge.Nca.Encryption
import Cartridge.Partition.Record
import Cartridge.RomFs.Record
import Cartridge.Traced
import Cartridge.Xci.Header

/-!
# Detecting formats

A format is told from the first bytes of a view. The magics of partition filesystems are tried first,
then the header size of a directory tree image, the magic of a card image, and last a content
archive, whose main header has to be decrypted. A card image whose header lies behind a key area is
found when nothing else fits.
-/

namespace Cartridge

namespace Format

/-- The number of bytes looked at. -/
def headSize : Nat := Nca.mainHeaderSize

/-- Whether the bytes are the main header of a content archive under the store's header key. -/
def isArchive (head : List UInt8) (keys : KeyStore) : Bool :=
  match keys.headerKey? with
  | none => false
  | some key =>
    decide (Nca.mainHeaderSize ≤ head.length) && (Nca.decryptMainHeader key head).toBool

/-- The format of a container that begins with the given bytes. -/
def detectBytes (head : List UInt8) (keys : KeyStore) : Option Format :=
  if head.take 4 = Partition.Flavor.plain.magic.toList then some .pfs0
  else if head.take 4 = Partition.Flavor.hashed.magic.toList then some .hfs0
  else if (Endian.word64 (head.take 8)).toNat = RomFs.Header.size
      ∧ RomFs.Header.size ≤ head.length then some .romFs
  else if (head.drop Xci.magicOffset).take 4 = Xci.magic then some .xci
  else if isArchive head keys then some .nca
  else none

/-- The format of the container in a region. None if the region's beginning cannot be read. -/
def detect (region : Region) (media : Media) (keys : KeyStore) : Traced (Option Format) :=
  match region.readAt media 0 (min region.size headSize) with
  | .error _ => pure none
  | .ok head => do
    let found := (detectBytes head keys).or
      (if (Xci.headerOffset? region media).isSome then some .xci else none)
    Traced.emit (.trace "Detected format"
      [("format", detectedName found), ("size", toString region.size)])
    return found

end Format

end Cartridge
