import Cartridge.Align
import Cartridge.Cipher.Aes
import Cartridge.Cipher.Modes
import Cartridge.Cipher.Xts
import Cartridge.Storage.Medium

/-!
# Regions

A region is a range of bytes that can be read: a whole medium, a part of another region, or another
region seen through a cipher. Regions nest to any depth, and every read goes down to the medium and
back up through the ciphers; nothing is copied beforehand.

A read through a cipher is widened to whole blocks or sectors, read from the region below, decrypted
and cut to what was asked for. Reads are checked against the size of the region they are made on.

* `Region.parentOffset`: where a region's first byte lies in its medium.
-/

namespace Cartridge

/-- Counter mode over a part of a region. The counter of a byte is that of its block in the region
below, so it does not depend on where the part begins. -/
structure CounterLayer where
  start : Nat
  size : Nat
  key : Block
  upper : UInt64

/-- XTS over a section of a region, of which a part is exposed. Sectors are numbered from the start
of the section. -/
structure XtsLayer where
  sectionStart : Nat
  sectionSize : Nat
  dataOffset : Nat
  size : Nat
  key : Bytes 32

/-- A range of bytes. -/
inductive Region where
  /-- A medium of the given size. -/
  | medium (id size : Nat)
  /-- A part of another region. -/
  | part (base : Region) (offset size : Nat)
  /-- Counter mode over another region. -/
  | counter (base : Region) (layer : CounterLayer)
  /-- XTS over another region. -/
  | xts (base : Region) (layer : XtsLayer)

/-- The size of an XTS sector. -/
def sectorSize : Nat := 0x200

namespace CounterLayer

/-- The first byte to read from the region below for a read at `offset`: the start of its block. -/
def alignedStart (l : CounterLayer) (offset : Nat) : Nat :=
  (Align.down (UInt64.ofNat (l.start + offset)) 16).toNat

/-- Decrypts what the region below holds from `alignedStart` on. -/
def decrypt (l : CounterLayer) (offset : Nat) (raw : List UInt8) : List UInt8 :=
  Counter.apply (Aes.cipher l.key) (Counter.start l.upper (l.alignedStart offset)) raw

end CounterLayer

namespace XtsLayer

/-- The cipher of a key of thirty-two bytes: the first half for data, the second for tweaks. -/
def cipher (key : Bytes 32) : Xts :=
  ⟨Aes.cipher (key.firstHalf (n := 16)), Aes.cipher (key.secondHalf (n := 16))⟩

/-- The sector of the byte at `offset`. -/
def firstSector (l : XtsLayer) (offset : Nat) : Nat := (l.dataOffset + offset) / sectorSize

/-- The end of the last sector to decrypt for a read, within the section. -/
def alignedEnd (l : XtsLayer) (offset length : Nat) : Nat :=
  min (Align.up (UInt64.ofNat (l.dataOffset + offset + length)) (UInt64.ofNat sectorSize)).toNat
    l.sectionSize

end XtsLayer

namespace Region

/-- The number of bytes. -/
def size : Region → Nat
  | medium _ size => size
  | part _ _ size => size
  | counter _ layer => layer.size
  | xts _ layer => layer.size

/-- Where the region begins in the medium or cipher that it is a part of. -/
def origin : Region → Nat
  | part base offset _ => base.origin + offset
  | _ => 0

/-- Where the region begins in its medium, through all ciphers. -/
def parentOffset : Region → Nat
  | medium _ _ => 0
  | part base offset _ => base.parentOffset + offset
  | counter base layer => base.parentOffset + layer.start
  | xts base layer => base.parentOffset + layer.sectionStart + layer.dataOffset

/-! ## Construction -/

/-- Whether a range lies in a region of the given size. -/
def checkRange (size offset length : Nat) : Except Error Unit :=
  if offset + length ≤ size then .ok () else .error (.outOfBounds offset length size)

/-- The part of a region from `offset` on. -/
def subregion (r : Region) (offset size : Nat) : Except Error Region := do
  checkRange r.size offset size
  return part r offset size

/-- Counter mode over the range of a region that the layer names. -/
def decryptCounter (r : Region) (layer : CounterLayer) : Except Error Region := do
  checkRange r.size layer.start layer.size
  return counter r layer

/-- XTS over the section of a region that the layer names. -/
def decryptXts (r : Region) (layer : XtsLayer) : Except Error Region := do
  checkRange r.size layer.sectionStart layer.sectionSize
  if layer.dataOffset + layer.size ≤ layer.sectionSize then
    return xts r layer
  else
    throw (.invalidData (.cipherRegion layer.dataOffset layer.size layer.sectionSize))

/-! ## Reading and writing -/

/-- Reads a range that lies in `size` bytes. Reading nothing does not touch what holds the bytes. -/
def readWithin (size : Nat) (fetch : Nat → Nat → Except Error (List UInt8)) (offset length : Nat) :
    Except Error (List UInt8) := do
  checkRange size offset length
  if length = 0 then return [] else fetch offset length

/-- Reads without looking at the region's bounds. -/
def fetch (media : Media) : Region → (offset length : Nat) → Except Error (List UInt8)
  | medium id _, offset, length => (media.get id).read offset length
  | part base start _, offset, length => fetch media base (start + offset) length
  | counter base layer, offset, length => do
    let aligned := layer.alignedStart offset
    let skip := layer.start + offset - aligned
    let raw ← readWithin base.size (fetch media base) aligned (skip + length)
    return (layer.decrypt offset raw).drop skip
  | xts base layer, offset, length => do
    let first := layer.firstSector offset
    let aligned := first * sectorSize
    let raw ← readWithin base.size (fetch media base) (layer.sectionStart + aligned)
      (layer.alignedEnd offset length - aligned)
    let plain := (XtsLayer.cipher layer.key).decryptArea sectorSize first raw
    return (plain.drop (layer.dataOffset + offset - aligned)).take length

/-- Reads `length` bytes from `offset` on. -/
def readAt (r : Region) (media : Media) (offset length : Nat) : Except Error (List UInt8) :=
  readWithin r.size (r.fetch media) offset length

/-- All bytes of the region. -/
def readAll (r : Region) (media : Media) : Except Error (List UInt8) := r.readAt media 0 r.size

/-- Writes without looking at the region's bounds. Nothing is written through a cipher. -/
def store (media : Media) : Region → (offset : Nat) → List UInt8 → Except Error Media
  | medium id _, offset, bytes => media.write id offset bytes
  | part base start _, offset, bytes => store media base (start + offset) bytes
  | counter _ _, _, _ => .error (.unsupported .readOnly)
  | xts _ _, _, _ => .error (.unsupported .readOnly)

/-- Writes the given bytes from `offset` on. -/
def writeAt (r : Region) (media : Media) (offset : Nat) (bytes : List UInt8) :
    Except Error Media := do
  checkRange r.size offset bytes.length
  store media r offset bytes

/-- Reads `length` bytes from `position` on as a stream does: what is left in the region is read
first, and only then the end is noticed. -/
def streamAt (r : Region) (media : Media) (position length : Nat) :
    Except StreamFailure (List UInt8) :=
  let available := min length (r.size - position)
  match r.readAt media position available with
  | .error e => .error e.toStreamFailure
  | .ok bytes =>
    if available = length then .ok bytes else .error (.ended "failed to fill whole buffer")

end Region

end Cartridge
