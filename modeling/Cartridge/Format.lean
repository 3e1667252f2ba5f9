/-!
# Formats

The container formats that the library reads.
-/

namespace Cartridge

/-- A container format. -/
inductive Format where
  /-- Partition filesystem: named files behind a table. -/
  | pfs0
  /-- Hashed partition filesystem: the same with a hash for each file. -/
  | hfs0
  /-- Read-only filesystem: a directory tree. -/
  | romFs
  /-- Content archive: up to four encrypted sections. -/
  | nca
  /-- Card image: a root partition filesystem of partitions. -/
  | xci
deriving DecidableEq, Repr

namespace Format

/-- The format's usual abbreviation. -/
def abbreviation : Format → String
  | pfs0 => "PFS0"
  | hfs0 => "HFS0"
  | romFs => "RomFS"
  | nca => "NCA"
  | xci => "XCI"

/-- The format's name. -/
def name : Format → String
  | pfs0 => "Pfs0"
  | hfs0 => "Hfs0"
  | romFs => "RomFs"
  | nca => "Nca"
  | xci => "Xci"

/-- The name of a detected format, or that none was detected. -/
def detectedName : Option Format → String
  | some format => format.name
  | none => "Unknown"

end Format

end Cartridge
