/-!
# Alignment

Rounding 64-bit addresses to a multiple of a power of two by masking the low bits.
-/

namespace Cartridge.Align

/-- The address with the bits below the alignment cleared. -/
def down (value align : UInt64) : UInt64 := value &&& ~~~(align - 1)

/-- The address raised by one less than the alignment, then aligned down. -/
def up (value align : UInt64) : UInt64 := (value + (align - 1)) &&& ~~~(align - 1)

end Cartridge.Align
