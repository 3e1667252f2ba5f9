import Cartridge.Container
import Cartridge.Keys.Text
import Cartridge.Proofs.Alignment
import Cartridge.Proofs.Contents
import Cartridge.Proofs.CounterMode
import Cartridge.Proofs.Sectors
import Cartridge.Proofs.Traversals
import Cartridge.Proofs.Nca.Opening
import Cartridge.Proofs.Nca.Geometry
import Cartridge.Proofs.Nca.Progress
import Cartridge.Proofs.Nca.Decryption
import Cartridge.Proofs.Nca.Headers
import Cartridge.Proofs.Nesting
import Cartridge.Proofs.Nca.Retry
import Cartridge.Proofs.Decoding
import Cartridge.Proofs.Utf8
import Cartridge.Proofs.RomFs.Growth
import Cartridge.Proofs.RomFs.Rooted
import Cartridge.Proofs.RomFs.TreeShaped
import Cartridge.Proofs.RomFs.Forest
import Cartridge.Proofs.RomFs.Paths
import Cartridge.Proofs.RomFs.Lookup
import Cartridge.Proofs.RomFs.EntryPaths
import Cartridge.Proofs.RomFs.PathNames
import Cartridge.Proofs.RomFs.Buckets
import Cartridge.Proofs.RomFs.Found
import Cartridge.Proofs.RomFs.Spelling
import Cartridge.Proofs.RomFs.Traversal
import Cartridge.Proofs.RomFs.Loops
import Cartridge.Proofs.Partition.Reading
import Cartridge.Proofs.Partition.RoundTrip
import Cartridge.Proofs.Addresses
import Cartridge.Proofs.Partition.Opening
import Cartridge.Proofs.Xci.Partitions
import Cartridge.Proofs.Partition.Extents
import Cartridge.Proofs.Nca.Placement
import Cartridge.Proofs.Nca.PlainHeaders
import Cartridge.Proofs.Keys.Names
import Cartridge.Proofs.Keys.Lines
import Cartridge.Proofs.Keys.Loading
import Cartridge.Proofs.Keys.Streams
import Cartridge.Proofs.Keys.History
import Cartridge.Proofs.Keys.Resolution
import Cartridge.Proofs.Nca.Agreement
import Cartridge.Proofs.Nca.TitleKeys
import Cartridge.Proofs.Nca.Alone
import Cartridge.Proofs.Chains
import Cartridge.Proofs.Cursors
import Cartridge.Proofs.Aliases
import Cartridge.Proofs.Likeness
import Cartridge.Proofs.Laziness
import Cartridge.Proofs.Partition.Calls
import Cartridge.Proofs.RomFs.Calls
import Cartridge.Proofs.Xci.Calls
import Cartridge.Proofs.Likewise
import Cartridge.Proofs.Displacement
import Cartridge.Proofs.Xci.KeyArea
import Cartridge.Proofs.Nca.Readable
import Cartridge.Proofs.Nca.Rewriting
import Cartridge.Proofs.Nca.Unsupported
import Cartridge.Proofs.Validity
import Cartridge.Proofs.Detecting
import Cartridge.Proofs.Nca.Failures
import Cartridge.Proofs.Verdicts
import Cartridge.Proofs.Xci.Checking
import Cartridge.Proofs.Offsets
import Cartridge.Proofs.Structures
import Cartridge.Proofs.Rounding
import Cartridge.Proofs.Prefixes
import Cartridge.Proofs.Nca.KeptKeys
import Cartridge.Proofs.Nca.SectionNames
