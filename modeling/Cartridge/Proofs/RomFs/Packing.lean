import Cartridge.Proofs.RomFs.Reading

/-!
# Images of given tables

Any buckets, tables and file data can be put into an image: a header, the two hash tables, the
directory table, the file table, and the data, one behind the other (`Parts.image`). Parsing such an
image walks just these tables.

Results:
* `bucketsOf_bucketBytes`: buckets that were written are read back.
* `Parts.Fits.stored`: the tables lie in the image where its header says.
* `Parts.Fits.outcome_tree`: parsing the image gives what walking the tables gives.
-/

namespace Cartridge.RomFs

/-- The bytes of a hash table. -/
def bucketBytes (buckets : List UInt32) : List UInt8 := buckets.flatMap Endian.bytes32

theorem length_bytes32 (w : UInt32) : (Endian.bytes32 w).length = 4 := Endian.length_little 4 _

theorem length_bucketBytes (buckets : List UInt32) :
    (bucketBytes buckets).length = buckets.length * 4 :=
  length_flatMap length_bytes32 buckets

theorem wordsOf_bucketBytes (buckets : List UInt32) :
    wordsOf buckets.length (bucketBytes buckets) = buckets := by
  induction buckets with
  | nil => rfl
  | cons w rest ih =>
    have htake : (bucketBytes (w :: rest)).take 4 = Endian.bytes32 w :=
      List.take_left' (length_bytes32 w)
    have hdrop : (bucketBytes (w :: rest)).drop 4 = bucketBytes rest :=
      List.drop_left' (length_bytes32 w)
    rw [List.length_cons, wordsOf, htake, hdrop, ih, Endian.word32_bytes32]

/-- Buckets that were written are read back. -/
theorem bucketsOf_bucketBytes (buckets : List UInt32) :
    bucketsOf (bucketBytes buckets) = buckets.toArray := by
  rw [bucketsOf, length_bucketBytes, Nat.mul_div_cancel _ (by decide), wordsOf_bucketBytes]

/-- What an image is made of. -/
structure Parts where
  dirBuckets : List UInt32
  fileBuckets : List UInt32
  dirTable : List UInt8
  fileTable : List UInt8
  data : List UInt8

namespace Parts

/-- Where the hash table of the files begins; that of the directories is behind the header. -/
def fileHashOffset (p : Parts) : Nat := Header.size + (bucketBytes p.dirBuckets).length

/-- Where the directory table begins. -/
def dirTableOffset (p : Parts) : Nat := p.fileHashOffset + (bucketBytes p.fileBuckets).length

/-- Where the file table begins. -/
def fileTableOffset (p : Parts) : Nat := p.dirTableOffset + p.dirTable.length

/-- Where the data of files begins. -/
def dataOffset (p : Parts) : Nat := p.fileTableOffset + p.fileTable.length

/-- The header that says where the parts are. -/
def header (p : Parts) : Header where
  headerSize := UInt64.ofNat Header.size
  dirHashOffset := UInt64.ofNat Header.size
  dirHashSize := UInt64.ofNat (bucketBytes p.dirBuckets).length
  dirTableOffset := UInt64.ofNat p.dirTableOffset
  dirTableSize := UInt64.ofNat p.dirTable.length
  fileHashOffset := UInt64.ofNat p.fileHashOffset
  fileHashSize := UInt64.ofNat (bucketBytes p.fileBuckets).length
  fileTableOffset := UInt64.ofNat p.fileTableOffset
  fileTableSize := UInt64.ofNat p.fileTable.length
  fileDataOffset := UInt64.ofNat p.dataOffset

/-- The image: the parts one behind the other. -/
def image (p : Parts) : List UInt8 :=
  Header.layout.encode p.header ++ (bucketBytes p.dirBuckets ++ (bucketBytes p.fileBuckets ++
    (p.dirTable ++ (p.fileTable ++ p.data))))

/-- The image in memory. -/
def media (p : Parts) : Media := ⟨[.memory p.image]⟩

/-- The whole image. -/
def view (p : Parts) : View := .ofRegion (.medium 0 p.image.length)

/-- The tables are not larger than parsing accepts, and the image can be addressed. -/
structure Fits (p : Parts) : Prop where
  dirHash : (bucketBytes p.dirBuckets).length ≤ greatestTableSize
  fileHash : (bucketBytes p.fileBuckets).length ≤ greatestTableSize
  dirTable : p.dirTable.length ≤ greatestTableSize
  fileTable : p.fileTable.length ≤ greatestTableSize
  image : p.image.length < UInt64.size

variable {p : Parts}

/-- A part of an image is a table that parsing accepts. -/
theorem tableAt_of_eq (front back : List UInt8) {image table : List UInt8} {offset : Nat}
    (heq : image = front ++ (table ++ back)) (hoffset : front.length = offset)
    (hsize : table.length ≤ greatestTableSize) (himage : image.length < UInt64.size) :
    TableAt image (UInt64.ofNat offset) (UInt64.ofNat table.length) table := by
  subst heq hoffset
  simp only [List.length_append] at himage
  have hoffset : (UInt64.ofNat front.length).toNat = front.length :=
    UInt64.toNat_ofNat_of_lt' (by omega)
  have hlength : (UInt64.ofNat table.length).toNat = table.length :=
    UInt64.toNat_ofNat_of_lt' (by omega)
  constructor
  · rw [hlength]
    exact hsize
  · rw [hoffset, hlength]
    exact slice?_append front back rfl rfl

/-- **The tables lie in the image where its header says.** -/
theorem Fits.stored (h : p.Fits) :
    Stored p.image p.header (bucketBytes p.dirBuckets) (bucketBytes p.fileBuckets) p.dirTable
      p.fileTable := by
  have hheader := Layout.length_encode Header.layout p.header
  rw [Header.size_layout] at hheader
  constructor
  · exact slice?_append [] _ rfl (Layout.length_encode _ p.header)
  · rfl
  · exact tableAt_of_eq _ _ rfl hheader h.dirHash h.image
  · refine tableAt_of_eq (Header.layout.encode p.header ++ bucketBytes p.dirBuckets)
      (p.dirTable ++ (p.fileTable ++ p.data)) ?_ ?_ h.fileHash h.image
    · rw [Parts.image, List.append_assoc]
    · rw [List.length_append, hheader, fileHashOffset]
  · refine tableAt_of_eq
      (Header.layout.encode p.header ++ (bucketBytes p.dirBuckets ++ bucketBytes p.fileBuckets))
      (p.fileTable ++ p.data) ?_ ?_ h.dirTable h.image
    · simp only [Parts.image, List.append_assoc]
    · simp only [List.length_append, hheader, dirTableOffset, fileHashOffset, Nat.add_assoc]
  · refine tableAt_of_eq
      (Header.layout.encode p.header ++
        (bucketBytes p.dirBuckets ++ (bucketBytes p.fileBuckets ++ p.dirTable)))
      p.data ?_ ?_ h.fileTable h.image
    · simp only [Parts.image, List.append_assoc]
    · simp only [List.length_append, hheader, fileTableOffset, dirTableOffset, fileHashOffset,
        Nat.add_assoc]

/-- The tree that the image has if the walk of its tables gives an arena. -/
def tree (p : Parts) (a : Arena) : Tree :=
  ⟨a, p.header, p.dirBuckets.toArray, p.fileBuckets.toArray, p.dirTable, p.fileTable⟩

/-- **Parsing the image gives what walking the tables gives.** -/
theorem Fits.outcome_tree (h : p.Fits) {a : Arena} (hwalk : walk p.dirTable p.fileTable = .ok a) :
    ∃ i, (Image.tree p.media).outcome (.ofView p.view) = (.ok (p.tree a), i) := by
  have hholds : p.view.region.Holds p.media p.image := Region.holds_memory rfl h.image
  obtain ⟨i, heq, -⟩ := (Image.sound_ofView p.media p.view).outcome_tree
  have hread : (Tree.read p.view.region p.media).result = .ok (p.tree a) := by
    rw [(h.stored.tablesRead hholds).result_read, hwalk]
    dsimp only
    rw [bucketsOf_bucketBytes, bucketsOf_bucketBytes, tree]
  exact ⟨i, heq.trans (congrArg (·, i) hread)⟩

end Parts

end Cartridge.RomFs
