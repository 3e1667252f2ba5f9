import Cartridge.Proofs.Nca.Failures
import Cartridge.Proofs.Partition.Calls
import Cartridge.Proofs.Xci.KeyArea

/-!
# Verdicts on formats

Some errors are verdicts: they say that bytes are not of a format, and which bytes these are. A verdict
should be given on bytes that have been read. Directory tree images keep to this, and report a header
that cannot be read as that. Partition filesystems and card images do not: where the bytes of the magic
cannot be read they are taken for zeros and judged all the same. Neither does a section of a content
archive, whose beginning is judged to be of no format if it cannot be read.

So a verdict on a partition filesystem or a card image shows the bytes that are there if these can be
read, and else zeros (`Region.Reported`), and what is said of a section is true of its beginning if that
can be read. All other errors on the way are no verdicts, except that a storage may give one itself.

Results:
* `JudgesBy.bind`, `judgesBy_decodeAt`: where verdicts can come from.
* `Region.Built.length_readAt`: reads give as many bytes as they are asked for.
* `Region.reported_iff`: what is reported to be at a place.
* `Partition.judgesBy_read`, `RomFs.judgesBy_read`, `Xci.judgesBy_read`, `Nca.judgesBy_advance`: the
  verdicts of each format.
* `verdicts_on_formats`: which verdicts parsing ends with.
-/

namespace Cartridge

variable {α β : Type} {media : Media} {region : Region} {view : View} {P : Error → Prop}
  {x : Except Error α} {e : Error}

/-! ## Verdicts -/

/-- An error that says that some bytes are not of a format. -/
def Error.IsVerdict : Error → Prop
  | invalidMagic _ _ | unrecognizedInnerFormat _ => True
  | _ => False

theorem Error.isVerdict_invalidMagic (format : Format) (found : List UInt8) :
    (invalidMagic format found).IsVerdict := trivial

theorem Error.isVerdict_unrecognizedInnerFormat (index : Nat) :
    (unrecognizedInnerFormat index).IsVerdict := trivial

/-- The verdicts that a computation can fail with are among the given ones. -/
def JudgesBy (P : Error → Prop) (x : Except Error α) : Prop :=
  ∀ e, x = .error e → e.IsVerdict → P e

theorem judgesBy_ok (a : α) : JudgesBy P (.ok a) := fun _ h => nomatch h

theorem judgesBy_error (h : e.IsVerdict → P e) : JudgesBy P (.error e : Except Error α) := by
  intro e' he
  cases he
  exact h

/-- The verdicts of a sequence are those of its parts. -/
theorem JudgesBy.bind {f : α → Except Error β} (hx : JudgesBy P x)
    (hf : ∀ a, x = .ok a → JudgesBy P (f a)) : JudgesBy P (x >>= f) := by
  intro e h
  obtain h | ⟨a, ha, h⟩ := bind_eq_error_iff.mp h
  · exact hx e h
  · exact hf a ha e h

theorem JudgesBy.mono {Q : Error → Prop} (h : JudgesBy P x) (hPQ : ∀ e, P e → Q e) : JudgesBy Q x :=
  fun e he hverdict => hPQ e (h e he hverdict)

/-- A check gives the verdict that it ends with if it fails. -/
theorem judgesBy_check {p : Prop} [Decidable p] (he : e.IsVerdict → P e) (hx : JudgesBy P x) :
    JudgesBy P (do
      if p then throw e
      x) := by
  by_cases hp : p
  · rw [if_pos hp]
    exact judgesBy_error he
  · rw [if_neg hp]
    exact hx

/-! ## Where no verdicts come from -/

theorem judgesBy_take {source : Source} {position length : Nat} :
    JudgesBy P (Layout.take source position length) := by
  unfold Layout.take
  split
  · exact judgesBy_ok _
  · rename_i failure _
    cases failure <;> exact judgesBy_error False.elim

/-- Decoding a structure gives no verdict. A literal that is not there is data that cannot be. -/
theorem judgesBy_decodeAt {source : Source} (layout : Layout α) (position : Nat) :
    JudgesBy P (layout.decodeAt source position) := by
  induction layout generalizing position with
  | bytes | word8 | word16 | word32 | word64 => exact judgesBy_take.bind fun _ _ => judgesBy_ok _
  | tag ofByte? =>
    refine judgesBy_take.bind fun field _ => ?_
    split
    · exact judgesBy_ok _
    · exact judgesBy_error False.elim
  | literal magic =>
    refine judgesBy_take.bind fun field _ => ?_
    split
    · exact judgesBy_ok _
    · exact judgesBy_error False.elim
  | seq first second ih₁ ih₂ =>
    exact (ih₁ position).bind fun _ _ => (ih₂ _).bind fun _ _ => judgesBy_ok _
  | record build fields _ _ layout ih => exact (ih position).bind fun _ _ => judgesBy_ok _

theorem judgesBy_checkRange (size offset length : Nat) :
    JudgesBy P (Region.checkRange size offset length) := by
  unfold Region.checkRange
  split
  · exact judgesBy_ok _
  · exact judgesBy_error False.elim

theorem judgesBy_subview (offset size : Nat) : JudgesBy P (view.subview offset size) := by
  refine JudgesBy.bind ?_ fun _ _ => judgesBy_ok _
  exact (judgesBy_checkRange _ _ _).bind fun _ _ => judgesBy_ok _

/-! ## Reads give what they are asked for -/

/-- The last sector to decrypt ends behind what is to be read. -/
theorem XtsLayer.le_alignedEnd (l : XtsLayer) {offset length : Nat}
    (h : l.dataOffset + offset + length ≤ l.sectionSize)
    (hsection : l.sectionSize + sectorSize ≤ UInt64.size) :
    l.dataOffset + offset + length ≤ l.alignedEnd offset length := by
  have hs : sectorSize = 512 := rfl
  have hsize : UInt64.size = 2 ^ 64 := rfl
  have hv : (UInt64.ofNat (l.dataOffset + offset + length)).toNat = l.dataOffset + offset + length :=
    UInt64.toNat_ofNat_of_lt' (by omega)
  unfold alignedEnd
  rw [Align.toNat_up (k := 9) rfl (by rw [hv]; omega), hv]
  omega

namespace Region

variable {media : Media} {r : Region} {offset length : Nat} {bytes : List UInt8}

/-- Whether a read gives enough is seen where the bounds are not looked at. -/
theorem length_of_readAt (hfetch : ∀ part, r.fetch media offset length = .ok part →
    part.length = length) (h : r.readAt media offset length = .ok bytes) :
    bytes.length = length := by
  unfold readAt at h
  rw [readWithin_eq _ (le_of_readAt h)] at h
  split at h
  · rename_i hzero
    cases h
    exact hzero.symm
  · exact hfetch bytes h

/-- **A read that succeeds gives as many bytes as were asked for**, through all ciphers. -/
theorem Built.length_readAt (hr : r.Built) (hmedium : r.mediumSize + sectorSize ≤ UInt64.size)
    (h : r.readAt media offset length = .ok bytes) : bytes.length = length := by
  induction hr generalizing offset length bytes with
  | medium =>
    refine length_of_readAt (fun part hread => ?_) h
    exact Medium.length_read hread
  | part _ hpart ih =>
    obtain ⟨hle, rfl⟩ := subregion_eq_ok_iff.mp hpart
    rw [readAt_part media hle (le_of_readAt h)] at h
    exact ih hmedium h
  | counter _ hcounter ih =>
    obtain ⟨-, rfl⟩ := decryptCounter_eq_ok_iff.mp hcounter
    refine length_of_readAt (fun part hfetch => ?_) h
    obtain ⟨raw, hraw, hpart⟩ := bind_eq_ok_iff.mp hfetch
    cases hpart
    unfold CounterLayer.decrypt
    rw [List.length_drop, Counter.length_apply, ih hmedium hraw, Nat.add_sub_cancel_left]
  | @xts base _ layer hbase hxts ih =>
    obtain ⟨hle, hdata, rfl⟩ := decryptXts_eq_ok_iff.mp hxts
    have hin : offset + length ≤ layer.size := le_of_readAt h
    have hbuilt := hbase.parentOffset_add_size_le
    have hsection : layer.sectionSize + sectorSize ≤ UInt64.size := by
      have hbase : base.mediumSize + sectorSize ≤ UInt64.size := hmedium
      omega
    have hend := layer.le_alignedEnd (show layer.dataOffset + offset + length ≤ _ by omega) hsection
    refine length_of_readAt (fun part hfetch => ?_) h
    obtain ⟨raw, hraw, hpart⟩ := bind_eq_ok_iff.mp hfetch
    cases hpart
    have hsector : layer.firstSector offset * sectorSize ≤ layer.dataOffset + offset :=
      Nat.div_mul_le_self _ _
    rw [List.length_take, List.length_drop, Xts.length_decryptArea (by decide), ih hmedium hraw]
    omega

end Region

/-! ## Bytes that are reported -/

/-- What is reported to be at a place: the bytes that are there, or zeros where they cannot be read. -/
inductive Region.Reported (media : Media) (r : Region) (offset length : Nat) (found : List UInt8) :
    Prop where
  | read (h : r.readAt media offset length = .ok found)
  | unread {e : Error} (h : r.readAt media offset length = .error e)
    (hzeros : found = List.replicate length 0)

/-- What is reported is what a read gives, with zeros instead of an error. -/
theorem Region.reported_iff {offset length : Nat} {found : List UInt8} :
    region.Reported media offset length found ↔
      found = match region.readAt media offset length with
        | .ok bytes => bytes
        | .error _ => List.replicate length 0 := by
  constructor
  · intro h
    cases h with
    | read h => rw [h]
    | unread h hzeros => rw [h, hzeros]
  · rintro rfl
    cases hread : region.readAt media offset length with
    | ok bytes => exact .read hread
    | error e => exact .unread hread rfl

/-! ## Partition filesystems -/

namespace Partition

variable {F : Flavor}

/-- A partition filesystem is judged by its first four bytes, or by zeros. -/
inductive Verdict (F : Flavor) (media : Media) (region : Region) : Error → Prop where
  | magic {found : List UInt8} (hfound : region.Reported media 0 4 found)
    (h : found ≠ F.magic.toList) : Verdict F media region (.invalidMagic F.format found)

theorem judgesBy_resolve (r : Record F) (strings : List UInt8) (dataSize : Nat) :
    JudgesBy P (r.resolve strings dataSize) := by
  have hname : JudgesBy P (nameAt strings r.nameOffset.toNat) := by
    unfold nameAt
    split
    · exact judgesBy_error False.elim
    split
    · exact judgesBy_ok _
    · exact judgesBy_error False.elim
  refine hname.bind fun name _ => ?_
  split
  · exact judgesBy_ok _
  · exact judgesBy_error False.elim

theorem judgesBy_resolveAll (strings : List UInt8) (dataSize : Nat) (records : List (Record F))
    (c : Catalog String (Entry F)) : JudgesBy P (resolveAll strings dataSize records c).result := by
  induction records generalizing c with
  | nil => exact judgesBy_ok _
  | cons r rest ih =>
    rw [result_resolveAll_cons]
    exact (judgesBy_resolve r strings dataSize).bind fun e _ => ih _

theorem judgesBy_readRecords {source : Source} (count position : Nat) :
    JudgesBy P (readRecords F source count position) := by
  induction count generalizing position with
  | zero => exact judgesBy_ok _
  | succ count ih =>
    exact (judgesBy_decodeAt _ _).bind fun _ _ => (ih _).bind fun _ _ => judgesBy_ok _

theorem judgesBy_readStrings {source : Source} (position size : Nat) :
    JudgesBy P (readStrings source position size) := by
  unfold readStrings
  split
  · exact judgesBy_ok _
  · exact judgesBy_error False.elim
  · exact judgesBy_error False.elim

/-- The magic is all that a partition filesystem is judged by. -/
theorem judgesBy_read (F : Flavor) (region : Region) (media : Media) :
    JudgesBy (Verdict F media region) (Table.read F region media).result := by
  unfold Table.read
  dsimp only
  split
  · rename_i hmagic
    exact judgesBy_error fun _ => .magic (Region.reported_iff.mpr rfl) hmagic
  · simp only [Traced.result_bind, Traced.result_liftM]
    refine (judgesBy_decodeAt _ _).bind fun header _ => ?_
    split
    · exact judgesBy_error False.elim
    · simp only [Traced.result_bind, Traced.result_liftM, Traced.result_emit, ok_bind]
      exact (judgesBy_readRecords _ _).bind fun records _ => (judgesBy_readStrings _ _).bind
        fun strings _ => (judgesBy_resolveAll _ _ _ _).bind fun _ _ => judgesBy_ok _

theorem Verdict.read_eq (h : Verdict F media region e) :
    (Table.read F region media).result = .error e := by
  cases h with
  | magic hfound h =>
    obtain rfl : _ = magicOf region media := Region.reported_iff.mp hfound
    unfold Table.read
    rw [if_pos h]
    rfl

end Partition

/-! ## Directory tree images -/

namespace RomFs

/-- A directory tree image is judged by its first eight bytes. A storage that fails behind the header may
give a verdict of its own, which is passed on. -/
inductive Verdict (media : Media) (region : Region) : Error → Prop where
  | headerSize {found : List UInt8} (hread : region.readAt media 0 8 = .ok found)
    (h : (Endian.word64 found).toNat ≠ Header.size) : Verdict media region (.invalidMagic .romFs found)
  | storage {offset length : Nat} {e : Error} (h : region.readAt media offset length = .error e) :
    Verdict media region e

theorem readAt_of_streamAt {position length : Nat} {field : List UInt8}
    (h : region.streamAt media position length = .ok field) :
    region.readAt media position length = .ok field := by
  unfold Region.streamAt at h
  dsimp only at h
  split at h
  · cases h
  · rename_i bytes hread
    split at h
    · rename_i hall
      cases h
      rwa [hall] at hread
    · cases h

/-- A header begins with eight bytes that have been read. -/
theorem exists_readAt_of_header {header : Header}
    (h : Header.layout.decodeAt (region.streamAt media) 0 = .ok header) :
    ∃ raw, region.readAt media 0 8 = .ok raw ∧ header.headerSize = Endian.word64 raw := by
  have hfields := Layout.decodeAt_record_eq_ok_iff.mp h
  obtain ⟨hfirst, -⟩ := Layout.decodeAt_seq_eq_ok_iff.mp hfields
  obtain ⟨raw, hraw, hword⟩ := bind_eq_ok_iff.mp hfirst
  unfold Layout.take at hraw
  split at hraw
  · rename_i hstream
    cases hraw
    exact ⟨raw, readAt_of_streamAt hstream, (Except.ok.inj hword).symm⟩
  · cases hraw

theorem judgesBy_readTable (table : TreeTable) (offset size : Nat) :
    JudgesBy (Verdict media region) (readTable region media table offset size) := by
  unfold readTable
  split
  · exact judgesBy_error False.elim
  split
  · exact judgesBy_error False.elim
  · intro e h _
    exact .storage h

/-- The size in the header is all that an image is judged by. -/
theorem judgesBy_read (hregion : region.Built)
    (hmedium : region.mediumSize + sectorSize ≤ UInt64.size) (media : Media) :
    JudgesBy (Verdict media region) (Tree.read region media).result := by
  unfold Tree.read
  simp only [Traced.result_bind, Traced.result_liftM]
  refine (judgesBy_decodeAt _ _).bind fun header hheader => ?_
  split
  · rename_i hsize
    obtain ⟨raw, hread, hword⟩ := exists_readAt_of_header hheader
    rw [hword] at hsize ⊢
    rw [Endian.bytes64_word64 (hregion.length_readAt hmedium hread)]
    exact judgesBy_error fun _ => .headerSize hread hsize
  · simp only [Traced.result_bind, Traced.result_liftM, Traced.result_emit, ok_bind]
    refine (judgesBy_readTable _ _ _).bind fun _ _ => (judgesBy_readTable _ _ _).bind fun _ _ =>
      (judgesBy_readTable _ _ _).bind fun _ _ => (judgesBy_readTable _ _ _).bind fun _ _ => ?_
    split
    · exact judgesBy_error False.elim
    · exact judgesBy_ok _

/-- A header that cannot be read is reported as that. -/
theorem read_of_unreadable (h : region.readAt media 0 8 = .error e) :
    ∃ failure, region.streamAt media 0 8 = .error failure ∧
      (Tree.read region media).result = .error failure.toStructureError := by
  obtain ⟨failure, hfailure⟩ : ∃ failure, region.streamAt media 0 8 = .error failure := by
    cases hstream : region.streamAt media 0 8 with
    | ok field =>
      rw [readAt_of_streamAt hstream] at h
      cases h
    | error failure => exact ⟨failure, rfl⟩
  refine ⟨failure, hfailure, ?_⟩
  have htake : Layout.take (region.streamAt media) 0 8 = .error failure.toStructureError := by
    unfold Layout.take
    rw [hfailure]
  have hheader : Header.layout.decodeAt (region.streamAt media) 0
      = .error failure.toStructureError := by
    refine bind_eq_error_iff.mpr (.inl (bind_eq_error_iff.mpr (.inl ?_)))
    exact bind_eq_error_iff.mpr (.inl htake)
  unfold Tree.read
  rw [Traced.result_bind, Traced.result_liftM, hheader]
  rfl

end RomFs

/-! ## Card images -/

namespace Xci

/-- A card image in which no header is found is judged by the four bytes where one without key area has
its magic, or by zeros. One with a header is judged by its root partition. -/
inductive Verdict (media : Media) (view : View) : Error → Prop where
  | magic {found : List UInt8} (hoffset : headerOffset? view.region media = none)
    (hfound : view.region.Reported media magicOffset 4 found) :
    Verdict media view (.invalidMagic .xci found)
  | root {headerOffset : Nat} {header : Header} {rootView : View} {e : Error}
    (hoffset : headerOffset? view.region media = some headerOffset)
    (hheader : Header.layout.decodeAt (view.region.streamAt media) headerOffset = .ok header)
    (hlt : headerOffset + header.rootOffset.toNat < view.size)
    (hroot : view.subview (headerOffset + header.rootOffset.toNat)
      (view.size - (headerOffset + header.rootOffset.toNat)) = .ok rootView)
    (h : Partition.Verdict .hashed media rootView.region e) : Verdict media view e

theorem judgesBy_openPartitions (root : Partition.Table .hashed) (rootView : View)
    (entries : List (Partition.Entry .hashed)) :
    JudgesBy P (openPartitions root rootView entries).result := by
  induction entries with
  | nil => exact judgesBy_ok _
  | cons entry rest ih =>
    rw [openPartitions, Traced.result_bind, result_openPartition, Partition.Archive.result_openEntry]
    refine ((judgesBy_subview _ _).bind fun _ _ => judgesBy_ok _).bind fun _ _ => ?_
    rw [Traced.result_bind]
    exact ih.bind fun _ _ => judgesBy_ok _

/-- The magic and the root partition are all that a card image is judged by. -/
theorem judgesBy_read (view : View) (media : Media) :
    JudgesBy (Verdict media view) (Contents.read view media).result := by
  cases hoffset : headerOffset? view.region media with
  | none =>
    unfold Contents.read
    rw [hoffset]
    exact judgesBy_error fun _ => .magic hoffset (Region.reported_iff.mpr rfl)
  | some headerOffset =>
    rw [Contents.result_read hoffset]
    refine (judgesBy_decodeAt _ _).bind fun header hheader => ?_
    dsimp only
    split
    · exact judgesBy_error False.elim
    · rename_i hlt
      refine (judgesBy_subview _ _).bind fun rootView hroot => ?_
      refine ((Partition.judgesBy_read _ _ _).mono fun e h => ?_).bind fun root _ =>
        (judgesBy_openPartitions _ _ _).bind fun _ _ => judgesBy_ok _
      exact .root hoffset hheader (Nat.lt_of_not_le hlt) hroot h

theorem Verdict.read_eq (h : Verdict media view e) : (Contents.read view media).result = .error e := by
  cases h with
  | magic hoffset hfound =>
    obtain rfl := Region.reported_iff.mp hfound
    unfold Contents.read
    rw [hoffset]
    rfl
  | root hoffset hheader hlt hroot h =>
    rw [Contents.result_read hoffset, hheader, ok_bind]
    dsimp only
    rw [if_neg (Nat.not_le_of_lt hlt), hroot, ok_bind, h.read_eq]
    rfl

end Xci

/-! ## Content archives -/

/-- Detection gives an answer, and the formats that are told by the beginning only where it can be
read. -/
theorem Format.exists_result_detect (region : Region) (media : Media) (keys : KeyStore) :
    ∃ found, (detect region media keys).result = .ok found ∧ ∀ f, f.beginning? ≠ none →
      (found = some f ↔ ∃ head, region.readAt media 0 (min region.size headSize) = .ok head ∧
        f.Shows keys head) := by
  unfold detect
  cases region.readAt media 0 (min region.size headSize) with
  | error e => exact ⟨none, rfl, fun f _ => iff_of_false nofun (fun ⟨_, h, _⟩ => nomatch h)⟩
  | ok head =>
    refine ⟨_, rfl, fun f hf => ?_⟩
    have hother : ¬ (f = .xci ∧ (Xci.headerOffset? region media).isSome = true) := by
      rintro ⟨rfl, -⟩
      exact hf rfl
    simp only [Option.or_eq_some_iff, fallback_eq_some_iff, hother, and_false, or_false,
      detectBytes_eq_some_iff hf, Except.ok.injEq, exists_eq_left']

namespace Nca

variable {keys : KeyStore} {main : Header} {archive : View} {d : Descriptor} {a a' : Archive}

/-- A section that has its key is judged by its decrypted beginning: this cannot be read, or is not that
of the declared filesystem. -/
inductive Descriptor.Verdict (archive : View) (media : Media) (keys : KeyStore) (main : Header)
    (d : Descriptor) : Error → Prop where
  | contents {key : SectionKey} {view : View} (hkey : Supplied main keys d.protection key)
    (hview : sectionView archive d key = .ok view)
    (hhead : ¬ ∃ head, view.region.readAt media 0 (min view.region.size Format.headSize) = .ok head ∧
      d.kind.format.Shows keys head) :
    Verdict archive media keys main d (.unrecognizedInnerFormat d.index)

/-- Of a content archive one of its sections is judged. A storage that fails on the headers may give a
verdict of its own, which is passed on. -/
inductive Archive.Verdict (media : Media) (keys : KeyStore) (a : Archive) : Error → Prop where
  | ofSection {h : Headers} {ds : List Descriptor} {d : Descriptor} {e : Error}
    (hstage : a.stage = .sectionsResolved h ds) (hd : d ∈ ds)
    (h : d.Verdict a.view media keys h.main e) : Verdict media keys a e
  | storage {e : Error} (h : a.view.region.readAt media 0 headersSize = .error e) :
    Verdict media keys a e

theorem judgesBy_readSectionHeader (version : Version) (plain : List UInt8) (index : Nat)
    (entry : SectionEntry) : JudgesBy P (readSectionHeader version plain index entry) := by
  unfold readSectionHeader
  split
  · exact judgesBy_ok _
  · exact (judgesBy_decodeAt _ _).bind fun _ _ => judgesBy_ok _

/-- The headers are not judged, by whatever they are encrypted. -/
theorem judgesBy_readHeaders (region : Region) (media : Media) (keys : KeyStore) :
    JudgesBy (fun e => region.readAt media 0 headersSize = .error e)
      (readHeaders region media keys) := by
  unfold readHeaders
  refine judgesBy_check False.elim ?_
  split
  · exact judgesBy_error False.elim
  refine JudgesBy.bind (fun e h _ => h) fun raw _ => JudgesBy.bind ?_ fun decrypted _ => ?_
  · unfold decryptMainHeader
    dsimp only
    split
    · exact judgesBy_ok _
    · exact judgesBy_error False.elim
  · exact (judgesBy_decodeAt _ _).bind fun _ _ => (judgesBy_readSectionHeader _ _ _ _).bind
      fun _ _ => (judgesBy_readSectionHeader _ _ _ _).bind fun _ _ =>
        (judgesBy_readSectionHeader _ _ _ _).bind fun _ _ =>
          (judgesBy_readSectionHeader _ _ _ _).bind fun _ _ => judgesBy_ok _

theorem judgesBy_describe (h : Headers) (archiveSize : Nat) : JudgesBy P (h.describe archiveSize) := by
  intro e he hverdict
  by_cases hv : h.version = .nca0
  · unfold Headers.describe at he
    rw [if_pos hv] at he
    cases he
    exact hverdict.elim
  · obtain ⟨front, p, back, -, -, hfault⟩ := (Headers.describe_eq_error_iff hv).mp he
    cases hfault <;> exact hverdict.elim

theorem Lacking.not_isVerdict {p : Protection} (h : Lacking main keys p e) : ¬ e.IsVerdict := by
  cases h <;> exact id

/-- A missing key is no verdict. -/
theorem judgesBy_keyOf (p : Protection) : JudgesBy P (keyOf main keys p) := by
  by_cases hp : p.isSupported = true
  · obtain ⟨key, hkey⟩ | ⟨e, hlacking⟩ := supplied_or_lacking main keys hp
    · rw [hkey.keyOf_eq]
      exact judgesBy_ok _
    · rw [hlacking.keyOf_eq]
      exact judgesBy_error fun h => (hlacking.not_isVerdict h).elim
  · obtain ⟨encryption, rfl⟩ := Protection.eq_unsupported hp
    exact judgesBy_error False.elim

theorem supplied_of_keyOf {p : Protection} {key : SectionKey} (h : keyOf main keys p = .ok key) :
    Supplied main keys p key := by
  by_cases hp : p.isSupported = true
  · obtain ⟨key', hkey⟩ | ⟨e, hlacking⟩ := supplied_or_lacking main keys hp
    · obtain rfl := Except.ok.inj (hkey.keyOf_eq.symm.trans h)
      exact hkey
    · rw [hlacking.keyOf_eq] at h
      cases h
  · obtain ⟨encryption, rfl⟩ := Protection.eq_unsupported hp
    cases h

theorem judgesBy_sectionView (archive : View) (d : Descriptor) (key : SectionKey) :
    JudgesBy P (sectionView archive d key) := by
  cases key with
  | plain => exact judgesBy_subview _ _
  | counter key =>
    refine JudgesBy.bind ?_ fun _ _ => judgesBy_ok _
    exact (judgesBy_checkRange _ _ _).bind fun _ _ => judgesBy_ok _
  | xts key =>
    refine JudgesBy.bind ?_ fun _ _ => judgesBy_ok _
    refine (judgesBy_checkRange _ _ _).bind fun _ _ => ?_
    split
    · exact judgesBy_ok _
    · exact judgesBy_error False.elim

/-- What is detected in a section is all that it is judged by. -/
theorem judgesBy_openAlone (archive : View) (media : Media) (keys : KeyStore) (main : Header)
    (d : Descriptor) :
    JudgesBy (d.Verdict archive media keys main) (openAlone archive media keys main d) := by
  refine (judgesBy_keyOf _).bind fun key hkey => (judgesBy_sectionView _ _ _).bind fun view hview => ?_
  obtain ⟨found, hfound, hshows⟩ := Format.exists_result_detect view.region media keys
  rw [hfound, ok_bind]
  refine JudgesBy.bind (fun e he _ => ?_) fun _ _ => judgesBy_ok _
  by_cases hkind : found = some d.kind.format
  · obtain ⟨filesystem, hresult, -⟩ := result_recognize d view
    rw [hkind, hresult] at he
    cases he
  · rw [result_recognize_of_ne hkind] at he
    cases he
    exact .contents (supplied_of_keyOf hkey) hview
      fun h => hkind ((hshows _ d.kind.beginning?_format).mpr h)

theorem Descriptor.Verdict.openAlone_eq (h : d.Verdict archive media keys main e) :
    openAlone archive media keys main d = .error e := by
  cases h with
  | @contents key view hkey hview hhead =>
    obtain ⟨found, hfound, hshows⟩ := Format.exists_result_detect view.region media keys
    unfold openAlone
    rw [hkey.keyOf_eq, ok_bind, hview, ok_bind, hfound, ok_bind,
      result_recognize_of_ne (hhead ∘ (hshows _ d.kind.beginning?_format).mp)]
    rfl

/-- A step judges a section, or passes on what a storage says. -/
theorem judgesBy_advance (media : Media) (keys : KeyStore) (a : Archive) :
    JudgesBy (a.Verdict media keys) (a.advance media keys) := by
  obtain ⟨view, stage⟩ := a
  cases stage with
  | unparsed =>
    exact ((judgesBy_readHeaders _ _ _).mono fun e h => .storage h).bind fun _ _ => judgesBy_ok _
  | headerDecrypted h => exact (judgesBy_describe _ _).bind fun _ _ => judgesBy_ok _
  | sectionsResolved h ds =>
    refine JudgesBy.bind (fun e he hverdict => ?_) fun _ _ => judgesBy_ok _
    obtain ⟨ring, hopen⟩ := outcome_openSections_empty view media keys h.main ds
    rw [hopen] at he
    obtain ⟨front, d, back, hds, -, hd⟩ := mapM_eq_error_iff.mp he
    have hmem : d ∈ ds.filter Descriptor.isSupported := by
      rw [hds]
      exact List.mem_append_cons_self
    exact .ofSection rfl (List.mem_filter.mp hmem).1 (judgesBy_openAlone _ _ _ _ _ e hd hverdict)
  | parsed h sections => exact judgesBy_ok _

end Nca

/-! ## Parsing -/

/-- Containers that cannot be read stay as they were. -/
theorem Lazy.outcome_force_fresh_eq_error_iff {σ τ : Type} {L : Lazy σ τ} {c : σ} :
    (L.force media >>= fun _ => pure ()).outcome (L.fresh view) = (.error e, c) ↔
      c = L.fresh view ∧ (L.read view media).result = .error e := by
  rw [Access.outcome_bind, Access.outcome, L.force_fresh]
  cases (L.read view media).result with
  | ok t =>
    refine iff_of_false ?_ ?_
    · intro hfail
      cases hfail
    · rintro ⟨-, hfail⟩
      cases hfail
  | error e' => simp only [Prod.mk.injEq, Except.error.injEq, and_comm, eq_comm]

/-- **The verdicts that parsing ends with**, on any media, with any faults.

* Partition filesystems and card images: exactly these verdicts. They show the bytes at the place of the
  magic if these can be read, and zeros if not.
* Directory tree images: a verdict shows the bytes that were read. A beginning that cannot be read is
  reported as such, and not judged.
* Content archives, whatever happened to them before: a verdict is on a section whose key is there and
  whose decrypted beginning is not that of the declared filesystem, or cannot be read. -/
theorem verdicts_on_formats (media : Media) (view : View) :
    (∀ {F : Partition.Flavor} {e a}, e.IsVerdict →
      ((Partition.Archive.parse media).outcome (.ofView view : Partition.Archive F) = (.error e, a) ↔
        a = .ofView view ∧ Partition.Verdict F media view.region e)) ∧
    (∀ {e i}, e.IsVerdict →
      ((Xci.Image.parse media).outcome (.ofView view) = (.error e, i) ↔
        i = .ofView view ∧ Xci.Verdict media view e)) ∧
    (∀ {e i}, e.IsVerdict → view.region.Built →
      view.region.mediumSize + sectorSize ≤ UInt64.size →
      (RomFs.Image.parse media).outcome (.ofView view) = (.error e, i) →
        i = .ofView view ∧ RomFs.Verdict media view.region e) ∧
    (∀ {e}, view.region.readAt media 0 8 = .error e →
      ∃ failure, view.region.streamAt media 0 8 = .error failure ∧
        (RomFs.Image.parse media).outcome (.ofView view)
          = (.error failure.toStructureError, .ofView view)) ∧
    ∀ {e keys} {a a' : Nca.Archive}, e.IsVerdict →
      (Nca.Archive.parse media keys).outcome a = (.error e, a') → a'.Verdict media keys e := by
  refine ⟨fun {F e a} he => ?_, fun {e i} he => ?_, fun {e i} he hbuilt hmedium hparse => ?_,
    fun {e} hread => ?_, fun {e keys a a'} he hparse => ?_⟩
  · refine (Lazy.outcome_force_fresh_eq_error_iff (L := Partition.Archive.parts F)).trans
      (and_congr_right fun _ => ⟨fun h => ?_, fun h => h.read_eq⟩)
    exact Partition.judgesBy_read F view.region media e h he
  · refine (Lazy.outcome_force_fresh_eq_error_iff (L := Xci.Image.parts)).trans
      (and_congr_right fun _ => ⟨fun h => ?_, fun h => h.read_eq⟩)
    exact Xci.judgesBy_read view media e h he
  · obtain ⟨hi, h⟩ := (Lazy.outcome_force_fresh_eq_error_iff (L := RomFs.Image.parts)).mp hparse
    exact ⟨hi, RomFs.judgesBy_read hbuilt hmedium media e h he⟩
  · obtain ⟨failure, hfailure, h⟩ := RomFs.read_of_unreadable hread
    exact ⟨failure, hfailure,
      (Lazy.outcome_force_fresh_eq_error_iff (L := RomFs.Image.parts)).mpr ⟨rfl, h⟩⟩
  · rw [Nca.Archive.outcome_parse] at hparse
    exact Nca.judgesBy_advance media keys a' e (Nca.Archive.advance_of_climb hparse) he

end Cartridge

/-! ## A device that does not answer, and a view that is too short -/

namespace Cartridge.Unread

def failure : StreamFailure := .other "device not ready"

/-- A device every read of which fails. -/
def broken : Media := ⟨[.device ⟨0xE00, fun _ => 0, fun _ _ => some (.stream failure)⟩]⟩

/-- Zeros instead of the header of a directory tree image. -/
def zeros : Media := ⟨[.memory (List.replicate 0x50 0)]⟩

def zerosView : View := .ofRegion (.medium 0 0x50)

/-- The section of the specimen cannot be read. -/
theorem unread_descriptor : Nca.Specimen.descriptor.Verdict Nca.Specimen.view broken
    Nca.Specimen.keys Nca.Specimen.headers.main (.unrecognizedInnerFormat 0) := by
  refine .contents (.counter rfl) Nca.Specimen.sectionView_eq ?_
  rintro ⟨head, hread, -⟩
  have hfails : Nca.Specimen.sectionView.region.readAt broken 0
      (min Nca.Specimen.sectionView.region.size Format.headSize) = .error (.stream failure) := rfl
  rw [hfails] at hread
  cases hread

/-- Nothing can be read of the specimen, and still verdicts are given on it. Only as a directory tree
image it is not judged, as zeros are that can be read. -/
theorem verdicts_on_broken :
    (Partition.Archive.parse broken).outcome (.ofView Nca.Specimen.view : Partition.Archive .hashed)
      = (.error (.invalidMagic .hfs0 [0, 0, 0, 0]), .ofView Nca.Specimen.view) ∧
    (Xci.Image.parse broken).outcome (.ofView Nca.Specimen.view)
      = (.error (.invalidMagic .xci [0, 0, 0, 0]), .ofView Nca.Specimen.view) ∧
    (RomFs.Image.parse broken).outcome (.ofView Nca.Specimen.view)
      = (.error failure.toStructureError, .ofView Nca.Specimen.view) ∧
    (RomFs.Image.parse zeros).outcome (.ofView zerosView)
      = (.error (.invalidMagic .romFs (List.replicate 8 0)), .ofView zerosView) ∧
    RomFs.Verdict zeros zerosView.region (.invalidMagic .romFs (List.replicate 8 0)) ∧
    (Nca.Archive.parse broken Nca.Specimen.keys).outcome Nca.Specimen.described
      = (.error (.unrecognizedInnerFormat 0), Nca.Specimen.described) ∧
    Nca.Specimen.described.Verdict broken Nca.Specimen.keys (.unrecognizedInnerFormat 0) := by
  obtain ⟨hpartition, hcard, -, hunread, hcontent⟩ := verdicts_on_formats broken Nca.Specimen.view
  obtain ⟨-, -, htree, -, -⟩ := verdicts_on_formats zeros zerosView
  have hmagic (f : Format) (found : List UInt8) := Error.isVerdict_invalidMagic f found
  have hzeros : (RomFs.Image.parse zeros).outcome (.ofView zerosView)
      = (.error (.invalidMagic .romFs (List.replicate 8 0)), .ofView zerosView) := rfl
  have hparse : (Nca.Archive.parse broken Nca.Specimen.keys).outcome Nca.Specimen.described
      = (.error (.unrecognizedInnerFormat 0), Nca.Specimen.described) := by
    have hopen : ([Nca.Specimen.descriptor].filter Nca.Descriptor.isSupported).mapM
        (Nca.openAlone Nca.Specimen.view broken Nca.Specimen.keys Nca.Specimen.headers.main)
          = .error (.unrecognizedInnerFormat 0) :=
      mapM_eq_error_iff.mpr
        ⟨[], _, [], rfl, List.forall_mem_nil _, unread_descriptor.openAlone_eq⟩
    refine (Nca.Archive.outcome_parse_sectionsResolved _ _ _ _ _).trans ?_
    rw [hopen]
    rfl
  have hread : Nca.Specimen.view.region.readAt broken 0 8 = .error (.stream failure) := rfl
  refine ⟨(hpartition (hmagic _ _)).mpr ⟨rfl, .magic (.unread rfl rfl) (by decide)⟩,
    (hcard (hmagic _ _)).mpr ⟨rfl, .magic rfl (.unread rfl rfl)⟩, ?_, hzeros,
    (htree (hmagic _ _) (.medium 0 (by decide)) (by decide) hzeros).2, hparse,
    hcontent (Error.isVerdict_unrecognizedInnerFormat 0) hparse⟩
  obtain ⟨failure', hfailure, h⟩ := hunread hread
  cases hfailure
  exact h

def short : Media := ⟨[.memory [0x50, 0x46]]⟩

def shortView : View := .ofRegion (.medium 0 2)

/-- A view of two bytes is judged by four zeros, which could not be read. -/
theorem judged_by_zeros :
    (Partition.Archive.parse short).outcome (.ofView shortView : Partition.Archive .plain)
      = (.error (.invalidMagic .pfs0 [0, 0, 0, 0]), .ofView shortView) ∧
    ∀ found, shortView.region.readAt short 0 4 ≠ .ok found :=
  ⟨rfl, fun _ => nofun⟩

end Cartridge.Unread
