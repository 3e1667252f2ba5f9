import Cartridge.Detection
import Cartridge.Nca.SectionKey
import Cartridge.Partition.Archive
import Cartridge.RomFs.Image

/-!
# Content archives

An archive is read in three steps: its headers are decrypted, its sections are described, and the
sections are opened. Each step is taken when it is first needed and only once; a step that fails
leaves the archive where it was, so that a missing key can be registered and the step be tried again.

An opened section has to hold the filesystem that its header declares.
-/

namespace Cartridge.Nca

/-! ## Steps -/

/-- Decodes the header of a section, if there is one. -/
def readSectionHeader (version : Version) (plain : List UInt8) (index : Nat)
    (entry : SectionEntry) : Except Error (Option SectionHeader) :=
  if version = .nca0 ∨ !entry.isPopulated then return none
  else do
    let raw := (plain.drop (index * sectionHeaderSize)).take sectionHeaderSize
    let header ← SectionHeader.layout.decode raw
    return some header

/-- Decrypts and decodes the headers of an archive. -/
def readHeaders (region : Region) (media : Media) (keys : KeyStore) : Except Error Headers := do
  if region.size < headersSize then throw (.truncated (.archiveHeader region.size))
  match keys.headerKey? with
  | none => throw .missingHeaderKey
  | some key =>
    let raw ← region.readAt media 0 headersSize
    let (plain, version) ← decryptMainHeader key raw
    let rest := decryptSectionHeaders key version (raw.drop mainHeaderSize)
    let main ← Header.layout.decode plain
    let read := fun i : Fin 4 => readSectionHeader version rest i (main.entries.get i)
    let s0 ← read 0
    let s1 ← read 1
    let s2 ← read 2
    let s3 ← read 3
    return ⟨main, version, #v[s0, s1, s2, s3]⟩

/-- The filesystem in a section. -/
inductive SectionFilesystem where
  | pfs0 (archive : Partition.Archive .plain)
  | romFs (image : RomFs.Image)

/-- The kind of the filesystem. -/
def SectionFilesystem.kind : SectionFilesystem → SectionKind
  | pfs0 _ => .pfs0
  | romFs _ => .romFs

/-- An opened section. -/
structure Section where
  descriptor : Descriptor
  /-- The decrypted filesystem. -/
  view : View
  filesystem : SectionFilesystem

/-- The decrypted filesystem of a section. -/
def sectionView (archive : View) (d : Descriptor) : SectionKey → Except Error View
  | .plain => archive.subview (d.start + d.dataOffset) d.dataSize
  | .counter key => do
    let r ← archive.region.decryptCounter ⟨d.start + d.dataOffset, d.dataSize, key, d.upperCounter⟩
    return View.ofRegion r
  | .xts key => do
    let r ← archive.region.decryptXts ⟨d.start, d.size, d.dataOffset, d.dataSize, key⟩
    return View.ofRegion r

/-- Takes a view for the filesystem that was detected in it, which has to be the declared one. -/
def recognize (d : Descriptor) (view : View) (detected : Option Format) :
    Traced SectionFilesystem := do
  let filesystem : Option SectionFilesystem :=
    match detected with
    | some .pfs0 => some (.pfs0 (.ofView view))
    | some .romFs => some (.romFs (.ofView view))
    | _ => none
  match filesystem with
  | none =>
    Traced.emit (.debug "Section did not decrypt to a filesystem"
      [("section", toString d.index), ("detected", Format.detectedName detected)])
    Traced.fail (.unrecognizedInnerFormat d.index)
  | some filesystem =>
    if filesystem.kind ≠ d.kind then
      Traced.emit (.debug "Section header disagrees with contents"
        [("section", toString d.index), ("header", d.kind.format.name),
          ("detected", filesystem.kind.format.name)])
      Traced.fail (.unrecognizedInnerFormat d.index)
    else
      return filesystem

/-- Opens a section whose encryption can be read. -/
def openSection (archive : View) (media : Media) (keys : KeyStore) (main : Header)
    (d : Descriptor) : Access KeyRing Section := do
  let key ← KeyRing.sectionKey main keys d.protection
  let view ← (sectionView archive d key : Traced View)
  let detected ← Format.detect view.region media keys
  let filesystem ← recognize d view detected
  Traced.emit (.trace "Opened NCA section"
    [("section", toString d.index), ("offset", Hex.paddedUpper 12 (d.start + d.dataOffset)),
      ("size", toString d.dataSize)])
  return ⟨d, view, filesystem⟩

/-- Opens sections in order, without those whose encryption cannot be read. -/
def openSections (archive : View) (media : Media) (keys : KeyStore) (main : Header) :
    List Descriptor → Access KeyRing (List Section)
  | [] => return []
  | d :: rest =>
    match d.protection with
    | .unsupported encryption => do
      Traced.emit (.warn "Skipping section with unsupported encryption"
        [("section", toString d.index), ("encryption", encryption.name)])
      openSections archive media keys main rest
    | _ => do
      let s ← openSection archive media keys main d
      let others ← openSections archive media keys main rest
      return s :: others

/-! ## Archives -/

/-- How far an archive has been read, and what is known of it. -/
inductive Stage where
  | unparsed
  | headerDecrypted (headers : Headers)
  | sectionsResolved (headers : Headers) (descriptors : List Descriptor)
  | parsed (headers : Headers) (sections : List Section)

/-- How far an archive has been read. -/
inductive State where
  | unparsed
  | headerDecrypted
  | sectionsResolved
  | parsed
deriving DecidableEq, Repr

/-- The state's name. -/
def State.name : State → String
  | unparsed => "Unparsed"
  | headerDecrypted => "HeaderDecrypted"
  | sectionsResolved => "SectionsResolved"
  | parsed => "Parsed"

/-- The place of a state in the order of the steps. -/
def State.rank : State → Nat
  | unparsed => 0
  | headerDecrypted => 1
  | sectionsResolved => 2
  | parsed => 3

/-- A content archive. -/
structure Archive where
  view : View
  stage : Stage

namespace Archive

/-- A view taken for a content archive; nothing has been read. -/
def ofView (view : View) : Archive := ⟨view, .unparsed⟩

/-- How far the archive has been read. -/
def state (a : Archive) : State :=
  match a.stage with
  | .unparsed => .unparsed
  | .headerDecrypted _ => .headerDecrypted
  | .sectionsResolved _ _ => .sectionsResolved
  | .parsed _ _ => .parsed

/-- The archive's view and state in words. -/
def describe (a : Archive) : String :=
  "Nca \x7b view: " ++ a.view.describe ++ ", state: " ++ a.state.name ++ " \x7d"

/-- Goes to a later stage. -/
def enter (stage : Stage) : Access Archive Unit := fun a => (pure (), { a with stage := stage })

/-- The headers. -/
def headers (media : Media) (keys : KeyStore) : Access Archive Headers := do
  let a ← Access.get
  match a.stage with
  | .headerDecrypted h | .sectionsResolved h _ | .parsed h _ => return h
  | .unparsed =>
    let h ← (readHeaders a.view.region media keys : Traced Headers)
    Traced.emit (.debug "NCA header decrypted"
      [("version", h.version.digit.toString), ("content_type", h.main.contentType.name),
        ("key_generation", toString h.main.keyGeneration)])
    enter (.headerDecrypted h)
    return h

/-- Whether the headers have been or can be decrypted. -/
def isValid (media : Media) (keys : KeyStore) : Access Archive Bool := fun a =>
  let (answer, a') := headers media keys a
  (⟨.ok answer.result.toBool, answer.events⟩, a')

/-- Describes the sections if that has not been done. -/
def resolveSections (media : Media) (keys : KeyStore) : Access Archive Unit := do
  let _ ← headers media keys
  let a ← Access.get
  match a.stage with
  | .headerDecrypted h =>
    let descriptors ← (h.describe a.view.size : Traced (List Descriptor))
    enter (.sectionsResolved h descriptors)
  | _ => return ()

/-- Opens the sections if that has not been done. -/
def parse (media : Media) (keys : KeyStore) : Access Archive Unit := do
  resolveSections media keys
  let a ← Access.get
  match a.stage with
  | .sectionsResolved h descriptors =>
    let sections ← (openSections a.view media keys h.main descriptors KeyRing.empty).1
    enter (.parsed h sections)
  | _ => return ()

/-- The descriptors of all sections, including those that cannot be read. -/
def descriptors (media : Media) (keys : KeyStore) : Access Archive (List Descriptor) := do
  resolveSections media keys
  let a ← Access.get
  match a.stage with
  | .sectionsResolved _ descriptors => return descriptors
  | .parsed h _ => (h.describe a.view.size : Traced (List Descriptor))
  | _ => return []

/-- The opened sections. -/
def sections (media : Media) (keys : KeyStore) : Access Archive (List Section) := do
  parse media keys
  let a ← Access.get
  match a.stage with
  | .parsed _ sections => return sections
  | _ => return []

/-- The section with the given number. -/
def sectionAt (media : Media) (keys : KeyStore) (index : Nat) : Access Archive Section := do
  let all ← sections media keys
  match all.find? fun s => s.descriptor.index == index with
  | some s => return s
  | none => Access.fail (.entryNotFound ("NCA section " ++ toString index))

/-- Replaces the filesystem of the section with the given number. -/
def setFilesystem (index : Nat) (filesystem : SectionFilesystem) : Access Archive Unit := fun a =>
  match a.stage with
  | .parsed h sections =>
    let sections := sections.map fun s =>
      if s.descriptor.index = index then { s with filesystem := filesystem } else s
    (pure (), { a with stage := .parsed h sections })
  | _ => (pure (), a)

/-- Operates on the filesystem of the section with the given number. -/
def onSection {α : Type} (media : Media) (keys : KeyStore) (index : Nat)
    (operation : Access SectionFilesystem α) : Access Archive α := do
  let s ← sectionAt media keys index
  let (answer, filesystem) := operation s.filesystem
  setFilesystem index filesystem
  answer

/-- The numbers of the opened sections as text. -/
def listFiles (media : Media) (keys : KeyStore) : Access Archive (List String) := do
  let all ← sections media keys
  return all.map fun s => toString s.descriptor.index

/-- The number written by decimal digits, perhaps behind a plus sign, if it has 64 bits. -/
def indexOfName? (name : String) : Option Nat :=
  let digits :=
    match name.toList with
    | '+' :: rest => rest
    | all => all
  if digits.isEmpty || !digits.all Char.isDigit then none
  else
    let n := digits.foldl (fun n c => 10 * n + (c.toNat - 0x30)) 0
    if n < UInt64.size then some n else none

/-- The decrypted filesystem of the section whose number the name gives. -/
def openFile (media : Media) (keys : KeyStore) (name : String) : Access Archive View :=
  match indexOfName? name with
  | none => Access.fail (.entryNotFound name)
  | some index => do
    let s ← sectionAt media keys index
    return s.view

end Archive

end Cartridge.Nca
