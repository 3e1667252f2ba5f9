import Cartridge.Keys.Derivation
import Cartridge.Nca.Section
import Cartridge.Slot

/-!
# The keys of sections

A section is under keys of the archive's key area, which is encrypted with a key of the store, or
under the title key, which is encrypted with another. Each of the two is decrypted once for all
sections of an archive; a failed attempt leaves nothing behind.
-/

namespace Cartridge.Nca

/-- The key that a section is opened with. -/
inductive SectionKey where
  | plain
  | xts (key : Bytes 32)
  | counter (key : Block)
deriving DecidableEq

/-- What has been decrypted so far. -/
structure KeyRing where
  area : Slot KeyArea
  title : Slot Block

namespace KeyRing

/-- Nothing has been decrypted. -/
def empty : KeyRing := ⟨.unparsed, .unparsed⟩

/-- Decrypts the key area. -/
def readArea (header : Header) (keys : KeyStore) : Traced KeyArea := do
  let index := KeyIndex.ofByte header.areaKeyIndex
  let key ← keys.areaKey index header.keyGeneration
  Traced.emit (.trace "Key area key obtained"
    [("key_gen", toString header.keyGeneration), ("key_type", index.name)])
  Traced.emit (.trace "Key area decrypted" [])
  return header.keyArea.map (unwrapKey key)

/-- Decrypts the title key. -/
def readTitle (header : Header) (keys : KeyStore) : Traced Block := do
  Traced.emit (.trace "NCA requires title key"
    [("rights_id", Hex.encodeUpper header.rightsId.toList)])
  match keys.titleKey? header.rightsId with
  | none => Traced.fail (.missingTitleKey header.rightsId)
  | some wrapped => do
    let kek ← keys.titleKek header.keyGeneration
    Traced.emit (.trace "Title KEK obtained" [("key_gen", toString header.keyGeneration)])
    return unwrapKey kek wrapped

/-- The keys of the key area. -/
def forceArea (header : Header) (keys : KeyStore) : Access KeyRing KeyArea :=
  Access.onPart KeyRing.area (fun slot ring => { ring with area := slot })
    (Slot.force fun _ => readArea header keys)

/-- The title key. -/
def forceTitle (header : Header) (keys : KeyStore) : Access KeyRing Block :=
  Access.onPart KeyRing.title (fun slot ring => { ring with title := slot })
    (Slot.force fun _ => readTitle header keys)

/-- The key of a section with the given protection. -/
def sectionKey (header : Header) (keys : KeyStore) : Protection → Access KeyRing SectionKey
  | .plain => return .plain
  | .xts => do
    let area ← forceArea header keys
    return .xts (area.data.append area.tweak)
  | .counter => do
    let area ← forceArea header keys
    return .counter area.counter
  | .titleCounter => do
    let key ← forceTitle header keys
    return .counter key
  | .unsupported encryption => Access.fail (.unsupported (.encryption encryption.name))

end KeyRing

end Cartridge.Nca
