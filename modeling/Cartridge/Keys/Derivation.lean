import Cartridge.Cipher.Aes
import Cartridge.Keys.Store
import Cartridge.Traced

/-!
# Deriving keys

The keys that encrypt an archive's key area and its title key are registered under names that end in
their generation, or else are derived from the master key of that generation and keys that serve all
generations.
-/

namespace Cartridge

/-- Which key encrypts an archive's key area. -/
inductive KeyIndex where
  | application
  | ocean
  | system
deriving DecidableEq, Repr

namespace KeyIndex

/-- The index that a byte stands for; unknown ones stand for the application key. -/
def ofByte (b : UInt8) : KeyIndex :=
  if b = 1 then ocean else if b = 2 then system else application

/-- The part of a key's name that stands for the index. -/
def keyName : KeyIndex → String
  | application => "application"
  | ocean => "ocean"
  | system => "system"

/-- The index's name. -/
def name : KeyIndex → String
  | application => "Application"
  | ocean => "Ocean"
  | system => "System"

end KeyIndex

/-- Decrypts one key with another. -/
def unwrapKey (wrapping wrapped : Block) : Block := (Aes.cipher wrapping).decrypt wrapped

/-- Derives a key: the master key unwraps the seed of a key, which unwraps the source, which unwraps
the seed of the result. -/
def deriveKey (source masterKey kekSeed keySeed : Block) : Block :=
  unwrapKey (unwrapKey (unwrapKey masterKey kekSeed) source) keySeed

namespace KeyStore

/-- The name of a key of the given generation. -/
def generationName (stem : String) (generation : UInt8) : String :=
  stem ++ "_" ++ Hex.padded 2 generation.toNat

/-- The name of the key that encrypts key areas. -/
def areaKeyName (index : KeyIndex) (generation : UInt8) : String :=
  generationName ("key_area_key_" ++ index.keyName) generation

/-- The name of the source that the key for key areas is derived from. -/
def areaKeySourceName (index : KeyIndex) : String := "key_area_key_" ++ index.keyName ++ "_source"

/-- The name of the master key. -/
def masterKeyName (generation : UInt8) : String := generationName "master_key" generation

/-- The name of the key that encrypts title keys. -/
def titleKekName (generation : UInt8) : String := generationName "titlekek" generation

/-- The key for key areas, derived from the master key. -/
def deriveAreaKey? (s : KeyStore) (index : KeyIndex) (generation : UInt8) : Option Block := do
  let source ← s.aesKey? (areaKeySourceName index)
  let masterKey ← s.aesKey? (masterKeyName generation)
  let kekSeed ← s.aesKey? "aes_kek_generation_source"
  let keySeed ← s.aesKey? "aes_key_generation_source"
  return deriveKey source masterKey kekSeed keySeed

/-- The key for title keys, derived from the master key. -/
def deriveTitleKek? (s : KeyStore) (generation : UInt8) : Option Block := do
  let masterKey ← s.aesKey? (masterKeyName generation)
  let source ← s.aesKey? "titlekek_source"
  return unwrapKey masterKey source

/-- The registered key of the given name, or else the derived one. -/
def registeredOr (s : KeyStore) (name : String) (derived : Option Block) (message : String) :
    Traced Block :=
  match s.aesKey? name, derived with
  | some key, _ => pure key
  | none, some key => do
    Traced.emit (.debug message [("key", name)])
    return key
  | none, none => Traced.fail (.missingAreaKey name)

/-- The key that encrypts key areas of a generation. -/
def areaKey (s : KeyStore) (index : KeyIndex) (generation : UInt8) : Traced Block :=
  s.registeredOr (areaKeyName index generation) (s.deriveAreaKey? index generation)
    "Derived key area key from master key"

/-- The key that encrypts title keys of a generation. -/
def titleKek (s : KeyStore) (generation : UInt8) : Traced Block :=
  s.registeredOr (titleKekName generation) (s.deriveTitleKek? generation)
    "Derived title KEK from master key"

end KeyStore

end Cartridge
