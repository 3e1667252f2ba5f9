import Cartridge.Catalog
import Cartridge.Cipher.Block
import Cartridge.Error

/-!
# Key stores

A key store holds named keys, whose names do not distinguish upper from lower case letters of ASCII,
and encrypted title keys by rights ID. A title key set by the user takes the place of all of them.
-/

namespace Cartridge

/-- A named key: sixteen or thirty-two bytes. -/
inductive Key where
  | single (bytes : Bytes 16)
  | double (bytes : Bytes 32)
deriving DecidableEq

namespace Key

/-- The bytes of a key. -/
def bytes : Key → List UInt8
  | single b => b.toList
  | double b => b.toList

/-- A byte string as a key, if it has one of the two lengths. -/
def ofBytes? (bytes : List UInt8) : Option Key :=
  match Bytes.ofList? 16 bytes, Bytes.ofList? 32 bytes with
  | some b, _ => some (single b)
  | none, some b => some (double b)
  | none, none => none

end Key

/-- The names of keys without the difference of case. -/
def foldCase (name : String) : String := String.ofList (name.toList.map Char.toLower)

/-- Registered keys. -/
structure KeyStore where
  /-- Named keys by their lower-case name. -/
  keys : Catalog String Key
  /-- Encrypted title keys by rights ID. -/
  titleKeys : Catalog (Bytes 16) Block
  /-- The title key that takes precedence over all others. -/
  userTitleKey : Option Block

namespace KeyStore

/-- No keys. -/
def empty : KeyStore := ⟨.empty, .empty, none⟩

/-- The name of the key that content archive headers are encrypted with. -/
def headerKeyName : String := "header_key"

/-- Registers a named key. -/
def setKey (s : KeyStore) (name : String) (value : List UInt8) : Except Error KeyStore :=
  if name = "" then .error (.invalidKey .emptyName)
  else
    match Key.ofBytes? value with
    | some key => .ok { s with keys := s.keys.insert (foldCase name) key }
    | none => .error (.invalidKey (.namedLength name value.length))

/-- The key with the given name. -/
def key? (s : KeyStore) (name : String) : Option Key := s.keys.find? (foldCase name)

/-- Whether there is a key with the given name. -/
def hasKey (s : KeyStore) (name : String) : Bool := s.keys.contains (foldCase name)

/-- The key with the given name, if it has sixteen bytes. -/
def aesKey? (s : KeyStore) (name : String) : Option Block :=
  match s.key? name with
  | some (.single key) => some key
  | _ => none

/-- The header key, if it is registered with thirty-two bytes. -/
def headerKey? (s : KeyStore) : Option (Bytes 32) :=
  match s.key? headerKeyName with
  | some (.double key) => some key
  | _ => none

/-- Registers an encrypted title key. -/
def setTitleKey (s : KeyStore) (rightsId : Bytes 16) (value : List UInt8) : Except Error KeyStore :=
  match Bytes.ofList? 16 value with
  | some key => .ok { s with titleKeys := s.titleKeys.insert rightsId key }
  | none => .error (.invalidKey (.titleLength value.length))

/-- Sets the title key that takes precedence. -/
def setUserTitleKey (s : KeyStore) (value : List UInt8) : Except Error KeyStore :=
  match Bytes.ofList? 16 value with
  | some key => .ok { s with userTitleKey := some key }
  | none => .error (.invalidKey (.userTitleLength value.length))

/-- Removes the title key that takes precedence. -/
def removeUserTitleKey (s : KeyStore) : KeyStore := { s with userTitleKey := none }

/-- The encrypted title key for a rights ID: the user's, or else the one registered for it. -/
def titleKey? (s : KeyStore) (rightsId : Bytes 16) : Option Block :=
  s.userTitleKey.or (s.titleKeys.find? rightsId)

/-- The number of rights IDs with a title key. -/
def titleKeyCount (s : KeyStore) : Nat := s.titleKeys.size

/-- What the store holds, without the keys themselves. -/
def describe (s : KeyStore) : String :=
  "KeyStore \x7b keys: " ++ toString s.keys.size ++ ", title_keys: " ++ toString s.titleKeys.size ++
    ", user_title_key: " ++ toString s.userTitleKey.isSome ++ " \x7d"

end KeyStore

end Cartridge
