import Cartridge.Keys.Store
import Cartridge.Text.Blank
import Cartridge.Text.Lines
import Cartridge.Traced

/-!
# Keys in text

A line of key text is a name of letters, digits and underscores, an equals sign and hexadecimal
digits, with white space around each of them. Other lines say nothing. Lines are loaded in order; a
key that the store refuses is passed over.
-/

namespace Cartridge

/-- A line that gives a value to a name. -/
structure KeyLine where
  name : String
  value : List UInt8
deriving DecidableEq

namespace KeyLine

/-- Whether a character can stand in a name. -/
def isNameChar (c : Char) : Bool := c.isAlphanum || c == '_'

/-- The name and the digits of a line. -/
def fields? (line : List Char) : Option (List Char × List Char) :=
  let line := line.dropWhile Text.isBlank
  let name := line.takeWhile isNameChar
  match (line.dropWhile isNameChar).dropWhile Text.isBlank with
  | '=' :: rest =>
    let rest := rest.dropWhile Text.isBlank
    let digits := rest.takeWhile Hex.isDigit
    if !name.isEmpty && !digits.isEmpty && (rest.dropWhile Hex.isDigit).all Text.isBlank then
      some (name, digits)
    else none
  | _ => none

/-- Reads a line. One with an odd number of digits says nothing. -/
def parse? (line : List Char) : Option KeyLine := do
  let (name, digits) ← fields? line
  let value ← Hex.decode? digits
  return ⟨String.ofList name, value⟩

end KeyLine

namespace KeyStore

/-- Does what a line says and counts it if the store took the key. -/
def registerLine (register : KeyStore → Except Error KeyStore) (refused : Error → Event) :
    Access KeyStore Nat := fun s =>
  match register s with
  | .ok s' => (pure 1, s')
  | .error e => (⟨.ok 0, [refused e]⟩, s)

/-- Loads a line that names a key. -/
def loadKeyLine (number : Nat) (line : List Char) : Access KeyStore Nat :=
  match KeyLine.parse? line with
  | none => pure 0
  | some l =>
    registerLine (fun s => s.setKey l.name l.value) fun e =>
      .warn ("Skipping key at line " ++ toString number ++ ": " ++ e.message) []

/-- The rights ID written as thirty-two hexadecimal digits. -/
def rightsIdOf? (name : String) : Option (Bytes 16) :=
  (Hex.decode? name.toList).bind (Bytes.ofList? 16)

/-- Loads a line that gives a title key to a rights ID. -/
def loadTitleKeyLine (number : Nat) (line : List Char) : Access KeyStore Nat :=
  match KeyLine.parse? line with
  | none => pure 0
  | some l =>
    match rightsIdOf? l.name with
    | none => do
      Traced.emit (.warn ("Invalid rights ID at line " ++ toString number ++ ": " ++ l.name) [])
      return 0
    | some rightsId =>
      registerLine (fun s => s.setTitleKey rightsId l.value) fun e =>
        .warn ("Skipping title key at line " ++ toString number ++ ": " ++ e.message) []

/-- Loads lines in order, numbered from `number` on, and counts the keys. -/
def loadLines (load : Nat → List Char → Access KeyStore Nat) :
    (number : Nat) → List (List Char) → Access KeyStore Nat
  | _, [] => pure 0
  | number, line :: rest => do
    let first ← load number line
    let others ← loadLines load (number + 1) rest
    return first + others

/-- Loads named keys from text and counts them. -/
def loadKeys (text : List Char) : Access KeyStore Nat := do
  let loaded ← loadLines loadKeyLine 1 (Text.lines text)
  Traced.emit (.debug ("Loaded " ++ toString loaded ++ " keys") [])
  return loaded

/-- Loads title keys from text and counts them. -/
def loadTitleKeys (text : List Char) : Access KeyStore Nat := do
  let loaded ← loadLines loadTitleKeyLine 1 (Text.lines text)
  Traced.emit (.debug ("Loaded " ++ toString loaded ++ " title keys") [])
  return loaded

/-! ## From a stream of bytes -/

/-- The text of a stream: its lines, each decoded on its own and ended by a line feed. -/
def textOfStream (bytes : List UInt8) : Except Error (List Char) := do
  let lines ← (Text.byteLines bytes).mapM fun line =>
    match Utf8.decodeChars line with
    | .ok chars => .ok (chars ++ ['\n'])
    | .error _ => .error (.stream .notUtf8)
  return lines.flatten

/-- Loads named keys from a stream; none if it is not UTF-8. -/
def loadKeysFromStream (bytes : List UInt8) : Access KeyStore Nat := do
  let text ← (textOfStream bytes : Traced (List Char))
  loadKeys text

/-- Loads title keys from a stream; none if it is not UTF-8. -/
def loadTitleKeysFromStream (bytes : List UInt8) : Access KeyStore Nat := do
  let text ← (textOfStream bytes : Traced (List Char))
  loadTitleKeys text

/-- The store that a text makes. -/
def ofText (text : List Char) : KeyStore := (loadKeys text empty).2

end KeyStore

end Cartridge
