/-
Reading a TOML document into a value. A document is a sequence of lines:
headers, which choose the table that keys are defined in, and keys with
their values.
-/
import RegisterMap.Description.Decode
import RegisterMap.Description.Toml.Number
import RegisterMap.Description.Toml.Table

namespace RegisterMap.Description.Toml

/-- Values nest, and keys lead down, less deep than this. -/
def depthLimit : Nat := 80

-- ================================================================= keys

def isBareKeyChar (c : Char) : Bool :=
  c.isAlphanum || c == '_' || c == '-'

/-- A key without dots. -/
def simpleKey : Reader String := do
  match ← peek with
  | some '"' | some '\'' => shortString
  | _ =>
    let name ← takeWhile isBareKeyChar
    if name.isEmpty then failure else return String.ofList name

/-- At most `fuel` keys with dots between them. -/
def keysFrom : (fuel : Nat) → Reader (List String)
  | 0 => failure
  | fuel + 1 => do
    blanks
    let key ← simpleKey
    blanks
    match ← perhaps (char '.') with
    | some () => return key :: (← keysFrom fuel)
    | none => return [key]

/-- A key, with the dotted keys before it. -/
def dottedKey : Reader (List String × String) := do
  let keys ← keysFrom (depthLimit - 1)
  match keys.getLast? with
  | some key => return (keys.dropLast, key)
  | none => failure

-- =============================================================== values

def boolean : Reader Value :=
  (word "true" *> pure (.bool true)) <|> (word "false" *> pure (.bool false))

mutual

/-- A value that lies in `depth` others. -/
def valueFrom (depth : Nat) : (fuel : Nat) → Reader Value
  | 0 => failure
  | fuel + 1 => do
    match ← peek with
    | some '"' | some '\'' => return .text (← anyString)
    | some '[' =>
      if depthLimit ≤ depth + 1 then failure
      char '['
      return .list (← itemsFrom (depth + 1) fuel) true
    | some '{' =>
      if depthLimit ≤ depth + 1 then failure
      char '\x7b'
      blanks
      match ← perhaps (char '\x7d') with
      | some () => return .record [] true
      | none => return (← pairsFrom (depth + 1) {} fuel).toValue
    | _ => boolean <|> number

/-- The items of a list, up to its end. A comma may stand behind the last
one. -/
def itemsFrom (depth : Nat) : (fuel : Nat) → Reader (List Value)
  | 0 => failure
  | fuel + 1 => do
    space
    match ← perhaps (char ']') with
    | some () => return []
    | none =>
      let v ← valueFrom depth fuel
      space
      match ← perhaps (char ',') with
      | some () => return v :: (← itemsFrom depth fuel)
      | none =>
        char ']'
        return [v]

/-- The keys of a table in a line, up to its end. -/
def pairsFrom (depth : Nat) (t : Table) : (fuel : Nat) → Reader Table
  | 0 => failure
  | fuel + 1 => do
    let (path, key) ← dottedKey
    char '='
    blanks
    let v ← valueFrom depth fuel
    blanks
    let t ← (t.define path key v : Option Table)
    match ← perhaps (char ',') with
    | some () => pairsFrom depth t fuel
    | none =>
      char '\x7d'
      return t

end

/-- A value. Reading a part of it takes a character at least. -/
def value : Reader Value := fun cs => valueFrom 0 (2 * cs.length + 2) cs

-- ============================================================ documents

/-- A document as far as it has been read: its top table, and the path to
the table that keys are defined in. -/
structure Document where
  top : Table := {}
  current : List String := []

namespace Document

/-- Defines a key in the current table. -/
def define (d : Document) (path : List String) (key : String) (v : Value) : Option Document := do
  return { d with top := ← d.top.alter false (Table.define path key v) d.current }

/-- A key and its value. -/
def pair (d : Document) : Reader Document := do
  let (path, key) ← dottedKey
  char '='
  blanks
  let v ← value
  restOfLine
  (d.define path key v : Option Document)

/-- A header. -/
def header (d : Document) : Reader Document := do
  char '['
  let double ← perhaps (char '[')
  let (path, key) ← dottedKey
  char ']'
  let top ←
    match double with
    | some () => do
      char ']'
      (Table.addTable path key d.top : Option Table)
    | none => (Table.openTable path key d.top : Option Table)
  restOfLine
  return { top, current := path ++ [key] }

/-- A line of a document. -/
def line (d : Document) : Reader Document := do
  blanks
  match ← peek with
  | some '[' => d.header
  | some '#' | some '\n' | some '\r' | none =>
    restOfLine
    return d
  | _ => d.pair

/-- At most `fuel` lines. -/
def linesFrom (d : Document) : (fuel : Nat) → List Char → Option Document
  | 0, _ => none
  | fuel + 1, cs => do
    let (d, rest) ← d.line cs
    if rest.isEmpty then return d else d.linesFrom fuel rest

end Document

/-- The value of a document; nothing if it is not well formed. A byte order
mark may stand in front. -/
def read (text : String) : Option Value :=
  let cs :=
    match text.toList with
    | '\uFEFF' :: rest => rest
    | cs => cs
  (Document.linesFrom {} (cs.length + 1) cs).map (·.top.toValue)

end RegisterMap.Description.Toml

namespace RegisterMap.Description

/-- Reads a description from a TOML document, where every number is a signed
one and tells no type. -/
def Design.ofToml (text : String) : Decoded Design :=
  match Toml.read text with
  | some v => Design.decode .keywords v
  | none => .error .malformed

end RegisterMap.Description
