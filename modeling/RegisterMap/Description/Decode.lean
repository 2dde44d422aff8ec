/-
Reading a description out of a value. A node is a record of named members
or a list of them in a fixed order. Members are taken in the order of the
text and the first problem wins; a part of the text that makes no sense is
a problem where it stands. A component is first read as a whole, up to its
type, before its other members are looked at.
-/
import RegisterMap.Description.Node
import RegisterMap.Description.Problem
import RegisterMap.Description.Value

namespace RegisterMap.Description

-- Powers stay the core ones under any import.
attribute [local instance (high)] instPowNat

/-- A result or the first problem. -/
abbrev Decoded := Except Problem

-- ============================================================== scalars

namespace Value

/-- A value of another kind than the one expected. -/
def mismatch {α : Type} (v : Value) (expected : String) : Decoded α :=
  match v.shown? with
  | some found => .error (.invalidType found expected)
  | none => .error .malformed

def decodeText : Value → Decoded String
  | .text value => .ok value
  | v => v.mismatch "a string"

/-- An unsigned number of `bits` bits. -/
def decodeWord (bits : Nat) (v : Value) : Decoded Nat :=
  let expected := s!"u{bits}"
  match v with
  | .integer n =>
    if 0 ≤ n ∧ n < 2 ^ bits then .ok n.toNat
    else .error (.invalidValue ("integer " ++ Text.ticked (toString n)) expected)
  | v => v.mismatch expected

def decodeList {α : Type} (decode : Value → Decoded α) : Value → Decoded (List α)
  | .list items closed => do
    let decoded ← items.mapM decode
    if closed then return decoded else throw .malformed
  | v => v.mismatch "a sequence"

/-- Null stands for a member that is not there. -/
def decodeOption {α : Type} (decode : Value → Decoded α) : Value → Decoded (Option α)
  | .null => .ok none
  | v => return some (← decode v)

/-- The item a keyword names. -/
def ofKeyword {α : Type} (all : List α) (keyword : α → String) (word : String) : Decoded α :=
  match all.find? fun item => keyword item == word with
  | some item => .ok item
  | none => .error (.unknownVariant word (all.map keyword))

/-- A keyword stands alone, or as the name of a member without a value. -/
def decodeKeyword {α : Type} (all : List α) (keyword : α → String) : Value → Decoded α
  | .text word => ofKeyword all keyword word
  | .record [(word, v)] true => do
    let item ← ofKeyword all keyword word
    match v with
    | .null | .record [] true => return item
    | v => v.mismatch "unit"
  | .record _ true => .error (.invalidValue "map" "map with a single key")
  | v => v.mismatch "string or map"

end Value

-- ============================================================== members

/-- What a node is made of: what it is called and its members in order. -/
structure Shape where
  name : String
  members : List String
  /-- The members that have to be there come first. -/
  required : Nat

/-- How a member that is required was found missing: among named members,
or at the end of a list of so many. -/
inductive Form where
  | named
  | positional (length : Nat)

namespace Shape

def fieldNode : Shape where
  name := "FieldNode"
  members := ["name", "lsb", "msb", "sw", "reset", "onread", "onwrite"]
  required := 3

def registerNode : Shape where
  name := "RegNode"
  members := ["name", "offset", "width", "array", "stride", "fields"]
  required := 1

def groupNode : Shape where
  name := "GroupNode"
  members := ["name", "offset", "children"]
  required := 1

/-- The shape as it is called in messages. -/
def label (s : Shape) : String := "struct " ++ s.name

/-- The problem that a required member is missing. -/
def missing (s : Shape) (form : Form) (member : String) : Problem :=
  match form with
  | .named => .missingField member
  | .positional length =>
    .invalidLength length s!"{s.label} with {s.members.length} elements"

/-- A list of members has no more than the shape. -/
def checkLength (s : Shape) (form : Form) : Decoded Unit :=
  match form with
  | .positional length =>
    if s.members.length < length then
      .error (.invalidLength length s!"{s.members.length} elements in sequence")
    else .ok ()
  | .named => .ok ()

/-- A member that has to be there. -/
def need {α : Type} (s : Shape) (form : Form) (member : String) (found : Option α) :
    Decoded α :=
  match found with
  | some value => .ok value
  | none => .error (s.missing form member)

end Shape

/-- Takes a member that may occur once. -/
def once {α : Type} (member : String) (found : Option α) (decode : Decoded α) :
    Decoded (Option α) :=
  match found with
  | some _ => .error (.duplicateField member)
  | none => return some (← decode)

/-- Takes the members of a record in turn. -/
def takeNamed {σ : Type} (take : σ → String → Value → Decoded σ) (state : σ)
    (members : List (String × Value)) : Decoded σ :=
  members.foldlM (fun state (member, v) => take state member v) state

/-- Takes the items of a list as the members of a shape in order. -/
def takeListed {σ : Type} (take : σ → String → Value → Decoded σ) (s : Shape) (state : σ)
    (items : List Value) : Decoded σ :=
  takeNamed take state (s.members.zip items)

-- =============================================================== fields

/-- The members of a field found so far. -/
structure FieldParts where
  name : Option String := none
  lsb : Option Nat := none
  msb : Option Nat := none
  access : Option SoftwareAccess := none
  reset : Option Nat := none
  onRead : Option (Option ReadEffect) := none
  onWrite : Option (Option WriteEffect) := none

namespace FieldParts

def take (p : FieldParts) (member : String) (v : Value) : Decoded FieldParts := do
  match member with
  | "name" => return { p with name := ← once member p.name v.decodeText }
  | "lsb" => return { p with lsb := ← once member p.lsb (v.decodeWord 32) }
  | "msb" => return { p with msb := ← once member p.msb (v.decodeWord 32) }
  | "sw" =>
    let access := v.decodeKeyword SoftwareAccess.all SoftwareAccess.keyword
    return { p with access := ← once member p.access access }
  | "reset" => return { p with reset := ← once member p.reset (v.decodeWord 64) }
  | "onread" =>
    let effect := v.decodeOption (Value.decodeKeyword ReadEffect.all ReadEffect.keyword)
    return { p with onRead := ← once member p.onRead effect }
  | "onwrite" =>
    let effect := v.decodeOption (Value.decodeKeyword WriteEffect.all WriteEffect.keyword)
    return { p with onWrite := ← once member p.onWrite effect }
  | _ => return p

def finish (p : FieldParts) (form : Form) : Decoded FieldNode := do
  let s := Shape.fieldNode
  let node : FieldNode :=
    { name := ← s.need form "name" p.name
      lsb := ← s.need form "lsb" p.lsb
      msb := ← s.need form "msb" p.msb
      access := p.access.getD .rw
      reset := p.reset.getD 0
      onRead := p.onRead.getD none
      onWrite := p.onWrite.getD none }
  s.checkLength form
  return node

end FieldParts

def decodeField : Value → Decoded FieldNode
  | .record members true => do (← takeNamed FieldParts.take {} members).finish .named
  | .list items true => do
    (← takeListed FieldParts.take Shape.fieldNode {} items).finish (.positional items.length)
  | v => v.mismatch Shape.fieldNode.label

-- ============================================================ registers

/-- The members of a register found so far. -/
structure RegisterParts where
  name : Option String := none
  offset : Option Nat := none
  width : Option Nat := none
  dimensions : Option (List Nat) := none
  stride : Option (Option Nat) := none
  fields : Option (List FieldNode) := none

namespace RegisterParts

def take (p : RegisterParts) (member : String) (v : Value) : Decoded RegisterParts := do
  match member with
  | "name" => return { p with name := ← once member p.name v.decodeText }
  | "offset" => return { p with offset := ← once member p.offset (v.decodeWord 64) }
  | "width" => return { p with width := ← once member p.width (v.decodeWord 32) }
  | "array" =>
    let dimensions := v.decodeList (Value.decodeWord 64)
    return { p with dimensions := ← once member p.dimensions dimensions }
  | "stride" =>
    let stride := v.decodeOption (Value.decodeWord 64)
    return { p with stride := ← once member p.stride stride }
  | "fields" => return { p with fields := ← once member p.fields (v.decodeList decodeField) }
  | _ => return p

def finish (p : RegisterParts) (form : Form) : Decoded RegisterNode := do
  let s := Shape.registerNode
  let node : RegisterNode :=
    { name := ← s.need form "name" p.name
      offset := p.offset.getD 0
      width := p.width.getD 32
      dimensions := p.dimensions.getD []
      stride? := p.stride.getD none
      fields := p.fields.getD [] }
  s.checkLength form
  return node

end RegisterParts

-- =============================================================== groups

/-- The members of a group found so far. -/
structure GroupParts where
  name : Option String := none
  offset : Option Nat := none
  children : Option (List Component) := none

namespace GroupParts

/-- Takes a member; what `children` decodes to is found by the caller. -/
def take (p : GroupParts) (member : String) (v : Value) (children : Decoded (List Component)) :
    Decoded GroupParts := do
  match member with
  | "name" => return { p with name := ← once member p.name v.decodeText }
  | "offset" => return { p with offset := ← once member p.offset (v.decodeWord 64) }
  | "children" => return { p with children := ← once member p.children children }
  | _ => return p

def finish (p : GroupParts) (form : Form) : Decoded Design := do
  let s := Shape.groupNode
  let name ← s.need form "name" p.name
  return { name, offset := p.offset.getD 0, children := p.children.getD [] }

end GroupParts

-- =========================================================== components

/-- What a component may be. -/
inductive ComponentType where
  | register
  | group (kind : GroupKind)
  deriving DecidableEq, Repr

namespace ComponentType

def keyword : ComponentType → String
  | .register => "reg"
  | .group kind => kind.keyword

def all : List ComponentType :=
  [.register, .group .registerFile, .group .memory, .group .addressMap]

/-- The type at an index. -/
def ofIndex (index : Nat) : Decoded ComponentType :=
  match all[index]? with
  | some type => .ok type
  | none =>
    let found := "integer " ++ Text.ticked (toString index)
    .error (.invalidValue found s!"variant index 0 <= i < {all.length}")

end ComponentType

/-- How the type of a component may be told. -/
inductive TypeNaming where
  | byKeyword
  | byKeywordOrIndex
  deriving DecidableEq, Repr

/-- How types are told in a description. -/
structure TypeNamings where
  /-- In the components of the top group, which are read one by one. -/
  atTop : TypeNaming
  /-- In the components further down, which are known as a whole. -/
  below : TypeNaming

namespace TypeNamings

def keywords : TypeNamings := ⟨.byKeyword, .byKeyword⟩

def indexedBelow : TypeNamings := ⟨.byKeyword, .byKeywordOrIndex⟩

/-- The namings one level further down. -/
def down (n : TypeNamings) : TypeNamings := ⟨n.below, n.below⟩

end TypeNamings

namespace ComponentType

def decode (naming : TypeNaming) : Value → Decoded ComponentType
  | .text word => Value.ofKeyword all keyword word
  | v =>
    match naming, v with
    | .byKeywordOrIndex, .integer (.ofNat index) => ofIndex index
    | _, v => v.mismatch "variant identifier"

/-- The type of a component. Every other member has to be whole. -/
def ofMembers (naming : TypeNaming) : Option ComponentType → List (String × Value) →
    Decoded (Option ComponentType)
  | found, [] => .ok found
  | found, (member, v) :: rest => do
    if member = "type" then
      ofMembers naming (← once member found (decode naming v)) rest
    else if v.isWhole then ofMembers naming found rest
    else throw .malformed

end ComponentType

mutual

def decodeComponent (n : TypeNamings) : Value → Decoded Component
  | .record members closed => do
    let type ← ComponentType.ofMembers n.atTop none members
    if !closed then throw .malformed
    match type with
    | none => throw (.missingField "type")
    | some .register =>
      return .register (← (← takeNamed RegisterParts.take {} members).finish .named)
    | some (.group kind) =>
      let node ← (← decodeMembers n.down {} members).finish .named
      return .group kind node.name node.offset node.children
  | .list [] true => throw (.missingField "type")
  | .list [] false => throw .malformed
  | .list (first :: items) closed => do
    let type ← ComponentType.decode n.atTop first
    if !(closed && Value.allWhole items) then throw .malformed
    let form := Form.positional items.length
    match type with
    | .register =>
      let parts ← takeListed RegisterParts.take Shape.registerNode {} items
      return .register (← parts.finish form)
    | .group kind =>
      let node ← (← decodeItems n.down {} Shape.groupNode.members items).finish form
      Shape.groupNode.checkLength form
      return .group kind node.name node.offset node.children
  | v => v.mismatch "internally tagged enum Component"

def decodeComponents (n : TypeNamings) : List Value → Decoded (List Component)
  | [] => .ok []
  | v :: rest => do
    let component ← decodeComponent n v
    return component :: (← decodeComponents n rest)

/-- The components of a group. -/
def decodeChildren (n : TypeNamings) : Value → Decoded (List Component)
  | .list items closed => do
    let children ← decodeComponents n items
    if closed then return children else throw .malformed
  | v => v.mismatch "a sequence"

/-- The named members of a group. -/
def decodeMembers (n : TypeNamings) (p : GroupParts) : List (String × Value) → Decoded GroupParts
  | [] => .ok p
  | (member, v) :: rest => do
    let p ← p.take member v (decodeChildren n v)
    decodeMembers n p rest

/-- The members of a group in order. -/
def decodeItems (n : TypeNamings) (p : GroupParts) :
    (members : List String) → List Value → Decoded GroupParts
  | member :: members, v :: rest => do
    let p ← p.take member v (decodeChildren n v)
    decodeItems n p members rest
  | _, _ => .ok p

end

-- =================================================================== top

/-- The description a value holds. Members of the top node are taken as
they are read, so a problem in one of them comes before a break in the
text after it. -/
def Design.decode (n : TypeNamings) : Value → Decoded Design
  | .record members closed => do
    let p ← decodeMembers n {} members
    if closed then p.finish .named else throw .malformed
  | .list items closed => do
    let p ← decodeItems n {} Shape.groupNode.members items
    if closed && items.length ≤ Shape.groupNode.members.length then
      p.finish (.positional items.length)
    else throw .malformed
  | v => v.mismatch Shape.groupNode.label

end RegisterMap.Description
