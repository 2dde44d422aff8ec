/-
Types of the generated code: the built-in primitives, named types and
arrays, together with accessibility and the declaration modifiers.
-/
namespace RegisterMap.Code

-- Powers stay the core ones under any import.
attribute [local instance (high)] instPowNat

/-- A built-in type. -/
inductive Primitive where
  | sbyte | byte | short | ushort | int | uint | long | ulong | bool | string
  deriving DecidableEq, Repr

namespace Primitive

def keyword : Primitive → String
  | .sbyte => "sbyte"
  | .byte => "byte"
  | .short => "short"
  | .ushort => "ushort"
  | .int => "int"
  | .uint => "uint"
  | .long => "long"
  | .ulong => "ulong"
  | .bool => "bool"
  | .string => "string"

/-- Every built-in type. -/
def all : List Primitive :=
  [.sbyte, .byte, .short, .ushort, .int, .uint, .long, .ulong, .bool, .string]

/-- The built-in type a keyword names. -/
def ofKeyword? (text : String) : Option Primitive :=
  all.find? fun p => p.keyword == text

theorem ofKeyword?_keyword (p : Primitive) : ofKeyword? p.keyword = some p := by
  cases p <;> rfl

/-- Width in bits. A `bool` counts with the byte it is stored in; a
`string` has no width. -/
def width : Primitive → Option Nat
  | .sbyte | .byte | .bool => some 8
  | .short | .ushort => some 16
  | .int | .uint => some 32
  | .long | .ulong => some 64
  | .string => none

def isUnsigned : Primitive → Bool
  | .byte | .ushort | .uint | .ulong => true
  | _ => false

end Primitive

/-- A reference to a type. -/
inductive TypeRef where
  | primitive (p : Primitive)
  | named (name : String)
  | array (element : TypeRef)
  deriving DecidableEq, Repr

namespace TypeRef

abbrev byte : TypeRef := .primitive .byte
abbrev ushort : TypeRef := .primitive .ushort
abbrev int : TypeRef := .primitive .int
abbrev uint : TypeRef := .primitive .uint
abbrev long : TypeRef := .primitive .long
abbrev ulong : TypeRef := .primitive .ulong
abbrev bool : TypeRef := .primitive .bool
abbrev string : TypeRef := .primitive .string

/-- A type as it is written. -/
def text : TypeRef → String
  | .primitive p => p.keyword
  | .named name => name
  | .array element => element.text ++ "[]"

/-- Reads a type from its letters, last one first. -/
private def ofReversed : List Char → TypeRef
  | ']' :: '[' :: rest => .array (ofReversed rest)
  | letters =>
    let name := String.ofList letters.reverse
    match Primitive.ofKeyword? name with
    | some p => .primitive p
    | none => .named name

/-- Reads a type as it is written; what is neither a built-in type nor an
array is a named type. -/
def ofText (text : String) : TypeRef := ofReversed text.toList.reverse

/-- Width in bits of a built-in type. -/
def width : TypeRef → Option Nat
  | .primitive p => p.width
  | _ => none

def isUnsigned : TypeRef → Bool
  | .primitive p => p.isUnsigned
  | _ => false

/-- Wider than 32 bits. -/
def isLong (t : TypeRef) : Bool := t.width.any (32 < ·)

/-- The value with every bit of the type's width set. -/
def allOnes (t : TypeRef) : Option Nat := t.width.map fun w => 2 ^ w - 1

end TypeRef

/-- Accessibility of a declaration. -/
inductive Access where
  | pub | internal | prot | priv
  deriving DecidableEq, Repr

namespace Access

def keyword : Access → String
  | .pub => "public"
  | .internal => "internal"
  | .prot => "protected"
  | .priv => "private"

/-- The keyword and a space, or nothing where no accessibility is given. -/
def lead : Option Access → String
  | some a => a.keyword ++ " "
  | none => ""

end Access

/-- Modifiers of a declaration. -/
structure Modifiers where
  isPartial : Bool := false
  isStatic : Bool := false
  isOverride : Bool := false
  isVirtual : Bool := false
  isAbstract : Bool := false
  deriving DecidableEq, Repr

/-- The keywords of the modifiers that are set, each followed by a space,
in the order in which they may be written. -/
def Modifiers.lead (m : Modifiers) : String :=
  String.join <|
    [(m.isPartial, "partial "), (m.isStatic, "static "), (m.isOverride, "override "),
      (m.isVirtual, "virtual "), (m.isAbstract, "abstract ")].map
      fun (isSet, keyword) => if isSet then keyword else ""

end RegisterMap.Code
