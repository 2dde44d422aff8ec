/-
A register repeated at a fixed distance. The elements share one buffer,
which ends with room for a double word that starts at the last byte.
-/
import RegisterMap.Register.Basic

namespace RegisterMap

/-- Width of an address. -/
def addressBits : Nat := 64

structure RegisterArray where
  /-- Name of the array, most often the memory that holds it. -/
  name : String
  groups : List String := []
  /-- The register every element is a copy of. -/
  register : Register
  /-- Absolute address of element 0. -/
  address : Nat := 0
  count : Nat := 1
  /-- Distance in bytes between elements. -/
  stride : Nat := 4
  deriving DecidableEq, Repr

namespace RegisterArray

-- =============================================================== names

/-- Name of the peripheral member that holds the array. -/
def memberName (a : RegisterArray) : String := Text.pascalPath a.groups a.name

def typeName (a : RegisterArray) : String := a.memberName ++ "Type"

/-- Name of the type that gives access to one element. -/
def elementName (a : RegisterArray) : String :=
  Text.pascalCase a.name ++ "_" ++ Text.pascalCase a.register.name ++ "Wrapper"

/-- One line of documentation. -/
def doc (a : RegisterArray) : String :=
  s!"Memory \"{a.name}\" at {Text.hex a.address}, {a.count} elements of " ++
    s!"\"{a.register.name}\" every {a.stride} bytes"

-- =============================================================== sizes

/-- Size in bytes. -/
def size (a : RegisterArray) : Except Failure Nat := Word.mul addressBits a.count a.stride

/-- The first address past the array. -/
def endAddress (a : RegisterArray) : Except Failure Nat := do
  Word.add addressBits a.address (← a.size)

/-- Bytes of the buffer behind the array. A double word access may start
at any byte of the array, so three more bytes follow it. -/
def bufferSize (a : RegisterArray) : Except Failure Nat := do
  Word.add addressBits (← a.size) 3

-- =============================================================== reset

/-- The bytes of the register that do not reset to zero, as offset and
value. Only bytes that a mask reaches can be among them. -/
def template (a : RegisterArray) : Except Failure (List (Nat × Nat)) := do
  let reset ← a.register.resetValue
  let bytes := List.range (min (Word.bytesFor a.register.width) (maskBits / 8))
  return (bytes.map fun i => (i, Word.byteAt reset i)).filter (·.2 != 0)

/-- The template placed in `count` elements, from element `first` on. -/
def placeTemplate (stride : Nat) (template : List (Nat × Nat)) :
    (count first : Nat) → Except Failure (List (Nat × Nat))
  | 0, _ => .ok []
  | count + 1, first => do
    let here ← template.mapM fun (offset, byte) => do
      return (← Word.add addressBits (← Word.mul addressBits first stride) offset, byte)
    return here ++ (← placeTemplate stride template count (first + 1))

/-- Every byte of the buffer that does not reset to zero, as offset and
value. -/
def resetBytes (a : RegisterArray) : Except Failure (List (Nat × Nat)) := do
  match ← a.template with
  | [] => return []
  | template => placeTemplate a.stride template a.count 0

end RegisterArray

end RegisterMap
