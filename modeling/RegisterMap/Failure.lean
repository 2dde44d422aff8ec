/-
Why an operation stops. Three kinds of cause are kept apart: the code
tree was misused (`LinkError`), a description cannot be turned into a
peripheral (`Refusal`), or a number left its range (`Fault`). Each cause
has one wording, given by its `message`.
-/
import RegisterMap.Code.Slot
import RegisterMap.Text.Numeral
import RegisterMap.Text.Ticked

namespace RegisterMap

open Text (ticked)

-- ==================================================== code tree misuse

/-- Misuse of the code tree. A `node` argument is the description of the
node at fault. -/
inductive LinkError where
  | alreadyLinked (node : String)
  | notLinked (node : String)
  | hasSuccessor (node : String)
  | cycle (node : String)
  | invalidSlot (node : String) (slot : Code.Slot)
  | slotOccupied (node : String) (slot : Code.Slot)
  | notADeclaration (node : String)
  | notAnExpression (node : String)
  | invalidOperand (operator operand type : String)
  | unknownNode (id : Code.NodeId)
  | unfilledHole (owner : String)
  deriving DecidableEq, Repr

def LinkError.message : LinkError → String
  | .alreadyLinked node => s!"{node} is already linked into a tree"
  | .notLinked node => s!"{node} is not linked into a tree"
  | .hasSuccessor node => s!"{node} is already followed by another node"
  | .cycle node => s!"linking {node} would create a cycle"
  | .invalidSlot node slot => s!"{node} has no {slot.label} slot"
  | .slotOccupied node slot => s!"{slot.label} slot of {node} is already occupied"
  | .notADeclaration node => s!"{node} is not a variable declaration"
  | .notAnExpression node => s!"{node} is not an expression"
  | .invalidOperand operator operand type =>
    s!"operator {ticked operator} cannot be applied to {operand} of type {ticked type}"
  | .unknownNode id => s!"node {id} does not exist"
  | .unfilledHole owner => s!"cannot emit an unfilled hole inside {owner}"

-- ============================================== unsupported descriptions

/-- Why a description has no peripheral. -/
inductive Refusal where
  /-- A memory lies inside another one. -/
  | nestedMemory (inner outer : String)
  /-- A register is declared with several array dimensions. -/
  | arrayDimensions (register : String) (dimensions : Nat)
  /-- A field was reported outside any register. -/
  | strayField (field : String)
  /-- A field was reported inside an array, but no array was collected. -/
  | strayArrayField (field : String)
  /-- Two registers at one address have fields that collide. -/
  | fieldsOverlap (first second : String) (address : Nat) (field other : String)
  /-- A field collides with several fields of a register at its address. -/
  | fieldOverlapsMany (first second : String) (address : Nat) (field : String) (count : Nat)
  /-- A field has no type wide enough. -/
  | fieldTooWide (field : String) (width : Nat)
  /-- The namespace of the peripheral is empty. -/
  | noNamespace
  deriving DecidableEq, Repr

private def clash (first second : String) (address : Nat) : String :=
  s!"Registers {ticked first} and {ticked second} at {Text.hex address} cannot be merged: "

def Refusal.message : Refusal → String
  | .nestedMemory inner outer =>
    s!"Encountered a nested memory {ticked inner} inside memory {ticked outer}"
  | .arrayDimensions register dimensions =>
    s!"Register {ticked register} has {dimensions} array dimensions; only one is supported"
  | .strayField field => s!"Field {ticked field} has no enclosing register"
  | .strayArrayField field => s!"Field {ticked field} has no enclosing register array"
  | .fieldsOverlap first second address field other =>
    clash first second address ++ s!"fields {ticked field} and {ticked other} overlap"
  | .fieldOverlapsMany first second address field count =>
    clash first second address ++ s!"field {ticked field} overlaps {count} fields"
  | .fieldTooWide field width =>
    s!"Field {ticked field} is {width} bits wide, at most 64 bits are supported"
  | .noNamespace => "The generated peripheral needs a namespace"

-- ====================================================== range violations

/-- A number that left its range. -/
inductive Fault where
  | addOverflow
  | subOverflow
  | mulOverflow
  /-- A node number past the end of a tree of `size` nodes. -/
  | outOfRange (size index : Nat)
  deriving DecidableEq, Repr

def Fault.message : Fault → String
  | .addOverflow => "attempt to add with overflow"
  | .subOverflow => "attempt to subtract with overflow"
  | .mulOverflow => "attempt to multiply with overflow"
  | .outOfRange size index =>
    s!"index out of bounds: the len is {size} but the index is {index}"

-- ============================================================== failures

/-- Why an operation stops. -/
inductive Failure where
  | link (error : LinkError)
  | refused (reason : Refusal)
  | fault (cause : Fault)
  /-- A listener ended the walk, for a reason of its own. -/
  | stopped (reason : String)
  deriving DecidableEq, Repr

def Failure.message : Failure → String
  | .link e => e.message
  | .refused r => r.message
  | .fault f => f.message
  | .stopped r => r

end RegisterMap
