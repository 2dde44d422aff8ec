/-
Removal of operations without effect: `x | 0`, `x ^ 0`, `x + 0`, `x - 0`,
shifts by zero and `x & mask` with every bit of `x` in the mask. An `x & 0`
is reduced to its zero. Operands are reduced before the operation itself.
-/
import RegisterMap.Code.Visit
import RegisterMap.Code.Link

namespace RegisterMap.Code

namespace Tree

/-- `value` has exactly the bits of the type of the expression `i`. -/
def isAllOnesFor (t : Tree) (value : Nat) (i : NodeId) : Bool :=
  ((t.exprType? i).bind (·.allOnes)) == some value

/-- The operand an operation reduces to, if it has no effect on it. A
difference from zero is a negation and stays. -/
def survivor? (t : Tree) (op : Operator) (lhs rhs : NodeId) : Option NodeId :=
  let left := t.intValue? lhs
  let right := t.intValue? rhs
  match op with
  | .or | .xor | .add =>
    if left = some 0 then some rhs
    else if right = some 0 then some lhs
    else none
  | .and =>
    if left = some 0 then some lhs
    else if right = some 0 then some rhs
    else if left.any (t.isAllOnesFor · rhs) then some rhs
    else if right.any (t.isAllOnesFor · lhs) then some lhs
    else none
  | .shl | .shr | .ushr | .sub => if right = some 0 then some lhs else none
  | _ => none

end Tree

namespace Edit

/-- Puts the surviving operand where the operation was. -/
def reduceHere (i : NodeId) : Edit Unit := do
  match (← read (·.node i)).kind with
  | .binary op _ =>
    let lhs ← read (·.slotHead i .lhs)
    let rhs ← read (·.slotHead i .rhs)
    match lhs, rhs with
    | some lhs, some rhs =>
      match ← read fun t => .ok (t.survivor? op lhs rhs) with
      | some operand =>
        detach operand
        replace i operand
      | none => pure ()
    | _, _ => pure ()
  | _ => pure ()

/-- Reduces every operation, operands first. -/
def reducer : Visitor Edit
  | .binary => some fun walk i => do
    walk i
    reduceHere i
  | _ => none

/-- Removes the operations without effect at and below `i`. -/
def reduce (i : NodeId) : Edit Unit := reducer.visit i

end Edit

end RegisterMap.Code
