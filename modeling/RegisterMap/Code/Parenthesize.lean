/-
The parentheses that operator precedence calls for. An operand that binds
weaker than its operation is wrapped; so is an operand of the same tier
where reading from the left would regroup it, unless the operator may be
regrouped freely. An operator below a cast is always wrapped.
-/
import RegisterMap.Code.Visit
import RegisterMap.Code.Build

namespace RegisterMap.Code

namespace Edit

/-- Puts parentheses around a linked expression. A hole keeps its position
while the parentheses are built. -/
def wrap (expr : NodeId) : Edit Unit := do
  let hole ← leaf .hole
  replace expr hole
  let paren ← paren expr
  replace hole paren

/-- The operand is an operator weaker than `outer`. -/
def isLooser (outer operand : Kind) : Bool :=
  operand.isOperator && operand.tier < outer.tier

/-- The operand would be regrouped if it stood on the open side of
`outer` without parentheses. -/
def isRegrouped (outer operand : Kind) : Bool :=
  operand.isOperator && operand.tier == outer.tier &&
    match outer, operand with
    | .binary a _, .binary b _ => !(a == b && a.isAssociative)
    | _, _ => true

/-- Wraps every operand that binds weaker than `i` itself. -/
def wrapLooser (i : NodeId) : Edit Unit := do
  let outer ← read (·.node i)
  let children ← read fun t => .ok (t.children i)
  children.forM fun child => do
    let operand ← read (·.node child)
    if isLooser outer.kind operand.kind then wrap child

/-- Wraps the operand on the open side of `i` if it would be regrouped. -/
def wrapRegrouped (i : NodeId) (slot : Slot) : Edit Unit := do
  match ← read (·.slotHead i slot) with
  | none => pure ()
  | some child =>
    let outer ← read (·.node i)
    let operand ← read (·.node child)
    if isRegrouped outer.kind operand.kind then wrap child

/-- Wraps an operator that is cast. -/
def wrapCastOperand (i : NodeId) : Edit Unit := do
  match ← read (·.slotHead i .expr) with
  | none => pure ()
  | some child =>
    let operand ← read (·.node child)
    if operand.kind.isOperator then wrap child

/-- Wraps operands from the leaves up. The open side of a binary operator
is its right operand, that of a conditional its condition. -/
def parenthesizer : Visitor Edit
  | .binary => some fun walk i => do
    walk i
    wrapLooser i
    wrapRegrouped i .rhs
  | .cond => some fun walk i => do
    walk i
    wrapLooser i
    wrapRegrouped i .condition
  | .cast => some fun walk i => do
    walk i
    wrapCastOperand i
  | _ => none

/-- Adds the parentheses that precedence calls for at and below `i`. -/
def parenthesize (i : NodeId) : Edit Unit := parenthesizer.visit i

end Edit

end RegisterMap.Code
