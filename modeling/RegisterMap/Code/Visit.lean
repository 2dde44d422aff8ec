/-
Traversals by role. Every kind of node has a role; roles form a short
ladder from the specific to the general, and a visitor acts on the roles
it cares about. A node is handed to the most specific action its ladder
offers; without one, its children are visited.

The children of a node are listed before the first of them is visited, so
an action may replace the node it was given.
-/
import RegisterMap.Code.Edit

namespace RegisterMap.Code

/-- What a node is to a visitor. -/
inductive Role where
  | node | expr | binary | cond | cast | stmt | variable | invokable | method | property
  | classRole | namespaceRole
  deriving DecidableEq, Repr

namespace Role

/-- The next more general role. -/
def general? : Role → Option Role
  | .node => none
  | .binary | .cond | .cast => some .expr
  | .variable => some .stmt
  | .method | .property => some .invokable
  | .expr | .stmt | .invokable | .classRole | .namespaceRole => some .node

/-- A role and everything more general, specific roles first. -/
def ladder (role : Role) : List Role :=
  match role.general? with
  | none => [role]
  | some up =>
    match up.general? with
    | none => [role, up]
    | some top => [role, up, top]

end Role

/-- The most specific role of a kind. -/
def Kind.role : Kind → Role
  | .binary .. => .binary
  | .cond .. => .cond
  | .cast .. => .cast
  | .snippetExpr .. | .intLit .. | .boolLit .. | .stringLit .. | .varRef .. | .self
  | .paren .. | .assign .. | .index .. | .member .. | .call .. | .newObject ..
  | .newArray .. => .expr
  | .variableDecl .. | .paramDecl .. => .variable
  | .exprStmt | .returnStmt | .throwStmt | .branch => .stmt
  | .methodDecl .. => .method
  | .propertyDecl .. => .property
  | .classDecl .. => .classRole
  | .namespaceDecl => .namespaceRole
  | .hole | .snippet .. | .arg .. => .node

/-- What a visitor does with a node of a role it acts on. `walk` visits
the children of a node. -/
abbrev Visitor (m : Type → Type) := Role → Option ((walk : NodeId → m Unit) → NodeId → m Unit)

namespace Visitor

variable {m : Type → Type}

/-- The action for a role: that of the first step of its ladder for which
the visitor has one. -/
def action? (v : Visitor m) (role : Role) : Option ((NodeId → m Unit) → NodeId → m Unit) :=
  role.ladder.findSome? v

variable [Monad m] [MonadLiftT Edit m]

/-- Visits at most `fuel` levels of the tree below `i`. -/
def visitFrom (v : Visitor m) : (fuel : Nat) → NodeId → m Unit
  | 0, _ => pure ()
  | fuel + 1, i => do
    let walk (j : NodeId) : m Unit := do
      let children ← liftM (Edit.read fun t => .ok (t.children j))
      children.forM (v.visitFrom fuel)
    let n ← liftM (Edit.read (·.node i))
    match v.action? n.kind.role with
    | some act => act walk i
    | none => walk i

/-- Visits `i` and whatever the visitor walks to from there. No path down
the tree has more nodes than the tree. -/
def visit (v : Visitor m) (i : NodeId) : m Unit := do
  let size ← liftM (Edit.read fun t => .ok t.size)
  v.visitFrom (size + 1) i

end Visitor

end RegisterMap.Code
