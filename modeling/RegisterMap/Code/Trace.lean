/-
Records of traversals: visitors that change nothing and note every node
they are handed, with the role they were handed it in.
-/
import RegisterMap.Code.Visit

namespace RegisterMap.Code

/-- The name of a role in a record. -/
def Role.label : Role → String
  | .node => "node"
  | .expr => "expr"
  | .binary => "binary"
  | .cond => "cond"
  | .cast => "cast"
  | .stmt => "stmt"
  | .variable => "variable_decl"
  | .invokable => "invokable"
  | .method => "method"
  | .property => "property"
  | .classRole => "class"
  | .namespaceRole => "namespace"

/-- Which roles a recording visitor acts on. -/
inductive TraceMode where
  /-- Every role. -/
  | full
  /-- The general roles: nodes, expressions, statements and invokables. -/
  | category
  /-- Nodes only, whatever their kind. -/
  | nodes
  /-- Expressions only, and nothing below them. -/
  | exprs
  deriving DecidableEq, Repr

namespace TraceMode

def records : TraceMode → Role → Bool
  | .full, _ => true
  | .category, role => role == .node || role == .expr || role == .stmt || role == .invokable
  | .nodes, role => role == .node
  | .exprs, role => role == .expr

def descends : TraceMode → Bool
  | .exprs => false
  | _ => true

end TraceMode

/-- Actions that keep a record. -/
abbrev Recording := StateT (Array String) Edit

/-- The line a visit of `i` in a role leaves. -/
def Tree.traceLine (t : Tree) (role : Role) (i : NodeId) : String :=
  let detail :=
    match role, t.kind? i with
    | .binary, some (.binary op _) => op.symbol ++ " "
    | _, _ => ""
  role.label ++ " " ++ detail ++ t.describe i

/-- Records the roles of its mode. -/
def recorder (mode : TraceMode) : Visitor Recording := fun role =>
  if mode.records role then
    some fun walk i => do
      let line ← liftM (Edit.read fun t => .ok (t.traceLine role i))
      modify (·.push line)
      if mode.descends then walk i
  else none

/-- The record of a visit of `i`. -/
def Edit.trace (mode : TraceMode) (i : NodeId) : Edit (List String) := do
  let (_, lines) ← ((recorder mode).visit i).run #[]
  pure lines.toList

end RegisterMap.Code
