/-
The named child positions of a code node, and the places a node can be
attached to. Only the first node of a chain of siblings hangs in a slot;
every later one follows its predecessor.
-/
namespace RegisterMap.Code

/-- Number of a node, given out from zero in creation order. -/
abbrev NodeId := Nat

/-- A child position of a node. -/
inductive Slot where
  | lhs | rhs | expr | condition | consequent | alternative | object | index | receiver | args
  | count | value | init | params | body | get | set | fields | properties | methods
  | classes | namespaces
  deriving DecidableEq, Repr

/-- The name a slot has in messages. -/
def Slot.label : Slot → String
  | .lhs => "Lhs"
  | .rhs => "Rhs"
  | .expr => "Expr"
  | .condition => "Condition"
  | .consequent => "Then"
  | .alternative => "Else"
  | .object => "Object"
  | .index => "Index"
  | .receiver => "Receiver"
  | .args => "Args"
  | .count => "Count"
  | .value => "Value"
  | .init => "Init"
  | .params => "Params"
  | .body => "Body"
  | .get => "Get"
  | .set => "Set"
  | .fields => "Fields"
  | .properties => "Properties"
  | .methods => "Methods"
  | .classes => "Classes"
  | .namespaces => "Namespaces"

/-- Every slot. -/
def Slot.all : List Slot :=
  [.lhs, .rhs, .expr, .condition, .consequent, .alternative, .object, .index, .receiver, .args,
    .count, .value, .init, .params, .body, .get, .set, .fields, .properties, .methods,
    .classes, .namespaces]

/-- The slot of a name. -/
def Slot.ofLabel? (label : String) : Option Slot := Slot.all.find? fun s => s.label == label

theorem Slot.mem_all (s : Slot) : s ∈ Slot.all := by
  cases s <;> decide

theorem Slot.ofLabel?_label (s : Slot) : Slot.ofLabel? s.label = some s := by
  cases s <;> rfl

/-- Where a node is attached. -/
inductive Place where
  /-- Nowhere: the node heads a chain of its own. -/
  | root
  /-- It heads the chain of a slot. -/
  | slot (owner : NodeId) (slot : Slot)
  /-- It follows a sibling. -/
  | after (previous : NodeId)
  deriving DecidableEq, Repr

end RegisterMap.Code
