/-
Walking a description in pre-order. A listener is told of every node that
is entered, with its absolute address, and of every node that is left. It
may skip what lies below a node and may end the walk; a node that was
skipped is left all the same.
-/
import RegisterMap.Description.Node

namespace RegisterMap.Description

/-- A listener's answer on entering a node. -/
inductive Visit where
  | descend
  | skip
  deriving DecidableEq, Repr

/-- What a listener does when told of a node: it changes its own state,
and may end the walk. -/
abbrev Listening (σ : Type) := ExceptT Failure (StateM σ)

structure Listener (σ : Type) where
  enterGroup : GroupKind → (name : String) → (address : Nat) → Listening σ Visit :=
    fun _ _ _ => pure .descend
  exitGroup : GroupKind → (name : String) → Listening σ Unit := fun _ _ => pure ()
  enterRegister : RegisterNode → (address : Nat) → Listening σ Visit :=
    fun _ _ => pure .descend
  exitRegister : RegisterNode → Listening σ Unit := fun _ => pure ()
  enterField : FieldNode → Listening σ Unit := fun _ => pure ()
  exitField : FieldNode → Listening σ Unit := fun _ => pure ()

namespace Listener

variable {σ : Type}

def fields (l : Listener σ) : List FieldNode → Listening σ Unit
  | [] => pure ()
  | field :: rest => do
    l.enterField field
    l.exitField field
    l.fields rest

/-- Reports a register that lies at `address`. -/
def register (l : Listener σ) (node : RegisterNode) (address : Nat) : Listening σ Unit := do
  match ← l.enterRegister node address with
  | .descend => l.fields node.fields
  | .skip => pure ()
  l.exitRegister node

/-- Address of a component inside a group at `base`. -/
def locate (base : Nat) (c : Component) : Listening σ Nat :=
  fun s => (Word.add 64 base c.offset, s)

mutual

/-- Reports a component that lies at `address`. -/
def component (l : Listener σ) : Component → (address : Nat) → Listening σ Unit
  | .register node, address => l.register node address
  | .group kind name _ children, address => do
    match ← l.enterGroup kind name address with
    | .descend => l.components children address
    | .skip => pure ()
    l.exitGroup kind name

/-- Reports the components of a group at `base`. -/
def components (l : Listener σ) : List Component → (base : Nat) → Listening σ Unit
  | [], _ => pure ()
  | c :: rest, base => do
    let address ← locate base c
    l.component c address
    l.components rest base

end

/-- Reports a whole description; the offset of its top node is its
absolute address. -/
def design (l : Listener σ) (d : Design) : Listening σ Unit :=
  l.component (.group .addressMap d.name d.offset d.children) d.offset

end Listener

end RegisterMap.Description
