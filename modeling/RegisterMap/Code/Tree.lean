/-
The code tree: an arena of nodes that refer to each other by number. A
node is linked in at most one place, as the head of a slot's chain or
right after a sibling, and both ends of every link are recorded (`heads`
and `next` on the holding side, `place` on the held side).

The walks along links (`first`, `chain`, `lineage`) are bounded by the
number of nodes, which no path of an acyclic tree exceeds.
-/
import RegisterMap.Code.Kind
import RegisterMap.Failure

namespace RegisterMap.Code

/-- What a node carries beside its kind. -/
structure Notes where
  name : Option String := none
  comment : Option String := none
  doc : Option String := none
  /-- The lines of its body are indented. -/
  indents : Bool := true
  deriving DecidableEq, Repr

/-- The first node of each slot's chain. -/
abbrev Heads := Slot → Option NodeId

namespace Heads

/-- No slot is filled. -/
def empty : Heads := fun _ => none

/-- The slots listed are filled as given, all others are empty. -/
def ofList (links : List (Slot × Option NodeId)) : Heads := fun slot =>
  (links.find? (·.1 = slot)).bind (·.2)

/-- Only the slots listed are kept. -/
def restrict (heads : Heads) (slots : List Slot) : Heads := fun slot =>
  if slot ∈ slots then heads slot else none

/-- One slot is given another head. -/
def set (heads : Heads) (slot : Slot) (head : Option NodeId) : Heads := fun s =>
  if s = slot then head else heads s

@[simp] theorem set_same (heads : Heads) (slot : Slot) (head : Option NodeId) :
    heads.set slot head slot = head := by
  simp [set]

theorem set_of_ne {heads : Heads} {slot s : Slot} {head : Option NodeId} (h : s ≠ slot) :
    heads.set slot head s = heads s := by
  simp [set, h]

end Heads

/-- One node of the arena. -/
structure Node where
  kind : Kind
  heads : Heads := Heads.empty
  notes : Notes := {}
  place : Place := .root
  next : Option NodeId := none

/-- Every node of one unit of generated code. -/
structure Tree where
  nodes : Array Node := #[]

namespace Tree

-- ============================================================= reading

/-- Number of nodes. -/
def size (t : Tree) : Nat := t.nodes.size

def node? (t : Tree) (i : NodeId) : Option Node := t.nodes[i]?

/-- The node numbered `i`; a number past the end is a range violation. -/
def node (t : Tree) (i : NodeId) : Except Failure Node :=
  match t.node? i with
  | some n => .ok n
  | none => .error (.fault (.outOfRange t.size i))

def kind? (t : Tree) (i : NodeId) : Option Kind := (t.node? i).map (·.kind)

def exprType? (t : Tree) (i : NodeId) : Option TypeRef := (t.kind? i).bind (·.exprType)

def intValue? (t : Tree) (i : NodeId) : Option Nat := (t.kind? i).bind (·.intValue?)

/-- The name of a node; nameless nodes have the empty one. -/
def name (t : Tree) (i : NodeId) : String :=
  ((t.node? i).bind (·.notes.name)).getD ""

def place (t : Tree) (i : NodeId) : Place := ((t.node? i).map (·.place)).getD .root

def next? (t : Tree) (i : NodeId) : Option NodeId := (t.node? i).bind (·.next)

def head (t : Tree) (owner : NodeId) (slot : Slot) : Option NodeId :=
  (t.node? owner).bind (·.heads slot)

def previous? (t : Tree) (i : NodeId) : Option NodeId :=
  match t.place i with
  | .after previous => some previous
  | _ => none

/-- A short reference to a node, for messages. -/
def describe (t : Tree) (i : NodeId) : String :=
  match t.node? i with
  | none => s!"node #{i}"
  | some n =>
    match n.notes.name with
    | some name => n.kind.label ++ " `" ++ name ++ s!"` (#{i})"
    | none => s!"{n.kind.label} #{i}"

-- ============================================================== chains

/-- At most `fuel` steps back along a chain. -/
def firstFrom (t : Tree) : (fuel : Nat) → NodeId → NodeId
  | 0, i => i
  | fuel + 1, i =>
    match t.previous? i with
    | some previous => t.firstFrom fuel previous
    | none => i

/-- Head of the chain `i` belongs to. -/
def first (t : Tree) (i : NodeId) : NodeId := t.firstFrom t.size i

/-- At most `fuel` nodes of a chain. -/
def chainFrom (t : Tree) : (fuel : Nat) → Option NodeId → List NodeId
  | 0, _ => []
  | _ + 1, none => []
  | fuel + 1, some i => i :: t.chainFrom fuel (t.next? i)

/-- The nodes of the chain that starts at `head`, in order. -/
def chain (t : Tree) (head : Option NodeId) : List NodeId := t.chainFrom t.size head

/-- Tail of the chain that starts at `i`. -/
def last (t : Tree) (i : NodeId) : NodeId := (t.chain (some i)).getLastD i

/-- Owner and slot of the chain `i` belongs to. -/
def parent? (t : Tree) (i : NodeId) : Option (NodeId × Slot) :=
  match t.place (t.first i) with
  | .slot owner slot => some (owner, slot)
  | _ => none

/-- The children of a node in slot order, each slot with its whole chain. -/
def children (t : Tree) (i : NodeId) : List NodeId :=
  match t.node? i with
  | none => []
  | some n => n.kind.slots.flatMap fun slot => t.chain (n.heads slot)

/-- At most `fuel` levels of the climb from `i` to the top. -/
def lineageFrom (t : Tree) : (fuel : Nat) → NodeId → List NodeId
  | 0, _ => []
  | fuel + 1, i =>
    let first := t.first i
    i :: first :: match t.place first with
      | .slot owner _ => t.lineageFrom fuel owner
      | _ => []

/-- `i`, the owners above it, and the head of the chain of each of them. -/
def lineage (t : Tree) (i : NodeId) : List NodeId := t.lineageFrom (t.size + 1) i

/-- Linking the chain headed by `head` at `anchor` would make the chain
contain one of its own ancestors. -/
def wouldCycle (t : Tree) (anchor head : NodeId) : Bool :=
  let members := t.chain (some head)
  (t.lineage anchor).any members.contains

-- ============================================================ updating

/-- Adds a node, numbered by the size before. -/
def push (t : Tree) (n : Node) : NodeId × Tree := (t.size, { nodes := t.nodes.push n })

def update (t : Tree) (i : NodeId) (f : Node → Node) : Tree := { nodes := t.nodes.modify i f }

def setKind (t : Tree) (i : NodeId) (kind : Kind) : Tree :=
  t.update i fun n => { n with kind := kind }

def setNotes (t : Tree) (i : NodeId) (f : Notes → Notes) : Tree :=
  t.update i fun n => { n with notes := f n.notes }

def setPlace (t : Tree) (i : NodeId) (place : Place) : Tree :=
  t.update i fun n => { n with place := place }

def setNext (t : Tree) (i : NodeId) (next : Option NodeId) : Tree :=
  t.update i fun n => { n with next := next }

def setHead (t : Tree) (owner : NodeId) (slot : Slot) (head : Option NodeId) : Tree :=
  t.update owner fun n => { n with heads := n.heads.set slot head }

@[simp] theorem size_update (t : Tree) (i : NodeId) (f : Node → Node) :
    (t.update i f).size = t.size := by
  simp [size, update]

theorem node?_update (t : Tree) (i j : NodeId) (f : Node → Node) :
    (t.update i f).node? j = if i = j then (t.node? j).map f else t.node? j := by
  simp [node?, update, Array.getElem?_modify]

theorem node?_push (t : Tree) (n : Node) (j : NodeId) :
    (t.push n).2.node? j = if j = t.size then some n else t.node? j :=
  Array.getElem?_push

theorem node?_eq_none_iff (t : Tree) (i : NodeId) : t.node? i = none ↔ t.size ≤ i := by
  simp [node?, size]

end Tree

end RegisterMap.Code
