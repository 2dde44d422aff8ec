/-
The places in a description, as a listing of its tree. Every component is
listed in pre-order with the groups around it, outermost first
(`Design.nodes`), every register moreover with its number in the memory
that holds it (`Design.sites`); `sitesIn_nodes` says that the second list
has the registers of the first. What a register is called and where it
lies is a matter of its place alone, and so is what is collected of it:
a register of its own (`Site.register`) or an array (`Site.array`), with a
field for each field that is described (`FieldNode.field`).
-/
import Mathlib.Algebra.GroupWithZero.Nat
import RegisterMap.Register.Scan

namespace RegisterMap.Description

/-- A group on the way from the top to a component. -/
structure Group where
  kind : GroupKind
  name : String
  offset : Nat
  deriving DecidableEq, Repr

namespace Group

/-- Offsets of groups inside each other, taken together. -/
def base (above : List Group) : Nat := (above.map (·.offset)).sum

/-- Names that the groups lend to what they contain. The top one lends
none, and neither does a memory. -/
def lent (above : List Group) : List String :=
  (above.tail.filter (·.kind != .memory)).map (·.name)

/-- The memory among the groups. -/
def memory? (above : List Group) : Option String :=
  (above.find? (·.kind == .memory)).map (·.name)

end Group

-- ========================================================== components

/-- A component and the groups around it, outermost first. -/
structure Node where
  above : List Group
  component : Component

namespace Node

/-- The sum of the offsets from the top down to the component. -/
def address (n : Node) : Nat := Group.base n.above + n.component.offset

/-- A memory inside another one, or a register of several dimensions. -/
def Refused (n : Node) : Prop :=
  match n.component with
  | .register node => 1 < node.dimensions.length
  | .group kind .. => kind = .memory ∧ (Group.memory? n.above).isSome

instance (n : Node) : Decidable n.Refused := by
  unfold Refused
  cases n.component <;> exact inferInstance

end Node

mutual

/-- A component and everything in it, in pre-order. -/
def Component.nodes (above : List Group) : Component → List Node
  | .register node => [⟨above, .register node⟩]
  | .group kind name offset children =>
    ⟨above, .group kind name offset children⟩
      :: Component.nodesIn (above ++ [⟨kind, name, offset⟩]) children

/-- Components and everything in them, in pre-order. -/
def Component.nodesIn (above : List Group) : List Component → List Node
  | [] => []
  | c :: rest => Component.nodes above c ++ Component.nodesIn above rest

end

/-- A component is the first one of its own listing. -/
theorem Component.mem_nodes (above : List Group) (c : Component) : ⟨above, c⟩ ∈ c.nodes above := by
  cases c with
  | register node => exact List.mem_singleton_self _
  | group kind name offset children => exact List.mem_cons_self ..

-- ============================================================== fields

namespace FieldNode

/-- The field that a node describes. It spans the two bit positions, in
whichever order they are given; software reads it if the access is for
reading, and writes it if the access is for writing. -/
def field (node : FieldNode) : Field where
  name := node.name
  low := min node.lsb node.msb
  high := max node.lsb node.msb
  readable := decide (node.access = .rw ∨ node.access = .r)
  writable := decide (node.access = .rw ∨ node.access = .w)
  reset := node.reset
  onRead := node.onRead
  onWrite := node.onWrite

theorem ofNode_eq_field (node : FieldNode) : Field.ofNode node = node.field := by
  obtain ⟨name, lsb, msb, access, reset, onRead, onWrite⟩ := node
  cases access <;> rfl

end FieldNode

-- =========================================================== registers

/-- A register, the groups around it, outermost first, and the number of
registers before it in its memory. -/
structure Site where
  above : List Group
  node : RegisterNode
  rank : Nat := 0
  deriving DecidableEq, Repr

/-- Sites with the numbers from `first` on. -/
def Site.numbered (first : Nat) (sites : List Site) : List Site :=
  sites.mapIdx fun i s => { s with rank := first + i }

mutual

/-- The registers of a component, in pre-order. -/
def Component.sites (above : List Group) : Component → List Site
  | .register node => [{ above, node }]
  | .group .memory name offset children =>
    Site.numbered 0 (Component.sitesIn (above ++ [⟨.memory, name, offset⟩]) children)
  | .group kind name offset children =>
    Component.sitesIn (above ++ [⟨kind, name, offset⟩]) children

/-- The registers of components, in pre-order. -/
def Component.sitesIn (above : List Group) : List Component → List Site
  | [] => []
  | c :: rest => Component.sites above c ++ Component.sitesIn above rest

end

namespace Site

/-- The register as a node of the description. -/
def toNode (s : Site) : Node := ⟨s.above, .register s.node⟩

/-- The sum of the offsets from the top down to the register. -/
def address (s : Site) : Nat := Group.base s.above + s.node.offset

/-- Names of the enclosing register files and nested address maps,
outermost first. -/
def groups (s : Site) : List String := Group.lent s.above

/-- Whether the register is none of an array: no memory holds it, and it
has no dimension. -/
def isAlone (s : Site) : Bool := (Group.memory? s.above).isNone && s.node.dimensions.isEmpty

/-- The register with its own fields. -/
def register (s : Site) : Register where
  name := s.node.name
  groups := s.groups
  address := s.address
  width := s.node.width
  fields := s.node.fields.map FieldNode.field

/-- The name of the register as an array. The first one in a memory is
named for the memory, every later one for the memory and itself. -/
def arrayName (s : Site) : String :=
  match Group.memory? s.above with
  | none => s.node.name
  | some memory => if s.rank = 0 then memory else memory ++ "_" ++ s.node.name

/-- The register as an array of as many elements as its dimension says, one
if it has none. They are as far apart as is said, or as wide as one of them
is in bytes. -/
def array (s : Site) : RegisterArray where
  name := s.arrayName
  groups := s.groups
  register := s.register
  address := s.address
  count := s.node.dimensions.headD 1
  stride := s.node.stride?.getD ((s.node.width + 7) / 8)

end Site

-- =============================================================== designs

namespace Design

/-- The top node as a group. -/
def top (d : Design) : Group := ⟨.addressMap, d.name, d.offset⟩

/-- Everything below the top node, in pre-order. -/
def nodes (d : Design) : List Node := Component.nodesIn [d.top] d.children

/-- Every register, in pre-order. -/
def sites (d : Design) : List Site := Component.sitesIn [d.top] d.children

end Design

-- ============================================================== numbers

namespace Site

variable {first : Nat} {sites more : List Site}

theorem numbered_length : (numbered first sites).length = sites.length := List.length_mapIdx

theorem numbered_append : numbered first (sites ++ more)
    = numbered first sites ++ numbered (first + sites.length) more := by
  unfold numbered
  rw [List.mapIdx_append]
  simp only [Nat.add_assoc, Nat.add_comm sites.length]

theorem numbered_toNode : (numbered first sites).map toNode = sites.map toNode := by
  refine List.ext_getElem (by simp [numbered]) fun i hi _ => ?_
  simp [numbered, toNode]

end Site

-- ============================================================ both lists

/-- The component is a register. -/
def Node.isRegister (n : Node) : Bool :=
  match n.component with
  | .register _ => true
  | .group .. => false

mutual

theorem Component.sites_nodes (above : List Group) :
    (c : Component) → (c.sites above).map Site.toNode = (c.nodes above).filter (·.isRegister)
  | .register node => rfl
  | .group kind name offset children => by
    have hinner := Component.sitesIn_nodes (above ++ [⟨kind, name, offset⟩]) children
    have hself : (Node.mk above (.group kind name offset children)).isRegister = false := rfl
    unfold Component.nodes
    rw [List.filter_cons, hself, if_neg Bool.false_ne_true, ← hinner]
    cases kind with
    | addressMap => rfl
    | registerFile => rfl
    | memory => exact Site.numbered_toNode

/-- The sites are the places of the registers. -/
theorem Component.sitesIn_nodes (above : List Group) : (cs : List Component) →
    (Component.sitesIn above cs).map Site.toNode
      = (Component.nodesIn above cs).filter (·.isRegister)
  | [] => rfl
  | c :: rest => by
    unfold Component.sitesIn Component.nodesIn
    rw [List.map_append, List.filter_append, Component.sites_nodes above c,
      Component.sitesIn_nodes above rest]

end

end RegisterMap.Description
