/-
A register description: address maps, register files and memories nest,
and registers carry their fields. Offsets count from the enclosing group.
-/
import RegisterMap.Register.Effect
import RegisterMap.Word

namespace RegisterMap.Description

/-- A field as described. The two bit positions may come in either order. -/
structure FieldNode where
  name : String
  lsb : Nat
  msb : Nat
  access : SoftwareAccess := .rw
  reset : Nat := 0
  onRead : Option ReadEffect := none
  onWrite : Option WriteEffect := none
  deriving DecidableEq, Repr

namespace FieldNode

def low (f : FieldNode) : Nat := min f.lsb f.msb

def high (f : FieldNode) : Nat := max f.lsb f.msb

theorem low_le_high (f : FieldNode) : f.low ≤ f.high := by
  simp only [low, high]
  omega

end FieldNode

/-- A register as described. -/
structure RegisterNode where
  name : String
  offset : Nat := 0
  /-- Width in bits. -/
  width : Nat := 32
  /-- Array dimensions, none for a single register. -/
  dimensions : List Nat := []
  /-- Distance in bytes between array elements, where it is given. -/
  stride? : Option Nat := none
  fields : List FieldNode := []
  deriving DecidableEq, Repr

namespace RegisterNode

/-- Size in bytes. -/
def size (r : RegisterNode) : Nat := Word.bytesFor r.width

/-- Distance between array elements, by default the size of one. -/
def stride (r : RegisterNode) : Nat := r.stride?.getD r.size

end RegisterNode

/-- What a group of components is. -/
inductive GroupKind where
  | addressMap
  | registerFile
  | memory
  deriving DecidableEq, Repr

/-- The word that tells the kind of a group. -/
def GroupKind.keyword : GroupKind → String
  | .addressMap => "addrmap"
  | .registerFile => "regfile"
  | .memory => "mem"

/-- A register or a group of components. -/
inductive Component where
  | register (node : RegisterNode)
  | group (kind : GroupKind) (name : String) (offset : Nat) (children : List Component)
  deriving Repr

namespace Component

def offset : Component → Nat
  | .register node => node.offset
  | .group _ _ offset _ => offset

/-- The first register among components. -/
def firstRegister? : List Component → Option RegisterNode
  | [] => none
  | .register node :: _ => some node
  | .group .. :: rest => firstRegister? rest

end Component

/-- The top node of a description, an address map. -/
structure Design where
  name : String
  offset : Nat := 0
  children : List Component := []
  deriving Repr

end RegisterMap.Description
