/-
Dispatch of accesses by address. An array answers at every offset it
covers, a register at its own address only.
-/
import RegisterMap.Code.Sketch
import RegisterMap.Code.Link
import RegisterMap.Register.Array

namespace RegisterMap.Peripheral

open Code

/-- An address in the generated code. -/
def addressLit (address : Nat) : Sketch := .literal address false true true

-- ============================================================== arrays

/-- Where an array is held in the peripheral. -/
structure ArraySite where
  array : RegisterArray
  /-- The member that holds the array. -/
  decl : NodeId

namespace ArraySite

/-- The offset lies in the array. -/
def covers (s : ArraySite) (offset : NodeId) : Sketch :=
  .binary .land
    (.binary .gte (.use offset) (addressLit s.array.address))
    (.binary .lt (.use offset)
      (.binary .add (addressLit s.array.address) (.member (.use s.decl) "Size" .long)))

/-- The offset counted from the start of the array. -/
def relative (s : ArraySite) (offset : NodeId) : Sketch :=
  .binary .sub (.use offset) (addressLit s.array.address)

/-- A guard for offsets in the array around the access `build` makes. -/
def guardAccess (s : ArraySite) (offset : NodeId) (build : Edit NodeId) : Edit NodeId := do
  let hole ← Sketch.hole.plant
  let guard ← (Sketch.branch (s.covers offset) [.node hole] []).plant
  let access ← build
  Edit.replace hole access
  return guard

/-- Reads a double word of the array. -/
def readAccess (s : ArraySite) (offset : NodeId) : Edit NodeId :=
  s.guardAccess offset <| Sketch.plant <|
    .ret (some (.call "ReadDoubleWord" (some (.use s.decl)) [s.relative offset] (some .uint)))

/-- Writes a double word of the array. -/
def writeAccess (s : ArraySite) (offset value : NodeId) : Edit NodeId :=
  s.guardAccess offset do
    let write ← Sketch.plant <|
      .stmt (.call "WriteDoubleWord" (some (.use s.decl)) [s.relative offset, .use value] none)
    let done ← (Sketch.ret none).plant
    Edit.extend write done
    return write

end ArraySite

-- =========================================================== registers

/-- Where a register is held in the peripheral. -/
structure RegisterSite where
  address : Nat
  /-- The member that holds the register. -/
  decl : NodeId

namespace RegisterSite

/-- A guard for the address of the register. -/
def guardAccess (s : RegisterSite) (offset : NodeId) (body : List Sketch) : Sketch :=
  .branch (.binary .eq (.use offset) (addressLit s.address)) body []

def readAccess (s : RegisterSite) (offset : NodeId) : Sketch :=
  s.guardAccess offset [.ret (some (.call "Read" (some (.use s.decl)) [] (some .uint)))]

def writeAccess (s : RegisterSite) (offset value : NodeId) : Sketch :=
  s.guardAccess offset
    [.stmt (.call "Write" (some (.use s.decl)) [.use value] none), .ret none]

end RegisterSite

end RegisterMap.Peripheral
