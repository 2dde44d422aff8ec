/-
Folding of registers that share an address. Accesses are dispatched by
address, so two registers at one address have to become one. Fields that
share no bit are put side by side; a read-only and a write-only field of
the same bits become one field; everything else is refused.
-/
import RegisterMap.Register.Inventory
import RegisterMap.Reporting

namespace RegisterMap

open Text (ticked)

namespace Field

/-- A field read through `readable` and written through `writable`. -/
def paired (name : String) (readable writable : Field) : Field where
  name := name
  low := readable.low
  high := readable.high
  reset := readable.reset
  onRead := readable.onRead
  onWrite := writable.onWrite

/-- A read-only and a write-only field of the same bits as one field. -/
def pair? (a b : Field) : Option Field :=
  let name := a.name ++ "_" ++ b.name
  if a.low = b.low ∧ a.high = b.high then
    if a.isReadOnly && b.isWriteOnly then some (paired name a b)
    else if a.isWriteOnly && b.isReadOnly then some (paired name b a)
    else none
  else none

end Field

namespace Register

/-- Adds a field of `b` to the fields gathered for `a`. -/
def addField (a b : Register) (fields : List Field) (field : Field) :
    Except Failure (List Field) :=
  match fields.filter (·.overlaps field) with
  | [] => .ok (fields ++ [field])
  | [other] =>
    match other.pair? field with
    | some both => .ok (fields.map fun f => if f.overlaps field then both else f)
    | none =>
      .error (.refused (.fieldsOverlap a.path b.path a.address other.name field.name))
  | others =>
    .error (.refused (.fieldOverlapsMany a.path b.path a.address field.name others.length))

/-- Two registers at one address as one, with its fields in the order of
their lowest bits. -/
def merge (a b : Register) : Except Failure Register := do
  let fields ← b.fields.foldlM (addField a b) a.fields
  return {
    name := a.name ++ "_" ++ b.name
    groups := a.groups
    address := a.address
    width := max a.width b.width
    fields := fields.mergeSort fun f g => f.low ≤ g.low }

end Register

namespace Inventory

/-- Registers of one address, the first one apart. -/
abbrev Cohabitants := Register × List Register

/-- Adds a register to those of its address. -/
def settle : List Cohabitants → Register → List Cohabitants
  | [], r => [(r, [])]
  | (first, others) :: rest, r =>
    if first.address = r.address then (first, others ++ [r]) :: rest
    else (first, others) :: settle rest r

/-- Registers by address, in the order in which the addresses appear. -/
def byAddress (registers : List Register) : List Cohabitants := registers.foldl settle []

/-- Merges two registers and records the reset value of the result in
place of theirs. -/
def mergeTwo (state : Register × ResetTable) (b : Register) :
    Reporting (Register × ResetTable) := do
  let (a, resets) := state
  let merged ← Reporting.quiet (a.merge b)
  let value ← Reporting.quiet merged.resetValue
  Reporting.note .debug
    (s!"Merged registers {ticked a.path} and {ticked b.path} at {Text.hex a.address} " ++
      s!"into {ticked merged.name}")
  return (merged, ((resets.erase a.typeName).erase b.typeName).insert merged.typeName value)

/-- Merges the registers of every address in turn. -/
def mergeEach : ResetTable → List Cohabitants → Reporting (List Register × ResetTable)
  | resets, [] => return ([], resets)
  | resets, (first, others) :: rest => do
    let (merged, resets) ← others.foldlM mergeTwo (first, resets)
    let (registers, resets) ← mergeEach resets rest
    return (merged :: registers, resets)

/-- The inventory with one register for every address. -/
def merge (inventory : Inventory) : Reporting Inventory := do
  let (registers, resets) ← mergeEach inventory.resets (byAddress inventory.registers)
  return { inventory with registers, resets }

end Inventory

end RegisterMap
