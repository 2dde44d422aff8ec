/-
Collecting the registers, register arrays and reset values of a
description. Register files and nested address maps lend their names to
everything they contain. Inside a memory every register becomes an array;
outside one only those declared with a dimension do.
-/
import RegisterMap.Description.Walk
import RegisterMap.Register.Inventory
import RegisterMap.Reporting

namespace RegisterMap

open Description
open Text (ticked)

namespace Field

/-- A field as described, with its bit positions in order. -/
def ofNode (node : FieldNode) : Field where
  name := node.name
  low := node.low
  high := node.high
  readable := node.access.isReadable
  writable := node.access.isWritable
  reset := node.reset
  onRead := node.onRead
  onWrite := node.onWrite

end Field

/-- What the fields being reported belong to. -/
inductive Holder where
  | register
  | array
  deriving DecidableEq, Repr

/-- A scan in progress. -/
structure Scan where
  inventory : Inventory
  /-- Names of the groups entered and not left, outermost first. -/
  groups : List String := []
  /-- Number of address maps entered and not left. -/
  depth : Nat := 0
  /-- The memory entered and not left. -/
  memory : Option String := none
  /-- Number of arrays met in that memory. -/
  arrays : Nat := 0
  holder : Option Holder := none
  journal : Journal := #[]

namespace Scan

/-- A scan for an inventory of a given name. -/
def start (name : String) : Scan := { inventory := { name } }

-- ============================================================== pieces

/-- Adds a record to the journal. -/
def note (level : Level) (text : String) (s : Scan) : Scan :=
  { s with journal := s.journal.push ⟨level, text⟩ }

/-- Checks first, then changes the scan; a failed check changes nothing. -/
def step {α β : Type} (check : Scan → Except Failure α) (act : α → Scan → β × Scan) :
    Listening Scan β := fun s =>
  match check s with
  | .error e => (.error e, s)
  | .ok a =>
    match act a s with
    | (b, s) => (.ok b, s)

/-- A change that cannot fail. -/
def always (act : Scan → Scan) : Listening Scan Unit :=
  step (fun _ => .ok ()) fun _ s => ((), act s)

/-- Changes the last item of a list. -/
def modifyLast {α : Type} (f : α → α) : List α → List α
  | [] => []
  | [last] => [f last]
  | item :: rest => item :: modifyLast f rest

theorem modifyLast_concat {α : Type} (f : α → α) (init : List α) (last : α) :
    modifyLast f (init ++ [last]) = init ++ [f last] := by
  induction init with
  | nil => rfl
  | cons a rest ih =>
    cases rest with
    | nil => rfl
    | cons b rest => simpa [modifyLast] using ih

-- ============================================================== groups

/-- An address map inside another one lends its name. -/
def enterMap (name : String) (s : Scan) : Scan :=
  { s with
    groups := if 0 < s.depth then s.groups ++ [name] else s.groups
    depth := s.depth + 1 }

def exitMap (s : Scan) : Scan :=
  { s with
    groups := if 1 < s.depth then s.groups.dropLast else s.groups
    depth := s.depth - 1 }

/-- A memory may not lie inside another one. -/
def memoryAllowed (name : String) (s : Scan) : Except Failure Unit :=
  match s.memory with
  | some outer => .error (.refused (.nestedMemory name outer))
  | none => .ok ()

def enterMemory (name : String) (address : Nat) (s : Scan) : Scan :=
  note .debug s!"Entering memory {ticked name} at {Text.hex address}"
    { s with memory := some name, arrays := 0 }

def enterGroup (kind : GroupKind) (name : String) (address : Nat) : Listening Scan Visit :=
  match kind with
  | .addressMap => do
    always (enterMap name)
    pure .descend
  | .registerFile => do
    always fun s => { s with groups := s.groups ++ [name] }
    pure .descend
  | .memory => step (memoryAllowed name) fun _ s => (.descend, enterMemory name address s)

def exitGroup (kind : GroupKind) (_name : String) : Listening Scan Unit :=
  always fun s =>
    match kind with
    | .addressMap => exitMap s
    | .registerFile => { s with groups := s.groups.dropLast }
    | .memory => { s with memory := none }

-- =========================================================== registers

/-- At most one array dimension is supported. -/
def dimensionsAllowed (node : RegisterNode) : Except Failure Unit :=
  if 1 < node.dimensions.length then
    .error (.refused (.arrayDimensions node.name node.dimensions.length))
  else .ok ()

/-- Name of the array a register becomes. The first one in a memory is
named for the memory. -/
def arrayName (s : Scan) (node : RegisterNode) : String :=
  match s.memory with
  | none => node.name
  | some memory => if s.arrays = 0 then memory else memory ++ "_" ++ node.name

/-- A register on its own, not in an array. -/
def addRegister (r : Register) (s : Scan) : Scan :=
  note .debug s!"Register {ticked r.path} at {Text.hex r.address}"
    { s with
      inventory := { s.inventory with
        registers := s.inventory.registers ++ [r]
        resets := s.inventory.resets.insert r.typeName 0 }
      holder := some .register }

def addArray (a : RegisterArray) (s : Scan) : Scan :=
  note .debug
    (s!"Register array {ticked a.name} at {Text.hex a.address}: " ++
      s!"{a.count} x {a.stride} bytes")
    { s with
      inventory := { s.inventory with arrays := s.inventory.arrays ++ [a] }
      arrays := if s.memory.isSome then s.arrays + 1 else s.arrays
      holder := some .array }

def addNode (node : RegisterNode) (address : Nat) (s : Scan) : Scan :=
  let register : Register :=
    { name := node.name, groups := s.groups, address, width := node.width }
  if s.memory.isNone && node.dimensions.isEmpty then addRegister register s
  else
    addArray
      { name := s.arrayName node
        groups := s.groups
        register
        address
        count := node.dimensions.headD 1
        stride := node.stride }
      s

def enterRegister (node : RegisterNode) (address : Nat) : Listening Scan Visit :=
  step (fun _ => dimensionsAllowed node) fun _ s => (.descend, addNode node address s)

def exitRegister (_node : RegisterNode) : Listening Scan Unit :=
  always fun s => { s with holder := none }

-- ============================================================== fields

/-- A field of the register met last, with what it adds to the reset
value recorded for that register. -/
def addRegisterField (f : Field) (contribution : Nat) (s : Scan) : Scan :=
  let registers := s.inventory.registers
  let resets :=
    match registers.getLast? with
    | some r =>
      if f.reset = 0 then s.inventory.resets
      else s.inventory.resets.insert r.typeName (s.inventory.resetOf r ||| contribution)
    | none => s.inventory.resets
  { s with
    inventory := { s.inventory with
      registers := modifyLast (fun r => { r with fields := r.fields ++ [f] }) registers
      resets } }

/-- A field of every element of the array met last. -/
def addArrayField (f : Field) (s : Scan) : Scan :=
  let arrays := s.inventory.arrays
  let name := (arrays.getLast?.map (·.name)).getD ""
  let s :=
    if f.reset = 0 then s
    else
      note .debug
        (s!"Field {ticked f.name} resets every element of {ticked name} " ++
          s!"to {Text.hex f.reset}") s
  { s with
    inventory := { s.inventory with
      arrays := modifyLast
        (fun a => { a with register := { a.register with
          fields := a.register.fields ++ [f] } }) arrays } }

/-- Where a field belongs, and what it adds to a reset value there. -/
def fieldAllowed (f : Field) (s : Scan) : Except Failure (Holder × Nat) :=
  match s.holder with
  | some .register =>
    if s.inventory.registers.isEmpty then .error (.refused (.strayField f.name))
    else if f.reset = 0 then .ok (.register, 0)
    else return (.register, ← f.resetMask)
  | some .array =>
    if s.inventory.arrays.isEmpty then .error (.refused (.strayArrayField f.name))
    else .ok (.array, 0)
  | none => .error (.refused (.strayField f.name))

def enterField (node : FieldNode) : Listening Scan Unit :=
  let f := Field.ofNode node
  step (fieldAllowed f) fun (holder, contribution) s =>
    ((), match holder with
      | .register => addRegisterField f contribution s
      | .array => addArrayField f s)

-- ============================================================ the scan

/-- The listener that collects an inventory. -/
def listener : Listener Scan where
  enterGroup
  exitGroup
  enterRegister
  exitRegister
  enterField

end Scan

namespace Inventory

/-- The registers and register arrays of a description. -/
def scan (d : Design) : Reporting Inventory := do
  let inventory ← (fun journal =>
    match Scan.listener.design d { Scan.start d.name with journal } with
    | (.ok (), s) => (.ok s.inventory, s.journal)
    | (.error e, s) => (.error e, s.journal) : Reporting Inventory)
  Reporting.note .info
    (s!"Scanned {ticked inventory.name}: {inventory.registers.length} registers, " ++
      s!"{inventory.arrays.length} register arrays")
  return inventory

end Inventory

end RegisterMap
