/-
Assembly of a peripheral from an inventory: one member and one class for
every register and register array, and the methods that construct and
reset the members and dispatch accesses among them.
-/
import RegisterMap.Peripheral.Config
import RegisterMap.Peripheral.Container
import RegisterMap.Peripheral.Dispatch
import RegisterMap.Peripheral.Holder
import RegisterMap.Register.Inventory

namespace RegisterMap.Peripheral

open Code

/-- A member of the peripheral that holds a register or an array. -/
structure Member where
  /-- The declaration of the member. -/
  decl : NodeId
  /-- The class of the member. -/
  holder : NodeId
  /-- The name of that class. -/
  type : String

/-- Declares a member whose class stands in the tree. -/
def declareMember (holder : NodeId) (name type doc : String) : Edit Member := do
  let decl ← Sketch.plant <|
    .documented (.variable name (.named type) none (some .prot)) doc
  return { decl, holder, type }

-- ============================================================= methods

/-- Gives every member its value, then runs the user's part. -/
def assembleMembers (name : String) (members : List Member) : Sketch :=
  constructor name [] <|
    members.map (fun m => .stmt (.assign (.use m.decl) (.newObject (.named m.type) [])))
      ++ [invoke "Init"]

/-- A method the user may give a body. -/
def userHook (name : String) : Sketch :=
  .method name { bodied := false, modifiers := { isPartial := true } } [] []

/-- Resets every member, then runs the user's part. -/
def resetMembers (members : List Member) : Sketch :=
  .method "IPeripheral.Reset" {} [] <|
    members.map (fun m => .stmt (.call "Reset" (some (.use m.decl)) [] none))
      ++ [invoke "Reset"]

/-- Reads the double word at an offset; what is not mapped reads as zero. -/
def readDispatch (arrays : List ArraySite) (registers : List RegisterSite) : Edit NodeId := do
  let offset ← (Sketch.param "offset" .long).plant
  let fromArrays ← arrays.mapM (·.readAccess offset)
  Sketch.plant <| .method "IDoubleWordPeripheral.ReadDoubleWord" { returns := some .uint }
    [.node offset] <|
    fromArrays.map .node ++ registers.map (·.readAccess offset)
      ++ [.ret (some (.literal 0 true false false))]

/-- Writes the double word at an offset; what is not mapped is ignored. -/
def writeDispatch (arrays : List ArraySite) (registers : List RegisterSite) : Edit NodeId := do
  let offset ← (Sketch.param "offset" .long).plant
  let value ← (Sketch.param "value" .uint).plant
  let toArrays ← arrays.mapM (·.writeAccess offset value)
  Sketch.plant <| .method "IDoubleWordPeripheral.WriteDoubleWord" {}
    [.node offset, .node value] <|
    toArrays.map .node ++ registers.map (·.writeAccess offset value)

-- ========================================================== peripheral

/-- The class and the member of an array. -/
def arrayMember (a : RegisterArray) : Edit (Member × ArraySite) := do
  let holder ← containerClass a
  let member ← declareMember holder a.memberName a.typeName a.doc
  return (member, { array := a, decl := member.decl })

/-- The class and the member of a register that resets to `reset`. -/
def registerMember (r : Register) (reset : Nat) : Drafting (Member × RegisterSite) := do
  let holder ← registerClass r reset
  let member ← Drafting.ofEdit (declareMember holder r.memberName r.typeName r.doc)
  return (member, { address := r.address, decl := member.decl })

/-- What every peripheral implements. -/
def interfaces : List TypeRef := [.named "IPeripheral", .named "IDoubleWordPeripheral"]

/-- The class of the peripheral. -/
def peripheralClass (inventory : Inventory) (c : Config) : Drafting NodeId := do
  let name := c.className inventory.name
  let arrays ← Drafting.ofEdit (inventory.arrays.mapM arrayMember)
  let registers ← inventory.registers.mapM fun r => registerMember r (inventory.resetOf r)
  let members := arrays.map (·.1) ++ registers.map (·.1)
  let construct ← Drafting.ofEdit (assembleMembers name members).plant
  let hooks ← Drafting.ofEdit (Sketch.plantList [userHook "Init", userHook "Reset"])
  let reset ← Drafting.ofEdit (resetMembers members).plant
  let read ← Drafting.ofEdit (readDispatch (arrays.map (·.2)) (registers.map (·.2)))
  let write ← Drafting.ofEdit (writeDispatch (arrays.map (·.2)) (registers.map (·.2)))
  Drafting.note .debug
    (s!"Assembled peripheral {Text.ticked name} with {registers.length} registers " ++
      s!"and {arrays.length} register arrays")
  Drafting.ofEdit <| Sketch.plant <| .classDecl name
    { derives := interfaces.map fun type => (none, type)
      access := some .pub
      modifiers := { isPartial := true } }
    (members.map fun m => .node m.decl) []
    ((construct :: hooks ++ [reset, read, write]).map .node)
    (members.map fun m => .node m.holder)

-- =========================================================== namespaces

/-- Where the parts of an assembled peripheral stand in its tree. -/
structure Assembly where
  /-- The outermost namespace. -/
  root : NodeId
  /-- The namespace the class is in. -/
  home : NodeId
  /-- The class. -/
  peripheral : NodeId
  deriving DecidableEq, Repr

/-- Puts a namespace into further ones, outermost name first. -/
def nest (path : List String) (home : NodeId) : Edit NodeId :=
  path.reverse.foldlM
    (fun inner name => (Sketch.namespaceDecl name [] [.node inner]).plant) home

/-- The peripheral in its namespace, rewritten and ready to be written
out. -/
def assemble (inventory : Inventory) (c : Config) : Drafting Assembly := do
  match c.path.getLast? with
  | none => throw (.refused .noNamespace)
  | some innermost =>
    let peripheral ← peripheralClass inventory c
    let home ← Drafting.ofEdit (Sketch.namespaceDecl innermost [.node peripheral] []).plant
    let root ← Drafting.ofEdit (nest c.path.dropLast home)
    Drafting.rewrite root c.allPublic
    return { root, home, peripheral }

end RegisterMap.Peripheral
