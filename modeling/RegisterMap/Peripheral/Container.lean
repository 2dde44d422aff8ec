/-
The classes of a register array. The container owns the bytes of every
element and is accessed by offset; the element class sees one element
through the fields of the register it is a copy of.
-/
import RegisterMap.Peripheral.Accessor
import RegisterMap.Peripheral.Method
import RegisterMap.Register.Array

namespace RegisterMap.Peripheral

open Code

-- ============================================================ elements

/-- Stores a parameter in the member of the same name. -/
def keepParam (name : String) (type : TypeRef) (param : NodeId) : Sketch :=
  .stmt (.assign (.member .self name type) (.use param))

/-- The class that sees the element whose first byte is `spanBegin`. -/
def elementClass (a : RegisterArray) : Edit NodeId := do
  let start ← (Sketch.variable "spanBegin" .long none (some .priv)).plant
  let memory ← memoryDecl.plant
  let properties ← fieldProperties { memory, start := some start } a.register.fields
  let memoryParam ← (Sketch.param "memory" bytesType).plant
  let startParam ← (Sketch.param "spanBegin" .long).plant
  Sketch.plant <| .classDecl a.elementName { access := some .pub }
    [.node start, .node memory] (properties.map .node)
    [constructor a.elementName [.node memoryParam, .node startParam]
      [keepParam "memory" bytesType memoryParam, keepParam "spanBegin" .long startParam]]
    []

-- ========================================================== properties

/-- A public property that can only be read. -/
def readOnlyProperty (name : String) (type : TypeRef) (get : List Sketch) : Sketch :=
  .property name { type, get := .body, access := some .pub } get []

/-- The size of the array in bytes. -/
def sizeProperty (size : Nat) : Sketch :=
  readOnlyProperty "Size" .long [.ret (some (.long size))]

/-- Throws what an index outside the array deserves. -/
def outOfRange : Sketch := .throw (.newObject (.named "System.IndexOutOfRangeException") [])

/-- The index lies outside an array of `count` elements. -/
def isOutside (index : NodeId) (count : Nat) : Sketch :=
  .binary .lor (.binary .lt (.use index) (.int 0)) (.binary .gte (.use index) (.long count))

/-- Gives the element at an index. -/
def indexer (a : RegisterArray) (b : Buffer) : Edit NodeId := do
  let index ← (Sketch.param "index" .long).plant
  let element : TypeRef := .named a.elementName
  Sketch.plant <| readOnlyProperty "this[long index]" element
    [.branch (isOutside index a.count) [outOfRange] [],
      .ret (some (.newObject element
        [.use b.memory, .binary .mul (.use index) (.long a.stride)]))]

-- ============================================================= methods

/-- Reads the double word at any offset. -/
def readAtOffset (memory : NodeId) : Edit NodeId := do
  let offset ← (Sketch.param "offset" .long).plant
  let b : Buffer := { memory, start := some offset }
  Sketch.plant (publicReader "ReadDoubleWord" [.node offset] [.ret (some b.word)])

/-- Writes the double word at any offset. -/
def writeAtOffset (memory : NodeId) : Edit NodeId := do
  let offset ← (Sketch.param "offset" .long).plant
  let value ← (Sketch.param "value" .uint).plant
  let b : Buffer := { memory, start := some offset }
  Sketch.plant <| publicMethod "WriteDoubleWord" [.node offset, .node value] <|
    (List.range 4).map fun i => b.storeLow i (.binary .shr (.use value) (.int (i * 8)))

/-- Every byte of the buffer becomes zero. -/
def clear (b : Buffer) : Sketch :=
  .stmt (.call "System.Array.Clear" none
    [.use b.memory, .int 0, .member (.use b.memory) "Length" .int] none)

/-- Clears the buffer, then stores the bytes that do not reset to zero. -/
def resetElements (b : Buffer) (bytes : List (Nat × Nat)) : Sketch :=
  publicMethod "Reset" [] <|
    clear b :: bytes.map fun (offset, byte) => b.storeConstant offset byte

-- =============================================================== class

/-- The class that holds a register array, with the class of its elements
inside. -/
def containerClass (a : RegisterArray) : Edit NodeId := do
  let element ← elementClass a
  let memory ← memoryDecl.plant
  let b : Buffer := { memory }
  let size ← Edit.check a.size
  let indexer ← indexer a b
  let bufferSize ← Edit.check a.bufferSize
  let read ← readAtOffset memory
  let write ← writeAtOffset memory
  let bytes ← Edit.check a.resetBytes
  Sketch.plant <| .documented
    (.classDecl a.typeName { access := some .prot } [.node memory]
      [sizeProperty size, .node indexer]
      [constructor a.typeName [] [b.allocate bufferSize, invoke "Reset"],
        .node read, .node write, resetElements b bytes]
      [.node element])
    a.doc

end RegisterMap.Peripheral
