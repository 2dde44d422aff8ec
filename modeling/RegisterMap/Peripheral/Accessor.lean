/-
The property of a field. Reading collects the bits of every byte the
field touches; writing puts them back without disturbing the other bits
of each byte. For a field at bits 5 to 12, reading takes

  byte 0: (memory[0] & 0xe0) >> 5   value bits 0 to 2
  byte 1: (memory[1] & 0x1f) << 3   value bits 3 to 7
-/
import RegisterMap.Peripheral.Buffer
import RegisterMap.Peripheral.Layout
import RegisterMap.Text.Numeral

namespace RegisterMap.Peripheral

open Code

namespace Layout

variable (l : Layout) (b : Buffer) (type : TypeRef)

/-- The indices of the bytes the field touches, counted from the first. -/
def indices : List Nat := List.range l.bytes

-- ============================================================= reading

/-- What byte `i` gives to the value. -/
def bitsRead (i : Nat) : Sketch :=
  .binary (if i = 0 then .shr else .shl)
    (.cast type (masked (b.byteAt (l.firstByte + i)) (l.byteMask i)))
    (.int (l.byteShift i))

/-- Adds what byte `i` gives to the value gathered so far. -/
def gather (temp : NodeId) (i : Nat) : Sketch :=
  .stmt (.assign (.use temp) (.cast type (.binary .or (.use temp) (l.bitsRead b type i))))

/-- The value of a field of several bits, gathered in `temp`. -/
def readBody (temp : NodeId) : List Sketch :=
  .node temp :: l.indices.map (l.gather b type temp) ++ [.ret (some (.use temp))]

/-- The value of a field of one bit: whether it is set. -/
def testBody : List Sketch :=
  [.ret (some (.binary .neq (masked (b.byteAt l.firstByte) (l.byteMask 0))
    (.literal 0 true false false)))]

/-- The declaration that gathers a value. -/
def tempDecl : Sketch := .variable "temp" type (some (.int 0)) none

/-- The body that reads the field. -/
def getter : Edit (List Sketch) :=
  if type = .bool then pure (l.testBody b)
  else return l.readBody b type (← (tempDecl type).plant)

-- ============================================================= writing

/-- The new value of the field, without bits beyond its width. -/
def newValue (value : NodeId) : Sketch :=
  if type = .bool then
    .cond (.use value) (.literal 1 true false false) (.literal 0 true false false)
  else masked (.use value) l.valueMask

/-- A shift to the left would otherwise work on a signed value. -/
def needsWidening : Bool := 0 < l.shift && (type = .byte || type = .ushort)

/-- What the new value gives to byte `i`. -/
def bitsWritten (value : NodeId) (i : Nat) : Sketch :=
  let new := l.newValue type value
  if i = 0 then
    .binary .shl (if l.needsWidening type then .cast .uint new else new) (.int (l.byteShift 0))
  else .binary .shr new (.int (l.byteShift i))

/-- Replaces the bits of the field in byte `i`. -/
def scatter (value : NodeId) (i : Nat) : Sketch :=
  let offset := l.firstByte + i
  b.storeLow offset
    (.binary .or (masked (b.byteAt offset) (0xff - l.byteMask i)) (l.bitsWritten type value i))

/-- The body that writes the field. -/
def writeBody (value : NodeId) : List Sketch := l.indices.map (l.scatter b type value)

end Layout

/-- The property that gives access to a field in a buffer. The value to be
written is an implied parameter. -/
def fieldProperty (b : Buffer) (f : Field) : Edit NodeId := do
  let type ← Edit.check (storageType f)
  let layout ← Edit.check (Layout.ofField f)
  let get ← layout.getter b type
  let value ← (Sketch.param "value" type).plant
  Sketch.plant <| .documented
    (.property f.propertyName { type, get := .body, set := .body, access := some .pub }
      get (layout.writeBody b type value))
    s!"Offset: {Text.hex f.low}, Width: {layout.width} bits"

/-- The properties of several fields. -/
def fieldProperties (b : Buffer) (fields : List Field) : Edit (List NodeId) :=
  fields.mapM (fieldProperty b)

end RegisterMap.Peripheral
