/-
Code that works on a byte buffer. Offsets are absolute, or relative to
the value of a variable where the buffer is seen through a window.
-/
import RegisterMap.Code.Sketch

namespace RegisterMap.Peripheral

open Code

/-- A buffer in the generated code. -/
structure Buffer where
  /-- The declaration of the byte array. -/
  memory : NodeId
  /-- The declaration that holds the start of the window. -/
  start : Option NodeId := none
  deriving DecidableEq, Repr

/-- Type of a byte array. -/
def bytesType : TypeRef := .array .byte

namespace Buffer

/-- The byte at an offset. -/
def byteAt (b : Buffer) (offset : Nat) : Sketch :=
  let position : Sketch :=
    match b.start with
    | some start => .binary .add (.use start) (.int offset)
    | none => .int offset
  .index (.use b.memory) position .byte

/-- The byte at an offset takes a value. -/
def store (b : Buffer) (offset : Nat) (value : Sketch) : Sketch :=
  .stmt (.assign (b.byteAt offset) value)

/-- The byte at an offset takes a constant. -/
def storeConstant (b : Buffer) (offset value : Nat) : Sketch :=
  b.store offset (.literal value false false true)

/-- The byte at an offset takes the low byte of a value. -/
def storeLow (b : Buffer) (offset : Nat) (value : Sketch) : Sketch :=
  b.store offset (.cast .byte value)

/-- Byte `i` at its place in a double word. -/
def wordByte (b : Buffer) (i : Nat) : Sketch :=
  .binary .shl (.cast .uint (b.byteAt i)) (.int (i * 8))

/-- The double word in the first four bytes, low byte first. -/
def word (b : Buffer) : Sketch :=
  [1, 2, 3].foldl (fun value i => .binary .or value (b.wordByte i)) (b.wordByte 0)

/-- The buffer becomes a new one of `size` zero bytes. -/
def allocate (b : Buffer) (size : Nat) : Sketch :=
  .stmt (.assign (.use b.memory) (.newArray .byte (.int size)))

end Buffer

/-- The bits of an expression that a mask selects. -/
def masked (expr : Sketch) (mask : Nat) : Sketch := .binary .and expr (.mask mask)

/-- Declares the byte array a class works on. -/
def memoryDecl : Sketch := .variable "memory" bytesType none (some .priv)

end RegisterMap.Peripheral
