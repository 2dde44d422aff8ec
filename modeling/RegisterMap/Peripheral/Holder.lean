/-
The class that holds the value of one register. It owns a buffer, low
byte first, has a property for every field, and gives software its view
of the register: a read returns the readable bits of the low double word
and a write changes its writable bits, each as its effect demands.
-/
import RegisterMap.Code.Draft
import RegisterMap.Peripheral.Accessor
import RegisterMap.Peripheral.Method
import RegisterMap.Register.Basic
import RegisterMap.Text.Ticked

namespace RegisterMap.Peripheral

-- Powers stay the core ones under any import.
attribute [local instance (high)] instPowNat

open Code

/-- The bytes that software reaches by address. -/
def wordBytes : List Nat := List.range 4

-- =============================================================== reset

/-- Stores the reset value byte by byte. -/
def resetMethod (b : Buffer) (r : Register) (reset : Nat) : Sketch :=
  publicMethod "Reset" [] <|
    (List.range r.bufferSize).map fun i => b.storeConstant i (Word.byteAt reset i)

-- ================================================================ read

/-- The bits of a register that a software read concerns. -/
structure ReadMasks where
  readable : Nat
  clear : Nat
  set : Nat
  deriving DecidableEq, Repr

namespace ReadMasks

def ofRegister (r : Register) : Except Failure ReadMasks := do
  return {
    readable := ← r.readableMask
    clear := ← r.readEffectMask .rclr
    set := ← r.readEffectMask .rset }

/-- The bits a read changes. -/
def changed (m : ReadMasks) : Nat := m.clear ||| m.set

/-- The readable bits of the low double word. -/
def value (m : ReadMasks) (b : Buffer) : Sketch := masked b.word (m.readable % 2 ^ (32 : Nat))

/-- Clears and sets the bits of byte `i` that react to a read. -/
def react (m : ReadMasks) (b : Buffer) (i : Nat) : Option Sketch :=
  let set := Word.byteAt m.set i
  let changed := Word.byteAt m.clear i ||| set
  if changed = 0 then none
  else
    some (b.storeLow i
      (.binary .or (masked (b.byteAt i) (0xff - changed)) (.mask set)))

end ReadMasks

/-- Returns the readable bits as they were before the read changed any. -/
def readMethod (b : Buffer) (m : ReadMasks) : Edit NodeId := do
  if m.changed % 2 ^ (32 : Nat) = 0 then
    Sketch.plant (publicReader "Read" [] [.ret (some (m.value b))])
  else
    let result ← (Sketch.variable "result" .uint (some (m.value b)) none).plant
    Sketch.plant <| publicReader "Read" [] <|
      .node result :: wordBytes.filterMap (m.react b) ++ [.ret (some (.use result))]

-- =============================================================== write

/-- The effects that bits may have in place of storing what is written. -/
def writeEffects : List WriteEffect :=
  [.woset, .woclr, .wot, .wzs, .wzc, .wzt, .wclr, .wset]

/-- The bits of a register by what a software write does to them; without
an effect they store what is written. -/
abbrev WriteMasks := List (Option WriteEffect × Nat)

namespace WriteMasks

def ofRegister (r : Register) : Except Failure WriteMasks := do
  let plain ← r.writableMask
  let others ← writeEffects.mapM fun effect => return (some effect, ← r.writeEffectMask effect)
  return (none, plain) :: others

/-- The part of every mask that lies in byte `i`. -/
def inByte (m : WriteMasks) (i : Nat) : WriteMasks :=
  m.map fun (effect, mask) => (effect, Word.byteAt mask i)

/-- The bits a write concerns. -/
def concerned (m : WriteMasks) : Nat := m.foldl (fun all (_, mask) => all ||| mask) 0

end WriteMasks

/-- Byte `i` of the written value in the low byte of a double word. -/
def incoming (value : NodeId) (i : Nat) : Sketch := .binary .shr (.use value) (.int (i * 8))

/-- The same with every bit of the byte inverted. -/
def inverted (value : NodeId) (i : Nat) : Sketch := .binary .xor (incoming value i) (.mask 0xff)

/-- The new value of the bits of byte `i` that `mask` selects; nothing if
they all become zero. -/
def bitsAfterWrite (b : Buffer) (value : NodeId) (i : Nat) (effect : Option WriteEffect)
    (mask : Nat) : Option Sketch :=
  let combined (op : Operator) (bits : Sketch) : Option Sketch :=
    some (masked (.binary op (b.byteAt i) bits) mask)
  match effect with
  | none | some .wuser => some (masked (incoming value i) mask)
  | some .wclr => none
  | some .wset => some (.mask mask)
  | some .woset => combined .or (incoming value i)
  | some .woclr => combined .and (inverted value i)
  | some .wot => combined .xor (incoming value i)
  | some .wzs => combined .or (inverted value i)
  | some .wzc => combined .and (incoming value i)
  | some .wzt => combined .xor (inverted value i)

/-- Updates the bits of byte `i` that a write concerns, if there are any. -/
def updateByte (b : Buffer) (m : WriteMasks) (value : NodeId) (i : Nat) : Option Sketch :=
  let masks := m.inByte i
  let concerned := masks.concerned
  if concerned = 0 then none
  else
    let kept := masked (b.byteAt i) (0xff - concerned)
    let parts := masks.filterMap fun (effect, mask) =>
      if mask = 0 then none else bitsAfterWrite b value i effect mask
    some (b.storeLow i (parts.foldl (.binary .or) kept))

def writeMethod (b : Buffer) (m : WriteMasks) : Edit NodeId := do
  let value ← (Sketch.param "value" .uint).plant
  Sketch.plant <| publicMethod "Write" [.node value] (wordBytes.filterMap (updateByte b m value))

-- =============================================================== class

/-- The class that holds a register and resets it to `reset`. -/
def holderClass (r : Register) (reset : Nat) : Edit NodeId := do
  let memory ← memoryDecl.plant
  let b : Buffer := { memory }
  let properties ← fieldProperties b r.fields
  let reading ← Edit.check (ReadMasks.ofRegister r)
  let writing ← Edit.check (WriteMasks.ofRegister r)
  let read ← readMethod b reading
  let write ← writeMethod b writing
  Sketch.plant <| .documented
    (.classDecl r.typeName { access := some .prot } [.node memory]
      (properties.map .node)
      [constructor r.typeName [] [b.allocate r.bufferSize, invoke "Reset"],
        resetMethod b r reset, .node read, .node write]
      [])
    r.doc

/-- The class that holds a register. Software reaches at most a double
word by address, which is worth a warning for wider registers. -/
def registerClass (r : Register) (reset : Nat) : Drafting NodeId := do
  if 32 < r.width then
    Drafting.note .warn
      (s!"Register {Text.ticked r.path} is {r.width} bits wide, " ++
        "only its low double word is accessible by address")
  Drafting.ofEdit (holderClass r reset)

end RegisterMap.Peripheral
