/-
A register: fields at one absolute address. Its masks gather the bits of
the fields that a given kind of access concerns.
-/
import RegisterMap.Register.Field
import RegisterMap.Text.Names
import RegisterMap.Text.Numeral

namespace RegisterMap

structure Register where
  name : String
  /-- Names of the enclosing register groups, outermost first. -/
  groups : List String := []
  address : Nat := 0
  /-- Width in bits. -/
  width : Nat := 32
  fields : List Field := []
  deriving DecidableEq, Repr

namespace Register

-- =============================================================== names

/-- Name of the peripheral member that holds the register. -/
def memberName (r : Register) : String := Text.pascalPath r.groups r.name

def typeName (r : Register) : String := r.memberName ++ "Type"

/-- The dotted path of the register. -/
def path (r : Register) : String := ".".intercalate (r.groups ++ [r.name])

/-- One line of documentation. -/
def doc (r : Register) : String := s!"Register \"{r.path}\" at {Text.hex r.address}"

-- ================================================================ bits

/-- Bytes of the buffer behind the register. At least one double word, so
that accesses of whole words stay in bounds. -/
def bufferSize (r : Register) : Nat := max (Word.bytesFor r.width) 4

/-- The union of masks. -/
def union (masks : List Nat) : Nat := masks.foldl (· ||| ·) 0

/-- The value all fields together reset the register to. -/
def resetValue (r : Register) : Except Failure Nat :=
  return union (← r.fields.mapM Field.resetMask)

/-- The bits of the fields that satisfy `select`. -/
def maskOf (r : Register) (select : Field → Bool) : Except Failure Nat :=
  return union (← (r.fields.filter select).mapM Field.mask)

def readableMask (r : Register) : Except Failure Nat := r.maskOf (·.readable)

/-- Bits that take the written value as it is. -/
def writableMask (r : Register) : Except Failure Nat := r.maskOf Field.isPlainWritable

/-- Bits that react to a read with `effect`. -/
def readEffectMask (r : Register) (effect : ReadEffect) : Except Failure Nat :=
  r.maskOf fun f => f.readEffect == some effect

/-- Bits that react to a write with `effect`. -/
def writeEffectMask (r : Register) (effect : WriteEffect) : Except Failure Nat :=
  r.maskOf fun f => f.writeEffect == some effect

end Register

end RegisterMap
