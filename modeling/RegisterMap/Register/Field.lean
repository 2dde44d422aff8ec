/-
A field: a range of bits of a register, with the access it allows and the
value it resets to. Masks are words of `maskBits` bits; what a shift
moves past that width is lost.
-/
import RegisterMap.Register.Effect
import RegisterMap.Text.Upper
import RegisterMap.Word

namespace RegisterMap

-- Powers stay the core ones under any import.
attribute [local instance (high)] instPowNat

/-- Width of a register mask. -/
def maskBits : Nat := 128

/-- Width of a bit position. -/
def positionBits : Nat := 32

structure Field where
  name : String
  /-- Lowest bit, inclusive. -/
  low : Nat
  /-- Highest bit, inclusive. -/
  high : Nat
  readable : Bool := true
  writable : Bool := true
  reset : Nat := 0
  onRead : Option ReadEffect := none
  onWrite : Option WriteEffect := none
  deriving DecidableEq, Repr

namespace Field

-- ================================================================ bits

/-- Number of bits. A field that ends before it starts has none. -/
def width (f : Field) : Except Failure Nat := do
  Word.add positionBits (← Word.sub f.high f.low) 1

/-- As many ones as the field has bits. -/
def valueMask (f : Field) : Except Failure Nat := do
  return Word.ones (min (← f.width) maskBits)

/-- A value moved to a bit position. -/
def placed (value position : Nat) : Nat :=
  if position < maskBits then (value <<< position) % 2 ^ maskBits else 0

theorem placed_eq (value position : Nat) :
    placed value position = (value <<< position) % 2 ^ maskBits := by
  by_cases h : position < maskBits
  · simp [placed, h]
  · have : 2 ^ maskBits ∣ value <<< position := by
      rw [Nat.shiftLeft_eq]
      exact Nat.dvd_mul_left_of_dvd (Nat.pow_dvd_pow 2 (Nat.le_of_not_lt h)) value
    simp [placed, h, Nat.mod_eq_zero_of_dvd this]

/-- The bits of the register that belong to the field. -/
def mask (f : Field) : Except Failure Nat := do
  return placed (← f.valueMask) f.low

/-- The part of the register's reset value that the field gives. -/
def resetMask (f : Field) : Except Failure Nat := do
  return placed (f.reset &&& (← f.valueMask)) f.low

/-- Two fields share a bit. -/
def overlaps (f g : Field) : Bool := f.low ≤ g.high && g.low ≤ f.high

theorem overlaps_comm (f g : Field) : f.overlaps g = g.overlaps f := by
  simp [overlaps, Bool.and_comm]

theorem width_of_le {f : Field} (h : f.low ≤ f.high) (bound : f.high - f.low + 1 < 2 ^ (32 : Nat)) :
    f.width = .ok (f.high - f.low + 1) := by
  have hs : Word.sub f.high f.low = .ok (f.high - f.low) := Word.sub_eq_ok_iff.2 ⟨h, rfl⟩
  have ha : Word.add positionBits (f.high - f.low) 1 = .ok (f.high - f.low + 1) :=
    Word.add_eq_ok_iff.2 ⟨bound, rfl⟩
  simp [width, hs, ha, bind, Except.bind]

-- ============================================================== access

/-- What a software read does, where it does more than reading. -/
def readEffect (f : Field) : Option ReadEffect :=
  f.onRead.filter fun effect => f.readable && effect != .ruser

/-- What a software write does, where it does not just store. -/
def writeEffect (f : Field) : Option WriteEffect :=
  f.onWrite.filter fun effect => f.writable && effect != .wuser

/-- A software write stores the written bits. -/
def isPlainWritable (f : Field) : Bool := f.writable && f.writeEffect.isNone

def isReadOnly (f : Field) : Bool := f.readable && !f.writable

def isWriteOnly (f : Field) : Bool := f.writable && !f.readable

/-- Name of the property that gives access to the field. -/
def propertyName (f : Field) : String := Text.upper f.name

end Field

end RegisterMap
