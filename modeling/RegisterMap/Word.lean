/-
Arithmetic on machine words. Words are natural numbers, and an operation
whose exact result does not fit its width fails instead of wrapping, so a
result that is returned is the mathematical one.
-/
import RegisterMap.Failure

namespace RegisterMap.Word

-- Powers stay the core ones under any import.
attribute [local instance (high)] instPowNat

/-- Sum of two `bits`-bit words. -/
def add (bits a b : Nat) : Except Failure Nat :=
  if a + b < 2 ^ bits then .ok (a + b) else .error (.fault .addOverflow)

/-- Difference of two words. -/
def sub (a b : Nat) : Except Failure Nat :=
  if b ≤ a then .ok (a - b) else .error (.fault .subOverflow)

/-- Product of two `bits`-bit words. -/
def mul (bits a b : Nat) : Except Failure Nat :=
  if a * b < 2 ^ bits then .ok (a * b) else .error (.fault .mulOverflow)

theorem add_eq_ok_iff {bits a b c : Nat} :
    add bits a b = .ok c ↔ a + b < 2 ^ bits ∧ c = a + b := by
  by_cases h : a + b < 2 ^ bits <;> simp [add, h, eq_comm]

theorem sub_eq_ok_iff {a b c : Nat} : sub a b = .ok c ↔ b ≤ a ∧ c = a - b := by
  by_cases h : b ≤ a <;> simp [sub, h, eq_comm]

theorem mul_eq_ok_iff {bits a b c : Nat} :
    mul bits a b = .ok c ↔ a * b < 2 ^ bits ∧ c = a * b := by
  by_cases h : a * b < 2 ^ bits <;> simp [mul, h, eq_comm]

/-- The largest unsigned value of `bits` bits: all of them set. -/
def ones (bits : Nat) : Nat := 2 ^ bits - 1

/-- Number of bytes that hold `bits` bits. -/
def bytesFor (bits : Nat) : Nat := (bits + 7) / 8

/-- Byte `i` of a value, counted from the low end. -/
def byteAt (value i : Nat) : Nat := (value >>> (8 * i)) % 256

end RegisterMap.Word
