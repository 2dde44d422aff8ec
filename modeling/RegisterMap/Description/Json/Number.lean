/-
Numbers in JSON text. A number without fraction and power of ten is an
integer if it fits one of 64 bits. Every other number is a double, found
from the digits that fit a word and a power of ten, so that digits beyond
them are lost.
-/
import RegisterMap.Description.Value
import RegisterMap.Text.Double

namespace RegisterMap.Description.Json

-- Powers stay the core ones under any import.
attribute [local instance (high)] instPowNat

open Text (Double)

-- ============================================================= numerals

/-- A number as it is written. -/
structure Numeral where
  negative : Bool
  whole : List Nat
  /-- The digits after the point, if there is one. -/
  fraction : Option (List Nat) := none
  /-- The power of ten: whether it is negative, and its digits. -/
  power : Option (Bool × List Nat) := none
  deriving DecidableEq, Repr

/-- The value of a decimal digit. -/
def digit? (c : Char) : Option Nat :=
  if c.isDigit then some (c.toNat - '0'.toNat) else none

/-- The digits a text starts with, and what follows them. -/
def spanDigits : List Char → List Nat × List Char
  | [] => ([], [])
  | c :: rest =>
    match digit? c with
    | some d =>
      let (digits, rest) := spanDigits rest
      (d :: digits, rest)
    | none => ([], c :: rest)

/-- The digits before the point: a zero alone, or digits that start with
another one. -/
def readWhole (cs : List Char) : Option (List Nat × List Char) :=
  match spanDigits cs with
  | ([], _) => none
  | (0 :: _ :: _, _) => none
  | (digits, rest) => some (digits, rest)

/-- A point and the digits after it, if there is a point. -/
def readFraction : List Char → Option (Option (List Nat) × List Char)
  | '.' :: rest =>
    match spanDigits rest with
    | ([], _) => none
    | (digits, rest) => some (some digits, rest)
  | rest => some (none, rest)

/-- The sign of a power of ten. -/
def readSign : List Char → Bool × List Char
  | '-' :: rest => (true, rest)
  | '+' :: rest => (false, rest)
  | rest => (false, rest)

/-- A power of ten, if there is one. -/
def readPower : List Char → Option (Option (Bool × List Nat) × List Char)
  | c :: rest =>
    if c = 'e' ∨ c = 'E' then
      let (negative, rest) := readSign rest
      match spanDigits rest with
      | ([], _) => none
      | (digits, rest) => some (some (negative, digits), rest)
    else some (none, c :: rest)
  | [] => some (none, [])

/-- The number a text starts with, and what follows it. -/
def readNumeral (cs : List Char) : Option (Numeral × List Char) := do
  let (negative, cs) :=
    match cs with
    | '-' :: rest => (true, rest)
    | rest => (false, rest)
  let (whole, cs) ← readWhole cs
  let (fraction, cs) ← readFraction cs
  let (power, cs) ← readPower cs
  return ({ negative, whole, fraction, power }, cs)

-- =============================================================== values

/-- Digits gathered into a word, and the digits that did not fit. -/
def gather (word : Nat) : List Nat → Nat × List Nat
  | [] => (word, [])
  | d :: rest =>
    if word * 10 + d < 2 ^ (64 : Nat) then gather (word * 10 + d) rest else (word, d :: rest)

/-- The value of decimal digits. -/
def ofDigits (digits : List Nat) : Nat := digits.foldl (fun n d => n * 10 + d) 0

/-- The largest power of ten that counts; a larger one is as good as
infinite. -/
def powerLimit : Int := 2 ^ (31 : Nat) - 1

/-- A magnitude lowered by steps of the largest power of ten that a double
holds. -/
def lower : (fuel : Nat) → Double → (power : Nat) → Option Double
  | 0, x, _ => some x
  | fuel + 1, x, power =>
    if power ≤ 308 then do x.div? (← Double.powerOfTen? power)
    else if x.significand = 0 then some x
    else do lower fuel (← x.div? (← Double.powerOfTen? 308)) (power - 308)

/-- A word times a power of ten; nothing if that is too large. -/
def scaled? (word : Nat) (power : Int) : Option Double := do
  let x ← Double.ofQuotient? word 1
  if power < 0 then lower 8 x power.natAbs
  else if power ≤ 308 then x.mul? (← Double.powerOfTen? power.toNat)
  else if x.significand = 0 then some x
  else none

namespace Numeral

/-- The digits that fit a word, and the power of ten that makes up for the
place of the point. -/
def gathered (n : Numeral) : Nat × Int :=
  let (word, excess) := gather 0 n.whole
  let (word', rest) := gather word (n.fraction.getD [])
  let places := (n.fraction.getD []).length - rest.length
  (word', (excess.length : Int) - places)

/-- The magnitude as a double; nothing if it is too large. -/
def magnitude? (n : Numeral) : Option Double :=
  let (word, power) := n.gathered
  match n.power with
  | none => scaled? word power
  | some (negative, digits) =>
    let written := ofDigits digits
    if powerLimit < written then
      if word = 0 ∨ negative then some Double.zero else none
    else scaled? word (if negative then power - written else power + written)

/-- The value as an integer of 64 bits, with or without a sign. There is
no negative zero among them. -/
def integer? (n : Numeral) : Option Int :=
  let value := ofDigits n.whole
  if n.fraction.isSome || n.power.isSome then none
  else if n.negative then
    if 0 < value ∧ value ≤ 2 ^ (63 : Nat) then some (-(value : Int)) else none
  else if value < 2 ^ (64 : Nat) then some value
  else none

/-- The value; nothing if it is out of range. -/
def value? (n : Numeral) : Option Value :=
  match n.integer? with
  | some value => some (.integer value)
  | none => do
    let x ← n.magnitude?
    return .floating ((if n.negative then "-" else "") ++ x.text)

end Numeral

end RegisterMap.Description.Json
