/-
Double-precision numbers as exact values, and their shortest decimal
text. Every operation finds the exact result as a quotient of natural
numbers and rounds it once, to the nearest double and to the even one of
two that are equally near.
-/
namespace RegisterMap.Text

-- Powers stay the core ones under any import.
attribute [local instance (high)] instPowNat

/-- The magnitude of a finite double: `significand * 2 ^ exponent`. -/
structure Double where
  significand : Nat
  exponent : Int
  deriving DecidableEq, Repr

/-- The quotient rounded to the nearest number, a half to the even one. -/
def roundHalfEven (num den : Nat) : Nat :=
  let quotient := num / den
  let rest := 2 * (num % den)
  if rest < den then quotient
  else if den < rest then quotient + 1
  else quotient + quotient % 2

namespace Double

-- ============================================================= rounding

/-- The smallest exponent, that of the subnormal numbers. -/
def leastExponent : Int := -1074

/-- The largest exponent. -/
def greatestExponent : Int := 971

def zero : Double := ⟨0, leastExponent⟩

/-- A quotient times a power of two, as a quotient. -/
def scale (num den : Nat) (exponent : Int) : Nat × Nat :=
  if 0 ≤ exponent then (num * 2 ^ exponent.toNat, den)
  else (num, den * 2 ^ (-exponent).toNat)

/-- The largest power of two that a positive quotient reaches. -/
def binaryOrder (num den : Nat) : Int :=
  let estimate : Int := (Nat.log2 num : Int) - Nat.log2 den
  let (num, den) := scale num den (-estimate)
  if den ≤ num then estimate else estimate - 1

/-- The double nearest to a quotient; nothing if that is too large. -/
def ofQuotient? (num den : Nat) : Option Double :=
  if num = 0 then some zero
  else
    let exponent := max (binaryOrder num den - 52) leastExponent
    let (n, d) := scale num den (-exponent)
    let rounded := roundHalfEven n d
    let result : Double :=
      if rounded = 2 ^ (53 : Nat) then ⟨2 ^ (52 : Nat), exponent + 1⟩ else ⟨rounded, exponent⟩
    if greatestExponent < result.exponent then none else some result

/-- The value as a quotient. -/
def quotient (x : Double) : Nat × Nat := scale x.significand 1 x.exponent

def mul? (x y : Double) : Option Double :=
  let (n, d) := x.quotient
  let (n', d') := y.quotient
  ofQuotient? (n * n') (d * d')

def div? (x y : Double) : Option Double :=
  let (n, d) := x.quotient
  let (n', d') := y.quotient
  ofQuotient? (n * d') (d * n')

/-- The double nearest to a power of ten. -/
def powerOfTen? (exponent : Nat) : Option Double := ofQuotient? (10 ^ exponent) 1

-- ============================================================== decimal

/-- The decimal order of a positive quotient below one, counted from
`order` downwards. -/
def orderBelow (num den : Nat) : (fuel : Nat) → (order : Int) → Int
  | 0, order => order
  | fuel + 1, order =>
    if den ≤ num * 10 then order - 1 else orderBelow (num * 10) den fuel (order - 1)

/-- The largest power of ten that a positive quotient reaches. -/
def decimalOrder (num den : Nat) : Int :=
  if den ≤ num then ((toString (num / den)).length : Int) - 1
  else orderBelow num den 400 0

/-- The decimals that round to a number: from `low` to `high`, over a
common denominator, with the ends if `closed`. -/
structure Basin where
  low : Nat
  value : Nat
  high : Nat
  den : Nat
  closed : Bool

/-- What rounds to a positive double. The gap below a power of two is half
as wide as the one above it. -/
def basin (x : Double) : Basin :=
  let below := if x.significand = 2 ^ (52 : Nat) ∧ leastExponent < x.exponent then 1 else 2
  let (unit, den) := scale 1 1 (x.exponent - 2)
  { low := (4 * x.significand - below) * unit
    value := 4 * x.significand * unit
    high := (4 * x.significand + 2) * unit
    den
    closed := x.significand % 2 = 0 }

namespace Basin

/-- The decimal `digits * 10 ^ exponent` over the denominator of the basin
times the second result. -/
def place (b : Basin) (digits : Nat) (exponent : Int) : Nat × Nat :=
  if 0 ≤ exponent then (digits * 10 ^ exponent.toNat * b.den, 1)
  else (digits * b.den, 10 ^ (-exponent).toNat)

def contains (b : Basin) (digits : Nat) (exponent : Int) : Bool :=
  let (n, d) := b.place digits exponent
  if b.closed then b.low * d ≤ n && n ≤ b.high * d else b.low * d < n && n < b.high * d

/-- How far a decimal is from the number, over a common denominator. -/
def distance (b : Basin) (digits : Nat) (exponent : Int) : Nat :=
  let (n, d) := b.place digits exponent
  if n ≤ b.value * d then b.value * d - n else n - b.value * d

/-- The decimal nearest to the number on the grid of an exponent, if one
lies in the basin. -/
def onGrid? (b : Basin) (exponent : Int) : Option Nat :=
  let below :=
    if 0 ≤ exponent then b.value / (b.den * 10 ^ exponent.toNat)
    else b.value * 10 ^ (-exponent).toNat / b.den
  match b.contains below exponent, b.contains (below + 1) exponent with
  | false, false => none
  | true, false => some below
  | false, true => some (below + 1)
  | true, true =>
    let near := b.distance below exponent
    let far := b.distance (below + 1) exponent
    if near < far then some below
    else if far < near then some (below + 1)
    else some (below + below % 2)

/-- The first grid with a decimal in the basin, from `exponent` downwards. -/
def shortestFrom (b : Basin) : (fuel : Nat) → (exponent : Int) → Nat × Int
  | 0, exponent => (0, exponent)
  | fuel + 1, exponent =>
    match b.onGrid? exponent with
    | some digits => (digits, exponent)
    | none => b.shortestFrom fuel (exponent - 1)

end Basin

/-- The fewest digits that read back as a positive double, and the power
of ten they count. -/
def shortest (x : Double) : Nat × Int :=
  let b := x.basin
  b.shortestFrom 20 (decimalOrder b.value b.den)

-- ================================================================= text

/-- Decimal orders that are written without a power of ten. -/
def isPositional (order : Int) : Bool := -5 ≤ order && order ≤ 15

/-- A power of ten behind a number, with its sign. -/
def exponentText (order : Int) : String :=
  (if order < 0 then "e-" else "e+") ++ toString order.natAbs

/-- Digits with a point after the first `whole` of them. -/
def pointed (digits : List Char) (whole : Nat) : String :=
  let fraction := digits.drop whole
  String.ofList (digits.take whole ++ List.replicate (whole - digits.length) '0')
    ++ "." ++ (if fraction.isEmpty then "0" else String.ofList fraction)

/-- The shortest text that reads back as the double. -/
def text (x : Double) : String :=
  if x.significand = 0 then "0.0"
  else
    let (number, exponent) := x.shortest
    let all := (toString number).toList
    let digits := (all.reverse.dropWhile (· == '0')).reverse
    let order := (all.length : Int) - 1 + exponent
    if isPositional order then
      if order < 0 then
        "0." ++ String.ofList (List.replicate (order.natAbs - 1) '0' ++ digits)
      else pointed digits (order.toNat + 1)
    else
      let mantissa :=
        match digits with
        | [_] => String.ofList digits
        | _ => pointed digits 1
      mantissa ++ exponentText order

end Double

end RegisterMap.Text
