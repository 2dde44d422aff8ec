/-
Numbers, dates and times in a TOML document. Digits may be grouped by
underscores between them. Integers have 64 bits and a sign.
-/
import RegisterMap.Description.Toml.Text
import RegisterMap.Description.Value
import RegisterMap.Text.Double

namespace RegisterMap.Description.Toml

-- Powers stay the core ones under any import.
attribute [local instance (high)] instPowNat

open Text (Double)

-- ============================================================== digits

/-- The value of a digit of a base. -/
def digit? (base : Nat) (c : Char) : Option Nat :=
  (Text.hexDigit? c).filter (· < base)

/-- Digits that go on behind one that has been read. -/
def moreDigits (base : Nat) : List Char → List Nat × List Char
  | [] => ([], [])
  | '_' :: c :: rest =>
    match digit? base c with
    | some d =>
      let (digits, rest) := moreDigits base rest
      (d :: digits, rest)
    | none => ([], '_' :: c :: rest)
  | c :: rest =>
    match digit? base c with
    | some d =>
      let (digits, rest) := moreDigits base rest
      (d :: digits, rest)
    | none => ([], c :: rest)

/-- One digit or more. -/
def digits (base : Nat) : Reader (List Nat) := fun cs =>
  match cs with
  | c :: rest =>
    match digit? base c with
    | some d =>
      let (more, rest) := moreDigits base rest
      some (d :: more, rest)
    | none => none
  | [] => none

/-- The digits of a decimal number: a zero alone, or digits that start with
another one. -/
def wholeDigits : Reader (List Nat) := fun cs =>
  match cs with
  | '0' :: rest => some ([0], rest)
  | cs => digits 10 cs

/-- The value of digits of a base. -/
def ofDigits (base : Nat) (digits : List Nat) : Nat :=
  digits.foldl (fun n d => n * base + d) 0

/-- Whether a minus is written; a plus may be. -/
def sign : Reader Bool := do
  match ← perhaps (oneOf fun c => c == '+' || c == '-') with
  | some c => return c == '-'
  | none => return false

-- ============================================================= integers

/-- A value that fits an integer. -/
def fitting (value : Int) : Reader Value :=
  if -2 ^ (63 : Nat) ≤ value ∧ value < 2 ^ (63 : Nat) then pure (.integer value) else failure

/-- An integer in a base other than ten. -/
def basedInteger (mark : String) (base : Nat) : Reader Value := do
  word mark
  fitting (ofDigits base (← digits base))

def decimalInteger : Reader Value := do
  let negative ← sign
  let value : Int := ofDigits 10 (← wholeDigits)
  fitting (if negative then -value else value)

def integer : Reader Value :=
  basedInteger "0x" 16 <|> basedInteger "0o" 8 <|> basedInteger "0b" 2 <|> decimalInteger

-- =============================================================== floats

/-- Decimal orders outside of which a number rounds to zero or is too
large. -/
def orderLimit : Int := 400

/-- The double nearest to a decimal; nothing if that is too large. -/
def nearest? (digits : List Nat) (power : Int) : Option Double :=
  let value := ofDigits 10 digits
  let order := (toString value).length + power
  if value = 0 ∨ order < -orderLimit then some Double.zero
  else if orderLimit < order then none
  else if 0 ≤ power then Double.ofQuotient? (value * 10 ^ power.toNat) 1
  else Double.ofQuotient? value (10 ^ (-power).toNat)

/-- The digits behind a point. -/
def fraction : Reader (List Nat) := do
  char '.'
  digits 10

/-- A power of ten. -/
def power : Reader Int := do
  let _ ← oneOf fun c => c == 'e' || c == 'E'
  let negative ← sign
  let value : Int := ofDigits 10 (← digits 10)
  return if negative then -value else value

/-- A number with a fraction or a power of ten. One below every double
stands for minus infinity; one above them is refused. -/
def decimalFloat : Reader Value := do
  let negative ← sign
  let whole ← wholeDigits
  let places ← perhaps fraction
  let exponent ← if places.isSome then (·.getD 0) <$> perhaps power else power
  let behind := places.getD []
  let shown (magnitude : String) : Value :=
    .floating ((if negative then "-" else "") ++ magnitude)
  match nearest? (whole ++ behind) (exponent - behind.length) with
  | some x => return shown x.text
  | none => if negative then return shown "inf" else failure

def specialFloat : Reader Value := do
  let negative ← sign
  let name ← (word "inf" *> pure "inf") <|> (word "nan" *> pure "NaN")
  return .floating ((if negative then "-" else "") ++ name)

-- ====================================================== dates and times

/-- A number of so many digits. -/
def fixedNumber (count : Nat) : Reader Nat := fun cs => do
  let front := cs.take count
  let values ← front.mapM (digit? 10)
  if values.length = count then some (ofDigits 10 values, cs.drop count) else none

/-- A number of two digits from `low` to `high`. -/
def twoDigits (low high : Nat) : Reader Nat := do
  let n ← fixedNumber 2
  if low ≤ n ∧ n ≤ high then return n else failure

def isLeapYear (year : Nat) : Bool :=
  year % 4 == 0 && (year % 100 != 0 || year % 400 == 0)

def daysInMonth (year month : Nat) : Nat :=
  match month with
  | 2 => if isLeapYear year then 29 else 28
  | 4 | 6 | 9 | 11 => 30
  | _ => 31

def date : Reader Unit := do
  let year ← fixedNumber 4
  char '-'
  let month ← twoDigits 1 12
  char '-'
  let _ ← twoDigits 1 (daysInMonth year month)

def time : Reader Unit := do
  let _ ← twoDigits 0 23
  char ':'
  let _ ← twoDigits 0 59
  char ':'
  let _ ← twoDigits 0 60
  let places : Reader Unit := do
    char '.'
    let _ ← fixedNumber 1
    let _ ← takeWhile Char.isDigit
  let _ ← perhaps places

/-- How far a time is from the universal one. -/
def offset : Reader Unit :=
  (do let _ ← oneOf fun c => c == 'Z' || c == 'z') <|> do
    let _ ← oneOf fun c => c == '+' || c == '-'
    let _ ← twoDigits 0 23
    char ':'
    let _ ← twoDigits 0 59

/-- A date, a time or both. -/
def moment : Reader Unit :=
  (do
    date
    let behind : Reader Unit := do
      let _ ← oneOf fun c => c == 'T' || c == 't' || c == ' '
      time
      let _ ← perhaps offset
    let _ ← perhaps behind) <|> time

/-- A date or time is a value of its own kind, which no description
holds: a record with one member of a name that nothing else has. -/
def momentValue : Reader Value := fun cs => do
  let ((), rest) ← moment cs
  let written := String.ofList (cs.take (cs.length - rest.length))
  return (.record [("date-time", .text written)] true, rest)

-- ============================================================== numbers

/-- A value that starts with a digit or a sign, or is a special number. -/
def number : Reader Value :=
  momentValue <|> decimalFloat <|> specialFloat <|> integer

end RegisterMap.Description.Toml
