/-
Hexadecimal numerals as addresses, masks and literals are written:
lower-case digits behind `0x`, without leading zeros.
-/
namespace RegisterMap.Text

/-- `0x` followed by the lower-case digits of `n`; zero is `0x0`. -/
def hex (n : Nat) : String := "0x" ++ String.ofList (Nat.toDigits 16 n)

/-- The value of one hexadecimal digit of either case. -/
def hexDigit? (c : Char) : Option Nat :=
  if '0' ≤ c ∧ c ≤ '9' then some (c.toNat - '0'.toNat)
  else if 'a' ≤ c ∧ c ≤ 'f' then some (c.toNat - 'a'.toNat + 10)
  else if 'A' ≤ c ∧ c ≤ 'F' then some (c.toNat - 'A'.toNat + 10)
  else none

/-- Reads a number written with `0x` in front. -/
def ofHex? (text : String) : Option Nat :=
  match text.toList with
  | '0' :: 'x' :: digits => do
    return (← digits.mapM hexDigit?).foldl (fun n digit => n * 16 + digit) 0
  | _ => none

end RegisterMap.Text
