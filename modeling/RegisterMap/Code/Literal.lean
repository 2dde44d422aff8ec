/-
How literals are written. An integer literal is followed by the suffix of
its type, and a string literal escapes the quote, the backslash and the
line feed.
-/
import RegisterMap.Code.Type
import RegisterMap.Text.Numeral

namespace RegisterMap.Code.Literal

/-- The suffix that gives a literal its type. -/
def suffix (type : TypeRef) : String :=
  match type.isUnsigned, type.isLong with
  | true, true => "UL"
  | true, false => "U"
  | false, true => "L"
  | false, false => ""

/-- An integer literal, in decimal or hexadecimal digits. -/
def integer (value : Nat) (type : TypeRef) (hex : Bool) : String :=
  (if hex then Text.hex value else toString value) ++ suffix type

/-- One character of a string literal. -/
def escapeChar : Char → List Char
  | '"' => ['\\', '"']
  | '\\' => ['\\', '\\']
  | '\n' => ['\\', 'n']
  | c => [c]

def escape (text : String) : String := String.ofList (text.toList.flatMap escapeChar)

/-- A string literal between its quotes. -/
def string (text : String) : String := "\"" ++ escape text ++ "\""

end RegisterMap.Code.Literal
