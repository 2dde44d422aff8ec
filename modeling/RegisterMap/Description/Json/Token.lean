/-
The tokens of JSON text. What a number or a string stands for may be out
of range; it is a token all the same, because a member that is passed over
is not looked into.
-/
import RegisterMap.Description.Json.Number
import RegisterMap.Text.Numeral

namespace RegisterMap.Description.Json

inductive Token where
  | openBrace
  | closeBrace
  | openBracket
  | closeBracket
  | comma
  | colon
  | null
  | bool (value : Bool)
  /-- A number, with its value if that is in range. -/
  | number (value : Option Value)
  /-- A string, with its text if there is one. -/
  | string (text : Option String)
  /-- The text goes on with what is no token. -/
  | junk
  deriving Repr

-- ============================================================== strings

/-- One item of a string: a character, or a unit of sixteen bits. -/
inductive Piece where
  | char (c : Char)
  | unit (value : Nat)
  deriving DecidableEq, Repr

def isHighUnit (u : Nat) : Bool := 0xd800 ≤ u && u < 0xdc00

def isLowUnit (u : Nat) : Bool := 0xdc00 ≤ u && u < 0xe000

/-- The character of a pair of units. -/
def ofPair (high low : Nat) : Char :=
  Char.ofNat (0x10000 + (high - 0xd800) * 0x400 + (low - 0xdc00))

/-- The text of a string. Units of surrogates stand in pairs. -/
def joinPieces : List Piece → Option (List Char)
  | [] => some []
  | .char c :: rest => return c :: (← joinPieces rest)
  | [.unit u] => if isHighUnit u || isLowUnit u then none else some [Char.ofNat u]
  | .unit u :: next :: rest =>
    if isHighUnit u then
      match next with
      | .unit low => do
        if isLowUnit low then return ofPair u low :: (← joinPieces rest) else none
      | .char _ => none
    else if isLowUnit u then none
    else do return Char.ofNat u :: (← joinPieces (next :: rest))

/-- The unit four hexadecimal digits stand for. -/
def unitOf? (a b c d : Char) : Option Nat := do
  let digits ← [a, b, c, d].mapM Text.hexDigit?
  return digits.foldl (fun n digit => n * 16 + digit) 0

/-- The character a letter behind a backslash stands for. -/
def escaped? : Char → Option Char
  | '"' => some '"'
  | '\\' => some '\\'
  | '/' => some '/'
  | 'b' => some '\x08'
  | 'f' => some '\x0c'
  | 'n' => some '\n'
  | 'r' => some '\r'
  | 't' => some '\t'
  | _ => none

/-- The pieces of a string whose opening quote has been read, and what
follows its closing one. -/
def readPieces : List Char → Option (List Piece × List Char)
  | [] => none
  | '"' :: rest => some ([], rest)
  | '\\' :: 'u' :: a :: b :: c :: d :: rest => do
    let u ← unitOf? a b c d
    let (pieces, rest) ← readPieces rest
    return (.unit u :: pieces, rest)
  | '\\' :: letter :: rest => do
    let c ← escaped? letter
    let (pieces, rest) ← readPieces rest
    return (.char c :: pieces, rest)
  | c :: rest => do
    if c.toNat < 0x20 ∨ c = '\\' then none
    let (pieces, rest) ← readPieces rest
    return (.char c :: pieces, rest)

-- =============================================================== tokens

def isSpace (c : Char) : Bool := c == ' ' || c == '\n' || c == '\t' || c == '\r'

/-- The token a text starts with, and what follows it. -/
def readToken : List Char → Token × List Char
  | '{' :: rest => (.openBrace, rest)
  | '}' :: rest => (.closeBrace, rest)
  | '[' :: rest => (.openBracket, rest)
  | ']' :: rest => (.closeBracket, rest)
  | ',' :: rest => (.comma, rest)
  | ':' :: rest => (.colon, rest)
  | 'n' :: 'u' :: 'l' :: 'l' :: rest => (.null, rest)
  | 't' :: 'r' :: 'u' :: 'e' :: rest => (.bool true, rest)
  | 'f' :: 'a' :: 'l' :: 's' :: 'e' :: rest => (.bool false, rest)
  | '"' :: rest =>
    match readPieces rest with
    | some (pieces, rest) => (.string ((joinPieces pieces).map String.ofList), rest)
    | none => (.junk, [])
  | cs =>
    match readNumeral cs with
    | some (n, rest) => (.number n.value?, rest)
    | none => (.junk, [])

/-- At most `fuel` tokens of a text. -/
def tokensFrom : (fuel : Nat) → List Char → List Token
  | 0, _ => []
  | fuel + 1, cs =>
    match cs.dropWhile isSpace with
    | [] => []
    | rest =>
      let (token, rest) := readToken rest
      token :: tokensFrom fuel rest

/-- The tokens of a text. Every token takes a character at least. -/
def tokens (text : String) : List Token :=
  let cs := text.toList
  tokensFrom cs.length cs

end RegisterMap.Description.Json
