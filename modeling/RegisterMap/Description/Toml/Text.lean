/-
The characters of a TOML document: blanks, line ends and comments, and
the four kinds of string.
-/
import RegisterMap.Text.Numeral

namespace RegisterMap.Description.Toml

/-- Takes what it reads off the front of a text, or fails. -/
abbrev Reader := StateT (List Char) Option

-- ========================================================= single pieces

/-- A character that satisfies `test`. -/
def oneOf (test : Char → Bool) : Reader Char := fun cs =>
  match cs with
  | c :: rest => if test c then some (c, rest) else none
  | [] => none

def char (c : Char) : Reader Unit := do
  let _ ← oneOf (· == c)

/-- The characters of a word. -/
def word (text : String) : Reader Unit := text.toList.forM char

/-- All characters up to the first that does not satisfy `test`. -/
def takeWhile (test : Char → Bool) : Reader (List Char) := fun cs => some (cs.span test)

/-- What `reader` takes, or nothing. -/
def perhaps {α : Type} (reader : Reader α) : Reader (Option α) := fun cs =>
  match reader cs with
  | some (a, rest) => some (some a, rest)
  | none => some (none, cs)

/-- The next character, which is not taken. -/
def peek : Reader (Option Char) := fun cs => some (cs.head?, cs)

-- =============================================== blanks, lines, comments

/-- A blank inside a line. -/
def isBlank (c : Char) : Bool := c == ' ' || c == '\t'

def blanks : Reader Unit := do
  let _ ← takeWhile isBlank

/-- What may stand in a line: every character but the controls, among
which the tab is allowed. -/
def isPrinted (c : Char) : Bool := c == '\t' || (0x20 ≤ c.toNat && c.toNat ≠ 0x7f)

/-- A line feed, which a carriage return may precede. -/
def newline : Reader Unit := fun cs =>
  match cs with
  | '\n' :: rest => some ((), rest)
  | '\r' :: '\n' :: rest => some ((), rest)
  | _ => none

/-- The end of a line or of the document. -/
def lineEnd : Reader Unit := fun cs => if cs.isEmpty then some ((), []) else newline cs

def comment : Reader Unit := do
  char '#'
  let _ ← takeWhile isPrinted

/-- Blanks and a comment before the end of a line. -/
def restOfLine : Reader Unit := do
  blanks
  let _ ← perhaps comment
  lineEnd

/-- At most `fuel` blanks, line ends and comments that end in one. -/
def spaceFrom : (fuel : Nat) → List Char → List Char
  | 0, cs => cs
  | fuel + 1, cs =>
    match (do blanks; let _ ← perhaps comment; newline : Reader Unit) cs with
    | some ((), rest) => spaceFrom fuel rest
    | none => cs.dropWhile isBlank

/-- Space between the items of a list, over several lines. -/
def space : Reader Unit := fun cs => some ((), spaceFrom cs.length cs)

-- ============================================================== strings

/-- The character with a number given in hexadecimal digits. -/
def numbered? (digits : List Char) : Option Char := do
  let values ← digits.mapM Text.hexDigit?
  let number := values.foldl (fun n d => n * 16 + d) 0
  if number.isValidChar then some (Char.ofNat number) else none

/-- The character a letter behind a backslash stands for. -/
def escaped? : Char → Option Char
  | '"' => some '"'
  | '\\' => some '\\'
  | 'b' => some '\x08'
  | 'f' => some '\x0c'
  | 'n' => some '\n'
  | 'r' => some '\r'
  | 't' => some '\t'
  | _ => none

/-- Characters read before others that are still to be read. -/
def before (front : List Char) (rest : Option (List Char × List Char)) :
    Option (List Char × List Char) :=
  rest.map fun (text, cs) => (front ++ text, cs)

/-- A string with escapes, behind its opening quote. -/
def basicBody : List Char → Option (List Char × List Char)
  | [] => none
  | '"' :: rest => some ([], rest)
  | '\\' :: 'u' :: a :: b :: c :: d :: rest => do
    before [← numbered? [a, b, c, d]] (basicBody rest)
  | '\\' :: 'U' :: a :: b :: c :: d :: e :: f :: g :: h :: rest => do
    before [← numbered? [a, b, c, d, e, f, g, h]] (basicBody rest)
  | '\\' :: letter :: rest => do before [← escaped? letter] (basicBody rest)
  | c :: rest => if isPrinted c && c != '\\' then before [c] (basicBody rest) else none

/-- A string without escapes, behind its opening quote. -/
def literalBody : List Char → Option (List Char × List Char)
  | [] => none
  | '\'' :: rest => some ([], rest)
  | c :: rest => if isPrinted c then before [c] (literalBody rest) else none

/-- Blanks and a line end follow. -/
def lineEnds (cs : List Char) : Bool := (newline (cs.dropWhile isBlank)).isSome

/-- A string with escapes over several lines, behind its opening quotes.
Up to two quotes may stand before the closing ones. A backslash at the end
of a line takes away what is blank up to the next character (`skipping`). -/
def basicLines : (skipping : Bool) → List Char → Option (List Char × List Char)
  | _, [] => none
  | _, '"' :: '"' :: '"' :: '"' :: '"' :: rest => some (['"', '"'], rest)
  | _, '"' :: '"' :: '"' :: '"' :: rest => some (['"'], rest)
  | _, '"' :: '"' :: '"' :: rest => some ([], rest)
  | skipping, '\r' :: '\n' :: rest =>
    if skipping then basicLines true rest else before ['\n'] (basicLines false rest)
  | _, '\\' :: 'u' :: a :: b :: c :: d :: rest => do
    before [← numbered? [a, b, c, d]] (basicLines false rest)
  | _, '\\' :: 'U' :: a :: b :: c :: d :: e :: f :: g :: h :: rest => do
    before [← numbered? [a, b, c, d, e, f, g, h]] (basicLines false rest)
  | skipping, c :: rest =>
    if skipping && (isBlank c || c == '\n') then basicLines true rest
    else if c == '\n' then before ['\n'] (basicLines false rest)
    else if c == '\\' then
      if lineEnds rest then basicLines true rest
      else
        match rest with
        | letter :: rest => do before [← escaped? letter] (basicLines false rest)
        | [] => none
    else if isPrinted c then before [c] (basicLines false rest)
    else none

/-- A string without escapes over several lines, behind its opening
quotes. -/
def literalLines : List Char → Option (List Char × List Char)
  | [] => none
  | '\'' :: '\'' :: '\'' :: '\'' :: '\'' :: rest => some (['\'', '\''], rest)
  | '\'' :: '\'' :: '\'' :: '\'' :: rest => some (['\''], rest)
  | '\'' :: '\'' :: '\'' :: rest => some ([], rest)
  | '\r' :: '\n' :: rest => before ['\n'] (literalLines rest)
  | c :: rest => if isPrinted c || c == '\n' then before [c] (literalLines rest) else none

/-- A line end right behind opening quotes does not count. -/
def dropNewline (cs : List Char) : List Char :=
  match newline cs with
  | some ((), rest) => rest
  | none => cs

/-- A string of one line. -/
def shortString : Reader String := fun cs =>
  let body :=
    match cs with
    | '"' :: rest => basicBody rest
    | '\'' :: rest => literalBody rest
    | _ => none
  body.map fun (text, rest) => (String.ofList text, rest)

/-- A string of any kind. -/
def anyString : Reader String := fun cs =>
  match cs with
  | '"' :: '"' :: '"' :: rest =>
    (basicLines false (dropNewline rest)).map fun (text, rest) => (String.ofList text, rest)
  | '\'' :: '\'' :: '\'' :: rest =>
    (literalLines (dropNewline rest)).map fun (text, rest) => (String.ofList text, rest)
  | cs => shortString cs

end RegisterMap.Description.Toml
