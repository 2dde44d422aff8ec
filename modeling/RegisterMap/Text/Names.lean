/-
Identifiers made from names. A name is cut into words at blanks and
punctuation; each word keeps its first character in upper case and the
others in lower case. Only ASCII letters change, and only ASCII
punctuation and blanks cut.
-/
namespace RegisterMap.Text

/-- ASCII punctuation: what prints and is neither letter, digit nor blank. -/
def isPunctuation (c : Char) : Bool :=
  (0x21 ≤ c.toNat && c.toNat ≤ 0x2f) || (0x3a ≤ c.toNat && c.toNat ≤ 0x40)
    || (0x5b ≤ c.toNat && c.toNat ≤ 0x60) || (0x7b ≤ c.toNat && c.toNat ≤ 0x7e)

/-- ASCII blanks; a vertical tab is none of them. -/
def isAsciiBlank (c : Char) : Bool :=
  c == ' ' || c == '\t' || c == '\n' || c == '\x0c' || c == '\r'

/-- A character between words. -/
def isBreak (c : Char) : Bool := isPunctuation c || isAsciiBlank c

/-- The words of a name run together. `start` tells that a word begins. -/
def joinWords : (start : Bool) → List Char → List Char
  | _, [] => []
  | start, c :: rest =>
    if isBreak c then joinWords true rest
    else (if start then c.toUpper else c.toLower) :: joinWords false rest

/-- An identifier for a name. A leading digit gets an underscore in
front. -/
def pascalCase (name : String) : String :=
  let letters := joinWords true name.toList
  match letters with
  | c :: _ => String.ofList (if c.isDigit then '_' :: letters else letters)
  | [] => ""

/-- An identifier for a name inside named groups, outermost first. -/
def pascalPath (groups : List String) (name : String) : String :=
  "_".intercalate ((groups ++ [name]).map pascalCase)

end RegisterMap.Text
