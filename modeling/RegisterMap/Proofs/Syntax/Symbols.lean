/-
The symbols of a text: identifiers, keywords, literals and marks, without
blanks and without comments. A `Lexer` takes a text character by character
and knows what it is reading; a character continues that or ends it.

Where it makes no difference to which comments there are, symbols are cut
coarsely: a number takes everything that could belong to a number or to a
name behind its dot, and letters outside the basic range are not told apart.
-/
import RegisterMap.Text.Blank

namespace RegisterMap.Code

/-- The character ends a line. -/
def isTerminator (c : Char) : Bool := ['\n', '\r', '\x85', '\u2028', '\u2029'].contains c

/-- The character may stand in a name. -/
def isNameChar (c : Char) : Bool :=
  c.isAlphanum || c == '_' || c == '\\' || (0x80 ≤ c.toNat && !Text.isBlank c)

/-- Marks of more than one character. The beginning of a mark is a mark. -/
def longMarks : List (List Char) :=
  ["++", "--", "&&", "||", "->", "=>", "==", "!=", "<=", ">=", "+=", "-=", "*=", "/=", "%=", "&=",
    "|=", "^=", "<<", "<<=", ">>", ">>=", ">>>", ">>>=", "??", "??=", "::", ".."].map String.toList

/-- What a lexer is reading, with the characters read of it, last one
first. -/
inductive Reading where
  /-- Nothing, or blanks. -/
  | gap
  | word (read : List Char)
  | number (read : List Char)
  | mark (read : List Char)
  /-- The signs in front of a literal that is not a plain one. -/
  | sign (read : List Char)
  | literal (quote : Char) (escaped : Bool) (read : List Char)
  /-- A literal in which two quotation marks stand for one. -/
  | verbatim (quoted : Bool) (read : List Char)
  | lineComment
  | blockComment (starred : Bool)
  deriving DecidableEq, Repr

namespace Reading

/-- What a character begins. -/
def start (c : Char) : Reading :=
  if Text.isBlank c then .gap
  else if c.isDigit then .number [c]
  else if isNameChar c then .word [c]
  else if c == '@' || c == '$' then .sign [c]
  else if c == '"' || c == '\x27' then .literal c false [c]
  else .mark [c]

/-- What is read if the character continues it; nothing if it does not. -/
def extend? : Reading → Char → Option Reading
  | .gap, _ => none
  | .word read, c => if isNameChar c then some (.word (c :: read)) else none
  | .number read, c =>
    let exponent := (c == '+' || c == '-') && (read.head? == some 'e' || read.head? == some 'E')
    if isNameChar c || c == '.' || exponent then some (.number (c :: read)) else none
  | .mark read, c =>
    if read = ['/'] ∧ c = '/' then some .lineComment
    else if read = ['/'] ∧ c = '*' then some (.blockComment false)
    else if read = ['.'] ∧ c.isDigit then some (.number [c, '.'])
    else if (c :: read).reverse ∈ longMarks then some (.mark (c :: read))
    else none
  | .sign read, c =>
    if c == '"' then
      some (if read.contains '@' then .verbatim false (c :: read) else .literal c false (c :: read))
    else if c == '@' || c == '$' then some (.sign (c :: read))
    else if isNameChar c then some (.word (c :: read))
    else none
  | .literal quote escaped read, c =>
    some (if escaped then .literal quote false (c :: read)
      else if c == quote then .word (c :: read)
      else .literal quote (c == '\\') (c :: read))
  | .verbatim quoted read, c =>
    if c == '"' then some (.verbatim (!quoted) (c :: read))
    else if quoted then none
    else some (.verbatim false (c :: read))
  | .lineComment, c => some (if isTerminator c then .gap else .lineComment)
  | .blockComment starred, c =>
    some (if starred && c == '/' then .gap else .blockComment (c == '*'))

/-- The symbol that ends, if what is read is one. -/
def done : Reading → List (List Char)
  | .gap | .lineComment | .blockComment _ => []
  | .word read | .number read | .mark read | .sign read | .literal _ _ read
  | .verbatim _ read => [read.reverse]

@[simp] theorem start_space : start ' ' = .gap := rfl

@[simp] theorem start_slash : start '/' = .mark ['/'] := rfl

theorem not_longMark_space (read : List Char) : (' ' :: read).reverse ∉ longMarks := fun h => by
  have hnone : ∀ m ∈ longMarks, ' ' ∉ m := by decide
  exact hnone _ h (by simp)

/-- A space does not continue what a comment does not continue. -/
theorem extend?_space {r : Reading} (h : r.extend? '/' = none) : r.extend? ' ' = none := by
  have hname : isNameChar ' ' = false := by decide
  cases r with
  | gap => rfl
  | word | sign => simp [extend?, hname]
  | number => simp [extend?, hname]
  | mark read =>
    have hlong := not_longMark_space read
    have hdigit : ' '.isDigit = false := by decide
    simp only [extend?, hdigit, Bool.false_eq_true, and_false, if_false]
    rw [if_neg (by simp), if_neg (by simp), if_neg hlong]
  | literal | lineComment | blockComment => cases h
  | verbatim quoted read => cases quoted <;> first | rfl | cases h

/-- What begins with a slash is a comment if a slash follows, or a star. -/
@[simp] theorem extend?_slash_slash : (Reading.mark ['/']).extend? '/' = some .lineComment := rfl

@[simp] theorem extend?_slash_star : (Reading.mark ['/']).extend? '*' = some (.blockComment false) :=
  rfl

end Reading

/-- A lexer in the middle of a text. -/
structure Lexer where
  symbols : List (List Char) := []
  reading : Reading := .gap
  deriving DecidableEq, Repr

namespace Lexer

/-- Takes one character. -/
def take (s : Lexer) (c : Char) : Lexer :=
  match s.reading.extend? c with
  | some r => { s with reading := r }
  | none => { symbols := s.symbols ++ s.reading.done, reading := .start c }

def takeAll (s : Lexer) (cs : List Char) : Lexer := cs.foldl take s

/-- The symbols if the text ends here. -/
def finish (s : Lexer) : List (List Char) := s.symbols ++ s.reading.done

/-- Behind a blank, or a comment, that ends what is read. -/
def flush (s : Lexer) : Lexer := { symbols := s.finish }

variable {s : Lexer} {c : Char}

@[simp] theorem takeAll_cons (cs : List Char) : s.takeAll (c :: cs) = (s.take c).takeAll cs := rfl

theorem takeAll_append (cs ds : List Char) :
    s.takeAll (cs ++ ds) = (s.takeAll cs).takeAll ds :=
  List.foldl_append

theorem take_of_some {r : Reading} (h : s.reading.extend? c = some r) :
    s.take c = { s with reading := r } := by
  unfold take
  rw [h]

theorem take_of_none (h : s.reading.extend? c = none) :
    s.take c = { s.flush with reading := .start c } := by
  unfold take
  rw [h]
  rfl

@[simp] theorem finish_flush : s.flush.finish = s.finish := List.append_nil _

@[simp] theorem flush_flush : s.flush.flush = s.flush := congrArg (Lexer.mk · .gap) finish_flush

theorem take_flush : s.flush.take c = { s.flush with reading := .start c } := by
  rw [take_of_none rfl, flush_flush]

theorem takeAll_spaces_flush (n : Nat) : s.flush.takeAll (List.replicate n ' ') = s.flush := by
  induction n with
  | zero => rfl
  | succ n ih =>
    rw [List.replicate_succ, takeAll_cons, take_flush, Reading.start_space]
    exact ih

/-- What the next character does not continue ends there, be that a space
in front of it or the character itself. -/
theorem take_behind_spaces (n : Nat) (h : n = 0 → s.reading.extend? c = none)
    (hspace : s.reading.extend? ' ' = none) :
    (s.takeAll (List.replicate n ' ')).take c = { s.flush with reading := .start c } := by
  cases n with
  | zero => exact take_of_none (h rfl)
  | succ n =>
    rw [List.replicate_succ, takeAll_cons, take_of_none hspace, Reading.start_space]
    show (s.flush.takeAll (List.replicate n ' ')).take c = _
    rw [takeAll_spaces_flush, take_flush]

end Lexer

/-- The symbols of a text. -/
def symbols (text : String) : List (List Char) := (Lexer.takeAll {} text.toList).finish

example : symbols "return 0x1fU; // done" = ["return", "0x1fU", ";"].map String.toList := by
  decide

end RegisterMap.Code
