/-
String literals and what they stand for. A literal is read character by
character (`Escape.take?`); what it stands for is a sequence of 16-bit
units, since the escapes of the language name units and not characters.

A literal that is written for a text reads as the text exactly if the text
has no character that ends a line, other than the line feed, which is
escaped (`stringLit_reads`): a carriage return, say, is written as it is
and cuts the literal (`carriageReturn_unread`).
-/
import RegisterMap.Proofs.Syntax.Emission
import RegisterMap.Proofs.Syntax.Symbols

namespace RegisterMap.Code

-- ================================================================ values

/-- The units of a code point. -/
def unitsOf (n : Nat) : List Nat :=
  if n < 0x10000 then [n]
  else [0xd800 + (n - 0x10000) / 0x400, 0xdc00 + (n - 0x10000) % 0x400]

/-- The units of a text. -/
def units (text : String) : List Nat := text.toList.flatMap fun c => unitsOf c.toNat

/-- The value of a hexadecimal digit. -/
def hexDigit? (c : Char) : Option Nat :=
  if c.isDigit then some (c.toNat - '0'.toNat)
  else if 'a' ≤ c ∧ c ≤ 'f' then some (c.toNat - 'a'.toNat + 10)
  else if 'A' ≤ c ∧ c ≤ 'F' then some (c.toNat - 'A'.toNat + 10)
  else none

/-- The unit that a letter behind a backslash stands for. -/
def simpleEscape? : Char → Option Nat
  | '\x27' => some 0x27
  | '"' => some 0x22
  | '\\' => some 0x5c
  | '0' => some 0x00
  | 'a' => some 0x07
  | 'b' => some 0x08
  | 'f' => some 0x0c
  | 'n' => some 0x0a
  | 'r' => some 0x0d
  | 't' => some 0x09
  | 'v' => some 0x0b
  | _ => none

-- =============================================================== reading

/-- How much has been read of an escape sequence. -/
inductive Escape where
  | nothing
  | backslash
  /-- Digits of a number that takes all digits there are, up to four. -/
  | number (value digits : Nat)
  /-- Digits of a code point of which `left` are to come. -/
  | codePoint (value left : Nat)
  deriving DecidableEq, Repr

namespace Escape

/-- The units a character outside of escape sequences stands for. -/
def plain? (c : Char) : Option (List Nat × Escape) :=
  if c = '\\' then some ([], .backslash)
  else if c = '"' ∨ isTerminator c then none
  else some (unitsOf c.toNat, .nothing)

/-- Takes a character; gives the units that are complete by that. -/
def take? : Escape → Char → Option (List Nat × Escape)
  | .nothing, c => plain? c
  | .backslash, c =>
    match simpleEscape? c with
    | some unit => some ([unit], .nothing)
    | none =>
      if c = 'x' then some ([], .number 0 0)
      else if c = 'u' then some ([], .codePoint 0 4)
      else if c = 'U' then some ([], .codePoint 0 8)
      else none
  | .number value digits, c =>
    match hexDigit? c with
    | some digit =>
      if digits = 3 then some ([16 * value + digit], .nothing)
      else some ([], .number (16 * value + digit) (digits + 1))
    | none => if digits = 0 then none else (plain? c).map fun (us, e) => (value :: us, e)
  | .codePoint value left, c => do
    let n := 16 * value + (← hexDigit? c)
    if 1 < left then some ([], .codePoint n (left - 1))
    else if n < 0x110000 then some (unitsOf n, .nothing)
    else none

/-- The units that are complete if the literal ends here. -/
def finish? : Escape → Option (List Nat)
  | .nothing => some []
  | .number value digits => if digits = 0 then none else some [value]
  | _ => none

/-- Reads a literal behind its first quotation mark. Nothing may follow
the one that ends it. -/
def readRest? (e : Escape) : List Char → Option (List Nat)
  | [] => none
  | c :: rest =>
    if c = '"' ∧ e ≠ .backslash then if rest.isEmpty then e.finish? else none
    else do
      let (us, e) ← e.take? c
      return us ++ (← readRest? e rest)

end Escape

/-- The units that a text stands for if it is a string literal. -/
def readLiteral? (text : String) : Option (List Nat) :=
  match text.toList with
  | '"' :: rest => Escape.readRest? .nothing rest
  | _ => none

example : readLiteral? "\"a\\x9\\\"\\u00e9\\U0001f600\"" = some [0x61, 9, 0x22, 0xe9, 0xd83d, 0xde00] := by
  decide

-- =============================================================== writing

namespace Literal

/-- The character ends a line, and no escape is written for it. -/
def breaks (c : Char) : Bool := isTerminator c && c != '\n'

theorem escapeChar_eq {c : Char} (hq : c ≠ '"') (hb : c ≠ '\\') (hn : c ≠ '\n') :
    escapeChar c = [c] := by
  unfold escapeChar
  split <;> first | contradiction | rfl

theorem readRest?_simple {c : Char} {unit : Nat} (h : simpleEscape? c = some unit)
    (rest : List Char) :
    Escape.readRest? .nothing ('\\' :: c :: rest)
      = (Escape.readRest? .nothing rest).map ([unit] ++ ·) := by
  cases hrest : Escape.readRest? .nothing rest <;>
    simp [Escape.readRest?, Escape.take?, Escape.plain?, h, hrest]

/-- What is written for a character reads as its units. -/
theorem readRest?_escapeChar {c : Char} (hc : breaks c = false) (rest : List Char) :
    Escape.readRest? .nothing (escapeChar c ++ rest)
      = (Escape.readRest? .nothing rest).map (unitsOf c.toNat ++ ·) := by
  by_cases hq : c = '"'
  · rw [hq]
    exact readRest?_simple rfl rest
  by_cases hb : c = '\\'
  · rw [hb]
    exact readRest?_simple rfl rest
  by_cases hn : c = '\n'
  · rw [hn]
    exact readRest?_simple rfl rest
  have ht : isTerminator c = false := by simpa [breaks, hn] using hc
  rw [escapeChar_eq hq hb hn]
  cases hrest : Escape.readRest? .nothing rest <;>
    simp [Escape.readRest?, Escape.take?, Escape.plain?, hq, hb, ht, hrest]

/-- A literal is cut where a character ends its line. -/
theorem readRest?_breaks {c : Char} (hc : breaks c = true) (rest : List Char) :
    Escape.readRest? .nothing (escapeChar c ++ rest) = none := by
  obtain ⟨ht, hn⟩ : isTerminator c = true ∧ c ≠ '\n' := by simpa [breaks] using hc
  have hq : c ≠ '"' := fun h => by
    rw [h] at ht
    cases ht
  have hb : c ≠ '\\' := fun h => by
    rw [h] at ht
    cases ht
  rw [escapeChar_eq hq hb hn]
  simp [Escape.readRest?, Escape.take?, Escape.plain?, hq, hb, ht]

/-- The characters between the quotation marks, read up to the second. -/
theorem readRest?_escaped (cs : List Char) :
    Escape.readRest? .nothing (cs.flatMap escapeChar ++ ['"'])
      = if cs.any breaks then none else some (cs.flatMap fun c => unitsOf c.toNat) := by
  induction cs with
  | nil => rfl
  | cons c cs ih =>
    rw [List.flatMap_cons, List.append_assoc, List.any_cons]
    cases hc : breaks c with
    | true => rw [readRest?_breaks hc, Bool.true_or, if_pos rfl]
    | false =>
      rw [readRest?_escapeChar hc, ih, Bool.false_or, List.flatMap_cons]
      cases cs.any breaks <;> rfl

theorem readLiteral?_string (value : String) :
    readLiteral? (string value) = if value.toList.any breaks then none else some (units value) := by
  have hchars : (string value).toList = '"' :: (value.toList.flatMap escapeChar ++ ['"']) := by
    simp [string, escape]
  unfold readLiteral?
  rw [hchars]
  exact readRest?_escaped value.toList

end Literal

-- ============================================================== emission

/-- A node that is one piece of text is written as that. -/
theorem emit_word {t : Tree} {root : NodeId} {text : String}
    (h : t.tokens root = .ok (Token.word text)) (options : EmitOptions) :
    t.emit root options = .ok text := by
  unfold Tree.emit
  rw [h]
  show (Writer.consumeAll t options {} (Token.word text) >>= fun w => pure w.text) = _
  rw [Writer.puts_word t options text {} rfl rfl]
  show Except.ok (String.ofList (text.toList.reverse ++ []).reverse) = _
  rw [List.append_nil, List.reverse_reverse, String.ofList_toList]

/-- A new string literal is written between its quotation marks. -/
theorem emit_stringLit (t : Tree) (value : String) (options : EmitOptions) :
    (t.push { kind := .stringLit value }).2.emit t.size options
      = .ok (Literal.string value) := by
  have hnode : (t.push { kind := .stringLit value }).2.node t.size
      = .ok { kind := .stringLit value } := by
    unfold Tree.node
    rw [Tree.node?_push, if_pos rfl]
  refine emit_word ?_ options
  unfold Tree.tokens Tree.tokensFrom
  rw [hnode]
  rfl

/-- The text of a new string literal reads as its value, unless this has a
character that ends a line and is not escaped; then it is no literal. -/
theorem stringLit_reads (t : Tree) (value : String) (options : EmitOptions) :
    ∃ id t' text, Edit.leaf (.stringLit value) t = (.ok id, t') ∧ t'.emit id options = .ok text
      ∧ readLiteral? text
        = if value.toList.any Literal.breaks then none else some (units value) :=
  ⟨t.size, _, _, Edit.guarded_of_ok rfl, emit_stringLit t value options,
    Literal.readLiteral?_string value⟩

/-- A carriage return is written as it is. -/
theorem carriageReturn_unread : ∃ id t' text,
    Edit.leaf (.stringLit "a\rb") {} = (.ok id, t') ∧ t'.emit id {} = .ok text
      ∧ readLiteral? text ≠ some (units "a\rb") := by
  have hread : readLiteral? (Literal.string "a\rb") ≠ some (units "a\rb") := by decide
  exact ⟨_, _, _, Edit.guarded_of_ok rfl, emit_stringLit {} "a\rb" {}, hread⟩

end RegisterMap.Code
