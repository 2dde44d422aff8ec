/-
Texts in units. Blanks separate; a symbol is the longest that fits; a
parenthesis opens a cast if there is nothing but a type in it and an
operand behind it, and a group otherwise. That much is the same whatever
stands between the operators. A `Lexicon` says what that is: how a text is
read on where none of this starts, and with which characters no operand
does.

Main statements: what a text lexes as if its parts lex as such, for
operations, casts and parentheses (`Splits.binary` and the others). What
has to be shown is that parentheses around an expression are not taken for
a cast. Nothing but a type stands up to the first closing parenthesis only
if that is the closing one (`Shielded`), and then no operand follows.
-/
import RegisterMap.Proofs.Syntax.Grammar

namespace RegisterMap.Code

-- =============================================================== scanning

/-- A character that ends an atom. -/
def isDelimiter (c : Char) : Bool :=
  c.isWhitespace || [')', ']', '\x7d', ',', ';', '+', '-', '*', '/', '%', '<', '>', '=', '!', '&',
    '^', '|', '?', ':', '~'].contains c

/-- A character of the name of a type. -/
def isTypeChar (c : Char) : Bool :=
  c.isAlphanum || 128 ≤ c.toNat || ['_', '.', '[', ']', '<', '>', ',', '@'].contains c

/-- How far an atom has been read. -/
structure Scan where
  /-- What closes the brackets that are open, innermost first. -/
  closers : List Char := []
  /-- The quote that ends the literal being read. -/
  quote : Option Char := none
  escaped : Bool := false
  deriving DecidableEq, Repr

namespace Scan

/-- What closes a bracket. -/
def closer? : Char → Option Char
  | '(' => some ')'
  | '[' => some ']'
  | '\x7b' => some '\x7d'
  | _ => none

/-- What closes the open brackets behind one more character, unless the
atom ends before it. -/
def nest (closers : List Char) (c : Char) : Option (List Char) :=
  match closer? c, closers with
  | some close, _ => some (close :: closers)
  | none, [] => if isDelimiter c then none else some []
  | none, close :: outer =>
    if c == close then some outer
    else if [')', ']', '\x7d'].contains c then none
    else some (close :: outer)

/-- Reads one character, unless the atom ends before it. -/
def step (s : Scan) (c : Char) : Option Scan :=
  match s.quote with
  | some q =>
    if s.escaped then some { s with escaped := false }
    else if c == '\\' then some { s with escaped := true }
    else if c == q then some { s with quote := none }
    else some s
  | none =>
    if ['"', '\x27'].contains c then some { s with quote := some c }
    else (nest s.closers c).map fun closers => { s with closers }

/-- What is read of a text, one character after the other. -/
def upTo (read : Scan → Char → Option Scan) (s : Scan) : List Char → List Char
  | [] => []
  | c :: cs =>
    match read s c with
    | some s => c :: upTo read s cs
    | none => []

/-- A text that is read as a whole is read up to what ends it. -/
theorem upTo_append {read : Scan → Char → Option Scan} {s : Scan} {text rest : List Char}
    (h : text.foldlM read s = some {}) (hrest : ∀ c ∈ rest.head?, read {} c = none) :
    upTo read s (text ++ rest) = text := by
  induction text generalizing s with
  | nil =>
    obtain rfl := Option.some_inj.1 h
    cases rest with
    | nil => rfl
    | cons c cs => rw [List.nil_append, upTo, hrest c rfl]
  | cons c cs ih =>
    rw [List.foldlM_cons] at h
    obtain ⟨s', hs', h⟩ := Option.bind_eq_some_iff.1 h
    rw [List.cons_append, upTo, hs']
    exact congrArg (c :: ·) (ih h)

theorem step_plain {s : Scan} {c : Char} (hs : s.quote = none)
    (hc : ['"', '\x27'].contains c = false) :
    s.step c = (nest s.closers c).map fun closers => { s with closers } := by
  unfold step
  rw [hs]
  exact if_neg (Bool.eq_false_iff.1 hc)

theorem closer?_eq_some {c close : Char} (h : closer? c = some close) :
    c = '(' ∧ close = ')' ∨ c = '[' ∧ close = ']' ∨ c = '\x7b' ∧ close = '\x7d' := by
  unfold closer? at h
  split at h
  · exact Or.inl ⟨rfl, (Option.some_inj.1 h).symm⟩
  · exact Or.inr (Or.inl ⟨rfl, (Option.some_inj.1 h).symm⟩)
  · exact Or.inr (Or.inr ⟨rfl, (Option.some_inj.1 h).symm⟩)
  · cases h

/-- A character of a class that holds no quote is no quote. -/
theorem not_quote {p : Char → Bool} (hp : p '"' = false ∧ p '\x27' = false) {c : Char}
    (hc : p c = true) : ['"', '\x27'].contains c = false := by
  simp only [List.contains_cons, List.contains_nil, Bool.or_false, Bool.or_eq_false_iff,
    beq_eq_false_iff_ne]
  refine ⟨fun h => ?_, fun h => ?_⟩
  · rw [h, hp.1] at hc
    cases hc
  · rw [h, hp.2] at hc
    cases hc

/-- No delimiter is read outside of brackets and quotes. -/
theorem step_delimiter {c : Char} (hc : isDelimiter c = true) : step {} c = none := by
  have hopen : closer? c = none := by
    cases h : closer? c with
    | none => rfl
    | some close =>
      rcases closer?_eq_some h with ⟨rfl, -⟩ | ⟨rfl, -⟩ | ⟨rfl, -⟩ <;> exact absurd hc (by decide)
  rw [step_plain rfl (not_quote (by decide) hc)]
  unfold nest
  rw [hopen]
  exact congrArg (Option.map _) (if_pos hc)

end Scan

/-- The text names a type. -/
def isTypeName (text : String) : Bool := !text.toList.isEmpty && text.toList.all isTypeChar

theorem closing_not_mem_type {text : String} (h : isTypeName text = true) : ')' ∉ text.toList :=
  fun hmem => absurd (List.all_eq_true.1 (Bool.and_eq_true_iff.1 h).2 _ hmem) (by decide)

-- ================================================================ symbols

/-- The operators, those with longer symbols first. -/
def Operator.bySymbol : List Operator :=
  [.ushr, .shl, .shr, .lte, .gte, .eq, .neq, .land, .lor, .add, .sub, .mul, .div, .lt, .gt, .and,
    .xor, .or]

/-- The operator a text starts with. -/
def startingOperator? (cs : List Char) : Option Operator :=
  Operator.bySymbol.find? fun op => op.symbol.toList.isPrefixOf cs

/-- The first character of a symbol delimits. -/
theorem Operator.symbol_head (op : Operator) :
    ∃ c cs, op.symbol.toList = c :: cs ∧ isDelimiter c = true ∧ c.isWhitespace = false := by
  cases op <;> exact ⟨_, _, rfl, by decide, by decide⟩

theorem startingOperator?_eq_none {c : Char} (h : isDelimiter c = false) (cs : List Char) :
    startingOperator? (c :: cs) = none := by
  refine List.find?_eq_none.2 fun op _ hp => ?_
  obtain ⟨d, ds, hsymbol, hd, -⟩ := op.symbol_head
  rw [hsymbol, List.isPrefixOf_cons_cons, Bool.and_eq_true, beq_iff_eq] at hp
  rw [hp.1, h] at hd
  cases hd

-- ================================================================= lexing

/-- A way to read texts in units, among which are the lexemes of
expressions. -/
structure Lexicon (α : Type) where
  unit : Lexeme → α
  /-- No operand starts with the character. -/
  ends : Char → Bool
  /-- The unit that starts with a character that is no blank, parenthesis
  or symbol, and how many characters it has beside this one. -/
  other? : Char → List Char → Option (α × Nat)
  ends_of_isDelimiter : ∀ c, isDelimiter c = true → ends c = true
  ends_opening : ends '(' = false

namespace Lexicon

variable {α : Type} (L : Lexicon α)

/-- An operand starts here, behind blanks. -/
def operandAhead (cs : List Char) : Bool :=
  (cs.dropWhile Char.isWhitespace).head?.any fun c => !L.ends c

/-- The type of a cast, given what stands behind its parenthesis. -/
def castType? (cs : List Char) : Option (List Char) :=
  let type := cs.takeWhile (· != ')')
  if !type.isEmpty && type.all isTypeChar && L.operandAhead (cs.drop (type.length + 1)) then
    some type
  else none

/-- The unit a text starts with, none if it is a blank, and how many
characters it has beside the first. -/
def next? : List Char → Option (Option α × Nat)
  | [] => none
  | c :: cs =>
    if c.isWhitespace then some (none, 0)
    else if c == '(' then
      match L.castType? cs with
      | some type => some (some (L.unit (.castTo (String.ofList type))), type.length + 1)
      | none => some (some (L.unit .opening), 0)
    else if c == ')' then some (some (L.unit .closing), 0)
    else if c == '?' then some (some (L.unit .question), 0)
    else if c == ':' then some (some (L.unit .colon), 0)
    else match startingOperator? (c :: cs) with
      | some op => some (some (L.unit (.operator op)), op.symbol.toList.length - 1)
      | none => (L.other? c cs).map fun (unit, more) => (some unit, more)

/-- The units of a text, behind the given number of characters that belong
to the unit before. -/
def lexFrom : Nat → List Char → Option (List α)
  | _, [] => some []
  | skip + 1, _ :: cs => lexFrom skip cs
  | 0, c :: cs => do
    let (unit, more) ← L.next? (c :: cs)
    let rest ← lexFrom more cs
    pure (unit.toList ++ rest)

/-- The units of a text. -/
def lex (cs : List Char) : Option (List α) := L.lexFrom 0 cs

theorem lexFrom_skip (cs rest : List Char) : L.lexFrom cs.length (cs ++ rest) = L.lex rest := by
  induction cs with
  | nil => rfl
  | cons c cs ih => exact ih

/-- Where nothing else starts, the lexicon's own units do. -/
theorem next?_other {c : Char} (h : isDelimiter c = false) (hopen : (c == '(') = false)
    (cs : List Char) : L.next? (c :: cs)
      = (L.other? c cs).map fun (unit, more) => (some unit, more) := by
  have hne : ∀ d, isDelimiter d = true → (c == d) = false := fun d hd =>
    beq_eq_false_iff_ne.2 fun heq => by
      rw [heq, hd] at h
      cases h
  have hw : c.isWhitespace = false := (Bool.or_eq_false_iff.1 h).1
  rw [next?, hw, hopen, hne ')' rfl, hne '?' rfl, hne ':' rfl, startingOperator?_eq_none h]
  rfl

-- =============================================================== operands

variable {c : Char} {cs ds rest : List Char}

theorem operandAhead_cons (hw : c.isWhitespace = false) (cs : List Char) :
    L.operandAhead (c :: cs) = !L.ends c := by
  unfold operandAhead
  rw [List.dropWhile_cons_of_neg (by rw [hw]; decide)]
  rfl

theorem operandAhead_of_not_ends (h : L.ends c = false) (cs : List Char) :
    L.operandAhead (c :: cs) = true := by
  have hdelimiter : isDelimiter c = false := Bool.eq_false_iff.2 fun hc => by
    rw [L.ends_of_isDelimiter c hc] at h
    cases h
  rw [L.operandAhead_cons (Bool.or_eq_false_iff.1 hdelimiter).1, h]
  rfl

theorem operandAhead_delimiter (hw : c.isWhitespace = false) (hc : isDelimiter c = true)
    (cs : List Char) : L.operandAhead (c :: cs) = false := by
  rw [L.operandAhead_cons hw, L.ends_of_isDelimiter c hc]
  rfl

theorem operandAhead_symbol (op : Operator) (rest : List Char) :
    L.operandAhead (op.symbol.toList ++ rest) = false := by
  obtain ⟨c, cs, hsymbol, hc, hw⟩ := op.symbol_head
  rw [hsymbol, List.cons_append, L.operandAhead_delimiter hw hc]

/-- Where no operand is ahead, none starts. -/
theorem ends_of_head (h : L.operandAhead rest = false) : ∀ c ∈ rest.head?, L.ends c = true := by
  cases rest with
  | nil => nofun
  | cons c cs =>
    rintro d ⟨⟩
    cases hw : c.isWhitespace with
    | true =>
      refine L.ends_of_isDelimiter c ?_
      unfold isDelimiter
      rw [hw, Bool.true_or]
    | false =>
      rw [L.operandAhead_cons hw] at h
      exact Bool.not_eq_eq_eq_not.1 h

end Lexicon

-- ======================================================= casts and groups

/-- Behind whatever comes before a closing parenthesis there is something
that is in no type. -/
def Shielded (cs : List Char) : Prop :=
  ∀ before rest, cs = before ++ ')' :: rest → before.all isTypeChar = false

/-- A text stays shielded if something that is in no type, and no closing
parenthesis, comes behind it. -/
theorem Shielded.append {cs : List Char} {c : Char} (h : Shielded cs)
    (hc : isTypeChar c = false) (hne : c ≠ ')') (tail : List Char) :
    Shielded (cs ++ c :: tail) := by
  intro before rest heq
  rcases List.append_eq_append_iff.1 heq with ⟨mid, rfl, hmid⟩ | ⟨mid, rfl, hmid⟩
  · cases mid with
    | nil => exact absurd (List.cons.inj hmid).1 hne
    | cons d mid =>
      obtain ⟨rfl, -⟩ := List.cons.inj hmid
      rw [List.all_append, List.all_cons, hc, Bool.false_and, Bool.and_false]
  · cases mid with
    | nil => exact absurd (List.cons.inj hmid).1.symm hne
    | cons d mid =>
      obtain ⟨rfl, -⟩ := List.cons.inj hmid
      exact h before mid rfl

theorem shielded_opening (tail : List Char) : Shielded ('(' :: tail) := by
  intro before rest heq
  cases before with
  | nil => cases heq
  | cons d before =>
    obtain ⟨rfl, -⟩ := List.cons.inj heq
    rfl

section

variable {cs ds : List Char}

theorem shielded_of_not_mem (h : ')' ∉ cs) : Shielded cs := by
  rintro before rest rfl
  exact absurd (List.mem_append_right _ (List.mem_cons_self ..)) h

theorem Shielded.join (h : Shielded cs) (h' : Shielded ds) : Shielded (cs ++ ds) := by
  intro before rest heq
  rcases List.append_eq_append_iff.1 heq with ⟨mid, rfl, hmid⟩ | ⟨mid, rfl, hmid⟩
  · rw [List.all_append, h' mid rest hmid, Bool.and_false]
  · cases mid with
    | nil => exact absurd (h' [] rest hmid.symm) (by simp)
    | cons d mid =>
      obtain ⟨rfl, -⟩ := List.cons.inj hmid
      exact h before mid rfl

end

namespace Lexicon

variable {α : Type} (L : Lexicon α) {cs : List Char} {rest : List Char} {text : String}

/-- Whether parentheses are a cast is up to what stands in them and behind
them. -/
theorem castType?_closing (h : ')' ∉ cs) (rest : List Char) :
    L.castType? (cs ++ ')' :: rest)
      = if !cs.isEmpty && cs.all isTypeChar && L.operandAhead rest then some cs else none := by
  have hne : ∀ c ∈ cs, (c != ')') = true := fun c hc => bne_iff_ne.2 fun he => h (by rwa [← he])
  have htake : (cs ++ ')' :: rest).takeWhile (· != ')') = cs := by
    rw [List.takeWhile_append_of_pos hne]
    exact List.append_nil _
  have hdrop : (cs ++ ')' :: rest).drop (cs.length + 1) = rest := by
    rw [List.append_cons]
    exact List.drop_left' (by rw [List.length_append]; rfl)
  unfold castType?
  rw [htake]
  dsimp only
  rw [hdrop]

/-- Parentheses around what is shielded are no cast if no operand
follows. -/
theorem castType?_shielded (h : Shielded cs) (hrest : L.operandAhead rest = false) :
    L.castType? (cs ++ ')' :: rest) = none := by
  by_cases hmem : ')' ∈ cs
  · obtain ⟨before, tail, rfl, hbefore⟩ := List.eq_append_cons_of_mem hmem
    rw [List.append_assoc, List.cons_append, L.castType?_closing hbefore, h before tail rfl,
      Bool.and_false, Bool.false_and]
    rfl
  · rw [L.castType?_closing hmem, hrest, Bool.and_false]
    rfl

/-- A type between parentheses is one of a cast if an operand follows. -/
theorem castType?_typeName (h : isTypeName text = true) (hrest : L.operandAhead rest = true) :
    L.castType? (text.toList ++ ')' :: rest) = some text.toList := by
  obtain ⟨hne, hall⟩ := Bool.and_eq_true_iff.1 h
  rw [L.castType?_closing (closing_not_mem_type h), hne, hall, hrest]
  rfl

-- ============================================================== the units

/-- The text in front of the rest lexes as the units. -/
def Lexes (cs : List Char) (us : List α) (rest : List Char) : Prop :=
  L.lex (cs ++ rest) = (L.lex rest).map (us ++ ·)

variable {L} {ds : List Char} {us vs : List α}

theorem Lexes.append (h : L.Lexes cs us (ds ++ rest)) (h' : L.Lexes ds vs rest) :
    L.Lexes (cs ++ ds) (us ++ vs) rest := by
  unfold Lexes at *
  rw [List.append_assoc, h, h', Option.map_map]
  congr 1
  funext ls
  exact (List.append_assoc ..).symm

theorem lexes_nil (rest : List Char) : L.Lexes [] [] rest := by
  unfold Lexes
  rw [List.nil_append]
  exact Option.map_id'.symm

theorem lexes_next {c : Char} {u : Option α}
    (h : L.next? (c :: (cs ++ rest)) = some (u, cs.length)) :
    L.Lexes (c :: cs) u.toList rest := by
  show (L.next? (c :: (cs ++ rest)) >>= fun (unit, more) => do
    let rest ← L.lexFrom more (cs ++ rest)
    pure (unit.toList ++ rest)) = _
  rw [h]
  show (L.lexFrom cs.length (cs ++ rest) >>= fun rest => pure (u.toList ++ rest)) = _
  rw [lexFrom_skip]
  cases L.lex rest <;> rfl

theorem lexes_blank (rest : List Char) : L.Lexes [' '] [] rest := by
  have hnext : L.next? (' ' :: ([] ++ rest)) = some (none, ([] : List Char).length) := rfl
  exact lexes_next hnext

theorem lexes_unit {c : Char} {u : α} (h : L.next? (c :: rest) = some (some u, 0)) :
    L.Lexes [c] [u] rest := by
  have hnext : L.next? (c :: ([] ++ rest)) = some (some u, ([] : List Char).length) := h
  exact lexes_next hnext

/-- A symbol is found where a blank comes behind it. -/
theorem lexes_operator (op : Operator) (rest : List Char) :
    L.Lexes op.symbol.toList [L.unit (.operator op)] (' ' :: rest) := by
  obtain ⟨c, cs, hsymbol, -, -⟩ := op.symbol_head
  have hnext : L.next? (c :: (cs ++ ' ' :: rest))
      = some (some (L.unit (.operator op)), cs.length) := by
    rw [← List.cons_append, ← hsymbol]
    cases op <;> cases hsymbol <;> rfl
  exact hsymbol ▸ lexes_next hnext

theorem lexes_castTo (h : isTypeName text = true) (hrest : L.operandAhead rest = true) :
    L.Lexes ('(' :: (text.toList ++ [')'])) [L.unit (.castTo text)] rest := by
  have hnext : L.next? ('(' :: ((text.toList ++ [')']) ++ rest))
      = some (some (L.unit (.castTo text)), (text.toList ++ [')']).length) := by
    rw [List.append_assoc, List.singleton_append, List.length_append, next?,
      L.castType?_typeName h hrest]
    show some (some (L.unit (.castTo (String.ofList text.toList))), _) = _
    rw [String.ofList_toList]
    rfl
  exact lexes_next hnext

theorem lexes_opening (h : Shielded cs) (hrest : L.operandAhead rest = false) :
    L.Lexes ['('] [L.unit .opening] (cs ++ [')'] ++ rest) := by
  refine lexes_unit ?_
  rw [List.append_assoc, List.singleton_append, next?, L.castType?_shielded h hrest]
  rfl

/-- The text of an operand lexes as the units wherever no operand
follows. -/
def Splits (L : Lexicon α) (cs : List Char) (us : List α) : Prop :=
  ∀ rest, L.operandAhead rest = false → L.Lexes cs us rest

/-- A text that lexes so has the units. -/
theorem Splits.lex_eq (h : L.Splits cs us) : L.lex cs = some us := by
  have hall : L.lex (cs ++ []) = (L.lex []).map (us ++ ·) := h [] rfl
  rw [List.append_nil] at hall
  rw [hall]
  show some (us ++ []) = _
  rw [List.append_nil]

theorem Splits.binary (hl : L.Splits cs us) (hr : L.Splits ds vs) (op : Operator) :
    L.Splits (cs ++ ' ' :: (op.symbol.toList ++ ' ' :: ds))
      (us ++ L.unit (.operator op) :: vs) := by
  intro rest hrest
  have hop : ∀ cs, L.operandAhead ((' ' :: (op.symbol.toList ++ cs)) ++ rest) = false := by
    intro cs
    rw [List.cons_append, List.append_assoc]
    exact L.operandAhead_symbol op _
  exact (hl _ (hop _)).append ((lexes_blank _).append
    ((lexes_operator op _).append ((lexes_blank _).append (hr rest hrest))))

theorem Splits.cond {bs : List Char} {ws : List α} (hc : L.Splits cs us) (ha : L.Splits ds vs)
    (hb : L.Splits bs ws) :
    L.Splits (cs ++ ' ' :: '?' :: ' ' :: (ds ++ ' ' :: ':' :: ' ' :: bs))
      (us ++ L.unit .question :: (vs ++ L.unit .colon :: ws)) := by
  intro rest hrest
  have hq : ∀ cs, L.operandAhead (' ' :: '?' :: cs) = false := fun cs =>
    L.operandAhead_delimiter (c := '?') rfl rfl cs
  have hcolon : ∀ cs, L.operandAhead (' ' :: ':' :: cs) = false := fun cs =>
    L.operandAhead_delimiter (c := ':') rfl rfl cs
  exact (hc _ (hq _)).append ((lexes_blank _).append ((lexes_unit rfl).append
    ((lexes_blank _).append ((ha _ (hcolon _)).append ((lexes_blank _).append
      ((lexes_unit rfl).append ((lexes_blank _).append (hb rest hrest))))))))

theorem Splits.cast (h : L.Splits cs us) (htype : isTypeName text = true)
    (hahead : ∀ rest, L.operandAhead (cs ++ rest) = true) :
    L.Splits ('(' :: (text.toList ++ ')' :: cs)) (L.unit (.castTo text) :: us) := by
  intro rest hrest
  show L.Lexes (('(' :: text.toList) ++ ')' :: cs) ([L.unit (.castTo text)] ++ us) rest
  rw [List.append_cons]
  exact (lexes_castTo htype (hahead rest)).append (h rest hrest)

theorem Splits.paren (h : L.Splits cs us) (hshielded : Shielded cs) :
    L.Splits ('(' :: (cs ++ [')'])) (L.unit .opening :: (us ++ [L.unit .closing])) := by
  intro rest hrest
  have hclose : L.operandAhead (')' :: rest) = false := L.operandAhead_delimiter rfl rfl rest
  exact (lexes_opening hshielded hrest).append ((h _ hclose).append (lexes_unit rfl))

end Lexicon

end RegisterMap.Code
