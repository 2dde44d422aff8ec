/-
Marks from text. A word ends where a bracket or an access starts, and takes
the parenthesis of a call with it.

Main statement: the text of a phrase lexes as its marks
(`read_of_isLegible`), wherever it ends and no operand follows, if its
names and types are spelled as such.
-/
import RegisterMap.Proofs.Syntax.Spelling
import RegisterMap.Proofs.Syntax.Units

namespace RegisterMap.Code

-- ================================================================= words

/-- A character that ends a word. -/
def endsWord (c : Char) : Bool := isDelimiter c || ['(', '[', '\x7b', '.'].contains c

namespace Scan

/-- Reads one character, unless the word ends before it. -/
def wordStep (s : Scan) (c : Char) : Option Scan :=
  if s.quote.isNone && endsWord c then none else s.step c

/-- The word a text starts with. -/
def word (cs : List Char) : List Char := upTo wordStep {} cs

theorem wordStep_end {s : Scan} {c : Char} (hs : s.quote = none) (hc : endsWord c = true) :
    s.wordStep c = none := by
  unfold wordStep
  rw [hs, hc]
  rfl

/-- No quote is opened by what may stand in a type. -/
theorem quote_of_run {s s' : Scan} {cs : List Char} (hs : s.quote = none)
    (hcs : cs.all isTypeChar = true) (h : cs.foldlM wordStep s = some s') : s'.quote = none := by
  induction cs generalizing s with
  | nil => exact Option.some_inj.1 h ▸ hs
  | cons c cs ih =>
    rw [List.foldlM_cons] at h
    obtain ⟨s₁, hs₁, h⟩ := Option.bind_eq_some_iff.1 h
    obtain ⟨hc, hcs⟩ := Bool.and_eq_true_iff.1 (List.all_cons ▸ hcs)
    refine ih ?_ hcs h
    unfold wordStep at hs₁
    split at hs₁
    · cases hs₁
    · rw [step_plain hs (not_quote (by decide) hc), Option.map_eq_some_iff] at hs₁
      obtain ⟨closers, -, rfl⟩ := hs₁
      exact hs

end Scan

/-- The text is a single word: a name, a number or a literal. -/
def isWord (text : String) : Bool :=
  !text.toList.isEmpty && text.toList.foldlM Scan.wordStep {} == some {}

/-- The word is no keyword of the grammar. -/
def isName (text : String) : Bool := isWord text && !(["out", "new"].contains text)

/-- The text names a type that no bracket is part of. -/
def isElementType (text : String) : Bool := isTypeName text && !text.toList.contains '['

-- ================================================================= lexing

namespace Mark

/-- What is created, given what stands behind `new`, and the characters up
to the bracket. -/
def creation? (cs : List Char) : Option (Mark × Nat) :=
  let lead := cs.takeWhile fun c => !(['(', '['].contains c)
  let type := String.ofList (lead.dropWhile Char.isWhitespace)
  match cs.drop lead.length with
  | '(' :: _ => if isTypeName type then some (.call (.creation type), lead.length + 1) else none
  | '[' :: _ => if isTypeName type then some (.array type, lead.length + 1) else none
  | _ => none

/-- The mark that a word starts, and how many characters it has behind the
word. -/
def named? (word : String) (rest : List Char) : Option (Mark × Nat) :=
  if word == "out" then some (.out, 0)
  else if word == "new" then creation? rest
  else if rest.head? == some '(' then some (.call (.function word), 1)
  else some (.word word, 0)

/-- The mark that a dot starts, and how many characters it has behind the
dot. -/
def access? (cs : List Char) : Option (Mark × Nat) :=
  let name := Scan.word cs
  if name.isEmpty then none
  else if (cs.drop name.length).head? == some '(' then
    some (.send (String.ofList name), name.length + 1)
  else some (.dot (String.ofList name), name.length)

/-- The lexicon of phrases. An operand starts with no bracket and no dot. -/
def lexicon : Lexicon Mark where
  unit := Lexeme.mark
  ends c := isDelimiter c || ['[', '.'].contains c
  other? c cs :=
    if c == '[' then some (.bracket, 0)
    else if c == ']' then some (.unbracket, 0)
    else if c == ',' then some (.comma, 0)
    else if c == '.' then access? cs
    else
      let word := Scan.word (c :: cs)
      if word.isEmpty then none
      else (named? (String.ofList word) ((c :: cs).drop word.length)).map fun (mark, more) =>
        (mark, word.length - 1 + more)
  ends_of_isDelimiter c h := by rw [h, Bool.true_or]
  ends_opening := rfl

end Mark

namespace Phrase

variable {s : Part}

def isLegibleCallee : Callee → Bool
  | .function name => isName name
  | .creation type => isElementType type

/-- Words, names and types are spelled as such, and no creation of an array
is indexed. -/
def isLegible {s : Part} : Phrase s → Bool
  | .word text => isName text
  | .binary _ l r => l.isLegible && r.isLegible
  | .cond c a b => c.isLegible && a.isLegible && b.isLegible
  | .cast type e => isTypeName type && e.isLegible
  | .paren e => e.isLegible
  | .member e name => e.isLegible && isWord name
  | .item e i => e.isLegible && i.isLegible && !e.isArray
  | .array type n => isElementType type && n.isLegible
  | .call callee args => isLegibleCallee callee && args.isLegible
  | .send e name args => e.isLegible && isWord name && args.isLegible
  | .none => true
  | .more init label _ e => init.isLegible && label.all isName && e.isLegible

end Phrase

variable {cs rest : List Char} {text : String}

/-- A word closes nothing, but for what it quotes. -/
theorem shielded_word (h : isWord text = true) : Shielded text.toList := by
  intro before rest heq
  have hrun := beq_iff_eq.1 (Bool.and_eq_true_iff.1 h).2
  rw [heq, List.foldlM_append] at hrun
  obtain ⟨s, hs, hrun⟩ := Option.bind_eq_some_iff.1 hrun
  refine Bool.eq_false_iff.2 fun hall => ?_
  rw [List.foldlM_cons, Scan.wordStep_end (Scan.quote_of_run rfl hall hs) rfl] at hrun
  cases hrun

namespace Phrase

variable {s : Part}

theorem isWord_of_isName (h : isName text = true) : isWord text = true :=
  (Bool.and_eq_true_iff.1 h).1

theorem isTypeName_of_isElementType (h : isElementType text = true) : isTypeName text = true :=
  (Bool.and_eq_true_iff.1 h).1

theorem shielded_callee {callee : Callee} (h : isLegibleCallee callee = true) :
    Shielded (calleeChars callee) := by
  cases callee with
  | function name => exact shielded_word (isWord_of_isName h)
  | creation type =>
    have hprefix : Shielded ['n', 'e', 'w', ' '] := shielded_of_not_mem (by decide)
    exact hprefix.join
      (shielded_of_not_mem (closing_not_mem_type (isTypeName_of_isElementType h)))

theorem shielded_chars {p : Phrase s} (h : p.isLegible = true) : Shielded p.chars := by
  induction p with
  | word text => exact shielded_word (isWord_of_isName h)
  | binary op l r ihl ihr => exact (ihl (Bool.and_eq_true_iff.1 h).1).append rfl (by decide) _
  | cond c a b ihc iha ihb =>
    exact (ihc (Bool.and_eq_true_iff.1 (Bool.and_eq_true_iff.1 h).1).1).append rfl (by decide) _
  | cast | paren => exact shielded_opening _
  | member e name ih =>
    obtain ⟨he, hname⟩ := Bool.and_eq_true_iff.1 h
    have hdot : Shielded ['.'] := shielded_of_not_mem (by decide)
    exact (ih he).join (hdot.join (shielded_word hname))
  | item e i ihe ihi =>
    simp only [isLegible, Bool.and_eq_true] at h
    have hopen : Shielded ['['] := shielded_of_not_mem (by decide)
    have hclose : Shielded [']'] := shielded_of_not_mem (by decide)
    exact (ihe h.1.1).join (hopen.join ((ihi h.1.2).join hclose))
  | array type n ih =>
    obtain ⟨htype, hn⟩ := Bool.and_eq_true_iff.1 h
    have hnew : Shielded ['n', 'e', 'w', ' '] := shielded_of_not_mem (by decide)
    have hopen : Shielded ['['] := shielded_of_not_mem (by decide)
    have hclose : Shielded [']'] := shielded_of_not_mem (by decide)
    have helement := shielded_of_not_mem (closing_not_mem_type (isTypeName_of_isElementType htype))
    exact hnew.join (helement.join (hopen.join ((ih hn).join hclose)))
  | call callee args ih =>
    exact (shielded_callee (Bool.and_eq_true_iff.1 h).1).join (shielded_opening _)
  | send e name args ihe iha =>
    simp only [isLegible, Bool.and_eq_true] at h
    have hdot : Shielded ['.'] := shielded_of_not_mem (by decide)
    exact (ihe h.1.1).join (hdot.join ((shielded_word h.1.2).join (shielded_opening _)))
  | none => exact shielded_of_not_mem (List.not_mem_nil)
  | more init label out e ihi ihe =>
    simp only [isLegible, Bool.and_eq_true] at h
    have hcomma : Shielded init.commaChars := by
      cases init with
      | none => exact shielded_of_not_mem List.not_mem_nil
      | more => exact shielded_of_not_mem (show ')' ∉ [',', ' '] by decide)
    have hlead : Shielded (leadChars label out) := by
      have hout : Shielded (if out then ['o', 'u', 't', ' '] else []) := by
        cases out <;> exact shielded_of_not_mem (by decide)
      cases label with
      | none => exact hout
      | some name =>
        have hcolon : Shielded [':', ' '] := shielded_of_not_mem (by decide)
        exact ((shielded_word (isWord_of_isName h.1.2)).join hcolon).join hout
    exact (ihi h.1.1).join (hcomma.join (hlead.join (ihe h.2)))

end Phrase

-- ======================================================= what begins where

/-- What no operand begins with ends a word, and is no parenthesis. -/
theorem head_endsWord (h : Mark.lexicon.operandAhead rest = false) :
    (∀ c ∈ rest.head?, endsWord c = true) ∧ rest.head? ≠ some '(' := by
  have hends := Mark.lexicon.ends_of_head h
  refine ⟨fun c hc => ?_, fun he => absurd (hends '(' he) (by decide)⟩
  rcases Bool.or_eq_true_iff.1 (hends c hc) with hd | hd
  · unfold endsWord
    rw [hd, Bool.true_or]
  · simp only [List.contains_cons, List.contains_nil, Bool.or_false, Bool.or_eq_true,
      beq_iff_eq] at hd
    rcases hd with rfl | rfl <;> rfl

/-- The first character of a word ends none. -/
theorem word_head (h : isWord text = true) :
    ∃ c cs, text.toList = c :: cs ∧ endsWord c = false := by
  obtain ⟨hne, hrun⟩ := Bool.and_eq_true_iff.1 h
  cases htext : text.toList with
  | nil =>
    rw [htext] at hne
    cases hne
  | cons c cs =>
    refine ⟨c, cs, rfl, Bool.eq_false_iff.2 fun hc => ?_⟩
    rw [htext, beq_iff_eq, List.foldlM_cons, Scan.wordStep_end rfl hc] at hrun
    cases hrun

theorem operandAhead_word (h : isWord text = true) (rest : List Char) :
    Mark.lexicon.operandAhead (text.toList ++ rest) = true := by
  obtain ⟨c, cs, htext, hc⟩ := word_head h
  rw [htext]
  refine Mark.lexicon.operandAhead_of_not_ends ?_ _
  show (isDelimiter c || ['[', '.'].contains c) = false
  unfold endsWord at hc
  simp only [Bool.or_eq_false_iff, List.contains_cons, List.contains_nil, Bool.or_false] at hc ⊢
  exact ⟨hc.1, hc.2.2.1, hc.2.2.2.2⟩

/-- The text of an operand begins one. -/
theorem Phrase.operandAhead_chars {e : Phrase .operand} (h : e.isLegible = true)
    (rest : List Char) : Mark.lexicon.operandAhead (e.chars ++ rest) = true := by
  suffices hall : ∀ {s : Part} (p : Phrase s), p.isLegible = true → s = .operand → ∀ rest,
      Mark.lexicon.operandAhead (p.chars ++ rest) = true from hall e h rfl rest
  clear h rest e
  intro s p h hs rest
  induction p generalizing rest with
  | none | more => cases hs
  | word text => exact operandAhead_word (isWord_of_isName h) rest
  | binary op l r ihl ihr =>
    rw [chars, List.append_assoc]
    exact ihl (Bool.and_eq_true_iff.1 h).1 rfl _
  | cond c a b ihc iha ihb =>
    rw [chars, List.append_assoc]
    exact ihc (Bool.and_eq_true_iff.1 (Bool.and_eq_true_iff.1 h).1).1 rfl _
  | cast | paren | array => exact Mark.lexicon.operandAhead_of_not_ends rfl _
  | member e name ih =>
    rw [chars, List.append_assoc]
    exact ih (Bool.and_eq_true_iff.1 h).1 rfl _
  | item e i ihe ihi =>
    rw [chars, List.append_assoc]
    exact ihe (Bool.and_eq_true_iff.1 (Bool.and_eq_true_iff.1 h).1).1 rfl _
  | call callee args ih =>
    rw [chars, List.append_assoc]
    cases callee with
    | function name => exact operandAhead_word (isWord_of_isName (Bool.and_eq_true_iff.1 h).1) _
    | creation type => exact Mark.lexicon.operandAhead_of_not_ends rfl _
  | send e name args ihe iha =>
    rw [chars, List.append_assoc]
    exact ihe (Bool.and_eq_true_iff.1 (Bool.and_eq_true_iff.1 h).1).1 rfl _

-- ============================================================== the marks

namespace Mark

theorem word_ahead (h : isWord text = true) (hrest : ∀ c ∈ rest.head?, endsWord c = true) :
    Scan.word (text.toList ++ rest) = text.toList :=
  Scan.upTo_append (beq_iff_eq.1 (Bool.and_eq_true_iff.1 h).2) fun c hc =>
    Scan.wordStep_end rfl (hrest c hc)

/-- A word is found as a whole, and starts what it names. -/
theorem next?_word (h : isWord text = true) {c : Char} {cs rest : List Char}
    (htext : text.toList = c :: cs) (hrest : ∀ c ∈ rest.head?, endsWord c = true) :
    lexicon.next? (c :: (cs ++ rest))
      = (named? text rest).map fun (mark, more) => (some mark, cs.length + more) := by
  obtain ⟨d, ds, htext', hd⟩ := word_head h
  obtain ⟨rfl, rfl⟩ := List.cons.inj (htext'.symm.trans htext)
  have hne : ∀ e, endsWord e = true → (d == e) = false := fun e he =>
    beq_eq_false_iff_ne.2 fun heq => by
      rw [heq, he] at hd
      cases hd
  have hword : Scan.word (d :: (ds ++ rest)) = d :: ds := by
    rw [← List.cons_append, ← htext]
    exact word_ahead h hrest
  have hdrop : (d :: (ds ++ rest)).drop (ds.length + 1) = rest := List.drop_left
  have hother : lexicon.other? d (ds ++ rest)
      = (named? text rest).map fun (mark, more) => (mark, ds.length + more) := by
    simp only [lexicon, hne '[' rfl, hne ']' rfl, hne ',' rfl, hne '.' rfl, hword, hdrop,
      Bool.false_eq_true, if_false, List.isEmpty_cons, List.length_cons, Nat.add_sub_cancel]
    rw [← htext, String.ofList_toList]
  rw [Lexicon.next?_other _ (Bool.or_eq_false_iff.1 hd).1 (hne '(' rfl), hother, Option.map_map]
  rfl

/-- What a word starts is found with all that belongs to it. -/
theorem lexes_word {more : List Char} {m : Mark} (h : isWord text = true)
    (hrest : ∀ c ∈ (more ++ rest).head?, endsWord c = true)
    (hnamed : named? text (more ++ rest) = some (m, more.length)) :
    lexicon.Lexes (text.toList ++ more) [m] rest := by
  obtain ⟨c, cs, htext, -⟩ := word_head h
  have hnext : lexicon.next? (c :: ((cs ++ more) ++ rest))
      = some (some m, (cs ++ more).length) := by
    rw [List.append_assoc, next?_word h htext hrest, hnamed, List.length_append]
    rfl
  rw [htext]
  exact Lexicon.lexes_next hnext

theorem lexes_name (h : isName text = true) (hrest : lexicon.operandAhead rest = false) :
    lexicon.Lexes text.toList [.word text] rest := by
  obtain ⟨hword, hkey⟩ := Bool.and_eq_true_iff.1 h
  obtain ⟨hends, hcall⟩ := head_endsWord hrest
  have hnamed : named? text ([] ++ rest) = some (.word text, 0) := by
    simp only [List.contains_cons, List.contains_nil, Bool.or_false, Bool.not_eq_true',
      Bool.or_eq_false_iff] at hkey
    rw [named?, hkey.1, hkey.2, List.nil_append, beq_eq_false_iff_ne.2 hcall]
    rfl
  have hlexes : lexicon.Lexes (text.toList ++ []) [.word text] rest := lexes_word hword hends hnamed
  rwa [List.append_nil] at hlexes

theorem lexes_function (h : isName text = true) (rest : List Char) :
    lexicon.Lexes (text.toList ++ ['(']) [.call (.function text)] rest := by
  obtain ⟨hword, hkey⟩ := Bool.and_eq_true_iff.1 h
  refine lexes_word hword (by rintro c ⟨⟩; decide) ?_
  simp only [List.contains_cons, List.contains_nil, Bool.or_false, Bool.not_eq_true',
    Bool.or_eq_false_iff] at hkey
  rw [named?, hkey.1, hkey.2]
  rfl

theorem lexes_out (rest : List Char) : lexicon.Lexes ['o', 'u', 't', ' '] [.out] rest := by
  have hout : lexicon.Lexes ("out".toList ++ []) [.out] (' ' :: rest) :=
    lexes_word (by decide) (by rintro c ⟨⟩; decide) rfl
  exact hout.append (Lexicon.lexes_blank rest)

theorem isTypeChar_of_isWhitespace {c : Char} (h : c.isWhitespace = true) :
    isTypeChar c = false := by
  simp only [Char.isWhitespace, Bool.or_eq_true, decide_eq_true_eq] at h
  rcases h with ((rfl | rfl) | rfl) | rfl <;> decide

/-- The element type of a creation reaches to the bracket. -/
theorem creation_type (h : isElementType text = true) {b : Char} (hb : ['(', '['].contains b = true)
    (rest : List Char) :
    ((' ' :: text.toList ++ b :: rest).takeWhile fun c => !(['(', '['].contains c))
      = ' ' :: text.toList
      ∧ (' ' :: text.toList).dropWhile Char.isWhitespace = text.toList := by
  obtain ⟨htype, hsquare⟩ := Bool.and_eq_true_iff.1 h
  obtain ⟨hne, hall⟩ := Bool.and_eq_true_iff.1 htype
  refine ⟨?_, ?_⟩
  · have hnone : ∀ c ∈ ' ' :: text.toList, (!(['(', '['].contains c)) = true := by
      intro c hc
      rcases List.mem_cons.1 hc with rfl | hc
      · decide
      · have htypeChar := List.all_eq_true.1 hall c hc
        rw [Bool.not_eq_true'] at hsquare ⊢
        refine Bool.eq_false_iff.2 fun hbracket => ?_
        simp only [List.contains_cons, List.contains_nil, Bool.or_false, Bool.or_eq_true,
          beq_iff_eq] at hbracket
        rcases hbracket with rfl | rfl
        · exact absurd htypeChar (by decide)
        · rw [List.contains_iff_mem.2 hc] at hsquare
          cases hsquare
    rw [List.takeWhile_append_of_pos hnone, List.takeWhile_cons_of_neg (by rw [hb]; decide),
      List.append_nil]
  · rw [List.dropWhile_cons_of_pos (by decide)]
    cases htext : text.toList with
    | nil => rfl
    | cons c cs =>
      rw [htext] at hall
      refine List.dropWhile_cons_of_neg fun hw => ?_
      have hc := (Bool.and_eq_true_iff.1 (List.all_cons ▸ hall)).1
      rw [isTypeChar_of_isWhitespace hw] at hc
      cases hc

theorem creation?_type (h : isElementType text = true) (rest : List Char) :
    creation? (' ' :: text.toList ++ '(' :: rest)
        = some (.call (.creation text), (' ' :: text.toList ++ ['(']).length)
      ∧ creation? (' ' :: text.toList ++ '[' :: rest)
        = some (.array text, (' ' :: text.toList ++ ['[']).length) := by
  have htype := (Bool.and_eq_true_iff.1 h).1
  refine ⟨?_, ?_⟩
  · obtain ⟨htake, hdrop⟩ := creation_type h (show ['(', '['].contains '(' = true by decide) rest
    unfold creation?
    rw [htake]
    dsimp only
    rw [hdrop, String.ofList_toList, List.drop_left, List.length_append]
    exact if_pos htype
  · obtain ⟨htake, hdrop⟩ := creation_type h (show ['(', '['].contains '[' = true by decide) rest
    unfold creation?
    rw [htake]
    dsimp only
    rw [hdrop, String.ofList_toList, List.drop_left, List.length_append]
    exact if_pos htype

theorem lexes_creation (h : isElementType text = true) (rest : List Char) :
    lexicon.Lexes ("new".toList ++ (' ' :: text.toList ++ ['('])) [.call (.creation text)]
      rest := by
  refine lexes_word (by decide) (by rintro c ⟨⟩; decide) ?_
  rw [List.append_assoc]
  exact (creation?_type h rest).1

theorem lexes_array (h : isElementType text = true) (rest : List Char) :
    lexicon.Lexes ("new".toList ++ (' ' :: text.toList ++ ['['])) [.array text] rest := by
  refine lexes_word (by decide) (by rintro c ⟨⟩; decide) ?_
  rw [List.append_assoc]
  exact (creation?_type h rest).2

theorem access?_word (h : isWord text = true) (hrest : ∀ c ∈ rest.head?, endsWord c = true) :
    access? (text.toList ++ rest)
      = if rest.head? == some '(' then some (.send text, text.toList.length + 1)
        else some (.dot text, text.toList.length) := by
  have hne : text.toList.isEmpty = false := by
    simpa using (Bool.and_eq_true_iff.1 h).1
  unfold access?
  rw [word_ahead h hrest]
  dsimp only
  rw [hne, List.drop_left, String.ofList_toList]
  rfl

theorem lexes_dot (h : isWord text = true) (hrest : lexicon.operandAhead rest = false) :
    lexicon.Lexes ('.' :: text.toList) [.dot text] rest := by
  obtain ⟨hends, hcall⟩ := head_endsWord hrest
  refine Lexicon.lexes_next (u := some (Mark.dot text)) ?_
  show (access? (text.toList ++ rest)).map _ = _
  rw [access?_word h hends, beq_eq_false_iff_ne.2 hcall]
  rfl

theorem lexes_send (h : isWord text = true) (rest : List Char) :
    lexicon.Lexes ('.' :: (text.toList ++ ['('])) [.send text] rest := by
  refine Lexicon.lexes_next (u := some (Mark.send text)) ?_
  show (access? (text.toList ++ ['('] ++ rest)).map _ = _
  rw [List.append_assoc, access?_word h (by rintro c ⟨⟩; decide), List.length_append]
  rfl

end Mark

namespace Phrase

open RegisterMap.Code.Lexicon (lexes_unit lexes_blank lexes_nil)

/-- The text of an operand lexes as its marks where no operand follows, and
that of arguments with what comes in front of another one. -/
def Read : {s : Part} → Phrase s → Prop
  | .operand, e => Mark.lexicon.Splits e.chars e.marks
  | .arguments, a =>
    (∀ rest, Mark.lexicon.Lexes (a.chars ++ a.commaChars) (a.marks ++ a.comma) rest)
    ∧ Mark.lexicon.Splits a.chars a.marks

theorem lexes_lead {label : Option String} (h : label.all isName = true) (out : Bool)
    (rest : List Char) : Mark.lexicon.Lexes (leadChars label out) (lead label out) rest := by
  have hout : Mark.lexicon.Lexes (if out then ['o', 'u', 't', ' '] else [])
      (if out then [.out] else []) rest := by
    cases out with
    | true => exact Mark.lexes_out rest
    | false => exact lexes_nil rest
  cases label with
  | none => exact hout
  | some name =>
    have hname : ∀ cs, Mark.lexicon.Lexes name.toList [.word name] (':' :: cs) := fun cs =>
      Mark.lexes_name h rfl
    exact ((hname _).append ((lexes_unit rfl).append (lexes_blank _))).append hout

/-- The text of a phrase lexes as the phrase. -/
theorem read_of_isLegible {p : Phrase s} (h : p.isLegible = true) : p.Read := by
  induction p with
  | word text => exact fun rest hrest => Mark.lexes_name h hrest
  | binary op l r ihl ihr =>
    obtain ⟨hl, hr⟩ := Bool.and_eq_true_iff.1 h
    exact (ihl hl).binary (ihr hr) op
  | cond c a b ihc iha ihb =>
    simp only [isLegible, Bool.and_eq_true] at h
    exact (ihc h.1.1).cond (iha h.1.2) (ihb h.2)
  | cast type e ih =>
    obtain ⟨htype, he⟩ := Bool.and_eq_true_iff.1 h
    exact (ih he).cast htype (operandAhead_chars he)
  | paren e ih => exact (ih h).paren (shielded_chars (p := e) h)
  | member e name ih =>
    obtain ⟨he, hname⟩ := Bool.and_eq_true_iff.1 h
    intro rest hrest
    exact (ih he _ rfl).append (Mark.lexes_dot hname hrest)
  | item e i ihe ihi =>
    simp only [isLegible, Bool.and_eq_true] at h
    intro rest hrest
    exact (ihe h.1.1 _ rfl).append ((lexes_unit rfl).append
      ((ihi h.1.2 _ rfl).append (lexes_unit rfl)))
  | array type n ih =>
    obtain ⟨htype, hn⟩ := Bool.and_eq_true_iff.1 h
    intro rest hrest
    show Mark.lexicon.Lexes (('n' :: 'e' :: 'w' :: ' ' :: type.toList) ++ '[' :: (n.chars ++ [']']))
      ([.array type] ++ (n.marks ++ [.unbracket])) rest
    rw [List.append_cons]
    exact (Mark.lexes_array htype _).append ((ih hn _ rfl).append (lexes_unit rfl))
  | call callee args ih =>
    obtain ⟨hcallee, ha⟩ := Bool.and_eq_true_iff.1 h
    intro rest hrest
    have hargs : Mark.lexicon.Lexes (args.chars ++ [')']) (args.marks ++ [.closing]) rest :=
      ((ih ha).2 _ rfl).append (lexes_unit rfl)
    rw [chars, List.append_cons]
    cases callee with
    | function name => exact (Mark.lexes_function hcallee _).append hargs
    | creation type => exact (Mark.lexes_creation hcallee _).append hargs
  | send e name args ihe iha =>
    simp only [isLegible, Bool.and_eq_true] at h
    intro rest hrest
    have hargs : Mark.lexicon.Lexes (args.chars ++ [')']) (args.marks ++ [.closing]) rest :=
      ((iha h.2).2 _ rfl).append (lexes_unit rfl)
    rw [chars, List.append_cons name.toList]
    exact (ihe h.1.1 _ rfl).append ((Mark.lexes_send h.1.2 _).append hargs)
  | none => exact ⟨lexes_nil, fun rest _ => lexes_nil rest⟩
  | more init label out e ihi ihe =>
    simp only [isLegible, Bool.and_eq_true] at h
    have hvalue : Mark.lexicon.Splits (more init label out e).chars
        (more init label out e).marks := fun rest hrest => by
      have hinit := (ihi h.1.1).1 (leadChars label out ++ e.chars ++ rest)
      have hall := hinit.append ((lexes_lead h.1.2 out _).append (ihe h.2 rest hrest))
      rwa [List.append_assoc, List.append_assoc] at hall
    refine ⟨fun rest => ?_, hvalue⟩
    exact (hvalue _ rfl).append ((lexes_unit rfl).append (lexes_blank _))

/-- The text spells the phrase: its marks are those of the phrase, which
obeys the grammar. -/
def Reads (text : String) (g : Phrase .operand) : Prop :=
  g.Proper ∧ Mark.lexicon.lex text.toList = some g.marks

theorem lex_legible {e : Phrase .operand} (h : e.isLegible = true) {text : String}
    (htext : text.toList = e.chars) : Mark.lexicon.lex text.toList = some e.marks := by
  rw [htext]
  exact Lexicon.Splits.lex_eq (read_of_isLegible h)

end Phrase

end RegisterMap.Code
