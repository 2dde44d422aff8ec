/-
Lexemes from text. An atom goes on, past brackets and quotes, to the first
character that delimits.

Main statement: the text of an expression lexes as the expression
(`Legible.splits`), wherever it ends, if its atoms and types are spelled
as such.
-/
import RegisterMap.Proofs.Syntax.Precedence
import RegisterMap.Proofs.Syntax.Units

namespace RegisterMap.Code

-- ================================================================== atoms

namespace Scan

/-- Only square brackets are open. -/
def Square (s : Scan) : Prop := s.quote = none ∧ ∀ c ∈ s.closers, c = ']'

/-- A type opens no other. -/
theorem Square.step {s s' : Scan} {c : Char} (h : s.Square) (hc : isTypeChar c = true)
    (hs : s.step c = some s') : s'.Square := by
  obtain ⟨hquote, hclosers⟩ := h
  rw [step_plain hquote (not_quote (by decide) hc), Option.map_eq_some_iff] at hs
  obtain ⟨closers, hnest, rfl⟩ := hs
  refine ⟨hquote, fun d hd => ?_⟩
  unfold nest at hnest
  split at hnest
  · next close hopen =>
    obtain rfl := Option.some_inj.1 hnest
    rcases List.mem_cons.1 hd with rfl | hd
    · rcases closer?_eq_some hopen with ⟨rfl, -⟩ | ⟨-, rfl⟩ | ⟨rfl, -⟩
      · exact absurd hc (by decide)
      · rfl
      · exact absurd hc (by decide)
    · exact hclosers d hd
  · split at hnest
    · cases hnest
    · obtain rfl := Option.some_inj.1 hnest
      cases hd
  · next close outer _ hcs =>
    rw [hcs] at hclosers
    split at hnest
    · obtain rfl := Option.some_inj.1 hnest
      exact hclosers d (List.mem_cons_of_mem _ hd)
    · split at hnest
      · cases hnest
      · obtain rfl := Option.some_inj.1 hnest
        exact hclosers d hd

theorem Square.run {s s' : Scan} {cs : List Char} (h : s.Square) (hcs : cs.all isTypeChar = true)
    (hs : cs.foldlM Scan.step s = some s') : s'.Square := by
  induction cs generalizing s with
  | nil => exact Option.some_inj.1 hs ▸ h
  | cons c cs ih =>
    rw [List.foldlM_cons] at hs
    obtain ⟨s₁, hs₁, hs⟩ := Option.bind_eq_some_iff.1 hs
    obtain ⟨hc, hcs⟩ := Bool.and_eq_true_iff.1 (List.all_cons ▸ hcs)
    exact ih (h.step hc hs₁) hcs hs

/-- There a closing parenthesis is not read. -/
theorem Square.step_closing {s : Scan} (h : s.Square) : s.step ')' = none := by
  obtain ⟨hquote, hclosers⟩ := h
  rw [step_plain hquote (by decide)]
  cases hcs : s.closers with
  | nil => rfl
  | cons close outer =>
    rw [hcs] at hclosers
    rw [hclosers close (List.mem_cons_self ..)]
    rfl

end Scan

/-- The text is a single atom: one name, literal, access or call. -/
def isPrimary (text : String) : Bool :=
  text.toList.head?.any (· != '(') && text.toList.foldlM Scan.step {} == some {}

/-- The lexicon of expressions. -/
def Lexeme.lexicon : Lexicon Lexeme where
  unit := id
  ends := isDelimiter
  other? c cs :=
    if isDelimiter c then none
    else
      let text := Scan.upTo Scan.step {} (c :: cs)
      some (.atom (String.ofList text), text.length - 1)
  ends_of_isDelimiter _ h := h
  ends_opening := rfl

/-- The first character of an atom does not delimit and is no
parenthesis. -/
theorem primary_head {text : String} (h : isPrimary text = true) :
    ∃ c cs, text.toList = c :: cs ∧ isDelimiter c = false ∧ (c == '(') = false := by
  obtain ⟨hhead, hscan⟩ := Bool.and_eq_true_iff.1 h
  cases htext : text.toList with
  | nil =>
    rw [htext] at hhead
    cases hhead
  | cons c cs =>
    rw [htext] at hhead hscan
    refine ⟨c, cs, rfl, Bool.eq_false_iff.2 fun hc => ?_, by simpa using hhead⟩
    rw [beq_iff_eq, List.foldlM_cons, Scan.step_delimiter hc] at hscan
    cases hscan

/-- What an atom closes, it has opened. -/
theorem shielded_primary {text : String} (h : isPrimary text = true) : Shielded text.toList := by
  intro before rest heq
  have hscan := beq_iff_eq.1 (Bool.and_eq_true_iff.1 h).2
  rw [heq, List.foldlM_append] at hscan
  obtain ⟨s, hs, hrest⟩ := Option.bind_eq_some_iff.1 hscan
  rw [List.foldlM_cons] at hrest
  obtain ⟨s', hs', -⟩ := Option.bind_eq_some_iff.1 hrest
  refine Bool.eq_false_iff.2 fun hall => ?_
  have hstart : ({} : Scan).Square := ⟨rfl, fun _ hc => nomatch hc⟩
  rw [(hstart.run hall hs).step_closing] at hs'
  cases hs'

/-- An atom is read as a whole. -/
theorem splits_primary {text : String} (h : isPrimary text = true) :
    Lexeme.lexicon.Splits text.toList [.atom text] := by
  obtain ⟨c, cs, htext, hc, hopen⟩ := primary_head h
  intro rest hrest
  have hread : Scan.upTo Scan.step {} (c :: (cs ++ rest)) = c :: cs := by
    rw [← List.cons_append, ← htext]
    exact Scan.upTo_append (beq_iff_eq.1 (Bool.and_eq_true_iff.1 h).2) fun d hd =>
      Scan.step_delimiter (Lexeme.lexicon.ends_of_head hrest d hd)
  have hother : Lexeme.lexicon.other? c (cs ++ rest) = some (.atom text, cs.length) := by
    show (if isDelimiter c then none else some (Lexeme.atom (String.ofList _), _)) = _
    rw [hc, hread, ← htext, String.ofList_toList, htext]
    rfl
  rw [htext]
  refine Lexicon.lexes_next (u := some (Lexeme.atom text)) ?_
  rw [Lexicon.next?_other _ hc hopen, hother]
  rfl

-- ============================================================ expressions

namespace Expression

/-- Atoms and types are spelled as such. -/
def Legible : Expression → Prop
  | .atom text => isPrimary text = true
  | .binary _ l r => l.Legible ∧ r.Legible
  | .cond c a b => c.Legible ∧ a.Legible ∧ b.Legible
  | .cast type e => isTypeName type = true ∧ e.Legible
  | .paren e => e.Legible

instance decidableLegible : (e : Expression) → Decidable e.Legible
  | .atom text => inferInstanceAs (Decidable (isPrimary text = true))
  | .binary _ l r =>
    haveI := decidableLegible l
    haveI := decidableLegible r
    inferInstanceAs (Decidable (l.Legible ∧ r.Legible))
  | .cond c a b =>
    haveI := decidableLegible c
    haveI := decidableLegible a
    haveI := decidableLegible b
    inferInstanceAs (Decidable (c.Legible ∧ a.Legible ∧ b.Legible))
  | .cast type e =>
    haveI := decidableLegible e
    inferInstanceAs (Decidable (isTypeName type = true ∧ e.Legible))
  | .paren e => decidableLegible e

theorem legible_wrapped {e : Expression} (h : e.Legible) (p : Bool) : (e.wrapped p).Legible := by
  cases p <;> exact h

theorem legible_ordered {e : Expression} (h : e.Legible) : e.ordered.Legible := by
  induction e with
  | atom text => exact h
  | binary op l r ihl ihr => exact ⟨legible_wrapped (ihl h.1) _, legible_wrapped (ihr h.2) _⟩
  | cond c a b ihc iha ihb => exact ⟨legible_wrapped (ihc h.1) _, iha h.2.1, ihb h.2.2⟩
  | cast type e ih => exact ⟨h.1, legible_wrapped (ih h.2) _⟩
  | paren e ih => exact ih h

namespace Legible

variable {e : Expression}

theorem shielded (h : e.Legible) : Shielded e.phrase.chars := by
  induction e with
  | atom text => exact shielded_primary h
  | binary op l r ihl ihr => exact (ihl h.1).append rfl (by decide) _
  | cond c a b ihc iha ihb => exact (ihc h.1).append rfl (by decide) _
  | cast type e ih => exact shielded_opening _
  | paren e ih => exact shielded_opening _

/-- The text of an expression starts an operand. -/
theorem operandAhead (h : e.Legible) (rest : List Char) :
    Lexeme.lexicon.operandAhead (e.phrase.chars ++ rest) = true := by
  induction e generalizing rest with
  | atom text =>
    obtain ⟨c, cs, htext, hc, -⟩ := primary_head h
    rw [phrase, Phrase.chars, htext]
    exact Lexicon.operandAhead_of_not_ends _ hc _
  | binary op l r ihl ihr =>
    rw [phrase, Phrase.chars, List.append_assoc]
    exact ihl h.1 _
  | cond c a b ihc iha ihb =>
    rw [phrase, Phrase.chars, List.append_assoc]
    exact ihc h.1 _
  | cast | paren => exact Lexicon.operandAhead_of_not_ends _ (Lexicon.ends_opening _) _

/-- The text of an expression lexes as the expression. -/
theorem splits (h : e.Legible) : Lexeme.lexicon.Splits e.phrase.chars e.lexemes := by
  induction e with
  | atom text => exact splits_primary h
  | binary op l r ihl ihr => exact (ihl h.1).binary (ihr h.2) op
  | cond c a b ihc iha ihb => exact (ihc h.1).cond (iha h.2.1) (ihb h.2.2)
  | cast type e ih => exact (ih h.2).cast h.1 h.2.operandAhead
  | paren e ih => exact (ih h).paren (shielded (e := e) h)

end Legible

/-- The text spells the expression. -/
def Reads (text : String) (e : Expression) : Prop :=
  ∃ ls, Lexeme.lexicon.lex text.toList = some ls ∧ Derives condTier ls e

theorem Legible.reads_iff {e d : Expression} (h : e.Legible) {text : String}
    (htext : text.toList = e.phrase.chars) : Reads text d ↔ Derives condTier e.lexemes d := by
  unfold Reads
  rw [htext, h.splits.lex_eq]
  constructor
  · rintro ⟨ls, hls, hd⟩
    obtain rfl := Option.some_inj.1 hls
    exact hd
  · exact fun hd => ⟨_, rfl, hd⟩

end Expression

end RegisterMap.Code
