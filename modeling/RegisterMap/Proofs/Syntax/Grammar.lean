/-
The grammar of expressions. `Derives k` says which expression a row of
lexemes spells at binding strength `k`: binary operators group to the
left, the conditional to the right, and a cast applies to a single
operand. An expression is a phrase without accesses and calls, and what it
is derived from are the marks of that phrase, which is proper
(`derives_iff`). So a row spells one expression only (`Derives.unique`).

An associative operator may be grouped either way; `Regroups` is equality
up to that.
-/
import RegisterMap.Proofs.Syntax.Phrase

namespace RegisterMap.Code

/-- An expression. What operators stand between is opaque here: an atom is
its text, a type its name. -/
inductive Expression where
  | atom (text : String)
  | binary (op : Operator) (lhs rhs : Expression)
  | cond (condition consequent alternative : Expression)
  | cast (type : String) (operand : Expression)
  | paren (inner : Expression)
  deriving DecidableEq, Repr

namespace Expression

/-- Binding strength of the outermost node. -/
def tier : Expression → Nat
  | .binary op .. => op.tier
  | .cond .. => condTier
  | _ => atomTier

/-- The expression without its parentheses. -/
def bare : Expression → Expression
  | .atom text => .atom text
  | .binary op l r => .binary op l.bare r.bare
  | .cond c a b => .cond c.bare a.bare b.bare
  | .cast type e => .cast type e.bare
  | .paren e => e.bare

/-- The expression as a phrase: atoms are words. -/
def phrase : Expression → Phrase .operand
  | .atom text => .word text
  | .binary op l r => .binary op l.phrase r.phrase
  | .cond c a b => .cond c.phrase a.phrase b.phrase
  | .cast type e => .cast type e.phrase
  | .paren e => .paren e.phrase

/-- The expressions differ in the grouping of runs of one associative
operator. -/
def Regroups (d e : Expression) : Prop := d.phrase.Regroups e.phrase

theorem condTier_le_tier (e : Expression) : condTier ≤ e.tier := by
  cases e with
  | binary op l r => exact Nat.le_of_lt op.condTier_lt_tier
  | cond c a b => exact Nat.le_refl _
  | _ => exact Nat.le_of_ble_eq_true rfl

/-- As a phrase the expression binds as strong, up to the strength of an
atom. -/
theorem tier_phrase (e : Expression) : e.tier = min e.phrase.tier atomTier := by
  cases e with
  | binary op l r => exact (Nat.min_eq_left (Nat.le_of_lt op.tier_lt_atomTier)).symm
  | _ => rfl

theorem phrase_bare (e : Expression) : e.bare.phrase = e.phrase.bare := by
  induction e <;> simp only [bare, phrase, Phrase.bare, *]

theorem phrase_injective {d e : Expression} (h : d.phrase = e.phrase) : d = e := by
  induction d generalizing e <;> cases e <;> grind [phrase]

end Expression

/-- The units of the grammar. -/
inductive Lexeme where
  | atom (text : String)
  | operator (op : Operator)
  | question
  | colon
  | opening
  | closing
  /-- A type in parentheses in front of an operand. -/
  | castTo (type : String)
  deriving DecidableEq, Repr

/-- The lexemes spell the expression, which binds at least as strong as
the number says. -/
inductive Derives : Nat → List Lexeme → Expression → Prop
  | atom (text) : Derives atomTier [.atom text] (.atom text)
  | paren {ls e} : Derives condTier ls e →
    Derives atomTier (.opening :: (ls ++ [.closing])) (.paren e)
  | cast (type) {ls e} : Derives atomTier ls e →
    Derives atomTier (.castTo type :: ls) (.cast type e)
  | binary (op) {ls rs l r} : Derives op.tier ls l → Derives (op.tier + 1) rs r →
    Derives op.tier (ls ++ .operator op :: rs) (.binary op l r)
  | cond {cs as bs c a b} : Derives (condTier + 1) cs c → Derives condTier as a →
    Derives condTier bs b →
    Derives condTier (cs ++ .question :: (as ++ .colon :: bs)) (.cond c a b)
  | loosen {j k ls e} : j ≤ k → Derives k ls e → Derives j ls e

-- =============================================================== phrases

/-- The lexeme as a mark of phrases. -/
def Lexeme.mark : Lexeme → Mark
  | .atom text => .word text
  | .operator op => .operator op
  | .question => .question
  | .colon => .colon
  | .opening => .opening
  | .closing => .closing
  | .castTo type => .castTo type

/-- The mark is that of a lexeme. -/
def Mark.isLexeme : Mark → Bool
  | .word _ | .operator _ | .question | .colon | .opening | .closing | .castTo _ => true
  | _ => false

namespace Expression

/-- The lexemes of an expression as it stands. -/
def lexemes : Expression → List Lexeme
  | .atom text => [.atom text]
  | .binary op l r => l.lexemes ++ .operator op :: r.lexemes
  | .cond c a b => c.lexemes ++ .question :: (a.lexemes ++ .colon :: b.lexemes)
  | .cast type e => .castTo type :: e.lexemes
  | .paren e => .opening :: (e.lexemes ++ [.closing])

theorem marks_phrase (e : Expression) : e.phrase.marks = e.lexemes.map Lexeme.mark := by
  induction e <;> simp only [phrase, Phrase.marks, lexemes, List.map_append, List.map_cons,
    List.map_nil, Lexeme.mark, *]

/-- The operand is an expression. -/
def Renders : {s : Part} → Phrase s → Prop
  | .operand, p => ∃ e : Expression, e.phrase = p
  | .arguments, _ => True

/-- Accesses and calls have marks that are no lexemes. -/
theorem renders_of_marks {s : Part} {p : Phrase s} (h : p.marks.all Mark.isLexeme = true) :
    Renders p := by
  induction p with
  | word text => exact ⟨.atom text, rfl⟩
  | binary op l r ihl ihr =>
    simp only [Phrase.marks, List.all_append, List.all_cons, Bool.and_eq_true] at h
    obtain ⟨l, rfl⟩ := ihl h.1
    obtain ⟨r, rfl⟩ := ihr h.2.2
    exact ⟨.binary op l r, rfl⟩
  | cond c a b ihc iha ihb =>
    simp only [Phrase.marks, List.all_append, List.all_cons, Bool.and_eq_true] at h
    obtain ⟨c, rfl⟩ := ihc h.1
    obtain ⟨a, rfl⟩ := iha h.2.2.1
    obtain ⟨b, rfl⟩ := ihb h.2.2.2.2
    exact ⟨.cond c a b, rfl⟩
  | cast type e ih =>
    obtain ⟨e, rfl⟩ := ih (Bool.and_eq_true_iff.1 h).2
    exact ⟨.cast type e, rfl⟩
  | paren e ih =>
    simp only [Phrase.marks, List.all_append, List.all_cons, Bool.and_eq_true] at h
    obtain ⟨e, rfl⟩ := ih h.2.1
    exact ⟨.paren e, rfl⟩
  | member | item | array | call | send => simp [Phrase.marks, Mark.isLexeme] at h
  | none | more => trivial

/-- A phrase with the marks of an expression is one, of the same lexemes. -/
theorem exists_of_marks {p : Phrase .operand} {e : Expression} (h : p.marks = e.phrase.marks) :
    ∃ d : Expression, d.phrase = p ∧ d.lexemes = e.lexemes := by
  have hall : p.marks.all Mark.isLexeme = true := by
    rw [h, marks_phrase, List.all_map]
    exact List.all_eq_true.2 fun l _ => by cases l <;> rfl
  obtain ⟨d, rfl⟩ := renders_of_marks hall
  rw [marks_phrase, marks_phrase] at h
  refine ⟨d, rfl, (List.map_inj_right fun l l' hl => ?_).1 h⟩
  cases l <;> cases l' <;> cases hl <;> rfl

end Expression

/-- What is derived is a proper phrase, and its marks. -/
theorem derives_iff {k : Nat} {ls : List Lexeme} {e : Expression} :
    Derives k ls e ↔ e.phrase.Proper ∧ ls = e.lexemes ∧ k ≤ e.tier := by
  constructor
  · intro h
    induction h with
    | atom text => exact ⟨trivial, rfl, Nat.le_refl _⟩
    | paren _ ih => exact ⟨ih.1, by rw [ih.2.1]; rfl, Nat.le_refl _⟩
    | cast type _ ih =>
      obtain ⟨hproper, rfl, hle⟩ := ih
      exact ⟨⟨hproper, by rw [Expression.tier_phrase] at hle; omega⟩, rfl, Nat.le_refl _⟩
    | binary op _ _ ihl ihr =>
      obtain ⟨hl, rfl, hle⟩ := ihl
      obtain ⟨hr, rfl, hlt⟩ := ihr
      rw [Expression.tier_phrase] at hle hlt
      exact ⟨⟨hl, hr, by omega, by omega⟩, rfl, Nat.le_refl _⟩
    | cond _ _ _ ihc iha ihb =>
      obtain ⟨hc, rfl, hlt⟩ := ihc
      obtain ⟨ha, rfl, -⟩ := iha
      obtain ⟨hb, rfl, -⟩ := ihb
      rw [Expression.tier_phrase] at hlt
      exact ⟨⟨hc, ha, hb, by omega⟩, rfl, Nat.le_refl _⟩
    | loosen hjk _ ih => exact ⟨ih.1, ih.2.1, Nat.le_trans hjk ih.2.2⟩
  · rintro ⟨hproper, rfl, hk⟩
    refine .loosen hk ?_
    clear hk
    induction e with
    | atom text => exact .atom text
    | binary op l r ihl ihr =>
      obtain ⟨hl, hr, hle, hlt⟩ := hproper
      have hop := op.tier_lt_atomTier
      exact .binary op (.loosen (by rw [Expression.tier_phrase]; omega) (ihl hl))
        (.loosen (by rw [Expression.tier_phrase]; omega) (ihr hr))
    | cond c a b ihc iha ihb =>
      obtain ⟨hc, ha, hb, hlt⟩ := hproper
      have hcond : condTier < atomTier := by decide
      exact .cond (.loosen (by rw [Expression.tier_phrase]; omega) (ihc hc))
        (.loosen a.condTier_le_tier (iha ha)) (.loosen b.condTier_le_tier (ihb hb))
    | cast type e ih =>
      obtain ⟨he, hle⟩ := hproper
      exact .cast type (.loosen (by rw [Expression.tier_phrase]; omega) (ih he))
    | paren e ih => exact .paren (.loosen e.condTier_le_tier (ih hproper))

/-- A row of lexemes spells at most one expression. -/
theorem Derives.unique {j k : Nat} {ls : List Lexeme} {d e : Expression} (hd : Derives j ls d)
    (he : Derives k ls e) : d = e := by
  obtain ⟨hd, hls, -⟩ := derives_iff.1 hd
  obtain ⟨he, hls', -⟩ := derives_iff.1 he
  refine Expression.phrase_injective (hd.unique he ?_)
  rw [Expression.marks_phrase, Expression.marks_phrase, ← hls, hls']

end RegisterMap.Code
