/-
What the parentheses of precedence are worth. `Expression.ordered` puts
them in, and no operand lacks any then (`neat_ordered`). So the lexemes of
the result spell exactly one expression, and it is the one meant, up to
regrouping, unless a run is mixed (`spells_ordered`).
-/
import RegisterMap.Proofs.Syntax.Grammar
import RegisterMap.Proofs.Syntax.Spelling

namespace RegisterMap.Code

namespace Expression

variable {op o : Operator} {e : Expression}

/-- In parentheses, if asked for. -/
def wrapped (e : Expression) (wraps : Bool) : Expression := if wraps then .paren e else e

/-- The parentheses that precedence calls for. -/
def ordered : Expression → Expression
  | .atom text => .atom text
  | .binary op l r =>
    .binary op (l.ordered.wrapped (l.tier < op.tier)) (r.ordered.wrapped !(r.phrase.fits op))
  | .cond c a b => .cond (c.ordered.wrapped (c.tier ≤ condTier)) a.ordered b.ordered
  | .cast type e => .cast type (e.ordered.wrapped (e.tier < atomTier))
  | .paren e => .paren e.ordered

/-- Where an operand is left bare because it continues a run, it does so
down to the start of its text. -/
def unmixed (e : Expression) : Bool := e.phrase.unmixed

@[simp] theorem bare_wrapped (e : Expression) (w : Bool) : (e.wrapped w).bare = e.bare := by
  cases w <;> rfl

@[simp] theorem phrase_wrapped (e : Expression) (w : Bool) :
    (e.wrapped w).phrase = e.phrase.wrapped w := by
  cases w <;> rfl

@[simp] theorem tier_ordered (e : Expression) : e.ordered.tier = e.tier := by
  cases e <;> rfl

@[simp] theorem tier_phrase_ordered (e : Expression) : e.ordered.phrase.tier = e.phrase.tier := by
  cases e <;> rfl

@[simp] theorem operator?_ordered (e : Expression) :
    e.ordered.phrase.operator? = e.phrase.operator? := by
  cases e <;> rfl

theorem fits_ordered (op : Operator) (e : Expression) :
    e.ordered.phrase.fits op = e.phrase.fits op := by
  unfold Phrase.fits
  rw [tier_phrase_ordered, operator?_ordered]

/-- An operand that does not fit binds weaker, or as strong without
continuing a run. -/
theorem not_fits (op : Operator) (e : Expression) : (!(e.phrase.fits op))
    = (decide (e.tier < op.tier)
        || (e.tier == op.tier && !(op.isAssociative && e.phrase.operator? == some op))) := by
  have hatom := op.tier_lt_atomTier
  have htier := e.tier_phrase
  unfold Phrase.fits
  cases hrun : op.isAssociative && e.phrase.operator? == some op with
  | true =>
    have heq := Phrase.tier_of_operator? (beq_iff_eq.1 (Bool.and_eq_true_iff.1 hrun).2)
    rw [Bool.or_true, Bool.not_true, Bool.and_false, Bool.or_false, decide_eq_false (by omega)]
  | false =>
    rw [Bool.eq_iff_iff]
    simp only [Bool.or_false, Bool.not_false, Bool.and_true, Bool.not_eq_true', Bool.or_eq_true,
      decide_eq_false_iff_not, decide_eq_true_eq, beq_iff_eq]
    omega

/-- Parentheses are all that ordering adds. -/
@[simp] theorem bare_ordered (e : Expression) : e.ordered.bare = e.bare := by
  induction e with
  | atom text => rfl
  | binary op l r ihl ihr => simp only [ordered, bare, bare_wrapped, ihl, ihr]
  | cond c a b ihc iha ihb => simp only [ordered, bare, bare_wrapped, ihc, iha, ihb]
  | cast type e ih => simp only [ordered, bare, bare_wrapped, ih]
  | paren e ih => simp only [ordered, bare, ih]

/-- An operand binds as strong as asked for, in parentheses if it does not
by itself. -/
theorem le_tier_ordered {k : Nat} (hk : k ≤ atomTier) {w : Bool} (h : w = false → k ≤ e.tier) :
    k ≤ (e.ordered.wrapped w).phrase.tier := by
  rw [phrase_wrapped]
  refine Phrase.le_tier_wrapped hk fun hw => ?_
  have hle := h hw
  rw [tier_phrase] at hle
  rw [tier_phrase_ordered]
  omega

theorem neat_ordered (e : Expression) : e.ordered.phrase.Neat := by
  induction e with
  | atom text => trivial
  | binary op l r ihl ihr =>
    refine ⟨phrase_wrapped _ _ ▸ Phrase.neat_wrapped ihl _,
      phrase_wrapped _ _ ▸ Phrase.neat_wrapped ihr _,
      le_tier_ordered (Nat.le_of_lt op.tier_lt_atomTier) fun h =>
        Nat.le_of_not_lt (of_decide_eq_false h), ?_⟩
    rw [phrase_wrapped]
    cases h : r.phrase.fits op with
    | true => exact (fits_ordered op r).trans h
    | false => exact Phrase.fits_paren op _
  | cond c a b ihc iha ihb =>
    exact ⟨phrase_wrapped _ _ ▸ Phrase.neat_wrapped ihc _, iha, ihb,
      le_tier_ordered (by decide) fun h => Nat.lt_of_not_le (of_decide_eq_false h)⟩
  | cast type e ih =>
    exact ⟨phrase_wrapped _ _ ▸ Phrase.neat_wrapped ih _,
      le_tier_ordered (Nat.le_refl _) fun h => Nat.le_of_not_lt (of_decide_eq_false h)⟩
  | paren e ih => exact ih

/-- There is no access in an expression. -/
theorem bound_phrase (e : Expression) : e.phrase.bound = true := by
  induction e <;> simp only [phrase, Phrase.bound, Bool.and_self, *]

theorem continues_ordered (op : Operator) (e : Expression) :
    e.ordered.phrase.continues op = e.phrase.continues op := by
  induction e with
  | binary o l r ihl ihr =>
    by_cases ho : o.tier = op.tier
    · show (o.tier != op.tier || (o == op && (l.ordered.wrapped _).phrase.continues op))
        = (o.tier != op.tier || (o == op && l.phrase.continues op))
      congr 2
      cases hl : decide (l.tier < o.tier) with
      | false => exact ihl
      | true =>
        have hlt := of_decide_eq_true hl
        rw [tier_phrase] at hlt
        have hatom := o.tier_lt_atomTier
        exact (Phrase.continues_of_tier_ne (by omega)).symm
    · have hne : (binary o l r).phrase.tier ≠ op.tier := ho
      rw [Phrase.continues_of_tier_ne hne,
        Phrase.continues_of_tier_ne (tier_phrase_ordered _ ▸ hne)]
  | _ => rfl

theorem unmixed_ordered (e : Expression) : e.ordered.unmixed = e.unmixed := by
  unfold unmixed
  induction e with
  | atom text => rfl
  | binary op l r ihl ihr =>
    simp only [ordered, phrase, Phrase.unmixed, phrase_wrapped, Phrase.unmixed_wrapped, ihl, ihr]
    congr 1
    cases hfits : r.phrase.fits op with
    | true =>
      show (!(op.isAssociative && r.ordered.phrase.operator? == some op)
        || r.ordered.phrase.continues op) = _
      rw [operator?_ordered, continues_ordered]
    | false =>
      -- what is wrapped continues no run, and did not before
      have hrun := (Bool.or_eq_false_iff.1 hfits).2
      rw [hrun]
      show (_ || true) = true
      rw [Bool.or_true]
  | cond c a b ihc iha ihb =>
    simp only [ordered, phrase, Phrase.unmixed, phrase_wrapped, Phrase.unmixed_wrapped, ihc, iha,
      ihb]
  | cast type e ih =>
    simp only [ordered, phrase, Phrase.unmixed, phrase_wrapped, Phrase.unmixed_wrapped, ih]
  | paren e ih => exact ih

/-- The lexemes of an ordered expression spell exactly one expression, and
it is the one meant, up to regrouping, unless a run is mixed. -/
theorem spells_ordered (e : Expression) : ∃ g, Derives condTier e.ordered.lexemes g
    ∧ (∀ d, Derives condTier e.ordered.lexemes d → d = g)
    ∧ (e.unmixed = true ↔ Regroups g.bare e.bare) := by
  obtain ⟨⟨p, hp, -⟩, -⟩ := e.neat_ordered.spells (bound_phrase _)
  obtain ⟨g, rfl, hlexemes⟩ := exists_of_marks hp.marks
  have hg : Derives condTier e.ordered.lexemes g :=
    derives_iff.2 ⟨hp.proper, hlexemes.symm, g.condTier_le_tier⟩
  refine ⟨g, hg, fun d hd => hd.unique hg, ?_⟩
  rw [← unmixed_ordered, ← bare_ordered e, Regroups, phrase_bare, phrase_bare]
  exact hp.groups.iff

end Expression

end RegisterMap.Code
