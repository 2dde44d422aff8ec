/-
What the marks of a phrase spell. An operand that is left bare on the right
of an operator because it continues a run of it, `a + (b + c)`, starts
within the run, and takes part in it as far down its left side as operators
of the same strength stand bare. While these are the same operator the run
is regrouped and nothing else. If another one is among them, as in
`a + ((b - c) + d)`, that operator gets the run so far for its left
operand: the phrase is another one. `unmixed` singles out the first case.

Main statement: a phrase in which no operand lacks parentheses and no
access is to an operation is spelled by its marks, up to what its mixed
runs do (`Neat.spells`), and that is a regrouping if and only if none is
mixed (`Groups.iff`).

# The measure

That a mixed run really spells something else is seen by counting. The
`weight` of a phrase counts the words to the left of every operator that
is not associative. Regrouping leaves it alone, and an operator that is
given a longer left operand adds to it.
-/
import RegisterMap.Proofs.Syntax.Phrase

namespace RegisterMap.Code

namespace Phrase

variable {s : Part} {op o : Operator} {e l r : Phrase .operand}

-- ============================================================ receivers

/-- Operators and casts. -/
def isOperation : Phrase s → Bool
  | .binary .. | .cond .. | .cast .. => true
  | _ => false

/-- No access is to an operation. -/
def bound {s : Part} : Phrase s → Bool
  | .word _ | .none => true
  | .binary _ l r => l.bound && r.bound
  | .cond c a b => c.bound && a.bound && b.bound
  | .cast _ e | .paren e => e.bound
  | .member e _ => e.bound && !e.isOperation
  | .item e i => e.bound && !e.isOperation && i.bound
  | .array _ n => n.bound
  | .call _ args => args.bound
  | .send e _ args => e.bound && !e.isOperation && args.bound
  | .more init _ _ e => init.bound && e.bound

theorem isOperation_iff (e : Phrase .operand) : e.isOperation = true ↔ e.tier < arrayTier := by
  cases e with
  | binary op l r => exact iff_of_true rfl (Nat.lt_succ_of_lt op.tier_lt_atomTier)
  | cond | cast => exact iff_of_true rfl (Nat.le_of_ble_eq_true rfl)
  | _ => exact iff_of_false nofun (Nat.not_lt_of_le (Nat.le_of_ble_eq_true rfl))

theorem isOperation_eq_false_iff (e : Phrase .operand) :
    e.isOperation = false ↔ arrayTier ≤ e.tier := by
  rw [← Bool.not_eq_true, isOperation_iff, Nat.not_lt]

/-- What obeys the grammar has no access to an operation. -/
theorem Proper.bound {p : Phrase s} (h : p.Proper) : p.bound = true := by
  have receiver : ∀ {e : Phrase .operand}, arrayTier ≤ e.tier → (!e.isOperation) = true :=
    fun {e} he => by rw [e.isOperation_eq_false_iff.2 he]; rfl
  induction p with
  | word text => rfl
  | none => rfl
  | binary op l r ihl ihr => exact Bool.and_eq_true_iff.2 ⟨ihl h.1, ihr h.2.1⟩
  | cond c a b ihc iha ihb =>
    exact Bool.and_eq_true_iff.2
      ⟨Bool.and_eq_true_iff.2 ⟨ihc h.1, iha h.2.1⟩, ihb h.2.2.1⟩
  | cast type e ih => exact ih h.1
  | paren e ih => exact ih h
  | member e name ih => exact Bool.and_eq_true_iff.2 ⟨ih h.1, receiver h.2⟩
  | item e i ihe ihi =>
    exact Bool.and_eq_true_iff.2 ⟨Bool.and_eq_true_iff.2
      ⟨ihe h.1, receiver (Nat.le_of_succ_le h.2.2)⟩, ihi h.2.1⟩
  | array type n ih => exact ih h
  | call callee args ih => exact ih h
  | send e name args ihe iha =>
    exact Bool.and_eq_true_iff.2
      ⟨Bool.and_eq_true_iff.2 ⟨ihe h.1, receiver h.2.2⟩, iha h.2.1⟩
  | more init label out e ihi ihe => exact Bool.and_eq_true_iff.2 ⟨ihi h.1, ihe h.2⟩

def isArray : Phrase s → Bool
  | .array .. => true
  | _ => false

/-- What is no operation binds as strong as a primary, unless it is a new
array. -/
theorem primaryTier_le_tier (hop : e.isOperation = false) (harray : e.isArray = false) :
    primaryTier ≤ e.tier := by
  cases e with
  | binary | cond | cast => cases hop
  | array => cases harray
  | _ => exact Nat.le_refl _

-- ============================================================= operands

/-- The binary operator on top. -/
def operator? : Phrase s → Option Operator
  | .binary op _ _ => some op
  | _ => Option.none

/-- The phrase may stand to the right of the operator as it is: it binds
stronger, or continues a run. -/
def fits (op : Operator) (e : Phrase .operand) : Bool :=
  decide (op.tier < e.tier) || (op.isAssociative && e.operator? == some op)

/-- No operand is bare that precedence keeps from standing where it does,
receivers apart. -/
def Neat {s : Part} : Phrase s → Prop
  | .word _ | .none => True
  | .binary op l r => l.Neat ∧ r.Neat ∧ op.tier ≤ l.tier ∧ r.fits op = true
  | .cond c a b => c.Neat ∧ a.Neat ∧ b.Neat ∧ condTier < c.tier
  | .cast _ e => e.Neat ∧ atomTier ≤ e.tier
  | .paren e | .member e _ => e.Neat
  | .item e i => e.Neat ∧ i.Neat ∧ e.isArray = false
  | .array _ n => n.Neat
  | .call _ args => args.Neat
  | .send e _ args => e.Neat ∧ args.Neat
  | .more init _ _ e => init.Neat ∧ e.Neat

/-- Down the left side of the phrase, as long as it is bare and binds as
strong as `op`, there is no operator but `op`. -/
def continues (op : Operator) {s : Part} : Phrase s → Bool
  | .binary o l _ => o.tier != op.tier || (o == op && l.continues op)
  | _ => true

/-- Where an operand is left bare because it continues a run, it does so
down to the start of its text. -/
def unmixed {s : Part} : Phrase s → Bool
  | .word _ | .none => true
  | .binary op l r =>
    l.unmixed && r.unmixed && (!(op.isAssociative && r.operator? == some op) || r.continues op)
  | .cond c a b => c.unmixed && a.unmixed && b.unmixed
  | .cast _ e | .paren e | .member e _ => e.unmixed
  | .item e i => e.unmixed && i.unmixed
  | .array _ n => n.unmixed
  | .call _ args => args.unmixed
  | .send e _ args => e.unmixed && args.unmixed
  | .more init _ _ e => init.unmixed && e.unmixed

theorem tier_of_operator? (h : e.operator? = some op) : e.tier = op.tier := by
  cases e with
  | binary o l r => exact congrArg Operator.tier (Option.some_inj.1 h)
  | _ => cases h

/-- An operand of another strength has no part in the run. -/
theorem continues_of_tier_ne (h : e.tier ≠ op.tier) : e.continues op = true := by
  cases e with
  | binary o l r => exact Bool.or_eq_true_iff.2 (Or.inl (bne_iff_ne.2 h))
  | _ => rfl

/-- What an operand that fits adds to a mixture. -/
theorem unmixed_operand (h : r.fits op = true) :
    (!(op.isAssociative && r.operator? == some op) || r.continues op) = r.continues op := by
  rcases Bool.or_eq_true_iff.1 h with hlt | hrun
  · rw [continues_of_tier_ne (Nat.ne_of_gt (of_decide_eq_true hlt)), Bool.or_true]
  · rw [hrun]
    rfl

theorem fits_cases (h : r.fits op = true) :
    (op.isAssociative = true ∨ op.tier < r.tier) ∧ op.tier ≤ r.tier := by
  rcases Bool.or_eq_true_iff.1 h with hlt | hrun
  · have := of_decide_eq_true hlt
    exact ⟨Or.inr this, Nat.le_of_lt this⟩
  · obtain ⟨hop, hr⟩ := Bool.and_eq_true_iff.1 hrun
    exact ⟨Or.inl hop, Nat.le_of_eq (tier_of_operator? (beq_iff_eq.1 hr)).symm⟩

-- ========================================================== parentheses

/-- In parentheses, if asked for. -/
def wrapped (e : Phrase .operand) (wraps : Bool) : Phrase .operand :=
  if wraps then .paren e else e

@[simp] theorem bare_wrapped (e : Phrase .operand) (w : Bool) : (e.wrapped w).bare = e.bare := by
  cases w <;> rfl

@[simp] theorem bound_wrapped (e : Phrase .operand) (w : Bool) :
    (e.wrapped w).bound = e.bound := by
  cases w <;> rfl

@[simp] theorem unmixed_wrapped (e : Phrase .operand) (w : Bool) :
    (e.wrapped w).unmixed = e.unmixed := by
  cases w <;> rfl

theorem neat_wrapped (h : e.Neat) (w : Bool) : (e.wrapped w).Neat := by
  cases w <;> exact h

theorem fits_paren (op : Operator) (e : Phrase .operand) : (paren e).fits op = true :=
  Bool.or_eq_true_iff.2 (Or.inl (decide_eq_true
    (Nat.lt_of_lt_of_le op.tier_lt_atomTier (Nat.le_of_ble_eq_true rfl))))

/-- A wrapped operand binds as strong as asked for, if one that is left
bare does. -/
theorem le_tier_wrapped {k : Nat} {w : Bool} (hk : k ≤ atomTier) (h : w = false → k ≤ e.tier) :
    k ≤ (e.wrapped w).tier := by
  cases w with
  | false => exact h rfl
  | true => exact Nat.le_trans hk (Nat.le_of_ble_eq_true rfl)

-- ============================================================= counting

/-- The number of words, names that are called and casts. -/
def bulk {s : Part} : Phrase s → Nat
  | .word _ => 1
  | .binary _ l r => l.bulk + r.bulk
  | .cond c a b => c.bulk + a.bulk + b.bulk
  | .cast _ e => 1 + e.bulk
  | .paren e | .member e _ => e.bulk
  | .item e i => e.bulk + i.bulk
  | .array _ n => 1 + n.bulk
  | .call _ args => 1 + args.bulk
  | .send e _ args => e.bulk + args.bulk
  | .none => 0
  | .more init label _ e => init.bulk + label.elim 0 (fun _ => 1) + e.bulk

/-- For each operator that is not associative the bulk of what stands to
the left of it. -/
def weight {s : Part} : Phrase s → Nat
  | .word _ | .none => 0
  | .binary op l r => l.weight + r.weight + if op.isAssociative then 0 else l.bulk
  | .cond c a b => c.weight + a.weight + b.weight
  | .cast _ e | .paren e | .member e _ => e.weight
  | .item e i => e.weight + i.weight
  | .array _ n => n.weight
  | .call _ args => args.weight
  | .send e _ args => e.weight + args.weight
  | .more init _ _ e => init.weight + e.weight

theorem bulk_bare (p : Phrase s) : p.bare.bulk = p.bulk := by
  induction p <;> simp_all only [bare, bulk]

theorem weight_bare (p : Phrase s) : p.bare.weight = p.weight := by
  induction p <;> simp_all only [bare, weight, bulk_bare]

theorem bulk_pos (e : Phrase .operand) : 0 < e.bulk := by
  suffices h : ∀ {s : Part} (p : Phrase s), s = .operand → 0 < p.bulk from h e rfl
  intro s p hs
  induction p with
  | none | more => cases hs
  | word => exact Nat.one_pos
  | binary op l r ihl _ => exact Nat.add_pos_left (ihl rfl) _
  | cond c a b ihc _ _ => exact Nat.add_pos_left (Nat.add_pos_left (ihc rfl) _) _
  | cast | array | call => exact Nat.add_pos_left Nat.one_pos _
  | paren e ih => exact ih rfl
  | member e name ih => exact ih rfl
  | item e i ihe _ => exact Nat.add_pos_left (ihe rfl) _
  | send e name args ihe _ => exact Nat.add_pos_left (ihe rfl) _

/-- Regrouping is not seen by the count. -/
theorem Regroups.count_eq {d e : Phrase s} (h : Regroups d e) :
    d.bulk = e.bulk ∧ d.weight = e.weight := by
  induction h with
  | refl e => exact ⟨rfl, rfl⟩
  | symm _ ih => exact ⟨ih.1.symm, ih.2.symm⟩
  | trans _ _ ih₁ ih₂ => exact ⟨ih₁.1.trans ih₂.1, ih₁.2.trans ih₂.2⟩
  | regroup a b c hop =>
    refine ⟨Nat.add_assoc .., ?_⟩
    simp only [weight, hop, if_true, Nat.add_zero, Nat.add_assoc]
  | _ => simp_all only [bulk, weight, and_self]

-- ============================================================== groupings

/-- What is spelled for a phrase: it is the phrase regrouped if nothing is
mixed, and a different one otherwise. -/
structure Groups (ok : Bool) (g e : Phrase s) : Prop where
  bulk : g.bulk = e.bulk
  weight : e.weight ≤ g.weight
  regroups : ok = true → Regroups g.bare e.bare
  differs : ok = false → e.weight < g.weight

namespace Groups

variable {a b c : Bool} {s' s'' : Part} {g d : Phrase s} {g' d' : Phrase s'} {p q f : Phrase s''}

theorem refl (p : Phrase s) : Groups true p p := ⟨rfl, Nat.le_refl _, fun _ => .refl _, nofun⟩

theorem trans (h : Groups a p q) (h' : Groups b q f) : Groups (a && b) p f where
  bulk := h.bulk.trans h'.bulk
  weight := Nat.le_trans h'.weight h.weight
  regroups hab :=
    (h.regroups (Bool.and_eq_true_iff.1 hab).1).trans (h'.regroups (Bool.and_eq_true_iff.1 hab).2)
  differs hab := by
    rcases Bool.and_eq_false_iff.1 hab with ha | hb
    · exact Nat.lt_of_le_of_lt h'.weight (h.differs ha)
    · exact Nat.lt_of_lt_of_le (h'.differs hb) h.weight

/-- What becomes of a part becomes of the whole, if the whole counts the
part once. -/
theorem within (h : Groups a g d) (hbulk : p.bulk = q.bulk)
    (hweight : p.weight + d.weight = q.weight + g.weight)
    (hregroups : Regroups g.bare d.bare → Regroups p.bare q.bare) : Groups a p q where
  bulk := hbulk
  weight := by
    have := h.weight
    omega
  regroups ha := hregroups (h.regroups ha)
  differs ha := by
    have := h.differs ha
    omega

/-- The same for two parts. -/
theorem both (h : Groups a g d) (h' : Groups b g' d') (hbulk : p.bulk = q.bulk)
    (hweight : p.weight + (d.weight + d'.weight) = q.weight + (g.weight + g'.weight))
    (hregroups : Regroups g.bare d.bare → Regroups g'.bare d'.bare → Regroups p.bare q.bare) :
    Groups (a && b) p q where
  bulk := hbulk
  weight := by
    have := h.weight
    have := h'.weight
    omega
  regroups hab := hregroups (h.regroups (Bool.and_eq_true_iff.1 hab).1)
    (h'.regroups (Bool.and_eq_true_iff.1 hab).2)
  differs hab := by
    have hle := h.weight
    have hle' := h'.weight
    rcases Bool.and_eq_false_iff.1 hab with ha | hb
    · have := h.differs ha
      omega
    · have := h'.differs hb
      omega

section

variable {g₁ g₂ g₃ e₁ e₂ e₃ : Phrase .operand} {gs es : Phrase .arguments}

theorem left (h : Groups a g₁ e₁) (op : Operator) (r : Phrase .operand) :
    Groups a (.binary op g₁ r) (.binary op e₁ r) := by
  refine h.within (congrArg (· + r.bulk) h.bulk) ?_ fun hr => .binary op hr (.refl _)
  simp only [Phrase.weight, h.bulk]
  omega

theorem right (h : Groups a g₁ e₁) (op : Operator) (l : Phrase .operand) :
    Groups a (.binary op l g₁) (.binary op l e₁) := by
  refine h.within (congrArg (l.bulk + ·) h.bulk) ?_ fun hr => .binary op (.refl _) hr
  simp only [Phrase.weight]
  omega

theorem cond (h₁ : Groups a g₁ e₁) (h₂ : Groups b g₂ e₂) (h₃ : Groups c g₃ e₃) :
    Groups (a && b && c) (.cond g₁ g₂ g₃) (.cond e₁ e₂ e₃) := by
  have first : Groups (a && b) (.cond g₁ g₂ g₃) (.cond e₁ e₂ g₃) :=
    h₁.both h₂ (by simp only [Phrase.bulk, h₁.bulk, h₂.bulk])
      (by simp only [Phrase.weight]; omega) fun hr hr' => .cond hr hr' (.refl _)
  have second : Groups c (.cond e₁ e₂ g₃) (.cond e₁ e₂ e₃) :=
    h₃.within (by simp only [Phrase.bulk, h₃.bulk]) (by simp only [Phrase.weight]; omega)
      fun hr => .cond (.refl _) (.refl _) hr
  exact first.trans second

theorem item (h₁ : Groups a g₁ e₁) (h₂ : Groups b g₂ e₂) :
    Groups (a && b) (.item g₁ g₂) (.item e₁ e₂) :=
  h₁.both h₂ (by simp only [Phrase.bulk, h₁.bulk, h₂.bulk]) (Nat.add_comm ..) .item

theorem send (h : Groups a g₁ e₁) (h' : Groups b gs es) (name : String) :
    Groups (a && b) (.send g₁ name gs) (.send e₁ name es) :=
  h.both h' (by simp only [Phrase.bulk, h.bulk, h'.bulk]) (Nat.add_comm ..) (.send name)

theorem more (h : Groups a gs es) (h' : Groups b g₁ e₁) (label : Option String) (out : Bool) :
    Groups (a && b) (.more gs label out g₁) (.more es label out e₁) :=
  h.both h' (by simp only [Phrase.bulk, h.bulk, h'.bulk]) (Nat.add_comm ..) (.more label out)

end

/-- Operators of one strength, one of them associative: the left one takes
over the operand between them. -/
theorem rotate (hop : op.isAssociative = true) (ho : o.tier = op.tier) (x y z : Phrase .operand) :
    Groups (o == op) (.binary o (.binary op x y) z) (.binary op x (.binary o y z)) := by
  have hsame : o ≠ op → o.isAssociative = false := by
    intro hne
    revert hop ho hne
    cases o <;> cases op <;> decide
  refine ⟨Nat.add_assoc .., ?_, fun h => ?_, fun h => ?_⟩
  · simp only [Phrase.weight, Phrase.bulk, hop, if_true]
    split <;> omega
  · obtain rfl := beq_iff_eq.1 h
    exact .regroup _ _ _ hop
  · have := x.bulk_pos
    simp only [Phrase.weight, Phrase.bulk, hop, hsame (beq_eq_false_iff_ne.1 h), if_true,
      Bool.false_eq_true, if_false]
    omega

/-- Whether nothing is mixed is whether the phrase is regrouped. -/
theorem iff (h : Groups a g d) : a = true ↔ Regroups g.bare d.bare := by
  refine ⟨h.regroups, fun hr => ?_⟩
  cases a with
  | true => rfl
  | false =>
    have hweight := hr.count_eq.2
    rw [weight_bare, weight_bare] at hweight
    exact absurd hweight (Nat.ne_of_gt (h.differs rfl))

end Groups

-- ======================================================= what is spelled

/-- The phrase `g` obeys the grammar, has the marks and groups what is
meant. -/
structure SpelledAs (ok : Bool) (ms : List Mark) (meant g : Phrase s) : Prop where
  proper : g.Proper
  marks : g.marks = ms
  groups : Groups ok g meant

/-- To the right of an operator the marks of an operand spell the operation
with it. -/
def SpellsAfter (e : Phrase .operand) : Prop :=
  ∀ (op : Operator) (l : Phrase .operand), l.Proper → op.tier ≤ l.tier →
    (op.isAssociative = true ∨ op.tier < e.tier) → op.tier ≤ e.tier →
    ∃ g, SpelledAs (e.unmixed && e.continues op) (l.marks ++ .operator op :: e.marks)
      (.binary op l e) g ∧ op.tier ≤ g.tier

/-- The marks of a phrase spell it, on their own and to the right of an
operator. -/
def Spells : {s : Part} → Phrase s → Prop
  | .operand, e => (∃ g, SpelledAs e.unmixed e.marks e g ∧ e.tier ≤ g.tier) ∧ e.SpellsAfter
  | .arguments, a => ∃ g, SpelledAs a.unmixed a.marks a g ∧ g.comma = a.comma

/-- What binds stronger than the operator is read as a whole. -/
theorem SpelledAs.after {g : Phrase .operand} (h : SpelledAs e.unmixed e.marks e g)
    (hl : l.Proper) (hle : op.tier ≤ l.tier) (hlt : op.tier < e.tier) (hge : e.tier ≤ g.tier) :
    ∃ g, SpelledAs (e.unmixed && e.continues op) (l.marks ++ .operator op :: e.marks)
      (.binary op l e) g ∧ op.tier ≤ g.tier := by
  refine ⟨.binary op l g, ⟨⟨hl, h.proper, hle, Nat.lt_of_lt_of_le hlt hge⟩,
    congrArg (l.marks ++ .operator op :: ·) h.marks, ?_⟩, Nat.le_refl _⟩
  rw [continues_of_tier_ne (Nat.ne_of_gt hlt), Bool.and_true]
  exact h.groups.right op l

theorem SpelledAs.spells {g : Phrase .operand} (h : SpelledAs e.unmixed e.marks e g)
    (hge : e.tier ≤ g.tier) (he : atomTier ≤ e.tier) : e.Spells :=
  ⟨⟨g, h, hge⟩, fun op _ hl hle _ _ =>
    h.after hl hle (Nat.lt_of_lt_of_le op.tier_lt_atomTier he) hge⟩

/-- An operation whose right operand fits is spelled by its marks. To the
right of an operator of the same strength its left side goes on with the
run there. -/
theorem spells_binary (hl : l.Spells) (hr : r.SpellsAfter) (hle : o.tier ≤ l.tier)
    (hfits : r.fits o = true) : (binary o l r).Spells := by
  obtain ⟨⟨gl, hgl, hglle⟩, hlafter⟩ := hl
  obtain ⟨hassoc, hrle⟩ := fits_cases hfits
  have hunmixed : (binary o l r).unmixed = (r.unmixed && r.continues o && l.unmixed) := by
    rw [unmixed, unmixed_operand hfits, Bool.and_assoc, Bool.and_comm]
  obtain ⟨g, hg, hgle⟩ := hr o gl hgl.proper (Nat.le_trans hle hglle) hassoc hrle
  have hs : SpelledAs (binary o l r).unmixed (binary o l r).marks (binary o l r) g :=
    ⟨hg.proper, hg.marks.trans (by rw [hgl.marks]; rfl),
      hunmixed ▸ hg.groups.trans (hgl.groups.left o r)⟩
  refine ⟨⟨g, hs, hgle⟩, fun op before hbefore hbeforele hassoc' hole => ?_⟩
  rcases Nat.lt_or_eq_of_le hole with hlt | heq
  · exact hs.after hbefore hbeforele hlt hgle
  replace heq : o.tier = op.tier := heq.symm
  have hop : op.isAssociative = true := hassoc'.resolve_right fun hlt => Nat.ne_of_gt hlt heq
  obtain ⟨g₁, hg₁, hg₁le⟩ := hlafter op before hbefore hbeforele (Or.inl hop) (heq ▸ hle)
  obtain ⟨g₂, hg₂, hg₂le⟩ := hr o g₁ hg₁.proper (heq ▸ hg₁le) hassoc hrle
  refine ⟨g₂, ⟨hg₂.proper, ?_, ?_⟩, heq ▸ hg₂le⟩
  · rw [hg₂.marks, hg₁.marks, List.append_assoc]
    rfl
  · have hcontinues : (binary o l r).continues op = (o == op && l.continues op) := by
      rw [continues, heq, bne_self_eq_false, Bool.false_or]
    have hall := (hg₂.groups.trans (hg₁.groups.left o r)).trans (Groups.rotate hop heq before l r)
    rw [hunmixed, hcontinues]
    rwa [show (r.unmixed && r.continues o && (l.unmixed && l.continues op) && o == op)
      = (r.unmixed && r.continues o && l.unmixed && (o == op && l.continues op)) by ac_rfl] at hall

/-- A neat phrase is spelled by its marks, up to what its mixed runs do,
unless there is an access to an operation. The induction carries what
happens to the right of an operator: there the marks start within a run. -/
theorem Neat.spells {p : Phrase s} (h : p.Neat) (hbound : p.bound = true) : p.Spells := by
  induction p with
  | word text =>
    have hs : SpelledAs (word text).unmixed (word text).marks (word text) (word text) :=
      ⟨trivial, rfl, .refl _⟩
    exact hs.spells (Nat.le_refl _) (Nat.le_of_ble_eq_true rfl)
  | binary o x y ihx ihy =>
    obtain ⟨hx, hy, hle, hfits⟩ := h
    obtain ⟨hboundx, hboundy⟩ := Bool.and_eq_true_iff.1 hbound
    exact spells_binary (ihx hx hboundx) (ihy hy hboundy).2 hle hfits
  | cond c a b ihc iha ihb =>
    obtain ⟨hc, ha, hb, hlt⟩ := h
    simp only [bound, Bool.and_eq_true] at hbound
    obtain ⟨⟨gc, hgc, hcle⟩, -⟩ := ihc hc hbound.1.1
    obtain ⟨⟨ga, hga, -⟩, -⟩ := iha ha hbound.1.2
    obtain ⟨⟨gb, hgb, -⟩, -⟩ := ihb hb hbound.2
    refine ⟨⟨.cond gc ga gb, ⟨⟨hgc.proper, hga.proper, hgb.proper, Nat.lt_of_lt_of_le hlt hcle⟩,
      ?_, hgc.groups.cond hga.groups hgb.groups⟩, Nat.le_refl _⟩, ?_⟩
    · rw [marks, hgc.marks, hga.marks, hgb.marks]
      rfl
    · exact fun op _ _ _ _ hle => absurd op.condTier_lt_tier (Nat.not_lt_of_le hle)
  | cast type e ih =>
    obtain ⟨⟨g, hg, hle⟩, -⟩ := ih h.1 hbound
    have hs : SpelledAs (cast type e).unmixed (cast type e).marks (cast type e) (cast type g) :=
      ⟨⟨hg.proper, Nat.le_trans h.2 hle⟩, by rw [marks, hg.marks, marks],
        hg.groups.within (congrArg (1 + ·) hg.groups.bulk) (Nat.add_comm ..) (.cast type)⟩
    exact hs.spells (Nat.le_refl _) (Nat.le_refl _)
  | paren e ih =>
    obtain ⟨⟨g, hg, -⟩, -⟩ := ih h hbound
    have hs : SpelledAs (paren e).unmixed (paren e).marks (paren e) (paren g) :=
      ⟨hg.proper, by rw [marks, hg.marks, marks],
        hg.groups.within hg.groups.bulk (Nat.add_comm ..) id⟩
    exact hs.spells (Nat.le_refl _) (Nat.le_of_ble_eq_true rfl)
  | member e name ih =>
    simp only [bound, Bool.and_eq_true, Bool.not_eq_true', isOperation_eq_false_iff] at hbound
    obtain ⟨⟨g, hg, hle⟩, -⟩ := ih h hbound.1
    have hs : SpelledAs (member e name).unmixed (member e name).marks (member e name)
        (member g name) :=
      ⟨⟨hg.proper, Nat.le_trans hbound.2 hle⟩, by rw [marks, hg.marks, marks],
        hg.groups.within hg.groups.bulk (Nat.add_comm ..) (.member name)⟩
    exact hs.spells (Nat.le_refl _) (Nat.le_of_ble_eq_true rfl)
  | item e i ihe ihi =>
    obtain ⟨he, hi, harray⟩ := h
    simp only [bound, Bool.and_eq_true, Bool.not_eq_true'] at hbound
    obtain ⟨⟨ge, hge, hle⟩, -⟩ := ihe he hbound.1.1
    obtain ⟨⟨gi, hgi, -⟩, -⟩ := ihi hi hbound.2
    have hs : SpelledAs (item e i).unmixed (item e i).marks (item e i) (item ge gi) := by
      refine ⟨⟨hge.proper, hgi.proper,
        Nat.le_trans (primaryTier_le_tier hbound.1.2 harray) hle⟩, ?_, hge.groups.item hgi.groups⟩
      rw [marks, hge.marks, hgi.marks]
      rfl
    exact hs.spells (Nat.le_refl _) (Nat.le_of_ble_eq_true rfl)
  | array type n ih =>
    obtain ⟨⟨g, hg, -⟩, -⟩ := ih h hbound
    have hs : SpelledAs (array type n).unmixed (array type n).marks (array type n)
        (array type g) :=
      ⟨hg.proper, by rw [marks, hg.marks, marks],
        hg.groups.within (congrArg (1 + ·) hg.groups.bulk) (Nat.add_comm ..) (.array type)⟩
    exact hs.spells (Nat.le_refl _) (Nat.le_of_ble_eq_true rfl)
  | call callee args ih =>
    obtain ⟨g, hg, -⟩ := ih h hbound
    have hs : SpelledAs (call callee args).unmixed (call callee args).marks (call callee args)
        (call callee g) :=
      ⟨hg.proper, by rw [marks, hg.marks, marks],
        hg.groups.within (congrArg (1 + ·) hg.groups.bulk) (Nat.add_comm ..) (.call callee)⟩
    exact hs.spells (Nat.le_refl _) (Nat.le_of_ble_eq_true rfl)
  | send e name args ihe iha =>
    simp only [bound, Bool.and_eq_true, Bool.not_eq_true', isOperation_eq_false_iff] at hbound
    obtain ⟨⟨ge, hge, hle⟩, -⟩ := ihe h.1 hbound.1.1
    obtain ⟨ga, hga, -⟩ := iha h.2 hbound.2
    have hs : SpelledAs (send e name args).unmixed (send e name args).marks (send e name args)
        (send ge name ga) := by
      refine ⟨⟨hge.proper, hga.proper, Nat.le_trans hbound.1.2 hle⟩, ?_,
        hge.groups.send hga.groups name⟩
      rw [marks, hge.marks, hga.marks]
      rfl
    exact hs.spells (Nat.le_refl _) (Nat.le_of_ble_eq_true rfl)
  | none => exact ⟨.none, ⟨trivial, rfl, .refl _⟩, rfl⟩
  | more init label out e ihi ihe =>
    obtain ⟨hboundi, hbounde⟩ := Bool.and_eq_true_iff.1 hbound
    obtain ⟨gi, hgi, hcomma⟩ := ihi h.1 hboundi
    obtain ⟨⟨ge, hge, -⟩, -⟩ := ihe h.2 hbounde
    refine ⟨.more gi label out ge, ⟨⟨hgi.proper, hge.proper⟩, ?_,
      hgi.groups.more hge.groups label out⟩, rfl⟩
    rw [marks, hgi.marks, hge.marks, hcomma]
    rfl

end Phrase

end RegisterMap.Code
