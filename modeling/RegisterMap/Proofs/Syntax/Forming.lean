/-
What the passes do to phrases in the arena. Reduced code is a phrase
again (`Forms.reduced`), ordering it puts parentheses around operands of
operations (`Forms.parenthesized`), and publishing leaves it alone
(`Forms.published`). Where no operand lacks parentheses the phrase is neat
(`Forms.neat`). The parentheses change neither what is accessed nor what
the phrase is without them (`Encloses`): the passes wrap operands, and an
object is none.
-/
import RegisterMap.Proofs.Syntax.Marking
import RegisterMap.Proofs.Syntax.Emission
import RegisterMap.Proofs.Code.Settling

namespace RegisterMap.Code

-- =========================================================== parentheses

namespace Phrase

variable {s : Part} {op : Operator}

/-- The second phrase is the first, with parentheses around some operands of
operations. -/
inductive Encloses : {s : Part} → Phrase s → Phrase s → Prop
  | word (text) : Encloses (.word text) (.word text)
  | binary (op p q) {l l' r r'} : Encloses l l' → Encloses r r' →
    Encloses (.binary op l r) (.binary op (l'.wrapped p) (r'.wrapped q))
  | cond (p q r) {c c' a a' b b'} : Encloses c c' → Encloses a a' → Encloses b b' →
    Encloses (.cond c a b) (.cond (c'.wrapped p) (a'.wrapped q) (b'.wrapped r))
  | cast (type p) {e e'} : Encloses e e' → Encloses (.cast type e) (.cast type (e'.wrapped p))
  | paren {e e'} : Encloses e e' → Encloses (.paren e) (.paren e')
  | member (name) {e e'} : Encloses e e' → Encloses (.member e name) (.member e' name)
  | item {e e' i i'} : Encloses e e' → Encloses i i' → Encloses (.item e i) (.item e' i')
  | array (type) {n n'} : Encloses n n' → Encloses (.array type n) (.array type n')
  | call (callee) {a a'} : Encloses a a' → Encloses (.call callee a) (.call callee a')
  | send (name) {e e' a a'} : Encloses e e' → Encloses a a' →
    Encloses (.send e name a) (.send e' name a')
  | none : Encloses .none .none
  | more (label out) {i i' e e'} : Encloses i i' → Encloses e e' →
    Encloses (.more i label out e) (.more i' label out e')

variable {p q : Phrase s}

@[simp] theorem isLegible_wrapped (e : Phrase .operand) (w : Bool) :
    (e.wrapped w).isLegible = e.isLegible := by
  cases w <;> rfl

theorem continues_wrapped (e : Phrase .operand) (w : Bool) (h : e.continues op = true) :
    (e.wrapped w).continues op = true := by
  cases w
  · exact h
  · rfl

/-- Only an operand that is left bare continues a run. -/
theorem operator?_wrapped (e : Phrase .operand) (w : Bool)
    (h : (e.wrapped w).operator? = some op) : e.operator? = some op := by
  cases w
  · exact h
  · cases h

theorem Encloses.bare_eq (h : Encloses p q) : q.bare = p.bare := by
  induction h <;> simp only [bare, bare_wrapped, *]

theorem Encloses.isOperation_eq (h : Encloses p q) : q.isOperation = p.isOperation := by
  cases h <;> rfl

theorem Encloses.isArray_eq (h : Encloses p q) : q.isArray = p.isArray := by
  cases h <;> rfl

theorem Encloses.operator?_eq (h : Encloses p q) : q.operator? = p.operator? := by
  cases h <;> rfl

/-- Objects stay as bare as they are. -/
theorem Encloses.bound_eq (h : Encloses p q) : q.bound = p.bound := by
  induction h with
  | member _ he ih | item he _ ih | send _ he _ ih =>
    simp only [bound, he.isOperation_eq, *]
  | _ => simp only [bound, bound_wrapped, *]

theorem Encloses.isLegible_eq (h : Encloses p q) : q.isLegible = p.isLegible := by
  induction h with
  | item he _ ih ihi => simp only [isLegible, he.isArray_eq, ih, ihi]
  | _ => simp only [isLegible, isLegible_wrapped, *]

theorem Encloses.continues (h : Encloses p q) (hp : p.continues op = true) :
    q.continues op = true := by
  induction h with
  | binary o w _ _ _ ihl =>
    rcases Bool.or_eq_true_iff.1 hp with htier | hrun
    · exact Bool.or_eq_true_iff.2 (Or.inl htier)
    · obtain ⟨ho, hl⟩ := Bool.and_eq_true_iff.1 hrun
      exact Bool.or_eq_true_iff.2 (Or.inr (Bool.and_eq_true_iff.2
        ⟨ho, continues_wrapped _ w (ihl hl)⟩))
  | _ => exact hp

/-- Parentheses mix no run. -/
theorem Encloses.unmixed (h : Encloses p q) (hp : p.unmixed = true) : q.unmixed = true := by
  induction h with
  | word | none => rfl
  | binary op w w' _ hr ihl ihr =>
    simp only [Phrase.unmixed, Bool.and_eq_true, unmixed_wrapped] at hp ⊢
    refine ⟨⟨ihl hp.1.1, ihr hp.1.2⟩, ?_⟩
    rw [Bool.or_eq_true_iff, Bool.not_eq_true'] at hp ⊢
    rcases hp.2 with hrun | hcontinues
    · refine Or.inl (Bool.eq_false_iff.2 fun hc => Bool.eq_false_iff.1 hrun ?_)
      obtain ⟨hassoc, hop⟩ := Bool.and_eq_true_iff.1 hc
      exact Bool.and_eq_true_iff.2 ⟨hassoc, beq_iff_eq.2
        (hr.operator?_eq ▸ operator?_wrapped _ w' (beq_iff_eq.1 hop))⟩
    · exact Or.inr (continues_wrapped _ w' (hr.continues hcontinues))
  | cond _ _ _ _ _ _ ihc iha ihb =>
    simp only [Phrase.unmixed, Bool.and_eq_true, unmixed_wrapped] at hp ⊢
    exact ⟨⟨ihc hp.1.1, iha hp.1.2⟩, ihb hp.2⟩
  | cast _ _ _ ih =>
    simp only [Phrase.unmixed, unmixed_wrapped] at hp ⊢
    exact ih hp
  | paren _ ih | member _ _ ih | array _ _ ih | call _ _ ih => exact ih hp
  | item _ _ ihe ihi =>
    obtain ⟨he, hi⟩ := Bool.and_eq_true_iff.1 hp
    exact Bool.and_eq_true_iff.2 ⟨ihe he, ihi hi⟩
  | send _ _ _ ihe iha =>
    obtain ⟨he, ha⟩ := Bool.and_eq_true_iff.1 hp
    exact Bool.and_eq_true_iff.2 ⟨ihe he, iha ha⟩
  | more _ _ _ _ ihi ihe =>
    obtain ⟨hi, he⟩ := Bool.and_eq_true_iff.1 hp
    exact Bool.and_eq_true_iff.2 ⟨ihi hi, ihe he⟩

end Phrase

-- =============================================================== phrases

namespace Term

variable {name : NodeId → String} {may : Notes → Prop} {s : Part} {xs : List Shape}
  {x y : Shape} {op : Operator} {e l r : Phrase .operand}

-- ================================================================ fences

/-- To the left of an operator stands what binds as strong. -/
theorem Forms.le_tier (h : Forms name may [x] l) {type : TypeRef} {inOpen : Bool}
    (hwraps : (Kind.binary op type).wraps inOpen x.kind = false) : op.tier ≤ l.tier := by
  have hloose : Edit.isLooser (.binary op type) x.kind = false := (Bool.or_eq_false_iff.1 hwraps).1
  have hatom := Nat.le_of_lt op.tier_lt_atomTier
  cases h with
  | @binary o => exact Nat.le_of_not_lt (of_decide_eq_false hloose)
  | cond => exact Nat.le_of_not_lt (of_decide_eq_false hloose)
  | cast => exact hatom
  | _ => exact Nat.le_trans hatom (Nat.le_of_ble_eq_true rfl)

/-- To the right of an operator stands what fits. -/
theorem Forms.fits (h : Forms name may [x] r) {type : TypeRef}
    (hwraps : (Kind.binary op type).wraps true x.kind = false) : r.fits op = true := by
  have hle := h.le_tier hwraps
  have hregrouped : Edit.isRegrouped (.binary op type) x.kind = false :=
    (Bool.or_eq_false_iff.1 hwraps).2
  refine Bool.or_eq_true_iff.2 ?_
  rcases Nat.lt_or_eq_of_le hle with hlt | heq
  · exact Or.inl (decide_eq_true hlt)
  refine Or.inr ?_
  cases h with
  | @binary o =>
    have hsame : (true && o.tier == op.tier && !(op == o && op.isAssociative)) = false :=
      hregrouped
    rw [beq_iff_eq.2 (show o.tier = op.tier from heq.symm), Bool.true_and, Bool.true_and,
      Bool.not_eq_false', Bool.and_eq_true_iff, beq_iff_eq] at hsame
    obtain ⟨rfl, hassoc⟩ := hsame
    rw [hassoc, Bool.true_and]
    exact beq_self_eq_true (some op)
  | cond => exact absurd heq (Nat.ne_of_gt op.condTier_lt_tier)
  | cast => exact absurd heq (Nat.ne_of_lt op.tier_lt_atomTier)
  | _ =>
    exact absurd heq (Nat.ne_of_lt
      (Nat.lt_of_lt_of_le op.tier_lt_atomTier (Nat.le_of_ble_eq_true rfl)))

theorem Forms.condTier_lt_tier (h : Forms name may [x] e) {type : TypeRef}
    (hwraps : (Kind.cond type).wraps true x.kind = false) : condTier < e.tier := by
  have hregrouped : Edit.isRegrouped (.cond type) x.kind = false :=
    (Bool.or_eq_false_iff.1 hwraps).2
  cases h with
  | @binary o => exact o.condTier_lt_tier
  | cond => cases hregrouped
  | _ => exact Nat.le_of_ble_eq_true rfl

theorem Forms.atomTier_le_tier (h : Forms name may [x] e) {type : TypeRef}
    (hwraps : (Kind.cast type).wraps true x.kind = false) : atomTier ≤ e.tier := by
  cases h with
  | binary | cond => cases hwraps
  | _ => exact Nat.le_of_ble_eq_true rfl

/-- Where no operand lacks parentheses, none is bare that precedence keeps
from standing where it does. -/
theorem Forms.neat {p : Phrase s} (h : Forms name may xs p) (hlegible : p.isLegible = true)
    (hfenced : ∀ x ∈ xs, x.All Fenced) : p.Neat := by
  have inside : ∀ {kind notes slots}, (∀ x ∈ [Term.node () kind notes slots], x.All Fenced) →
      (Term.node () kind notes slots).Fenced ∧ ∀ c ∈ slots, ∀ y ∈ c, y.All Fenced := fun h =>
    have hall := h _ (List.mem_singleton_self _)
    ⟨hall.top, hall.inside rfl⟩
  induction h with
  | word => trivial
  | none => trivial
  | binary _ hx hy ihx ihy =>
    obtain ⟨hl, hr⟩ := Bool.and_eq_true_iff.1 hlegible
    obtain ⟨htop, hin⟩ := inside hfenced
    obtain ⟨x, rfl⟩ := hx.exists_eq
    obtain ⟨y, rfl⟩ := hy.exists_eq
    refine ⟨ihx hl (hin _ (List.mem_cons_self ..)),
      ihy hr (hin _ (List.mem_cons_of_mem _ (List.mem_cons_self ..))), hx.le_tier
        (htop.inner _ (List.mem_cons_self ..) x (List.mem_cons_self ..)), hy.fits
        (htop.outer .rhs y [] rfl (List.mem_cons_of_mem _ (List.mem_cons_self ..)))⟩
  | cond _ hx _ _ ihx ihy ihz =>
    simp only [Phrase.isLegible, Bool.and_eq_true] at hlegible
    obtain ⟨htop, hin⟩ := inside hfenced
    obtain ⟨x, rfl⟩ := hx.exists_eq
    exact ⟨ihx hlegible.1.1 (hin _ (by simp)), ihy hlegible.1.2 (hin _ (by simp)),
      ihz hlegible.2 (hin _ (by simp)),
      hx.condTier_lt_tier (htop.outer .condition x [] rfl (List.mem_cons_self ..))⟩
  | cast _ hx ihx =>
    obtain ⟨-, he⟩ := Bool.and_eq_true_iff.1 hlegible
    obtain ⟨htop, hin⟩ := inside hfenced
    obtain ⟨x, rfl⟩ := hx.exists_eq
    exact ⟨ihx he (hin _ (List.mem_cons_self ..)),
      hx.atomTier_le_tier (htop.outer .expr x [] rfl (List.mem_cons_self ..))⟩
  | paren _ _ ihx => exact ihx hlegible ((inside hfenced).2 _ (List.mem_cons_self ..))
  | member _ _ ihx =>
    exact ihx (Bool.and_eq_true_iff.1 hlegible).1 ((inside hfenced).2 _ (List.mem_cons_self ..))
  | item _ _ _ ihx ihy =>
    simp only [Phrase.isLegible, Bool.and_eq_true, Bool.not_eq_true'] at hlegible
    have hin := (inside hfenced).2
    exact ⟨ihx hlegible.1.1 (hin _ (by simp)), ihy hlegible.1.2 (hin _ (by simp)), hlegible.2⟩
  | array _ _ ihx | function _ _ ihx | creation _ _ ihx =>
    exact ihx (Bool.and_eq_true_iff.1 hlegible).2 ((inside hfenced).2 _ (by simp))
  | send _ _ _ ihx ihy =>
    simp only [Phrase.isLegible, Bool.and_eq_true] at hlegible
    have hin := (inside hfenced).2
    exact ⟨ihx hlegible.1.1 (hin _ (by simp)), ihy hlegible.2 (hin _ (by simp))⟩
  | more _ _ _ ihx ihy =>
    simp only [Phrase.isLegible, Bool.and_eq_true] at hlegible
    have hlast := (inside fun x hx => hfenced x (List.mem_append_right _ hx)).2
    exact ⟨ihx hlegible.1.1 fun x hx => hfenced x (List.mem_append_left _ hx),
      ihy hlegible.2 (hlast _ (List.mem_cons_self ..))⟩
-- ============================================================ the passes

theorem flatMap_reduced {kind : Kind} (h : kind.isBinary = false) (notes : Notes)
    (slots : List (List Shape)) : [node () kind notes slots].flatMap Term.reduced
      = [node () kind notes (slots.map fun c => c.flatMap Term.reduced)] := by
  rw [List.flatMap_singleton, reduced_node, reduceTop_of_ne fun op type hk => by
    rw [hk] at h
    cases h]

theorem isBinary_of_leafText? {kind : Kind} {text : String} (h : kind.leafText? name = some text) :
    kind.isBinary = false := by
  cases kind <;> first | rfl | cases h

/-- Reduced code is a phrase again: an operation that is reduced leaves one
operand. -/
theorem Forms.reduced {p : Phrase s} (h : Forms name may xs p) :
    ∃ q : Phrase s, Forms name may (xs.flatMap Term.reduced) q := by
  induction h with
  | none => exact ⟨_, .none⟩
  | @binary op type notes _ _ _ _ hnotes _ _ ihx ihy =>
    obtain ⟨l, hl⟩ := ihx
    obtain ⟨r, hr⟩ := ihy
    obtain ⟨a, ha⟩ := hl.exists_eq
    obtain ⟨b, hb⟩ := hr.exists_eq
    rw [List.flatMap_singleton, reduced_node, List.map_cons, List.map_cons, List.map_nil, ha, hb]
    rw [ha] at hl
    rw [hb] at hr
    cases hsurvives : op.surviving? a.kind b.kind with
    | none =>
      rw [reduceTop_of_none hsurvives]
      exact ⟨_, .binary hnotes hl hr⟩
    | some isLeft =>
      rw [reduceTop_of_some hsurvives]
      cases isLeft with
      | true => exact ⟨l, hl⟩
      | false => exact ⟨r, hr⟩
  | word hnotes htext =>
    rw [flatMap_reduced (isBinary_of_leafText? htext)]
    exact ⟨_, .word hnotes htext⟩
  | cond hnotes _ _ _ ihx ihy ihz =>
    obtain ⟨_, hc⟩ := ihx
    obtain ⟨_, ha⟩ := ihy
    obtain ⟨_, hb⟩ := ihz
    rw [flatMap_reduced rfl]
    exact ⟨_, .cond hnotes hc ha hb⟩
  | cast hnotes _ ih =>
    obtain ⟨_, he⟩ := ih
    rw [flatMap_reduced rfl]
    exact ⟨_, .cast hnotes he⟩
  | paren hnotes _ ih =>
    obtain ⟨_, he⟩ := ih
    rw [flatMap_reduced rfl]
    exact ⟨_, .paren hnotes he⟩
  | member hnotes _ ih =>
    obtain ⟨_, he⟩ := ih
    rw [flatMap_reduced rfl]
    exact ⟨_, .member hnotes he⟩
  | item hnotes _ _ ihe ihi =>
    obtain ⟨_, he⟩ := ihe
    obtain ⟨_, hi⟩ := ihi
    rw [flatMap_reduced rfl]
    exact ⟨_, .item hnotes he hi⟩
  | array hnotes _ ih =>
    obtain ⟨_, hn⟩ := ih
    rw [flatMap_reduced rfl]
    exact ⟨_, .array hnotes hn⟩
  | function hnotes _ ih =>
    obtain ⟨_, ha⟩ := ih
    rw [flatMap_reduced rfl]
    exact ⟨_, .function hnotes ha⟩
  | creation hnotes _ ih =>
    obtain ⟨_, ha⟩ := ih
    rw [flatMap_reduced rfl]
    exact ⟨_, .creation hnotes ha⟩
  | send hnotes _ _ ihe iha =>
    obtain ⟨_, he⟩ := ihe
    obtain ⟨_, ha⟩ := iha
    rw [flatMap_reduced rfl]
    exact ⟨_, .send hnotes he ha⟩
  | more hnotes _ _ ihi ihe =>
    obtain ⟨_, hi⟩ := ihi
    obtain ⟨_, he⟩ := ihe
    rw [List.flatMap_append, flatMap_reduced rfl]
    exact ⟨_, .more hnotes hi he⟩

/-- An operand in parentheses, if its kind calls for them. -/
theorem Forms.wrapIf (hmay : may {}) (h : Forms name may [x] e) (f : Kind → Bool) :
    ∃ w, Forms name may [x.wrapIf f] (e.wrapped w) := by
  refine ⟨f x.kind, ?_⟩
  unfold Term.wrapIf Phrase.wrapped
  split
  · exact .paren hmay h
  · exact h

/-- What one round of wrapping has wrapped is left alone by the next. -/
theorem wrapIf_wrapIf {f g : Kind → Bool} (hg : ∀ type, g (.paren type) = false) (x : Shape) :
    (x.wrapIf f).wrapIf g = x.wrapIf fun kind => f kind || g kind := by
  cases hf : f x.kind with
  | true =>
    have hx : x.wrapIf f = node () (.paren (x.kind.exprType.getD .int)) {} [[x]] := if_pos hf
    have hboth : x.wrapIf (fun kind => f kind || g kind)
        = node () (.paren (x.kind.exprType.getD .int)) {} [[x]] :=
      if_pos (Bool.or_eq_true_iff.2 (Or.inl hf))
    rw [hx, hboth]
    exact if_neg (Bool.eq_false_iff.1 (hg _))
  | false =>
    have hx : x.wrapIf f = x := if_neg (Bool.eq_false_iff.1 hf)
    rw [hx]
    simp only [Term.wrapIf, hf, Bool.false_or]

/-- Ordering puts parentheses around operands of operations. -/
theorem Forms.parenthesized (hmay : may {}) {p : Phrase s} (h : Forms name may xs p) :
    ∃ q, Forms name may (xs.map Term.parenthesized) q ∧ p.Encloses q := by
  induction h with
  | none => exact ⟨_, .none, .none⟩
  | @word kind notes text hnotes htext =>
    have htop : parenTop kind [] = [] := by cases kind <;> rfl
    rw [List.map_singleton, parenthesized_node, List.map_nil, htop]
    exact ⟨_, .word hnotes htext, .word text⟩
  | @binary op type notes _ _ _ _ hnotes hx hy ihx ihy =>
    obtain ⟨x, rfl⟩ := hx.exists_eq
    obtain ⟨y, rfl⟩ := hy.exists_eq
    obtain ⟨l, hl, hel⟩ := ihx
    obtain ⟨r, hr, her⟩ := ihy
    obtain ⟨v, hl⟩ := hl.wrapIf hmay (Edit.isLooser (.binary op type))
    obtain ⟨w, hr⟩ := hr.wrapIf hmay fun kind =>
      Edit.isLooser (.binary op type) kind || Edit.isRegrouped (.binary op type) kind
    rw [← wrapIf_wrapIf fun _ => rfl] at hr
    rw [List.map_singleton, parenthesized_node]
    exact ⟨_, .binary hnotes hl hr, .binary op v w hel her⟩
  | @cond type notes _ _ _ _ _ _ hnotes hx hy hz ihx ihy ihz =>
    obtain ⟨x, rfl⟩ := hx.exists_eq
    obtain ⟨y, rfl⟩ := hy.exists_eq
    obtain ⟨z, rfl⟩ := hz.exists_eq
    obtain ⟨c, hc, hec⟩ := ihx
    obtain ⟨a, ha, hea⟩ := ihy
    obtain ⟨b, hb, heb⟩ := ihz
    obtain ⟨u, hc⟩ := hc.wrapIf hmay fun kind =>
      Edit.isLooser (.cond type) kind || Edit.isRegrouped (.cond type) kind
    rw [← wrapIf_wrapIf fun _ => rfl] at hc
    obtain ⟨v, ha⟩ := ha.wrapIf hmay (Edit.isLooser (.cond type))
    obtain ⟨w, hb⟩ := hb.wrapIf hmay (Edit.isLooser (.cond type))
    rw [List.map_singleton, parenthesized_node]
    exact ⟨_, .cond hnotes hc ha hb, .cond u v w hec hea heb⟩
  | @cast type notes _ _ hnotes hx ih =>
    obtain ⟨x, rfl⟩ := hx.exists_eq
    obtain ⟨e, he, hee⟩ := ih
    obtain ⟨w, he⟩ := he.wrapIf hmay Kind.isOperator
    rw [List.map_singleton, parenthesized_node]
    exact ⟨_, .cast hnotes he, .cast _ w hee⟩
  | paren hnotes _ ih =>
    obtain ⟨_, he, hee⟩ := ih
    rw [List.map_singleton, parenthesized_node]
    exact ⟨_, .paren hnotes he, .paren hee⟩
  | member hnotes _ ih =>
    obtain ⟨_, he, hee⟩ := ih
    rw [List.map_singleton, parenthesized_node]
    exact ⟨_, .member hnotes he, .member _ hee⟩
  | item hnotes _ _ ihe ihi =>
    obtain ⟨_, he, hee⟩ := ihe
    obtain ⟨_, hi, hei⟩ := ihi
    rw [List.map_singleton, parenthesized_node]
    exact ⟨_, .item hnotes he hi, .item hee hei⟩
  | array hnotes _ ih =>
    obtain ⟨_, hn, hen⟩ := ih
    rw [List.map_singleton, parenthesized_node]
    exact ⟨_, .array hnotes hn, .array _ hen⟩
  | function hnotes _ ih =>
    obtain ⟨_, ha, hea⟩ := ih
    rw [List.map_singleton, parenthesized_node]
    exact ⟨_, .function hnotes ha, .call _ hea⟩
  | creation hnotes _ ih =>
    obtain ⟨_, ha, hea⟩ := ih
    rw [List.map_singleton, parenthesized_node]
    exact ⟨_, .creation hnotes ha, .call _ hea⟩
  | send hnotes _ _ ihe iha =>
    obtain ⟨_, he, hee⟩ := ihe
    obtain ⟨_, ha, hea⟩ := iha
    rw [List.map_singleton, parenthesized_node]
    exact ⟨_, .send hnotes he ha, .send _ hee hea⟩
  | more hnotes _ _ ihi ihe =>
    obtain ⟨_, hi, hei⟩ := ihi
    obtain ⟨_, he, hee⟩ := ihe
    rw [List.map_append, List.map_singleton, parenthesized_node]
    exact ⟨_, .more hnotes hi he, .more _ _ hei hee⟩

theorem map_published {kind : Kind} {notes : Notes} {slots : List (List Shape)}
    (hkind : ∀ qualified, kind.published qualified = kind) (hopen : kind.isOpen = true)
    (h : ∀ c ∈ slots, c.map Term.published = c) :
    [node () kind notes slots].map Term.published = [node () kind notes slots] := by
  rw [List.map_singleton, published_node, hkind, hopen]
  simp only [if_true]
  rw [List.map_congr_left h, List.map_id']

/-- Publishing leaves a phrase alone. -/
theorem Forms.published {p : Phrase s} (h : Forms name may xs p) :
    xs.map Term.published = xs := by
  induction h with
  | none => rfl
  | @word kind _ _ _ htext =>
    refine map_published (fun _ => ?_) ?_ nofun <;> cases kind <;> first | rfl | cases htext
  | cast _ _ ih | paren _ _ ih | member _ _ ih | array _ _ ih | creation _ _ ih =>
    exact map_published (fun _ => rfl) rfl (by simpa using ih)
  | binary _ _ _ ihx ihy | item _ _ _ ihx ihy | send _ _ _ ihx ihy =>
    exact map_published (fun _ => rfl) rfl (by simpa using ⟨ihx, ihy⟩)
  | function _ _ ih => exact map_published (fun _ => rfl) rfl (by simpa using ih)
  | cond _ _ _ _ ihx ihy ihz =>
    exact map_published (fun _ => rfl) rfl (by simpa using ⟨ihx, ihy, ihz⟩)
  | more _ _ _ ihi ihe =>
    rw [List.map_append, ihi, map_published (fun _ => rfl) rfl (by simpa using ihe)]

section

variable {slot : Slot} {c : List Shape}

/-- What stands alone in a slot of anything but an operation with two
operands stands there in parentheses at most, once these are in. -/
theorem parenTop_slot {kind : Kind} {slots : List (List Shape)} (hbin : kind.isBinary = false)
    (h : (slot, [x]) ∈ kind.slots.zip slots) :
    ∃ f, (slot, [x.wrapIf f]) ∈ kind.slots.zip (parenTop kind slots) := by
  cases kind with
  | binary => cases hbin
  | cast type =>
    refine ⟨Kind.isOperator, ?_⟩
    show _ ∈ (Kind.cast type).slots.zip (slots.map (wrapHead Kind.isOperator))
    rw [List.zip_map_right]
    exact List.mem_map.2 ⟨_, h, rfl⟩
  | cond type =>
    cases slots with
    | nil => cases h
    | cons first rest =>
      rcases List.mem_cons.1 h with heq | hrest
      · obtain ⟨rfl, rfl⟩ := Prod.mk.inj heq
        refine ⟨fun kind => Edit.isLooser (.cond type) kind || Edit.isRegrouped (.cond type) kind,
          ?_⟩
        rw [← wrapIf_wrapIf fun _ => rfl]
        exact List.mem_cons_self ..
      · refine ⟨Edit.isLooser (.cond type), List.mem_cons_of_mem _ ?_⟩
        show _ ∈ [Slot.consequent, .alternative].zip (rest.map _)
        rw [List.zip_map_right]
        exact List.mem_map.2 ⟨_, hrest, rfl⟩
  | _ => exact ⟨fun _ => false, h⟩

theorem ordered_slot (hbin : x.kind.isBinary = false) (hc : (slot, c) ∈ x.kind.slots.zip x.slots)
    (hy : c.flatMap Term.reduced = [y]) : ∃ f, (slot, [y.parenthesized.wrapIf f])
      ∈ x.reducedBelow.parenthesized.kind.slots.zip x.reducedBelow.parenthesized.slots := by
  cases x with
  | node tag kind notes slots =>
    unfold reducedBelow
    rw [parenthesized_node]
    refine parenTop_slot hbin ?_
    show _ ∈ kind.slots.zip ((slots.map _).map _)
    rw [List.map_map, List.zip_map_right]
    refine List.mem_map.2 ⟨_, hc, Prod.ext rfl ?_⟩
    show (c.flatMap Term.reduced).map Term.parenthesized = _
    rw [hy, List.map_singleton]

theorem published_slot (hc : (slot, c) ∈ x.kind.slots.zip x.slots)
    (h : c.map Term.published = c) :
    (slot, c) ∈ x.published.kind.slots.zip x.published.slots := by
  cases x with
  | node tag kind notes slots =>
    rw [published_node]
    show _ ∈ (kind.published (qualified notes)).slots.zip (slots.map _)
    rw [Kind.slots_published, List.zip_map_right]
    refine List.mem_map.2 ⟨_, hc, Prod.ext rfl ?_⟩
    show c.map _ = c
    cases kind.isOpen with
    | true => exact h
    | false => exact List.map_id _

/-- An operand in a slot of what is not an operation with two operands. -/
theorem Forms.finished (hmay : may {}) (hbin : x.kind.isBinary = false)
    (hc : (slot, c) ∈ x.kind.slots.zip x.slots)
    (h : Forms name may (c.flatMap Term.reduced) e) (allPublic : Bool) :
    ∃ z d w, (slot, [z]) ∈ (x.finished allPublic).kind.slots.zip (x.finished allPublic).slots
      ∧ Forms name may [z] (d.wrapped w) ∧ e.Encloses d := by
  obtain ⟨y, hy⟩ := h.exists_eq
  obtain ⟨d, hd, hencloses⟩ := h.parenthesized hmay
  rw [hy, List.map_singleton] at hd
  obtain ⟨f, hordered⟩ := ordered_slot hbin hc hy
  obtain ⟨w, hw⟩ := hd.wrapIf hmay f
  refine ⟨_, d, w, ?_, hw, hencloses⟩
  cases allPublic with
  | false => exact hordered
  | true => exact published_slot hordered hw.published

end

/-- A phrase whose words can be read names no nameless declaration, so it is
the same where names are kept. -/
theorem Forms.keep {name' : NodeId → String} {p : Phrase s} (h : Forms name may xs p)
    (hlegible : p.isLegible = true) (hkeep : ∀ d, name d ≠ "" → name' d = name d) :
    Forms name' may xs p := by
  induction h with
  | none => exact .none
  | @word kind notes text hnotes htext =>
    refine .word hnotes ?_
    cases kind with
    | varRef d type =>
      obtain rfl := Option.some_inj.1 htext
      have hne : name d ≠ "" := fun he => by
        have hname : Phrase.isLegible (.word (name d)) = true := hlegible
        rw [he] at hname
        exact absurd hname (by decide)
      exact congrArg some (hkeep d hne)
    | _ => exact htext
  | cast hnotes _ ih => exact .cast hnotes (ih (Bool.and_eq_true_iff.1 hlegible).2)
  | paren hnotes _ ih => exact .paren hnotes (ih hlegible)
  | member hnotes _ ih => exact .member hnotes (ih (Bool.and_eq_true_iff.1 hlegible).1)
  | array hnotes _ ih => exact .array hnotes (ih (Bool.and_eq_true_iff.1 hlegible).2)
  | function hnotes _ ih => exact .function hnotes (ih (Bool.and_eq_true_iff.1 hlegible).2)
  | creation hnotes _ ih => exact .creation hnotes (ih (Bool.and_eq_true_iff.1 hlegible).2)
  | binary hnotes _ _ ihl ihr =>
    obtain ⟨hl, hr⟩ := Bool.and_eq_true_iff.1 hlegible
    exact .binary hnotes (ihl hl) (ihr hr)
  | cond hnotes _ _ _ ihc iha ihb =>
    simp only [Phrase.isLegible, Bool.and_eq_true] at hlegible
    exact .cond hnotes (ihc hlegible.1.1) (iha hlegible.1.2) (ihb hlegible.2)
  | item hnotes _ _ ihe ihi =>
    simp only [Phrase.isLegible, Bool.and_eq_true] at hlegible
    exact .item hnotes (ihe hlegible.1.1) (ihi hlegible.1.2)
  | send hnotes _ _ ihe iha =>
    simp only [Phrase.isLegible, Bool.and_eq_true] at hlegible
    exact .send hnotes (ihe hlegible.1.1) (iha hlegible.2)
  | more hnotes _ _ ihi ihe =>
    simp only [Phrase.isLegible, Bool.and_eq_true] at hlegible
    exact .more hnotes (ihi hlegible.1.1) (ihe hlegible.2)

end Term

end RegisterMap.Code
