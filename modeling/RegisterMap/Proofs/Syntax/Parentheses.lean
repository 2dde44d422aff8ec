/-
Expressions in the arena. `Term.Denotes` says that a piece of code is an
expression: binary operations, conditionals, casts and parentheses with
exactly one operand in each slot, over leaves. The pass that adds
parentheses orders it (`Denotes.parenthesized`).

Once these parentheses are in, the text of an expression spells exactly
one expression, and that is the one in the arena, up to parentheses and
regrouping, unless a run is mixed (`parenthesize_reads`). A mixed run is
spelled without the parentheses it needs, and reads as another expression
(`mixed_run_misread`).
-/
import RegisterMap.Proofs.Syntax.Lexing
import RegisterMap.Proofs.Syntax.Forming
import RegisterMap.Proofs.Code.Sowing

namespace RegisterMap.Code

open Expression (Reads Regroups)

-- =============================================================== ordering

/-- The code is the expression, and its remarks are as they may be. -/
inductive Term.Denotes (name : NodeId → String) (may : Notes → Prop) :
    Shape → Expression → Prop
  | atom {kind notes text} : may notes → kind.leafText? name = some text →
    Denotes name may (.node () kind notes []) (.atom text)
  | binary {op type notes x y l r} : may notes → Denotes name may x l → Denotes name may y r →
    Denotes name may (.node () (.binary op type) notes [[x], [y]]) (.binary op l r)
  | cond {type notes x y z c a b} : may notes → Denotes name may x c → Denotes name may y a →
    Denotes name may z b →
    Denotes name may (.node () (.cond type) notes [[x], [y], [z]]) (.cond c a b)
  | cast {type notes x e} : may notes → Denotes name may x e →
    Denotes name may (.node () (.cast type) notes [[x]]) (.cast type.text e)
  | paren {type notes x e} : may notes → Denotes name may x e →
    Denotes name may (.node () (.paren type) notes [[x]]) (.paren e)

namespace Term

variable {name : NodeId → String} {may : Notes → Prop} {x : Shape} {e : Expression}

/-- An expression in the arena is a phrase there. -/
theorem Denotes.forms (h : Denotes name may x e) : Forms name may [x] e.phrase := by
  induction h with
  | atom hnotes htext => exact .word hnotes htext
  | binary hnotes _ _ ihl ihr => exact .binary hnotes ihl ihr
  | cond hnotes _ _ _ ihc iha ihb => exact .cond hnotes ihc iha ihb
  | cast hnotes _ ih => exact .cast hnotes ih
  | paren hnotes _ ih => exact .paren hnotes ih

theorem Denotes.tier_eq (h : Denotes name may x e) : x.kind.tier = e.tier := by
  cases h with
  | @atom kind _ _ _ hleaf => cases kind <;> first | rfl | cases hleaf
  | _ => rfl

theorem Denotes.isOperator_eq (h : Denotes name may x e) :
    x.kind.isOperator = decide (e.tier < atomTier) := by
  cases h with
  | @atom kind _ _ _ hleaf => cases kind <;> first | rfl | cases hleaf
  | @binary op => exact (decide_eq_true op.tier_lt_atomTier).symm
  | _ => rfl

/-- What binds weaker than an operation is an operation itself. -/
theorem Denotes.isLooser_eq (h : Denotes name may x e) (outer : Kind)
    (houter : outer.tier ≤ atomTier) :
    Edit.isLooser outer x.kind = decide (e.tier < outer.tier) := by
  unfold Edit.isLooser
  rw [h.isOperator_eq, h.tier_eq]
  by_cases hlt : e.tier < outer.tier
  · rw [decide_eq_true hlt, decide_eq_true (Nat.lt_of_lt_of_le hlt houter)]
    rfl
  · rw [decide_eq_false hlt, Bool.and_false]

theorem Denotes.isRegrouped_binary (h : Denotes name may x e) (op : Operator)
    (type : TypeRef) : Edit.isRegrouped (.binary op type) x.kind
      = (e.tier == op.tier && !(op.isAssociative && e.phrase.operator? == some op)) := by
  unfold Edit.isRegrouped
  rw [h.isOperator_eq, h.tier_eq]
  show (decide (e.tier < atomTier) && e.tier == op.tier && _) = _
  by_cases heq : e.tier = op.tier
  · rw [heq, decide_eq_true op.tier_lt_atomTier, beq_self_eq_true, Bool.true_and, Bool.true_and]
    cases h with
    | @atom kind _ _ _ hleaf => exact absurd heq (Nat.ne_of_gt op.tier_lt_atomTier)
    | @binary o =>
      show (!(op == o && op.isAssociative)) = (!(op.isAssociative && some o == some op))
      rw [Bool.and_comm, Option.some_beq_some, Bool.beq_comm]
    | cond => exact absurd heq (Nat.ne_of_lt op.condTier_lt_tier)
    | cast => exact absurd heq (Nat.ne_of_gt op.tier_lt_atomTier)
    | paren => exact absurd heq (Nat.ne_of_gt op.tier_lt_atomTier)
  · rw [beq_eq_false_iff_ne.2 heq, Bool.and_false, Bool.false_and, Bool.false_and]

theorem Denotes.isRegrouped_cond (h : Denotes name may x e) (type : TypeRef) :
    Edit.isRegrouped (.cond type) x.kind = (e.tier == condTier) := by
  unfold Edit.isRegrouped
  rw [h.isOperator_eq, h.tier_eq, Bool.and_true]
  show (decide (e.tier < atomTier) && e.tier == condTier) = _
  by_cases heq : e.tier = condTier
  · rw [heq]
    rfl
  · rw [beq_eq_false_iff_ne.2 heq, Bool.and_false]

/-- To the right of an operator, what does not fit is wrapped. -/
theorem Denotes.wraps_right (h : Denotes name may x e) (op : Operator) (type : TypeRef) :
    (Edit.isLooser (.binary op type) x.kind || Edit.isRegrouped (.binary op type) x.kind)
      = !(e.phrase.fits op) := by
  have hbound : (Kind.binary op type).tier ≤ atomTier := Nat.le_of_lt op.tier_lt_atomTier
  rw [h.isLooser_eq _ hbound, h.isRegrouped_binary, Expression.not_fits]
  rfl

/-- Parentheses around the code are parentheses around the expression. -/
theorem Denotes.wrapIf (hmay : may {}) (h : Denotes name may x e) (p : Kind → Bool) :
    Denotes name may (x.wrapIf p) (e.wrapped (p x.kind)) := by
  unfold Term.wrapIf Expression.wrapped
  split
  · exact .paren hmay h
  · exact h

/-- The pass orders the expression. -/
theorem Denotes.parenthesized (hmay : may {}) (h : Denotes name may x e) :
    Denotes name may x.parenthesized e.ordered := by
  induction h with
  | @atom kind notes text hnotes hleaf =>
    have htop : parenTop kind [] = [] := by cases kind <;> rfl
    rw [parenthesized_node, List.map_nil, htop]
    exact .atom hnotes hleaf
  | @binary op type notes x y l r hnotes hx hy ihx ihy =>
    rw [parenthesized_node]
    show Denotes name may (.node () (.binary op type) notes
      [[x.parenthesized.wrapIf (Edit.isLooser (.binary op type))],
        [(y.parenthesized.wrapIf (Edit.isLooser (.binary op type))).wrapIf
          (Edit.isRegrouped (.binary op type))]]) _
    have hbound : (Kind.binary op type).tier ≤ atomTier := Nat.le_of_lt op.tier_lt_atomTier
    have hl := ihx.wrapIf hmay (Edit.isLooser (.binary op type))
    have hr := ihy.wrapIf hmay fun kind =>
      Edit.isLooser (.binary op type) kind || Edit.isRegrouped (.binary op type) kind
    rw [ihx.isLooser_eq _ hbound, Expression.tier_ordered] at hl
    rw [← wrapIf_wrapIf fun _ => rfl, ihy.wraps_right, Expression.fits_ordered] at hr
    exact .binary hnotes hl hr
  | @cond type notes x y z c a b hnotes hx hy hz ihx ihy ihz =>
    have hbound : (Kind.cond type).tier ≤ atomTier := show condTier ≤ atomTier by decide
    have hkeep : ∀ {w : Shape} {d : Expression}, Denotes name may w d →
        w.wrapIf (Edit.isLooser (.cond type)) = w := fun hw => by
      refine if_neg (Bool.eq_false_iff.1 ?_)
      rw [hw.isLooser_eq _ hbound]
      exact decide_eq_false (Nat.not_lt_of_le (Expression.condTier_le_tier _))
    rw [parenthesized_node]
    show Denotes name may (.node () (.cond type) notes
      [[(x.parenthesized.wrapIf (Edit.isLooser (.cond type))).wrapIf
          (Edit.isRegrouped (.cond type))],
        [y.parenthesized.wrapIf (Edit.isLooser (.cond type))],
        [z.parenthesized.wrapIf (Edit.isLooser (.cond type))]]) _
    rw [hkeep ihx, hkeep ihy, hkeep ihz]
    have hc := ihx.wrapIf hmay (Edit.isRegrouped (.cond type))
    rw [ihx.isRegrouped_cond, Expression.tier_ordered] at hc
    have hle : (c.tier == condTier) = decide (c.tier ≤ condTier) := by
      rw [Bool.eq_iff_iff, beq_iff_eq, decide_eq_true_iff]
      exact ⟨Nat.le_of_eq, fun h => Nat.le_antisymm h c.condTier_le_tier⟩
    rw [hle] at hc
    exact .cond hnotes hc ihy ihz
  | @cast type notes x e hnotes hx ih =>
    have h := ih.wrapIf hmay Kind.isOperator
    rw [ih.isOperator_eq, Expression.tier_ordered] at h
    rw [parenthesized_node]
    exact .cast hnotes h
  | @paren type notes x e hnotes hx ih =>
    rw [parenthesized_node]
    exact .paren hnotes ih

/-- An atom with a text is no unnamed reference, so what it names stands in
the arena and keeps its name. -/
theorem Denotes.keep {name' : NodeId → String} (h : Denotes name may x e) (hlegible : e.Legible)
    (hkeep : ∀ d, name d ≠ "" → name' d = name d) : Denotes name' may x e := by
  induction h with
  | @atom kind notes text hnotes htext =>
    refine .atom hnotes ?_
    cases kind with
    | varRef d type =>
      obtain rfl := Option.some_inj.1 htext
      have hne : name d ≠ "" := fun he => by
        have hprimary : isPrimary (name d) = true := hlegible
        rw [he] at hprimary
        exact absurd hprimary (by decide)
      exact congrArg some (hkeep d hne)
    | _ => exact htext
  | binary hnotes _ _ ihl ihr => exact .binary hnotes (ihl hlegible.1) (ihr hlegible.2)
  | cond hnotes _ _ _ ihc iha ihb =>
    exact .cond hnotes (ihc hlegible.1) (iha hlegible.2.1) (ihb hlegible.2.2)
  | cast hnotes _ ih => exact .cast hnotes (ih hlegible.2)
  | paren hnotes _ ih => exact .paren hnotes (ih hlegible)

end Term

-- ================================================================ reading

section

variable {t : Tree} {place : Place} {next : Option NodeId} {options : EmitOptions} {x : Planted}
  {e : Expression}

/-- An expression, ordered and written out, gives the characters of the
ordered expression. -/
theorem parenthesize_emits (hs : t.Stands place next [x])
    (hx : x.shape.Denotes t.name options.Omits e) (hlegible : e.Legible) :
    ∃ t', Edit.parenthesize x.tag t = (.ok (), t')
      ∧ t'.emit x.tag options = .ok (String.ofList e.ordered.phrase.chars) := by
  obtain ⟨t', y, hrun, hcode, htag, hswap⟩ := Edit.parenthesize_top hs
  refine ⟨t', hrun, ?_⟩
  have hmay : options.Omits {} := ⟨fun _ => rfl, fun _ => rfl⟩
  have hname : ∀ d, t.name d ≠ "" → t'.name d = t.name d := fun d hd =>
    hswap.names d (Nat.lt_of_not_le fun hle => hd (by
      unfold Tree.name
      rw [(t.node?_eq_none_iff d).2 hle]
      rfl))
  have hy : y.shape.Denotes t'.name options.Omits e.ordered := by
    rw [hcode]
    exact (hx.keep hlegible hname).parenthesized hmay
  have hnodup : y.tags.Nodup := by simpa using hswap.nodup
  rw [← htag]
  exact Tree.emit_phrase hswap.holds hnodup hy.forms

/-- The text of an ordered expression spells exactly one expression. It is
the expression in the arena, up to parentheses and regrouping, if and only
if nothing is mixed. -/
theorem parenthesize_reads (hs : t.Stands place next [x])
    (hx : x.shape.Denotes t.name options.Omits e) (hlegible : e.Legible) :
    ∃ t' text g, Edit.parenthesize x.tag t = (.ok (), t')
      ∧ t'.emit x.tag options = .ok text
      ∧ Reads text g ∧ (∀ d, Reads text d → d = g)
      ∧ (e.unmixed = true ↔ Regroups g.bare e.bare) := by
  obtain ⟨t', hrun, hemit⟩ := parenthesize_emits hs hx hlegible
  obtain ⟨g, hg, hunique, hiff⟩ := e.spells_ordered
  have hreads : ∀ d, Reads (String.ofList e.ordered.phrase.chars) d ↔ _ := fun d =>
    (Expression.legible_ordered hlegible).reads_iff (d := d) (String.toList_ofList ..)
  exact ⟨t', _, g, hrun, hemit, (hreads g).2 hg, fun d hd => hunique d ((hreads d).1 hd), hiff⟩

end

-- ============================================================== instances

/-- A sketch that refers to nothing is built in the empty arena and stands
there alone. -/
theorem Sketch.stands_alone (s : Sketch) (hu : s.uses = [])
    (hfits : s.Fits (fun _ => .int) (fun _ => []) fun _ => False) {y : Shape}
    (hcode : s.code (fun _ => .int) (fun _ => []) = [y]) :
    ∃ t x, s.plant {} = (.ok x.tag, t) ∧ t.Stands .root none [x] ∧ x.shape = y := by
  have hready : Sketch.Ready (fun _ => .int) (fun _ => []) (fun _ => False) {} s.uses := by
    rw [hu]
    exact ⟨Tree.stock_nil Tree.mutual_empty, (fun _ hid => nomatch hid), fun _ hk => hk.elim⟩
  obtain ⟨t, i, ys, hrun, hi, hyields, hys⟩ := Sketch.plant_run _ _ _ s {} hready hfits
  obtain ⟨x, rfl, hx⟩ := List.map_eq_singleton_iff.1 (hys.trans hcode)
  obtain rfl := Option.some_inj.1 hi
  exact ⟨t, x, hrun, hyields.stock.stands (List.cons_ne_nil _ _), hx⟩

/-- `(byte)(a >> b - 1) & (c ? d : 255)`, built without parentheses. -/
def shiftedMask : Sketch :=
  .binary .and
    (.cast .byte (.binary .shr (.snippetExpr "a" .int)
      (.binary .sub (.snippetExpr "b" .int) (.int 1))))
    (.cond (.snippetExpr "c" .bool) (.snippetExpr "d" .int) (.int 255))

/-- The expression it is. -/
def shiftedMaskExpression : Expression :=
  .binary .and
    (.cast "byte" (.binary .shr (.atom "a") (.binary .sub (.atom "b") (.atom "1"))))
    (.cond (.atom "c") (.atom "d") (.atom "255"))

/-- Three tiers, a cast and a conditional in one expression: the text is
read as it was meant. -/
theorem parenthesize_reads_shiftedMask : ∃ t x,
    t.Stands .root none [x] ∧ x.shape.Denotes t.name ({} : EmitOptions).Omits shiftedMaskExpression
      ∧ shiftedMaskExpression.Legible
      ∧ ∃ t' text g, Edit.parenthesize x.tag t = (.ok (), t') ∧ t'.emit x.tag {} = .ok text
        ∧ Reads text g ∧ (∀ d, Reads text d → d = g)
        ∧ (shiftedMaskExpression.unmixed = true
          ↔ Regroups g.bare shiftedMaskExpression.bare) := by
  have hfits : shiftedMask.Fits (fun _ => .int) (fun _ => []) fun _ => False := by
    simp [shiftedMask, Sketch.Fits, Sketch.IsExpr, Sketch.code, Term.typeOf, Term.typeOf?,
      Shape.leaf, Shape.above, Kind.exprType, TypeRef.width, Primitive.width]
  obtain ⟨t, x, -, hstands, hshape⟩ := Sketch.stands_alone shiftedMask rfl hfits rfl
  have hdenotes : x.shape.Denotes t.name ({} : EmitOptions).Omits shiftedMaskExpression := by
    rw [hshape]
    exact .binary omits_plain
      (.cast omits_plain (.binary omits_plain (.atom omits_plain rfl)
        (.binary omits_plain (.atom omits_plain rfl) (.atom omits_plain rfl))))
      (.cond omits_plain (.atom omits_plain rfl) (.atom omits_plain rfl) (.atom omits_plain rfl))
  have hlegible : shiftedMaskExpression.Legible := by decide
  exact ⟨t, x, hstands, hdenotes, hlegible, parenthesize_reads hstands hdenotes hlegible⟩

/-- `a * ((b / d) * c)`, built without parentheses. -/
def productOfQuotient : Sketch :=
  .binary .mul (.snippetExpr "a" .int)
    (.binary .mul (.binary .div (.snippetExpr "b" .int) (.snippetExpr "d" .int))
      (.snippetExpr "c" .int))

/-- The expression it is. -/
def productOfQuotientExpression : Expression :=
  .binary .mul (.atom "a")
    (.binary .mul (.binary .div (.atom "b") (.atom "d")) (.atom "c"))

/-- A run of products goes on into a quotient: the quotient takes over the
product so far, which no regrouping of products does. -/
theorem mixed_run_misread : ∃ (t t' : Tree) (x : Planted), productOfQuotient.plant {} = (.ok x.tag, t)
    ∧ x.shape.Denotes t.name ({} : EmitOptions).Omits productOfQuotientExpression
    ∧ productOfQuotientExpression.Legible
    ∧ Edit.parenthesize x.tag t = (.ok (), t') ∧ t'.emit x.tag {} = .ok "a * b / d * c"
    ∧ Reads "a * b / d * c"
        (.binary .mul (.binary .div (.binary .mul (.atom "a") (.atom "b")) (.atom "d")) (.atom "c"))
    ∧ ∀ g, Reads "a * b / d * c" g → ¬ Regroups g.bare productOfQuotientExpression.bare := by
  have hfits : productOfQuotient.Fits (fun _ => .int) (fun _ => []) fun _ => False := by
    simp [productOfQuotient, Sketch.Fits, Sketch.IsExpr, Sketch.code, Term.typeOf, Term.typeOf?,
      Shape.leaf, Shape.above, Kind.exprType, Operator.isShift]
  obtain ⟨t, x, hplant, hstands, hshape⟩ := Sketch.stands_alone productOfQuotient rfl hfits rfl
  have hdenotes : x.shape.Denotes t.name ({} : EmitOptions).Omits productOfQuotientExpression := by
    rw [hshape]
    exact .binary omits_plain (.atom omits_plain rfl)
      (.binary omits_plain (.binary omits_plain (.atom omits_plain rfl) (.atom omits_plain rfl))
        (.atom omits_plain rfl))
  have hlegible : productOfQuotientExpression.Legible := by decide
  obtain ⟨t', hrun, hemit⟩ := parenthesize_emits hstands hdenotes hlegible
  obtain ⟨g, -, hunique, hiff⟩ := productOfQuotientExpression.spells_ordered
  have hreads : ∀ d, Reads "a * b / d * c" d
      ↔ Derives condTier productOfQuotientExpression.ordered.lexemes d := fun d =>
    (Expression.legible_ordered hlegible).reads_iff (by decide)
  refine ⟨t, t', x, hplant, hdenotes, hlegible, hrun, hemit, ?_, fun d hd hregroups => ?_⟩
  · have leaf : ∀ text, Derives (Operator.mul.tier + 1) [.atom text] (.atom text) := fun text =>
      .loosen (by decide) (.atom text)
    have first : Derives Operator.mul.tier [.atom "a"] (.atom "a") :=
      .loosen (by decide) (.atom "a")
    have product := Derives.binary .mul first (leaf "b")
    have quotient := Derives.binary .div product (leaf "d")
    have whole := Derives.binary .mul quotient (leaf "c")
    exact (hreads _).2 (Derives.loosen (by decide) whole)
  · rw [hunique d ((hreads d).1 hd)] at hregroups
    exact absurd (hiff.2 hregroups) (by decide)

end RegisterMap.Code
