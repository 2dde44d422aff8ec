/-
Rewritten code is left alone. Each pass makes a normal form of the code it
is given: no operation has an heir (`Heirless`), no operand lacks
parentheses (`Fenced`), every declaration that is reached is public. The
later passes keep the normal forms of the earlier ones, because they
exchange operands only for ones that are alike to the operation above
(`Alike`), and a pass that meets its own normal form touches nothing
(`visitFrom_rests`). So a second rewriting finds the arena finished and
leaves it as it is, node for node (`rewrite_settles`).
-/
import RegisterMap.Proofs.Code.Outcome

open RegisterMap.Code.Tree (Stands Swaps)

namespace RegisterMap.Code

-- ========================================================== normal forms

namespace Kind

/-- The slot on the side of a node where an operand could be regrouped, or
the one slot of a cast. -/
def openSlot? : Kind → Option Slot
  | .binary .. => some .rhs
  | .cond .. => some .condition
  | .cast .. => some .expr
  | _ => none

/-- An operand gets parentheses. `inOpen` tells that it comes first in the
open slot. -/
def wraps (outer : Kind) (inOpen : Bool) (operand : Kind) : Bool :=
  match outer with
  | .binary .. | .cond .. =>
    Edit.isLooser outer operand || inOpen && Edit.isRegrouped outer operand
  | .cast .. => inOpen && operand.isOperator
  | _ => false

theorem isLooser_of_not_operator {operand : Kind} (h : operand.isOperator = false)
    (outer : Kind) : Edit.isLooser outer operand = false := by
  unfold Edit.isLooser
  rw [h]
  rfl

theorem isRegrouped_of_not_operator {operand : Kind} (h : operand.isOperator = false)
    (outer : Kind) : Edit.isRegrouped outer operand = false := by
  unfold Edit.isRegrouped
  rw [h]
  rfl

theorem wraps_of_not_operator {operand : Kind} (h : operand.isOperator = false) (outer : Kind)
    (inOpen : Bool) : outer.wraps inOpen operand = false := by
  unfold wraps
  rw [isLooser_of_not_operator h, isRegrouped_of_not_operator h, h]
  cases outer <;> simp

theorem isLooser_of_wraps {outer operand : Kind} (hop : outer.isOperator = true)
    (h : outer.wraps false operand = false) : Edit.isLooser outer operand = false := by
  cases outer with
  | binary | cond => simpa [wraps] using h
  | _ => cases hop

theorem isRegrouped_of_wraps {outer operand : Kind} (hop : outer.isOperator = true)
    (h : outer.wraps true operand = false) : Edit.isRegrouped outer operand = false := by
  cases outer with
  | binary | cond => exact (Bool.or_eq_false_iff.1 h).2
  | _ => cases hop

theorem openSlot?_mem {s : Slot} {k : Kind} (h : k.openSlot? = some s) : s ∈ k.slots := by
  cases k with
  | binary | cond | cast =>
    injection h with h
    subst h
    simp [slots]
  | _ => cases h

end Kind

/-- The operand would be given parentheses by the operation it belongs to. -/
def Tree.wraps (t : Tree) (i child : NodeId) : Bool :=
  match t.kind? i, t.kind? child with
  | some outer, some operand =>
    outer.wraps (outer.openSlot?.any fun s => t.head i s == some child) operand
  | _, _ => false

namespace Term

/-- Every node that is reached through nodes of the kinds entered. -/
inductive Each (enter : Kind → Bool) (P : Shape → Prop) : Shape → Prop
  | node {kind : Kind} {notes : Notes} {slots : List (List Shape)} :
    P (.node () kind notes slots) →
    (enter kind = true → ∀ c ∈ slots, ∀ y ∈ c, Each enter P y) →
      Each enter P (.node () kind notes slots)

/-- Every node. -/
abbrev All (P : Shape → Prop) : Shape → Prop := Each (fun _ => true) P

variable {P : Shape → Prop} {enter : Kind → Bool} {p : Kind → Bool} {kind : Kind} {notes : Notes}
  {slots slots' : List (List Shape)} {x y z : Shape} {c : List Shape}

theorem Each.top (h : x.Each enter P) : P x := by
  cases h with
  | node h _ => exact h

theorem Each.inside (h : x.Each enter P) (he : enter x.kind = true) :
    ∀ c ∈ x.slots, ∀ y ∈ c, y.Each enter P := by
  cases h with
  | node _ h => exact h he

/-- No operation has an operand that it reduces to. -/
def Heirless (x : Shape) : Prop :=
  ∀ op type a l b r, x.kind = .binary op type → x.slots = [a :: l, b :: r] →
    op.surviving? (Term.kind a) (Term.kind b) = none

/-- No operand lacks parentheses. -/
structure Fenced (x : Shape) : Prop where
  inner : ∀ c ∈ x.slots, ∀ y ∈ c, x.kind.wraps false (Term.kind y) = false
  outer : ∀ s y ys, x.kind.openSlot? = some s → (s, y :: ys) ∈ x.kind.slots.zip x.slots →
    x.kind.wraps true (Term.kind y) = false

/-- A declaration is public already. -/
def Public (x : Shape) : Prop := x.kind.published (qualified x.notes) = x.kind

theorem heirless_of_not_binary (h : x.kind.isBinary = false) : x.Heirless := by
  intro op type a l b r hk
  rw [hk] at h
  cases h

theorem fenced_paren (type : TypeRef) (x : Shape) :
    (node () (.paren type) {} [[x]]).Fenced :=
  ⟨fun _ _ _ _ => rfl, fun _ _ _ h => nomatch h⟩

-- ============================================================= likeness

/-- Two operands are the same to an operation above them. -/
def Alike (x y : Shape) : Prop :=
  x.kind.intValue? = y.kind.intValue? ∧ x.kind.exprType = y.kind.exprType

/-- Slots with operands that are alike, one by one. -/
abbrev AlikeSlots : List (List Shape) → List (List Shape) → Prop :=
  List.Forall₂ (List.Forall₂ Alike)

theorem alike_refl (x : Shape) : Alike x x := ⟨rfl, rfl⟩

theorem surviving?_congr (op : Operator) {a a' b b' : Shape} (ha : Alike a a')
    (hb : Alike b b') : op.surviving? a'.kind b'.kind = op.surviving? a.kind b.kind := by
  have hfa : a'.kind.fits = a.kind.fits := by
    funext v
    unfold Kind.fits
    rw [ha.2]
  have hfb : b'.kind.fits = b.kind.fits := by
    funext v
    unfold Kind.fits
    rw [hb.2]
  unfold Operator.surviving?
  rw [ha.1, hb.1, hfa, hfb]

/-- An operation with other operands that are alike has no heir either. -/
theorem Heirless.congr (h : (node () kind notes slots).Heirless) (hs : AlikeSlots slots slots')
    (notes' : Notes) : (node () kind notes' slots').Heirless := by
  intro op type a' l' b' r' hk hslots
  obtain rfl : slots' = [a' :: l', b' :: r'] := hslots
  cases hs with
  | cons hl hs =>
    cases hs with
    | cons hr hs =>
      cases hs
      cases hl with
      | cons ha _ =>
        cases hr with
        | cons hb _ =>
          rw [surviving?_congr op ha hb]
          exact h op type _ _ _ _ hk rfl

theorem alikeSlots_map {f : Shape → Shape} (h : ∀ c ∈ slots, ∀ x ∈ c, Alike x (f x)) :
    AlikeSlots slots (slots.map (List.map f)) := by
  refine List.forall₂_map_right_iff.2 (List.forall₂_same.2 fun c hc => ?_)
  exact List.forall₂_map_right_iff.2 (List.forall₂_same.2 fun x hx => h c hc x hx)

-- ------------------------------------------------------------- reducing

theorem heirless_reduceTop (h : ∀ c ∈ slots, ∀ y ∈ c, y.All Heirless) :
    ∀ y ∈ reduceTop kind notes slots, y.All Heirless := by
  have hnode : (node () kind notes slots).Heirless → (node () kind notes slots).All Heirless :=
    fun htop => .node htop fun _ => h
  unfold reduceTop
  split
  · next op type a l b r =>
    have hl : ∀ y ∈ a :: l, y.All Heirless := h _ (List.mem_cons_self ..)
    have hr : ∀ y ∈ b :: r, y.All Heirless := h _ (List.mem_cons_of_mem _ (List.mem_cons_self ..))
    split
    · exact hl
    · exact hr
    · next hnone =>
      intro y hy
      rw [List.mem_singleton.1 hy]
      refine hnode fun op' type' a' l' b' r' hk hslots => ?_
      injection hk with hop
      injection hslots with hla hrb
      injection hla with ha
      injection hrb with hrb
      injection hrb with hb
      rw [← hop, ← ha, ← hb]
      exact hnone
  · next hother =>
    intro y hy
    rw [List.mem_singleton.1 hy]
    refine hnode fun op type a l b r hk hslots => ?_
    exact absurd hslots (hother op type a l b r hk)

/-- Reduced code has no operation with an heir. -/
theorem heirless_reduced (x : Shape) : ∀ y ∈ x.reduced, y.All Heirless := by
  induction x using Term.ind with
  | node tag kind notes slots ih =>
    rw [reduced_node]
    refine heirless_reduceTop fun c hc y hy => ?_
    obtain ⟨c', hc', rfl⟩ := List.mem_map.1 hc
    obtain ⟨z, hz, hy⟩ := List.mem_flatMap.1 hy
    exact ih c' hc' z hz y hy

-- ------------------------------------------------------------- wrapping

theorem wrapIf_cases (p : Kind → Bool) (x : Shape) :
    (p x.kind = false ∧ x.wrapIf p = x)
      ∨ (p x.kind = true ∧ x.wrapIf p = node () (.paren (x.kind.exprType.getD .int)) {} [[x]]) := by
  unfold wrapIf
  cases h : p x.kind with
  | false => exact Or.inl ⟨rfl, rfl⟩
  | true => exact Or.inr ⟨rfl, rfl⟩

theorem alike_wrapIf (hp : ∀ k, p k = true → k.isOperator = true) (x : Shape) :
    Alike x (x.wrapIf p) := by
  rcases wrapIf_cases p x with ⟨-, h⟩ | ⟨hk, h⟩
  · rw [h]
    exact alike_refl x
  · rw [h]
    have hop := hp _ hk
    unfold Alike
    cases hkind : x.kind with
    | binary op type => exact ⟨rfl, rfl⟩
    | cond type => exact ⟨rfl, rfl⟩
    | _ => rw [hkind] at hop; cases hop

theorem alike_wrapHead (hp : ∀ k, p k = true → k.isOperator = true) (c : List Shape) :
    List.Forall₂ Alike c (wrapHead p c) := by
  cases c with
  | nil => exact .nil
  | cons x rest => exact .cons (alike_wrapIf hp x) (List.forall₂_same.2 fun y _ => alike_refl y)

/-- What holds of parentheses and of what is wrapped holds afterwards. -/
theorem each_wrapIf (hparen : ∀ type x, P (node () (.paren type) {} [[x]])) (p : Kind → Bool)
    (h : x.Each enter P) : (x.wrapIf p).Each enter P := by
  rcases wrapIf_cases p x with ⟨-, he⟩ | ⟨-, he⟩
  · rwa [he]
  · rw [he]
    refine .node (hparen ..) fun _ c hc y hy => ?_
    rw [List.mem_singleton.1 hc] at hy
    rwa [List.mem_singleton.1 hy]

theorem each_wrapHead (hparen : ∀ type x, P (node () (.paren type) {} [[x]]))
    (h : ∀ y ∈ c, y.Each enter P) : ∀ y ∈ wrapHead p c, y.Each enter P := by
  cases c with
  | nil => exact h
  | cons x rest =>
    intro y hy
    rcases List.mem_cons.1 hy with rfl | hy
    · exact each_wrapIf hparen p (h x (List.mem_cons_self ..))
    · exact h y (List.mem_cons_of_mem _ hy)

theorem each_parenTop (hparen : ∀ type x, P (node () (.paren type) {} [[x]]))
    (h : ∀ c ∈ slots, ∀ y ∈ c, y.Each enter P) :
    ∀ c ∈ parenTop kind slots, ∀ y ∈ c, y.Each enter P := by
  have hloose : ∀ c ∈ slots.map (fun c => c.map (Term.wrapIf (Edit.isLooser kind))),
      ∀ y ∈ c, y.Each enter P := by
    intro c hc y hy
    obtain ⟨c', hc', rfl⟩ := List.mem_map.1 hc
    obtain ⟨z, hz, rfl⟩ := List.mem_map.1 hy
    exact each_wrapIf hparen _ (h c' hc' z hz)
  unfold parenTop
  dsimp only
  split
  · next l r he =>
    rw [he] at hloose
    intro c hc
    rcases List.mem_cons.1 hc with rfl | hc
    · exact hloose _ (List.mem_cons_self ..)
    · rw [List.mem_singleton.1 hc]
      exact each_wrapHead hparen (hloose _ (List.mem_cons_of_mem _ (List.mem_cons_self ..)))
  · next c' rest he =>
    rw [he] at hloose
    intro c hc
    rcases List.mem_cons.1 hc with rfl | hc
    · exact each_wrapHead hparen (hloose _ (List.mem_cons_self ..))
    · exact hloose _ (List.mem_cons_of_mem _ hc)
  · intro c hc
    obtain ⟨c', hc', rfl⟩ := List.mem_map.1 hc
    exact each_wrapHead hparen (h c' hc')
  · exact h

theorem heirless_parenTop (h : (node () kind notes slots).Heirless) :
    (node () kind notes (parenTop kind slots)).Heirless := by
  cases kind with
  | binary op type =>
    rcases slots with _ | ⟨l, _ | ⟨r, _ | ⟨c, rest⟩⟩⟩
    · exact h
    · exact h
    · have hloose := h.congr (alikeSlots_map fun c _ x _ =>
        alike_wrapIf (p := Edit.isLooser (.binary op type)) (fun _ => Edit.isOperator_of_isLooser) x)
        notes
      refine hloose.congr (.cons (List.forall₂_same.2 fun y _ => alike_refl y) (.cons ?_ .nil)) notes
      exact alike_wrapHead (fun _ => Edit.isOperator_of_isRegrouped) _
    · exact h
  | _ => exact heirless_of_not_binary rfl

/-- Parentheses give no operation an heir. -/
theorem Each.heirless_parenthesized (h : x.All Heirless) : x.parenthesized.All Heirless := by
  induction x using Term.ind with
  | node tag kind notes slots ih =>
    rw [parenthesized_node]
    have hbelow : ∀ c ∈ slots.map (fun c => c.map parenthesized), ∀ y ∈ c, y.All Heirless := by
      intro c hc y hy
      obtain ⟨c', hc', rfl⟩ := List.mem_map.1 hc
      obtain ⟨z, hz, rfl⟩ := List.mem_map.1 hy
      exact ih c' hc' z hz (h.inside rfl c' hc' z hz)
    have halike : AlikeSlots slots (slots.map (List.map parenthesized)) :=
      alikeSlots_map fun c _ x _ => by
        unfold Alike
        rw [kind_parenthesized]
        exact ⟨rfl, rfl⟩
    refine .node (heirless_parenTop (h.top.congr halike notes)) fun _ => ?_
    exact each_parenTop (fun _ _ => heirless_of_not_binary rfl) hbelow

-- What calls for parentheses is an operator, and parentheses are none.
section Free

variable (hp : ∀ k, p k = true → k.isOperator = true)

include hp

theorem eq_false_of_not_operator {k : Kind} (h : k.isOperator = false) : p k = false := by
  cases hk : p k with
  | false => rfl
  | true => exact absurd (hp k hk) (by rw [h]; exact Bool.false_ne_true)

theorem wrapIf_free (x : Shape) : p (x.wrapIf p).kind = false := by
  rcases wrapIf_cases p x with ⟨hk, h⟩ | ⟨-, h⟩
  · rwa [h]
  · rw [h]
    exact eq_false_of_not_operator hp rfl

theorem wrapIf_keeps_free (q : Kind → Bool) (h : p x.kind = false) :
    p (x.wrapIf q).kind = false := by
  rcases wrapIf_cases q x with ⟨-, he⟩ | ⟨-, he⟩
  · rwa [he]
  · rw [he]
    exact eq_false_of_not_operator hp rfl

theorem wrapHead_keeps_free (q : Kind → Bool) (h : ∀ y ∈ c, p (Term.kind y) = false) :
    ∀ y ∈ wrapHead q c, p (Term.kind y) = false := by
  cases c with
  | nil => exact h
  | cons x rest =>
    intro y hy
    rcases List.mem_cons.1 hy with rfl | hy
    · exact wrapIf_keeps_free hp q (h x (List.mem_cons_self ..))
    · exact h y (List.mem_cons_of_mem _ hy)

theorem wrapHead_free {ys : List Shape} (h : wrapHead p c = y :: ys) : p y.kind = false := by
  cases c with
  | nil => cases h
  | cons x rest =>
    injection h with hy
    rw [← hy]
    exact wrapIf_free hp x

end Free

theorem loose_free (kind : Kind) (c : List Shape) :
    ∀ y ∈ c.map (wrapIf (Edit.isLooser kind)), Edit.isLooser kind (Term.kind y) = false := by
  intro y hy
  obtain ⟨z, -, rfl⟩ := List.mem_map.1 hy
  exact wrapIf_free (fun _ => Edit.isOperator_of_isLooser) z

theorem fenced_parenTop (hlen : slots.length = kind.slots.length) (notes : Notes) :
    (node () kind notes (parenTop kind slots)).Fenced := by
  have hloose : ∀ k, Edit.isLooser kind k = true → k.isOperator = true :=
    fun _ => Edit.isOperator_of_isLooser
  have hregroup : ∀ k, Edit.isRegrouped kind k = true → k.isOperator = true :=
    fun _ => Edit.isOperator_of_isRegrouped
  cases kind with
  | binary op type =>
    obtain ⟨l, r, rfl⟩ : ∃ l r, slots = [l, r] := List.length_eq_two.1 hlen
    have hl := loose_free (.binary op type) l
    have hr := wrapHead_keeps_free hloose (Edit.isRegrouped (.binary op type))
      (loose_free (.binary op type) r)
    refine ⟨fun c hc y hy => ?_, fun s y ys hs hz => ?_⟩
    · rcases List.mem_pair.1 hc with rfl | rfl
      · simp [Kind.wraps, hl y hy]
      · simp [Kind.wraps, hr y hy]
    · injection hs with hs
      subst hs
      have hhead : wrapHead (Edit.isRegrouped (.binary op type))
          (r.map (wrapIf (Edit.isLooser (.binary op type)))) = y :: ys := by
        simpa [parenTop, Kind.slots, eq_comm] using hz
      simp [Kind.wraps, hr y (hhead ▸ List.mem_cons_self ..), wrapHead_free hregroup hhead]
  | cond type =>
    obtain ⟨d, a, b, rfl⟩ : ∃ d a b, slots = [d, a, b] := List.length_eq_three.1 hlen
    have hd := wrapHead_keeps_free hloose (Edit.isRegrouped (.cond type))
      (loose_free (.cond type) d)
    have ha := loose_free (.cond type) a
    have hb := loose_free (.cond type) b
    refine ⟨fun c hc y hy => ?_, fun s y ys hs hz => ?_⟩
    · change c ∈ [wrapHead (Edit.isRegrouped (.cond type))
        (d.map (wrapIf (Edit.isLooser (.cond type)))), a.map (wrapIf (Edit.isLooser (.cond type))),
        b.map (wrapIf (Edit.isLooser (.cond type)))] at hc
      simp only [List.mem_cons, List.not_mem_nil, or_false] at hc
      rcases hc with rfl | rfl | rfl
      · simp [Kind.wraps, hd y hy]
      · simp [Kind.wraps, ha y hy]
      · simp [Kind.wraps, hb y hy]
    · injection hs with hs
      subst hs
      have hhead : wrapHead (Edit.isRegrouped (.cond type))
          (d.map (wrapIf (Edit.isLooser (.cond type)))) = y :: ys := by
        simpa [parenTop, Kind.slots, eq_comm] using hz
      simp [Kind.wraps, hd y (hhead ▸ List.mem_cons_self ..), wrapHead_free hregroup hhead]
  | cast type =>
    obtain ⟨e, rfl⟩ : ∃ e, slots = [e] := List.length_eq_one_iff.1 hlen
    refine ⟨fun _ _ _ _ => rfl, fun s y ys hs hz => ?_⟩
    injection hs with hs
    subst hs
    have hhead : wrapHead Kind.isOperator e = y :: ys := by
      simpa [parenTop, Kind.slots, eq_comm] using hz
    exact wrapHead_free (fun _ h => h) hhead
  | _ => exact ⟨fun _ _ _ _ => rfl, fun _ _ _ h => by cases h⟩

/-- Parentheses are where they are called for. -/
theorem fenced_parenthesized (h : x.Full) : x.parenthesized.All Fenced := by
  induction x using Term.ind with
  | node tag kind notes slots ih =>
    obtain ⟨hlen, hfull⟩ := h
    rw [parenthesized_node]
    refine .node (fenced_parenTop ((List.length_map ..).trans hlen) notes) fun _ => ?_
    refine each_parenTop (fun _ _ => fenced_paren ..) fun c hc y hy => ?_
    obtain ⟨c', hc', rfl⟩ := List.mem_map.1 hc
    obtain ⟨z, hz, rfl⟩ := List.mem_map.1 hy
    exact ih c' hc' z hz (hfull c' hc' z hz)

-- ----------------------------------------------------------- publishing

/-- Publication is not seen by an operation above. -/
theorem alike_published (x : Shape) : Alike x x.published := by
  cases x with
  | node tag kind notes slots =>
    rw [published_node]
    unfold Alike
    cases kind with
    | methodDecl sig =>
      unfold Kind.published
      dsimp only [kind_node]
      split <;> exact ⟨rfl, rfl⟩
    | _ => exact ⟨rfl, rfl⟩

theorem kind_published_of_operator {q : Bool} (h : kind.isOperator = true) :
    kind.published q = kind := by
  cases kind <;> first | rfl | cases h

theorem isOperator_published (q : Bool) (k : Kind) : (k.published q).isOperator = k.isOperator := by
  cases k with
  | methodDecl sig =>
    unfold Kind.published
    dsimp only
    split <;> rfl
  | _ => rfl

theorem wraps_published (outer : Kind) (inOpen : Bool) (x : Shape) :
    outer.wraps inOpen x.published.kind = outer.wraps inOpen x.kind := by
  cases x with
  | node tag kind notes slots =>
    rw [published_node]
    show outer.wraps inOpen (kind.published (qualified notes)) = outer.wraps inOpen kind
    cases hk : kind.isOperator with
    | true => rw [kind_published_of_operator hk]
    | false =>
      rw [Kind.wraps_of_not_operator hk,
        Kind.wraps_of_not_operator ((isOperator_published _ kind).trans hk)]

/-- What a published node keeps, published code keeps. -/
theorem Each.published_all (hP : ∀ {kind : Kind} {notes : Notes} {slots : List (List Shape)},
      P (.node () kind notes slots) →
      P (.node () (kind.published (qualified notes)) notes
        (slots.map (List.map fun x => if kind.isOpen then x.published else x))))
    (h : x.All P) : x.published.All P := by
  induction x using Term.ind with
  | node tag kind notes slots ih =>
    rw [published_node]
    refine .node (hP h.top) fun _ c hc y hy => ?_
    obtain ⟨c', hc', rfl⟩ := List.mem_map.1 hc
    obtain ⟨z, hz, rfl⟩ := List.mem_map.1 hy
    have hz' := h.inside rfl c' hc' z hz
    cases kind.isOpen with
    | true => exact ih c' hc' z hz hz'
    | false => exact hz'

theorem heirless_published (h : x.All Heirless) : x.published.All Heirless := by
  refine h.published_all fun {kind notes slots} htop => ?_
  cases kind with
  | binary op type => exact htop.congr (alikeSlots_map fun c _ y _ => alike_published y) notes
  | methodDecl sig =>
    refine heirless_of_not_binary ?_
    unfold Kind.published
    dsimp only [kind_node]
    split <;> rfl
  | _ => exact heirless_of_not_binary rfl

/-- A node whose operands are published has the parentheses it had. -/
theorem Fenced.publish (h : (node () kind notes slots).Fenced) :
    (node () kind notes (slots.map (List.map published))).Fenced := by
  refine ⟨fun c hc y hy => ?_, fun s y ys hs hz => ?_⟩
  · obtain ⟨c', hc', rfl⟩ := List.mem_map.1 hc
    obtain ⟨z, hz, rfl⟩ := List.mem_map.1 hy
    exact (wraps_published kind false z).trans (h.inner c' hc' z hz)
  · change (s, y :: ys) ∈ kind.slots.zip (slots.map (List.map published)) at hz
    rw [List.zip_map_right] at hz
    obtain ⟨⟨s', c⟩, hc, he⟩ := List.mem_map.1 hz
    injection he with hs' hc'
    obtain ⟨z, zs, rfl, rfl, -⟩ := List.map_eq_cons_iff.1 hc'
    exact (wraps_published kind true z).trans (h.outer s z zs hs (hs' ▸ hc))

theorem fenced_published (h : x.All Fenced) : x.published.All Fenced := by
  refine h.published_all fun {kind notes slots} htop => ?_
  cases kind with
  | binary | cond | cast => exact htop.publish
  | methodDecl sig =>
    have hk : ∃ sig', (Kind.methodDecl sig).published (qualified notes) = .methodDecl sig' := by
      unfold Kind.published
      dsimp only
      split
      · exact ⟨_, rfl⟩
      · exact ⟨_, rfl⟩
    obtain ⟨sig', hk⟩ := hk
    rw [hk]
    exact ⟨fun _ _ _ _ => rfl, fun _ _ _ h => nomatch h⟩
  | _ => exact ⟨fun _ _ _ _ => rfl, fun _ _ _ h => by cases h⟩

/-- A kind is made public once. -/
theorem published_published (q : Bool) (k : Kind) : (k.published q).published q = k.published q := by
  cases k with
  | methodDecl sig =>
    by_cases h : (q || sig.modifiers.isPartial) = true
    · have hk : (Kind.methodDecl sig).published q = .methodDecl sig := if_pos h
      rw [hk, hk]
    · have hk : (Kind.methodDecl sig).published q = .methodDecl { sig with access := some .pub } :=
        if_neg h
      rw [hk]
      exact if_neg h
  | _ => rfl

theorem isOpen_published (q : Bool) (k : Kind) : (k.published q).isOpen = k.isOpen := by
  cases k with
  | methodDecl sig =>
    unfold Kind.published
    dsimp only
    split <;> rfl
  | _ => rfl

/-- Published code is public wherever publication reaches. -/
theorem public_published (x : Shape) : x.published.Each Kind.isOpen Public := by
  induction x using Term.ind with
  | node tag kind notes slots ih =>
    rw [published_node]
    refine .node (published_published ..) fun hopen c hc y hy => ?_
    rw [isOpen_published] at hopen
    rw [hopen] at hc
    obtain ⟨c', hc', rfl⟩ := List.mem_map.1 hc
    obtain ⟨z, hz, rfl⟩ := List.mem_map.1 hy
    exact ih c' hc' z hz

end Term

-- ================================================================ resting

variable {t t' : Tree} {place : Place} {next : Option NodeId} {id : NodeId} {kind : Kind}
  {notes : Notes} {slots : List (List Planted)} {P : Shape → Prop} {enter : Kind → Bool}
  {act : NodeId → Edit Unit}

/-- What lies in a slot of a standing node stands in it. -/
theorem Tree.Stands.inSlot (hs : t.Stands place next [.node id kind notes slots]) {s : Slot}
    {c : List Planted} (hc : (s, c) ∈ kind.slots.zip slots) (hne : c ≠ []) :
    t.Stands (.slot id s) none c := by
  have hlen : slots.length = kind.slots.length := (Tree.holdsChain_singleton.1 hs.holds).1
  obtain ⟨before, after, hz⟩ := List.append_of_mem hc
  have hk := List.map_fst_zip (Nat.le_of_eq hlen.symm)
  have hslots := List.map_snd_zip (Nat.le_of_eq hlen)
  rw [hz, List.map_append, List.map_cons] at hk hslots
  rw [← hslots] at hs
  exact hs.slot hk.symm (by rw [List.length_map, List.length_map]) hne

/-- Every chain below a standing node lies in a slot. -/
theorem Tree.Stands.exists_slot (hs : t.Stands place next [.node id kind notes slots])
    {c : List Planted} (hc : c ∈ slots) : ∃ s, (s, c) ∈ kind.slots.zip slots := by
  have hlen : slots.length = kind.slots.length := (Tree.holdsChain_singleton.1 hs.holds).1
  rw [← List.map_snd_zip (Nat.le_of_eq hlen)] at hc
  obtain ⟨⟨s, c⟩, hsc, rfl⟩ := List.mem_map.1 hc
  exact ⟨s, hsc⟩

/-- A child of a standing node stands below it. -/
theorem Tree.Stands.child (hs : t.Stands place next [.node id kind notes slots])
    {c : List Planted} (hc : c ∈ slots) {y : Planted} (hy : y ∈ c) :
    ∃ p n, t.Stands p n [y] := by
  obtain ⟨s, hsc⟩ := hs.exists_slot hc
  have hslot := hs.inSlot hsc (List.ne_nil_of_mem hy)
  obtain ⟨pre, post, rfl⟩ := List.append_of_mem hy
  have hsplit : pre ++ y :: post = pre ++ [y] ++ post := by simp
  rw [hsplit] at hslot
  exact ⟨_, _, hslot.part (List.cons_ne_nil y [])⟩

/-- The edit leaves a standing node, and all else, as it is. -/
def Rests (act : NodeId → Edit Unit) (x : Planted) : Prop :=
  ∀ t place next, t.Stands place next [x] → act x.tag t = (.ok (), t)

theorem forM_rests {l : List NodeId} (h : ∀ i ∈ l, act i t = (.ok (), t)) :
    l.forM act t = (.ok (), t) := by
  induction l with
  | nil => rfl
  | cons i l ih =>
    rw [Edit.forM_cons_run (h i (List.mem_cons_self ..))]
    exact ih fun j hj => h j (List.mem_cons_of_mem _ hj)

theorem children_rest (hs : t.Stands place next [.node id kind notes slots])
    (h : ∀ c ∈ slots, ∀ y ∈ c, Rests act y) : (t.children id).forM act t = (.ok (), t) := by
  have hchildren : t.children id = slots.flatten.map Term.tag :=
    Tree.children_of_holds hs.holds (by simpa using hs.nodup)
  rw [hchildren]
  refine forM_rests fun i hi => ?_
  obtain ⟨y, hy, rfl⟩ := List.mem_map.1 hi
  obtain ⟨c, hc, hy⟩ := List.mem_flatten.1 hy
  obtain ⟨p, n, hstands⟩ := hs.child hc hy
  exact h c hc y hy t p n hstands

namespace Visitor

variable {v : Visitor Edit}

/-- At a node with `P` the action does nothing itself. -/
def Still (v : Visitor Edit) (enter : Kind → Bool) (P : Shape → Prop) : Prop :=
  ∀ act walk (x : Planted) t place next, v.action? x.kind.role = some act → P x.shape →
    t.Stands place next [x] → (enter x.kind = true → walk x.tag t = (.ok (), t)) →
      act walk x.tag t = (.ok (), t)

/-- Code that is `P` wherever the visit comes is left as it is. -/
theorem visitFrom_rests (hv : v.Still enter P)
    (hnone : ∀ k : Kind, v.action? k.role = none → enter k = true) (fuel : Nat) (x : Planted)
    (hx : x.shape.Each enter P) : Rests (v.visitFrom fuel) x := by
  induction x using Term.ind generalizing fuel with
  | node id kind notes slots ih =>
    intro t place next hs
    cases fuel with
    | zero => rfl
    | succ fuel =>
      rw [Term.shape_node] at hx
      have hwalk : enter kind = true → v.walk fuel id t = (.ok (), t) := fun he => by
        refine (walkBy_run _ id t).trans (children_rest hs fun c hc y hy => ih c hc y hy fuel ?_)
        exact hx.inside he _ (List.mem_map_of_mem hc) _ (List.mem_map_of_mem hy)
      cases hact : v.action? kind.role with
      | none =>
        rw [visitFrom_none (x := .node id kind notes slots) hact hs]
        exact hwalk (hnone kind hact)
      | some act =>
        rw [visitFrom_some (x := .node id kind notes slots) hact hs]
        refine hv act _ (.node id kind notes slots) t place next hact ?_ hs hwalk
        rw [Term.shape_node]
        exact hx.top

theorem visit_rests (hv : v.Still enter P)
    (hnone : ∀ k : Kind, v.action? k.role = none → enter k = true) {x : Planted}
    (hx : x.shape.Each enter P) (hs : t.Stands place next [x]) : v.visit x.tag t = (.ok (), t) :=
  (visit_eq ..).trans (visitFrom_rests hv hnone _ x hx t place next hs)

end Visitor

namespace Tree

/-- A tree is told by its nodes. -/
theorem ext_node? (h : ∀ j, t.node? j = t'.node? j) : t = t' := by
  cases t
  cases t'
  exact congrArg Tree.mk (Array.ext_getElem? h)

theorem setKind_self {n : Node} (hn : t.node? id = some n) : t.setKind id n.kind = t := by
  refine ext_node? fun j => ?_
  rw [node?_setKind]
  split
  · next he =>
    rw [← he, hn]
    rfl
  · rfl

theorem heir?_eq_none {x : Planted} (hs : t.Stands place next [x]) (h : x.shape.Heirless) :
    t.heir? x.tag = none := by
  cases x with
  | node id kind notes slots =>
    rw [Term.shape_node] at h
    refine Option.eq_none_iff_forall_ne_some.2 fun o hheir => ?_
    obtain ⟨op, type, rfl, a, l, b, r, rfl, ho⟩ := heir?_eq_some hs.holds hheir
    obtain ⟨p, n, ha⟩ := hs.child (List.mem_cons_self ..) (List.mem_cons_self ..)
    obtain ⟨q, m, hb⟩ := hs.child (List.mem_cons_of_mem _ (List.mem_cons_self ..))
      (List.mem_cons_self ..)
    rw [survivor?_eq ha.holds.kind?_eq hb.holds.kind?_eq, ← Term.kind_shape a, ← Term.kind_shape b,
      h op type a.shape _ b.shape _ rfl rfl] at ho
    cases ho

end Tree

namespace Edit

theorem reducer_still : reducer.Still (fun _ => true) Term.Heirless := by
  intro act walk x t place next hact hx hs hwalk
  cases hbin : x.kind.isBinary with
  | false =>
    rw [action?_reducer hbin] at hact
    cases hact
  | true =>
    rw [action?_reducer_binary hbin] at hact
    injection hact with hact
    subst hact
    refine (bind_run (hwalk rfl)).trans ?_
    cases x with
    | node id kind notes slots =>
      have hheir : t.heir? id = none := Tree.heir?_eq_none hs hx
      exact (reduceHere_eq hs).trans (by rw [hheir])

theorem wrapWhere_rests {p : Kind → Bool} {x : Planted} (h : p x.kind = false) :
    Rests (wrapWhere p) x := by
  intro t place next hs
  have hnode : Edit.read (·.node x.tag) t = _ := Edit.read_run hs.holds.node_eq
  unfold wrapWhere
  rw [bind_run hnode]
  show (if p x.kind = true then wrap x.tag else pure ()) t = _
  rw [h]
  rfl

theorem wrapLooser_rests (hs : t.Stands place next [.node id kind notes slots])
    (h : ∀ c ∈ slots, ∀ y ∈ c, isLooser kind (Term.kind y) = false) :
    wrapLooser id t = (.ok (), t) := by
  have hnode : Edit.read (·.node id) t = _ := Edit.read_run hs.holds.node_eq
  have hread : Edit.read (fun t => .ok (t.children id)) t = (.ok (t.children id), t) :=
    Edit.read_run rfl
  unfold wrapLooser
  rw [bind_run hnode]
  exact (bind_run hread).trans (children_rest hs fun c hc y hy => wrapWhere_rests (h c hc y hy))

/-- The first node of a slot is left alone, if there is one. -/
theorem wrapWhere_head_rests {p : Kind → Bool} {s : Slot} {c : List Planted}
    (hs : t.Stands place next [.node id kind notes slots]) (hc : (s, c) ∈ kind.slots.zip slots)
    (h : ∀ y ys, c = y :: ys → p (Term.kind y) = false) :
    (match headOr none c with
      | none => pure ()
      | some child => wrapWhere p child : Edit Unit) t = (.ok (), t) := by
  cases c with
  | nil => rfl
  | cons y ys =>
    obtain ⟨q, n, hy⟩ := hs.child (List.of_mem_zip hc).2 (List.mem_cons_self ..)
    exact wrapWhere_rests (h y ys rfl) t q n hy

theorem wrapRegrouped_rests {s : Slot} {c : List Planted}
    (hs : t.Stands place next [.node id kind notes slots]) (hc : (s, c) ∈ kind.slots.zip slots)
    (h : ∀ y ys, c = y :: ys → isRegrouped kind (Term.kind y) = false) :
    wrapRegrouped id s t = (.ok (), t) := by
  have hhead : Edit.read (·.slotHead id s) t = (.ok (headOr none c), t) :=
    slotHead_run hs.holds hc
  unfold wrapRegrouped
  rw [bind_run hhead]
  have hrest := wrapWhere_head_rests hs hc h
  cases c with
  | nil => exact hrest
  | cons y ys =>
    have hnode : Edit.read (·.node id) t = _ := Edit.read_run hs.holds.node_eq
    exact (bind_run hnode).trans hrest

theorem wrapCastOperand_rests {c : List Planted}
    (hs : t.Stands place next [.node id kind notes slots])
    (hc : (.expr, c) ∈ kind.slots.zip slots)
    (h : ∀ y ys, c = y :: ys → (Term.kind y).isOperator = false) :
    wrapCastOperand id t = (.ok (), t) := by
  have hhead : Edit.read (·.slotHead id .expr) t = (.ok (headOr none c), t) :=
    slotHead_run hs.holds hc
  unfold wrapCastOperand
  rw [bind_run hhead]
  have hrest := wrapWhere_head_rests (p := Kind.isOperator) hs hc h
  cases c with
  | nil => exact hrest
  | cons y ys => exact hrest

/-- What the pass does at a node with all its parentheses. -/
theorem parensAt_rests (hs : t.Stands place next [.node id kind notes slots])
    (h : (Term.node id kind notes slots).shape.Fenced) : parensAt kind id t = (.ok (), t) := by
  rw [Term.shape_node] at h
  have hlen : slots.length = kind.slots.length := (Tree.holdsChain_singleton.1 hs.holds).1
  have hinner : ∀ c ∈ slots, ∀ y ∈ c, kind.wraps false (Term.kind y) = false :=
    fun c hc y hy => by
      have hy' := h.inner _ (List.mem_map_of_mem hc) _ (List.mem_map_of_mem hy)
      rwa [Term.kind_shape] at hy'
  have houter : ∀ s c, kind.openSlot? = some s → (s, c) ∈ kind.slots.zip slots →
      ∀ y ys, c = y :: ys → kind.wraps true (Term.kind y) = false := by
    rintro s c hs hc y ys rfl
    have hz : (s, (y :: ys).map Term.shape) ∈ kind.slots.zip (slots.map (List.map Term.shape)) := by
      rw [List.zip_map_right]
      exact List.mem_map.2 ⟨_, hc, rfl⟩
    have hy' := h.outer s y.shape _ hs hz
    rwa [Term.kind_shape] at hy'
  cases kind with
  | binary op type =>
    obtain ⟨l, r, rfl⟩ : ∃ l r, slots = [l, r] := List.length_eq_two.1 hlen
    have hr : (Slot.rhs, r) ∈ (Kind.binary op type).slots.zip [l, r] := by simp [Kind.slots]
    have hlooser := wrapLooser_rests hs fun c hc y hy =>
      Kind.isLooser_of_wraps rfl (hinner c hc y hy)
    exact (bind_run hlooser).trans (wrapRegrouped_rests hs hr fun y ys he =>
      Kind.isRegrouped_of_wraps rfl (houter _ _ rfl hr y ys he))
  | cond type =>
    obtain ⟨c, d, e, rfl⟩ : ∃ c d e, slots = [c, d, e] := List.length_eq_three.1 hlen
    have hc : (Slot.condition, c) ∈ (Kind.cond type).slots.zip [c, d, e] := by simp [Kind.slots]
    have hlooser := wrapLooser_rests hs fun c hc y hy =>
      Kind.isLooser_of_wraps rfl (hinner c hc y hy)
    exact (bind_run hlooser).trans (wrapRegrouped_rests hs hc fun y ys he =>
      Kind.isRegrouped_of_wraps rfl (houter _ _ rfl hc y ys he))
  | cast type =>
    obtain ⟨c, rfl⟩ : ∃ c, slots = [c] := List.length_eq_one_iff.1 hlen
    have hc : (Slot.expr, c) ∈ (Kind.cast type).slots.zip [c] := by simp [Kind.slots]
    exact wrapCastOperand_rests hs hc fun y ys he => houter _ _ rfl hc y ys he
  | _ => rfl

theorem parenthesizer_still : parenthesizer.Still (fun _ => true) Term.Fenced := by
  intro act walk x t place next hact hx hs hwalk
  cases x with
  | node id kind notes slots =>
    have hrest := parensAt_rests hs hx
    cases kind with
    | binary | cond | cast =>
      injection hact with hact
      subst hact
      exact (bind_run (hwalk rfl)).trans hrest
    | _ => cases hact

theorem publishHere_rests (hs : t.Stands place next [.node id kind notes slots])
    (h : (Term.node id kind notes slots).shape.Public) : publishHere id t = (.ok (), t) := by
  rw [Term.shape_node] at h
  obtain ⟨n, hn⟩ := Tree.exists_node?_of_lt (Tree.lt_size_of_node? hs.holds.node?_eq)
  have hnode : t.node? id = some (Term.top place next (.node id kind notes slots)).2 :=
    hs.holds.node?_eq
  have hname : t.name id = notes.name.getD "" := by
    unfold Tree.name
    rw [hnode]
    rfl
  have hcheck : (do return ((← t.node id).kind, (t.name id).contains '.') : Except Failure _)
      = .ok (kind, Term.qualified notes) := by
    rw [show t.node id = _ from hs.holds.node_eq, hname]
    rfl
  refine (change_run hcheck).trans ?_
  show (Except.ok (), t.setKind id (kind.published (Term.qualified notes))) = _
  rw [show kind.published (Term.qualified notes) = kind from h]
  exact congrArg _ (Tree.setKind_self hnode)

theorem publisher_still : publisher.Still Kind.isOpen Term.Public := by
  intro act walk x t place next hact hx hs hwalk
  cases x with
  | node id kind notes slots =>
    have hrest := publishHere_rests hs hx
    cases kind with
    | variableDecl | paramDecl | methodDecl | propertyDecl =>
      injection hact with hact
      subst hact
      exact hrest
    | classDecl sig =>
      injection hact with hact
      subst hact
      exact (bind_run hrest).trans (hwalk rfl)
    | _ => cases hact

theorem isOpen_of_action? (k : Kind) (h : publisher.action? k.role = none) : k.isOpen = true := by
  cases k <;> first | rfl | cases h

end Edit

-- ============================================================= the arena

namespace Tree

/-- What holds of every node of a term holds where the node stands. -/
theorem Stands.each_at {x : Planted} (hs : t.Stands place next [x]) (h : x.shape.All P) {i : NodeId}
    (hi : i ∈ x.tags) : ∃ p n y, Term.tag y = i ∧ t.Stands p n [y] ∧ P y.shape := by
  induction x using Term.ind generalizing place next with
  | node id kind notes slots ih =>
    rw [Term.shape_node] at h
    rw [Term.tags_node, List.mem_cons, List.mem_flatMap] at hi
    rcases hi with rfl | ⟨y, hy, hi⟩
    · refine ⟨place, next, .node i kind notes slots, rfl, hs, ?_⟩
      rw [Term.shape_node]
      exact h.top
    · obtain ⟨c, hc, hy⟩ := List.mem_flatten.1 hy
      obtain ⟨p, n, hstands⟩ := hs.child hc hy
      exact ih c hc y hy hstands
        (h.inside rfl _ (List.mem_map_of_mem hc) _ (List.mem_map_of_mem hy)) hi

/-- No child of a node with all its parentheses calls for more. -/
theorem wraps_eq_false {x : Planted} (hs : t.Stands place next [x]) (h : x.shape.Fenced)
    {child : NodeId} (hchild : child ∈ t.children x.tag) : t.wraps x.tag child = false := by
  cases x with
  | node id kind notes slots =>
    rw [Term.shape_node] at h
    have hlen : slots.length = kind.slots.length := (holdsChain_singleton.1 hs.holds).1
    have hchildren : t.children id = slots.flatten.map Term.tag :=
      children_of_holds hs.holds (by simpa using hs.nodup)
    rw [Term.tag_node, hchildren] at hchild
    obtain ⟨y, hy, rfl⟩ := List.mem_map.1 hchild
    obtain ⟨c, hc, hy⟩ := List.mem_flatten.1 hy
    obtain ⟨p, n, hstands⟩ := hs.child hc hy
    have hkind : t.kind? id = some kind := hs.holds.kind?_eq
    unfold Tree.wraps
    rw [Term.tag_node, hkind, hstands.holds.kind?_eq]
    show kind.wraps _ y.kind = false
    cases hopen : kind.openSlot?.any fun s => t.head id s == some y.tag with
    | false =>
      have h' := h.inner _ (List.mem_map_of_mem hc) _ (List.mem_map_of_mem hy)
      rwa [Term.kind_shape] at h'
    | true =>
      -- the child heads the open slot, so it is the operand that was looked at there
      obtain ⟨s, hs', hhead⟩ := (Option.any_eq_true ..).1 hopen
      have hslot : s ∈ (kind.slots.zip slots).map Prod.fst := by
        rw [List.map_fst_zip (Nat.le_of_eq hlen.symm)]
        exact Kind.openSlot?_mem hs'
      obtain ⟨⟨s, d⟩, hd, rfl⟩ := List.mem_map.1 hslot
      have hfirst := hs.holds.head_eq hd
      rw [Term.tag_node, beq_iff_eq.1 hhead] at hfirst
      cases d with
      | nil => cases hfirst
      | cons z zs =>
        obtain ⟨q, m, hz'⟩ := hs.child (List.of_mem_zip hd).2 (List.mem_cons_self ..)
        have hkinds : y.kind = z.kind := by
          have hz := hz'.holds.kind?_eq
          rw [← Option.some.inj hfirst, hstands.holds.kind?_eq] at hz
          exact Option.some.inj hz
        have hd' : (s, z.shape :: zs.map Term.shape)
            ∈ kind.slots.zip (slots.map (List.map Term.shape)) := by
          rw [List.zip_map_right]
          exact List.mem_map.2 ⟨_, hd, rfl⟩
        have h' := h.outer s _ _ hs' hd'
        rwa [Term.kind_shape, ← hkinds] at h'

/-- What stands has a chain for every slot. -/
theorem Stands.full_shape {x : Planted} (hs : t.Stands place next [x]) : x.shape.Full := by
  induction x using Term.ind generalizing place next with
  | node id kind notes slots ih =>
    rw [Term.shape_node]
    refine .node ?_ fun c hc y hy => ?_
    · exact (List.length_map ..).trans (holdsChain_singleton.1 hs.holds).1
    · obtain ⟨c', hc', rfl⟩ := List.mem_map.1 hc
      obtain ⟨z, hz, rfl⟩ := List.mem_map.1 hy
      obtain ⟨p, n, hstands⟩ := hs.child hc' hz
      exact ih c' hc' z hz hstands

end Tree

namespace Drafting

open Edit

/-- What the passes make of code: each of them has nothing left to do. -/
structure Settled (allPublic : Bool) (x : Shape) : Prop where
  reduced : x.All Term.Heirless
  fenced : x.All Term.Fenced
  published : allPublic = true → x.Each Kind.isOpen Term.Public

theorem settled_finished {x : Shape} (hx : x.Full) (h : x.All Term.Heirless) (allPublic : Bool) :
    Settled allPublic (if allPublic then x.parenthesized.published else x.parenthesized) := by
  have hheir : x.parenthesized.All Term.Heirless := h.heirless_parenthesized
  have hfence : x.parenthesized.All Term.Fenced := Term.fenced_parenthesized hx
  cases allPublic with
  | false => exact ⟨hheir, hfence, nofun⟩
  | true =>
    exact ⟨Term.heirless_published hheir, Term.fenced_published hfence,
      fun _ => Term.public_published _⟩

/-- Settled code is left as it is, wherever it stands. -/
theorem Settled.rewrite_run {x : Planted} {allPublic : Bool} (h : Settled allPublic x.shape)
    (hs : t.Stands place next [x]) (journal : Journal) :
    ∃ journal', rewrite x.tag allPublic ⟨t, journal⟩ = (.ok (), ⟨t, journal'⟩) := by
  have hreduce : reduce x.tag t = (.ok (), t) :=
    Visitor.visit_rests reducer_still (fun _ _ => rfl) h.reduced hs
  have horder : parenthesize x.tag t = (.ok (), t) :=
    Visitor.visit_rests parenthesizer_still (fun _ _ => rfl) h.fenced hs
  cases allPublic with
  | false =>
    obtain ⟨t₃, _, hpublish, -⟩ := publish_top hs
    exact rewrite_of_passes hreduce horder hpublish false journal
  | true =>
    have hpublish : publish x.tag t = (.ok (), t) :=
      Visitor.visit_rests publisher_still isOpen_of_action? (h.published rfl) hs
    exact rewrite_of_passes hreduce horder hpublish true journal

/-- Rewriting succeeds on everything but an operation, keeps all names and
leaves finished code, which is settled. -/
theorem settles {x : Planted} (hs : t.Stands place next [x])
    (hbin : x.kind.isBinary = false) (allPublic : Bool) (journal : Journal) :
    ∃ t' y journal', rewrite x.tag allPublic ⟨t, journal⟩ = (.ok (), ⟨t', journal'⟩)
      ∧ Term.tag y = x.tag ∧ y.shape = x.shape.finished allPublic
      ∧ Settled allPublic y.shape ∧ t'.Stands place next [y]
      ∧ ∀ j < t.size, t'.name j = t.name j := by
  cases x with
  | node id kind notes slots =>
    obtain ⟨t₁, slots₁, -, hcode, hswap, hreduce⟩ := reduce_top hs
    have hs₁ := hswap.stands hs (List.cons_ne_nil _ _) fun j hj =>
      Or.inl (by rwa [List.flatMap_singleton])
    -- there is nothing to reduce at the top itself
    have htop : (Term.node () kind notes (slots₁.map (List.map Term.shape))).Heirless :=
      Term.heirless_of_not_binary hbin
    have hheir : t₁.heir? id = none := Tree.heir?_eq_none hs₁ (by rwa [Term.shape_node])
    rw [reduceHere_eq hs₁, hheir] at hreduce
    have hall : (Term.node id kind notes slots₁).shape.All Term.Heirless := by
      rw [Term.shape_node]
      refine .node htop fun _ c hc y hy => ?_
      rw [hcode] at hc
      obtain ⟨c', -, rfl⟩ := List.mem_map.1 hc
      obtain ⟨z, -, hy⟩ := List.mem_flatMap.1 hy
      exact Term.heirless_reduced z y hy
    obtain ⟨t', y, journal', hrun, htag, hshape, hswap'⟩ :=
      rewrite_of_reduce (x := .node id kind notes slots₁) hreduce hs₁ allPublic journal
    have hbelow : (Term.node id kind notes slots₁).shape
        = (Term.node id kind notes slots).shape.reducedBelow := by
      rw [Term.shape_node, Term.shape_node, hcode]
      show _ = Term.node () kind notes
        ((slots.map (List.map Term.shape)).map fun c => c.flatMap Term.reduced)
      rw [List.map_map]
      rfl
    refine ⟨t', y, journal', hrun, htag, ?_, ?_,
      hswap'.stands hs₁ (List.cons_ne_nil _ _) fun j hj =>
        Or.inl (by rwa [List.flatMap_singleton]), fun j hj =>
      (hswap'.names j (Nat.lt_of_lt_of_le hj hswap.grows)).trans (hswap.names j hj)⟩
    · rw [hshape, hbelow]
      rfl
    · rw [hshape]
      exact settled_finished hs₁.full_shape hall allPublic

/-- A rewriting reaches a normal form: the code at a node that is not an
operation can be rewritten, no operation in it has an heir then and no
operand calls for parentheses, and another rewriting changes nothing in the
arena. -/
theorem rewrite_settles {root : NodeId} (hs : t.Sound) (hroot : root < t.size)
    (hbin : ∀ op type, t.kind? root ≠ some (.binary op type)) (allPublic : Bool)
    (journal : Journal) :
    ∃ t' journal', rewrite root allPublic ⟨t, journal⟩ = (.ok (), ⟨t', journal'⟩)
      ∧ (∀ i, t'.Within i root → t'.heir? i = none)
      ∧ (∀ i child, t'.Within i root → child ∈ t'.children i → t'.wraps i child = false)
      ∧ ∀ again, ∃ again', rewrite root allPublic ⟨t', again⟩ = (.ok (), ⟨t', again'⟩) := by
  obtain ⟨x, rfl, hx, -⟩ := hs.exists_term hroot
  have hnot : x.kind.isBinary = false := Kind.isBinary_eq_false fun op type hk =>
    hbin op type (hx.holds.kind?_eq.trans (congrArg some hk))
  obtain ⟨t', y, journal', hrun, htag, -, hsettled, hy, -⟩ := settles hx hnot allPublic journal
  have hsound : t'.Sound := by
    have h := (keeps_rewrite x.tag allPublic).sound ⟨t, journal⟩ hs
    rwa [hrun] at h
  obtain ⟨_, _, z, -, hstands, hwithin, hshape⟩ := hsound.exists_term_at hy
  rw [htag] at hwithin
  have hbelow : ∀ {P : Shape → Prop}, y.shape.All P → ∀ i, t'.Within i x.tag →
      ∃ p n w, Term.tag w = i ∧ t'.Stands p n [w] ∧ P w.shape := fun h i hi =>
    hstands.each_at (hshape ▸ h) ((hwithin i).2 hi)
  refine ⟨t', journal', hrun, fun i hi => ?_, fun i child hi hchild => ?_, fun again => ?_⟩
  · obtain ⟨p, n, w, rfl, hw, hheirless⟩ := hbelow hsettled.reduced i hi
    exact Tree.heir?_eq_none hw hheirless
  · obtain ⟨p, n, w, rfl, hw, hfenced⟩ := hbelow hsettled.fenced i hi
    exact Tree.wraps_eq_false hw hfenced hchild
  · exact htag ▸ hsettled.rewrite_run hy again

/-- The code `return (a | 0) & (int)(b + 1);` as it is built, without its
parentheses. -/
def maskedCast : Tree := Tree.built [.leaf (.snippetExpr "a" .int),
  .leaf (.intLit 0 .int false), .binary .or 0 1, .leaf (.snippetExpr "b" .int),
  .leaf (.intLit 1 .int false), .binary .add 3 4, .cast .int 5, .binary .and 2 6,
  .returnStmt (some 7)]

/-- The null operation is gone, the operand of the cast is wrapped, and the
arena has settled. -/
theorem rewrite_settles_maskedCast :
    maskedCast.heir? 2 = some 0 ∧ maskedCast.wraps 6 5 = true
      ∧ ∃ t' journal', rewrite 8 false ⟨maskedCast, #[]⟩ = (.ok (), ⟨t', journal'⟩)
      ∧ t'.children 7 = [0, 6] ∧ t'.children 6 = [10] ∧ t'.children 10 = [5]
      ∧ ∀ again, ∃ again', rewrite 8 false ⟨t', again⟩ = (.ok (), ⟨t', again'⟩) := by
  have hs : maskedCast.Sound := Tree.sound_built _
  have hroot : 8 < maskedCast.size := by decide
  have hkind : maskedCast.kind? 8 = some .returnStmt := by decide
  have hbin : ∀ op type, maskedCast.kind? 8 ≠ some (.binary op type) := fun op type h => by
    cases hkind.symm.trans h
  obtain ⟨t', journal', hrun, -, -, hagain⟩ := rewrite_settles hs hroot hbin false #[]
  have ht : (rewrite 8 false ⟨maskedCast, #[]⟩).2.tree = t' := by rw [hrun]
  refine ⟨by decide, by decide, t', journal', hrun, ?_, ?_, ?_, hagain⟩
  · rw [← ht]; decide
  · rw [← ht]; decide
  · rw [← ht]; decide

end Drafting

end RegisterMap.Code
