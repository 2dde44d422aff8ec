/-
Evaluation of expressions as they stand in finished code. `Gives` says of
a chain of code that it reduces to one expression with a known type and
literal value, and what that evaluates to; there is one lemma for every
form of expression the generated classes are made of. Which operand of an
operation survives its reduction depends on nothing but what `Gives`
knows of the operands (`survives`).
-/
import RegisterMap.Proofs.Code.Sketching
import RegisterMap.Proofs.Exec.Finishing

namespace RegisterMap.Exec

open Code Term

-- ========================================================== surviving

/-- What the reduction of an operation looks at in an operand: its type
and, for a literal, its number. -/
abbrev Facts := TypeRef × Option Nat

/-- The operand is one of a type all of whose bits are set in `value`. -/
def Facts.fits (f : Facts) (value : Nat) : Bool := f.1.allOnes == some value

/-- The operand that is left of an operation: the left (`true`), the right
one, or neither. -/
def survives (op : Operator) (l r : Facts) : Option Bool :=
  match op with
  | .or | .xor | .add =>
    if l.2 = some 0 then some false
    else if r.2 = some 0 then some true
    else none
  | .and =>
    if l.2 = some 0 then some true
    else if r.2 = some 0 then some false
    else if l.2.any r.fits then some false
    else if r.2.any l.fits then some true
    else none
  | .shl | .shr | .ushr | .sub => if r.2 = some 0 then some true else none
  | _ => none

/-- What is known of the kind of an expression. -/
def Shows (k : Kind) (f : Facts) : Prop := k.exprType = some f.1 ∧ k.intValue? = f.2

theorem surviving?_eq {op : Operator} {a b : Kind} {l r : Facts} (ha : Shows a l)
    (hb : Shows b r) : op.surviving? a b = survives op l r := by
  have hfits : ∀ {k : Kind} {f : Facts}, Shows k f → k.fits = f.fits := by
    intro k f h
    funext v
    unfold Kind.fits Facts.fits
    rw [h.1]
    rfl
  cases op <;> simp [Operator.surviving?, survives, ha.2, hb.2, hfits ha, hfits hb]

-- ============================================================= giving

/-- The code reduces to one expression that shows `f` and has the value
`v`; evaluating it changes nothing. -/
def Gives (ctx : Context) (s : Store) (c : List Shape) (f : Facts) (v : Value) : Prop :=
  ∃ y, c.flatMap reduced = [y] ∧ Shows y.kind f ∧ (meaning y).constant = f.2.isSome
    ∧ (meaning y).value ctx s = .ok (v, s)

section

variable {ctx : Context} {s : Store} {c cl cr : List Shape} {f l r : Facts} {v vl vr : Value}

theorem Gives.denote (h : Gives ctx s c f v) :
    ∃ m, denote c = [m] ∧ m.constant = f.2.isSome ∧ m.value ctx s = .ok (v, s) := by
  obtain ⟨y, hy, -, hconst, hv⟩ := h
  refine ⟨meaning y, ?_, hconst, hv⟩
  unfold Exec.denote
  rw [hy]
  rfl

theorem operand_run {m : Meaning} (h : m.value ctx s = .ok (v, s)) :
    m.operand ctx s = .ok (⟨v, m.constant⟩, s) := by
  unfold Meaning.operand
  rw [Run.bind_run h]
  rfl

theorem ref_run {m : Meaning} {r : Ref} (h : m.value ctx s = .ok (.ref r, s)) :
    m.ref ctx s = .ok (r, s) := by
  unfold Meaning.ref
  rw [Run.bind_run h]
  rfl

theorem int_run {m : Meaning} {p : Primitive} {n : Int} (h : m.value ctx s = .ok (.int p n, s)) :
    m.int ctx s = .ok (n, s) := by
  unfold Meaning.int
  rw [Run.bind_run h]
  rfl

theorem bool_run {m : Meaning} {b : Bool} (h : m.value ctx s = .ok (.bool b, s)) :
    m.bool ctx s = .ok (b, s) := by
  unfold Meaning.bool
  rw [Run.bind_run h]
  rfl

/-- A leaf is not touched by the reduction. -/
theorem gives_leaf {k : Kind} (hk : k.isBinary = false) (hf : Shows k f)
    (hm : (nodeMeaning k {} []).constant = f.2.isSome)
    (hv : (nodeMeaning k {} []).value ctx s = .ok (v, s)) : Gives ctx s [.leaf k] f v := by
  refine ⟨.leaf k, ?_, hf, ?_, ?_⟩
  · rw [List.flatMap_singleton]
    unfold Shape.leaf
    rw [reduced_node, reduceTop_of_ne fun op type he => by rw [he] at hk; cases hk]
    rfl
  · unfold Shape.leaf
    rw [meaning_node]
    exact hm
  · unfold Shape.leaf
    rw [meaning_node]
    exact hv

/-- A node that is no operation, over chains that give what they give. -/
theorem gives_over {k : Kind} {slots : List (List Shape)} {type : TypeRef}
    (hk : k.isBinary = false) (hf : Shows k (type, none))
    (hm : (nodeMeaning k {} (slots.map denote)).constant = false)
    (hv : (nodeMeaning k {} (slots.map denote)).value ctx s = .ok (v, s)) :
    Gives ctx s [.above k slots] (type, none) v := by
  have hmean : meaning (.node () k {} (slots.map fun c => c.flatMap reduced))
      = nodeMeaning k {} (slots.map denote) := by
    rw [meaning_node, List.map_map]
    rfl
  refine ⟨.node () k {} (slots.map fun c => c.flatMap reduced), ?_, hf, ?_, ?_⟩
  · rw [List.flatMap_singleton]
    unfold Shape.above
    rw [reduced_node, reduceTop_of_ne fun op type he => by rw [he] at hk; cases hk]
  · rw [hmean]
    exact hm
  · rw [hmean]
    exact hv

/-- The code of an operation, by the operand that is left of it. -/
theorem reduced_binary {op : Operator} {type : TypeRef} {a b : Shape}
    (hl : cl.flatMap reduced = [a]) (hr : cr.flatMap reduced = [b]) (ha : Shows a.kind l)
    (hb : Shows b.kind r) :
    ([Shape.above (.binary op type) [cl, cr]] : List Shape).flatMap reduced
      = match survives op l r with
        | some true => [a]
        | some false => [b]
        | none => [.node () (.binary op type) {} [[a], [b]]] := by
  rw [List.flatMap_singleton]
  unfold Shape.above
  rw [reduced_node, List.map_cons, List.map_singleton, hl, hr, ← surviving?_eq ha hb]
  rfl

/-- Nothing is left of the operation but its left operand. -/
theorem Gives.left {op : Operator} (type : TypeRef) (hl : Gives ctx s cl l vl)
    (hr : Gives ctx s cr r vr) (h : survives op l r = some true) :
    Gives ctx s [.above (.binary op type) [cl, cr]] l vl := by
  obtain ⟨a, ha, hfa, hca, hva⟩ := hl
  obtain ⟨b, hb, hfb, -, -⟩ := hr
  refine ⟨a, ?_, hfa, hca, hva⟩
  rw [reduced_binary ha hb hfa hfb, h]

/-- Nothing is left of the operation but its right operand. -/
theorem Gives.right {op : Operator} (type : TypeRef) (hl : Gives ctx s cl l vl)
    (hr : Gives ctx s cr r vr) (h : survives op l r = some false) :
    Gives ctx s [.above (.binary op type) [cl, cr]] r vr := by
  obtain ⟨a, ha, hfa, -, -⟩ := hl
  obtain ⟨b, hb, hfb, hcb, hvb⟩ := hr
  refine ⟨b, ?_, hfb, hcb, hvb⟩
  rw [reduced_binary ha hb hfa hfb, h]

theorem binaryValue_run {op : Operator} {a b : Meaning} (hland : op ≠ .land) (hlor : op ≠ .lor)
    (ha : a.value ctx s = .ok (vl, s)) (hb : b.value ctx s = .ok (vr, s))
    (hop : operate op ⟨vl, a.constant⟩ ⟨vr, b.constant⟩ = .ok v) :
    binaryValue op a b ctx s = .ok (v, s) := by
  have hrun : binaryValue op a b ctx = (do
      let x ← a.operand ctx
      let y ← b.operand ctx
      Run.ofExcept (operate op x y)) := by
    cases op <;> first | rfl | exact absurd rfl hland | exact absurd rfl hlor
  rw [hrun, Run.bind_run (operand_run ha), Run.bind_run (operand_run hb)]
  unfold Run.ofExcept
  rw [hop]
  rfl

/-- An operation that stays. -/
theorem Gives.binary {op : Operator} (type : TypeRef) (hl : Gives ctx s cl l vl)
    (hr : Gives ctx s cr r vr) (hs : survives op l r = none) (hland : op ≠ .land)
    (hlor : op ≠ .lor) (hop : operate op ⟨vl, l.2.isSome⟩ ⟨vr, r.2.isSome⟩ = .ok v) :
    Gives ctx s [.above (.binary op type) [cl, cr]] (type, none) v := by
  obtain ⟨a, ha, hfa, hca, hva⟩ := hl
  obtain ⟨b, hb, hfb, hcb, hvb⟩ := hr
  refine ⟨.node () (.binary op type) {} [[a], [b]], ?_, ⟨rfl, rfl⟩, ?_, ?_⟩
  · rw [reduced_binary ha hb hfa hfb, hs]
  · rw [meaning_node]
    rfl
  · rw [meaning_node]
    exact binaryValue_run hland hlor hva hvb (by rw [hca, hcb]; exact hop)

end

end RegisterMap.Exec
