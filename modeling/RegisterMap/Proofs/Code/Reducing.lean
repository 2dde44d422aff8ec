/-
The removal of operations without effect, on code alone. Which operand
survives depends on the two operands' own nodes (`Operator.surviving?`);
the pass reduces what lies below a node first (`Term.reduced`). The edit
does the same to an arena (`reduce_run`): it takes the survivor out of
the operation and puts it where the operation stood.
-/
import RegisterMap.Proofs.Code.Rewriting
import RegisterMap.Code.Reduce

namespace RegisterMap.Code

def Kind.isBinary : Kind → Bool
  | .binary .. => true
  | _ => false

theorem Kind.isBinary_eq_false {kind : Kind} (h : ∀ op type, kind ≠ .binary op type) :
    kind.isBinary = false := by
  cases kind with
  | binary op type => exact absurd rfl (h op type)
  | _ => rfl

/-- An expression of a type all of whose bits are set in `value`. -/
def Kind.fits (kind : Kind) (value : Nat) : Bool := (kind.exprType.bind (·.allOnes)) == some value

/-- Whether an operation can be replaced by its left (`true`) or right
operand. -/
def Operator.surviving? (op : Operator) (left right : Kind) : Option Bool :=
  match op with
  | .or | .xor | .add =>
    if left.intValue? = some 0 then some false
    else if right.intValue? = some 0 then some true
    else none
  | .and =>
    if left.intValue? = some 0 then some true
    else if right.intValue? = some 0 then some false
    else if left.intValue?.any right.fits then some false
    else if right.intValue?.any left.fits then some true
    else none
  | .shl | .shr | .ushr | .sub => if right.intValue? = some 0 then some true else none
  | _ => none

namespace Term

/-- A node over reduced chains: an operation without effect is its
surviving operand. -/
def reduceTop (kind : Kind) (notes : Notes) (slots : List (List Shape)) : List Shape :=
  match kind, slots with
  | .binary op _, [a :: l, b :: r] =>
    match op.surviving? a.kind b.kind with
    | some true => a :: l
    | some false => b :: r
    | none => [.node () kind notes slots]
  | _, _ => [.node () kind notes slots]

/-- The code without operations that have no effect. -/
def reduced : Shape → List Shape :=
  fold fun _ kind notes slots => reduceTop kind notes (slots.map List.flatten)

theorem reduced_node (kind : Kind) (notes : Notes) (slots : List (List Shape)) :
    (node () kind notes slots).reduced
      = reduceTop kind notes (slots.map fun chain => chain.flatMap reduced) := by
  unfold reduced
  rw [fold_node, List.map_map]
  rfl

theorem reduceTop_of_ne {kind : Kind} (h : ∀ op type, kind ≠ .binary op type) (notes : Notes)
    (slots : List (List Shape)) : reduceTop kind notes slots = [.node () kind notes slots] := by
  unfold reduceTop
  split
  · next op type _ _ _ _ => exact absurd rfl (h op type)
  · rfl

section Binary

variable {op : Operator} {a b : Shape} {left right : List Shape}

theorem reduceTop_of_none (h : op.surviving? a.kind b.kind = none) (type : TypeRef)
    (notes : Notes) : reduceTop (.binary op type) notes [a :: left, b :: right]
      = [.node () (.binary op type) notes [a :: left, b :: right]] := by
  simp only [reduceTop, h]

theorem reduceTop_of_some {isLeft : Bool} (h : op.surviving? a.kind b.kind = some isLeft)
    (type : TypeRef) (notes : Notes) :
    reduceTop (.binary op type) notes [a :: left, b :: right]
      = if isLeft then a :: left else b :: right := by
  cases isLeft <;> simp only [reduceTop, h] <;> rfl

end Binary

end Term

namespace Tree

variable {t : Tree} {place : Place} {next : Option NodeId}

theorem survivor?_eq {lhs rhs : NodeId} {left right : Kind} (hl : t.kind? lhs = some left)
    (hr : t.kind? rhs = some right) (op : Operator) :
    t.survivor? op lhs rhs
      = (op.surviving? left right).map fun isLeft => if isLeft then lhs else rhs := by
  have hones : ∀ i k v, t.kind? i = some k → t.isAllOnesFor v i = k.fits v := by
    intro i k v hk
    unfold Tree.isAllOnesFor Tree.exprType?
    rw [hk]
    rfl
  have hil : t.intValue? lhs = left.intValue? := by
    unfold Tree.intValue?
    rw [hl]
    rfl
  have hir : t.intValue? rhs = right.intValue? := by
    unfold Tree.intValue?
    rw [hr]
    rfl
  have hal : (fun v => t.isAllOnesFor v lhs) = left.fits := funext fun v => hones lhs left v hl
  have har : (fun v => t.isAllOnesFor v rhs) = right.fits := funext fun v => hones rhs right v hr
  unfold Tree.survivor? Operator.surviving?
  simp only [hil, hir, hal, har]
  cases op <;> dsimp only <;> (try split_ifs) <;> rfl

/-- The chain in a slot of a node is put where the node was, and the node
stands alone without it. -/
theorem lift_run {id : NodeId} {kind : Kind} {notes : Notes} {s : Slot}
    {before after : List Slot} {done rest : List (List Planted)} {y : Planted}
    {ys : List Planted}
    (hs : t.Stands place next [.node id kind notes (done ++ (y :: ys) :: rest)])
    (hk : kind.slots = before ++ s :: after) (hlen : done.length = before.length)
    (hroot : place ≠ .root) :
    ∃ t', (do
        Edit.detach y.tag
        Edit.replace id y.tag : Edit Unit) t = (.ok (), t')
      ∧ Swaps t t' place next (Term.node id kind notes (done ++ (y :: ys) :: rest)).tags
        (y :: ys)
      ∧ t'.Stands .root none [.node id kind notes (done ++ [] :: rest)] := by
  have hslot := hs.slot hk hlen (List.cons_ne_nil y ys)
  obtain ⟨t₁, hdetach, hswap, hfree⟩ := detach_run hslot Place.noConfusion
  have hswap₁ := Swaps.inSlot hs hk hlen hswap fun j hj => Or.inl hj
  have hs₁ := hswap₁.stands hs (List.cons_ne_nil _ _) fun j hj =>
    Or.inl (by rwa [List.flatMap_singleton])
  have hn := hs.nodup
  rw [List.flatMap_singleton, tags_split, List.nodup_cons] at hn
  obtain ⟨-, -, -, hpx, hxq⟩ := nodup_parts hn.2
  have hdis : ∀ j ∈ (Term.node id kind notes (done ++ [] :: rest)).tags,
      j ∉ (y :: ys).flatMap Term.tags := by
    intro j hj hm
    rw [tags_split, List.append_nil, List.mem_cons, List.flatMap_append, List.mem_append] at hj
    rcases hj with rfl | hj | hj
    · refine hn.1 ?_
      rw [List.flatMap_append, List.flatMap_append]
      exact List.mem_append_left _ (List.mem_append_right _ hm)
    · exact (hpx j hj).1 hm
    · exact hxq j hm hj
  obtain ⟨t₂, hreplace, hswap₂, halone, -⟩ := replace_run hs₁ hroot hfree hdis
  refine ⟨t₂, (Edit.bind_run hdetach).trans hreplace,
    hswap₁.trans hswap₂ fun j hj => ?_, halone⟩
  rcases List.mem_append.1 hj with hj | hj
  · exact Or.inl (by rwa [List.flatMap_singleton])
  · refine Or.inr (Or.inl ?_)
    rw [tags_split, List.mem_cons, List.flatMap_append, List.flatMap_append]
    exact Or.inr (List.mem_append_left _ (List.mem_append_right _ hj))

end Tree

namespace Edit

open RegisterMap.Code.Tree (Stands Swaps)

variable {t : Tree} {place : Place} {next : Option NodeId}

theorem slotHead_run {x : Planted} (h : t.HoldsChain place next [x]) {s : Slot}
    {c : List Planted} (hs : (s, c) ∈ x.kind.slots.zip x.slots) :
    Edit.read (·.slotHead x.tag s) t = (.ok (headOr none c), t) := by
  refine Edit.read_run ?_
  unfold Tree.slotHead
  rw [h.node_eq]
  have hmem : s ∈ x.kind.slots := (List.of_mem_zip hs).1
  have hheads : headsOf x.kind.slots x.slots s = headOr none c :=
    headsOf_of_mem x.kind.nodup_slots hs
  show (if s ∈ x.kind.slots then Except.ok (headsOf x.kind.slots x.slots s) else _) = _
  rw [if_pos hmem, hheads]

/-- What the reduction of a single node makes of it. -/
theorem reduceHere_run {id : NodeId} {kind : Kind} {notes : Notes}
    {slots : List (List Planted)} (hs : t.Stands place next [.node id kind notes slots])
    (hroot : place = .root → kind.isOperator = false) :
    ∃ t' ys, Edit.reduceHere id t = (.ok (), t')
      ∧ ys.map Term.shape = Term.reduceTop kind notes (slots.map (List.map Term.shape))
      ∧ ys ≠ [] ∧ Swaps t t' place next (Term.node id kind notes slots).tags ys := by
  have hkeep := hs.swaps_refl
  rw [List.flatMap_singleton] at hkeep
  have hsame : ([.node id kind notes slots] : List Planted).map Term.shape
      = [.node () kind notes (slots.map (List.map Term.shape))] := by
    rw [List.map_singleton, Term.shape_node]
  have hnode : Edit.read (·.node id) t
      = (.ok (Term.top place next (.node id kind notes slots)).2, t) :=
    Edit.read_run hs.holds.node_eq
  by_cases hbin : ∃ op type, kind = .binary op type
  · obtain ⟨op, type, rfl⟩ := hbin
    have hroot' : place ≠ .root := fun he => by cases hroot he
    obtain ⟨l, r, rfl⟩ : ∃ l r, slots = [l, r] :=
      List.length_eq_two.1 (Tree.holdsChain_singleton.1 hs.holds).1
    have hl : Edit.read (·.slotHead id .lhs) t = (.ok (headOr none l), t) :=
      slotHead_run hs.holds (by simp [Kind.slots])
    have hr : Edit.read (·.slotHead id .rhs) t = (.ok (headOr none r), t) :=
      slotHead_run hs.holds (by simp [Kind.slots])
    unfold Edit.reduceHere
    rw [Edit.bind_run hnode]
    show ∃ t' ys, (read (·.slotHead id .lhs) >>= _) t = _ ∧ _
    rw [Edit.bind_run hl, Edit.bind_run hr]
    cases l with
    | nil => exact ⟨t, _, rfl, hsame, List.cons_ne_nil _ _, hkeep⟩
    | cons a l =>
      cases r with
      | nil => exact ⟨t, _, rfl, hsame, List.cons_ne_nil _ _, hkeep⟩
      | cons b r =>
        have hkl : (Kind.binary op type).slots = [] ++ .lhs :: [.rhs] := rfl
        have hkr : (Kind.binary op type).slots = [.lhs] ++ .rhs :: [] := rfl
        have hsl : t.Stands place next
          [.node id (.binary op type) notes ([] ++ (a :: l) :: [b :: r])] := hs
        have hsr : t.Stands place next
          [.node id (.binary op type) notes ([a :: l] ++ (b :: r) :: [])] := hs
        have hla := hsl.slot hkl rfl (List.cons_ne_nil a l)
        have hrb := hsr.slot hkr rfl (List.cons_ne_nil b r)
        have hka := (Tree.holdsChain_cons.1 hla.holds).1.kind?_eq
        have hkb := (Tree.holdsChain_cons.1 hrb.holds).1.kind?_eq
        have hsurv : Edit.read (fun t => .ok (t.survivor? op a.tag b.tag)) t
            = (.ok ((op.surviving? a.kind b.kind).map fun isLeft =>
              if isLeft then a.tag else b.tag), t) :=
          Edit.read_run (congrArg Except.ok (Tree.survivor?_eq hka hkb op))
        show ∃ t' ys, (read (fun t => .ok (t.survivor? op a.tag b.tag)) >>= _) t = _ ∧ _
        rw [Edit.bind_run hsurv]
        have hshape : op.surviving? a.shape.kind b.shape.kind = op.surviving? a.kind b.kind := by
          rw [Term.kind_shape, Term.kind_shape]
        cases hsv : op.surviving? a.kind b.kind with
        | none =>
          exact ⟨t, _, rfl, hsame.trans (Term.reduceTop_of_none (hshape.trans hsv) type notes).symm,
            List.cons_ne_nil _ _, hkeep⟩
        | some isLeft =>
          have hcode : Term.reduceTop (.binary op type) notes
              [(a :: l).map Term.shape, (b :: r).map Term.shape] = _ :=
            Term.reduceTop_of_some (hshape.trans hsv) type notes
          cases isLeft with
          | true =>
            obtain ⟨t', hlift, hswap, -⟩ := Tree.lift_run hsl hkl rfl hroot'
            exact ⟨t', a :: l, hlift, hcode.symm, List.cons_ne_nil _ _, hswap⟩
          | false =>
            obtain ⟨t', hlift, hswap, -⟩ := Tree.lift_run hsr hkr rfl hroot'
            exact ⟨t', b :: r, hlift, hcode.symm, List.cons_ne_nil _ _, hswap⟩
  · have hrun : Edit.reduceHere id t = (.ok (), t) := by
      unfold Edit.reduceHere
      rw [Edit.bind_run hnode]
      cases kind with
      | binary op type => exact absurd ⟨op, type, rfl⟩ hbin
      | _ => rfl
    refine ⟨t, _, hrun, ?_, List.cons_ne_nil _ _, hkeep⟩
    rw [hsame, Term.reduceTop_of_ne fun op type he => hbin ⟨op, type, he⟩]

theorem action?_reducer {kind : Kind} (h : kind.isBinary = false) :
    reducer.action? kind.role = none := by
  cases kind <;> first | rfl | cases h

theorem action?_reducer_binary {kind : Kind} (h : kind.isBinary = true) :
    reducer.action? kind.role = some (fun walk i => do
      walk i
      reduceHere i) := by
  cases kind <;> first | rfl | cases h

theorem reducer_steps : reducer.Steps Term.reduced := by
  intro fuel x hbelow t place next hroot hs
  cases x with
  | node id kind notes slots =>
    obtain ⟨t₁, slots', hwalk, hcode, hswap⟩ := Visitor.walk_run hbelow hs
    have hs₁ := hswap.stands hs (List.cons_ne_nil _ _) fun j hj =>
      Or.inl (by rwa [List.flatMap_singleton])
    have hpass : Term.reduced (Term.node id kind notes slots).shape
        = Term.reduceTop kind notes (slots'.map (List.map Term.shape)) := by
      rw [Term.shape_node, Term.reduced_node, hcode, List.map_map]
      rfl
    rw [hpass]
    cases hbin : kind.isBinary with
    | true =>
      obtain ⟨t₂, ys, hrun, hys, hne, hswap₂⟩ := reduceHere_run hs₁ hroot
      have hleaves : (Term.node id kind notes slots).Leaves ys := ⟨hne, fun hop => by
        cases kind with
        | binary => cases hop
        | _ => cases hbin⟩
      refine ⟨t₂, ys, ?_, hys, hleaves, hswap.trans hswap₂ fun j hj => Or.inl ?_⟩
      · rw [Visitor.visitFrom_some (x := .node id kind notes slots) (action?_reducer_binary hbin) hs]
        exact (Edit.bind_run hwalk).trans hrun
      · rwa [List.flatMap_singleton]
    | false =>
      have hne : ∀ op type, kind ≠ .binary op type := fun op type he => by
        rw [he] at hbin
        cases hbin
      have hnone : reducer.action? (Term.node id kind notes slots).kind.role = none :=
        action?_reducer hbin
      refine ⟨t₁, [.node id kind notes slots'], ?_, ?_, Term.leaves_self _ rfl, hswap⟩
      · rw [Visitor.visitFrom_none hnone hs]
        exact hwalk
      · rw [List.map_singleton, Term.shape_node, Term.reduceTop_of_ne hne]

/-- Reducing the code at a node does to the arena what it does to the
code. -/
theorem reduce_run {x : Planted} (hs : t.Stands place next [x])
    (hroot : place = .root → x.kind.isOperator = false) :
    ∃ t' ys, Edit.reduce x.tag t = (.ok (), t') ∧ ys.map Term.shape = x.shape.reduced ∧ x.Leaves ys
      ∧ Swaps t t' place next x.tags ys :=
  Visitor.visit_run reducer_steps hs hroot

end Edit

end RegisterMap.Code
