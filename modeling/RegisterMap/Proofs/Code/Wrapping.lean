/-
The parentheses of precedence, on code alone. An operand is wrapped where
its own node calls for it (`Term.wrapIf`), and the pass goes from the
leaves up (`Term.parenthesized`). The edit does the same to an arena
(`parenthesize_top`). Wrapping is the one pass that adds nodes: a hole
keeps the position while the parentheses are built around the operand.
-/
import RegisterMap.Proofs.Code.Reducing
import RegisterMap.Proofs.Code.Sowing
import RegisterMap.Code.Parenthesize

namespace RegisterMap.Code

namespace Term

/-- An operand with parentheses, if its kind calls for them. -/
def wrapIf (p : Kind → Bool) (x : Shape) : Shape :=
  if p x.kind then .node () (.paren (x.kind.exprType.getD .int)) {} [[x]] else x

/-- The same for the first node of a chain. -/
def wrapHead (p : Kind → Bool) : List Shape → List Shape
  | [] => []
  | x :: rest => x.wrapIf p :: rest

/-- The chains below a node with the parentheses it calls for. -/
def parenTop (kind : Kind) (slots : List (List Shape)) : List (List Shape) :=
  let loose := slots.map fun chain => chain.map (wrapIf (Edit.isLooser kind))
  match kind, loose with
  | .binary .., [l, r] => [l, wrapHead (Edit.isRegrouped kind) r]
  | .cond .., c :: rest => wrapHead (Edit.isRegrouped kind) c :: rest
  | .cast .., _ => slots.map (wrapHead Kind.isOperator)
  | _, _ => slots

/-- The code with the parentheses that precedence calls for. -/
def parenthesized : Shape → Shape := fold fun _ kind notes slots =>
  .node () kind notes (parenTop kind slots)

theorem parenthesized_node (kind : Kind) (notes : Notes) (slots : List (List Shape)) :
    (node () kind notes slots).parenthesized
      = node () kind notes (parenTop kind (slots.map fun chain => chain.map parenthesized)) := by
  unfold parenthesized
  rw [fold_node]

end Term

namespace Edit

open RegisterMap.Code.Tree (Stands Swaps Yields Stock)

variable {t t' : Tree} {place : Place} {next : Option NodeId} {old : List NodeId}
  {cs : List (List Planted)} {x y : Planted} {xs ys : List Planted}

-- ============================================================== wrapping

/-- A hole is put where an expression was, which is left alone. -/
theorem vacate_run (hs : t.Stands place next [y]) (hroot : place ≠ .root) :
    ∃ t₁ t₂, Edit.leaf .hole t = (.ok t.size, t₁) ∧ Edit.replace y.tag t.size t₁ = (.ok (), t₂)
      ∧ Swaps t t₂ place next y.tags [.node t.size .hole {} []] ∧ t₂.Stands .root none [y] := by
  obtain ⟨t₁, hleaf, hy₁⟩ := Tree.leaf_run hs.linked .hole
  obtain ⟨hole, hhole⟩ : ∃ hole : Planted, hole = .node t.size .hole {} [] := ⟨_, rfl⟩
  replace hy₁ : Yields t t₁ [] [[hole]] := hhole ▸ hy₁
  have hstags : [hole].flatMap Term.tags = [t.size] := by simp [hhole]
  have hholetag : hole.tag = t.size := by rw [hhole]; rfl
  have hnot : t.size ∉ y.tags := fun hm =>
    Nat.lt_irrefl _ (hs.holds.lt_size (by rwa [List.flatMap_singleton]))
  have hswap₁ := hy₁.swaps hs fun j _ hj => nomatch hj
  have hs₁ := hswap₁.stands hs (List.cons_ne_nil y []) fun j hj => Or.inl (by simpa using hj)
  obtain ⟨t₂, hrep₂, hswap₂, hfree₂, -⟩ := Tree.replace_run hs₁ hroot
    (hy₁.stock.stands (List.cons_ne_nil hole [])) fun j hj hm => by
      rw [hstags, List.mem_singleton] at hm
      exact hnot (hm ▸ hj)
  have hall₂ := hswap₁.trans hswap₂ fun j hj => by
    rw [hstags, List.mem_append, List.mem_singleton] at hj
    rcases hj with hj | rfl
    · exact Or.inl (by rwa [List.flatMap_singleton])
    · exact Or.inr (Or.inr (Nat.le_refl _))
  rw [List.append_nil, List.flatMap_singleton, hhole] at hall₂
  exact ⟨t₁, t₂, hleaf, hholetag ▸ hrep₂, hall₂, hfree₂⟩

/-- Parentheses are built around an expression that stands alone. -/
theorem paren_run {type : TypeRef} (hs : t.Stands .root none [y])
    (htype : y.kind.exprType = some type) :
    ∃ t', Edit.paren y.tag t = (.ok t.size, t')
      ∧ Yields t t' y.tags [[.node t.size (.paren type) {} [[y]]]] := by
  have htypes : Term.typeOf? [y.shape] = some type := (congrArg _ (Term.kind_shape y)).trans htype
  have hoperand := Sketch.operandType_eq [y] hs.stock (List.mem_singleton_self _) rfl rfl
    (by rw [List.map_singleton, htypes]; rfl)
  have htypeOf : Term.typeOf ([y].map Term.shape) = type := by
    unfold Term.typeOf
    rw [List.map_singleton, htypes]
    rfl
  rw [htypeOf] at hoperand
  have hslot : [(Slot.expr, some y.tag)]
      = (Kind.paren type).slots.zip ([[y]].map (headOr none)) := rfl
  obtain ⟨t', hparen, hy⟩ := Tree.make_run (fun t => return .paren (← t.operandType y.tag))
    (by rw [hoperand]; rfl) hs.stock rfl hslot fun _ _ he => nomatch he
  have hold : tagsOf [[y]] = y.tags := by simp
  exact ⟨t', hparen, hold ▸ hy⟩

/-- Parentheses take the place of an expression, with the expression
inside: a hole keeps the place open while they are built. -/
theorem wrap_run {type : TypeRef} (hs : t.Stands place next [y]) (hroot : place ≠ .root)
    (htype : y.kind.exprType = some type) :
    ∃ t' z, Edit.wrap y.tag t = (.ok (), t')
      ∧ Term.shape z = .node () (.paren type) {} [[y.shape]]
      ∧ Swaps t t' place next y.tags [z] := by
  obtain ⟨t₁, t₂, hleaf, hrep₂, hall₂, hfree₂⟩ := vacate_run hs hroot
  have hs₂ := hall₂.stands hs (List.cons_ne_nil _ []) fun j hj => Or.inl (by simpa using hj)
  obtain ⟨t₃, hparen, hy₃⟩ := paren_run hfree₂ htype
  obtain ⟨z, hz⟩ : ∃ z : Planted, z = .node t₂.size (.paren type) {} [[y]] := ⟨_, rfl⟩
  replace hy₃ : Yields t₂ t₃ y.tags [[z]] := hz ▸ hy₃
  have hztag : z.tag = t₂.size := by rw [hz]; rfl
  have hnot : t.size ∉ y.tags := fun hm =>
    Nat.lt_irrefl _ (hs.holds.lt_size (by rwa [List.flatMap_singleton]))
  have hlt : t.size < t₂.size := hs₂.holds.lt_size (by simp)
  have hswap₃ := hy₃.swaps hs₂ fun j hj hm => by
    obtain rfl : j = t.size := by simpa using hj
    exact hnot hm
  have hall₃ := hall₂.trans hswap₃ fun j hj => by
    rcases List.mem_append.1 hj with hj | hj
    · exact Or.inl hj
    · exact Or.inr (Or.inl hj)
  have hs₃ := hall₃.stands hs (List.cons_ne_nil _ []) fun j hj => Or.inl (by simpa using hj)
  have hfresh₃ : ∀ j ∈ [z].flatMap Term.tags, j ∈ y.tags ∨ t₂.size ≤ j := fun j hj =>
    hy₃.fresh j (by simpa using hj)
  obtain ⟨t₄, hrep₄, hswap₄, -, -⟩ := Tree.replace_run hs₃ hroot
    (hy₃.stock.stands (List.cons_ne_nil z [])) fun j hj hm => by
      obtain rfl : j = t.size := by simpa using hj
      exact (hfresh₃ _ hm).elim hnot (Nat.not_le_of_lt hlt)
  have hall₄ := hall₃.trans hswap₄ fun j hj => by
    rcases List.mem_append.1 hj with hj | hj
    · exact Or.inl (by rwa [List.flatMap_singleton])
    · rcases hfresh₃ j hj with h' | h'
      · exact Or.inr (Or.inl h')
      · exact Or.inr (Or.inr (Nat.le_trans hall₂.grows h'))
  rw [hztag] at hrep₄
  refine ⟨t₄, z, ?_, ?_, hall₄⟩
  · exact (Edit.bind_run hleaf).trans ((Edit.bind_run hrep₂).trans
      ((Edit.bind_run hparen).trans hrep₄))
  · rw [hz, Term.shape_node]
    rfl

-- ============================================================= operands

/-- Wraps an expression if its kind calls for it. -/
def wrapWhere (p : Kind → Bool) (i : NodeId) : Edit Unit := do
  let operand ← read (·.node i)
  if p operand.kind then wrap i

theorem wrapWhere_rewrites {p : Kind → Bool} (hp : ∀ k, p k = true → k.isOperator = true)
    (x : Planted) : Rewrites (wrapWhere p) (fun x => [x.wrapIf p]) x := by
  intro t place next hroot hs
  have hnode : Edit.read (·.node x.tag) t = _ := Edit.read_run hs.holds.node_eq
  unfold wrapWhere
  rw [Edit.bind_run hnode]
  show ∃ t' ys, (if p x.kind = true then wrap x.tag else pure ()) t = _ ∧ _
  by_cases hx : p x.kind = true
  · rw [if_pos hx]
    have hop := hp _ hx
    have hplace : place ≠ .root := fun he => by
      rw [hroot he] at hop
      cases hop
    obtain ⟨type, htype⟩ : ∃ type, x.kind.exprType = some type := by
      cases hk : x.kind with
      | binary _ type => exact ⟨type, rfl⟩
      | cond type => exact ⟨type, rfl⟩
      | _ => rw [hk] at hop; cases hop
    obtain ⟨t', z, hrun, hz, hswap⟩ := wrap_run hs hplace htype
    refine ⟨t', [z], hrun, ?_, ⟨List.cons_ne_nil _ _, fun h => ?_⟩, hswap⟩
    swap
    · rw [hop] at h
      cases h
    rw [List.map_singleton, hz]
    show _ = [x.shape.wrapIf p]
    unfold Term.wrapIf
    rw [Term.kind_shape, if_pos hx, htype]
    rfl
  · rw [if_neg hx]
    have hkeep := hs.swaps_refl
    rw [List.flatMap_singleton] at hkeep
    refine ⟨t, [x], rfl, ?_, x.leaves_self rfl, hkeep⟩
    show [x.shape] = [x.shape.wrapIf p]
    unfold Term.wrapIf
    rw [Term.kind_shape, if_neg hx]

theorem isOperator_of_isLooser {outer k : Kind} (h : isLooser outer k = true) :
    k.isOperator = true := by
  unfold isLooser at h
  exact (Bool.and_eq_true_iff.1 h).1

theorem isOperator_of_isRegrouped {outer k : Kind} (h : isRegrouped outer k = true) :
    k.isOperator = true := by
  unfold isRegrouped at h
  exact (Bool.and_eq_true_iff.1 (Bool.and_eq_true_iff.1 h).1).1

section

variable {id : NodeId} {kind : Kind} {notes : Notes} {slots rest : List (List Planted)}
  {c : List Planted}

/-- Every operand of a node is wrapped where it binds weaker. -/
theorem wrapLooser_run (hs : t.Stands place next [.node id kind notes slots]) :
    ∃ t' slots', wrapLooser id t = (.ok (), t')
      ∧ slots'.map (List.map Term.shape)
        = slots.map (fun c => (c.map Term.shape).map (Term.wrapIf (isLooser kind)))
      ∧ Swaps t t' place next (Term.node id kind notes slots).tags
        [.node id kind notes slots'] := by
  obtain ⟨t', slots', hrun, hcode, hswap⟩ := rewrites_slots slots []
    (fun c _ x _ => wrapWhere_rewrites (p := isLooser kind) (fun _ => isOperator_of_isLooser) x)
    hs
  have hnode : Edit.read (·.node id) t = _ := Edit.read_run hs.holds.node_eq
  have hread : Edit.read (fun t => .ok (t.children id)) t
      = (.ok (slots.flatten.map Term.tag), t) :=
    Edit.read_run (congrArg Except.ok (Tree.children_of_holds hs.holds (by simpa using hs.nodup)))
  refine ⟨t', slots', ?_, ?_, hswap⟩
  · unfold wrapLooser
    rw [Edit.bind_run hnode]
    exact (Edit.bind_run hread).trans hrun
  · rw [hcode]
    refine List.map_congr_left fun c _ => ?_
    exact List.flatMap_pure_eq_map (Term.wrapIf (isLooser kind)) (c.map Term.shape)

/-- The first node in a slot is wrapped if its kind calls for it. -/
theorem wrapWhere_head (done : List (List Planted)) (before : List Slot) (s : Slot)
    {after : List Slot} {p : Kind → Bool} (hp : ∀ k, p k = true → k.isOperator = true)
    (hs : t.Stands place next [.node id kind notes (done ++ c :: rest)])
    (hk : kind.slots = before ++ s :: after) (hlen : done.length = before.length) :
    ∃ t' c', (match headOr none c with
        | none => pure ()
        | some child => wrapWhere p child : Edit Unit) t = (.ok (), t')
      ∧ c'.map Term.shape = Term.wrapHead p (c.map Term.shape)
      ∧ Swaps t t' place next (Term.node id kind notes (done ++ c :: rest)).tags
        [.node id kind notes (done ++ c' :: rest)] := by
  cases c with
  | nil =>
    have hkeep := hs.swaps_refl
    rw [List.flatMap_singleton] at hkeep
    exact ⟨t, [], rfl, rfl, hkeep⟩
  | cons y ys =>
    have hslot := hs.slot hk hlen (List.cons_ne_nil y ys)
    have hsplit : t.Stands (.slot id s) none ([] ++ [y] ++ ys) := hslot
    have hpart := hsplit.part (List.cons_ne_nil y [])
    obtain ⟨t', zs, hrun, hcode, -, hswap⟩ := wrapWhere_rewrites hp y t _ _
      (fun he => Place.noConfusion he) hpart
    have hchain := Swaps.inChain hsplit hswap fun j hj =>
      Or.inl (by rwa [List.flatMap_singleton])
    refine ⟨t', zs ++ ys, hrun, ?_, Swaps.inSlot hs hk hlen hchain fun j hj => Or.inl hj⟩
    rw [List.map_append, hcode]
    rfl

theorem slotHead_split (done : List (List Planted)) (before : List Slot) (s : Slot)
    {after : List Slot} (hs : t.Stands place next [.node id kind notes (done ++ c :: rest)])
    (hk : kind.slots = before ++ s :: after) (hlen : done.length = before.length) :
    Edit.read (·.slotHead id s) t = (.ok (headOr none c), t) := by
  refine slotHead_run (x := .node id kind notes (done ++ c :: rest)) hs.holds ?_
  show (s, c) ∈ kind.slots.zip (done ++ c :: rest)
  rw [hk, Tree.zip_slots hlen]
  exact List.mem_append_right _ (List.mem_cons_self ..)

theorem wrapRegrouped_run (done : List (List Planted)) (before : List Slot) (s : Slot)
    {after : List Slot} (hs : t.Stands place next [.node id kind notes (done ++ c :: rest)])
    (hk : kind.slots = before ++ s :: after) (hlen : done.length = before.length) :
    ∃ t' c', wrapRegrouped id s t = (.ok (), t')
      ∧ c'.map Term.shape = Term.wrapHead (isRegrouped kind) (c.map Term.shape)
      ∧ Swaps t t' place next (Term.node id kind notes (done ++ c :: rest)).tags
        [.node id kind notes (done ++ c' :: rest)] := by
  obtain ⟨t', c', hrun, hrest⟩ := wrapWhere_head done before s (p := isRegrouped kind)
    (fun _ => isOperator_of_isRegrouped) hs hk hlen
  refine ⟨t', c', ?_, hrest⟩
  unfold wrapRegrouped
  rw [Edit.bind_run (slotHead_split done before s hs hk hlen)]
  cases c with
  | nil => exact hrun
  | cons y ys =>
    have hnode : Edit.read (·.node id) t = _ := Edit.read_run hs.holds.node_eq
    exact (Edit.bind_run hnode).trans hrun

theorem wrapCastOperand_run {type : TypeRef}
    (hs : t.Stands place next [.node id (.cast type) notes [c]]) :
    ∃ t' c', wrapCastOperand id t = (.ok (), t')
      ∧ c'.map Term.shape = Term.wrapHead Kind.isOperator (c.map Term.shape)
      ∧ Swaps t t' place next (Term.node id (.cast type) notes [c]).tags
        [.node id (.cast type) notes [c']] := by
  obtain ⟨t', c', hrun, hrest⟩ := wrapWhere_head [] [] .expr (p := Kind.isOperator)
    (fun _ h => h) hs rfl rfl
  refine ⟨t', c', ?_, hrest⟩
  unfold wrapCastOperand
  rw [Edit.bind_run (slotHead_split [] [] .expr hs rfl rfl)]
  cases c with
  | nil => exact hrun
  | cons y ys => exact hrun

end

-- ============================================================= the pass

/-- What the pass does at a node, once it has been below. -/
def parensAt (kind : Kind) (i : NodeId) : Edit Unit :=
  match kind with
  | .binary .. => do
    wrapLooser i
    wrapRegrouped i .rhs
  | .cond .. => do
    wrapLooser i
    wrapRegrouped i .condition
  | .cast .. => wrapCastOperand i
  | _ => pure ()

theorem visit_parens {fuel : Nat} (hs : t.Stands place next [x]) :
    parenthesizer.visitFrom (fuel + 1) x.tag t = (do
      parenthesizer.walk fuel x.tag
      parensAt x.kind x.tag : Edit Unit) t := by
  cases x with
  | node id kind notes slots =>
    cases kind with
    | binary op type => exact Visitor.visitFrom_some (v := parenthesizer) rfl hs
    | cond type => exact Visitor.visitFrom_some (v := parenthesizer) rfl hs
    | cast type => exact Visitor.visitFrom_some (v := parenthesizer) rfl hs
    | _ =>
      rw [Visitor.visitFrom_none rfl hs]
      exact congrFun (bind_pure (parenthesizer.walk fuel id)).symm t

theorem parensAt_run {id : NodeId} {kind : Kind} {notes : Notes} {slots : List (List Planted)}
    (hs : t.Stands place next [.node id kind notes slots]) :
    ∃ t' slots', parensAt kind id t = (.ok (), t')
      ∧ slots'.map (List.map Term.shape) = Term.parenTop kind (slots.map (List.map Term.shape))
      ∧ Swaps t t' place next (Term.node id kind notes slots).tags
        [.node id kind notes slots'] := by
  have hkeep := hs.swaps_refl
  rw [List.flatMap_singleton] at hkeep
  have hlen : slots.length = kind.slots.length := (Tree.holdsChain_singleton.1 hs.holds).1
  have hloose := wrapLooser_run hs
  cases kind with
  | binary op type =>
    obtain ⟨t₁, slots₁, hrun₁, hcode₁, hswap₁⟩ := hloose
    have hs₁ := hswap₁.stands hs (List.cons_ne_nil _ _) fun j hj =>
      Or.inl (by rwa [List.flatMap_singleton])
    obtain ⟨l, r, rfl⟩ : ∃ l r, slots₁ = [l, r] :=
      List.length_eq_two.1 (Tree.holdsChain_singleton.1 hs₁.holds).1
    obtain ⟨t₂, r', hrun₂, hcode₂, hswap₂⟩ := wrapRegrouped_run [l] [.lhs] .rhs hs₁ rfl rfl
    refine ⟨t₂, [l, r'], (Edit.bind_run hrun₁).trans hrun₂, ?_, hswap₁.trans hswap₂
      fun j hj => Or.inl (by rwa [List.flatMap_singleton])⟩
    unfold Term.parenTop
    rw [List.map_map]
    show _ = match (Kind.binary op type), List.map (fun c => (c.map Term.shape).map
      (Term.wrapIf (isLooser (.binary op type)))) slots with
      | .binary .., [l, r] => [l, Term.wrapHead (isRegrouped (.binary op type)) r]
      | .cond .., c :: rest => Term.wrapHead (isRegrouped (.binary op type)) c :: rest
      | .cast .., _ => (slots.map (List.map Term.shape)).map (Term.wrapHead Kind.isOperator)
      | _, _ => slots.map (List.map Term.shape)
    rw [← hcode₁]
    show [l.map Term.shape, r'.map Term.shape] = [l.map Term.shape, _]
    rw [hcode₂]
  | cond type =>
    obtain ⟨t₁, slots₁, hrun₁, hcode₁, hswap₁⟩ := hloose
    have hs₁ := hswap₁.stands hs (List.cons_ne_nil _ _) fun j hj =>
      Or.inl (by rwa [List.flatMap_singleton])
    obtain ⟨c, d, e, rfl⟩ : ∃ c d e, slots₁ = [c, d, e] :=
      List.length_eq_three.1 (Tree.holdsChain_singleton.1 hs₁.holds).1
    obtain ⟨t₂, c', hrun₂, hcode₂, hswap₂⟩ := wrapRegrouped_run [] [] .condition hs₁ rfl rfl
    refine ⟨t₂, [c', d, e], (Edit.bind_run hrun₁).trans hrun₂, ?_, hswap₁.trans hswap₂
      fun j hj => Or.inl (by rwa [List.flatMap_singleton])⟩
    unfold Term.parenTop
    rw [List.map_map]
    show _ = match (Kind.cond type), List.map (fun c => (c.map Term.shape).map
      (Term.wrapIf (isLooser (.cond type)))) slots with
      | .binary .., [l, r] => [l, Term.wrapHead (isRegrouped (.cond type)) r]
      | .cond .., c :: rest => Term.wrapHead (isRegrouped (.cond type)) c :: rest
      | .cast .., _ => (slots.map (List.map Term.shape)).map (Term.wrapHead Kind.isOperator)
      | _, _ => slots.map (List.map Term.shape)
    rw [← hcode₁]
    show [c'.map Term.shape, d.map Term.shape, e.map Term.shape]
      = [_, d.map Term.shape, e.map Term.shape]
    rw [hcode₂]
  | cast type =>
    obtain ⟨c, rfl⟩ : ∃ c, slots = [c] := List.length_eq_one_iff.1 hlen
    obtain ⟨t', c', hrun, hcode, hswap⟩ := wrapCastOperand_run hs
    refine ⟨t', [c'], hrun, ?_, hswap⟩
    show [c'.map Term.shape] = [Term.wrapHead Kind.isOperator (c.map Term.shape)]
    rw [hcode]
  | _ => exact ⟨t, slots, rfl, rfl, hkeep⟩

/-- A node once everything below it has been visited. It keeps its place,
whatever that is, since only what is above could wrap it. -/
theorem visit_parens_run {fuel : Nat} {id : NodeId} {kind : Kind} {notes : Notes}
    {slots : List (List Planted)} (hbelow : ∀ c ∈ slots, ∀ y ∈ c,
      Rewrites (parenthesizer.visitFrom fuel) (fun x => [x.parenthesized]) y)
    (hs : t.Stands place next [.node id kind notes slots]) :
    ∃ t' slots', parenthesizer.visitFrom (fuel + 1) id t = (.ok (), t')
      ∧ (Term.node id kind notes slots').shape
        = (Term.node id kind notes slots).shape.parenthesized
      ∧ Swaps t t' place next (Term.node id kind notes slots).tags
        [.node id kind notes slots'] := by
  obtain ⟨t₁, slots₁, hwalk, hcode₁, hswap₁⟩ := Visitor.walk_run hbelow hs
  have hs₁ := hswap₁.stands hs (List.cons_ne_nil _ _) fun j hj =>
    Or.inl (by rwa [List.flatMap_singleton])
  obtain ⟨t₂, slots₂, hrun, hcode₂, hswap₂⟩ := parensAt_run hs₁
  refine ⟨t₂, slots₂, ?_, ?_,
    hswap₁.trans hswap₂ fun j hj => Or.inl (by rwa [List.flatMap_singleton])⟩
  · exact (visit_parens (x := .node id kind notes slots) hs).trans
      ((Edit.bind_run hwalk).trans hrun)
  · rw [Term.shape_node, hcode₂, hcode₁, Term.shape_node, Term.parenthesized_node, List.map_map]
    congr 3
    funext c
    exact List.flatMap_pure_eq_map Term.parenthesized (c.map Term.shape)

theorem parenthesizer_steps : parenthesizer.Steps fun x => [x.parenthesized] := by
  intro fuel x hbelow t place next hroot hs
  cases x with
  | node id kind notes slots =>
    obtain ⟨t', slots', hrun, hcode, hswap⟩ := visit_parens_run hbelow hs
    exact ⟨t', [.node id kind notes slots'], hrun, congrArg (fun y => [y]) hcode,
      Term.leaves_self _ rfl, hswap⟩

/-- The pass from a node that stands anywhere, be it above everything, does
to the arena what it does to the code. -/
theorem parenthesize_top {x : Planted} (hs : t.Stands place next [x]) :
    ∃ t' y, Edit.parenthesize x.tag t = (.ok (), t') ∧ Term.shape y = x.shape.parenthesized
      ∧ y.tag = x.tag ∧ Swaps t t' place next x.tags [y] := by
  cases x with
  | node id kind notes slots =>
    obtain ⟨t', slots', hrun, hcode, hswap⟩ :=
      visit_parens_run (Visitor.rewrites_below parenthesizer_steps hs) hs
    exact ⟨t', .node id kind notes slots', (Visitor.visit_eq ..).trans hrun, hcode, rfl, hswap⟩

end Edit

end RegisterMap.Code
