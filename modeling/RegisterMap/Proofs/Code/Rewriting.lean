/-
How a pass over the code comes down to what it does at one node. A pass
is a visitor that acts on the nodes of some roles. `Rewrites` says of an
edit what it makes of one standing node, in terms of code alone; if each
member of a chain is rewritten, so is the chain (`rewrites_chain`), and
if the chains below a node are, so is the node (`rewrites_slots`). What
is left for a particular pass is one step (`visitFrom_rewrites`): the
node itself, once everything below it has been visited.
-/
import RegisterMap.Proofs.Code.Linking
import RegisterMap.Code.Visit

open RegisterMap.Code.Tree (Stands Swaps)

namespace RegisterMap.Code

variable {act : NodeId → Edit Unit} {pass : Shape → List Shape} {t t' : Tree} {place : Place}
  {next : Option NodeId} {x : Planted} {xs : List Planted}

/-- Something is left of a node, and the node itself comes first unless it
is an operation. -/
def Term.Leaves (x : Planted) (ys : List Planted) : Prop :=
  ys ≠ [] ∧ (x.kind.isOperator = false → headOr none ys = some x.tag)

theorem Term.leaves_self (x : Planted) {y : Planted} (h : y.tag = x.tag) :
    x.Leaves [y] := ⟨List.cons_ne_nil _ _, fun _ => congrArg some h⟩

/-- The edit turns a standing node into the chain that `pass` makes of
its code. An operation may give up its place, so it has to have one. -/
def Rewrites (act : NodeId → Edit Unit) (pass : Shape → List Shape) (x : Planted) : Prop :=
  ∀ t place next, (place = .root → x.kind.isOperator = false) → t.Stands place next [x] →
    ∃ t' ys, act x.tag t = (.ok (), t') ∧ ys.map Term.shape = pass x.shape ∧ x.Leaves ys
      ∧ Swaps t t' place next x.tags ys

/-- A chain is rewritten member by member, behind the part that has been
rewritten already. -/
theorem rewrites_chain (h : ∀ x ∈ xs, Rewrites act pass x) (pre : List Planted)
    (hs : t.Stands place next (pre ++ xs)) (hroot : place ≠ .root) :
    ∃ t' ys, (xs.map Term.tag).forM act t = (.ok (), t')
      ∧ ys.map Term.shape = (xs.map Term.shape).flatMap pass ∧ (xs ≠ [] → ys ≠ [])
      ∧ Swaps t t' place next ((pre ++ xs).flatMap Term.tags) (pre ++ ys) := by
  induction xs generalizing t pre with
  | nil => exact ⟨t, [], rfl, rfl, id, hs.swaps_refl⟩
  | cons x rest ih =>
    have hsplit : pre ++ x :: rest = pre ++ [x] ++ rest := by simp
    rw [hsplit] at hs
    have hplace : endPlace place pre = .root → x.kind.isOperator = false := by
      intro he
      cases pre with
      | nil => exact absurd he hroot
      | cons y ys =>
        obtain ⟨l, -, hl⟩ := endPlace_mem (List.cons_ne_nil y ys) place
        rw [hl] at he
        cases he
    obtain ⟨t₁, zs, hrun₁, hzs, ⟨hne, -⟩, hswap⟩ := h x (List.mem_cons_self ..) t _ _ hplace
      (hs.part (List.cons_ne_nil x []))
    have hmem : ∀ j ∈ x.tags, j ∈ [x].flatMap Term.tags ∨ t.size ≤ j := fun j hj =>
      Or.inl (by rwa [List.flatMap_singleton])
    have hswap₁ := Swaps.inChain hs hswap hmem
    have hs₁ := hswap₁.stands hs (by simp [hne]) fun j hj => Or.inl hj
    obtain ⟨t₂, ws, hrun₂, hws, -, hswap₂⟩ := ih (fun y hy => h y (List.mem_cons_of_mem _ hy))
      (pre ++ zs) hs₁
    refine ⟨t₂, zs ++ ws, ?_, ?_, fun _ => by simp [hne], ?_⟩
    · rw [List.map_cons, Edit.forM_cons_run hrun₁, hrun₂]
    · rw [List.map_append, hzs, hws, List.map_cons, List.flatMap_cons]
    · rw [hsplit, ← List.append_assoc]
      exact hswap₁.trans hswap₂ fun j hj => Or.inl hj

/-- The chains below a node are rewritten one after the other. -/
theorem rewrites_slots {id : NodeId} {kind : Kind} {notes : Notes}
    (todo done : List (List Planted)) (h : ∀ c ∈ todo, ∀ x ∈ c, Rewrites act pass x)
    (hs : t.Stands place next [.node id kind notes (done ++ todo)]) :
    ∃ t' slots, (todo.flatten.map Term.tag).forM act t = (.ok (), t')
      ∧ slots.map (List.map Term.shape)
        = todo.map (fun c => (c.map Term.shape).flatMap pass)
      ∧ Swaps t t' place next (Term.node id kind notes (done ++ todo)).tags
        [.node id kind notes (done ++ slots)] := by
  induction todo generalizing t done with
  | nil =>
    have hrefl := hs.swaps_refl
    rw [List.flatMap_singleton] at hrefl
    exact ⟨t, [], rfl, rfl, hrefl⟩
  | cons c rest ih =>
    have hrest : ∀ c ∈ rest, ∀ x ∈ c, Rewrites act pass x :=
      fun c hc => h c (List.mem_cons_of_mem _ hc)
    by_cases hc : c = []
    · subst hc
      have hsplit : done ++ [] :: rest = (done ++ [[]]) ++ rest := by simp
      rw [hsplit] at hs ⊢
      obtain ⟨t', slots, hrun, hcode, hswap⟩ := ih (done ++ [[]]) hrest hs
      refine ⟨t', [] :: slots, hrun, ?_, ?_⟩
      · rw [List.map_cons, List.map_cons, hcode]
        rfl
      · have hsplit' : done ++ [] :: slots = (done ++ [[]]) ++ slots := by simp
        rw [hsplit']
        exact hswap
    · have hlen : (done ++ c :: rest).length = kind.slots.length :=
        (Tree.holdsChain_singleton.1 hs.holds).1
      rw [List.length_append, List.length_cons] at hlen
      obtain ⟨before, s, after, hk, hbefore⟩ : ∃ before s after,
          kind.slots = before ++ s :: after ∧ done.length = before.length := by
        have hlt : done.length < kind.slots.length := by omega
        refine ⟨kind.slots.take done.length, kind.slots[done.length],
          kind.slots.drop (done.length + 1), ?_, ?_⟩
        · rw [List.getElem_cons_drop, List.take_append_drop]
        · rw [List.length_take]
          omega
      have hslot := hs.slot hk hbefore hc
      obtain ⟨t₁, ys, hrun₁, hys, hne, hswap⟩ :=
        rewrites_chain (h c (List.mem_cons_self ..)) [] hslot Place.noConfusion
      have hswap₁ := Swaps.inSlot hs hk hbefore hswap fun j hj => Or.inl hj
      have hs₁ := hswap₁.stands hs (List.cons_ne_nil _ _) fun j hj =>
        Or.inl (by rwa [List.flatMap_singleton])
      have hsplit : done ++ ys :: rest = (done ++ [ys]) ++ rest := by simp
      rw [List.nil_append, hsplit] at hs₁ hswap₁
      obtain ⟨t₂, slots, hrun₂, hcode, hswap₂⟩ := ih (done ++ [ys]) hrest hs₁
      refine ⟨t₂, ys :: slots, ?_, ?_, ?_⟩
      · rw [List.flatten_cons, List.map_append, Edit.forM_append_run hrun₁, hrun₂]
      · rw [List.map_cons, List.map_cons, hcode, hys]
      · have hsplit' : done ++ ys :: slots = (done ++ [ys]) ++ slots := by simp
        rw [hsplit']
        refine hswap₁.trans hswap₂ fun j hj => Or.inl ?_
        rwa [List.flatMap_singleton]

namespace Visitor

variable {v : Visitor Edit} {fuel : Nat}

/-- Visits the children of a node. -/
def walk (v : Visitor Edit) (fuel : Nat) (i : NodeId) : Edit Unit := do
  let children ← Edit.read fun t => .ok (t.children i)
  children.forM (v.visitFrom fuel)

theorem visitFrom_succ (v : Visitor Edit) (fuel : Nat) (i : NodeId) :
    v.visitFrom (fuel + 1) i = (do
      let n ← Edit.read (·.node i)
      match v.action? n.kind.role with
      | some act => act (v.walk fuel) i
      | none => v.walk fuel i) := by
  rw [visitFrom]
  congr 1
  funext n
  cases v.action? n.kind.role <;> rfl

/-- What a visit makes of everything below a node. -/
theorem walk_run {id : NodeId} {kind : Kind} {notes : Notes} {slots : List (List Planted)}
    (h : ∀ c ∈ slots, ∀ x ∈ c, Rewrites (v.visitFrom fuel) pass x)
    (hs : t.Stands place next [.node id kind notes slots]) :
    ∃ t' slots', v.walk fuel id t = (.ok (), t')
      ∧ slots'.map (List.map Term.shape)
        = slots.map (fun c => (c.map Term.shape).flatMap pass)
      ∧ Swaps t t' place next (Term.node id kind notes slots).tags
        [.node id kind notes slots'] := by
  obtain ⟨t', slots', hrun, hcode, hswap⟩ := rewrites_slots slots [] h hs
  refine ⟨t', slots', ?_, hcode, hswap⟩
  have hchildren := Tree.children_of_holds hs.holds (by simpa using hs.nodup)
  have hread : Edit.read (fun t => .ok (t.children id)) t
      = (.ok (slots.flatten.map Term.tag), t) := Edit.read_run (congrArg Except.ok hchildren)
  exact (Edit.bind_run hread).trans hrun

/-- What a visit does at a standing node. -/
theorem visitFrom_run {x : Planted} (hs : t.Stands place next [x]) :
    v.visitFrom (fuel + 1) x.tag t = (match v.action? x.kind.role with
      | some act => act (v.walk fuel) x.tag
      | none => v.walk fuel x.tag) t := by
  rw [visitFrom_succ, Edit.bind_run (Edit.read_run hs.holds.node_eq)]
  rfl

/-- The visit of a node without an action. -/
theorem visitFrom_none {x : Planted} (hv : v.action? x.kind.role = none)
    (hs : t.Stands place next [x]) : v.visitFrom (fuel + 1) x.tag t = v.walk fuel x.tag t := by
  rw [visitFrom_run hs, hv]

/-- The visit of a node with an action. -/
theorem visitFrom_some {x : Planted} {act : (NodeId → Edit Unit) → NodeId → Edit Unit}
    (hv : v.action? x.kind.role = some act) (hs : t.Stands place next [x]) :
    v.visitFrom (fuel + 1) x.tag t = act (v.walk fuel) x.tag t := by
  rw [visitFrom_run hs, hv]

/-- One step of a pass: if the nodes below are rewritten, so is the node. -/
def Steps (v : Visitor Edit) (pass : Shape → List Shape) : Prop :=
  ∀ fuel x, (∀ c ∈ x.slots, ∀ y ∈ c, Rewrites (v.visitFrom fuel) pass y) →
    Rewrites (v.visitFrom (fuel + 1)) pass x

/-- A pass is what its steps make of it, from as many levels on as the
code has nodes. -/
theorem visitFrom_rewrites (hv : v.Steps pass) (x : Planted) {fuel : Nat}
    (hf : x.tags.length ≤ fuel) : Rewrites (v.visitFrom fuel) pass x := by
  induction x using Term.ind generalizing fuel with
  | node id kind notes slots ih =>
    rw [Term.tags_node, List.length_cons] at hf
    cases fuel with
    | zero => exact absurd hf (Nat.not_succ_le_zero _)
    | succ fuel =>
      refine hv fuel _ fun c hc y hy => ih c hc y hy ?_
      have hsub : y.tags.Sublist (slots.flatten.flatMap Term.tags) :=
        (Term.tags_sublist hy).trans ((List.sublist_flatten_of_mem hc).flatMap Term.tags)
      have := hsub.length_le
      omega

theorem visit_eq (v : Visitor Edit) (i : NodeId) (t : Tree) :
    v.visit i t = v.visitFrom (t.size + 1) i t :=
  Edit.bind_run (Edit.read_run rfl)

theorem tags_length_below (hs : t.Stands place next [x]) :
    ∀ c ∈ x.slots, ∀ y ∈ c, y.tags.length ≤ t.size := by
  intro c hc y hy
  have hlen := hs.holds.tags_length_le hs.nodup
  rw [List.flatMap_singleton, Term.tags_eq, List.length_cons] at hlen
  have hsub : y.tags.Sublist (x.slots.flatten.flatMap Term.tags) :=
    (Term.tags_sublist hy).trans ((List.sublist_flatten_of_mem hc).flatMap Term.tags)
  have := hsub.length_le
  omega

/-- A visit has enough levels left for everything below a standing node. -/
theorem rewrites_below (hv : v.Steps pass) (hs : t.Stands place next [x]) :
    ∀ c ∈ x.slots, ∀ y ∈ c, Rewrites (v.visitFrom t.size) pass y :=
  fun c hc y hy => visitFrom_rewrites hv y (tags_length_below hs c hc y hy)

theorem visit_run (hv : v.Steps pass) (hs : t.Stands place next [x])
    (hroot : place = .root → x.kind.isOperator = false) :
    ∃ t' ys, v.visit x.tag t = (.ok (), t') ∧ ys.map Term.shape = pass x.shape ∧ x.Leaves ys
      ∧ Swaps t t' place next x.tags ys := by
  have hlen := hs.holds.tags_length_le hs.nodup
  rw [List.flatMap_singleton] at hlen
  rw [visit_eq]
  exact visitFrom_rewrites hv x (Nat.le_succ_of_le hlen) t place next hroot hs

end Visitor

end RegisterMap.Code
