/-
A visit ends by itself. The number of levels a visit is given bounds it,
but the bound is never met: whatever stood in for the visit beyond it, and
however many levels were given, the result would be the same (`EndsAt`).

Two visits with enough levels are compared along the term they visit. The
action at a node is handed the walk to its children, so all that is asked
of a visitor is that equal walks make equal actions (`Uniform`). Between
the children the arena changes; that both walks meet the same arenas is
read off the one run of `agreed`, which stops at the first difference.
-/
import RegisterMap.Proofs.Code.Publishing

open RegisterMap.Code.Tree (Stands Swaps)

namespace RegisterMap.Code

variable {t t' : Tree} {place : Place} {next : Option NodeId} {act act' : NodeId → Edit Unit}
  {pass : Shape → List Shape} {x : Planted}

-- ============================================================ agreement

/-- Two edits do the same to a standing node. -/
def Agree (act act' : NodeId → Edit Unit) (x : Planted) : Prop :=
  ∀ t place next, t.Stands place next [x] → act x.tag t = act' x.tag t

open Classical in
/-- The first of two edits, where the second would do the same. -/
noncomputable def agreed (act act' : NodeId → Edit Unit) (i : NodeId) : Edit Unit := fun t =>
  if act i t = act' i t then act i t else (.error (.fault (.outOfRange t.size i)), t)

theorem agreed_of_eq {i : NodeId} (h : act i t = act' i t) :
    agreed act act' i t = act i t :=
  if_pos h

theorem Rewrites.agreed (hr : Rewrites act pass x) (ha : Agree act act' x) :
    Rewrites (agreed act act') pass x := by
  intro t place next hroot hs
  rw [agreed_of_eq (ha t place next hs)]
  exact hr t place next hroot hs

theorem agreed_run {i : NodeId} (h : agreed act act' i t = (.ok (), t')) :
    act i t = (.ok (), t') ∧ act' i t = (.ok (), t') := by
  unfold agreed at h
  split at h
  · next he => exact ⟨h, he ▸ h⟩
  · cases h

/-- A list of nodes gone through in agreement. -/
theorem forM_agreed {l : List NodeId} (h : l.forM (agreed act act') t = (.ok (), t')) :
    l.forM act t = l.forM act' t := by
  induction l generalizing t with
  | nil => rfl
  | cons i l ih =>
    obtain ⟨⟨⟩, t₁, hi, hl⟩ := Edit.exists_of_bind_run h
    obtain ⟨hact, hact'⟩ := agreed_run hi
    rw [Edit.forM_cons_run hact, Edit.forM_cons_run hact', ih hl]

/-- The children of a standing node gone through in agreement. -/
theorem forM_agree {id : NodeId} {kind : Kind} {notes : Notes} {slots : List (List Planted)}
    (hr : ∀ c ∈ slots, ∀ y ∈ c, Rewrites act pass y) (ha : ∀ c ∈ slots, ∀ y ∈ c, Agree act act' y)
    (hs : t.Stands place next [.node id kind notes slots]) :
    (t.children id).forM act t = (t.children id).forM act' t := by
  obtain ⟨t', -, hrun, -⟩ := rewrites_slots slots []
    (fun c hc y hy => (hr c hc y hy).agreed (ha c hc y hy)) hs
  have hchildren := Tree.children_of_holds hs.holds (by simpa using hs.nodup)
  rw [show t.children id = _ from hchildren]
  exact forM_agreed hrun

namespace Visitor

variable {v : Visitor Edit} {base : NodeId → Edit Unit} {fuel fuel' : Nat}

-- ================================================================ bound

/-- Visits the children of a node one after the other. -/
def walkBy (act : NodeId → Edit Unit) (i : NodeId) : Edit Unit := do
  let children ← Edit.read fun t => .ok (t.children i)
  children.forM act

theorem walkBy_run (act : NodeId → Edit Unit) (i : NodeId) (t : Tree) :
    walkBy act i t = (t.children i).forM act t :=
  Edit.bind_run (Edit.read_run rfl)

/-- A visit that does `base` where it has come to its bound. -/
def visitOr (v : Visitor Edit) (base : NodeId → Edit Unit) : (fuel : Nat) → NodeId → Edit Unit
  | 0, i => base i
  | fuel + 1, i => do
    let n ← Edit.read (·.node i)
    match v.action? n.kind.role with
    | some act => act (walkBy (v.visitOr base fuel)) i
    | none => walkBy (v.visitOr base fuel) i

theorem visitOr_pure (v : Visitor Edit) (fuel : Nat) :
    v.visitOr (fun _ => pure ()) fuel = v.visitFrom fuel := by
  induction fuel with
  | zero => rfl
  | succ fuel ih =>
    funext i
    rw [visitFrom_succ, visitOr, ih]
    rfl

/-- The visit of `i` never comes to its bound. -/
def EndsAt (v : Visitor Edit) (t : Tree) (i : NodeId) : Prop :=
  ∀ base fuel, t.size < fuel → v.visitOr base fuel i t = v.visit i t

/-- Equal walks make equal actions. An action may change what a node is
before it walks, but not what lies below. -/
def Uniform (v : Visitor Edit) : Prop :=
  ∀ act walk walk' (x : Planted), v.action? x.kind.role = some act →
    (∀ y : Planted, y.tag = x.tag → y.slots = x.slots → Agree walk walk' y) →
      Agree (act walk) (act walk') x

/-- Two visits agree as soon as both have a level for every node. -/
theorem visitFrom_agree (hv : v.Steps pass) (hu : v.Uniform) (base : NodeId → Edit Unit)
    (x : Planted) (hf : x.tags.length ≤ fuel) (hf' : x.tags.length ≤ fuel') :
    Agree (v.visitFrom fuel) (v.visitOr base fuel') x := by
  induction x using Term.ind generalizing fuel fuel' with
  | node id kind notes slots ih =>
    rw [Term.tags_node, List.length_cons] at hf hf'
    obtain ⟨fuel, rfl⟩ : ∃ n, fuel = n + 1 := ⟨fuel - 1, by omega⟩
    obtain ⟨fuel', rfl⟩ : ∃ n, fuel' = n + 1 := ⟨fuel' - 1, by omega⟩
    have hlen : ∀ c ∈ slots, ∀ y ∈ c, y.tags.length ≤ fuel ∧ y.tags.length ≤ fuel' := by
      intro c hc y hy
      have hsub : y.tags.Sublist (slots.flatten.flatMap Term.tags) :=
        (Term.tags_sublist hy).trans ((List.sublist_flatten_of_mem hc).flatMap Term.tags)
      have := hsub.length_le
      omega
    -- what is below is walked in agreement, whatever the node has become
    have hwalk : ∀ y : Planted, y.tag = id → y.slots = slots →
        Agree (walkBy (v.visitFrom fuel)) (walkBy (v.visitOr base fuel')) y := by
      intro y hid hslots t place next hs
      cases y with
      | node id' kind' notes' slots' =>
        obtain rfl : slots' = slots := hslots
        rw [walkBy_run, walkBy_run]
        exact forM_agree (fun c hc y hy => visitFrom_rewrites hv y (hlen c hc y hy).1)
          (fun c hc y hy => ih c hc y hy (hlen c hc y hy).1 (hlen c hc y hy).2) hs
    intro t place next hs
    rw [← visitOr_pure, visitOr, visitOr, Edit.bind_run (Edit.read_run hs.holds.node_eq),
      Edit.bind_run (Edit.read_run hs.holds.node_eq), visitOr_pure]
    show (match v.action? kind.role with
        | some act => act (walkBy (v.visitFrom fuel)) id
        | none => walkBy (v.visitFrom fuel) id) t
      = (match v.action? kind.role with
        | some act => act (walkBy (v.visitOr base fuel')) id
        | none => walkBy (v.visitOr base fuel') id) t
    cases hact : v.action? kind.role with
    | none => exact hwalk _ rfl rfl t place next hs
    | some act => exact hu act _ _ (.node id kind notes slots) hact hwalk t place next hs

section

variable (hv : v.Steps pass) (hu : v.Uniform)

include hv hu

/-- A visit does what a visit of any sufficient number of levels does. -/
theorem visit_agree (x : Planted) (hf : x.tags.length ≤ fuel) :
    Agree (v.visitFrom fuel) v.visit x := by
  intro t place next hs
  have hlen := hs.holds.tags_length_le hs.nodup
  rw [List.flatMap_singleton] at hlen
  have h := visitFrom_agree hv hu (fun _ => pure ()) x hf (Nat.le_succ_of_le hlen) t place next hs
  rw [visitOr_pure] at h
  rw [h, visit_eq]

/-- The visit of a standing node never comes to its bound. -/
theorem endsAt_run (hs : t.Stands place next [x]) : v.EndsAt t x.tag := by
  intro base fuel hlt
  have hlen := hs.holds.tags_length_le hs.nodup
  rw [List.flatMap_singleton] at hlen
  have hle : x.tags.length ≤ fuel := by omega
  rw [← visitFrom_agree hv hu base x hle hle t place next hs,
    visit_agree hv hu x hle t place next hs]

end

end Visitor

namespace Edit

theorem reducer_uniform : reducer.Uniform := by
  intro act walk walk' x hact hwalk t place next hs
  have h := hwalk x rfl rfl t place next hs
  cases hbin : x.kind.isBinary with
  | false =>
    rw [action?_reducer hbin] at hact
    cases hact
  | true =>
    rw [action?_reducer_binary hbin] at hact
    injection hact with hact
    subst hact
    exact bind_congr_run h _

theorem parenthesizer_uniform : parenthesizer.Uniform := by
  intro act walk walk' x hact hwalk t place next hs
  have h := hwalk x rfl rfl t place next hs
  cases hk : x.kind with
  | binary | cond | cast =>
    rw [hk] at hact
    injection hact with hact
    subst hact
    exact bind_congr_run h _
  | _ =>
    rw [hk] at hact
    cases hact

theorem publisher_uniform : publisher.Uniform := by
  intro act walk walk' x hact hwalk t place next hs
  cases x with
  | node id kind notes slots =>
    cases kind with
    | variableDecl | paramDecl | methodDecl | propertyDecl =>
      injection hact with hact
      subst hact
      rfl
    | classDecl sig =>
      injection hact with hact
      subst hact
      obtain ⟨t₁, hrun, hswap⟩ := publishHere_run hs
      have hs₁ := hswap.stands hs (List.cons_ne_nil _ _) fun j hj =>
        Or.inl (by rwa [List.flatMap_singleton])
      have h := hwalk (.node id (Kind.published (Term.qualified notes) (.classDecl sig)) notes slots)
        rfl rfl t₁ place next hs₁
      show (publishHere id >>= fun _ => walk id) t = (publishHere id >>= fun _ => walk' id) t
      rw [bind_run hrun, bind_run hrun]
      exact h
    | _ => cases hact

end Edit

end RegisterMap.Code
