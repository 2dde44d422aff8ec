/-
Operations that fail. Most of them check everything before they change
anything, so a failure leaves the arena as it was (`AllOrNothing`). Two
kinds go on after a change, and what they do then cannot fail: a cut has
detached the siblings after the node, which may always replace it in a
sound arena (`Edit.cut_ok`), and a declaration is given its name, which
the new node can always be given (`named_allOrNothing`).

Only where the given chains are joined first can a later step fail after
an earlier one has changed the arena (`Operation.joins`).
-/
import RegisterMap.Proofs.Code.Reaching

namespace RegisterMap.Code

namespace Edit

variable {α β : Type} {t : Tree}

/-- Where the edit fails, the arena is afterwards as it was before. -/
structure AllOrNothing (e : Edit α) (t : Tree) : Prop where
  unchanged : ∀ f, (e t).1 = .error f → (e t).2 = t

theorem guarded_allOrNothing (check : Tree → Except Failure α) (act : α → Tree → β × Tree)
    (t : Tree) : AllOrNothing (guarded check act) t := ⟨fun _ h => guarded_unchanged h⟩

theorem change_allOrNothing (check : Tree → Except Failure α) (act : α → Tree → Tree) (t : Tree) :
    AllOrNothing (change check act) t := guarded_allOrNothing ..

theorem make_allOrNothing (kind : Tree → Except Failure Kind)
    (links : List (Slot × Option NodeId)) (t : Tree) : AllOrNothing (make kind links) t :=
  guarded_allOrNothing ..

theorem add_allOrNothing (kind : Kind) (links : List (Slot × Option NodeId)) (t : Tree) :
    AllOrNothing (add kind links) t := make_allOrNothing ..

theorem leaf_allOrNothing (kind : Kind) (t : Tree) : AllOrNothing (leaf kind) t :=
  guarded_allOrNothing ..

theorem insertAfter_allOrNothing (i other : NodeId) (insert : Bool) (t : Tree) :
    AllOrNothing (insertAfter i other insert) t := change_allOrNothing ..

theorem fill_allOrNothing (owner : NodeId) (slot : Slot) (i : NodeId) (t : Tree) :
    AllOrNothing (fill owner slot i) t := change_allOrNothing ..

/-- After an edit that fails cleanly comes one that does not fail. -/
theorem AllOrNothing.bind_ok {e : Edit α} {f : α → Edit β} (he : AllOrNothing e t)
    (hf : ∀ a t', e t = (.ok a, t') → ∃ b t'', f a t' = (.ok b, t'')) :
    AllOrNothing (e >>= f) t := by
  refine ⟨fun err h => ?_⟩
  cases hrun : e t with
  | mk r t' =>
    cases r with
    | error err' =>
      rw [bind_error_run hrun]
      exact (congrArg Prod.snd hrun).symm.trans (he.unchanged err' (congrArg Prod.fst hrun))
    | ok a =>
      obtain ⟨b, t'', hb⟩ := hf a t' hrun
      rw [bind_run hrun, hb] at h
      cases h

/-- Before an edit that fails cleanly something is looked up. -/
theorem AllOrNothing.after_read {look : Tree → Except Failure α} {f : α → Edit β}
    (hf : ∀ a, look t = .ok a → AllOrNothing (f a) t) : AllOrNothing (read look >>= f) t := by
  refine ⟨fun err h => ?_⟩
  cases hlook : look t with
  | error e =>
    have hread : read look t = (.error e, t) := guarded_of_error hlook
    rw [bind_error_run hread]
  | ok a =>
    rw [bind_run (read_run hlook)] at h ⊢
    exact (hf a hlook).unchanged err h

theorem AllOrNothing.discard {e : Edit α} (he : AllOrNothing e t) :
    AllOrNothing (Functor.discard e) t := by
  have h : Functor.discard e = e >>= fun _ => pure PUnit.unit := rfl
  rw [h]
  exact he.bind_ok fun _ t' _ => ⟨_, t', rfl⟩

theorem extend_allOrNothing (i other : NodeId) (t : Tree) : AllOrNothing (extend i other) t :=
  AllOrNothing.after_read fun _ _ => insertAfter_allOrNothing ..

theorem pushInto_allOrNothing (owner : NodeId) (slot : Slot) (i : NodeId) (t : Tree) :
    AllOrNothing (pushInto owner slot i) t := by
  refine AllOrNothing.after_read fun head _ => ?_
  cases head with
  | none => exact fill_allOrNothing ..
  | some head => exact extend_allOrNothing ..

/-- A cut either fails its checks or goes through to its end. -/
theorem cut_allOrNothing (hs : t.Sound) (i : NodeId) : AllOrNothing (cut i) t := by
  refine ⟨fun f h => ?_⟩
  by_cases hi : i < t.size ∧ (t.place i ≠ .root ∨ t.next? i ≠ none)
  · rw [cut_ok hs hi.1 hi.2] at h
    cases h
  · obtain ⟨f, hf⟩ := cut_error hi
    exact congrArg Prod.snd hf

-- =============================================================== naming

/-- Nodes that an edit answers are in the arena it leaves. -/
structure Creates (build : Edit NodeId) : Prop where
  lt_size : ∀ t t' i, build t = (.ok i, t') → i < t'.size

theorem guarded_creates {check : Tree → Except Failure α} {act : α → Tree → NodeId × Tree}
    (h : ∀ a t, (act a t).1 < (act a t).2.size) : Creates (guarded check act) := by
  refine ⟨fun t t' i hrun => ?_⟩
  cases hcheck : check t with
  | error e =>
    rw [guarded_of_error hcheck] at hrun
    cases hrun
  | ok a =>
    rw [guarded_of_ok hcheck] at hrun
    cases hrun
    exact h a t

theorem leaf_creates (kind : Kind) : Creates (leaf kind) :=
  guarded_creates fun _ t => by
    rw [Tree.size_push]
    exact Nat.lt_succ_self t.size

theorem make_creates (kind : Tree → Except Failure Kind) (links : List (Slot × Option NodeId)) :
    Creates (make kind links) :=
  guarded_creates fun k t => by
    rw [Tree.adopt_eq_claim, (Tree.claim_reads ..).1, Tree.size_push]
    exact Nat.lt_succ_self t.size

/-- A new node can be given its name. -/
theorem named_allOrNothing (name : String) {build : Edit NodeId} (h : AllOrNothing build t)
    (hbuild : Creates build) : AllOrNothing (named name build) t := by
  refine h.bind_ok fun i t' hrun => ?_
  have hlt : i < t'.nodes.size := hbuild.lt_size t t' i hrun
  have hnode : t'.node i = .ok t'.nodes[i] := by
    unfold Tree.node Tree.node?
    rw [Array.getElem?_eq_getElem hlt]
  have hname : setName i name t' = (.ok (), t'.setNotes i fun notes =>
      { notes with name := some name }) := by
    unfold setName annotate
    exact change_run hnode
  exact ⟨i, _, bind_run hname⟩

end Edit

-- ============================================================ operations

/-- The operation joins chains it is given before it goes on. -/
def Operation.joins : Operation → Bool
  | .call .. | .newObject .. | .branch .. | .methodDecl .. | .propertyDecl .. | .classDecl ..
  | .namespaceDecl .. | .join .. => true
  | _ => false

open Edit in
/-- An operation on a sound arena that fails leaves it as it was, whatever
the reason, unless it is one that joins chains first. -/
theorem Operation.failed_unchanged {t : Tree} (hs : t.Sound) (op : Operation)
    (hop : op.joins = false) {f : Failure} (h : (op.edit t).1 = .error f) :
    (op.edit t).2 = t := by
  suffices hall : AllOrNothing op.edit t from hall.unchanged f h
  cases op with
  | add | index | member | arg | newArray | exprStmt | returnStmt | throwStmt =>
    exact (add_allOrNothing ..).discard
  | leaf | literal => exact (leaf_allOrNothing ..).discard
  | reference | binary | cond | cast | paren | assign => exact (make_allOrNothing ..).discard
  | variableDecl => exact (named_allOrNothing _ (add_allOrNothing ..) (make_creates ..)).discard
  | paramDecl => exact (named_allOrNothing _ (leaf_allOrNothing ..) (leaf_creates _)).discard
  | annotate | detach | replace => exact change_allOrNothing ..
  | cut => exact cut_allOrNothing hs _
  | insertAfter => exact insertAfter_allOrNothing ..
  | extend => exact extend_allOrNothing ..
  | fill => exact fill_allOrNothing ..
  | pushInto => exact pushInto_allOrNothing ..
  | call | newObject | branch | methodDecl | propertyDecl | classDecl | namespaceDecl | join =>
    cases hop

/-- A node cannot be replaced by the head of its own chain, and one that is
alone cannot be cut. -/
theorem Operation.failed_unchanged_ownHead :
    ∃ t f g, t = Tree.built [.leaf (.snippet "a"), .leaf (.snippet "b"), .leaf (.snippet "c"),
        .join [0, 1]]
      ∧ (Operation.replace 1 0).joins = false ∧ ((Operation.replace 1 0).edit t).1 = .error f
      ∧ ((Operation.replace 1 0).edit t).2 = t
      ∧ (Operation.cut 2).joins = false ∧ ((Operation.cut 2).edit t).1 = .error g
      ∧ ((Operation.cut 2).edit t).2 = t := by
  let t := Tree.built [.leaf (.snippet "a"), .leaf (.snippet "b"), .leaf (.snippet "c"),
    .join [0, 1]]
  have hs : t.Sound := Tree.sound_built _
  have hcycle : ((Operation.replace 1 0).edit t).1 = .error (.link (.cycle (t.describe 0))) := by
    decide
  have halone : ((Operation.cut 2).edit t).1 = .error (.link (.notLinked (t.describe 2))) := by
    decide
  exact ⟨t, _, _, rfl, rfl, hcycle, failed_unchanged hs _ rfl hcycle, rfl, halone,
    failed_unchanged hs _ rfl halone⟩

-- a join of a chain that is named twice fails after the chain is linked
example :
    let t := Tree.built [.leaf (.snippet "a"), .leaf (.snippet "b")]
    (Edit.join [0, 1, 1] t).1.isOk = false ∧ t.next? 0 = none
      ∧ (Edit.join [0, 1, 1] t).2.next? 0 = some 1 := by decide

end RegisterMap.Code
