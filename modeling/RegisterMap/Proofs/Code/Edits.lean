/-
Runs of edits. An edit maps a tree to a result and a tree; the equations
here say what a run is made of, one for each way edits are put together,
so that no later argument opens the monad. A step that succeeds is
written `e t = (.ok a, t')`.

The file also has the elementary facts about the updates of one node that
the operations on links are made of: which names and kinds they keep.
-/
import RegisterMap.Proofs.Code.Swap
import RegisterMap.Proofs.Sequences
import RegisterMap.Code.Link

namespace RegisterMap

namespace Code

namespace Edit

variable {α β : Type} {t t' : Tree}

theorem bind_run {e : Edit α} {f : α → Edit β} {a : α} (h : e t = (.ok a, t')) :
    (e >>= f) t = f a t' := run_bind h

theorem bind_error_run {e : Edit α} {f : α → Edit β} {err : Failure} (h : e t = (.error err, t')) :
    (e >>= f) t = (.error err, t') := run_bind_error h

theorem bind_congr_run {e e' : Edit α} (h : e t = e' t) (f : α → Edit β) :
    (e >>= f) t = (e' >>= f) t := by
  show (match e t with | (r, s) => ExceptT.bindCont f r s)
    = match e' t with | (r, s) => ExceptT.bindCont f r s
  rw [h]

/-- A sequence that succeeds has succeeded at its first step. -/
theorem exists_of_bind_run {e : Edit α} {f : α → Edit β} {b : β}
    (h : (e >>= f) t = (.ok b, t')) :
    ∃ a t₁, e t = (.ok a, t₁) ∧ f a t₁ = (.ok b, t') := exists_of_run_bind h

/-- A sequence ends where its first step fails, or else where its second
step ends. -/
theorem bind_ends (e : Edit α) (f : α → Edit β) (t : Tree) :
    ((e >>= f) t).2 = (e t).2 ∨ ∃ a, (e >>= f) t = f a (e t).2 := by
  cases hrun : e t with
  | mk r s =>
    cases r with
    | error err => exact Or.inl (congrArg Prod.snd (bind_error_run hrun))
    | ok a => exact Or.inr ⟨a, bind_run hrun⟩

theorem map_run {e : Edit α} {f : α → β} {a : α} (h : e t = (.ok a, t')) :
    (f <$> e) t = (.ok (f a), t') := by
  rw [map_eq_pure_bind, bind_run h]
  rfl

theorem read_run {look : Tree → Except Failure α} {a : α} (h : look t = .ok a) :
    read look t = (.ok a, t) :=
  guarded_of_ok h

theorem check_run {r : Except Failure α} {a : α} (h : r = .ok a) :
    check r t = (.ok a, t) :=
  read_run h

theorem change_run {check : Tree → Except Failure α} {act : α → Tree → Tree} {a : α}
    (h : check t = .ok a) : change check act t = (.ok (), act a t) :=
  guarded_of_ok h

theorem forM_nil_run (f : α → Edit Unit) (t : Tree) : ([] : List α).forM f t = (.ok (), t) :=
  rfl

theorem forM_cons_run {f : α → Edit Unit} {a : α} {l : List α} (h : f a t = (.ok (), t')) :
    (a :: l).forM f t = l.forM f t' := by
  show (f a >>= fun _ => l.forM f) t = _
  rw [bind_run h]

theorem forM_append_run {f : α → Edit Unit} {l l' : List α} (h : l.forM f t = (.ok (), t')) :
    (l ++ l').forM f t = l'.forM f t' := by
  have happ : (l ++ l').forM f = l.forM f >>= fun _ => l'.forM f := List.forM_append ..
  rw [happ, bind_run h]

theorem mapM_cons_run {f : α → Edit β} {a : α} {l : List α} {b : β} {bs : List β}
    {t'' : Tree} (h : f a t = (.ok b, t')) (hl : l.mapM f t' = (.ok bs, t'')) :
    (a :: l).mapM f t = (.ok (b :: bs), t'') := by
  rw [List.mapM_cons, bind_run h, bind_run hl]
  rfl

end Edit

namespace Tree

theorem name_update {t : Tree} {i : NodeId} {f : Node → Node}
    (hf : ∀ n, (f n).notes.name = n.notes.name) (j : NodeId) :
    (t.update i f).name j = t.name j := by
  unfold Tree.name
  rw [node?_update]
  split
  · rw [Option.bind_map]
    congr 1
    congr 1
    funext n
    exact hf n
  · rfl

@[simp] theorem name_setPlace (t : Tree) (i j : NodeId) (p : Place) :
    (t.setPlace i p).name j = t.name j :=
  name_update (f := fun n => { n with place := p }) (fun _ => rfl) j

@[simp] theorem name_setNext (t : Tree) (i j : NodeId) (next : Option NodeId) :
    (t.setNext i next).name j = t.name j :=
  name_update (f := fun n => { n with next := next }) (fun _ => rfl) j

@[simp] theorem name_setHead (t : Tree) (i j : NodeId) (s : Slot) (head : Option NodeId) :
    (t.setHead i s head).name j = t.name j :=
  name_update (f := fun n => { n with heads := n.heads.set s head }) (fun _ => rfl) j

theorem kind?_update {t : Tree} {i : NodeId} {f : Node → Node}
    (hf : ∀ n, (f n).kind = n.kind) (j : NodeId) : (t.update i f).kind? j = t.kind? j := by
  unfold Tree.kind?
  rw [node?_update]
  split
  · rw [Option.map_map]
    congr 1
    funext n
    exact hf n
  · rfl

@[simp] theorem kind?_setPlace (t : Tree) (i j : NodeId) (p : Place) :
    (t.setPlace i p).kind? j = t.kind? j :=
  kind?_update (f := fun n => { n with place := p }) (fun _ => rfl) j

@[simp] theorem kind?_setNext (t : Tree) (i j : NodeId) (next : Option NodeId) :
    (t.setNext i next).kind? j = t.kind? j :=
  kind?_update (f := fun n => { n with next := next }) (fun _ => rfl) j

@[simp] theorem kind?_setHead (t : Tree) (i j : NodeId) (s : Slot) (head : Option NodeId) :
    (t.setHead i s head).kind? j = t.kind? j :=
  kind?_update (f := fun n => { n with heads := n.heads.set s head }) (fun _ => rfl) j

@[simp] theorem kind?_setNotes (t : Tree) (i j : NodeId) (f : Notes → Notes) :
    (t.setNotes i f).kind? j = t.kind? j :=
  kind?_update (f := fun n => { n with notes := f n.notes }) (fun _ => rfl) j

@[simp] theorem size_hold (t : Tree) (p : Place) (head : Option NodeId) :
    (t.hold p head).size = t.size := by
  cases p <;> simp [Tree.hold]

@[simp] theorem name_hold (t : Tree) (p : Place) (head : Option NodeId) (j : NodeId) :
    (t.hold p head).name j = t.name j := by
  cases p <;> simp [Tree.hold]

@[simp] theorem kind?_hold (t : Tree) (p : Place) (head : Option NodeId) (j : NodeId) :
    (t.hold p head).kind? j = t.kind? j := by
  cases p <;> simp [Tree.hold]

@[simp] theorem place_hold (t : Tree) (p : Place) (head : Option NodeId) (j : NodeId) :
    (t.hold p head).place j = t.place j := by
  cases p <;> simp [Tree.hold]

@[simp] theorem next?_hold (t : Tree) (p : Place) (head : Option NodeId) (j : NodeId) :
    (t.hold p head).next? j = if p = .after j ∧ j < t.size then head else t.next? j := by
  cases p <;> simp [Tree.hold]

@[simp] theorem head_hold (t : Tree) (p : Place) (head : Option NodeId) (j : NodeId)
    (s : Slot) :
    (t.hold p head).head j s = if p = .slot j s ∧ j < t.size then head else t.head j s := by
  cases p <;> simp [Tree.hold, and_assoc]

theorem node?_hold (t : Tree) (p : Place) (head : Option NodeId) (j : NodeId) :
    (t.hold p head).node? j = (t.node? j).map fun n =>
      { n with
        heads := fun s => if p = .slot j s then head else n.heads s
        next := if p = .after j then head else n.next } := by
  cases p with
  | root => simp [Tree.hold]
  | slot o s =>
    unfold Tree.hold
    rw [node?_setHead]
    by_cases h : o = j
    · rw [if_pos h]
      congr 1
      funext n
      congr 1
      funext s'
      unfold Heads.set
      simp [h, eq_comm]
    · simp [h]
  | after q =>
    unfold Tree.hold
    rw [node?_setNext]
    by_cases h : q = j
    · simp [h]
    · simp [h]

end Tree

end Code

end RegisterMap
