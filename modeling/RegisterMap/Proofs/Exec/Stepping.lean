/-
Execution of statements as they stand in finished code. A list of
statements is run step by step: `Runs` says what one of them leaves
behind, and a list goes on from there. Variables are read through
`Sees`, which says what a declaration stands for in a store and which
changes of the store it outlives.
-/
import RegisterMap.Proofs.Exec.Counting

namespace RegisterMap.Exec

open Code Term

variable {ctx : Context} {s s' : Store} {c d cl cr : List Shape} {f : Facts} {v v' : Value}

-- =========================================================== sequences

/-- The statements run through. -/
def Runs (ctx : Context) (c : List Shape) (s s' : Store) : Prop :=
  execList ctx (denote c) s = .ok (.next, s')

/-- The statements end with a result. -/
def Returns (ctx : Context) (c : List Shape) (s : Store) (v : Value) (s' : Store) : Prop :=
  execList ctx (denote c) s = .ok (.returned v, s')

theorem execList_cons {m : Meaning} {ms : List Meaning} (h : m.exec ctx s = .ok (.next, s')) :
    execList ctx (m :: ms) s = execList ctx ms s' := by
  rw [execList, Run.bind_run h]

theorem execList_append {ms ns : List Meaning} (h : execList ctx ms s = .ok (.next, s')) :
    execList ctx (ms ++ ns) s = execList ctx ns s' := by
  induction ms generalizing s with
  | nil =>
    obtain ⟨-, rfl⟩ := Prod.mk.inj (Except.ok.inj h)
    rfl
  | cons m ms ih =>
    unfold execList at h
    cases hm : m.exec ctx s with
    | error e =>
      rw [Run.bind_error hm] at h
      cases h
    | ok p =>
      obtain ⟨flow, s₁⟩ := p
      rw [Run.bind_run hm] at h
      cases flow with
      | next => rw [List.cons_append, execList_cons hm, ih h]
      | returned v => cases h

theorem runs_nil (s : Store) : Runs ctx [] s s := rfl

theorem Runs.append_eq (h : Runs ctx c s s') (d : List Shape) :
    execList ctx (denote (c ++ d)) s = execList ctx (denote d) s' := by
  rw [denote_append]
  exact execList_append h

theorem Runs.append (h : Runs ctx c s s') {s'' : Store} (hd : Runs ctx d s' s'') :
    Runs ctx (c ++ d) s s'' := (h.append_eq d).trans hd

theorem Runs.returns (h : Runs ctx c s s') {s'' : Store} (hd : Returns ctx d s' v s'') :
    Returns ctx (c ++ d) s v s'' := (h.append_eq d).trans hd

/-- A part of the statements for every number below `n`, and the store
before each of them. -/
theorem runs_range (part : Nat → List Shape) (store : Nat → Store) (n : Nat)
    (h : ∀ i < n, Runs ctx (part i) (store i) (store (i + 1))) :
    Runs ctx ((List.range n).flatMap part) (store 0) (store n) := by
  induction n with
  | zero => exact runs_nil _
  | succ n ih =>
    rw [List.range_succ, List.flatMap_append, List.flatMap_singleton]
    exact (ih fun i hi => h i (Nat.lt_succ_of_lt hi)).append (h n (Nat.lt_succ_self n))

/-- The same where the stores are known by what holds of them. -/
theorem runs_upTo {P : Nat → Store → Prop} (part : Nat → List Shape) (n : Nat) (h0 : P 0 s)
    (h : ∀ i < n, ∀ s, P i s → ∃ s', Runs ctx (part i) s s' ∧ P (i + 1) s') :
    ∃ s', Runs ctx ((List.range n).flatMap part) s s' ∧ P n s' := by
  induction n with
  | zero => exact ⟨s, runs_nil s, h0⟩
  | succ n ih =>
    obtain ⟨s₁, hruns₁, h₁⟩ := ih fun i hi => h i (Nat.lt_succ_of_lt hi)
    obtain ⟨s₂, hruns₂, h₂⟩ := h n (Nat.lt_succ_self n) s₁ h₁
    rw [List.range_succ, List.flatMap_append, List.flatMap_singleton]
    exact ⟨s₂, hruns₁.append hruns₂, h₂⟩

/-- What follows a statement that returns is not reached. -/
theorem Returns.append (h : Returns ctx c s v s') (d : List Shape) :
    Returns ctx (c ++ d) s v s' := by
  unfold Returns at h ⊢
  rw [denote_append]
  generalize denote c = ms at h
  induction ms generalizing s with
  | nil => cases h
  | cons m ms ih =>
    unfold execList at h
    cases hm : m.exec ctx s with
    | error e =>
      rw [Run.bind_error hm] at h
      cases h
    | ok p =>
      obtain ⟨flow, s₁⟩ := p
      rw [Run.bind_run hm] at h
      rw [List.cons_append]
      unfold execList
      rw [Run.bind_run hm]
      cases flow with
      | next => exact ih h
      | returned w => exact h

-- ============================================================== seeing

/-- A declaration stands for a variable of the given value. -/
def Sees (ctx : Context) (s : Store) (decl : NodeId) (v : Value) : Prop :=
  (s.lookup ctx.self (ctx.names decl)).map (·.value) = some v

variable {decl : NodeId} {x : Variable}

theorem sees_local (h : s.locals.get? (ctx.names decl) = some x) : Sees ctx s decl x.value := by
  unfold Sees Store.lookup
  rw [h]
  rfl

theorem sees_field (hl : s.locals.get? (ctx.names decl) = none)
    (hf : (s.heap.fields ctx.self).get? (ctx.names decl) = some x) :
    Sees ctx s decl x.value := by
  unfold Sees Store.lookup
  rw [hl, hf]
  rfl

theorem Sees.load (h : Sees ctx s decl v) :
    (Target.variable (ctx.names decl)).load ctx s = .ok (v, s) := by
  obtain ⟨x, hx, rfl⟩ := Option.map_eq_some_iff.1 h
  unfold Target.load
  dsimp only
  rw [hx]

/-- Another variable is declared. -/
theorem Sees.declare (h : Sees ctx s decl v) (hx : x.name ≠ ctx.names decl) :
    Sees ctx { s with locals := x :: s.locals } decl v := by
  unfold Sees Store.lookup Variables.get? at h ⊢
  rw [List.find?_cons_of_neg (by simpa using hx)]
  exact h

theorem get?_put_of_ne {vs : Variables} {name other : String} {w : Value} (h : name ≠ other) :
    (vs.put name w).get? other = vs.get? other := by
  induction vs with
  | nil => rfl
  | cons y rest ih =>
    unfold Variables.put
    split
    · next hy =>
      unfold Variables.get?
      have hne : y.name ≠ other := fun he => h (hy ▸ he)
      rw [List.find?_cons_of_neg (by simpa using hne), List.find?_cons_of_neg (by simpa using hne)]
    · unfold Variables.get? at ih ⊢
      by_cases hy : y.name = other
      · rw [List.find?_cons_of_pos (by simpa using hy), List.find?_cons_of_pos (by simpa using hy)]
      · rw [List.find?_cons_of_neg (by simpa using hy), List.find?_cons_of_neg (by simpa using hy),
          ih]

/-- The variable takes the value. -/
theorem get?_put (vs : Variables) (name : String) (w : Value) :
    (vs.put name w).get? name = (vs.get? name).map fun y => { y with value := w } := by
  induction vs with
  | nil => rfl
  | cons y rest ih =>
    unfold Variables.put
    split
    · next hy =>
      unfold Variables.get?
      rw [List.find?_cons_of_pos (by simpa using hy), List.find?_cons_of_pos (by simpa using hy)]
      rfl
    · next hy =>
      unfold Variables.get? at ih ⊢
      rw [List.find?_cons_of_neg (by simpa using hy), List.find?_cons_of_neg (by simpa using hy), ih]

/-- The heap changes, but not in the fields of the object. -/
theorem Sees.heap (h : Sees ctx s decl v) {heap : Heap}
    (hf : heap.fields ctx.self = s.heap.fields ctx.self) :
    Sees ctx { s with heap } decl v := by
  unfold Sees Store.lookup at h ⊢
  dsimp only
  rw [hf]
  exact h

/-- Use of a declaration. -/
theorem gives_use (type : TypeRef) (h : Sees ctx s decl v) :
    Gives ctx s [.leaf (.varRef decl type)] (type, none) v := by
  refine gives_leaf rfl ⟨rfl, rfl⟩ rfl ?_
  show ((do (← (pure (Target.variable (ctx.names decl)) : Run Target)).load ctx) : Run Value) s = _
  rw [Run.bind_run (Run.pure_run ..)]
  exact h.load

theorem denote_use (decl : NodeId) (type : TypeRef) :
    denote [.leaf (.varRef decl type)]
      = [.place fun ctx => pure (.variable (ctx.names decl))] :=
  denote_node rfl ..

-- ========================================================== statements

/-- An expression as a statement. -/
theorem runs_stmt {m : Meaning} (hm : denote c = [m]) (hv : m.value ctx s = .ok (v, s')) :
    Runs ctx [.above .exprStmt [c]] s s' := by
  unfold Runs Shape.above
  rw [denote_node rfl, List.map_singleton, hm]
  refine execList_cons ?_
  exact (Run.bind_run hv).trans rfl

theorem denote_assign {m n : Meaning} (type : TypeRef) (hm : denote cl = [m])
    (hn : denote cr = [n]) :
    denote [.above (.assign type) [cl, cr]] = [.expr (fun ctx => do
      let target ← m.target ctx
      let o ← n.operand ctx
      target.store ctx o)] := by
  unfold Shape.above
  rw [denote_node rfl, List.map_cons, List.map_singleton, hm, hn]
  rfl

/-- An assignment as a statement. -/
theorem runs_assign {type : TypeRef} {m : Meaning} {target : Target} (hm : denote cl = [m])
    (ht : m.target ctx s = .ok (target, s)) (hr : Gives ctx s cr f v)
    (hs : target.store ctx ⟨v, f.2.isSome⟩ s = .ok (v', s')) :
    Runs ctx [.above .exprStmt [[.above (.assign type) [cl, cr]]]] s s' := by
  obtain ⟨n, hn, hc, hv⟩ := hr.denote
  refine runs_stmt (v := v') (denote_assign type hm hn)
    ((Run.bind_run ht).trans ((Run.bind_run (operand_run hv)).trans ?_))
  rw [hc]
  exact hs

/-- A local variable takes a value of its type. -/
theorem runs_assign_local {type tuse : TypeRef} (hx : s.locals.get? (ctx.names decl) = some x)
    (hr : Gives ctx s cr f v) (hv : v.settle x.type f.2.isSome = .ok v') :
    Runs ctx [.above .exprStmt [[.above (.assign type) [[.leaf (.varRef decl tuse)], cr]]]] s
      { s with locals := s.locals.put (ctx.names decl) v' } := by
  have hstore : (Target.variable (ctx.names decl)).store ctx ⟨v, f.2.isSome⟩ s
      = .ok (v', { s with locals := s.locals.put (ctx.names decl) v' }) := by
    unfold Target.store
    dsimp only
    rw [hx]
    dsimp only
    rw [hv]
    rfl
  exact runs_assign (denote_use decl tuse) (Run.pure_run ..) hr hstore

/-- A variable is declared with a value. -/
theorem runs_declare {name : String} {type : TypeRef} {access : Option Access} {notes : Notes}
    (hname : notes.name.getD "" = name) (hr : Gives ctx s c f v)
    (hv : v.settle type f.2.isSome = .ok v') :
    Runs ctx [.node () (.variableDecl type access) notes [c]] s
      { s with locals := ⟨name, type, v'⟩ :: s.locals } := by
  obtain ⟨m, hm, hc, hval⟩ := hr.denote
  unfold Runs
  rw [denote_node rfl, List.map_singleton, hm]
  refine execList_cons ?_
  show declare (notes.name.getD "") type [m] ctx s = _
  unfold declare
  rw [hname]
  have hinit : initial type [m] ctx s = .ok (v', s) := by
    refine (Run.bind_run (operand_run hval)).trans ?_
    rw [hc]
    unfold Run.ofExcept
    rw [hv]
    rfl
  exact (Run.bind_run hinit).trans rfl

/-- A result is returned. -/
theorem returns_value {type : TypeRef} (ht : ctx.returns = some type) (hr : Gives ctx s c f v)
    (hv : v.settle type f.2.isSome = .ok v') :
    Returns ctx [.above .returnStmt [c]] s v' s := by
  obtain ⟨m, hm, hc, hval⟩ := hr.denote
  unfold Returns Shape.above
  rw [denote_node rfl, List.map_singleton, hm]
  have hexec : giveBack [m] ctx s = .ok (.returned v', s) := by
    unfold giveBack
    rw [ht]
    dsimp only
    rw [Run.bind_run (operand_run hval), hc]
    unfold Run.ofExcept
    rw [hv]
    rfl
  unfold execList
  exact (Run.bind_run hexec).trans rfl

end RegisterMap.Exec
