/-
Code that acts. A call and the creation of an object change the heap while
they are evaluated: `Does` says of a chain of code what it gives and what
it leaves behind, next to `Gives` for what leaves everything as it was.
Such expressions stand as statements, as results and on the right of
assignments; branches and exceptions choose what is done at all.
-/
import RegisterMap.Proofs.Exec.Stepping

namespace RegisterMap.Exec

open Code Term

variable {ctx : Context} {s s' : Store} {c d cl cr : List Shape} {f l r : Facts} {v v' : Value}

-- ============================================================== acting

/-- The code is one expression that gives `v` and leaves `s'` behind. -/
def Does (ctx : Context) (s : Store) (c : List Shape) (v : Value) (s' : Store) : Prop :=
  ∃ m, denote c = [m] ∧ m.constant = false ∧ m.value ctx s = .ok (v, s')

/-- An expression that acts, as a statement. -/
theorem Does.runs (h : Does ctx s c v s') : Runs ctx [.above .exprStmt [c]] s s' := by
  obtain ⟨m, hm, -, hv⟩ := h
  exact runs_stmt hm hv

/-- An expression that acts, as the result. -/
theorem Does.returns {type : TypeRef} (h : Does ctx s c v s') (ht : ctx.returns = some type)
    (hv : v.settle type false = .ok v') : Returns ctx [.above .returnStmt [c]] s v' s' := by
  obtain ⟨m, hm, hc, hval⟩ := h
  have hoperand : m.operand ctx s = .ok (⟨v, false⟩, s') := by
    rw [← hc]
    exact (Run.bind_run hval).trans rfl
  have hexec : giveBack [m] ctx s = .ok (.returned v', s') := by
    unfold giveBack
    rw [ht]
    dsimp only
    rw [Run.bind_run hoperand]
    unfold Run.ofExcept
    rw [hv]
    rfl
  unfold Returns Shape.above
  rw [denote_node rfl, List.map_singleton, hm]
  unfold execList
  exact (Run.bind_run hexec).trans rfl

/-- The method ends without a result. -/
theorem returns_nothing (ht : ctx.returns = none) :
    Returns ctx [.above .returnStmt [[]]] s .nothing s := by
  have hexec : giveBack [] ctx s = .ok (.returned .nothing, s) := by
    unfold giveBack
    rw [ht]
    rfl
  unfold Returns Shape.above
  rw [denote_node rfl]
  unfold execList
  exact (Run.bind_run hexec).trans rfl

/-- A variable takes what an expression gives that acts. -/
theorem Does.runs_assign {type : TypeRef} {m : Meaning} {target : Target} {s'' : Store}
    (h : Does ctx s cr v s') (hm : denote cl = [m]) (ht : m.target ctx s = .ok (target, s))
    (hs : target.store ctx ⟨v, false⟩ s' = .ok (v', s'')) :
    Runs ctx [.above .exprStmt [[.above (.assign type) [cl, cr]]]] s s'' := by
  obtain ⟨n, hn, hc, hv⟩ := h
  have hoperand : n.operand ctx s = .ok (⟨v, false⟩, s') := by
    rw [← hc]
    exact (Run.bind_run hv).trans rfl
  exact runs_stmt (v := v') (denote_assign type hm hn)
    ((Run.bind_run ht).trans ((Run.bind_run hoperand).trans hs))

-- ============================================================ branching

/-- The statements end with an exception of the program. -/
def Throws (ctx : Context) (c : List Shape) (s : Store) : Prop :=
  execList ctx (denote c) s = .error .thrown

/-- What follows a statement that throws is not reached. -/
theorem Throws.append (h : Throws ctx c s) (d : List Shape) : Throws ctx (c ++ d) s := by
  unfold Throws at h ⊢
  rw [denote_append]
  generalize denote c = ms at h
  induction ms generalizing s with
  | nil => cases h
  | cons m ms ih =>
    unfold execList at h
    rw [List.cons_append]
    unfold execList
    cases hm : m.exec ctx s with
    | error e =>
      rw [Run.bind_error hm] at h ⊢
      exact h
    | ok p =>
      obtain ⟨flow, s₁⟩ := p
      rw [Run.bind_run hm] at h ⊢
      cases flow with
      | next => exact ih h
      | returned w => cases h

/-- An exception is thrown, whatever it is. -/
theorem Does.throws (h : Does ctx s c v s') : Throws ctx [.above .throwStmt [c]] s := by
  obtain ⟨m, hm, -, hv⟩ := h
  unfold Throws Shape.above
  rw [denote_node rfl, List.map_singleton, hm]
  unfold execList
  exact Run.bind_error ((Run.bind_run hv).trans rfl)

/-- A branch is the statements its condition chooses. -/
theorem execList_branch {b : Bool} (hc : Gives ctx s c f (.bool b)) (yes no : List Shape) :
    execList ctx (denote [.above .branch [c, yes, no]]) s
      = execList ctx (denote (if b then yes else no)) s := by
  obtain ⟨m, hm, -, hv⟩ := hc.denote
  have hexec : (nodeMeaning .branch {} [[m], denote yes, denote no]).exec ctx s
      = execList ctx (denote (if b then yes else no)) s := by
    refine (Run.bind_run (bool_run hv)).trans ?_
    cases b <;> rfl
  unfold Shape.above
  rw [denote_node rfl, List.map_cons, List.map_cons, List.map_singleton, hm, execList]
  generalize execList ctx (denote (if b then yes else no)) s = result at hexec ⊢
  cases result with
  | error e => exact Run.bind_error hexec
  | ok p =>
    obtain ⟨flow, s₁⟩ := p
    rw [Run.bind_run hexec]
    cases flow <;> rfl

theorem returns_branch {yes no : List Shape} (hc : Gives ctx s c f (.bool true))
    (h : Returns ctx yes s v s') : Returns ctx [.above .branch [c, yes, no]] s v s' :=
  (execList_branch hc yes no).trans h

theorem throws_branch {yes : List Shape} (no : List Shape) (hc : Gives ctx s c f (.bool true))
    (h : Throws ctx yes s) : Throws ctx [.above .branch [c, yes, no]] s :=
  (execList_branch hc yes no).trans h

/-- A guard that does not hold is passed. -/
theorem runs_guard {yes : List Shape} (hc : Gives ctx s c f (.bool false)) :
    Runs ctx [.above .branch [c, yes, []]] s s :=
  execList_branch hc yes []

-- ========================================================== connectives

/-- A connective of two truth values that are both known. -/
theorem gives_connective {op : Operator} (type : TypeRef) {a b : Bool} {g : Bool → Bool → Bool}
    (hop : op = .land ∧ g = and ∨ op = .lor ∧ g = or) (hl : Gives ctx s cl l (.bool a))
    (hr : Gives ctx s cr r (.bool b)) :
    Gives ctx s [.above (.binary op type) [cl, cr]] (type, none) (.bool (g a b)) := by
  obtain ⟨x, hx, hfx, -, hvx⟩ := hl
  obtain ⟨y, hy, hfy, -, hvy⟩ := hr
  have hsurv : survives op l r = none := by
    rcases hop with ⟨rfl, -⟩ | ⟨rfl, -⟩ <;> rfl
  have hval : binaryValue op (meaning x) (meaning y) ctx s = .ok (.bool (g a b), s) := by
    rcases hop with ⟨rfl, rfl⟩ | ⟨rfl, rfl⟩
    · refine (Run.bind_run (bool_run hvx)).trans ?_
      cases a
      · rfl
      · exact (Run.bind_run (bool_run hvy)).trans rfl
    · refine (Run.bind_run (bool_run hvx)).trans ?_
      cases a
      · exact (Run.bind_run (bool_run hvy)).trans rfl
      · rfl
  refine ⟨.node () (.binary op type) {} [[x], [y]], ?_, ⟨rfl, rfl⟩, ?_, ?_⟩
  · rw [reduced_binary hx hy hfx hfy, hsurv]
  · rw [meaning_node]
    rfl
  · rw [meaning_node]
    exact hval

/-- Two numbers are compared. -/
theorem gives_compare (op : Operator) (type : TypeRef) {p q t : Primitive} {m n : Int} {b : Bool}
    (hl : Gives ctx s cl l (.int p m)) (hr : Gives ctx s cr r (.int q n))
    (hstay : Stays p q ∧ Stays q p) (ht : p.common q = some t) (hop : op.compare m n = some b) :
    Gives ctx s [.above (.binary op type) [cl, cr]] (type, none) (.bool b) := by
  have hkind : survives op l r = none ∧ op ≠ .land ∧ op ≠ .lor ∧ op.isShift = false := by
    cases op <;> first | (cases hop; done) | exact ⟨rfl, nofun, nofun, rfl⟩
  exact hl.binary type hr hkind.1 hkind.2.1 hkind.2.2.1
    (operate_compare (fun _ => hstay.1) (fun _ => hstay.2) ht hkind.2.2.2 hop)

-- ============================================================ arguments

/-- The code can be passed as an argument. -/
def Passes (ctx : Context) (s : Store) (c : List Shape) (o : Operand) : Prop :=
  c.head?.any (·.kind.isArg) = false ∧ ∃ f, Gives ctx s c f o.value ∧ f.2.isSome = o.constant

theorem Passes.denote {o : Operand} (h : Passes ctx s c o) :
    ∃ m, denote (asArgument c) = [m] ∧ m.operand ctx s = .ok (o, s) := by
  obtain ⟨harg, f, hg, hc⟩ := h
  obtain ⟨m, hm, hconst, hv⟩ := hg.denote
  refine ⟨m, ?_, ?_⟩
  · unfold asArgument
    rw [harg, if_neg Bool.false_ne_true]
    unfold Shape.above
    rw [denote_node rfl, List.map_singleton, hm]
    rfl
  · rw [operand_run hv, hconst, hc]

theorem operands_run {cs : List (List Shape)} {os : List Operand}
    (h : List.Forall₂ (Passes ctx s) cs os) :
    operands ctx (denote (cs.map asArgument).flatten) s = .ok (os, s) := by
  induction h with
  | nil => rfl
  | cons hc _ ih =>
    obtain ⟨m, hm, ho⟩ := hc.denote
    rw [List.map_cons, List.flatten_cons, denote_append, hm, List.singleton_append, operands,
      Run.bind_run ho, Run.bind_run ih]
    rfl

-- ============================================================= requests

section

variable {cs : List (List Shape)} {os : List Operand} {heap : Heap} {name : String} {o : Ref}

/-- An object is created. -/
theorem does_create (hargs : List.Forall₂ (Passes ctx s) cs os)
    (hcreate : ctx.service.create ctx.path name os s.heap = .ok (v, heap)) :
    Does ctx s [.above (.newObject (.named name)) [(cs.map asArgument).flatten]] v
      { s with heap } := by
  unfold Shape.above
  refine ⟨_, denote_node rfl .., rfl, ?_⟩
  refine (Run.bind_run (operands_run hargs)).trans ?_
  unfold Run.onHeap
  rw [hcreate]
  rfl

/-- Another object is asked for something. -/
theorem does_call {type : Option TypeRef} (hr : Gives ctx s cr r (.ref o))
    (hargs : List.Forall₂ (Passes ctx s) cs os)
    (hserve : ctx.service.serve o (.method name os) s.heap = .ok (v, heap)) :
    Does ctx s [.above (.call name type) [cr, (cs.map asArgument).flatten]] v { s with heap } := by
  obtain ⟨m, hm, -, hv⟩ := hr.denote
  have hmean : denote [.above (.call name type) [cr, (cs.map asArgument).flatten]]
      = [.expr (callValue name [m] (denote (cs.map asArgument).flatten))] := by
    unfold Shape.above
    rw [denote_node rfl, List.map_cons, List.map_singleton, hm]
    rfl
  refine ⟨_, hmean, rfl, ?_⟩
  refine (Run.bind_run (ref_run hv)).trans ((Run.bind_run (operands_run hargs)).trans ?_)
  unfold Run.onHeap
  rw [hserve]
  rfl

/-- The object asks itself for something, without arguments. -/
theorem does_invoke {type : Option TypeRef} (hname : name ≠ "System.Array.Clear")
    (hserve : ctx.service.serve ctx.self (.method name []) s.heap = .ok (v, heap)) :
    Does ctx s [.above (.call name type) [[], []]] v { s with heap } := by
  have hmean : denote [.above (.call name type) [[], []]] = [.expr (callValue name [] [])] :=
    denote_node rfl ..
  refine ⟨_, hmean, rfl, ?_⟩
  have hargs : operands ctx [] s = .ok ([], s) := rfl
  refine (Run.bind_run hargs).trans ?_
  rw [if_neg hname]
  unfold Run.onHeap
  rw [hserve]
  rfl

/-- A property of an object is read, and nothing changes. -/
theorem gives_property {type : TypeRef} {path : List String} {fields : Variables}
    (hr : Gives ctx s cr r (.ref o)) (hobj : s.heap[o]? = some (.object path fields))
    (hfield : fields.get? name = none)
    (hserve : ctx.service.serve o (.get name) s.heap = .ok (v, s.heap)) :
    Gives ctx s [.above (.member name type) [cr]] (type, none) v := by
  obtain ⟨m, hm, -, hv⟩ := hr.denote
  have htarget : ((do return Target.member (← m.ref ctx) name) : Run Target) s
      = .ok (.member o name, s) := Run.bind_run (ref_run hv)
  refine gives_over rfl ⟨rfl, rfl⟩ ?_ ?_
  · rw [List.map_singleton, hm]
    rfl
  · rw [List.map_singleton, hm]
    refine (Run.bind_run htarget).trans ?_
    unfold Target.load
    dsimp only
    rw [hobj]
    dsimp only
    rw [hfield]
    dsimp only
    unfold Run.onHeap
    rw [hserve]
    rfl

end

-- =============================================================== fields

/-- A field of the object takes a value. -/
theorem storeField_run {object : Ref} {path : List String} {fields : Variables} {name : String}
    {x : Variable} {o : Operand} (hobj : s.heap[object]? = some (.object path fields))
    (hx : fields.get? name = some x) (hv : o.value.settle x.type o.constant = .ok v)
    (otherwise : Run Value) :
    Target.storeField object name o otherwise s
      = .ok (v, { s with heap := s.heap.set object (.object path (fields.put name v)) }) := by
  unfold Target.storeField
  rw [hobj]
  dsimp only
  rw [hx]
  dsimp only
  rw [hv]
  rfl

/-- A variable that is no local one is a field. -/
theorem store_field {path : List String} {fields : Variables} {name : String}
    {x : Variable} {o : Operand} (hlocal : s.locals.get? name = none)
    (hobj : s.heap[ctx.self]? = some (.object path fields)) (hx : fields.get? name = some x)
    (hv : o.value.settle x.type o.constant = .ok v) :
    (Target.variable name).store ctx o s
      = .ok (v, { s with heap := s.heap.set ctx.self (.object path (fields.put name v)) }) := by
  unfold Target.store
  dsimp only
  rw [hlocal]
  exact storeField_run hobj hx hv _

/-- A field is named with the object it is of. -/
theorem runs_assign_own {type tmember : TypeRef} {path : List String} {fields : Variables}
    {name : String} {x : Variable} (hobj : s.heap[ctx.self]? = some (.object path fields))
    (hx : fields.get? name = some x) (hr : Gives ctx s cr f v)
    (hv : v.settle x.type f.2.isSome = .ok v') :
    Runs ctx [.above .exprStmt [[.above (.assign type)
        [[.above (.member name tmember) [[.leaf .self]]], cr]]]] s
      { s with heap := s.heap.set ctx.self (.object path (fields.put name v')) } := by
  have hself : denote [.leaf .self] = [.expr fun ctx => pure (.ref ctx.self)] := denote_node rfl ..
  have hmember : denote [.above (.member name tmember) [[.leaf .self]]]
      = [nodeMeaning (.member name tmember) {} [[.expr fun ctx => pure (.ref ctx.self)]]] := by
    unfold Shape.above
    rw [denote_node rfl, List.map_singleton, hself]
  have htarget : (nodeMeaning (.member name tmember) {}
      [[.expr fun ctx => pure (.ref ctx.self)]]).target ctx s
      = .ok (.member ctx.self name, s) := rfl
  exact runs_assign hmember htarget hr (storeField_run hobj hx hv _)

-- =============================================================== arrays

/-- A new array of zero bytes. -/
theorem does_allocate {size : Nat} (hsize : size < 2 ^ 31) (hex : Bool) :
    Does ctx s [.above (.newArray .byte)
        [[.leaf (.intLit size (literalType false (2 ^ 31 ≤ size)) hex)]]]
      (.ref s.heap.length) { s with heap := s.heap ++ [.bytes (Bytes.zero size hsize)] } := by
  have hgives : Gives ctx s [.leaf (.intLit size (literalType false (2 ^ 31 ≤ size)) hex)]
      (.int, some size) (.int .int size) := gives_int hex hsize
  obtain ⟨m, hm, -, hv⟩ := hgives.denote
  have hmean : denote [.above (.newArray .byte)
      [[.leaf (.intLit size (literalType false (2 ^ 31 ≤ size)) hex)]]]
      = [.expr fun ctx => do allocate (← m.int ctx)] := by
    unfold Shape.above
    rw [denote_node rfl, List.map_singleton, hm]
    rfl
  refine ⟨_, hmean, rfl, (Run.bind_run (int_run hv)).trans ?_⟩
  unfold allocate
  rw [if_pos (Int.natCast_nonneg size)]
  exact dif_pos hsize

end RegisterMap.Exec
