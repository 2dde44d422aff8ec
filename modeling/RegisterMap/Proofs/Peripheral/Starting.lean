/-
A new peripheral. Its constructor creates the members one after the other,
in the order of the mounts; what holds after some of them is `Started`,
and each further one leaves those before it as they are (`Started.step`).
The user's part comes last and is empty. So a new peripheral has all its
members (`PeripheralCode.create_run`).
-/
import RegisterMap.Proofs.Peripheral.Members

namespace RegisterMap.Peripheral

open Code Exec

variable {p : Program} {ctx : Context} {root : Ref} {heap cells : Heap} {inventory : Inventory}
  {m : Mount} {done : List Mount} {name : String} {t : Tree} {x : Shape} {allPublic : Bool}
  {types : NodeId → TypeRef} {stock : NodeId → List Shape} {fields : Variables} {fresh : Bytes}
  {depth : Nat}

-- ============================================================== growing

/-- The heap grows at its end, and one object changes. -/
def grown (heap cells : Heap) (root : Ref) (cell : Cell) : Heap := (heap ++ cells).set root cell

theorem grown_old {i : Ref} {c cell : Cell} (h : heap[i]? = some c) (hne : root ≠ i) :
    (grown heap cells root cell)[i]? = some c := by
  have hi : i < heap.length := (List.getElem?_eq_some_iff.1 h).1
  unfold grown
  rw [List.getElem?_set_ne hne, List.getElem?_append_left hi, h]

theorem grown_new {i : Nat} {cell : Cell} (hne : root < heap.length) :
    (grown heap cells root cell)[heap.length + i]? = cells[i]? := by
  unfold grown
  rw [List.getElem?_set_ne (Nat.ne_of_lt (Nat.lt_of_lt_of_le hne (Nat.le_add_right ..))),
    List.getElem?_append_right (Nat.le_add_right ..), Nat.add_sub_cancel_left]

theorem fields_grown {path : List String} (h : root < heap.length) :
    (grown heap cells root (.object path fields)).fields root = fields := by
  have hlt : root < (heap ++ cells).length := by
    rw [List.length_append]
    exact Nat.lt_of_lt_of_le h (Nat.le_add_right ..)
  unfold Heap.fields grown
  rw [List.getElem?_set_self hlt]

-- ============================================================== members

/-- The members of some mounts are in place. -/
structure Started (inventory : Inventory) (name : String) (root : Ref) (done : List Mount)
    (heap : Heap) : Prop where
  length_eq : heap.length = root + 1 + 2 * done.length
  isObject : ∃ fields, heap[root]? = some (.object [name] fields)
    ∧ ∀ m ∈ inventory.mounts, ∃ y, fields.get? m.memberName = some y ∧ y.type = .named m.typeName
  held : ∀ m ∈ done, Held inventory name heap root m

/-- No mount comes twice. -/
theorem next_notMem {rest : List Mount} (hs : inventory.Sound)
    (h : inventory.mounts = done ++ m :: rest) : m ∉ done := by
  have hnodup : (done ++ m :: rest).Nodup := h ▸ hs.members.of_map
  exact fun hm => (List.nodup_append.1 hnodup).2.2 m hm m (List.mem_cons_self ..) rfl

/-- The next mount gets the next two cells. -/
theorem objectOf_next {rest : List Mount} (hs : inventory.Sound)
    (h : inventory.mounts = done ++ m :: rest) :
    inventory.objectOf root m = root + 1 + 2 * done.length := by
  unfold Inventory.objectOf
  rw [h, List.idxOf_append_of_notMem (next_notMem hs h), List.idxOf_cons_self]
  rfl

/-- A member is put behind those that are in place. -/
theorem Started.step {rest : List Mount} (h : Started inventory name root done heap)
    (hs : inventory.Sound) (hall : inventory.mounts = done ++ m :: rest)
    (hsize : fresh.size = m.bufferSize) (hobj : heap[root]? = some (.object [name] fields)) :
    Started inventory name root (done ++ [m])
      (grown heap [ownerCell [m.typeName, name] (heap.length + 1), .bytes fresh] root
        (.object [name] (fields.put m.memberName (.ref heap.length)))) := by
  have hlt : root < heap.length := (List.getElem?_eq_some_iff.1 hobj).1
  have hmem : m ∈ inventory.mounts := hall ▸ List.mem_append_right _ (List.mem_cons_self ..)
  have hnext : inventory.objectOf root m = heap.length := (objectOf_next hs hall).trans h.length_eq.symm
  obtain ⟨fields', hobj', htypes⟩ := h.isObject
  obtain rfl := (Cell.object.inj (Option.some.inj (hobj.symm.trans hobj'))).2
  have hlen : root < (heap ++ [ownerCell [m.typeName, name] (heap.length + 1), .bytes fresh]).length := by
    rw [List.length_append]
    exact Nat.lt_of_lt_of_le hlt (Nat.le_add_right ..)
  have hother : ∀ m' ∈ inventory.mounts, m' ≠ m → m.memberName ≠ m'.memberName := fun m' hm' hne he =>
    hne (List.inj_on_of_nodup_map hs.members hm' hmem he.symm)
  refine ⟨?_, ⟨_, List.getElem?_set_self hlen, fun m' hm' => ?_⟩, fun m' hm' => ?_⟩
  · unfold grown
    rw [List.length_set, List.length_append, List.length_append, h.length_eq]
    rfl
  · obtain ⟨y, hy, htype⟩ := htypes m' hm'
    by_cases he : m' = m
    · subst he
      exact ⟨{ y with value := .ref heap.length }, by rw [get?_put, hy]; rfl, htype⟩
    · exact ⟨y, by rw [get?_put_of_ne (hother m' hm' he), hy], htype⟩
  · rcases List.mem_append.1 hm' with hbefore | hlast
    · -- a member that was there before
      have hin : m' ∈ inventory.mounts := hall ▸ List.mem_append_left _ hbefore
      have hne : m' ≠ m := fun he => next_notMem hs hall (he ▸ hbefore)
      obtain ⟨hfield, hobject, bytes, hbytes, hsize'⟩ := h.held m' hbefore
      refine ⟨?_, grown_old hobject (Nat.ne_of_lt Inventory.lt_objectOf), bytes,
        grown_old hbytes (Nat.ne_of_lt Inventory.lt_bufferOf), hsize'⟩
      rw [fields_grown hlt, get?_put_of_ne (hother m' hin hne)]
      unfold Heap.fields at hfield
      rw [hobj] at hfield
      exact hfield
    · -- the new one
      obtain rfl := List.mem_singleton.1 hlast
      obtain ⟨y, hy, -⟩ := htypes m' hmem
      have hbuffer : inventory.bufferOf root m' = heap.length + 1 := congrArg (· + 1) hnext
      refine ⟨?_, ?_, fresh, ?_, hsize⟩
      · rw [fields_grown hlt, get?_put, hy, hnext]
        rfl
      · rw [hnext, hbuffer]
        exact grown_new (i := 0) hlt
      · rw [hbuffer]
        exact grown_new (i := 1) hlt

/-- The statement that creates a member. -/
def createMember (s : Site) : Sketch :=
  .stmt (.assign (.use s.2) (.newObject (.named s.1.typeName) []))

/-- A member is created. -/
theorem createMember_runs (types : NodeId → TypeRef) (stock : NodeId → List Shape) {s : Site}
    {path : List String} {y : Variable} (hself : ctx.self = root)
    (hname : ctx.names s.2 = s.1.memberName) (hobj : heap[root]? = some (.object path fields))
    (hy : fields.get? s.1.memberName = some y) (htype : y.type = .named s.1.typeName)
    (hcreate : ctx.service.create ctx.path s.1.typeName [] heap
      = .ok (.ref heap.length, heap ++ cells)) :
    Runs ctx ((createMember s).code types stock) { heap }
      { heap := grown heap cells root
          (.object path (fields.put s.1.memberName (.ref heap.length))) } := by
  have hnew : Does ctx { heap } [.above (.newObject (.named s.1.typeName)) [[]]] (.ref heap.length)
      { heap := heap ++ cells } := does_create .nil hcreate
  have hlt : root < heap.length := (List.getElem?_eq_some_iff.1 hobj).1
  have hcell : (heap ++ cells)[ctx.self]? = some (.object path fields) := by
    rw [hself, List.getElem?_append_left hlt, hobj]
  have hsettle : (Value.ref heap.length).settle y.type false = .ok (.ref heap.length) := by
    rw [htype]
    rfl
  have hruns : Runs ctx ((createMember s).code types stock) _ _ :=
    hnew.runs_assign (denote_use s.2 (types s.2)) rfl
      (store_field (x := y) (by rw [hname]; rfl) hcell (by rw [hname]; exact hy) hsettle)
  rw [hself, hname] at hruns
  exact hruns

-- ============================================================= creating

namespace PeripheralCode

variable (h : PeripheralCode t inventory name x) (hs : inventory.Sound)
  (hroot : p.root = x.finished allPublic) (hnames : ∀ d, d < t.size → p.names d = t.name d)

include h hs hroot hnames

/-- The constructor creates the members that are left. -/
theorem createMembers_run (types : NodeId → TypeRef) (stock : NodeId → List Shape)
    (hctx : ctx = { p.context (p.service (depth + 2)) root [name] with returns := none })
    (sites : List Site)
    (hdeclares : ∀ s ∈ sites, t.Declares s.2 s.1.memberName (.named s.1.typeName))
    (hall : inventory.mounts = done ++ sites.map Prod.fst)
    (hstarted : Started inventory name root done heap) :
    ∃ heap', Runs ctx (Sketch.codeList types stock (sites.map createMember)).flatten { heap }
        { heap := heap' }
      ∧ Started inventory name root inventory.mounts heap' := by
  induction sites generalizing done heap with
  | nil =>
    rw [List.map_nil, List.append_nil] at hall
    exact ⟨heap, runs_nil _, hall ▸ hstarted⟩
  | cons s sites ih =>
    have hmem : s.1 ∈ inventory.mounts := hall ▸ List.mem_append_right _ (List.mem_cons_self ..)
    have hd := hdeclares s (List.mem_cons_self ..)
    obtain ⟨y, hcode, hpath, hlocate⟩ := h.resolve_member hs hroot hmem
    obtain ⟨fresh, hsize, hcreate⟩ :=
      hcode.create_run hpath hnames depth heap (hs.mounts s.1 hmem) hlocate
    obtain ⟨fields, hobj, htypes⟩ := hstarted.isObject
    obtain ⟨z, hz, htype⟩ := htypes s.1 hmem
    have hfirst : Runs ctx ((createMember s).code types stock) { heap } _ :=
      createMember_runs types stock (by rw [hctx]; rfl)
        (by rw [hctx]; exact (hnames s.2 hd.lt_size).trans hd.name_eq) hobj hz htype
        (by rw [hctx]; exact hcreate)
    obtain ⟨heap', hrest, hdone⟩ := ih (fun q hq => hdeclares q (List.mem_cons_of_mem _ hq))
      (by rw [hall, List.append_assoc]; rfl) (hstarted.step hs hall hsize hobj)
    exact ⟨heap', hfirst.append hrest, hdone⟩

/-- A new peripheral has all its members. -/
theorem create_run (depth : Nat) (heap : Heap) :
    ∃ heap', p.create (p.service (depth + 2)) [] name [] heap = .ok (.ref heap.length, heap')
      ∧ Alive inventory name heap' heap.length := by
  obtain ⟨sites, construct, init, renew, reset, read, write, hsites, hdeclares, hall, hconstruct,
    hinit, -⟩ := h.methods
  have hpath := h.resolve_name hroot
  -- the fields before the constructor runs
  obtain ⟨decls, hdecls⟩ : ∃ decls : List (String × TypeRef),
    decls = inventory.mounts.map fun m => (m.memberName, .named m.typeName) := ⟨_, rfl⟩
  have hfields : List.Forall₂ (fun d y => FieldDecl d.1 d.2 y) decls (part x .fields) := by
    rw [hdecls, List.forall₂_map_left_iff]
    exact h.fields
  have hstarted : Started inventory name heap.length []
      (heap ++ [.object [name] (decls.map fun d => ⟨d.1, d.2, Value.default d.2⟩)]) := by
    refine ⟨List.length_append, ⟨_, List.getElem?_concat_length .., fun m hm => ?_⟩, nofun⟩
    have hnodup : ((decls.map fun d => (⟨d.1, d.2, Value.default d.2⟩ : Variable)).map
        Variable.name).Nodup := by
      rw [List.map_map, hdecls, List.map_map]
      exact hs.members
    have hin : (⟨m.memberName, .named m.typeName, .null⟩ : Variable)
        ∈ decls.map fun d => ⟨d.1, d.2, Value.default d.2⟩ := by
      rw [hdecls, List.map_map]
      exact List.mem_map_of_mem hm
    exact ⟨_, find?_key hnodup hin, rfl⟩
  have hctor : (part x .methods).find? isCtor = some construct := by
    rw [hall]
    exact find?_isCtor hconstruct.kind_eq rfl
  obtain ⟨types, stock, hbody⟩ := hconstruct.body
  obtain ⟨heap', hruns, hdone⟩ := h.createMembers_run hs hroot hnames types stock rfl sites hdeclares
    hsites.symm hstarted
  obtain ⟨fields', hobj, -⟩ := hdone.isObject
  -- the user's part
  have hmem : init ∈ part x .methods := by
    rw [hall]
    simp
  have hserve : p.serve (p.service (depth + 1)) heap.length (.method (nameOf init) []) heap'
      = .ok (.nothing, heap') :=
    (h.answers.serve_method hobj hpath hmem (by unfold isCtor; rw [hinit.kind_eq]; rfl) []).trans
      (runMethod_unbodied hinit.kind_eq rfl hinit.params ..)
  rw [hinit.name_eq] at hserve
  have hinvoke : Does { p.context (p.service (depth + 2)) heap.length [name] with returns := none }
      { heap := heap' } [.above (.call "Init" none) [[], []]] .nothing _ :=
    does_invoke (by decide) hserve
  refine ⟨heap', ?_, ⟨⟨fields', hobj⟩, hdone.held⟩⟩
  refine h.answers.create (v := .nothing) hfields rfl hpath hctor ?_
  rw [runMethod_finished hconstruct.kind_eq rfl (by rw [hconstruct.params]; nofun)
    (by rw [hconstruct.params]; rfl), hbody]
  unfold assembleBody
  rw [codeList_append, List.flatten_append]
  exact runBody_runs (hruns.append hinvoke.runs) rfl

end PeripheralCode

end RegisterMap.Peripheral
