/-
New holders and containers. Both have one field, for a buffer that their
constructor allocates before it resets the object. Resetting a holder
stores every byte of its reset value; resetting a container clears the
buffer and stores the bytes that are not zero. So a new object stands in
the heap with its own buffer next to it (`HolderCode.create_eq`,
`ContainerCode.create_eq`).
-/
import RegisterMap.Proofs.Exec.Acting
import RegisterMap.Proofs.Peripheral.ArrayWords

namespace RegisterMap.Exec

namespace Bytes

/-- Bytes are stored one after the other. -/
def stored (b : Bytes) (l : List (Nat × Nat)) : Bytes :=
  l.foldl (fun b p => b.set p.1 (BitVec.ofNat 8 p.2)) b

@[simp] theorem size_stored (b : Bytes) (l : List (Nat × Nat)) : (b.stored l).size = b.size := by
  unfold stored
  induction l generalizing b with
  | nil => rfl
  | cons p l ih => rw [List.foldl_cons, ih, size_set]

/-- Where the value of every byte is a function of its place, it does not
matter how often and in which order the bytes are stored. -/
theorem get_stored (value : Nat → Nat) (b : Bytes) {l : List (Nat × Nat)}
    (hl : ∀ q ∈ l, q.1 < b.size ∧ q.2 = value q.1) (i : Nat) :
    (b.stored l).get i = if i ∈ l.map Prod.fst then BitVec.ofNat 8 (value i) else b.get i := by
  unfold stored
  induction l generalizing b with
  | nil => rfl
  | cons q l ih =>
    obtain ⟨⟨hin, hvalue⟩, hl⟩ := List.forall_mem_cons.1 hl
    rw [List.foldl_cons, ih _ (by rwa [size_set]), get_set _ hin, List.map_cons, hvalue]
    by_cases hrest : i ∈ l.map Prod.fst
    · rw [if_pos hrest, if_pos (List.mem_cons_of_mem _ hrest)]
    · by_cases hfirst : q.1 = i
      · rw [if_neg hrest, if_pos hfirst, if_pos (hfirst ▸ List.mem_cons_self ..), hfirst]
      · have hnone : i ∉ q.1 :: l.map Prod.fst := fun h =>
          (List.mem_cons.1 h).elim (fun he => hfirst he.symm) hrest
        rw [if_neg hrest, if_neg hfirst, if_neg hnone]

/-- The array with every byte zero. -/
def cleared (b : Bytes) : Bytes := b.fill 0 (fun _ => 0) b.size

@[simp] theorem size_cleared (b : Bytes) : b.cleared.size = b.size := size_fill ..

theorem get_cleared (b : Bytes) (i : Nat) : b.cleared.get i = 0 := by
  unfold cleared
  rw [get_fill b 0 _ (by rw [Nat.zero_add])]
  by_cases hi : i < b.size
  · rw [if_pos ⟨Nat.zero_le i, by rwa [Nat.zero_add]⟩]
  · rw [if_neg fun h => hi (by rw [Nat.zero_add] at h; exact h.2)]
    exact List.getD_eq_default _ _ (Nat.le_of_not_lt hi)

theorem foldl_set_eq_fill (b : Bytes) (start : Nat) (f : Nat → Byte) (count : Nat) :
    (List.range count).foldl (fun b i => b.set (start + i) (f i)) b = b.fill start f count := by
  induction count with
  | zero => rfl
  | succ count ih =>
    rw [List.range_succ, List.foldl_append, ih]
    rfl

end Bytes

open Code Term

variable {ctx : Context} {s : Store} {c : List Shape} {f : Facts}

/-- The length of an array. -/
theorem gives_length {r : Ref} {bytes : Bytes} (hr : Gives ctx s c f (.ref r))
    (harray : s.heap[r]? = some (.bytes bytes)) (type : TypeRef) :
    Gives ctx s [.above (.member "Length" type) [c]] (type, none) (.int .int bytes.size) := by
  obtain ⟨m, hm, -, hv⟩ := hr.denote
  have htarget : ((do return Target.member (← m.ref ctx) "Length") : Run Target) s
      = .ok (.member r "Length", s) := Run.bind_run (ref_run hv)
  refine gives_over rfl ⟨rfl, rfl⟩ ?_ ?_
  · rw [List.map_singleton, hm]
    rfl
  · rw [List.map_singleton, hm]
    refine (Run.bind_run htarget).trans ?_
    unfold Target.load
    dsimp only
    rw [harray]
    rfl

/-- An array is cleared from its first element on. -/
theorem does_clear {cs : List (List Shape)} {r : Ref} {bytes : Bytes} {o₁ o₂ o₃ : Bool}
    (hargs : List.Forall₂ (Passes ctx s) cs
      [⟨.ref r, o₁⟩, ⟨.int .int (0 : Nat), o₂⟩, ⟨.int .int bytes.size, o₃⟩])
    (harray : s.heap[r]? = some (.bytes bytes)) (type : Option TypeRef) :
    Does ctx s [.above (.call "System.Array.Clear" type) [[], (cs.map asArgument).flatten]] .nothing
      { s with heap := s.heap.set r (.bytes bytes.cleared) } := by
  have hmean : denote [.above (.call "System.Array.Clear" type) [[], (cs.map asArgument).flatten]]
      = [.expr (callValue "System.Array.Clear" [] (denote (cs.map asArgument).flatten))] :=
    denote_node rfl ..
  refine ⟨_, hmean, rfl, (Run.bind_run (operands_run hargs)).trans ?_⟩
  rw [if_pos rfl]
  unfold clearArray
  dsimp only
  rw [harray]
  dsimp only
  rw [if_pos ⟨Int.le_refl _, Int.natCast_nonneg _, by simp⟩]
  have hcleared := Bytes.foldl_set_eq_fill bytes 0 (fun _ => 0) bytes.size
  exact congrArg (fun b => Except.ok (Value.nothing, { s with heap := s.heap.set r (.bytes b) })) hcleared

end RegisterMap.Exec

namespace RegisterMap.Peripheral

open Code Exec

variable {p : Program} {service : Service} {ctx : Context} {s : Store} {object r : Ref}
  {path : List String} {heap : Heap} {bytes : Bytes} {t : Tree} {a : RegisterArray}
  {reg : Register} {reset : Nat} {memory : NodeId} {x : Shape} {allPublic : Bool} {b : Buffer}
  {types : NodeId → TypeRef} {name : String}

-- =============================================================== bodies

/-- Constants are stored in a buffer that is not seen through a window. -/
theorem storeConstants_runs (types : NodeId → TypeRef) (stock : NodeId → List Shape)
    (l : List (Nat × Nat)) (h : Window ctx s b r bytes 0) (hfence : ∀ i < bytes.size, ctx.fence r i = true)
    (hl : ∀ q ∈ l, q.1 < bytes.size ∧ q.2 < 256) :
    Runs ctx (Sketch.codeList types stock (l.map fun q => b.storeConstant q.1 q.2)).flatten s
      { s with heap := s.heap.set r (.bytes (bytes.stored l)) } := by
  induction l generalizing s bytes with
  | nil =>
    have hsame : s.heap.set r (.bytes (bytes.stored [])) = s.heap := set_same h.array
    rw [hsame]
    exact runs_nil s
  | cons q l ih =>
    obtain ⟨hsize, hbyte⟩ := hl q (List.mem_cons_self ..)
    have hplace : 0 + q.1 < bytes.size := by rwa [Nat.zero_add]
    have hfirst := h.storeConstant_runs types stock hplace
      (by rw [Nat.zero_add]; exact hfence q.1 hsize) hbyte
    rw [Nat.zero_add] at hfirst
    have hrest := ih (h.set (bytes.set q.1 (BitVec.ofNat 8 q.2)))
      (by rwa [Bytes.size_set]) fun q' hq' => by
        rw [Bytes.size_set]
        exact hl q' (List.mem_cons_of_mem _ hq')
    dsimp only at hrest
    rw [List.set_set] at hrest
    exact hfirst.append hrest

/-- The buffer is cleared. -/
theorem clear_runs (types : NodeId → TypeRef) (stock : NodeId → List Shape)
    (h : Window ctx s { memory } r bytes 0) :
    Runs ctx ((clear { memory }).code types stock) s
      { s with heap := s.heap.set r (.bytes bytes.cleared) } := by
  have huse := gives_use (types memory) h.memory
  have hargs : List.Forall₂ (Passes ctx s)
      [(Sketch.use memory).code types stock, (Sketch.int 0).code types stock,
        (Sketch.member (.use memory) "Length" .int).code types stock]
      [⟨.ref r, false⟩, ⟨.int .int (0 : Nat), true⟩, ⟨.int .int bytes.size, false⟩] :=
    .cons ⟨rfl, _, huse, rfl⟩ (.cons ⟨rfl, _, gives_int false (by decide), rfl⟩
      (.cons ⟨rfl, _, gives_length huse h.array .int, rfl⟩ .nil))
  exact (does_clear hargs h.array none).runs

-- ============================================================ resetting

/-- The bytes of a value with their places. -/
def bytesOf (value count : Nat) : List (Nat × Nat) :=
  (List.range count).map fun i => (i, Word.byteAt value i)

/-- Code of an object finds its buffer. -/
theorem Keeps.bare (h : Keeps heap object path r bytes) (hname : p.names memory = "memory")
    (returns : Option TypeRef) :
    Window { p.context service object path with returns } { heap } { memory } r bytes 0 :=
  h.window rfl hname rfl

/-- A holder is reset. -/
theorem HolderCode.reset_serves (h : HolderCode t reg reset memory x)
    (hpath : p.resolve path = some (x.finished allPublic))
    (hnames : ∀ d, d < t.size → p.names d = t.name d) (hk : Keeps heap object path r bytes)
    (hsize : bytes.size = reg.bufferSize) :
    p.serve service object (.method "Reset" []) heap
      = .ok (.nothing, heap.set r (.bytes (bytes.stored (bytesOf reset reg.bufferSize)))) := by
  obtain ⟨construct, reset', read, write, hall, -, hcode, -⟩ := h.methods
  obtain ⟨fields, hobj⟩ := hk.isObject
  obtain ⟨types, stock, hbody⟩ := hcode.body
  have hmem : reset' ∈ part x .methods := by
    rw [hall]
    simp
  have hname := (hnames memory h.declares.lt_size).trans h.declares.name_eq
  rw [h.answers.serve_body hobj hpath hmem hcode.kind_eq hcode.name_eq ⟨rfl, rfl⟩
    (by rw [hcode.params]; nofun) (by rw [hcode.params]; rfl), hbody]
  have hconstants : resetBody { memory } reg reset
      = (bytesOf reset reg.bufferSize).map fun q => Buffer.storeConstant { memory } q.1 q.2 := by
    unfold resetBody bytesOf
    rw [List.map_map]
    rfl
  rw [hconstants]
  refine runBody_runs (storeConstants_runs types stock _ (hk.bare hname _) (fun _ _ => rfl)
    fun q hq => ?_) rfl
  obtain ⟨i, hi, rfl⟩ := List.mem_map.1 hq
  exact ⟨hsize ▸ List.mem_range.1 hi, Nat.mod_lt _ (by decide)⟩

/-- A container is reset. -/
theorem ContainerCode.reset_serves (service : Service) (h : ContainerCode t a memory x)
    (ha : a.Sound)
    (hpath : p.resolve path = some (x.finished allPublic))
    (hnames : ∀ d, d < t.size → p.names d = t.name d) (hk : Keeps heap object path r bytes)
    (hsize : bytes.size = a.count * a.stride + 3) :
    ∃ l, a.resetBytes = .ok l ∧ p.serve service object (.method "Reset" []) heap
      = .ok (.nothing, heap.set r (.bytes (bytes.cleared.stored l))) := by
  obtain ⟨construct, read, write, reset', l, hall, -, -, -, hl, hcode⟩ := h.methods
  obtain ⟨fields, hobj⟩ := hk.isObject
  obtain ⟨types, stock, hbody⟩ := hcode.body
  have hmem : reset' ∈ part x .methods := by
    rw [hall]
    simp
  have hname := (hnames memory h.declares.lt_size).trans h.declares.name_eq
  have hin : ∀ q ∈ l, q.1 < bytes.size ∧ q.2 < 256 := by
    obtain ⟨l', hl', hin⟩ := ha.resetBytes_run
    obtain rfl := Except.ok.inj (hl.symm.trans hl')
    exact fun q hq => ⟨by have := (hin q hq).1; omega, (hin q hq).2⟩
  refine ⟨l, hl, ?_⟩
  rw [h.answers.serve_body hobj hpath hmem hcode.kind_eq hcode.name_eq ⟨rfl, rfl⟩
    (by rw [hcode.params]; nofun) (by rw [hcode.params]; rfl), hbody]
  have hwindow : Window { p.context service object path with returns := none } { heap } { memory } r
      bytes 0 := hk.bare hname none
  have hclear := clear_runs types stock hwindow
  have hstore := storeConstants_runs types stock l (hwindow.set bytes.cleared)
    (fun _ _ => rfl) (by rwa [Bytes.size_cleared])
  dsimp only at hstore
  rw [List.set_set] at hstore
  exact runBody_runs (hclear.append hstore) rfl

-- ============================================================= creating

/-- The cell of an object that owns a buffer. -/
def ownerCell (path : List String) (r : Ref) : Cell :=
  .object path [⟨"memory", bytesType, .ref r⟩]

theorem set_append {l l' : Heap} {c c' : Cell} : (l ++ c :: l').set l.length c' = l ++ c' :: l' := by
  simp

/-- A new object at the end of the heap, with its buffer behind it. -/
theorem keeps_new (heap : Heap) (path : List String) (bytes : Bytes) :
    Keeps (heap ++ [ownerCell path (heap.length + 1), .bytes bytes]) heap.length path
      (heap.length + 1) bytes where
  isObject := ⟨[⟨"memory", bytesType, .ref (heap.length + 1)⟩], by simp [ownerCell]⟩
  memory := by
    unfold Heap.fields ownerCell
    simp [Variables.get?]
  array := by simp

/-- What a constructor does that allocates a buffer and resets it. -/
theorem constructBody_runs (stock : NodeId → List Shape) {size : Nat} {fresh : Bytes}
    (hself : ctx.self = heap.length) (hname : ctx.names memory = "memory") (hsize : size < 2 ^ 31)
    (hreset : ctx.service.serve heap.length (.method "Reset" [])
        (heap ++ [ownerCell path (heap.length + 1), .bytes (Bytes.zero size hsize)])
      = .ok (.nothing, heap ++ [ownerCell path (heap.length + 1), .bytes fresh])) :
    Runs ctx (Sketch.codeList types stock (constructBody { memory } size)).flatten
      { heap := heap ++ [.object path [⟨"memory", bytesType, .null⟩]] }
      { heap := heap ++ [ownerCell path (heap.length + 1), .bytes fresh] } := by
  have hnew : Does ctx { heap := heap ++ [.object path [⟨"memory", bytesType, .null⟩]] }
      [.above (.newArray .byte) [[.leaf (.intLit size (literalType false (2 ^ 31 ≤ size)) false)]]]
      (.ref (heap ++ [Cell.object path [⟨"memory", bytesType, .null⟩]]).length) _ :=
    does_allocate hsize false
  rw [List.length_append, List.length_singleton] at hnew
  have hcell : ((heap ++ [Cell.object path [⟨"memory", bytesType, .null⟩]])
      ++ [Cell.bytes (Bytes.zero size hsize)])[ctx.self]?
      = some (.object path [⟨"memory", bytesType, .null⟩]) := by
    rw [hself]
    simp
  have hsettle : (Value.ref (heap.length + 1)).settle bytesType false
      = .ok (.ref (heap.length + 1)) := by simp [Value.settle, bytesType]
  have hallocate : Runs ctx ((Buffer.allocate { memory } size).code types stock) _ _ :=
    hnew.runs_assign (denote_use memory (types memory)) rfl
      (store_field (x := ⟨"memory", bytesType, .null⟩) (by rw [hname]; rfl) hcell
        (by rw [hname]; rfl) hsettle)
  rw [hself, hname] at hallocate
  have hheap : ((heap ++ [Cell.object path [⟨"memory", bytesType, .null⟩]])
        ++ [Cell.bytes (Bytes.zero size hsize)]).set heap.length
        (.object path (Variables.put [⟨"memory", bytesType, .null⟩] "memory" (.ref (heap.length + 1))))
      = heap ++ [ownerCell path (heap.length + 1), .bytes (Bytes.zero size hsize)] := by
    rw [List.append_assoc]
    exact set_append
  dsimp only at hallocate
  rw [hheap] at hallocate
  have hinvoke : Does ctx
      { heap := heap ++ [ownerCell path (heap.length + 1), .bytes (Bytes.zero size hsize)] }
      [.above (.call "Reset" none) [[], []]] .nothing _ :=
    does_invoke (by decide) (by rw [hself]; exact hreset)
  exact hallocate.append hinvoke.runs

/-- An object that owns a buffer is created. -/
theorem create_owner {size depth : Nat} {fresh : Bytes} {found : List String} {construct : Shape}
    (hx : Answers x) (hfields : ∃ y, part x .fields = [y] ∧ FieldDecl "memory" bytesType y)
    (hctor : (part x .methods).find? isCtor = some construct)
    (hcode : MethodCode name ctorSig (constructBody { memory } size) construct)
    (hname : p.names memory = "memory") (hlocate : p.locate name path = found)
    (hpath : p.resolve found = some (x.finished allPublic)) (hsize : size < 2 ^ 31)
    (hreset : p.serve (p.service depth) heap.length (.method "Reset" [])
        (heap ++ [ownerCell found (heap.length + 1), .bytes (Bytes.zero size hsize)])
      = .ok (.nothing, (heap ++ [ownerCell found (heap.length + 1),
          .bytes (Bytes.zero size hsize)]).set (heap.length + 1) (.bytes fresh))) :
    p.create (p.service (depth + 1)) path name [] heap
      = .ok (.ref heap.length, heap ++ [ownerCell found (heap.length + 1), .bytes fresh]) := by
  obtain ⟨y, hy, hdecl⟩ := hfields
  obtain ⟨types, stock, hbody⟩ := hcode.body
  have hset : (heap ++ [ownerCell found (heap.length + 1),
        .bytes (Bytes.zero size hsize)]).set (heap.length + 1) (.bytes fresh)
      = heap ++ [ownerCell found (heap.length + 1), .bytes fresh] := by simp
  rw [hset] at hreset
  have hdecls : List.Forall₂ (fun d x => FieldDecl d.1 d.2 x) [("memory", bytesType)]
      (part x .fields) := by
    rw [hy]
    exact .cons hdecl .nil
  refine hx.create (m := construct) (v := .nothing) hdecls hlocate hpath hctor ?_
  rw [runMethod_finished hcode.kind_eq rfl (by rw [hcode.params]; nofun)
    (by rw [hcode.params]; rfl), hbody]
  exact runBody_runs (constructBody_runs stock rfl hname hsize hreset) rfl

@[simp] theorem Bytes.size_zero (size : Nat) (h : size < 2 ^ 31) :
    (Bytes.zero size h).size = size := List.length_replicate

/-- A holder is created, with its reset value in its buffer. -/
theorem HolderCode.create_eq (h : HolderCode t reg reset memory x) {depth : Nat}
    {found : List String} (hlocate : p.locate reg.typeName path = found)
    (hpath : p.resolve found = some (x.finished allPublic))
    (hnames : ∀ d, d < t.size → p.names d = t.name d) (hsize : reg.bufferSize < 2 ^ 31) :
    p.create (p.service (depth + 1)) path reg.typeName [] heap
      = .ok (.ref heap.length, heap ++ [ownerCell found (heap.length + 1),
        .bytes ((Bytes.zero reg.bufferSize hsize).stored (bytesOf reset reg.bufferSize))]) := by
  obtain ⟨construct, reset', read, write, hall, hcode, -⟩ := h.methods
  have hctor : (part x .methods).find? isCtor = some construct := by
    rw [hall]
    exact find?_isCtor hcode.kind_eq rfl
  exact create_owner h.answers h.fields hctor hcode
    ((hnames memory h.declares.lt_size).trans h.declares.name_eq) hlocate hpath hsize
    (h.reset_serves hpath hnames (keeps_new heap found _) (Bytes.size_zero ..))

theorem HolderCode.create_run (h : HolderCode t reg reset memory x) {depth : Nat}
    {found : List String} (hlocate : p.locate reg.typeName path = found)
    (hpath : p.resolve found = some (x.finished allPublic))
    (hnames : ∀ d, d < t.size → p.names d = t.name d) (hsize : reg.bufferSize < 2 ^ 31) :
    ∃ fresh : Bytes, fresh.size = reg.bufferSize
      ∧ p.create (p.service (depth + 1)) path reg.typeName [] heap
        = .ok (.ref heap.length, heap ++ [ownerCell found (heap.length + 1), .bytes fresh]) :=
  ⟨_, by simp, h.create_eq hlocate hpath hnames hsize⟩

/-- A container is created, with the bytes that do not reset to zero in its
buffer. -/
theorem ContainerCode.create_eq (h : ContainerCode t a memory x) (ha : a.Sound) {depth : Nat}
    {found : List String} (hlocate : p.locate a.typeName path = found)
    (hpath : p.resolve found = some (x.finished allPublic))
    (hnames : ∀ d, d < t.size → p.names d = t.name d) :
    ∃ l, a.resetBytes = .ok l ∧ p.create (p.service (depth + 1)) path a.typeName [] heap
      = .ok (.ref heap.length, heap ++ [ownerCell found (heap.length + 1),
        .bytes ((Bytes.zero (a.count * a.stride + 3) ha.small).cleared.stored l)]) := by
  obtain ⟨construct, read, write, reset', l, hall, hcode, -⟩ := h.methods
  have hctor : (part x .methods).find? isCtor = some construct := by
    rw [hall]
    exact find?_isCtor hcode.kind_eq rfl
  obtain ⟨l', hl, hreset⟩ := h.reset_serves (p.service depth) ha hpath hnames
    (keeps_new heap found (Bytes.zero (a.count * a.stride + 3) ha.small)) (Bytes.size_zero ..)
  exact ⟨l', hl, create_owner h.answers h.fields hctor hcode
    ((hnames memory h.declares.lt_size).trans h.declares.name_eq) hlocate hpath ha.small hreset⟩

theorem ContainerCode.create_run (h : ContainerCode t a memory x) (ha : a.Sound) {depth : Nat}
    {found : List String} (hlocate : p.locate a.typeName path = found)
    (hpath : p.resolve found = some (x.finished allPublic))
    (hnames : ∀ d, d < t.size → p.names d = t.name d) :
    ∃ fresh : Bytes, fresh.size = a.count * a.stride + 3
      ∧ p.create (p.service (depth + 1)) path a.typeName [] heap
        = .ok (.ref heap.length, heap ++ [ownerCell found (heap.length + 1), .bytes fresh]) := by
  obtain ⟨l, -, hcreate⟩ := h.create_eq ha hlocate hpath hnames
  exact ⟨_, by simp, hcreate⟩

end RegisterMap.Peripheral
