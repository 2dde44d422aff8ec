/-
Access to the elements of a register array. The indexer of the container
creates a view of an element, which has the buffer of the container and
the offset of the element in it. The fields of the view are bits of the
element and nothing else, and the double words of the container are bits
of the same buffer, so the two agree. All of this is said of the finished
class of every array, for every content of the buffer
(`containerClass_elements`).
-/
import RegisterMap.Proofs.Peripheral.Creating
import RegisterMap.Proofs.Peripheral.FieldAccess

namespace RegisterMap.Peripheral

open Code Exec

variable {p : Program} {service : Service} {ctx : Context} {object r : Ref}
  {path : List String} {heap : Heap} {bytes : Bytes} {t : Tree} {a : RegisterArray}
  {memory : NodeId} {x : Shape} {allPublic : Bool}

-- ================================================================ views

/-- The cell of a view of the element that starts at an offset. -/
def viewCell (path : List String) (r : Ref) (start : Nat) : Cell :=
  .object path [⟨"spanBegin", .long, .int .long start⟩, ⟨"memory", bytesType, .ref r⟩]

/-- A parameter is kept in the field of its name. -/
theorem keepParam_runs {types : NodeId → TypeRef} (stock : NodeId → List Shape) {param : NodeId}
    {name : String} {type : TypeRef} {fields : Variables} {y : Variable} {v : Value} {s : Store}
    (hobj : s.heap[ctx.self]? = some (.object path fields)) (hy : fields.get? name = some y)
    (hsees : Sees ctx s param v) (hv : v.settle y.type false = .ok v) :
    Runs ctx ((keepParam name type param).code types stock) s
      { s with heap := s.heap.set ctx.self (.object path (fields.put name v)) } :=
  runs_assign_own hobj hy (gives_use (types param) hsees) hv

namespace ElementCode

variable (h : ElementCode t a x)

include h

theorem answers : Answers x := by
  obtain ⟨construct, _, _, _, _, hall, hkind, -⟩ := h.methods
  have hc : Constructing construct [] := ⟨⟨_, hkind, rfl⟩, nofun⟩
  exact hc.answers ⟨_, h.kind_eq⟩ hall List.nodup_nil

/-- A view is created. -/
theorem create_run (hlocate : p.locate a.elementName path = a.elementName :: path)
    (hpath : p.resolve (a.elementName :: path) = some (x.finished allPublic))
    (hnames : ∀ d, d < t.size → p.names d = t.name d) (start : Nat) (constant constant' : Bool) :
    p.create service path a.elementName [⟨.ref r, constant⟩, ⟨.int .long start, constant'⟩] heap
      = .ok (.ref heap.length, heap ++ [viewCell (a.elementName :: path) r start]) := by
  obtain ⟨y, z, hfields, hy, hz⟩ := h.fields
  obtain ⟨construct, types, stock, mp, sp, hall, hkind, -, hmp, hsp, hparams, hbody⟩ := h.methods
  have hctor : (part x .methods).find? isCtor = some construct := by
    rw [hall]
    exact find?_isCtor hkind rfl
  have hbind : bindParams (part construct .params)
      [⟨.ref r, constant⟩, ⟨.int .long start, constant'⟩]
      = .ok [⟨"memory", bytesType, .ref r⟩, ⟨"spanBegin", .long, .int .long start⟩] := by
    rw [hparams]
    rfl
  have hps : ∀ q ∈ part construct .params, q.kind.isOperator = false := by
    rw [hparams]
    intro q hq
    simp only [List.mem_cons, List.not_mem_nil, or_false] at hq
    rcases hq with rfl | rfl <;> rfl
  have hdecls : List.Forall₂ (fun d x => FieldDecl d.1 d.2 x)
      [("spanBegin", TypeRef.long), ("memory", bytesType)] (part x .fields) := by
    rw [hfields]
    exact .cons hy (.cons hz .nil)
  refine h.answers.create (m := construct) (v := .nothing) hdecls hlocate hpath hctor ?_
  rw [runMethod_finished hkind rfl hps hbind, hbody]
  -- the first statement keeps the buffer, the second one the offset
  have hmemory : Runs { p.context service heap.length (a.elementName :: path) with returns := none }
      ((keepParam "memory" bytesType mp).code types stock)
      { heap := heap ++ [.object (a.elementName :: path)
          [⟨"spanBegin", .long, .int .long 0⟩, ⟨"memory", bytesType, .null⟩]]
        locals := [⟨"memory", bytesType, .ref r⟩, ⟨"spanBegin", .long, .int .long start⟩] } _ :=
    keepParam_runs stock (y := ⟨"memory", bytesType, .null⟩) (v := .ref r)
      (List.getElem?_concat_length ..) rfl
      (sees_param (y := ⟨"memory", bytesType, .ref r⟩) rfl
        ((hnames mp hmp.lt_size).trans hmp.name_eq) rfl) rfl
  dsimp only [Program.context] at hmemory
  rw [set_append] at hmemory
  have hstart : Runs { p.context service heap.length (a.elementName :: path) with returns := none }
      ((keepParam "spanBegin" .long sp).code types stock)
      { heap := heap ++ [.object (a.elementName :: path)
          [⟨"spanBegin", .long, .int .long 0⟩, ⟨"memory", bytesType, .ref r⟩]]
        locals := [⟨"memory", bytesType, .ref r⟩, ⟨"spanBegin", .long, .int .long start⟩] } _ :=
    keepParam_runs stock (y := ⟨"spanBegin", .long, .int .long 0⟩) (v := .int .long start)
      (List.getElem?_concat_length ..) rfl
      (sees_param (y := ⟨"spanBegin", .long, .int .long start⟩) rfl
        ((hnames sp hsp.lt_size).trans hsp.name_eq) rfl) rfl
  dsimp only [Program.context] at hstart
  rw [set_append] at hstart
  exact runBody_runs (hmemory.append hstart) rfl

/-- The properties of a view give access to the bits of its element. -/
theorem bitAccess (path : List String) (hr : a.register.Proper)
    (hinside : ∀ f ∈ a.register.fields, f.high < 8 * a.stride) {f : Field} {y : Shape}
    (hfy : (f, y) ∈ a.register.fields.zip ((part x .properties).map (Term.finished allPublic))) :
    ∃ type, Holds (Layout.of f) type ∧ nameOf y = f.propertyName
      ∧ ∀ (ctx : Context) (heap : Heap) (bytes : Bytes) (r : Ref) (k : Nat),
        (∀ d, d < t.size → ctx.names d = t.name d) →
        heap[ctx.self]? = some (viewCell path r (k * a.stride)) → heap[r]? = some (.bytes bytes) →
        (k + 1) * a.stride ≤ bytes.size →
        (∀ i, k * a.stride ≤ i → i < (k + 1) * a.stride → ctx.fence r i = true) →
        BitAccess ctx y type heap r bytes (8 * (k * a.stride) + f.low) (f.high - f.low + 1) := by
  obtain ⟨memory, start, hmemory, hstart, hall⟩ := h.properties
  obtain ⟨z, hz, rfl⟩ : ∃ z, (f, z) ∈ a.register.fields.zip (part x .properties)
      ∧ z.finished allPublic = y := by
    rw [List.zip_map_right] at hfy
    obtain ⟨⟨f', z⟩, hz, he⟩ := List.mem_map.1 hfy
    obtain ⟨rfl, rfl⟩ := Prod.mk.inj he
    exact ⟨z, hz, rfl⟩
  obtain ⟨type, hcode⟩ := (List.forall₂_iff_zip.1 hall).2 hz
  have hmem := (List.of_mem_zip hz).1
  have hhigh := hinside f hmem
  refine ⟨type, hcode.holds, (nameOf_finished z).trans hcode.name_eq,
    fun ctx heap bytes r k hnames hview harray hsize hfence => ?_⟩
  have hm : ctx.names memory = "memory" := (hnames memory hmemory.lt_size).trans hmemory.name_eq
  have hs : ctx.names start = "spanBegin" := (hnames start hstart.lt_size).trans hstart.name_eq
  have hfields : heap.fields ctx.self = [⟨"spanBegin", .long, .int .long (k * a.stride : Nat)⟩,
      ⟨"memory", bytesType, .ref r⟩] := by
    unfold Heap.fields
    rw [hview]
    rfl
  have hwindow : Window ctx { heap } { memory, start := some start } r bytes (k * a.stride) := by
    refine ⟨?_, fun d hd => Option.some.inj hd ▸ ?_, nofun, harray⟩
    · exact sees_field (x := ⟨"memory", bytesType, .ref r⟩) rfl (by rw [hm, hfields]; rfl)
    · exact sees_field (x := ⟨"spanBegin", .long, .int .long (k * a.stride : Nat)⟩) rfl
        (by rw [hs, hfields]; rfl)
  have hreach : Reach ctx f r bytes (k * a.stride) := fun i _ hi => by
    have hi' : k * a.stride + i < (k + 1) * a.stride := by
      rw [Nat.succ_mul]
      omega
    exact ⟨Nat.lt_of_lt_of_le hi' hsize, hfence _ (Nat.le_add_right ..) hi'⟩
  have hapart : Buffer.Apart ctx.names { memory, start := some start } := by
    refine ⟨?_, fun d hd => Option.some.inj hd ▸ ?_⟩
    · rw [hm]
      decide
    · rw [hs]
      decide
  exact hcode.bitAccess (hr f hmem) hwindow hreach hnames hapart

end ElementCode

-- =============================================================== indices

/-- Whether an index is refused. -/
theorem isOutside_gives (types : NodeId → TypeRef) (stock : NodeId → List Shape) {s : Store}
    {index : NodeId} {i : Int} {count : Nat} (hcount : count < 2 ^ 63)
    (hsees : Sees ctx s index (.int .long i)) :
    ∃ f, Gives ctx s ((isOutside index count).code types stock) f
      (.bool (decide (i < 0) || decide ((count : Int) ≤ i))) := by
  have huse := gives_use (types index) hsees
  have hbelow := gives_compare .lt (Operator.lt.typeOver (types index)) huse
    (gives_int (k := 0) false (by decide)) (t := .long) (by decide) rfl rfl
  have habove := gives_compare .gte (Operator.gte.typeOver (types index)) huse
    (gives_literal (p := .long) (n := count) false hcount) (t := .long) (by decide) rfl rfl
  exact ⟨_, gives_connective .bool (Or.inr ⟨rfl, rfl⟩) hbelow habove⟩

theorem runBody_throws {c : List Shape} {params : Variables}
    (h : Throws ctx c { heap, locals := params }) :
    runBody ctx (denote c) params heap = .error .thrown := by
  unfold runBody
  rw [show execList ctx (denote c) _ = _ from h]

section Body

variable {types : NodeId → TypeRef} (stock : NodeId → List Shape) {s : Store} {index : NodeId}
  (hcount : a.count < 2 ^ 63)

include hcount

/-- An index outside the array is refused. -/
theorem indexBody_throws {i : Int} {v : Value} (hsees : Sees ctx s index (.int .long i))
    (hi : ¬(0 ≤ i ∧ i < a.count))
    (hcreate : ctx.service.create ctx.path "System.IndexOutOfRangeException" [] s.heap
      = .ok (v, heap)) :
    Throws ctx (Sketch.codeList types stock (indexBody a memory index)).flatten s := by
  obtain ⟨f, hguard⟩ := isOutside_gives types stock hcount hsees
  have hout : (decide (i < 0) || decide ((a.count : Int) ≤ i)) = true := by
    rw [Bool.or_eq_true, decide_eq_true_eq, decide_eq_true_eq]
    omega
  rw [hout] at hguard
  have hthrow : Throws ctx (outOfRange.code types stock) s := (does_create .nil hcreate).throws
  exact (throws_branch [] hguard hthrow).append
    ((Sketch.ret (some (.newObject (.named a.elementName)
      [.use memory, .binary .mul (.use index) (.long a.stride)]))).code types stock)

/-- For an index of the array a view is created. -/
theorem indexBody_returns {k : Nat} {o : Ref} (hsmall : a.count * a.stride + 3 < 2 ^ 31)
    (hk : k < a.count) (hsees : Sees ctx s index (.int .long k)) (hbuffer : Sees ctx s memory (.ref r))
    (hret : ctx.returns = some (.named a.elementName))
    (hcreate : ctx.service.create ctx.path a.elementName
        [⟨.ref r, false⟩, ⟨.int .long (k * a.stride : Nat), false⟩] s.heap = .ok (.ref o, heap)) :
    Returns ctx (Sketch.codeList types stock (indexBody a memory index)).flatten s (.ref o)
      { s with heap } := by
  obtain ⟨f, hguard⟩ := isOutside_gives types stock hcount hsees
  have hin : (decide ((k : Int) < 0) || decide ((a.count : Int) ≤ k)) = false := by
    rw [Bool.or_eq_false_iff, decide_eq_false_iff_not, decide_eq_false_iff_not]
    omega
  rw [hin] at hguard
  have hbound : (k + 1) * a.stride ≤ a.count * a.stride := Nat.mul_le_mul_right _ hk
  rw [Nat.succ_mul] at hbound
  have hlimit : k * a.stride < Primitive.limit .long ∧ a.stride < Primitive.limit .long := by
    have : Primitive.limit .long = 2 ^ 63 := by decide
    omega
  have hstride : Gives ctx s ((Sketch.long a.stride).code types stock) _ _ :=
    gives_literal false hlimit.2
  have hmul : operate .mul ⟨.int .long k, false⟩ ⟨.int .long a.stride, true⟩
      = .ok (.int .long (k * a.stride : Nat)) :=
    operate_arith nofun (fun _ => by decide) rfl rfl rfl (Operator.arith_mul hlimit.1)
  have hstart : Gives ctx s ((Sketch.binary .mul (.use index) (.long a.stride)).code types stock)
      (_, none) (.int .long (k * a.stride : Nat)) :=
    (gives_use (types index) hsees).binary _ hstride rfl nofun nofun hmul
  have hargs : List.Forall₂ (Passes ctx s) [(Sketch.use memory).code types stock,
      (Sketch.binary .mul (.use index) (.long a.stride)).code types stock]
      [⟨.ref r, false⟩, ⟨.int .long (k * a.stride : Nat), false⟩] :=
    .cons ⟨rfl, _, gives_use (types memory) hbuffer, rfl⟩ (.cons ⟨rfl, _, hstart, rfl⟩ .nil)
  exact (runs_guard hguard).returns ((does_create hargs hcreate).returns hret rfl)

end Body

/-- A name that ends differently is another one. -/
theorem append_ne {s suffix other : String} (hne : suffix.toList ≠ [])
    (h : suffix.toList.getLast? ≠ other.toList.getLast?) : s ++ suffix ≠ other := by
  rintro rfl
  rw [String.toList_append, List.getLast?_append_of_ne_nil _ hne] at h
  exact h rfl

namespace ContainerCode

variable (h : ContainerCode t a memory x)

include h

theorem classes_eq (hpath : p.resolve path = some (x.finished allPublic)) (hne : path ≠ []) :
    ∃ e, ElementCode t a e
      ∧ p.resolve (a.elementName :: path) = some (e.finished allPublic)
      ∧ p.locate a.elementName path = a.elementName :: path
      ∧ part (x.finished allPublic) .classes = [e.finished allPublic] := by
  obtain ⟨e, he, helement⟩ := h.classes
  have hops : ∀ y ∈ part x .classes, y.kind.isOperator = false := by
    rw [he]
    intro y hy
    rw [List.mem_singleton.1 hy, helement.kind_eq]
    rfl
  have hresolve := resolve_inner h.answers hpath hne hops (by rw [he]; simp)
    (x := e) (by rw [he]; exact List.mem_singleton_self e)
  rw [helement.name_eq] at hresolve
  refine ⟨e, helement, hresolve, locate_inner hpath hne hresolve, ?_⟩
  rw [h.answers.part_eq hops, he, List.map_singleton]

/-- The exception is no class of the program. -/
theorem create_exception (hroot : p.root = x.finished allPublic) :
    p.create service [a.typeName] "System.IndexOutOfRangeException" [] heap
      = .ok (.foreign "System.IndexOutOfRangeException", heap) := by
  have hname : nameOf p.root = a.typeName := by rw [hroot, nameOf_finished, h.name_eq]
  have hpath : p.resolve [a.typeName] = some (x.finished allPublic) := by
    rw [resolve_root hname, hroot]
  obtain ⟨e, helement, -, -, hclasses⟩ := h.classes_eq hpath (List.cons_ne_nil _ _)
  have helse : a.elementName ≠ "System.IndexOutOfRangeException" :=
    append_ne (by decide) (by decide)
  have htype : a.typeName ≠ "System.IndexOutOfRangeException" :=
    append_ne (by decide) (by decide)
  have hfind : find "System.IndexOutOfRangeException" (part (x.finished allPublic) .classes)
      = none := by
    rw [hclasses]
    refine List.find?_eq_none.2 fun y hy => ?_
    rw [List.mem_singleton.1 hy, nameOf_finished, helement.name_eq]
    simpa using helse
  have hlocate : p.locate "System.IndexOutOfRangeException" [a.typeName]
      = ["System.IndexOutOfRangeException"] := by
    unfold Program.locate
    rw [hpath, Option.bind_some, hfind]
    rfl
  unfold Program.create
  rw [hlocate]
  have hnone : p.resolve ["System.IndexOutOfRangeException"] = none := by
    unfold Program.resolve
    rw [if_neg (by rw [hname]; exact htype)]
  dsimp only
  rw [hnone]

/-- The object gives a view for an index of the array, and throws for
every other one. -/
theorem element_serves (hroot : p.root = x.finished allPublic)
    (hnames : ∀ d, d < t.size → p.names d = t.name d)
    (hk : Keeps heap object [a.typeName] r bytes) (hsmall : a.count * a.stride + 3 < 2 ^ 31)
    (hcount : a.count < 2 ^ 63) (depth : Nat) (i : Int) (constant : Bool) :
    p.element (p.service (depth + 1)) object ⟨.int .long i, constant⟩ heap
      = if 0 ≤ i ∧ i < a.count
        then .ok (.ref heap.length,
          heap ++ [viewCell [a.elementName, a.typeName] r (i.toNat * a.stride)])
        else .error .thrown := by
  obtain ⟨fields, hobj⟩ := hk.isObject
  have hpath : p.resolve [a.typeName] = some (x.finished allPublic) := by
    rw [resolve_root (by rw [hroot, nameOf_finished, h.name_eq]), hroot]
  obtain ⟨-, y, param, hops, -, -, hfind, hd, hcode⟩ := h.find_properties
  obtain ⟨types, stock, hbody⟩ := hcode.body
  obtain ⟨e, helement, hresolve, hlocate, -⟩ := h.classes_eq hpath (List.cons_ne_nil _ _)
  have hparam : p.names param = "index" := (hnames param hd.lt_size).trans hd.name_eq
  have hmemory : p.names memory = "memory" :=
    (hnames memory h.declares.lt_size).trans h.declares.name_eq
  rw [h.answers.serve_element hobj hpath hops hfind,
    runElement_finished hcode.kind_eq rfl (v := .int .long i) rfl, hbody]
  have hindex : ∀ returns, Sees { p.context (p.service (depth + 1)) object [a.typeName] with returns }
      { heap, locals := [⟨"index", .long, .int .long i⟩] } param (.int .long i) := fun returns =>
    sees_param (y := ⟨"index", .long, .int .long i⟩) rfl hparam rfl
  by_cases hi : 0 ≤ i ∧ i < a.count
  · rw [if_pos hi]
    obtain ⟨k, rfl⟩ := Int.eq_ofNat_of_zero_le hi.1
    exact runBody_returns (indexBody_returns stock hcount hsmall (by omega) (hindex _)
      (hk.window rfl hmemory rfl).memory rfl
      (helement.create_run hlocate hresolve hnames (k * a.stride) false false))
  · rw [if_neg hi]
    exact runBody_throws (indexBody_throws stock hcount (hindex _) hi (h.create_exception hroot))

end ContainerCode

-- ============================================================== finished

/-- The class of a register array, rewritten. -/
def finishedContainer (a : RegisterArray) (allPublic : Bool) : Drafting NodeId :=
  Drafting.finish (Drafting.ofEdit (containerClass a)) allPublic

/-- The class of a register array is built and finished. -/
theorem finishedContainer_run {d : Draft} (linked : d.tree.Mutual) (ha : a.Sound)
    (allPublic : Bool) :
    ∃ container d' t memory x, finishedContainer a allPublic d = (.ok container, d')
      ∧ ContainerCode t a memory x
      ∧ (programOf d'.tree container).root = x.finished allPublic
      ∧ ∀ j < t.size, (programOf d'.tree container).names j = t.name j := by
  obtain ⟨t', x, memory, hrun, hy, hcode⟩ := containerClass_run linked ha.addressable.sized
  obtain ⟨d', hfinish, hread, hkept⟩ := Drafting.finish_run (d := d) (Drafting.ofEdit_run hrun) hy
    (by rw [hcode.kind_eq]; rfl) allPublic
  exact ⟨x.tag, d', t', memory, x.shape, hfinish, hcode, hread, hkept⟩

-- ================================================================ access

/-- An object is a view of element `k` of an array that has its bytes in
`r`. -/
def IsView (a : RegisterArray) (heap : Heap) (view r : Ref) (k : Nat) : Prop :=
  heap[view]? = some (viewCell [a.elementName, a.typeName] r (k * a.stride))

theorem IsView.set {view k : Nat} (h : IsView a heap view r k)
    (harray : heap[r]? = some (.bytes bytes)) (bytes' : Bytes) :
    IsView a (heap.set r (.bytes bytes')) view r k := by
  have hne : r ≠ view := fun he => by
    rw [he, h] at harray
    cases harray
  unfold IsView
  rw [List.getElem?_set_ne hne]
  exact h

/-- The context of the code of a view, where only some bytes may be
touched. -/
def viewContext (p : Program) (a : RegisterArray) (service : Service) (view : Ref)
    (fence : Ref → Nat → Bool) : Context :=
  { p.context service view [a.elementName, a.typeName] with fence }

/-- The byte belongs to element `k`. -/
def inElement (a : RegisterArray) (r : Ref) (k : Nat) (array : Ref) (i : Nat) : Bool :=
  array = r && k * a.stride ≤ i && i < (k + 1) * a.stride

/-- What the property `y` of the field `f` does in a view of element `k`. -/
structure ViewedField (p : Program) (a : RegisterArray) (element : Shape) (object r : Ref)
    (heap : Heap) (bytes : Bytes) (view : Ref) (k : Nat) (f : Field) (y : Shape) (type : TypeRef) :
    Prop where
  holds : Holds (Layout.of f) type
  name_eq : nameOf y = f.propertyName
  /-- It gives access to the bits of the field in the element, where no
  byte of another element may be touched. -/
  bits : ∀ service, BitAccess (viewContext p a service view (inElement a r k)) y type heap r bytes
    (8 * (k * a.stride) + f.low) (f.high - f.low + 1)
  /-- Whatever is written, the fields of the other elements read as
  before. -/
  apart : ∀ (service : Service) (o : Operand), o.value.isOf type = true →
    ∀ (other l : Nat), l < a.count → l ≠ k → IsView a heap other r l →
    ∀ g z, (g, z) ∈ a.register.fields.zip (part element .properties) →
    ∃ heap' v, runSet (p.context service view [a.elementName, a.typeName]) y o heap
        = .ok (.nothing, heap')
      ∧ runGet (p.context service other [a.elementName, a.typeName]) z heap = .ok (v, heap)
      ∧ runGet (p.context service other [a.elementName, a.typeName]) z heap' = .ok (v, heap')
  /-- The double word at the start of the element has the bits of the field
  that are among its own. -/
  agrees : ∀ (service : Service) (constant : Bool), ∃ (n : Nat) (value : Value),
    p.serve service object (.method "ReadDoubleWord" [⟨.int .long (k * a.stride : Nat), constant⟩])
        heap = .ok (.int .uint n, heap)
      ∧ runGet (p.context service view [a.elementName, a.typeName]) y heap = .ok (value, heap)
      ∧ ∀ j < 32, f.low ≤ j → j ≤ f.high → n.testBit j = value.number.testBit (j - f.low)

/-- What an object gives access to that keeps the bytes of an array. -/
structure ArrayAccess (p : Program) (a : RegisterArray) (element : Shape) (object r : Ref)
    (heap : Heap) (bytes : Bytes) : Prop where
  /-- An index of the array gives a view of the element, and every other
  one throws. Left out are the arrays of stride 0 with 2 ^ 63 elements or
  more. They have no bytes, and their indexer compares the index with a
  count that is no `long`. -/
  index : 0 < a.stride ∨ a.count < 2 ^ 63 → ∀ (depth : Nat) (i : Int) (constant : Bool),
    Primitive.long.holds i = true →
    p.element (p.service (depth + 1)) object ⟨.int .long i, constant⟩ heap
      = if 0 ≤ i ∧ i < a.count
        then .ok (.ref heap.length,
          heap ++ [viewCell [a.elementName, a.typeName] r (i.toNat * a.stride)])
        else .error .thrown
  /-- Every field can be reached through a view. -/
  fields : ∀ view k : Nat, k < a.count → IsView a heap view r k →
    ∀ f y, (f, y) ∈ a.register.fields.zip (part element .properties) →
    ∃ type, ViewedField p a element object r heap bytes view k f y type
  /-- The double word at any offset of the array is read. -/
  read : ∀ (service : Service) (offset : Nat) (constant : Bool), offset < a.count * a.stride →
    p.serve service object (.method "ReadDoubleWord" [⟨.int .long offset, constant⟩]) heap
      = .ok (.int .uint (bytes.word offset), heap)
  /-- The double word at any offset of the array is written, and nothing
  else changes. -/
  write : ∀ (service : Service) (offset v : Nat) (constant constant' : Bool),
    offset < a.count * a.stride → v < 2 ^ 32 →
    ∃ bytes', p.serve service object (.method "WriteDoubleWord"
          [⟨.int .long offset, constant⟩, ⟨.int .uint v, constant'⟩]) heap
        = .ok (.nothing, heap.set r (.bytes bytes'))
      ∧ bytes'.size = bytes.size
      ∧ ∀ j, bytes'.bit j = if 8 * offset ≤ j ∧ j < 8 * offset + 32
        then v.testBit (j - 8 * offset) else bytes.bit j

/-- Values of a type that holds a field are told apart by their bits. -/
theorem value_ext {l : Layout} {type : TypeRef} {v w : Value} (hh : Holds l type)
    (hv : v.isOf type = true) (hw : w.isOf type = true)
    (h : ∀ j, v.number.testBit j = w.number.testBit j) : v = w := by
  rcases value_cases hh hv with ⟨hb, -, b, rfl⟩ | ⟨q, m, ht, hq, -, -, rfl⟩
  · rcases value_cases hh hw with ⟨-, -, c, rfl⟩ | ⟨q, n, ht, hq, -⟩
    · have hbit := h 0
      cases b <;> cases c <;> first | rfl | cases hbit
    · exact absurd (ht.symm.trans hb) (ne_bool_of_storage hq)
  · rcases value_cases hh hw with ⟨hb, -⟩ | ⟨q', n, ht', -, -, -, rfl⟩
    · exact absurd (ht.symm.trans hb) (ne_bool_of_storage hq)
    · obtain rfl := TypeRef.primitive.inj (ht.symm.trans ht')
      have hmn : m = n := Nat.eq_of_testBit_eq h
      rw [hmn]

section Viewed

variable {e : Shape} (h : ContainerCode t a memory x) (he : ElementCode t a e)
  (hr : a.register.Proper) (hinside : ∀ f ∈ a.register.fields, f.high < 8 * a.stride)
  (hpath : p.resolve [a.typeName] = some (x.finished allPublic))
  (hnames : ∀ d, d < t.size → p.names d = t.name d)
  (hk : Keeps heap object [a.typeName] r bytes) (hsize : bytes.size = a.count * a.stride + 3)

include h he hr hinside hpath hnames hk hsize

/-- A field is reached through a view. -/
theorem viewedField {view k : Nat} (hlt : k < a.count) (hview : IsView a heap view r k) {f : Field}
    {y : Shape}
    (hfy : (f, y) ∈ a.register.fields.zip ((part e .properties).map (Term.finished allPublic)))
    {element : Shape}
    (helement : part element .properties = (part e .properties).map (Term.finished allPublic)) :
    ∃ type, ViewedField p a element object r heap bytes view k f y type := by
  obtain ⟨type, hholds, hname, haccess⟩ := he.bitAccess [a.elementName, a.typeName] hr hinside hfy
  have hend : ∀ l < a.count, (l + 1) * a.stride ≤ bytes.size := fun l hl => by
    have : (l + 1) * a.stride ≤ a.count * a.stride := Nat.mul_le_mul_right _ hl
    omega
  have hhigh := hinside f (List.of_mem_zip hfy).1
  have hordered := (hr f (List.of_mem_zip hfy).1).ordered
  refine ⟨type, hholds, hname, fun service => ?_, fun service o ho other l hl hne hother g z hgz => ?_,
    fun service constant => ?_⟩
  · refine haccess (viewContext p a service view (inElement a r k)) heap bytes r k hnames hview
      hk.array (hend k hlt) fun i hlow hhigh => ?_
    unfold viewContext inElement
    simp [hlow, hhigh]
  · -- the other field is read before and after the field is written
    obtain ⟨bytes', hset, hsize', hbits⟩ := (haccess (p.context service view
      [a.elementName, a.typeName]) heap bytes r k hnames hview hk.array (hend k hlt)
      fun _ _ _ => rfl).set o ho
    rw [helement] at hgz
    obtain ⟨type', hholds', -, haccess'⟩ := he.bitAccess [a.elementName, a.typeName] hr
      hinside hgz
    have hbefore := (haccess' (p.context service other [a.elementName, a.typeName]) heap bytes r l
      hnames hother hk.array (hend l hl) fun _ _ _ => rfl).get
    have hafter := (haccess' (p.context service other [a.elementName, a.typeName])
      (heap.set r (.bytes bytes')) bytes' r l hnames (hother.set hk.array bytes')
      (getElem?_set_bytes hk.array bytes') (hsize' ▸ hend l hl) fun _ _ _ => rfl).get
    obtain ⟨v, hget, hv, hvbits⟩ := hbefore
    obtain ⟨v', hget', hv', hvbits'⟩ := hafter
    have hghigh := hinside g (List.of_mem_zip hgz).1
    have hgordered := (hr g (List.of_mem_zip hgz).1).ordered
    have hsame : v' = v := value_ext hholds' hv' hv fun j => by
      rw [hvbits' j, hvbits j]
      by_cases hj : j < g.high - g.low + 1
      · rw [hbits, if_neg]
        -- the two elements have no bit in common
        rcases Nat.lt_or_gt_of_ne hne with hlk | hkl
        · have : (l + 1) * a.stride ≤ k * a.stride := Nat.mul_le_mul_right _ hlk
          rw [Nat.succ_mul] at this
          omega
        · have : (k + 1) * a.stride ≤ l * a.stride := Nat.mul_le_mul_right _ hkl
          rw [Nat.succ_mul] at this
          omega
      · rw [decide_eq_false hj, Bool.false_and, Bool.false_and]
    exact ⟨_, v, hset, hget, hsame ▸ hget'⟩
  · have hbound := hend k hlt
    have hoffset : k * a.stride + 3 < bytes.size := by
      have : (k + 1) * a.stride ≤ a.count * a.stride := Nat.mul_le_mul_right _ hlt
      rw [Nat.succ_mul] at this
      omega
    obtain ⟨v, hget, -, hbits⟩ := (haccess (p.context service view [a.elementName, a.typeName]) heap
      bytes r k hnames hview hk.array hbound fun _ _ _ => rfl).get
    refine ⟨_, v, h.read_at hpath hnames hk hoffset constant, hget,
      fun j hj hlow hhigh => ?_⟩
    rw [Bytes.testBit_word, hbits, decide_eq_true hj, decide_eq_true (by omega)]
    congr 2
    omega

end Viewed

/-- The class of a register array gives access to its elements: the
indexer to views of them, a view to the bits of its own element and no
other one, and the methods for double words to the same bits at any offset
of the array. It starts with a buffer that has three bytes more than the
array. -/
theorem containerClass_elements (a : RegisterArray) (allPublic : Bool) (d : Draft)
    (linked : d.tree.Mutual) (proper : a.register.Proper)
    (inside : ∀ f ∈ a.register.fields, f.high < 8 * a.stride)
    (small : a.count * a.stride + 3 < 2 ^ 31) :
    ∃ container d' element, finishedContainer a allPublic d = (.ok container, d')
      ∧ (programOf d'.tree container).resolve [a.elementName, a.typeName] = some element
      ∧ (part element .properties).map nameOf = a.register.fields.map Field.propertyName
      ∧ (∀ (depth : Nat) (heap : Heap), ∃ bytes : Bytes, bytes.size = a.count * a.stride + 3
        ∧ (programOf d'.tree container).create ((programOf d'.tree container).service (depth + 1)) []
            a.typeName [] heap
          = .ok (.ref heap.length,
            heap ++ [ownerCell [a.typeName] (heap.length + 1), .bytes bytes]))
      ∧ ∀ (object r : Ref) (heap : Heap) (bytes : Bytes), Keeps heap object [a.typeName] r bytes →
        bytes.size = a.count * a.stride + 3 →
        ArrayAccess (programOf d'.tree container) a element object r heap bytes := by
  obtain ⟨container, d', t, memory, x, hfinished, hcode, hroot, hnames⟩ :=
    finishedContainer_run linked ⟨proper, small, Or.inl inside⟩ allPublic
  have hpath : (programOf d'.tree container).resolve [a.typeName] = some (x.finished allPublic) := by
    rw [resolve_root (by rw [hroot, nameOf_finished, hcode.name_eq]), hroot]
  obtain ⟨e, he, hresolve, -, -⟩ := hcode.classes_eq hpath (List.cons_ne_nil _ _)
  obtain ⟨_, _, -, -, hall⟩ := he.properties
  have hparts : part (e.finished allPublic) .properties
      = (part e .properties).map (Term.finished allPublic) := he.answers.part_eq fun y hy => by
    obtain ⟨i, hi, rfl⟩ := List.mem_iff_getElem.1 hy
    obtain ⟨type, hfield⟩ := hall.get (i := i) (hall.length_eq ▸ hi) hi
    exact hfield.kind_eq ▸ rfl
  have hcounted : 0 < a.stride ∨ a.count < 2 ^ 63 → a.count < 2 ^ 63 := by
    rintro (hpos | hcount)
    · have : a.count * 1 ≤ a.count * a.stride := Nat.mul_le_mul_left _ hpos
      omega
    · exact hcount
  refine ⟨container, d', e.finished allPublic, hfinished, hresolve, ?_,
    fun depth heap => hcode.create_run ⟨proper, small, Or.inl inside⟩ rfl hpath hnames,
    fun object r heap bytes hkeeps hsize => ⟨fun hcount depth i constant _ =>
      hcode.element_serves hroot hnames hkeeps small (hcounted hcount) depth i constant,
      fun view k hlt hview f y hfy => viewedField hcode he proper inside hpath hnames hkeeps hsize hlt
        hview (hparts ▸ hfy) hparts,
      fun service offset constant hin => hcode.read_at hpath hnames hkeeps (by omega) constant,
      fun service offset v constant constant' hin hv => ⟨_, hcode.write_at hpath hnames hkeeps
        (by omega) hv constant constant', Bytes.size_setWord .., Bytes.bit_setWord (by omega) v⟩⟩⟩
  rw [hparts, List.map_map]
  refine List.ext_getElem (by simpa using hall.length_eq.symm) fun i hi hi' => ?_
  simp only [List.length_map] at hi hi'
  obtain ⟨type, hfield⟩ := hall.get (i := i) hi' hi
  rw [List.getElem_map, List.getElem_map, Function.comp_apply, nameOf_finished]
  exact hfield.name_eq

/-- Two elements of three bytes: the second one has a view, the third one
does not exist, and the double word in the last byte is in the buffer. -/
theorem containerClass_elements_twoElements :
    ∃ container d', finishedContainer
        { name := "table"
          register := { name := "entry", fields := [{ name := "tag", low := 8, high := 19 }] }
          count := 2, stride := 3 } true {} = (.ok container, d')
      ∧ (programOf d'.tree container).element ((programOf d'.tree container).service 1) 0
          ⟨.int .long 1, false⟩
          [.object ["TableType"] [⟨"memory", bytesType, .ref 1⟩],
            .bytes ⟨[1, 2, 3, 4, 5, 6, 0, 0, 0], by decide⟩]
        = .ok (.ref 2,
          [.object ["TableType"] [⟨"memory", bytesType, .ref 1⟩],
            .bytes ⟨[1, 2, 3, 4, 5, 6, 0, 0, 0], by decide⟩,
            viewCell ["Table_EntryWrapper", "TableType"] 1 3])
      ∧ (programOf d'.tree container).element ((programOf d'.tree container).service 1) 0
          ⟨.int .long 2, false⟩
          [.object ["TableType"] [⟨"memory", bytesType, .ref 1⟩],
            .bytes ⟨[1, 2, 3, 4, 5, 6, 0, 0, 0], by decide⟩] = .error .thrown
      ∧ (programOf d'.tree container).serve ((programOf d'.tree container).service 1) 0
          (.method "ReadDoubleWord" [⟨.int .long (5 : Nat), false⟩])
          [.object ["TableType"] [⟨"memory", bytesType, .ref 1⟩],
            .bytes ⟨[1, 2, 3, 4, 5, 6, 0, 0, 0], by decide⟩]
        = .ok (.int .uint (6 : Nat), [.object ["TableType"] [⟨"memory", bytesType, .ref 1⟩],
            .bytes ⟨[1, 2, 3, 4, 5, 6, 0, 0, 0], by decide⟩]) := by
  obtain ⟨container, d', element, hfinished, -, -, -, haccess⟩ := containerClass_elements
    { name := "table"
      register := { name := "entry", fields := [{ name := "tag", low := 8, high := 19 }] }
      count := 2, stride := 3 } true {} Tree.mutual_empty (by unfold Register.Proper; decide)
    (by decide) (by decide)
  have h := haccess 0 1 [.object ["TableType"] [⟨"memory", bytesType, .ref 1⟩],
    .bytes ⟨[1, 2, 3, 4, 5, 6, 0, 0, 0], by decide⟩] ⟨[1, 2, 3, 4, 5, 6, 0, 0, 0], by decide⟩
    ⟨⟨_, rfl⟩, rfl, rfl⟩ rfl
  exact ⟨container, d', hfinished, h.index (Or.inl (by decide)) 0 1 false (by decide),
    h.index (Or.inl (by decide)) 0 2 false (by decide), h.read _ 5 false (by decide)⟩

end RegisterMap.Peripheral
