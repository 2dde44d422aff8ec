/-
Requests to objects of a rewritten program. A class whose methods are told
apart by their names answers a request with the method of that name, and a
class inside another one is found by its name; the rewriting changes
neither. What a new object starts with depends on the fields alone.
-/
import RegisterMap.Proofs.Exec.Calling

namespace RegisterMap.Exec

open Code Term

variable {p : Program} {service : Service} {object : Ref} {path : List String} {heap : Heap}
  {fields : Variables} {c m x : Shape} {l : List Shape} {name : String} {allPublic : Bool}

-- ============================================================== finding

/-- An entry is found by its key where no other has the same one. -/
theorem find?_key {α β : Type} [DecidableEq β] {key : α → β} {l : List α} {x : α}
    (hn : (l.map key).Nodup) (hx : x ∈ l) : l.find? (fun y => key y = key x) = some x := by
  induction l with
  | nil => cases hx
  | cons y rest ih =>
    rw [List.map_cons, List.nodup_cons] at hn
    rcases List.mem_cons.1 hx with rfl | hx
    · rw [List.find?_cons_of_pos (by simp)]
    · have hne : key y ≠ key x := fun he => hn.1 (he ▸ List.mem_map_of_mem hx)
      rw [List.find?_cons_of_neg (by simpa using hne), ih hn.2 hx]

theorem find_of_nodup (hn : (l.map nameOf).Nodup) (hx : x ∈ l) : find (nameOf x) l = some x :=
  find?_key hn hx

theorem find_finished (name : String) (l : List Shape) :
    find name (l.map (finished allPublic)) = (find name l).map (finished allPublic) := by
  unfold find
  rw [List.find?_map]
  congr 2
  funext y
  exact congrArg (fun n => decide (n = name)) (nameOf_finished y)

theorem filter_isCtor_finished (l : List Shape) :
    (l.map (finished allPublic)).filter (!isCtor ·)
      = (l.filter (!isCtor ·)).map (finished allPublic) := by
  rw [List.filter_map]
  congr 2
  funext y
  exact congrArg (!·) (isCtor_finished y)

theorem find_ctor_finished (l : List Shape) :
    (l.map (finished allPublic)).find? isCtor = (l.find? isCtor).map (finished allPublic) := by
  rw [List.find?_map]
  congr 2
  funext y
  exact isCtor_finished y

-- ============================================================== classes

/-- The first of the methods may be the constructor. -/
theorem find?_isCtor {sig : MethodSig} (hk : x.kind = .methodDecl sig) (hs : sig.ctor = true) :
    (x :: l).find? isCtor = some x :=
  List.find?_cons_of_pos (by unfold isCtor; rw [hk]; exact hs)

/-- A constructor and methods that are none. -/
structure Constructing (construct : Shape) (rest : List Shape) : Prop where
  ctor : ∃ sig, construct.kind = .methodDecl sig ∧ sig.ctor = true
  others : ∀ m ∈ rest, ∃ sig, m.kind = .methodDecl sig ∧ sig.ctor = false

namespace Constructing

variable {construct : Shape} {rest : List Shape} (h : Constructing construct rest)

include h

theorem isOperator : ∀ m ∈ construct :: rest, m.kind.isOperator = false := by
  intro m hm
  rcases List.mem_cons.1 hm with rfl | hm
  · obtain ⟨sig, hk, -⟩ := h.ctor
    rw [hk]
    rfl
  · obtain ⟨sig, hk, -⟩ := h.others m hm
    rw [hk]
    rfl

theorem filter_eq : (construct :: rest).filter (!isCtor ·) = rest := by
  obtain ⟨sig, hk, hctor⟩ := h.ctor
  have hfirst : (!isCtor construct) = false := by
    unfold isCtor
    rw [hk]
    exact congrArg (!·) hctor
  rw [List.filter_cons_of_neg (by simp [hfirst]), List.filter_eq_self]
  intro m hm
  obtain ⟨sig', hk', hplain⟩ := h.others m hm
  unfold isCtor
  rw [hk']
  exact congrArg (!·) hplain

end Constructing

/-- A class whose methods are told apart by their names. -/
structure Answers (c : Shape) : Prop where
  isClass : ∃ sig, c.kind = .classDecl sig
  methods : ∀ m ∈ part c .methods, m.kind.isOperator = false
  named : (((part c .methods).filter (!isCtor ·)).map nameOf).Nodup

theorem Constructing.answers {construct : Shape} {rest : List Shape} (h : Constructing construct rest)
    (hclass : ∃ sig, c.kind = .classDecl sig) (hall : part c .methods = construct :: rest)
    (hnamed : (rest.map nameOf).Nodup) : Answers c where
  isClass := hclass
  methods := hall ▸ h.isOperator
  named := by rwa [hall, h.filter_eq]

theorem Answers.part_eq (h : Answers c) {s : Slot} (hs : ∀ y ∈ part c s, y.kind.isOperator = false) :
    part (c.finished allPublic) s = (part c s).map (finished allPublic) := by
  obtain ⟨sig, hk⟩ := h.isClass
  exact part_finished (by rw [hk]; rfl) (by rw [hk]; rfl) hs

/-- A request for a method. -/
theorem Answers.serve_method (h : Answers c) (hobj : heap[object]? = some (.object path fields))
    (hpath : p.resolve path = some (c.finished allPublic)) (hm : m ∈ part c .methods)
    (hctor : isCtor m = false) (args : List Operand) :
    p.serve service object (.method (nameOf m) args) heap
      = runMethod (p.context service object path) (m.finished allPublic) args heap := by
  have hmem : m ∈ (part c .methods).filter (!isCtor ·) :=
    List.mem_filter.2 ⟨hm, by rw [hctor]; rfl⟩
  have hfind : find (nameOf m) ((part (c.finished allPublic) .methods).filter (!isCtor ·))
      = some (m.finished allPublic) := by
    rw [h.part_eq h.methods, filter_isCtor_finished, find_finished, find_of_nodup h.named hmem]
    rfl
  unfold Program.serve
  rw [hobj]
  dsimp only
  rw [hpath]
  dsimp only
  rw [hfind]

/-- A request for a method runs its body. -/
theorem Answers.serve_body (h : Answers c) (hobj : heap[object]? = some (.object path fields))
    (hpath : p.resolve path = some (c.finished allPublic)) (hm : m ∈ part c .methods)
    {sig : MethodSig} (hk : m.kind = .methodDecl sig) (hname : nameOf m = name)
    (hsig : sig.ctor = false ∧ sig.bodied = true)
    (hps : ∀ q ∈ part m .params, q.kind.isOperator = false) {args : List Operand}
    {params : Variables} (hbind : bindParams (part m .params) args = .ok params) :
    p.serve service object (.method name args) heap
      = runBody { p.context service object path with returns := sig.returns }
        (denote (part m .body)) params heap := by
  rw [← hname, h.serve_method hobj hpath hm (by unfold isCtor; rw [hk]; exact hsig.1),
    runMethod_finished hk hsig.2 hps hbind]

/-- A request for the first property of a name. -/
theorem Answers.serve_get (h : Answers c) (hobj : heap[object]? = some (.object path fields))
    (hpath : p.resolve path = some (c.finished allPublic))
    (hops : ∀ y ∈ part c .properties, y.kind.isOperator = false)
    (hx : find name (part c .properties) = some x) :
    p.serve service object (.get name) heap
      = runGet (p.context service object path) (x.finished allPublic) heap := by
  have hfind : find name (part (c.finished allPublic) .properties)
      = some (x.finished allPublic) := by
    rw [h.part_eq hops, find_finished, hx]
    rfl
  unfold Program.serve
  rw [hobj]
  dsimp only
  rw [hpath]
  dsimp only
  rw [hfind]

-- ============================================================= elements

/-- Reads the element at an index. The index is a parameter of the body. -/
def runElement (ctx : Context) (property : Shape) (o : Operand) (heap : Heap) :
    Except Fault (Value × Heap) :=
  match property.kind with
  | .propertyDecl sig =>
    if sig.get = .body then do
      let value ← o.value.settle .long o.constant
      runBody { ctx with returns := some sig.type } ((part property .get).map meaning)
        [⟨"index", .long, value⟩] heap
    else .error .unmodelled
  | _ => .error .illTyped

/-- The name of the property that gives elements. -/
def indexerName : String := "this[long index]"

/-- An object is asked for the element at an index. -/
def Program.element (p : Program) (service : Service) (object : Ref) (o : Operand) (heap : Heap) :
    Except Fault (Value × Heap) :=
  match heap[object]? with
  | some (.object path _) =>
    match p.resolve path with
    | none => .error .illTyped
    | some c =>
      match find indexerName (part c .properties) with
      | some property => runElement (p.context service object path) property o heap
      | none => .error (.unknownName indexerName)
  | _ => .error .illTyped

/-- Reading an element through a rewritten property. -/
theorem runElement_finished {sig : PropertySig} (hk : x.kind = .propertyDecl sig)
    (hget : sig.get = .body) {o : Operand} {v : Value}
    (hv : o.value.settle .long o.constant = .ok v) (ctx : Context) (heap : Heap) :
    runElement ctx (x.finished allPublic) o heap
      = runBody { ctx with returns := some sig.type } (denote (part x .get))
        [⟨"index", .long, v⟩] heap := by
  have hpart : (part (x.finished allPublic) .get).map meaning = denote (part x .get) :=
    meaning_part_finished (by rw [hk]; rfl) (by rw [hk]; rfl)
  unfold runElement
  rw [kind_finished, hk, hpart]
  cases allPublic <;> exact (if_pos hget).trans (by rw [hv]; rfl)

/-- A request for an element. -/
theorem Answers.serve_element (h : Answers c) (hobj : heap[object]? = some (.object path fields))
    (hpath : p.resolve path = some (c.finished allPublic))
    (hops : ∀ y ∈ part c .properties, y.kind.isOperator = false)
    (hx : find indexerName (part c .properties) = some x) (o : Operand) :
    p.element service object o heap
      = runElement (p.context service object path) (x.finished allPublic) o heap := by
  have hfind : find indexerName (part (c.finished allPublic) .properties)
      = some (x.finished allPublic) := by
    rw [h.part_eq hops, find_finished, hx]
    rfl
  unfold Program.element
  rw [hobj]
  dsimp only
  rw [hpath]
  dsimp only
  rw [hfind]

-- ============================================================== nesting

/-- The outermost class. -/
theorem resolve_root (h : nameOf p.root = name) : p.resolve [name] = some p.root := if_pos h

/-- A class inside another one. -/
theorem resolve_inner {outer : List String} (hc : Answers c)
    (hpath : p.resolve outer = some (c.finished allPublic)) (houter : outer ≠ [])
    (hops : ∀ y ∈ part c .classes, y.kind.isOperator = false)
    (hn : ((part c .classes).map nameOf).Nodup) (hx : x ∈ part c .classes) :
    p.resolve (nameOf x :: outer) = some (x.finished allPublic) := by
  have hfind : find (nameOf x) (part (c.finished allPublic) .classes)
      = some (x.finished allPublic) := by
    rw [hc.part_eq hops, find_finished, find_of_nodup hn hx]
    rfl
  cases outer with
  | nil => exact absurd rfl houter
  | cons own rest =>
    unfold Program.resolve
    rw [hpath]
    exact hfind

/-- A class inside another one is found from there. -/
theorem locate_inner {outer : List String} {y : Shape} (hpath : p.resolve outer = some y)
    (houter : outer ≠ []) (hx : p.resolve (name :: outer) = some x) :
    p.locate name outer = name :: outer := by
  cases outer with
  | nil => exact absurd rfl houter
  | cons own rest =>
    unfold Program.resolve at hx
    rw [hpath] at hx
    unfold Program.locate
    rw [hpath, Option.bind_some, show find name (part y .classes) = some x from hx]

-- ============================================================= partners

/-- Each is named after its partner, so all names are those of the
partners in turn. -/
theorem map_nameOf_eq {α : Type} {named : α → String} {R : α → Shape → Prop} {l : List α}
    {xs : List Shape} (h : List.Forall₂ R l xs) (hname : ∀ {a y}, R a y → nameOf y = named a) :
    xs.map nameOf = l.map named := by
  induction h with
  | nil => rfl
  | cons hfirst hrest ih => rw [List.map_cons, List.map_cons, hname hfirst, ih]

/-- What each of one list has to a partner, all of the other have. -/
theorem forall_of_partner {α : Type} {P : Shape → Prop} {R : α → Shape → Prop} {l : List α}
    {xs : List Shape} (h : List.Forall₂ R l xs) (hP : ∀ {a y}, R a y → P y) : ∀ y ∈ xs, P y := by
  induction h with
  | nil => exact List.forall_mem_nil _
  | cons hfirst hrest ih => exact List.forall_mem_cons.2 ⟨hP hfirst, ih⟩

-- ============================================================== objects

/-- The declaration of a field without a value. -/
structure FieldDecl (name : String) (type : TypeRef) (x : Shape) : Prop where
  kind_eq : ∃ access, x.kind = .variableDecl type access
  name_eq : nameOf x = name
  init : part x .init = []

theorem FieldDecl.isOperator {type : TypeRef} (h : FieldDecl name type x) :
    x.kind.isOperator = false := by
  obtain ⟨access, hk⟩ := h.kind_eq
  rw [hk]
  rfl

theorem FieldDecl.finished {type : TypeRef} (h : FieldDecl name type x) :
    FieldDecl name type (x.finished allPublic) := by
  obtain ⟨access, hk⟩ := h.kind_eq
  refine ⟨?_, (nameOf_finished x).trans h.name_eq, ?_⟩
  · rw [kind_finished, hk]
    cases allPublic with
    | false => exact ⟨access, rfl⟩
    | true => exact ⟨some .pub, rfl⟩
  · rw [part_finished_closed (by rw [hk]; rfl), part_tidied (by rw [hk]; rfl), h.init]
    rfl

/-- What the fields of a new object are. -/
theorem freshFields_eq {decls : List (String × TypeRef)}
    (h : List.Forall₂ (fun d x => FieldDecl d.1 d.2 x) decls (part c .fields)) :
    Program.freshFields c = decls.map fun d => ⟨d.1, d.2, Value.default d.2⟩ := by
  unfold Program.freshFields
  generalize part c .fields = xs at h
  induction h with
  | nil => rfl
  | @cons d x ds xs hd _ ih =>
    obtain ⟨access, hk⟩ := hd.kind_eq
    rw [List.map_cons, ← ih, List.filterMap_cons_some (b := ⟨d.1, d.2, Value.default d.2⟩)]
    rw [hk, hd.name_eq]

theorem noInit {decls : List (String × TypeRef)} {xs : List Shape}
    (h : List.Forall₂ (fun d x => FieldDecl d.1 d.2 x) decls xs) :
    (xs.any fun x => !(part x .init).isEmpty) = false := by
  induction h with
  | nil => rfl
  | cons hd _ ih =>
    rw [List.any_cons, hd.init, ih]
    rfl

/-- A new object of a class is put in the heap, and its constructor runs. -/
theorem Answers.create {decls : List (String × TypeRef)} {found : List String} {args : List Operand}
    {heap' : Heap} {v : Value} (h : Answers c)
    (hfields : List.Forall₂ (fun d x => FieldDecl d.1 d.2 x) decls (part c .fields))
    (hlocate : p.locate name path = found)
    (hpath : p.resolve found = some (c.finished allPublic))
    (hctor : (part c .methods).find? isCtor = some m)
    (hrun : runMethod (p.context service heap.length found) (m.finished allPublic) args
      (heap ++ [.object found (decls.map fun d => ⟨d.1, d.2, Value.default d.2⟩)])
      = .ok (v, heap')) :
    p.create service path name args heap = .ok (.ref heap.length, heap') := by
  have hops : ∀ y ∈ part c .fields, y.kind.isOperator = false :=
    forall_of_partner hfields FieldDecl.isOperator
  have hfields' : List.Forall₂ (fun d x => FieldDecl d.1 d.2 x) decls
      (part (c.finished allPublic) .fields) := by
    rw [h.part_eq hops, List.forall₂_map_right_iff]
    exact hfields.imp fun d x hd => hd.finished
  have hfind : (part (c.finished allPublic) .methods).find? isCtor = some (m.finished allPublic) := by
    rw [h.part_eq h.methods, find_ctor_finished, hctor]
    rfl
  unfold Program.create
  rw [hlocate]
  dsimp only
  rw [hpath]
  dsimp only
  rw [noInit hfields', hfind, freshFields_eq hfields', if_neg Bool.false_ne_true]
  dsimp only
  rw [hrun]
  rfl

end RegisterMap.Exec
