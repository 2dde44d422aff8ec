/-
Declarations after the rewriting. A rewritten class has the rewritten
members of the class it was, and running a rewritten method is running
what its body means, so nothing after this file looks at the passes of
the rewriting again.
-/
import RegisterMap.Proofs.Exec.Program
import RegisterMap.Proofs.Exec.Stepping

namespace RegisterMap.Code.Kind

/-- The kinds of declarations. -/
def isDecl : Kind → Bool
  | .variableDecl .. | .paramDecl .. | .methodDecl .. | .propertyDecl .. | .classDecl ..
  | .namespaceDecl => true
  | _ => false

end RegisterMap.Code.Kind

namespace RegisterMap.Exec

open Code Term

variable {x y : Shape} {kind : Kind} {notes : Notes} {slots : List (List Shape)} {s : Slot}

-- ================================================================ parts

/-- A declaration after the passes that add and remove nodes. -/
def tidied (x : Shape) : Shape := x.reducedBelow.parenthesized

theorem parenTop_of_isDecl (h : kind.isDecl = true) (slots : List (List Shape)) :
    parenTop kind slots = slots := by
  cases kind <;> first | rfl | cases h

theorem tidied_node (h : kind.isDecl = true) (notes : Notes) (slots : List (List Shape)) :
    tidied (.node () kind notes slots)
      = .node () kind notes (slots.map fun c => (c.flatMap reduced).map parenthesized) := by
  unfold tidied reducedBelow
  rw [parenthesized_node]
  show node () kind notes (parenTop kind _) = node () kind notes _
  rw [parenTop_of_isDecl h, List.map_map]
  rfl

theorem tidied_members {c : List Shape} (h : ∀ y ∈ c, y.kind.isOperator = false) :
    (c.flatMap reduced).map parenthesized = c.map tidied := by
  induction c with
  | nil => rfl
  | cons y rest ih =>
    rw [List.flatMap_cons, reduced_eq (h y (List.mem_cons_self ..)), List.map_append,
      ih fun z hz => h z (List.mem_cons_of_mem _ hz)]
    rfl

/-- The chains of the slots, changed one by one. -/
theorem part_node_map (kind : Kind) (notes notes' : Notes) (slots : List (List Shape))
    {f : List Shape → List Shape} (hf : f [] = []) (s : Slot) :
    part (.node () kind notes' (slots.map f)) s = f (part (.node () kind notes slots) s) := by
  unfold part
  dsimp only [kind_node, slots_node]
  generalize kind.slots = ks
  induction ks generalizing slots with
  | nil => exact hf.symm
  | cons k ks ih =>
    cases slots with
    | nil => exact hf.symm
    | cons c cs =>
      rw [List.map_cons, List.zip_cons_cons, List.zip_cons_cons, List.lookup_cons,
        List.lookup_cons]
      cases s == k with
      | true => rfl
      | false => exact ih cs

theorem part_congr {kind kind' : Kind} (h : kind'.slots = kind.slots) (notes notes' : Notes)
    (slots : List (List Shape)) (s : Slot) :
    part (.node () kind' notes' slots) s = part (.node () kind notes slots) s := by
  unfold part
  dsimp only [kind_node, slots_node]
  rw [h]

/-- The parts of a tidied declaration. -/
theorem part_tidied (h : x.kind.isDecl = true) (s : Slot) :
    part (tidied x) s = ((part x s).flatMap reduced).map parenthesized := by
  cases x with
  | node tag kind notes slots =>
    replace h : kind.isDecl = true := h
    rw [tidied_node h]
    exact part_node_map kind notes notes slots rfl s

theorem kind_tidied (x : Shape) : (tidied x).kind = x.kind := kind_parenthesized _

theorem notes_tidied (x : Shape) : (tidied x).notes = x.notes := by
  cases x with
  | node tag kind notes slots =>
    unfold tidied reducedBelow
    rw [parenthesized_node]
    rfl

theorem kind_published (x : Shape) : x.published.kind = x.kind.published (qualified x.notes) := by
  cases x with
  | node tag kind notes slots =>
    rw [published_node]
    rfl

theorem notes_published (x : Shape) : x.published.notes = x.notes := by
  cases x with
  | node tag kind notes slots =>
    rw [published_node]
    rfl

/-- The parts of a published declaration. -/
theorem part_published (x : Shape) (s : Slot) :
    part x.published s = if x.kind.isOpen then (part x s).map published else part x s := by
  cases x with
  | node tag kind notes slots =>
    have hpart := part_node_map kind notes notes slots
      (f := List.map fun x => if kind.isOpen then x.published else x) rfl s
    rw [published_node, part_congr (Kind.slots_published _ kind) notes, hpart]
    show _ = if kind.isOpen then (part (.node () kind notes slots) s).map published
      else part (.node () kind notes slots) s
    cases kind.isOpen with
    | true => rfl
    | false => exact List.map_id' _

-- ============================================================= finished

variable {allPublic : Bool}

theorem nameOf_finished (x : Shape) : nameOf (x.finished allPublic) = nameOf x := by
  have hnotes : (x.finished allPublic).notes = x.notes := by
    cases allPublic with
    | false => exact notes_tidied x
    | true => exact (notes_published (tidied x)).trans (notes_tidied x)
  unfold nameOf
  rw [hnotes]

theorem kind_finished (x : Shape) :
    (x.finished allPublic).kind
      = if allPublic then x.kind.published (qualified x.notes) else x.kind := by
  cases allPublic with
  | false => exact kind_tidied x
  | true =>
    show (tidied x).published.kind = _
    rw [kind_published, kind_tidied, notes_tidied]
    rfl

/-- The members of a rewritten class. -/
theorem part_finished (h : x.kind.isDecl = true) (hopen : x.kind.isOpen = true)
    (hs : ∀ y ∈ part x s, y.kind.isOperator = false) :
    part (x.finished allPublic) s = (part x s).map (finished allPublic) := by
  have htidied : part (tidied x) s = (part x s).map tidied := by
    rw [part_tidied h, tidied_members hs]
  cases allPublic with
  | false => exact htidied
  | true =>
    show part (tidied x).published s = _
    rw [part_published, kind_tidied, if_pos hopen, htidied, List.map_map]
    rfl

/-- The members of what is not open are not published. -/
theorem part_finished_closed (hopen : x.kind.isOpen = false) :
    part (x.finished allPublic) s = part (tidied x) s := by
  cases allPublic with
  | false => rfl
  | true =>
    show part (tidied x).published s = _
    rw [part_published, kind_tidied, hopen]
    rfl

/-- The body of a rewritten method means what is left of it. -/
theorem meaning_part_finished (h : x.kind.isDecl = true) (hopen : x.kind.isOpen = false) :
    (part (x.finished allPublic) s).map meaning = denote (part x s) := by
  rw [part_finished_closed hopen, part_tidied h, List.map_map]
  unfold denote
  exact List.map_congr_left fun y _ => meaning_parenthesized y

theorem isCtor_finished (x : Shape) : isCtor (x.finished allPublic) = isCtor x := by
  unfold isCtor
  rw [kind_finished]
  cases allPublic with
  | false => rfl
  | true =>
    rw [if_pos rfl]
    cases x.kind with
    | methodDecl sig =>
      unfold Kind.published
      dsimp only
      by_cases hq : (qualified x.notes || sig.modifiers.isPartial) = true
      · rw [if_pos hq]
      · rw [if_neg hq]
    | _ => rfl

-- ============================================================== bodies

variable {ctx : Context} {heap : Heap} {params : Variables} {c : List Shape} {v : Value}
  {st : Store}

theorem runBody_returns (h : Returns ctx c { heap, locals := params } v st) :
    runBody ctx (denote c) params heap = .ok (v, st.heap) := by
  unfold runBody
  rw [show execList ctx (denote c) _ = _ from h]

theorem runBody_runs (h : Runs ctx c { heap, locals := params } st)
    (hret : ctx.returns = none) :
    runBody ctx (denote c) params heap = .ok (.nothing, st.heap) := by
  unfold runBody
  rw [show execList ctx (denote c) _ = _ from h]
  dsimp only
  rw [hret]
  rfl

/-- Reading a rewritten property. -/
theorem runGet_finished {sig : PropertySig} (hk : x.kind = .propertyDecl sig)
    (hget : sig.get = .body) (ctx : Context) (heap : Heap) :
    runGet ctx (x.finished allPublic) heap
      = runBody { ctx with returns := some sig.type } (denote (part x .get)) [] heap := by
  have hpart : (part (x.finished allPublic) .get).map meaning = denote (part x .get) :=
    meaning_part_finished (by rw [hk]; rfl) (by rw [hk]; rfl)
  unfold runGet
  rw [kind_finished, hk, hpart]
  cases allPublic <;> exact if_pos hget

/-- Writing a rewritten property. -/
theorem runSet_finished {sig : PropertySig} (hk : x.kind = .propertyDecl sig)
    (hset : sig.set = .body) {o : Operand} (hv : o.value.settle sig.type o.constant = .ok v)
    (ctx : Context) (heap : Heap) :
    runSet ctx (x.finished allPublic) o heap
      = runBody { ctx with returns := none } (denote (part x .set))
        [⟨"value", sig.type, v⟩] heap := by
  have hpart : (part (x.finished allPublic) .set).map meaning = denote (part x .set) :=
    meaning_part_finished (by rw [hk]; rfl) (by rw [hk]; rfl)
  unfold runSet
  rw [kind_finished, hk, hpart]
  cases allPublic <;> exact (if_pos hset).trans (by rw [hv]; rfl)

/-- Parameters are not affected by the rewriting. -/
theorem bindParams_tidied (ps : List Shape) (args : List Operand) :
    bindParams (ps.map tidied) args = bindParams ps args := by
  induction ps generalizing args with
  | nil => rfl
  | cons p ps ih =>
    cases args with
    | nil => rfl
    | cons o args =>
      have hname : nameOf (tidied p) = nameOf p := @nameOf_finished false p
      rw [List.map_cons]
      unfold bindParams
      rw [kind_tidied, hname, ih]

/-- What a rewritten method says of itself. -/
theorem sig_finished {sig : MethodSig} (hk : x.kind = .methodDecl sig) :
    ∃ sig', (x.finished allPublic).kind = .methodDecl sig' ∧ sig'.bodied = sig.bodied
      ∧ sig'.returns = sig.returns := by
  rw [kind_finished, hk]
  cases allPublic with
  | false => exact ⟨sig, rfl, rfl, rfl⟩
  | true =>
    by_cases hq : (qualified x.notes || sig.modifiers.isPartial) = true
    · exact ⟨sig, if_pos hq, rfl, rfl⟩
    · exact ⟨{ sig with access := some .pub }, if_neg hq, rfl, rfl⟩

/-- The parameters of a rewritten method. -/
theorem params_finished {sig : MethodSig} (hk : x.kind = .methodDecl sig)
    (hps : ∀ p ∈ part x .params, p.kind.isOperator = false) :
    part (x.finished allPublic) .params = (part x .params).map tidied := by
  rw [part_finished_closed (by rw [hk]; rfl), part_tidied (by rw [hk]; rfl), tidied_members hps]

/-- Running a rewritten method. -/
theorem runMethod_finished {sig : MethodSig} (hk : x.kind = .methodDecl sig)
    (hbodied : sig.bodied = true) (hps : ∀ p ∈ part x .params, p.kind.isOperator = false)
    {args : List Operand} (hbind : bindParams (part x .params) args = .ok params)
    (ctx : Context) (heap : Heap) :
    runMethod ctx (x.finished allPublic) args heap
      = runBody { ctx with returns := sig.returns } (denote (part x .body)) params heap := by
  have hbody : (part (x.finished allPublic) .body).map meaning = denote (part x .body) :=
    meaning_part_finished (by rw [hk]; rfl) (by rw [hk]; rfl)
  obtain ⟨sig', hkind, hbodied', hreturns⟩ := @sig_finished x allPublic sig hk
  unfold runMethod
  rw [hkind, params_finished hk hps, bindParams_tidied, hbind, hbody]
  dsimp only [bind, Except.bind]
  rw [hbodied', hbodied, if_pos rfl, hreturns]

/-- Running a rewritten method without a body or parameters. -/
theorem runMethod_unbodied {sig : MethodSig} (hk : x.kind = .methodDecl sig)
    (hbodied : sig.bodied = false) (hps : part x .params = []) (ctx : Context) (heap : Heap) :
    runMethod ctx (x.finished allPublic) [] heap = .ok (.nothing, heap) := by
  have hparams : part (x.finished allPublic) .params = [] := by
    rw [params_finished hk (by rw [hps]; nofun), hps]
    rfl
  obtain ⟨sig', hkind, hbodied', -⟩ := @sig_finished x allPublic sig hk
  unfold runMethod
  rw [hkind, hparams]
  dsimp only [bind, Except.bind, bindParams]
  rw [hbodied', hbodied]
  rfl

end RegisterMap.Exec
