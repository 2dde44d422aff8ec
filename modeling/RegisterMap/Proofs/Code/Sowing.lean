/-
Planting a sketch. `plant_run` says that a sketch that fits is planted
without failing, that its code is what stands there afterwards, and that
nothing else has changed. The proof follows the sketch, one lemma for
every way to build a node, and each of them is a step or two of the
calculus of `Yields`.
-/
import RegisterMap.Proofs.Code.Sketching

namespace RegisterMap.Code

open Term (typeOf typeOf?)

namespace Sketch

open RegisterMap.Code.Tree (Stock Yields)

variable (types : NodeId → TypeRef) (own : NodeId → List Planted) (known : NodeId → Prop)

/-- The arena has what a sketch refers to: the chains it takes, and the
declarations it knows. -/
structure Ready (t : Tree) (ids : List NodeId) : Prop where
  stock : Stock t (ids.map own)
  heads : ∀ id ∈ ids, headOr none (own id) = some id
  knows : ∀ d, known d → t.declaredType d = .ok (types d)

variable {types own known} {t t' : Tree} {ids js : List NodeId} {cs : List (List Planted)}

theorem declaredType_eq {d : NodeId} {type : TypeRef} (h : t.declaredType d = .ok type) :
    d < t.size ∧ ∀ t' : Tree, d < t'.size → t'.kind? d = t.kind? d →
      t'.declaredType d = .ok type := by
  have hd : d < t.size := by
    refine Classical.byContradiction fun hnot => ?_
    have hreq : t.require d = .error (.link (.unknownNode d)) := if_neg hnot
    unfold Tree.declaredType at h
    rw [hreq] at h
    cases h
  refine ⟨hd, fun t' hd' hk => ?_⟩
  unfold Tree.declaredType at h ⊢
  rw [Tree.require_eq_ok hd] at h
  rw [Tree.require_eq_ok hd', hk]
  cases hq : t.kind? d with
  | none =>
    rw [hq] at h
    cases h
  | some k =>
    rw [hq] at h
    cases k <;> first | exact h | cases h

theorem Ready.split (h : Ready types own known t (ids ++ js)) :
    Ready types own known t ids ∧ Ready types own known t js
      ∧ ∀ j ∈ tagsOf (js.map own), j < t.size ∧ j ∉ tagsOf (ids.map own) := by
  obtain ⟨hs, hh, hk⟩ := h
  rw [List.map_append, Tree.stock_append] at hs
  obtain ⟨hi, hj, hdis⟩ := hs
  exact ⟨⟨hi, fun id hid => hh id (List.mem_append_left _ hid), hk⟩,
    ⟨hj, fun id hid => hh id (List.mem_append_right _ hid), hk⟩,
    fun j hm => ⟨hj.lt_size hm, fun hm' => hdis j hm' hm⟩⟩

/-- What is left of the stock is ready for the next step. -/
theorem Ready.next (h : Ready types own known t js) (hy : Yields t t' (tagsOf (ids.map own)) cs)
    (hdis : ∀ j ∈ tagsOf (js.map own), j < t.size ∧ j ∉ tagsOf (ids.map own)) :
    Ready types own known t' js := by
  refine ⟨hy.keep h.stock fun j hj => (hdis j hj).2, h.heads, fun d hd => ?_⟩
  obtain ⟨hlt, hmove⟩ := declaredType_eq (h.knows d hd)
  exact hmove t' (Nat.lt_of_lt_of_le hlt hy.grows) (hy.kinds d hlt)

-- ========================================================== last steps

variable {old : List NodeId} {ys zs : List Planted} {i j : NodeId} {code : List (List Shape)}

theorem operandType_eq (ys : List Planted) (hs : Stock t cs) (hy : ys ∈ cs)
    (hi : headOr none ys = some i) {c : List Shape} (hc : ys.map Term.shape = c) (he : (typeOf? c).isSome) :
    t.operandType i = .ok (typeOf c) := by
  cases ys with
  | nil => cases hi
  | cons y rest =>
    injection hi with hi
    subst hi
    have hholds := hs.holds _ hy
    have hk := (Tree.holdsChain_cons.1 hholds).1.kind?_eq
    have hlt := hholds.lt_size (Tree.mem_tags_head y rest)
    subst hc
    unfold Tree.operandType Tree.exprType?
    rw [Tree.require_eq_ok hlt, hk]
    have hty : typeOf? ((y :: rest).map Term.shape) = y.kind.exprType := by
      rw [Term.typeOf?_shape]
      rfl
    unfold Term.typeOf
    rw [hty] at he ⊢
    obtain ⟨type, ht⟩ := Option.isSome_iff_exists.1 he
    rw [Option.bind_some, ht]
    rfl

/-- The last step of planting an expression or a statement: a node over
what has been planted. -/
theorem make_plants (k : Kind) (kind : Tree → Except Failure Kind)
    (links : List (Slot × Option NodeId)) (code : List (List Shape)) (hy : Yields t t' old cs)
    (hcode : cs.map (List.map Term.shape) = code) (hk : kind t' = .ok k)
    (hlen : cs.length = k.slots.length) (hlinks : links = k.slots.zip (cs.map (headOr none)))
    (hdecl : ∀ d type, k = .varRef d type → d < t'.size) :
    ∃ t'' i ys, Edit.make kind links t' = (.ok i, t'') ∧ headOr none ys = some i
      ∧ Yields t t'' old [ys] ∧ ys.map Term.shape = [.above k code] := by
  obtain ⟨t'', hrun, hy'⟩ := Tree.make_run kind hk hy.stock hlen hlinks hdecl
  refine ⟨t'', t'.size, [.node t'.size k {} cs], hrun, rfl, hy.trans hy', ?_⟩
  rw [List.map_singleton, Term.shape_node, ← hcode]
  rfl

/-- The last step of planting a declaration. -/
theorem named_plants (name : String) (k : Kind) (links : List (Slot × Option NodeId))
    (code : List (List Shape)) (hy : Yields t t' old cs) (hcode : cs.map (List.map Term.shape) = code)
    (hlen : cs.length = k.slots.length) (hlinks : links = k.slots.zip (cs.map (headOr none)))
    (hdecl : ∀ d type, k ≠ .varRef d type) :
    ∃ t'' i ys, Edit.named name (Edit.add k links) t' = (.ok i, t'')
      ∧ headOr none ys = some i ∧ Yields t t'' old [ys]
      ∧ ys.map Term.shape = [(Shape.above k code).remark (Tree.titled name)] := by
  obtain ⟨t₁, hrun, hy₁⟩ := Tree.add_run k hy.stock hlen hlinks hdecl
  obtain ⟨t₂, hrun₂, hy₂⟩ := Tree.named_run name hrun hy₁ (Nat.le_refl _)
  refine ⟨t₂, t'.size, _, hrun₂, rfl, hy.trans hy₂, ?_⟩
  rw [List.map_singleton, Term.shape_remark, Term.shape_node, ← hcode]
  rfl

/-- A node over one chain. -/
theorem unary_plants {e : Edit NodeId} {c : List Shape} (k : Kind) (s : Slot)
    (hk : k.slots = [s]) (hdecl : ∀ d type, k ≠ .varRef d type) (hrun : e t = (.ok i, t'))
    (hi : headOr none ys = some i) (hy : Yields t t' old [ys]) (hc : ys.map Term.shape = c) :
    ∃ t'' j zs, (e >>= fun i => Edit.add k [(s, some i)]) t = (.ok j, t'')
      ∧ headOr none zs = some j ∧ Yields t t'' old [zs]
      ∧ zs.map Term.shape = [.above k [c]] := by
  have hlinks : [(s, some i)] = k.slots.zip ([ys].map (headOr none)) := by
    rw [hk, ← hi]
    rfl
  obtain ⟨t'', j, zs, hadd, hj, hy', hzs⟩ := make_plants k (fun _ => .ok k) [(s, some i)] [c] hy
    (by rw [← hc]; rfl) rfl (by rw [hk]; rfl) hlinks fun d type he => absurd he (hdecl d type)
  exact ⟨t'', j, zs, (Edit.bind_run hrun).trans hadd, hj, hy', hzs⟩

/-- A node over a chain that may be empty. -/
theorem option_plants {e : Edit (Option NodeId)} {c : List Shape} (k : Kind) (s : Slot)
    (hk : k.slots = [s]) (hdecl : ∀ d type, k ≠ .varRef d type)
    (hrun : e t = (.ok (headOr none ys), t')) (hy : Yields t t' old [ys])
    (hc : ys.map Term.shape = c) :
    ∃ t'' j zs, (e >>= fun o => Edit.add k [(s, o)]) t = (.ok j, t'')
      ∧ headOr none zs = some j ∧ Yields t t'' old [zs]
      ∧ zs.map Term.shape = [.above k [c]] := by
  have hlinks : [(s, headOr none ys)] = k.slots.zip ([ys].map (headOr none)) := by
    rw [hk]
    rfl
  obtain ⟨t'', j, zs, hadd, hj, hy', hzs⟩ := make_plants k (fun _ => .ok k)
    [(s, headOr none ys)] [c] hy (by rw [← hc]; rfl) rfl (by rw [hk]; rfl) hlinks
    fun d type he => absurd he (hdecl d type)
  exact ⟨t'', j, zs, (Edit.bind_run hrun).trans hadd, hj, hy', hzs⟩

theorem leaf_plants (hm : t.Mutual) (k : Kind) (hk : k.slots = []) :
    ∃ t'' i ys, Edit.leaf k t = (.ok i, t'') ∧ headOr none ys = some i
      ∧ Yields t t'' [] [ys] ∧ ys.map Term.shape = [.leaf k] := by
  obtain ⟨t'', hrun, hy⟩ := Tree.leaf_run hm k
  rw [hk] at hy
  refine ⟨t'', t.size, [.node t.size k {} []], hrun, rfl, hy, ?_⟩
  rw [List.map_singleton, Term.shape_node]
  rfl

-- ============================================================== chains

variable {as bs ds : List (List Planted)}

/-- A step that takes a part of what has been planted. -/
theorem yields_part {t'' : Tree} (hy : Yields t t' old (as ++ (bs ++ cs)))
    (h : Yields t' t'' (tagsOf bs) ds) : Yields t t'' old (as ++ (ds ++ cs)) := by
  obtain ⟨ha, hbc, habc⟩ := Tree.stock_append.1 hy.stock
  obtain ⟨hb, hc, hdis⟩ := Tree.stock_append.1 hbc
  have hright := h.beside hc fun j hj hm => hdis j hm hj
  rw [← tagsOf_append] at hright
  have hall := ha.yields_refl.append hright fun j hj => ⟨hbc.lt_size hj, fun hm => habc j hm hj⟩
  rw [← tagsOf_append] at hall
  exact hy.trans hall

theorem ne_nil_of_heads (h : cs.map (headOr none) = ids.map some) : ∀ c ∈ cs, c ≠ [] := by
  rintro c hc rfl
  have hm : headOr none [] ∈ cs.map (headOr none) := List.mem_map_of_mem hc
  rw [h] at hm
  obtain ⟨i, -, hi⟩ := List.mem_map.1 hm
  cases hi

theorem join_part (as : List (List Planted)) (hy : Yields t t' old (as ++ (bs ++ cs)))
    (hids : bs.map (headOr none) = ids.map some) :
    ∃ t'', Edit.join ids t' = (.ok (headOr none bs.flatten), t'')
      ∧ Yields t t'' old (as ++ (bs.flatten :: cs)) := by
  have hb := (Tree.stock_append.1 (Tree.stock_append.1 hy.stock).2.1).1
  obtain ⟨t'', hrun, hj⟩ := Tree.join_run hb (ne_nil_of_heads hids) hids
  exact ⟨t'', hrun, yields_part hy hj⟩

theorem flatten_code (h : cs.map (List.map Term.shape) = code) :
    cs.flatten.map Term.shape = code.flatten := by
  rw [List.map_flatten, h]

/-- An argument is told from any other node. -/
theorem match_arg {α : Type} (k : Kind) (a b : α) :
    (match k with | .arg .. => a | _ => b) = if k.isArg then a else b := by
  cases k <;> rfl

/-- One value becomes an argument. -/
theorem argument_run (hs : Stock t [ys]) (hi : headOr none ys = some i) :
    ∃ t' j zs, (do
        match (← Edit.read (·.node i)).kind with
        | .arg .. => pure i
        | _ => Edit.arg i none false : Edit NodeId) t = (.ok j, t')
      ∧ headOr none zs = some j ∧ Yields t t' (tagsOf [ys]) [zs]
      ∧ zs.map Term.shape = asArgument (ys.map Term.shape) := by
  cases ys with
  | nil => cases hi
  | cons y rest =>
    injection hi with hi
    subst hi
    have hread : Edit.read (·.node y.tag) t = (.ok (y.top .root (headOr none rest)).2, t) :=
      Edit.read_run (Tree.holdsChain_cons.1 (hs.holds _ (List.mem_singleton_self _))).1.node_eq
    have hcode : asArgument ((y :: rest).map Term.shape) = if y.kind.isArg
        then (y :: rest).map Term.shape
        else [.above (.arg none false) [(y :: rest).map Term.shape]] := by
      rw [← Term.kind_shape]
      rfl
    rw [Edit.bind_run hread, hcode]
    show ∃ t' j zs, (match y.kind with
      | .arg .. => (pure y.tag : Edit NodeId)
      | _ => Edit.arg y.tag none false) t = (.ok j, t') ∧ _
    rw [match_arg]
    by_cases hk : y.kind.isArg
    · rw [if_pos hk, if_pos hk]
      exact ⟨t, y.tag, y :: rest, rfl, rfl, hs.yields_refl, rfl⟩
    · rw [if_neg hk, if_neg hk]
      exact make_plants (.arg none false) (fun _ => .ok (.arg none false))
        [(.value, some y.tag)] _ hs.yields_refl rfl rfl rfl rfl fun _ _ he => nomatch he

/-- The values of a call become its argument list. -/
theorem arguments_run (hs : Stock t cs) (hids : cs.map (headOr none) = ids.map some) :
    ∃ (t' : Tree) (ds : List (List Planted)),
      Edit.arguments ids t = (.ok (headOr none ds.flatten), t')
      ∧ Yields t t' (tagsOf cs) [ds.flatten]
      ∧ ds.map (List.map Term.shape) = (cs.map (List.map Term.shape)).map asArgument := by
  have hmap : ∃ (t' : Tree) (ds : List (List Planted)) (js : List NodeId),
      ids.mapM (fun value => do
        match (← Edit.read (·.node value)).kind with
        | .arg .. => pure value
        | _ => Edit.arg value none false : NodeId → Edit NodeId) t = (.ok js, t')
      ∧ ds.map (headOr none) = js.map some ∧ Yields t t' (tagsOf cs) ds
      ∧ ds.map (List.map Term.shape) = (cs.map (List.map Term.shape)).map asArgument := by
    induction cs generalizing t ids with
    | nil =>
      cases ids with
      | cons i ids => cases hids
      | nil => exact ⟨t, [], [], rfl, rfl, hs.yields_refl, rfl⟩
    | cons c cs ih =>
      cases ids with
      | nil => cases hids
      | cons i ids =>
        rw [List.map_cons, List.map_cons] at hids
        injection hids with hi hids
        obtain ⟨hc, hcs, hdis⟩ := Tree.stock_append.1 (show Stock t ([c] ++ cs) from hs)
        obtain ⟨t₁, j, zs, hrun, hj, hy, hzs⟩ := argument_run hc hi
        have hkeep := hy.keep hcs fun j hj hm => hdis j hm hj
        obtain ⟨t₂, ds, js, hrun₂, hjs, hy₂, hds⟩ := ih hkeep hids
        refine ⟨t₂, zs :: ds, j :: js, Edit.mapM_cons_run hrun hrun₂, ?_, ?_, ?_⟩
        · rw [List.map_cons, List.map_cons, hj, hjs]
        · have happ := hy.append hy₂ fun j hj => ⟨hcs.lt_size hj, fun hm => hdis j hm hj⟩
          rwa [← tagsOf_append] at happ
        · rw [List.map_cons, List.map_cons, List.map_cons, hzs, hds]
  obtain ⟨t₁, ds, js, hrun, hjs, hy, hds⟩ := hmap
  obtain ⟨t₂, hjoin, hy₂⟩ := Tree.join_run hy.stock (ne_nil_of_heads hjs) hjs
  exact ⟨t₂, ds, (Edit.bind_run hrun).trans hjoin, hy.trans hy₂, hds⟩

theorem arguments_part (as : List (List Planted)) (hy : Yields t t' old (as ++ (bs ++ cs)))
    (hids : bs.map (headOr none) = ids.map some) :
    ∃ (t'' : Tree) (ds : List (List Planted)),
      Edit.arguments ids t' = (.ok (headOr none ds.flatten), t'')
      ∧ Yields t t'' old (as ++ (ds.flatten :: cs))
      ∧ ds.map (List.map Term.shape) = (bs.map (List.map Term.shape)).map asArgument := by
  have hb := (Tree.stock_append.1 (Tree.stock_append.1 hy.stock).2.1).1
  obtain ⟨t'', ds, hrun, hj, hds⟩ := arguments_run hb hids
  exact ⟨t'', ds, hrun, yields_part hy hj, hds⟩

-- =========================================================== sequences

theorem Ready.left (h : Ready types own known t (ids ++ js)) : Ready types own known t ids :=
  h.split.1

/-- After the first part of a sketch, the arena is ready for the rest. -/
theorem Ready.rest (h : Ready types own known t (ids ++ js))
    (hy : Yields t t' (tagsOf (ids.map own)) cs) : Ready types own known t' js :=
  h.split.2.1.next hy h.split.2.2

theorem Ready.append {t'' : Tree} (h : Ready types own known t (ids ++ js))
    (hy : Yields t t' (tagsOf (ids.map own)) cs)
    (hy' : Yields t' t'' (tagsOf (js.map own)) ds) :
    Yields t t'' (tagsOf ((ids ++ js).map own)) (cs ++ ds) := by
  rw [List.map_append, tagsOf_append]
  exact hy.append hy' h.split.2.2

/-- The code of the chains of the stock. -/
def codeOf (own : NodeId → List Planted) : NodeId → List Shape := fun id =>
  (own id).map Term.shape

theorem binaryType_eq {op : Operator} (hs : Stock t [ys, zs]) (hi : headOr none ys = some i)
    (hj : headOr none zs = some j) {c d : List Shape} (hc : ys.map Term.shape = c)
    (hd : zs.map Term.shape = d) (hec : (typeOf? c).isSome) (hed : (typeOf? d).isSome)
    (hop : op.isShift → (typeOf c).width.isSome) :
    t.binaryType op i j = .ok (op.typeOver (typeOf c)) := by
  have hl := operandType_eq ys hs (List.mem_cons_self ..) hi hc hec
  have hr := operandType_eq zs hs (List.mem_cons_of_mem _ (List.mem_cons_self ..)) hj hd hed
  unfold Tree.binaryType Operator.typeOver
  rw [hl, hr]
  by_cases hp : op.isPredicate
  · simp only [hp, if_true]
    rfl
  · by_cases hsh : op.isShift
    · obtain ⟨w, hw⟩ := Option.isSome_iff_exists.1 (hop hsh)
      simp only [hp, hsh, hw, bind, Except.bind, if_true, Bool.true_and,
        Option.any_some, decide_eq_true_eq]
      split <;> rfl
    · simp only [hp, hsh, bind, Except.bind, Bool.false_and]
      rfl

-- ============================================================== the run

variable (types own known) in
/-- What it means that a sketch is planted: its code stands there. -/
def Plants (s : Sketch) : Prop :=
  ∀ t, Ready types own known t s.uses → s.Fits types (codeOf own) known →
    ∃ t' i ys, s.plant t = (.ok i, t') ∧ headOr none ys = some i
      ∧ Yields t t' (tagsOf (s.uses.map own)) [ys]
      ∧ ys.map Term.shape = s.code types (codeOf own)

variable (types own known) in
def PlantsOption (o : Option Sketch) : Prop :=
  ∀ t, Ready types own known t (usesOption o) → FitsOption types (codeOf own) known o →
    ∃ t' ys, plantOption o t = (.ok (headOr none ys), t')
      ∧ Yields t t' (tagsOf ((usesOption o).map own)) [ys]
      ∧ ys.map Term.shape = codeOption types (codeOf own) o

variable (types own known) in
def PlantsList (l : List Sketch) : Prop :=
  ∀ t, Ready types own known t (usesList l) → FitsList types (codeOf own) known l →
    ∃ t' is yss, plantList l t = (.ok is, t') ∧ yss.map (headOr none) = is.map some
      ∧ Yields t t' (tagsOf ((usesList l).map own)) yss
      ∧ yss.map (List.map Term.shape) = codeList types (codeOf own) l

theorem node_plants (id : NodeId) : Plants types own known (.node id) := fun t h _ =>
  ⟨t, id, own id, rfl, h.heads id (List.mem_singleton_self id), h.stock.yields_refl, rfl⟩

theorem reference_plants (decl : Sketch) : Plants types own known (.reference decl) := by
  intro t h hfit
  cases decl with
  | node d =>
    have hknown := h.knows d hfit
    exact make_plants (.varRef d (types d)) (fun t => return .varRef d (← t.declaredType d)) []
      [] h.stock.yields_refl rfl (by rw [hknown]; rfl) rfl rfl fun d type he => by
        injection he with he
        exact he ▸ (declaredType_eq hknown).1
  | _ => exact hfit.elim

theorem binary_plants (op : Operator) {lhs rhs : Sketch} (pl : Plants types own known lhs)
    (pr : Plants types own known rhs) : Plants types own known (.binary op lhs rhs) := by
  intro t h hfit
  obtain ⟨hl, hr, hel, her, hop⟩ := hfit
  obtain ⟨t₁, i, ys, hrun₁, hi, hy₁, hc₁⟩ := pl t h.left hl
  obtain ⟨t₂, j, zs, hrun₂, hj, hy₂, hc₂⟩ := pr t₁ (h.rest hy₁) hr
  have hy := h.append hy₁ hy₂
  have htype := binaryType_eq hy.stock hi hj hc₁ hc₂ hel her hop
  obtain ⟨t₃, k, ws, hrun, hk, hy₃, hc⟩ := make_plants
    (.binary op (op.typeOver (typeOf (lhs.code types (codeOf own)))))
    (fun t => return .binary op (← t.binaryType op i j)) [(.lhs, some i), (.rhs, some j)]
    [lhs.code .., rhs.code ..] hy (by rw [← hc₁, ← hc₂]; rfl) (by rw [htype]; rfl) rfl
    (by rw [← hi, ← hj]; rfl) fun _ _ he => nomatch he
  exact ⟨t₃, k, ws, (Edit.bind_run hrun₁).trans ((Edit.bind_run hrun₂).trans hrun), hk, hy₃, hc⟩

theorem cond_plants {condition consequent alternative : Sketch}
    (pp : Plants types own known condition) (pl : Plants types own known consequent)
    (pr : Plants types own known alternative) :
    Plants types own known (.cond condition consequent alternative) := by
  intro t h hfit
  obtain ⟨⟨hp, hl, hr⟩, hep, hel, her⟩ := hfit
  obtain ⟨t₁, i, ys, hrun₁, hi, hy₁, hc₁⟩ := pp t h.left.left hp
  obtain ⟨t₂, j, zs, hrun₂, hj, hy₂, hc₂⟩ := pl t₁ (h.left.rest hy₁) hl
  have hy₁₂ := h.left.append hy₁ hy₂
  obtain ⟨t₃, k, ws, hrun₃, hk, hy₃, hc₃⟩ := pr t₂ (h.rest hy₁₂) hr
  have hy := h.append hy₁₂ hy₃
  have h₁ := operandType_eq ys hy.stock (by simp) hi hc₁ hep
  have h₂ := operandType_eq zs hy.stock (by simp) hj hc₂ hel
  have h₃ := operandType_eq ws hy.stock (by simp) hk hc₃ her
  obtain ⟨t₄, l, vs, hrun, hl, hy₄, hc⟩ := make_plants
    (.cond (typeOf (consequent.code types (codeOf own))))
    (fun t => do
      let _ ← t.operandType i
      let type ← t.operandType j
      let _ ← t.operandType k
      pure (.cond type))
    [(.condition, some i), (.consequent, some j), (.alternative, some k)]
    [condition.code .., consequent.code .., alternative.code ..] hy
    (by rw [← hc₁, ← hc₂, ← hc₃]; rfl) (by rw [h₁, h₂, h₃]; rfl) rfl
    (by rw [← hi, ← hj, ← hk]; rfl) fun _ _ he => nomatch he
  exact ⟨t₄, l, vs, (Edit.bind_run hrun₁).trans ((Edit.bind_run hrun₂).trans
    ((Edit.bind_run hrun₃).trans hrun)), hl, hy₄, hc⟩

theorem cast_plants (type : TypeRef) {expr : Sketch} (pe : Plants types own known expr) :
    Plants types own known (.cast type expr) := by
  intro t h hfit
  obtain ⟨hfit, he⟩ := hfit
  obtain ⟨t₁, i, ys, hrun₁, hi, hy₁, hc₁⟩ := pe t h hfit
  have htype := operandType_eq ys hy₁.stock (List.mem_cons_self ..) hi hc₁ he
  obtain ⟨t₂, k, ws, hrun, hk, hy, hc⟩ := make_plants (.cast type)
    (fun t => do
      let _ ← t.operandType i
      pure (.cast type))
    [(.expr, some i)] [expr.code ..] hy₁ (by rw [← hc₁]; rfl) (by rw [htype]; rfl) rfl
    (by rw [← hi]; rfl) fun _ _ he => nomatch he
  exact ⟨t₂, k, ws, (Edit.bind_run hrun₁).trans hrun, hk, hy, hc⟩

theorem paren_plants {expr : Sketch} (pe : Plants types own known expr) :
    Plants types own known (.paren expr) := by
  intro t h hfit
  obtain ⟨hfit, he⟩ := hfit
  obtain ⟨t₁, i, ys, hrun₁, hi, hy₁, hc₁⟩ := pe t h hfit
  have htype := operandType_eq ys hy₁.stock (List.mem_cons_self ..) hi hc₁ he
  obtain ⟨t₂, k, ws, hrun, hk, hy, hc⟩ := make_plants
    (.paren (typeOf (expr.code types (codeOf own))))
    (fun t => return .paren (← t.operandType i)) [(.expr, some i)] [expr.code ..] hy₁
    (by rw [← hc₁]; rfl) (by rw [htype]; rfl) rfl (by rw [← hi]; rfl) fun _ _ he => nomatch he
  exact ⟨t₂, k, ws, (Edit.bind_run hrun₁).trans hrun, hk, hy, hc⟩

theorem assign_plants {lhs rhs : Sketch} (pl : Plants types own known lhs)
    (pr : Plants types own known rhs) : Plants types own known (.assign lhs rhs) := by
  intro t h hfit
  obtain ⟨hl, hr, hel⟩ := hfit
  obtain ⟨t₁, i, ys, hrun₁, hi, hy₁, hc₁⟩ := pl t h.left hl
  obtain ⟨t₂, j, zs, hrun₂, hj, hy₂, hc₂⟩ := pr t₁ (h.rest hy₁) hr
  have hy := h.append hy₁ hy₂
  have htype := operandType_eq ys hy.stock (by simp) hi hc₁ hel
  obtain ⟨t₃, k, ws, hrun, hk, hy₃, hc⟩ := make_plants
    (.assign (typeOf (lhs.code types (codeOf own))))
    (fun t => return .assign (← t.operandType i)) [(.lhs, some i), (.rhs, some j)]
    [lhs.code .., rhs.code ..] hy (by rw [← hc₁, ← hc₂]; rfl) (by rw [htype]; rfl) rfl
    (by rw [← hi, ← hj]; rfl) fun _ _ he => nomatch he
  exact ⟨t₃, k, ws, (Edit.bind_run hrun₁).trans ((Edit.bind_run hrun₂).trans hrun), hk, hy₃, hc⟩

theorem index_plants (type : TypeRef) {lhs rhs : Sketch} (pl : Plants types own known lhs)
    (pr : Plants types own known rhs) : Plants types own known (.index lhs rhs type) := by
  intro t h hfit
  obtain ⟨hl, hr⟩ := hfit
  obtain ⟨t₁, i, ys, hrun₁, hi, hy₁, hc₁⟩ := pl t h.left hl
  obtain ⟨t₂, j, zs, hrun₂, hj, hy₂, hc₂⟩ := pr t₁ (h.rest hy₁) hr
  obtain ⟨t₃, k, ws, hrun, hk, hy₃, hc⟩ := make_plants (.index type)
    (fun _ => .ok (.index type)) [(.object, some i), (.index, some j)]
    [lhs.code .., rhs.code ..] (h.append hy₁ hy₂) (by rw [← hc₁, ← hc₂]; rfl) rfl rfl
    (by rw [← hi, ← hj]; rfl) fun _ _ he => nomatch he
  exact ⟨t₃, k, ws, (Edit.bind_run hrun₁).trans ((Edit.bind_run hrun₂).trans hrun), hk, hy₃, hc⟩

/-- The sketches of a node over one other. -/
theorem over_plants (k : Kind) (slot : Slot) (hk : k.slots = [slot])
    (hdecl : ∀ d type, k ≠ .varRef d type) {expr s : Sketch} (pe : Plants types own known expr)
    (huses : s.uses = expr.uses)
    (hfits : s.Fits types (codeOf own) known → expr.Fits types (codeOf own) known)
    (hplant : s.plant = expr.plant >>= fun i => Edit.add k [(slot, some i)])
    (hcode : s.code types (codeOf own) = [.above k [expr.code types (codeOf own)]]) :
    Plants types own known s := by
  intro t h hfit
  rw [huses] at h ⊢
  obtain ⟨t₁, i, ys, hrun, hi, hy, hc⟩ := pe t h (hfits hfit)
  rw [hplant, hcode]
  exact unary_plants k slot hk hdecl hrun hi hy hc

theorem ret_plants {expr : Option Sketch} (pe : PlantsOption types own known expr) :
    Plants types own known (.ret expr) := by
  intro t h hfit
  obtain ⟨t₁, ys, hrun, hy, hc⟩ := pe t h hfit
  exact option_plants .returnStmt .expr rfl (fun _ _ he => nomatch he) hrun hy hc

theorem call_plants (callee : String) (type : Option TypeRef) {receiver : Option Sketch}
    {args : List Sketch} (pr : PlantsOption types own known receiver)
    (pa : PlantsList types own known args) :
    Plants types own known (.call callee receiver args type) := by
  intro t h hfit
  obtain ⟨hr, ha⟩ := hfit
  obtain ⟨t₁, rs, hrun₁, hy₁, hc₁⟩ := pr t h.left hr
  obtain ⟨t₂, ids, yss, hrun₂, hids, hy₂, hc₂⟩ := pa t₁ (h.rest hy₁) ha
  have hy := h.append hy₁ hy₂
  rw [← List.append_nil yss] at hy
  obtain ⟨t₃, ds, hrun₃, hy₃, hds⟩ := arguments_part [rs] hy hids
  rw [hc₂] at hds
  obtain ⟨t₄, k, ws, hrun, hk, hy₄, hc⟩ := make_plants (.call callee type)
    (fun _ => .ok (.call callee type))
    [(.receiver, headOr none rs), (.args, headOr none ds.flatten)]
    [codeOption types (codeOf own) receiver,
      ((codeList types (codeOf own) args).map asArgument).flatten] hy₃
    (by rw [← hc₁, ← flatten_code hds]; rfl) rfl rfl rfl fun _ _ he => nomatch he
  exact ⟨t₄, k, ws, (Edit.bind_run hrun₁).trans ((Edit.bind_run hrun₂).trans
    ((Edit.bind_run hrun₃).trans hrun)), hk, hy₄, hc⟩

theorem newObject_plants (type : TypeRef) {args : List Sketch}
    (pa : PlantsList types own known args) : Plants types own known (.newObject type args) := by
  intro t h hfit
  obtain ⟨t₁, ids, yss, hrun₁, hids, hy₁, hc₁⟩ := pa t h hfit
  rw [← List.append_nil yss] at hy₁
  obtain ⟨t₂, ds, hrun₂, hy₂, hds⟩ := arguments_part [] hy₁ hids
  rw [hc₁] at hds
  obtain ⟨t₃, k, ws, hrun, hk, hy₃, hc⟩ := make_plants (.newObject type)
    (fun _ => .ok (.newObject type)) [(.args, headOr none ds.flatten)]
    [((codeList types (codeOf own) args).map asArgument).flatten] hy₂
    (by rw [← flatten_code hds]; rfl) rfl rfl rfl fun _ _ he => nomatch he
  exact ⟨t₃, k, ws, (Edit.bind_run hrun₁).trans ((Edit.bind_run hrun₂).trans hrun), hk, hy₃, hc⟩

theorem variable_plants (name : String) (type : TypeRef) (access : Option Access)
    {init : Option Sketch} (pi : PlantsOption types own known init) :
    Plants types own known (.variable name type init access) := by
  intro t h hfit
  obtain ⟨t₁, ys, hrun₁, hy₁, hc₁⟩ := pi t h hfit
  obtain ⟨t₂, k, ws, hrun, hk, hy, hc⟩ := named_plants name (.variableDecl type access)
    [(.init, headOr none ys)] [codeOption types (codeOf own) init] hy₁ (by rw [← hc₁]; rfl)
    rfl rfl fun _ _ he => nomatch he
  exact ⟨t₂, k, ws, (Edit.bind_run hrun₁).trans hrun, hk, hy, hc⟩

theorem param_plants (name : String) (type : TypeRef) :
    Plants types own known (.param name type) := by
  intro t h _
  obtain ⟨t₁, hrun₁, hy₁⟩ := Tree.leaf_run h.stock.linked (.paramDecl type false)
  obtain ⟨t₂, hrun, hy⟩ := Tree.named_run name hrun₁ hy₁ (Nat.le_refl _)
  refine ⟨t₂, t.size, _, hrun, rfl, hy, ?_⟩
  rw [List.map_singleton, Term.shape_remark, Term.shape_node]
  rfl

theorem branch_plants {condition : Sketch} {consequent alternative : List Sketch}
    (pp : Plants types own known condition) (pl : PlantsList types own known consequent)
    (pr : PlantsList types own known alternative) :
    Plants types own known (.branch condition consequent alternative) := by
  intro t h hfit
  obtain ⟨hp, hl, hr⟩ := hfit
  obtain ⟨t₁, i, ys, hrun₁, hi, hy₁, hc₁⟩ := pp t h.left.left hp
  obtain ⟨t₂, ids, yss, hrun₂, hids, hy₂, hc₂⟩ :=
    pl t₁ (h.left.rest hy₁) hl
  have hy₁₂ := h.left.append hy₁ hy₂
  obtain ⟨t₃, js, zss, hrun₃, hjs, hy₃, hc₃⟩ := pr t₂ (h.rest hy₁₂) hr
  have hy := h.append hy₁₂ hy₃
  have hparts : [ys] ++ yss ++ zss = [ys] ++ (yss ++ (zss ++ [])) := by simp
  rw [hparts] at hy
  obtain ⟨t₄, hrun₄, hy₄⟩ := join_part [ys] hy hids
  obtain ⟨t₅, hrun₅, hy₅⟩ := join_part [ys, yss.flatten] hy₄ hjs
  obtain ⟨t₆, k, ws, hrun, hk, hy₆, hc⟩ := make_plants .branch (fun _ => .ok .branch)
    [(.condition, some i), (.consequent, headOr none yss.flatten),
      (.alternative, headOr none zss.flatten)]
    [condition.code .., (codeList types (codeOf own) consequent).flatten,
      (codeList types (codeOf own) alternative).flatten] hy₅
    (by rw [← hc₁, ← flatten_code hc₂, ← flatten_code hc₃]; rfl) rfl rfl (by rw [← hi]; rfl)
    fun _ _ he => nomatch he
  exact ⟨t₆, k, ws, (Edit.bind_run hrun₁).trans ((Edit.bind_run hrun₂).trans
    ((Edit.bind_run hrun₃).trans ((Edit.bind_run hrun₄).trans
      ((Edit.bind_run hrun₅).trans hrun)))), hk, hy₆, hc⟩

/-- A declaration over two lists of sketches. -/
theorem pair_plants (name : String) (k : Kind) (slot slot' : Slot) (hk : k.slots = [slot, slot'])
    (hdecl : ∀ d type, k ≠ .varRef d type) {first second : List Sketch} {s : Sketch}
    (pf : PlantsList types own known first) (ps : PlantsList types own known second)
    (huses : s.uses = usesList first ++ usesList second)
    (hfits : s.Fits types (codeOf own) known →
      FitsList types (codeOf own) known first ∧ FitsList types (codeOf own) known second)
    (hplant : s.plant = do
      let first ← plantList first
      let second ← plantList second
      let first ← Edit.join first
      let second ← Edit.join second
      Edit.named name (Edit.add k [(slot, first), (slot', second)]))
    (hcode : s.code types (codeOf own)
      = [(Shape.above k [(codeList types (codeOf own) first).flatten,
        (codeList types (codeOf own) second).flatten]).remark (Tree.titled name)]) :
    Plants types own known s := by
  intro t h hfit
  rw [huses] at h ⊢
  obtain ⟨hf, hs⟩ := hfits hfit
  obtain ⟨t₁, is, yss, hrun₁, his, hy₁, hc₁⟩ := pf t h.left hf
  obtain ⟨t₂, js, zss, hrun₂, hjs, hy₂, hc₂⟩ := ps t₁ (h.rest hy₁) hs
  have hy := h.append hy₁ hy₂
  rw [← List.append_nil zss] at hy
  obtain ⟨t₃, hrun₃, hy₃⟩ := join_part [] hy his
  obtain ⟨t₄, hrun₄, hy₄⟩ := join_part [yss.flatten] hy₃ hjs
  obtain ⟨t₅, i, ys, hrun, hi, hy₅, hc⟩ := named_plants name k
    [(slot, headOr none yss.flatten), (slot', headOr none zss.flatten)]
    [(codeList types (codeOf own) first).flatten,
      (codeList types (codeOf own) second).flatten] hy₄
    (by rw [← flatten_code hc₁, ← flatten_code hc₂]; rfl) (by rw [hk]; rfl) (by rw [hk]; rfl)
    hdecl
  rw [hplant, hcode]
  exact ⟨t₅, i, ys, (Edit.bind_run hrun₁).trans ((Edit.bind_run hrun₂).trans
    ((Edit.bind_run hrun₃).trans ((Edit.bind_run hrun₄).trans hrun))), hi, hy₅, hc⟩

theorem classDecl_plants (name : String) (sig : ClassSig)
    {fields properties methods classes : List Sketch} (pf : PlantsList types own known fields)
    (pp : PlantsList types own known properties) (pm : PlantsList types own known methods)
    (pc : PlantsList types own known classes) :
    Plants types own known (.classDecl name sig fields properties methods classes) := by
  intro t h hfit
  obtain ⟨hf, hp, hm, hcl⟩ := hfit
  obtain ⟨t₁, is, fss, hrun₁, his, hy₁, hc₁⟩ := pf t h.left.left.left hf
  obtain ⟨t₂, js, pss, hrun₂, hjs, hy₂, hc₂⟩ := pp t₁ (h.left.left.rest hy₁) hp
  have hy₁₂ := h.left.left.append hy₁ hy₂
  obtain ⟨t₃, ks, mss, hrun₃, hks, hy₃, hc₃⟩ := pm t₂ (h.left.rest hy₁₂) hm
  have hy₁₃ := h.left.append hy₁₂ hy₃
  obtain ⟨t₄, ls, css, hrun₄, hls, hy₄, hc₄⟩ := pc t₃ (h.rest hy₁₃) hcl
  have hy := h.append hy₁₃ hy₄
  have hparts : fss ++ pss ++ mss ++ css = fss ++ (pss ++ (mss ++ (css ++ []))) := by simp
  rw [hparts] at hy
  obtain ⟨t₅, hrun₅, hy₅⟩ := join_part [] hy his
  obtain ⟨t₆, hrun₆, hy₆⟩ := join_part [fss.flatten] hy₅ hjs
  obtain ⟨t₇, hrun₇, hy₇⟩ := join_part [fss.flatten, pss.flatten] hy₆ hks
  obtain ⟨t₈, hrun₈, hy₈⟩ := join_part [fss.flatten, pss.flatten, mss.flatten] hy₇ hls
  obtain ⟨t₉, i, ys, hrun, hi, hy₉, hc⟩ := named_plants name (.classDecl sig)
    [(.fields, headOr none fss.flatten), (.properties, headOr none pss.flatten),
      (.methods, headOr none mss.flatten), (.classes, headOr none css.flatten)]
    [(codeList types (codeOf own) fields).flatten,
      (codeList types (codeOf own) properties).flatten,
      (codeList types (codeOf own) methods).flatten,
      (codeList types (codeOf own) classes).flatten] hy₈
    (by rw [← flatten_code hc₁, ← flatten_code hc₂, ← flatten_code hc₃, ← flatten_code hc₄]; rfl)
    rfl rfl fun _ _ he => nomatch he
  exact ⟨t₉, i, ys, (Edit.bind_run hrun₁).trans ((Edit.bind_run hrun₂).trans
    ((Edit.bind_run hrun₃).trans ((Edit.bind_run hrun₄).trans ((Edit.bind_run hrun₅).trans
      ((Edit.bind_run hrun₆).trans ((Edit.bind_run hrun₇).trans
        ((Edit.bind_run hrun₈).trans hrun))))))), hi, hy₉, hc⟩

theorem noted_plants (doc comment : Option String) (indents : Option Bool) {body : Sketch}
    (pb : Plants types own known body) :
    Plants types own known (.noted body doc comment indents) := by
  intro t h hfit
  obtain ⟨t₁, i, ys, hrun, hi, hy, hc⟩ := pb t h hfit
  cases ys with
  | nil => cases hi
  | cons y rest =>
    injection hi with hi
    subst hi
    have hcode : code types (codeOf own) (.noted body doc comment indents)
        = y.shape.remark (remarked doc comment indents) :: rest.map Term.shape := by
      rw [code, ← hc]
      rfl
    rw [hcode]
    by_cases hany : doc.isSome || comment.isSome || indents.isSome
    · have hann := Tree.annotate_run hy.stock (remarked doc comment indents)
      refine ⟨t₁.setNotes y.tag (remarked doc comment indents), y.tag,
        y.remark (remarked doc comment indents) :: rest, ?_, by simp,
        hy.remark (Or.inr fun _ => rfl), ?_⟩
      · refine (Edit.bind_run hrun).trans ?_
        rw [if_pos hany]
        exact Edit.bind_run hann
      · rw [List.map_cons, Term.shape_remark]
    · have hnone : doc = none ∧ comment = none ∧ indents = none := by
        simpa [and_assoc] using hany
      obtain ⟨rfl, rfl, rfl⟩ := hnone
      refine ⟨t₁, y.tag, y :: rest, ?_, rfl, hy, ?_⟩
      · refine (Edit.bind_run hrun).trans ?_
        rfl
      · cases y
        simp [remarked]

theorem nil_plants : PlantsList types own known [] := fun t h _ =>
  ⟨t, [], [], rfl, rfl, h.stock.yields_refl, rfl⟩

theorem cons_plants {s : Sketch} {rest : List Sketch} (ps : Plants types own known s)
    (pr : PlantsList types own known rest) : PlantsList types own known (s :: rest) := by
  intro t h hfit
  obtain ⟨t₁, i, ys, hrun₁, hi, hy₁, hc₁⟩ := ps t h.left hfit.1
  obtain ⟨t₂, is, yss, hrun₂, his, hy₂, hc₂⟩ := pr t₁ (h.rest hy₁) hfit.2
  refine ⟨t₂, i :: is, ys :: yss, ?_, ?_, h.append hy₁ hy₂, ?_⟩
  · exact (Edit.bind_run hrun₁).trans (Edit.bind_run hrun₂)
  · rw [List.map_cons, List.map_cons, hi, his]
  · rw [List.map_cons, hc₁, hc₂]
    rfl

variable (types own known) in
/-- A sketch that fits is planted without failing, and its code is what
stands there afterwards. The cases are the constructors in order. -/
theorem plant_run (s : Sketch) : Plants types own known s := by
  have leaf : ∀ {s : Sketch} (k : Kind), k.slots = [] → s.uses = [] →
      s.plant = Edit.leaf k → s.code types (codeOf own) = [.leaf k] →
      Plants types own known s := by
    intro s k hk hu hp hc t h _
    rw [hu, hp, hc]
    exact leaf_plants h.stock.linked k hk
  refine Sketch.rec (motive_1 := Plants types own known)
    (motive_2 := PlantsOption types own known) (motive_3 := PlantsList types own known)
    node_plants ?hole ?snippet ?snippetExpr ?int ?long ?mask ?literal ?bool ?string ?self
    (fun decl _ => reference_plants decl) (fun op _ _ => binary_plants op)
    (fun _ _ _ => cond_plants) (fun type _ => cast_plants type) (fun _ => paren_plants)
    (fun _ _ => assign_plants) (fun _ _ type => index_plants type) ?member ?arg
    (fun callee _ _ type => call_plants callee type) (fun type _ => newObject_plants type)
    ?newArray (fun name type _ access => variable_plants name type access) param_plants ?stmt
    (fun _ => ret_plants) ?throw (fun _ _ _ => branch_plants) ?method ?property
    (fun name sig _ _ _ _ => classDecl_plants name sig) ?namespaceDecl ?raw
    (fun _ doc comment indents => noted_plants doc comment indents) ?none ?some ?nil ?cons s
  case hole => exact leaf .hole rfl rfl rfl rfl
  case snippet => exact fun text => leaf (.snippet text) rfl rfl rfl rfl
  case snippetExpr => exact fun text type => leaf (.snippetExpr text type) rfl rfl rfl rfl
  case int =>
    intro value
    refine leaf (.intLit value (literalType false (2 ^ 31 ≤ value)) false) rfl rfl ?_ rfl
    show Edit.literal value false (2 ^ 31 ≤ value) false = _
    rfl
  case long => exact fun value => leaf (.intLit value .long false) rfl rfl rfl rfl
  case mask =>
    exact fun value =>
      leaf (.intLit value (literalType true (2 ^ 32 ≤ value)) true) rfl rfl rfl rfl
  case literal =>
    exact fun value unsigned wide hex =>
      leaf (.intLit value (literalType unsigned wide) hex) rfl rfl rfl rfl
  case bool => exact fun value => leaf (.boolLit value) rfl rfl rfl rfl
  case string => exact fun value => leaf (.stringLit value) rfl rfl rfl rfl
  case self => exact leaf .self rfl rfl rfl rfl
  case member =>
    exact fun _ name type pe => over_plants (.member name type) .object rfl
      (fun _ _ he => nomatch he) pe rfl id rfl rfl
  case arg =>
    exact fun _ name out pe => over_plants (.arg name out) .value rfl
      (fun _ _ he => nomatch he) pe rfl id rfl rfl
  case newArray =>
    exact fun element _ pe => over_plants (.newArray element) .count rfl
      (fun _ _ he => nomatch he) pe rfl id rfl rfl
  case stmt =>
    exact fun _ pe => over_plants .exprStmt .expr rfl (fun _ _ he => nomatch he) pe rfl id rfl rfl
  case throw =>
    exact fun _ pe => over_plants .throwStmt .expr rfl (fun _ _ he => nomatch he) pe rfl id rfl rfl
  case method =>
    exact fun name sig _ _ pf ps => pair_plants name (.methodDecl sig) .params .body rfl
      (fun _ _ he => nomatch he) pf ps rfl id rfl rfl
  case property =>
    exact fun name sig _ _ pf ps => pair_plants name (.propertyDecl sig) .get .set rfl
      (fun _ _ he => nomatch he) pf ps rfl id rfl rfl
  case namespaceDecl =>
    exact fun name _ _ pf ps => pair_plants name .namespaceDecl .classes .namespaces rfl
      (fun _ _ he => nomatch he) pf ps rfl id rfl rfl
  case raw => exact fun _ _ _ _ hfit => hfit.elim
  case none =>
    intro t h _
    have hs : Stock t [[]] := ⟨h.stock.linked, fun c hc => ?_, by simp⟩
    · exact ⟨t, [], rfl, hs.yields_refl, rfl⟩
    · rw [List.mem_singleton.1 hc]
      exact Tree.holdsChain_nil ..
  case some =>
    intro s ps t h hfit
    obtain ⟨t', i, ys, hrun, hi, hy, hc⟩ := ps t h hfit
    exact ⟨t', ys, hi ▸ Edit.bind_run hrun, hy, hc⟩
  case nil => exact nil_plants
  case cons => exact fun _ _ => cons_plants

end Sketch

end RegisterMap.Code
