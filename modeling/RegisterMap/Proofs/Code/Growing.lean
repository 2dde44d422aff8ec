/-
Code that is built piece by piece. A piece is planted over chains that
were planted before it (`plant_over`), most often it is a single node
(`plant_node`), and declarations keep their name and type while the arena
grows (`Tree.Declares`), so later pieces can refer to them.
-/
import RegisterMap.Proofs.Code.Sowing

namespace RegisterMap.Code

namespace Tree

variable {t t' t'' : Tree} {old : List NodeId} {cs ds : List (List Planted)} {x : Planted}
  {d : NodeId} {name : String} {type : TypeRef}

-- ========================================================= declarations

/-- The type of what a node declares. -/
def typeAt (t : Tree) (d : NodeId) : TypeRef :=
  match t.declaredType d with
  | .ok type => type
  | .error _ => .int

/-- The node is a declaration. -/
def Known (t : Tree) (d : NodeId) : Prop := ∃ type, t.declaredType d = .ok type

theorem declaredType_typeAt (h : t.Known d) : t.declaredType d = .ok (t.typeAt d) := by
  obtain ⟨type, hd⟩ := h
  unfold typeAt
  rw [hd]

/-- The node declares something of a name and a type. -/
structure Declares (t : Tree) (d : NodeId) (name : String) (type : TypeRef) : Prop where
  type_eq : t.declaredType d = .ok type
  name_eq : t.name d = name

namespace Declares

theorem known (h : t.Declares d name type) : t.Known d := ⟨type, h.type_eq⟩

theorem typeAt_eq (h : t.Declares d name type) : t.typeAt d = type := by
  unfold typeAt
  rw [h.type_eq]

theorem lt_size (h : t.Declares d name type) : d < t.size := (Sketch.declaredType_eq h.type_eq).1

/-- Declarations stay what they are. -/
theorem keep (h : t.Declares d name type) (hy : Yields t t' old cs) : t'.Declares d name type where
  type_eq := (Sketch.declaredType_eq h.type_eq).2 t' (Nat.lt_of_lt_of_le h.lt_size hy.grows)
    (hy.kinds d h.lt_size)
  name_eq := (hy.names d h.lt_size).trans h.name_eq

end Declares

/-- What a declaration in the stock declares. -/
theorem Yields.declares (hy : Yields t t' old [[x]])
    (hk : (∃ access, x.kind = .variableDecl type access) ∨ ∃ out, x.kind = .paramDecl type out) :
    t'.Declares x.tag (x.notes.name.getD "") type where
  type_eq := by
    have hx := hy.stock.holds [x] (List.mem_singleton_self _)
    have hlt : x.tag < t'.size := hx.lt_size (mem_tags_head x [])
    unfold declaredType
    rw [require_eq_ok hlt, hx.kind?_eq]
    rcases hk with ⟨access, hk⟩ | ⟨out, hk⟩
    · rw [hk]
      rfl
    · rw [hk]
      rfl
  name_eq := by
    have hx := hy.stock.holds [x] (List.mem_singleton_self _)
    unfold Tree.name
    rw [hx.node?_eq]
    rfl

-- =============================================================== pieces

theorem Yields.left (hy : Yields t t' old (cs ++ ds)) : Yields t t' old cs where
  grows := hy.grows
  stock := (stock_append.1 hy.stock).1
  fresh := fun j hj => hy.fresh j (by rw [tagsOf_append]; exact List.mem_append_left _ hj)
  frame := hy.frame
  names := hy.names
  kinds := hy.kinds

theorem Yields.right (hy : Yields t t' old (cs ++ ds)) : Yields t t' old ds where
  grows := hy.grows
  stock := (stock_append.1 hy.stock).2.1
  fresh := fun j hj => hy.fresh j (by rw [tagsOf_append]; exact List.mem_append_right _ hj)
  frame := hy.frame
  names := hy.names
  kinds := hy.kinds

/-- Nothing is put in the stock. -/
theorem yields_nil (h : t.Mutual) : Yields t t [] [] := (stock_nil h).yields_refl

/-- A piece next to other pieces. -/
theorem Yields.and (h₁ : Yields t t' [] cs) (h₂ : Yields t' t'' [] ds) :
    Yields t t'' [] (cs ++ ds) :=
  h₁.append h₂ fun _ hj => nomatch hj

/-- Pieces of one kind after each other. `run` says how one of them is
built, `runs` how all are; what a piece needs (`K`) and what is said of it
(`P`) stays true while the arena grows. -/
theorem collect {α β : Type} {run : α → Tree → β → Tree → Prop}
    {runs : List α → Tree → List β → Tree → Prop} {K : Tree → Prop}
    {P : Tree → α → β × List (List Planted) → Prop} (hnil : ∀ t, runs [] t [] t)
    (hcons : ∀ {a l b bs t t' t''}, run a t b t' → runs l t' bs t'' → runs (a :: l) t (b :: bs) t'')
    (hK : ∀ {t t' cs}, Yields t t' [] cs → K t → K t')
    (hP : ∀ {t t' cs a p}, Yields t t' [] cs → P t a p → P t' a p) (l : List α)
    (hrun : ∀ a ∈ l, ∀ t, t.Mutual → K t →
      ∃ t' b cs, run a t b t' ∧ Yields t t' [] cs ∧ P t' a (b, cs))
    (t : Tree) (hm : t.Mutual) (hk : K t) :
    ∃ t' ps, runs l t (ps.map Prod.fst) t' ∧ Yields t t' [] (ps.flatMap Prod.snd)
      ∧ List.Forall₂ (P t') l ps := by
  induction l generalizing t with
  | nil => exact ⟨t, [], hnil t, yields_nil hm, .nil⟩
  | cons a l ih =>
    obtain ⟨t₁, b, cs, hrun₁, hy₁, hp₁⟩ := hrun a (List.mem_cons_self ..) t hm hk
    obtain ⟨t₂, ps, hrun₂, hy₂, hp₂⟩ := ih (fun a ha => hrun a (List.mem_cons_of_mem _ ha)) t₁
      hy₁.stock.linked (hK hy₁ hk)
    refine ⟨t₂, (b, cs) :: ps, hcons hrun₁ hrun₂, ?_, .cons (hP hy₂ hp₁) hp₂⟩
    rw [List.flatMap_cons]
    exact hy₁.and hy₂

/-- Pieces that are one node each. -/
theorem collected {α : Type} {P : α → Planted → Prop} {l : List α}
    {ps : List (NodeId × List (List Planted))}
    (h : List.Forall₂ (fun a p => ∃ x : Planted, p = (x.tag, [[x]]) ∧ P a x) l ps) :
    ∃ xs : List Planted, ps = xs.map (fun x => (x.tag, [[x]])) ∧ List.Forall₂ P l xs := by
  induction h with
  | nil => exact ⟨[], rfl, .nil⟩
  | cons hp _ ih =>
    obtain ⟨x, rfl, hx⟩ := hp
    obtain ⟨xs, rfl, hxs⟩ := ih
    exact ⟨x :: xs, rfl, .cons hx hxs⟩

/-- Nodes of one kind after each other. -/
theorem mapM_run {α : Type} {f : α → Edit NodeId} {K : Tree → Prop}
    {P : Tree → α → Planted → Prop} (hK : ∀ {t t' cs}, Yields t t' [] cs → K t → K t')
    (hP : ∀ {t t' cs a x}, Yields t t' [] cs → P t a x → P t' a x) (l : List α)
    (hrun : ∀ a ∈ l, ∀ t, t.Mutual → K t →
      ∃ (t' : Tree) (x : Planted), f a t = (.ok x.tag, t') ∧ Yields t t' [] [[x]] ∧ P t' a x)
    (t : Tree) (hm : t.Mutual) (hk : K t) :
    ∃ (t' : Tree) (xs : List Planted), l.mapM f t = (.ok (xs.map Term.tag), t')
      ∧ Yields t t' [] (xs.map fun x => [x]) ∧ List.Forall₂ (P t') l xs := by
  obtain ⟨t', ps, hruns, hy, hall⟩ := collect (K := K)
    (P := fun t a p => ∃ x : Planted, p = (x.tag, [[x]]) ∧ P t a x) (fun _ => rfl)
    (fun {a as b bs t t' t''} (h : f a t = (.ok b, t')) (hs : as.mapM f t' = (.ok bs, t'')) =>
      Edit.mapM_cons_run h hs)
    hK (fun hy ⟨x, hx, hp⟩ => ⟨x, hx, hP hy hp⟩) l
    (fun a ha t hm hk => by
      obtain ⟨t', x, h, hy, hp⟩ := hrun a ha t hm hk
      exact ⟨t', x.tag, [[x]], h, hy, x, rfl, hp⟩) t hm hk
  obtain ⟨xs, rfl, hxs⟩ := collected hall
  refine ⟨t', xs, ?_, ?_, hxs⟩
  · rw [hruns, List.map_map]
    rfl
  · rw [List.flatMap_map] at hy
    rwa [List.map_eq_flatMap]

end Tree

namespace Sketch

open RegisterMap.Code.Tree (Stock Yields)

variable {t : Tree} {cs : List (List Planted)}

-- ================================================================ lists

theorem usesList_eq (l : List Sketch) : usesList l = l.flatMap uses := by
  induction l with
  | nil => rfl
  | cons s rest ih => rw [usesList, ih, List.flatMap_cons]

theorem codeList_eq (types : NodeId → TypeRef) (stock : NodeId → List Shape) (l : List Sketch) :
    codeList types stock l = l.map (code types stock) := by
  induction l with
  | nil => rfl
  | cons s rest ih => rw [codeList, ih, List.map_cons]

/-- The code of the statements that are there for some members of a list. -/
theorem flatten_codeList_filterMap {α : Type} (types : NodeId → TypeRef)
    (stock : NodeId → List Shape) (l : List α) (f : α → Option Sketch) :
    (codeList types stock (l.filterMap f)).flatten
      = l.flatMap fun a => (f a).elim [] (code types stock) := by
  rw [codeList_eq]
  induction l with
  | nil => rfl
  | cons a l ih =>
    rw [List.flatMap_cons, ← ih]
    cases hf : f a with
    | none => rw [List.filterMap_cons_none hf]; rfl
    | some s => rw [List.filterMap_cons_some hf]; rfl

theorem fitsList_iff {types : NodeId → TypeRef} {stock : NodeId → List Shape}
    {known : NodeId → Prop} {l : List Sketch} :
    FitsList types stock known l ↔ ∀ s ∈ l, s.Fits types stock known := by
  induction l with
  | nil => exact ⟨fun _ _ hs => (nomatch hs), fun _ => trivial⟩
  | cons s rest ih =>
    rw [FitsList, ih]
    simp only [List.mem_cons, forall_eq_or_imp]

/-- A list of sketches that takes nothing from the stock. -/
theorem usesList_eq_nil {l : List Sketch} (h : ∀ s ∈ l, s.uses = []) : usesList l = [] := by
  rw [usesList_eq]
  exact List.flatMap_eq_nil_iff.2 h

theorem usesList_nodes (ids : List NodeId) : usesList (ids.map .node) = ids := by
  rw [usesList_eq, List.flatMap_map]
  exact List.flatMap_singleton' ids

theorem codeList_nodes (types : NodeId → TypeRef) (stock : NodeId → List Shape)
    (ids : List NodeId) : codeList types stock (ids.map .node) = ids.map stock := by
  rw [codeList_eq, List.map_map]
  rfl

theorem fitsList_nodes (types : NodeId → TypeRef) (stock : NodeId → List Shape)
    (known : NodeId → Prop) (ids : List NodeId) :
    FitsList types stock known (ids.map .node) := by
  refine fitsList_iff.2 fun s hs => ?_
  obtain ⟨id, -, rfl⟩ := List.mem_map.1 hs
  trivial

-- ================================================================ plain

section Plain

variable (types : NodeId → TypeRef) (stock : NodeId → List Shape) (known : NodeId → Prop)

/-- An expression that can be planted and takes nothing from the stock. -/
structure Plain (e : Sketch) : Prop where
  fits : e.Fits types stock known
  isExpr : e.IsExpr types stock
  uses : e.uses = []

/-- A statement that can be planted and takes nothing from the stock. -/
structure Idle (s : Sketch) : Prop where
  fits : s.Fits types stock known
  uses : s.uses = []

variable {types stock known} {l r e : Sketch} {op : Operator}

theorem plain_use {d : NodeId} (h : known d) : Plain types stock known (.use d) := ⟨h, rfl, rfl⟩

theorem plain_int (n : Nat) : Plain types stock known (.int n) := ⟨trivial, rfl, rfl⟩

theorem plain_mask (n : Nat) : Plain types stock known (.mask n) := ⟨trivial, rfl, rfl⟩

theorem plain_literal (n : Nat) (unsigned wide hex : Bool) :
    Plain types stock known (.literal n unsigned wide hex) := ⟨trivial, rfl, rfl⟩

theorem Plain.binary (hl : Plain types stock known l) (hr : Plain types stock known r)
    (hop : op.isShift = true → (Term.typeOf (l.code types stock)).width.isSome) :
    Plain types stock known (.binary op l r) where
  fits := ⟨hl.fits, hr.fits, hl.isExpr, hr.isExpr, hop⟩
  isExpr := rfl
  uses := by
    show l.uses ++ r.uses = []
    rw [hl.uses, hr.uses]
    rfl

/-- An operation that is no shift. -/
theorem Plain.join (hl : Plain types stock known l) (op : Operator) (hr : Plain types stock known r)
    (hop : op.isShift = false) : Plain types stock known (.binary op l r) :=
  hl.binary hr fun hs => absurd (hop.symm.trans hs) Bool.false_ne_true

theorem Plain.cast (he : Plain types stock known e) (type : TypeRef) :
    Plain types stock known (.cast type e) :=
  ⟨⟨he.fits, he.isExpr⟩, rfl, he.uses⟩

theorem Plain.index (hl : Plain types stock known l) (hr : Plain types stock known r)
    (type : TypeRef) : Plain types stock known (.index l r type) where
  fits := ⟨hl.fits, hr.fits⟩
  isExpr := rfl
  uses := by
    show l.uses ++ r.uses = []
    rw [hl.uses, hr.uses]
    rfl

theorem Plain.cond {c : Sketch} (hc : Plain types stock known c) (hl : Plain types stock known l)
    (hr : Plain types stock known r) : Plain types stock known (.cond c l r) where
  fits := ⟨⟨hc.fits, hl.fits, hr.fits⟩, hc.isExpr, hl.isExpr, hr.isExpr⟩
  isExpr := rfl
  uses := by
    show c.uses ++ l.uses ++ r.uses = []
    rw [hc.uses, hl.uses, hr.uses]
    rfl

theorem Plain.member (he : Plain types stock known e) (name : String) (type : TypeRef) :
    Plain types stock known (.member e name type) := ⟨he.fits, rfl, he.uses⟩

/-- An assignment as a statement. -/
theorem Plain.assign (hl : Plain types stock known l) (hr : Plain types stock known r) :
    Idle types stock known (.stmt (.assign l r)) where
  fits := ⟨hl.fits, hr.fits, hl.isExpr⟩
  uses := by
    show l.uses ++ r.uses = []
    rw [hl.uses, hr.uses]
    rfl

theorem Plain.ret (he : Plain types stock known e) : Idle types stock known (.ret (some e)) :=
  ⟨he.fits, he.uses⟩

theorem fitsList_idle {l : List Sketch} (h : ∀ s ∈ l, Idle types stock known s) :
    FitsList types stock known l := fitsList_iff.2 fun s hs => (h s hs).fits

theorem usesList_idle {l : List Sketch} (h : ∀ s ∈ l, Idle types stock known s) :
    usesList l = [] := usesList_eq_nil fun s hs => (h s hs).uses

end Plain

-- ============================================================= planting

/-- Chains of the stock, found by their first nodes. -/
def ownOf (cs : List (List Planted)) (id : NodeId) : List Planted :=
  (cs.find? (headOr none · = some id)).getD []

/-- Chains that share no node are told apart by their first nodes. -/
theorem eq_of_head (hn : (tagsOf cs).Nodup) {c d : List Planted} (hc : c ∈ cs) (hd : d ∈ cs)
    {i : NodeId} (hi : headOr none c = some i) (hj : headOr none d = some i) : c = d := by
  induction cs with
  | nil => cases hc
  | cons a cs ih =>
    rw [tagsOf_cons, List.nodup_append] at hn
    rcases List.mem_cons.1 hc with rfl | hc'
    · rcases List.mem_cons.1 hd with rfl | hd'
      · rfl
      · exact absurd rfl (hn.2.2 i (Tree.headOr_mem hi) i
          (mem_tagsOf.2 ⟨d, hd', Tree.headOr_mem hj⟩))
    · rcases List.mem_cons.1 hd with rfl | hd'
      · exact absurd rfl (hn.2.2 i (Tree.headOr_mem hj) i
          (mem_tagsOf.2 ⟨c, hc', Tree.headOr_mem hi⟩))
      · exact ih hn.2.1 hc' hd'

theorem map_ownOf {ids : List NodeId} (hn : (tagsOf cs).Nodup)
    (h : cs.map (headOr none) = ids.map some) : ids.map (ownOf cs) = cs := by
  refine List.ext_getElem? fun k => ?_
  rw [List.getElem?_map]
  have hk := congrArg (·[k]?) h
  simp only [List.getElem?_map] at hk
  cases hi : ids[k]? with
  | none =>
    rw [hi] at hk
    rw [Option.map_eq_none_iff.1 hk]
    rfl
  | some id =>
    rw [hi] at hk
    obtain ⟨c, hc, hhead⟩ := Option.map_eq_some_iff.1 hk
    rw [hc, Option.map_some]
    congr 1
    unfold ownOf
    have hmem : c ∈ cs := List.mem_of_getElem? hc
    obtain ⟨c', hc'⟩ : ∃ c', cs.find? (headOr none · = some id) = some c' :=
      Option.isSome_iff_exists.1 (List.find?_isSome.2 ⟨c, hmem, by simpa using hhead⟩)
    rw [hc', Option.getD_some]
    have hhead' : headOr none c' = some id := by simpa using List.find?_some hc'
    exact (eq_of_head hn hmem (List.mem_of_find?_eq_some hc') hhead hhead').symm

/-- A sketch is planted over the chains it takes. -/
theorem plant_over (s : Sketch) (hs : Stock t cs) (huses : cs.map (headOr none) = s.uses.map some)
    (hfits : ∀ stock, s.uses.map stock = cs.map (List.map Term.shape) →
      s.Fits t.typeAt stock t.Known) :
    ∃ stock t' i ys, s.uses.map stock = cs.map (List.map Term.shape)
      ∧ s.plant t = (.ok i, t') ∧ headOr none ys = some i ∧ Yields t t' (tagsOf cs) [ys]
      ∧ ys.map Term.shape = s.code t.typeAt stock := by
  have hown := map_ownOf hs.nodup huses
  have hstock : s.uses.map (codeOf (ownOf cs)) = cs.map (List.map Term.shape) := by
    calc s.uses.map (codeOf (ownOf cs))
        = (s.uses.map (ownOf cs)).map (List.map Term.shape) := by
          rw [List.map_map]
          rfl
      _ = cs.map (List.map Term.shape) := by rw [hown]
  have hready : Ready t.typeAt (ownOf cs) t.Known t s.uses := by
    refine ⟨by rwa [hown], fun id hid => ?_, fun d hd => Tree.declaredType_typeAt hd⟩
    have hall : (s.uses.map (ownOf cs)).map (headOr none) = s.uses.map some := by rw [hown, huses]
    rw [List.map_map] at hall
    exact List.map_inj_left.1 hall id hid
  obtain ⟨t', i, ys, hrun, hi, hy, hc⟩ := plant_run t.typeAt (ownOf cs) t.Known s t hready
    (hfits _ hstock)
  rw [hown] at hy
  exact ⟨codeOf (ownOf cs), t', i, ys, hstock, hrun, hi, hy, hc⟩

/-- The same where the code of the sketch is one node. -/
theorem plant_node (s : Sketch) (hs : Stock t cs) (huses : cs.map (headOr none) = s.uses.map some)
    (hfits : ∀ stock, s.uses.map stock = cs.map (List.map Term.shape) →
      s.Fits t.typeAt stock t.Known)
    (hone : ∀ stock, (s.code t.typeAt stock).length = 1) :
    ∃ stock t' x, s.uses.map stock = cs.map (List.map Term.shape)
      ∧ s.plant t = (.ok (Term.tag x), t') ∧ Yields t t' (tagsOf cs) [[x]]
      ∧ s.code t.typeAt stock = [Term.shape x] := by
  obtain ⟨stock, t', i, ys, hstock, hrun, hi, hy, hc⟩ := plant_over s hs huses hfits
  have hlen : ys.length = 1 := by
    rw [← hone stock, ← hc, List.length_map]
  obtain ⟨x, rfl⟩ := List.length_eq_one_iff.1 hlen
  injection hi with hi
  exact ⟨stock, t', x, hstock, hi ▸ hrun, hy, hc.symm⟩

/-- A parameter is planted. -/
theorem plant_param (hm : t.Mutual) (name : String) (type : TypeRef) :
    ∃ t' x, (Sketch.param name type).plant t = (.ok (Term.tag x), t') ∧ Yields t t' [] [[x]]
      ∧ t'.Declares x.tag name type
      ∧ x.shape = (Shape.above (.paramDecl type false) [[]]).remark (Tree.titled name) := by
  obtain ⟨stock, t', x, -, hrun, hy, hc⟩ := plant_node (.param name type) (Tree.stock_nil hm) rfl
    (fun _ _ => trivial) fun _ => rfl
  have hx := (List.cons.inj hc).1
  have hkind : x.kind = .paramDecl type false := by
    rw [← Term.kind_shape, ← hx]
    rfl
  have hname : x.notes.name.getD "" = name := by
    rw [← Term.notes_shape, ← hx]
    rfl
  exact ⟨t', x, hrun, hy, hname ▸ hy.declares (Or.inr ⟨_, hkind⟩), hx.symm⟩

/-- A variable is planted. -/
theorem plant_variable (hm : t.Mutual) (name : String) (type : TypeRef) (access : Option Access)
    {init : Option Sketch} (huses : usesOption init = [])
    (hfits : ∀ stock, FitsOption t.typeAt stock t.Known init) :
    ∃ stock t' x, (Sketch.variable name type init access).plant t = (.ok (Term.tag x), t')
      ∧ Yields t t' [] [[x]] ∧ t'.Declares x.tag name type
      ∧ x.shape = (Shape.above (.variableDecl type access)
        [codeOption t.typeAt stock init]).remark (Tree.titled name) := by
  obtain ⟨stock, t', x, -, hrun, hy, hc⟩ := plant_node (.variable name type init access)
    (Tree.stock_nil hm) (by rw [uses, huses]; rfl) (fun stock _ => hfits stock) fun _ => rfl
  have hx := (List.cons.inj hc).1
  have hkind : x.kind = .variableDecl type access := by
    rw [← Term.kind_shape, ← hx]
    rfl
  have hname : x.notes.name.getD "" = name := by
    rw [← Term.notes_shape, ← hx]
    rfl
  exact ⟨stock, t', x, hrun, hy, hname ▸ hy.declares (Or.inl ⟨_, hkind⟩), hx.symm⟩

end Sketch

end RegisterMap.Code
