/-
The class of a peripheral as it is planted. Its parts are the members, one
for every mount, with their classes, and the methods that construct them,
reset them and pass accesses on to them. A method that passes accesses on
is one guard after the other, in the order of the mounts (`GuardCode`);
planting it never fails where what they are made of can be computed
(`peripheralClass_run`).
-/
import RegisterMap.Peripheral.Assemble
import RegisterMap.Proofs.Peripheral.ContainerCode
import RegisterMap.Proofs.Peripheral.Filled
import RegisterMap.Proofs.Register.Mounts

namespace RegisterMap

open Code Exec Peripheral
open Code.Tree (Stock Yields HoleFreeIn holeFreeIn_append holeFreeIn_singleton)
open Code.Sketch (Plain Idle plain_use plain_literal)

variable {types : NodeId → TypeRef} {stock : NodeId → List Shape} {known : NodeId → Prop}
  {t t' : Tree} {inventory : Inventory} {m : Mount} {old : List NodeId}
  {cs : List (List Planted)} {decl offset value : NodeId} {x : Shape}

-- =============================================================== guards

namespace Mount

/-- The condition under which an access goes to the mount that the member
`decl` holds. -/
def guard (decl offset : NodeId) : Mount → Sketch
  | .array a => ArraySite.covers { array := a, decl } offset
  | .register r => .binary .eq (.use offset) (addressLit r.address)

/-- What tells the mount where it is accessed. -/
def position (decl offset : NodeId) : Mount → List Sketch
  | .array a => [ArraySite.relative { array := a, decl } offset]
  | .register _ => []

def readName : Mount → String
  | .array _ => "ReadDoubleWord"
  | .register _ => "Read"

def writeName : Mount → String
  | .array _ => "WriteDoubleWord"
  | .register _ => "Write"

/-- A read is passed on. -/
def readBody (decl offset : NodeId) (m : Mount) : List Sketch :=
  [.ret (some (.call m.readName (some (.use decl)) (m.position decl offset) (some .uint)))]

/-- A write is passed on. -/
def writeBody (decl offset value : NodeId) (m : Mount) : List Sketch :=
  [.stmt (.call m.writeName (some (.use decl)) (m.position decl offset ++ [.use value]) none),
    .ret none]

theorem addressLit_plain (address : Nat) : Plain types stock known (addressLit address) :=
  plain_literal ..

theorem guard_plain (m : Mount) (hd : known decl) (ho : known offset) :
    Plain types stock known (m.guard decl offset) := by
  cases m with
  | array a =>
    have hend : Plain types stock known
        (.binary .add (addressLit a.address) (.member (.use decl) "Size" .long)) :=
      (addressLit_plain _).join .add ((plain_use hd).member ..) rfl
    exact ((plain_use ho).join .gte (addressLit_plain _) rfl).join .land
      ((plain_use ho).join .lt hend rfl) rfl
  | register r => exact (plain_use ho).join .eq (addressLit_plain _) rfl

theorem position_plain (m : Mount) (ho : known offset) :
    ∀ e ∈ m.position decl offset, Plain types stock known e := by
  intro e he
  cases m with
  | array a =>
    rw [List.mem_singleton.1 he]
    exact (plain_use ho).join .sub (addressLit_plain _) rfl
  | register r => cases he

/-- A call with arguments that take nothing from the stock. -/
theorem call_plain {name : String} {args : List Sketch} {type : Option TypeRef} (hd : known decl)
    (hargs : ∀ e ∈ args, Plain types stock known e) :
    (Sketch.call name (some (.use decl)) args type).Fits types stock known
      ∧ (Sketch.call name (some (.use decl)) args type).uses = [] := by
  refine ⟨⟨hd, Sketch.fitsList_iff.2 fun e he => (hargs e he).fits⟩, ?_⟩
  show [] ++ Sketch.usesList args = []
  rw [Sketch.usesList_eq_nil fun e he => (hargs e he).uses]
  rfl

theorem readBody_idle (m : Mount) (hd : known decl) (ho : known offset) :
    ∀ s ∈ m.readBody decl offset, Idle types stock known s := by
  intro s hs
  rw [List.mem_singleton.1 hs]
  obtain ⟨hfits, huses⟩ := @call_plain types stock known decl m.readName
    (m.position decl offset) (some .uint) hd (m.position_plain ho)
  exact ⟨hfits, huses⟩

theorem writeBody_idle (m : Mount) (hd : known decl) (ho : known offset) (hv : known value) :
    ∀ s ∈ m.writeBody decl offset value, Idle types stock known s := by
  intro s hs
  obtain ⟨hfits, huses⟩ := @call_plain types stock known decl m.writeName
    (m.position decl offset ++ [.use value]) none hd fun e he => by
      rcases List.mem_append.1 he with he | he
      · exact m.position_plain ho e he
      · exact List.mem_singleton.1 he ▸ plain_use hv
  rcases List.mem_cons.1 hs with rfl | hs
  · exact ⟨hfits, huses⟩
  · rw [List.mem_singleton.1 hs]
    exact ⟨trivial, rfl⟩

/-- No part of a guard is a hole. -/
theorem guard_holeFree (m : Mount) :
    ∀ y ∈ (m.guard decl offset).code types stock, y.HoleFree := by
  cases m <;> exact List.forall_mem_singleton.2 (Term.holeFree_of_all rfl)

theorem readBody_holeFree (m : Mount) :
    ∀ y ∈ (Sketch.codeList types stock (m.readBody decl offset)).flatten, y.HoleFree := by
  cases m <;> exact List.forall_mem_singleton.2 (Term.holeFree_of_all rfl)

theorem writeBody_holeFree (m : Mount) :
    ∀ y ∈ (Sketch.codeList types stock (m.writeBody decl offset value)).flatten, y.HoleFree := by
  cases m <;> exact List.forall_mem_cons.2 ⟨Term.holeFree_of_all rfl,
    List.forall_mem_singleton.2 (Term.holeFree_of_all rfl)⟩

end Mount

namespace Peripheral

/-- A guard around statements. The two parts may have been built at
different times. -/
def GuardCode (condition : Sketch) (body : List Sketch) (x : Shape) : Prop :=
  ∃ types stock types' stock', x = .above .branch
    [condition.code types stock, (Sketch.codeList types' stock' body).flatten, []]

theorem GuardCode.holeFree {condition : Sketch} {body : List Sketch}
    (h : GuardCode condition body x)
    (hcondition : ∀ types stock, ∀ y ∈ condition.code types stock, y.HoleFree)
    (hbody : ∀ types stock, ∀ y ∈ (Sketch.codeList types stock body).flatten, y.HoleFree) :
    x.HoleFree := by
  obtain ⟨types, stock, types', stock', rfl⟩ := h
  refine .node Kind.noConfusion fun _ c hc y hy => ?_
  rcases List.mem_cons.1 hc with rfl | hc
  · exact hcondition _ _ y hy
  rcases List.mem_cons.1 hc with rfl | hc
  · exact hbody _ _ y hy
  · rw [List.mem_singleton.1 hc] at hy
    cases hy

/-- A guard is planted around what is built after it. -/
theorem guard_run {condition : Sketch} {body : List Sketch} {build : Edit NodeId} (hm : t.Mutual)
    (huses : condition.uses = [])
    (hfits : ∀ t' cs, Yields t t' [] cs → ∀ stock, condition.Fits t'.typeAt stock t'.Known)
    (hbuild : ∀ t' cs, Yields t t' [] cs →
      ∃ (t'' : Tree) (y : Planted) (ys : List Planted), build t' = (.ok y.tag, t'')
        ∧ Yields t' t'' [] [y :: ys] ∧ ∃ types stock,
          (y :: ys).map Term.shape = (Sketch.codeList types stock body).flatten) :
    ∃ t' x, graft condition build t = (.ok (Term.tag x), t') ∧ Yields t t' [] [[x]]
      ∧ GuardCode condition body x.shape := by
  obtain ⟨types, stock, t', x, code, hrun, hy, ⟨types', stock', hcode⟩, hx⟩ :=
    graft_run (P := fun c => ∃ types stock, c = (Sketch.codeList types stock body).flatten) hm
      huses hfits hbuild
  exact ⟨t', x, hrun, hy, types, stock, types', stock', hcode ▸ hx⟩

/-- A declaration that stands in the tree stays. -/
theorem known_keep (h : t.Known decl) (hy : Yields t t' old cs) : t'.Known decl := by
  obtain ⟨type, hd⟩ := h
  exact ((Tree.Declares.mk hd rfl).keep hy).known

/-- The guard of an array is planted around what is built for it. -/
theorem arrayGuard_run (hm : t.Mutual) (s : ArraySite) (hd : t.Known s.decl) (ho : t.Known offset)
    {body : List Sketch} {build : Edit NodeId}
    (hbuild : ∀ t' cs, Yields t t' [] cs →
      ∃ (t'' : Tree) (y : Planted) (ys : List Planted), build t' = (.ok y.tag, t'')
        ∧ Yields t' t'' [] [y :: ys] ∧ ∃ types stock,
          (y :: ys).map Term.shape = (Sketch.codeList types stock body).flatten) :
    ∃ t' x, graft ((Mount.array s.array).guard s.decl offset) build t = (.ok (Term.tag x), t')
      ∧ Yields t t' [] [[x]]
      ∧ GuardCode ((Mount.array s.array).guard s.decl offset) body x.shape := by
  have hguard : ∀ (t : Tree), t.Known s.decl → t.Known offset → ∀ stock,
      Plain t.typeAt stock t.Known ((Mount.array s.array).guard s.decl offset) :=
    fun t hd ho stock => Mount.guard_plain _ hd ho
  exact guard_run hm (hguard t hd ho fun _ => []).uses
    (fun t' cs hy stock => (hguard t' (known_keep hd hy) (known_keep ho hy) stock).fits) hbuild

/-- The guard of an array is planted around a read. -/
theorem readAccess_run (hm : t.Mutual) (s : ArraySite) (hd : t.Known s.decl) (ho : t.Known offset) :
    ∃ t' x, s.readAccess offset t = (.ok (Term.tag x), t') ∧ Yields t t' [] [[x]]
      ∧ GuardCode ((Mount.array s.array).guard s.decl offset)
        ((Mount.array s.array).readBody s.decl offset) x.shape := by
  refine arrayGuard_run hm s hd ho fun t' cs hy => ?_
  have hread : ∀ stock, ∀ e ∈ (Mount.array s.array).readBody s.decl offset,
      Idle t'.typeAt stock t'.Known e := fun stock =>
    Mount.readBody_idle _ (known_keep hd hy) (known_keep ho hy)
  obtain ⟨stock, t'', y, -, hrun, hy', hx⟩ := Sketch.plant_node _
    (Tree.stock_nil hy.stock.linked)
    (by rw [(hread (fun _ => []) _ (List.mem_singleton_self _)).uses]; rfl)
    (fun stock _ => (hread stock _ (List.mem_singleton_self _)).fits) fun _ => rfl
  exact ⟨t'', y, [], hrun, hy', t'.typeAt, stock, hx.symm⟩

/-- The guard of an array is planted around a write, which ends the method. -/
theorem writeAccess_run (hm : t.Mutual) (s : ArraySite) (hd : t.Known s.decl) (ho : t.Known offset)
    (hv : t.Known value) :
    ∃ t' x, s.writeAccess offset value t = (.ok (Term.tag x), t') ∧ Yields t t' [] [[x]]
      ∧ GuardCode ((Mount.array s.array).guard s.decl offset)
        ((Mount.array s.array).writeBody s.decl offset value) x.shape := by
  refine arrayGuard_run hm s hd ho fun t' cs hy => ?_
  have hwrite : ∀ stock, ∀ e ∈ (Mount.array s.array).writeBody s.decl offset value,
      Idle t'.typeAt stock t'.Known e := fun stock =>
    Mount.writeBody_idle _ (known_keep hd hy) (known_keep ho hy) (known_keep hv hy)
  obtain ⟨stock, t₁, y, -, hcall, hy₁, hx⟩ := Sketch.plant_node _
    (Tree.stock_nil hy.stock.linked)
    (by rw [(hwrite (fun _ => []) _ (List.mem_cons_self ..)).uses]; rfl)
    (fun stock _ => (hwrite stock _ (List.mem_cons_self ..)).fits) fun _ => rfl
  obtain ⟨stock', t₂, z, -, hdone, hy₂, hz⟩ := Sketch.plant_node (.ret none)
    (Tree.stock_nil hy₁.stock.linked) rfl (fun _ _ => trivial) fun _ => rfl
  have hpieces : Yields t' t₂ [] ([[y]] ++ [[z]]) := hy₁.and hy₂
  obtain ⟨t₃, hextend, hy₃⟩ := Edit.extend_run hpieces.stock
  refine ⟨t₃, y, [z], ?_, hpieces.trans hy₃, t'.typeAt, stock, ?_⟩
  · exact (Edit.bind_run hcall).trans ((Edit.bind_run hdone).trans ((Edit.bind_run hextend).trans rfl))
  · exact congr_arg₂ (· ++ ·) hx.symm hz.symm

-- ============================================================= dispatch

/-- A mount with the member that holds it. -/
abbrev Site := Mount × NodeId

/-- The sites of arrays and registers, in the order in which an access
tries them. -/
def sitesOf (arrays : List ArraySite) (registers : List (Register × NodeId)) : List Site :=
  arrays.map (fun s => (.array s.array, s.decl)) ++ registers.map fun p => (.register p.1, p.2)

/-- A guarded access to a site. -/
def guarded (offset : NodeId) (body : Site → List Sketch) (s : Site) : Sketch :=
  .branch (s.1.guard s.2 offset) (body s) []

/-- The code of a method that passes accesses on: a guard for every site,
and what is left to do behind them. -/
structure DispatchCode (sites : List Site) (name : String) (sig : MethodSig) (params : List Shape)
    (offset : NodeId) (body : Site → List Sketch) (rest : List Sketch) (x : Shape) : Prop where
  kind_eq : x.kind = .methodDecl sig
  name_eq : nameOf x = name
  params_eq : part x .params = params
  body_eq : ∃ guards types stock,
    List.Forall₂ (fun s c => GuardCode (s.1.guard s.2 offset) (body s) c) sites guards
      ∧ part x .body = guards ++ (Sketch.codeList types stock rest).flatten

/-- Code whose parts have no hole is free of holes. -/
theorem holeFree_of_parts (hx : x.Full) (hk : x.kind ≠ .hole)
    (h : ∀ s ∈ x.kind.slots, ∀ y ∈ part x s, y.HoleFree) : x.HoleFree := by
  cases hx with
  | @node tag kind notes slots hlen _ =>
    refine .node hk fun _ c hc y hy => ?_
    rw [← List.map_snd_zip (Nat.le_of_eq hlen)] at hc
    obtain ⟨⟨s, c⟩, hsc, rfl⟩ := List.mem_map.1 hc
    refine h s (List.of_mem_zip hsc).1 y ?_
    -- a slot is listed once, so its chain is the one that is looked up
    have hnodup : ((kind.slots.zip slots).map Prod.fst).Nodup := by
      rw [List.map_fst_zip (Nat.le_of_eq hlen.symm)]
      exact kind.nodup_slots
    obtain ⟨before, after, hsplit⟩ := List.append_of_mem hsc
    rw [hsplit, List.map_append, List.nodup_append] at hnodup
    have hlookup : (kind.slots.zip slots).lookup s = some c :=
      List.lookup_eq_some_iff.2 ⟨before, after, hsplit, fun p hp => bne_iff_ne.2 fun he =>
        hnodup.2.2 p.1 (List.mem_map_of_mem hp) s (List.mem_cons_self ..) he.symm⟩
    unfold part
    rw [Term.kind_node, Term.slots_node, hlookup]
    exact hy

/-- A method that passes accesses on has no hole if what it passes them on
with has none. -/
theorem DispatchCode.holeFree {sites : List Site} {name : String} {sig : MethodSig}
    {params : List Shape} {body : Site → List Sketch} {rest : List Sketch}
    (h : DispatchCode sites name sig params offset body rest x) (hx : x.Full)
    (hparams : ∀ y ∈ params, y.HoleFree)
    (hbody : ∀ s types stock, ∀ y ∈ (Sketch.codeList types stock (body s)).flatten, y.HoleFree)
    (hrest : ∀ types stock, ∀ y ∈ (Sketch.codeList types stock rest).flatten, y.HoleFree) :
    x.HoleFree := by
  obtain ⟨guards, types, stock, hguards, hpart⟩ := h.body_eq
  have hall : ∀ y ∈ guards, y.HoleFree := fun y hy => by
    obtain ⟨i, hi, rfl⟩ := List.getElem_of_mem hy
    have hguard := hguards.get (by rw [hguards.length_eq]; exact hi) hi
    exact hguard.holeFree (fun _ _ => Mount.guard_holeFree _) (hbody _)
  refine holeFree_of_parts hx (by rw [h.kind_eq]; exact Kind.noConfusion) fun s hs => ?_
  rw [h.kind_eq] at hs
  rcases List.mem_cons.1 hs with rfl | hs
  · rwa [h.params_eq]
  · rw [List.mem_singleton.1 hs, hpart]
    exact List.forall_mem_append.2 ⟨hall, hrest types stock⟩

theorem codeList_append (l l' : List Sketch) :
    Sketch.codeList types stock (l ++ l') = Sketch.codeList types stock l
      ++ Sketch.codeList types stock l' := by
  rw [Sketch.codeList_eq, Sketch.codeList_eq, Sketch.codeList_eq, List.map_append]

theorem usesList_append (l l' : List Sketch) :
    Sketch.usesList (l ++ l') = Sketch.usesList l ++ Sketch.usesList l' := by
  rw [Sketch.usesList_eq, Sketch.usesList_eq, Sketch.usesList_eq, List.flatMap_append]

/-- The code of nodes that stand in the stock. -/
theorem codeList_stock {xs : List Planted} (h : (xs.map Term.tag).map stock
    = (xs.map fun x => [x]).map (List.map Term.shape)) :
    (Sketch.codeList types stock ((xs.map Term.tag).map .node)).flatten = xs.map Term.shape := by
  rw [Sketch.codeList_nodes, h, List.map_map, ← List.flatMap_def]
  exact List.map_eq_flatMap.symm

/-- A method that passes accesses on is planted over its parameters. The
guards of the arrays are built one by one, those of the registers with the
method. -/
theorem dispatch_run {body : Site → List Sketch} (params : List Planted)
    (used : List NodeId) (name : String) (sig : MethodSig) (build : ArraySite → Edit NodeId)
    (arrays : List ArraySite) (registers : List (Register × NodeId)) (rest : List Sketch)
    (hs : Stock t (params.map fun x => [x])) (hused : ∀ d ∈ used, t.Known d)
    (hoffset : offset ∈ used) (hsites : ∀ s ∈ sitesOf arrays registers, s.2 ∈ used)
    (hbuild : ∀ s ∈ arrays, ∀ t : Tree, t.Mutual → (∀ d ∈ used, t.Known d) →
      ∃ t' x, build s t = (.ok (Term.tag x), t') ∧ Yields t t' [] [[x]]
        ∧ GuardCode ((Mount.array s.array).guard s.decl offset) (body (.array s.array, s.decl)) x.shape)
    (hbody : ∀ (t : Tree) stock, (∀ d ∈ used, t.Known d) → ∀ s ∈ sitesOf arrays registers,
      ∀ e ∈ body s, Idle t.typeAt stock t.Known e)
    (hrest : ∀ (t : Tree) stock, ∀ e ∈ rest, Idle t.typeAt stock t.Known e) :
    ∃ t' x, (do
        let guards ← arrays.mapM build
        Sketch.plant <| .method name sig ((params.map Term.tag).map .node) <| guards.map .node
          ++ (registers.map fun p => guarded offset body (.register p.1, p.2)) ++ rest : Edit NodeId) t
        = (.ok (Term.tag x), t') ∧ Yields t t' (tagsOf (params.map fun x => [x])) [[x]]
      ∧ DispatchCode (sitesOf arrays registers) name sig (params.map Term.shape) offset body rest
        x.shape := by
  obtain ⟨t₁, xs, hrun₁, hy₁, hxs⟩ := Tree.mapM_run (f := build)
    (K := fun t => ∀ d ∈ used, t.Known d)
    (P := fun _ s x => GuardCode ((Mount.array s.array).guard s.decl offset)
      (body (.array s.array, s.decl)) x.shape)
    (fun hy hk d hd => known_keep (hk d hd) hy) (fun _ hp => hp) arrays hbuild t hs.linked hused
  have hused₁ : ∀ d ∈ used, t₁.Known d := fun d hd => known_keep (hused d hd) hy₁
  have hall := hs.yields_refl.append hy₁ fun _ hj => nomatch hj
  rw [List.append_nil] at hall
  -- the guards of the registers and what is behind them take nothing
  have hidle : ∀ stock, ∀ e ∈ (registers.map fun p => guarded offset body (.register p.1, p.2)) ++ rest,
      Idle t₁.typeAt stock t₁.Known e := by
    intro stock e he
    rcases List.mem_append.1 he with he | he
    · obtain ⟨p, hp, rfl⟩ := List.mem_map.1 he
      have hmem : (Mount.register p.1, p.2) ∈ sitesOf arrays registers :=
        List.mem_append_right _ (List.mem_map_of_mem hp)
      have hguard : Plain t₁.typeAt stock t₁.Known ((Mount.register p.1).guard p.2 offset) :=
        Mount.guard_plain _ (hused₁ _ (hsites _ hmem)) (hused₁ _ hoffset)
      have hin := hbody t₁ stock hused₁ _ hmem
      refine ⟨⟨hguard.fits, Sketch.fitsList_idle hin, trivial⟩, ?_⟩
      show (Sketch.uses _ ++ Sketch.usesList _) ++ [] = []
      rw [hguard.uses, Sketch.usesList_idle hin]
      rfl
    · exact hrest t₁ stock e he
  have huses : (Sketch.method name sig ((params.map Term.tag).map .node) ((xs.map Term.tag).map .node
      ++ (registers.map fun p => guarded offset body (.register p.1, p.2)) ++ rest)).uses
      = params.map Term.tag ++ xs.map Term.tag := by
    show Sketch.usesList _ ++ Sketch.usesList _ = _
    rw [List.append_assoc, usesList_append, Sketch.usesList_nodes, Sketch.usesList_nodes,
      Sketch.usesList_idle (hidle fun _ => []), List.append_nil]
  have hheads : ((params.map fun x => [x]) ++ xs.map fun x => [x]).map (headOr none)
      = (params.map Term.tag ++ xs.map Term.tag).map some := by
    simp only [List.map_append, List.map_map]
    rfl
  obtain ⟨stock, t₂, x, hstock, hrun₂, hy₂, hx⟩ := Sketch.plant_node _ hall.stock
    (hheads.trans (congrArg (List.map some) huses.symm))
    (fun stock _ => ⟨Sketch.fitsList_nodes .., by
      rw [List.append_assoc]
      exact Sketch.fitsList_iff.2 fun e he => by
        rcases List.mem_append.1 he with he | he
        · exact Sketch.fitsList_iff.1 (Sketch.fitsList_nodes ..) e he
        · exact (hidle stock e he).fits⟩) fun _ => rfl
  have hshape := (List.cons.inj hx).1
  rw [huses, List.map_append, List.map_append] at hstock
  obtain ⟨hparams, hguards⟩ := List.append_inj hstock (by simp)
  refine ⟨t₂, x, (Edit.bind_run hrun₁).trans hrun₂, hall.trans hy₂, ?_⟩
  rw [← hshape]
  refine ⟨rfl, rfl, codeList_stock hparams, xs.map Term.shape ++ registers.map fun p =>
      Shape.above .branch [((Mount.register p.1).guard p.2 offset).code t₁.typeAt stock,
        (Sketch.codeList t₁.typeAt stock (body (.register p.1, p.2))).flatten, []],
    t₁.typeAt, stock, ?_, ?_⟩
  · refine List.rel_append ?_ ?_
    · rw [List.forall₂_map_left_iff, List.forall₂_map_right_iff]
      exact hxs
    · rw [List.forall₂_map_left_iff, List.forall₂_map_right_iff, List.forall₂_same]
      exact fun p _ => ⟨t₁.typeAt, stock, t₁.typeAt, stock, rfl⟩
  · show (Sketch.codeList _ _ _).flatten = _
    rw [codeList_append, codeList_append, List.flatten_append, List.flatten_append,
      codeList_stock hguards, Sketch.codeList_eq _ _ (registers.map _), List.map_map,
      ← List.flatMap_def]
    congr 2
    exact List.map_eq_flatMap.symm

-- ============================================================== methods

/-- Where a register is held. -/
def registerSite (p : Register × NodeId) : RegisterSite := { address := p.1.address, decl := p.2 }

/-- What a method that reads does where nothing is mapped. -/
def readRest : List Sketch := [.ret (some (.literal 0 true false false))]

/-- The code of the method that reads. -/
def ReadDispatchCode (t : Tree) (sites : List Site) (x : Shape) : Prop :=
  ∃ offset, t.Declares offset "offset" .long
    ∧ DispatchCode sites "IDoubleWordPeripheral.ReadDoubleWord" { returns := some .uint }
      [paramShape "offset" .long] offset (fun s => s.1.readBody s.2 offset) readRest x

/-- The code of the method that writes. -/
def WriteDispatchCode (t : Tree) (sites : List Site) (x : Shape) : Prop :=
  ∃ offset value, t.Declares offset "offset" .long ∧ t.Declares value "value" .uint
    ∧ DispatchCode sites "IDoubleWordPeripheral.WriteDoubleWord" {}
      [paramShape "offset" .long, paramShape "value" .uint] offset
      (fun s => s.1.writeBody s.2 offset value) [] x

theorem ReadDispatchCode.holeFree {sites : List Site} (h : ReadDispatchCode t sites x)
    (hx : x.Full) : x.HoleFree := by
  obtain ⟨offset, -, hcode⟩ := h
  exact hcode.holeFree hx (List.forall_mem_singleton.2 (Term.holeFree_of_all rfl))
    (fun s _ _ => s.1.readBody_holeFree)
    fun _ _ => List.forall_mem_singleton.2 (Term.holeFree_of_all rfl)

theorem WriteDispatchCode.holeFree {sites : List Site} (h : WriteDispatchCode t sites x)
    (hx : x.Full) : x.HoleFree := by
  obtain ⟨offset, value, -, -, hcode⟩ := h
  exact hcode.holeFree hx (List.forall_mem_cons.2 ⟨Term.holeFree_of_all rfl,
    List.forall_mem_singleton.2 (Term.holeFree_of_all rfl)⟩)
    (fun s _ _ => s.1.writeBody_holeFree) nofun

variable {arrays : List ArraySite} {registers : List (Register × NodeId)}

/-- The members of the sites that a method uses beside its parameters. -/
theorem used_members {params : List NodeId} {s : Site} (hs : s ∈ sitesOf arrays registers) :
    s.2 ∈ params ++ (sitesOf arrays registers).map Prod.snd :=
  List.mem_append_right _ (List.mem_map_of_mem hs)

theorem site_array {s : ArraySite} (hs : s ∈ arrays) :
    (Mount.array s.array, s.decl) ∈ sitesOf arrays registers :=
  List.mem_append_left _ (List.mem_map_of_mem hs)

/-- The method that reads is planted. -/
theorem readDispatch_run (hm : t.Mutual) (hd : ∀ s ∈ sitesOf arrays registers, t.Known s.2) :
    ∃ t' x, readDispatch arrays (registers.map registerSite) t = (.ok (Term.tag x), t')
      ∧ Yields t t' [] [[x]] ∧ ReadDispatchCode t' (sitesOf arrays registers) x.shape := by
  obtain ⟨t₁, o, hparam, hy₁, ho, hoffset⟩ := Sketch.plant_param hm "offset" .long
  have hused : ∀ d ∈ [o.tag] ++ (sitesOf arrays registers).map Prod.snd, t₁.Known d := by
    intro d hd'
    rcases List.mem_append.1 hd' with hd' | hd'
    · exact List.mem_singleton.1 hd' ▸ ho.known
    · obtain ⟨s, hs, rfl⟩ := List.mem_map.1 hd'
      exact known_keep (hd s hs) hy₁
  have hin : o.tag ∈ [o.tag] ++ (sitesOf arrays registers).map Prod.snd := List.mem_cons_self ..
  obtain ⟨t₂, x, hrun, hy₂, hcode⟩ := dispatch_run [o] _ "IDoubleWordPeripheral.ReadDoubleWord"
    { returns := some .uint } (·.readAccess o.tag) arrays registers readRest hy₁.stock hused hin
    (fun s hs => used_members hs)
    (fun s hs t hm hk => readAccess_run hm s (hk _ (used_members (site_array hs))) (hk _ hin))
    (fun t stock hk s hs => s.1.readBody_idle (hk _ (used_members hs)) (hk _ hin))
    fun t stock e he => List.mem_singleton.1 he ▸ (plain_literal ..).ret
  refine ⟨t₂, x, (Edit.bind_run hparam).trans ?_, hy₁.trans hy₂, o.tag, ho.keep hy₂, ?_⟩
  · rw [List.map_map]
    exact hrun
  · rw [List.map_singleton, hoffset] at hcode
    exact hcode

/-- The method that writes is planted. -/
theorem writeDispatch_run (hm : t.Mutual) (hd : ∀ s ∈ sitesOf arrays registers, t.Known s.2) :
    ∃ t' x, writeDispatch arrays (registers.map registerSite) t = (.ok (Term.tag x), t')
      ∧ Yields t t' [] [[x]] ∧ WriteDispatchCode t' (sitesOf arrays registers) x.shape := by
  obtain ⟨t₁, o, hparam, hy₁, ho₁, hoffset⟩ := Sketch.plant_param hm "offset" .long
  obtain ⟨t₂, v, hparam', hy₂, hv, hvalue⟩ := Sketch.plant_param hy₁.stock.linked "value" .uint
  have ho := ho₁.keep hy₂
  have hboth : Yields t t₂ [] ([o, v].map fun x => [x]) := hy₁.and hy₂
  have hused : ∀ d ∈ [o.tag, v.tag] ++ (sitesOf arrays registers).map Prod.snd, t₂.Known d := by
    intro d hd'
    rcases List.mem_append.1 hd' with hd' | hd'
    · rcases List.mem_cons.1 hd' with rfl | hd'
      · exact ho.known
      · exact List.mem_singleton.1 hd' ▸ hv.known
    · obtain ⟨s, hs, rfl⟩ := List.mem_map.1 hd'
      exact known_keep (hd s hs) hboth
  have hin : o.tag ∈ [o.tag, v.tag] ++ (sitesOf arrays registers).map Prod.snd :=
    List.mem_cons_self ..
  have hin' : v.tag ∈ [o.tag, v.tag] ++ (sitesOf arrays registers).map Prod.snd :=
    List.mem_cons_of_mem _ (List.mem_cons_self ..)
  obtain ⟨t₃, x, hrun, hy₃, hcode⟩ := dispatch_run [o, v] _ "IDoubleWordPeripheral.WriteDoubleWord"
    {} (·.writeAccess o.tag v.tag) arrays registers [] hboth.stock hused hin
    (fun s hs => used_members hs)
    (fun s hs t hm hk => writeAccess_run hm s (hk _ (used_members (site_array hs))) (hk _ hin)
      (hk _ hin'))
    (fun t stock hk s hs => s.1.writeBody_idle (hk _ (used_members hs)) (hk _ hin) (hk _ hin'))
    fun t stock e he => nomatch he
  refine ⟨t₃, x, (Edit.bind_run hparam).trans ((Edit.bind_run hparam').trans ?_),
    hboth.trans hy₃, o.tag, v.tag, ho.keep hy₃, hv.keep hy₃, ?_⟩
  · rw [List.map_map]
    simp only [List.append_nil] at hrun
    exact hrun
  · rw [List.map_cons, List.map_singleton, hoffset, hvalue] at hcode
    exact hcode

-- ============================================================== members

/-- The code of the class of a mount. -/
def MountCode (t : Tree) (inventory : Inventory) : Mount → Shape → Prop
  | .array a, x => ∃ memory, ContainerCode t a memory x
  | .register r, x => ∃ memory, HolderCode t r (inventory.resetOf r) memory x

theorem MountCode.keep (h : MountCode t inventory m x) (hy : Yields t t' old cs) :
    MountCode t' inventory m x := by
  cases m with
  | array a =>
    obtain ⟨memory, hcode⟩ := h
    exact ⟨memory, hcode.keep hy⟩
  | register r =>
    obtain ⟨memory, hcode⟩ := h
    exact ⟨memory, hcode.keep hy⟩

/-- The class and the declaration of a member, as they were planted. -/
structure Built where
  holder : Planted
  decl : Planted

namespace Built

def chains (b : Built) : List (List Planted) := [[b.holder], [b.decl]]

def member (b : Built) (m : Mount) : Member :=
  { decl := b.decl.tag, holder := b.holder.tag, type := m.typeName }

end Built

/-- The code of a member and of its class. -/
structure MemberCode (t : Tree) (inventory : Inventory) (m : Mount) (b : Built) : Prop where
  holder : MountCode t inventory m b.holder.shape
  declares : t.Declares b.decl.tag m.memberName (.named m.typeName)
  field : FieldDecl m.memberName (.named m.typeName) b.decl.shape

theorem MemberCode.keep {b : Built} (h : MemberCode t inventory m b) (hy : Yields t t' old cs) :
    MemberCode t' inventory m b :=
  ⟨h.holder.keep hy, h.declares.keep hy, h.field⟩

/-- A member is declared. -/
theorem declareMember_run (hm : t.Mutual) (holder : NodeId) (name type doc : String) :
    ∃ (t' : Tree) (x : Planted), declareMember holder name type doc t
        = (.ok { decl := x.tag, holder, type }, t')
      ∧ Yields t t' [] [[x]] ∧ t'.Declares x.tag name (.named type)
      ∧ FieldDecl name (.named type) x.shape := by
  obtain ⟨stock, t', x, -, hrun, hy, hx⟩ := Sketch.plant_node
    (.documented (.variable name (.named type) none (some .prot)) doc) (Tree.stock_nil hm) rfl
    (fun _ _ => trivial) fun _ => rfl
  have hshape := (List.cons.inj hx).1
  have hkind : x.kind = .variableDecl (.named type) (some .prot) := by
    rw [← Term.kind_shape, ← hshape]
    rfl
  have hname : x.notes.name.getD "" = name := by
    rw [← Term.notes_shape, ← hshape]
    rfl
  refine ⟨t', x, (Edit.bind_run hrun).trans rfl, hy, hname ▸ hy.declares (Or.inl ⟨_, hkind⟩), ?_⟩
  rw [← hshape]
  exact ⟨⟨_, rfl⟩, rfl, rfl⟩

/-- The class and the member of an array are planted. -/
theorem arrayMember_run (inventory : Inventory) (hm : t.Mutual) {a : RegisterArray}
    (ha : a.Sized) :
    ∃ t' b, arrayMember a t
        = (.ok (Built.member b (.array a), { array := a, decl := b.decl.tag }), t')
      ∧ Yields t t' [] b.chains ∧ MemberCode t' inventory (.array a) b := by
  obtain ⟨t₁, h, memory, hholder, hy₁, hcode⟩ := containerClass_run hm ha
  obtain ⟨t₂, d, hdecl, hy₂, hd, hfield⟩ :=
    declareMember_run hy₁.stock.linked h.tag a.memberName a.typeName a.doc
  exact ⟨t₂, ⟨h, d⟩, (Edit.bind_run hholder).trans ((Edit.bind_run hdecl).trans rfl), hy₁.and hy₂,
    ⟨memory, hcode.keep hy₂⟩, hd, hfield⟩

/-- The class and the member of a register are planted. -/
theorem registerMember_run (inventory : Inventory) (hm : t.Mutual) {r : Register} (hr : r.Proper)
    (journal : Journal) :
    ∃ t' b journal', registerMember r (inventory.resetOf r) ⟨t, journal⟩
        = (.ok (Built.member b (.register r), registerSite (r, b.decl.tag)), ⟨t', journal'⟩)
      ∧ Yields t t' [] b.chains ∧ MemberCode t' inventory (.register r) b := by
  obtain ⟨t₁, h, memory, journal', hholder, hy₁, hcode⟩ :=
    registerClass_run hm hr (inventory.resetOf r) journal
  obtain ⟨t₂, d, hdecl, hy₂, hd, hfield⟩ :=
    declareMember_run hy₁.stock.linked h.tag r.memberName r.typeName r.doc
  exact ⟨t₂, ⟨h, d⟩, journal', (Drafting.bind_run hholder).trans
    ((Drafting.bind_run (Drafting.ofEdit_run hdecl)).trans rfl), hy₁.and hy₂,
    ⟨memory, hcode.keep hy₂⟩, hd, hfield⟩

/-- Members that were built one after the other. -/
theorem collected_built {α β : Type} {l : List α} {make : α → Built → β}
    {P : α → Built → Prop} {ps : List (β × List (List Planted))}
    (h : List.Forall₂ (fun a p => ∃ b, p = (make a b, Built.chains b) ∧ P a b) l ps) :
    ∃ bs, ps.map Prod.fst = (l.zip bs).map (fun p => make p.1 p.2)
      ∧ ps.flatMap Prod.snd = bs.flatMap Built.chains ∧ List.Forall₂ P l bs := by
  induction h with
  | nil => exact ⟨[], rfl, rfl, .nil⟩
  | cons hp _ ih =>
    obtain ⟨b, rfl, hb⟩ := hp
    obtain ⟨bs, hfst, hsnd, hbs⟩ := ih
    exact ⟨b :: bs, congrArg _ hfst, congrArg _ hsnd, .cons hb hbs⟩

/-- The members of the arrays are planted. -/
theorem arrayMembers_run (inventory : Inventory) (hm : t.Mutual) (l : List RegisterArray)
    (hl : ∀ a ∈ l, a.Sized) :
    ∃ t' bs, l.mapM arrayMember t = (.ok ((l.zip bs).map fun p =>
        (Built.member p.2 (.array p.1), { array := p.1, decl := p.2.decl.tag })), t')
      ∧ Yields t t' [] (bs.flatMap Built.chains)
      ∧ List.Forall₂ (fun a => MemberCode t' inventory (.array a)) l bs := by
  obtain ⟨t', ps, hrun, hy, hall⟩ := Tree.collect (K := fun _ => True)
    (P := fun t a p => ∃ b, p = ((Built.member b (.array a),
      { array := a, decl := b.decl.tag : ArraySite }), b.chains) ∧ MemberCode t inventory (.array a) b)
    (fun _ => rfl)
    (fun {a as b bs t t' t''} (h : arrayMember a t = (.ok b, t'))
      (hs : as.mapM arrayMember t' = (.ok bs, t'')) => Edit.mapM_cons_run h hs)
    (fun _ _ => trivial) (fun hy ⟨b, hb, hcode⟩ => ⟨b, hb, hcode.keep hy⟩) l
    (fun a ha t hm _ => by
      obtain ⟨t', b, hrun, hy, hcode⟩ := arrayMember_run inventory hm (hl a ha)
      exact ⟨t', _, _, hrun, hy, b, rfl, hcode⟩) t hm trivial
  obtain ⟨bs, hfst, hsnd, hbs⟩ := collected_built hall
  exact ⟨t', bs, hfst ▸ hrun, hsnd ▸ hy, hbs⟩

/-- The members of the registers are planted. -/
theorem registerMembers_run (inventory : Inventory) (hm : t.Mutual) (l : List Register)
    (hl : ∀ r ∈ l, r.Proper) (journal : Journal) :
    ∃ t' bs journal', l.mapM (fun r => registerMember r (inventory.resetOf r)) ⟨t, journal⟩
        = (.ok ((l.zip bs).map fun p =>
          (Built.member p.2 (.register p.1), registerSite (p.1, p.2.decl.tag))), ⟨t', journal'⟩)
      ∧ Yields t t' [] (bs.flatMap Built.chains)
      ∧ List.Forall₂ (fun r => MemberCode t' inventory (.register r)) l bs := by
  induction l generalizing t journal with
  | nil => exact ⟨t, [], journal, rfl, Tree.yields_nil hm, .nil⟩
  | cons r l ih =>
    obtain ⟨t₁, b, journal₁, hrun₁, hy₁, hcode⟩ :=
      registerMember_run inventory hm (hl r (List.mem_cons_self ..)) journal
    obtain ⟨t₂, bs, journal₂, hrun₂, hy₂, hbs⟩ :=
      ih hy₁.stock.linked (fun q hq => hl q (List.mem_cons_of_mem _ hq)) journal₁
    refine ⟨t₂, b :: bs, journal₂, ?_, ?_, .cons (hcode.keep hy₂) hbs⟩
    · rw [List.mapM_cons, Drafting.bind_run hrun₁, Drafting.bind_run hrun₂]
      rfl
    · rw [List.flatMap_cons]
      exact hy₁.and hy₂

-- =============================================================== class

/-- What constructing a peripheral does: every member gets a new object,
and then the user's part runs. -/
def assembleBody (sites : List Site) : List Sketch :=
  sites.map (fun s => .stmt (.assign (.use s.2) (.newObject (.named s.1.typeName) [])))
    ++ [invoke "Init"]

/-- What resetting a peripheral does. -/
def renewBody (sites : List Site) : List Sketch :=
  sites.map (fun s => .stmt (.call "Reset" (some (.use s.2)) [] none)) ++ [invoke "Reset"]

/-- What a method without a body says of itself. -/
def hookSig : MethodSig := { bodied := false, modifiers := { isPartial := true } }

/-- The code of a method the user may give a body. -/
structure HookCode (name : String) (x : Shape) : Prop where
  kind_eq : x.kind = .methodDecl hookSig
  name_eq : nameOf x = name
  params : part x .params = []

/-- The code of the class of a peripheral in a tree. -/
structure PeripheralCode (t : Tree) (inventory : Inventory) (name : String) (x : Shape) : Prop where
  isClass : ∃ sig, x.kind = .classDecl sig
  name_eq : nameOf x = name
  fields : List.Forall₂ (fun m y => FieldDecl m.memberName (.named m.typeName) y) inventory.mounts
    (part x .fields)
  classes : List.Forall₂ (MountCode t inventory) inventory.mounts (part x .classes)
  methods : ∃ sites construct init renew reset read write,
    sites.map Prod.fst = inventory.mounts
    ∧ (∀ s ∈ sites, t.Declares s.2 s.1.memberName (.named s.1.typeName))
    ∧ part x .methods = [construct, init, renew, reset, read, write]
    ∧ MethodCode name ctorSig (assembleBody sites) construct
    ∧ HookCode "Init" init ∧ HookCode "Reset" renew
    ∧ MethodCode "IPeripheral.Reset" {} (renewBody sites) reset
    ∧ ReadDispatchCode t sites read ∧ WriteDispatchCode t sites write

/-- A method without parameters is planted. -/
theorem method_run (hm : t.Mutual) (name : String) (sig : MethodSig) (body : List Sketch)
    (hbody : ∀ stock, ∀ s ∈ body, Idle t.typeAt stock t.Known s) :
    ∃ (t' : Tree) (x : Planted), (Sketch.method name sig [] body).plant t = (.ok x.tag, t')
      ∧ Yields t t' [] [[x]] ∧ MethodCode name sig body x.shape := by
  obtain ⟨stock, t', x, -, hrun, hy, hx⟩ := Sketch.plant_node (.method name sig [] body)
    (Tree.stock_nil hm)
    (show [] = (([] : List NodeId) ++ Sketch.usesList body).map some by
      rw [Sketch.usesList_idle (hbody fun _ => [])]
      rfl)
    (fun stock _ => ⟨trivial, Sketch.fitsList_idle (hbody stock)⟩) fun _ => rfl
  have hshape := (List.cons.inj hx).1
  refine ⟨t', x, hrun, hy, ?_⟩
  rw [← hshape]
  exact methodShape_code t.typeAt stock ..

/-- A method the user may give a body is planted. -/
theorem hook_run (hm : t.Mutual) (name : String) :
    ∃ (t' : Tree) (x : Planted), (userHook name).plant t = (.ok x.tag, t')
      ∧ Yields t t' [] [[x]] ∧ HookCode name x.shape := by
  obtain ⟨t', x, hrun, hy, hcode⟩ := method_run hm name hookSig [] fun _ _ hs => nomatch hs
  exact ⟨t', x, hrun, hy, hcode.kind_eq, hcode.name_eq, hcode.params⟩

theorem assembleBody_idle {sites : List Site} (h : ∀ s ∈ sites, known s.2) :
    ∀ e ∈ assembleBody sites, Idle types stock known e := by
  intro e he
  rcases List.mem_append.1 he with he | he
  · obtain ⟨s, hs, rfl⟩ := List.mem_map.1 he
    exact (plain_use (h s hs)).assign ⟨trivial, rfl, rfl⟩
  · exact List.mem_singleton.1 he ▸ invoke_idle "Init"

theorem renewBody_idle {sites : List Site} (h : ∀ s ∈ sites, known s.2) :
    ∀ e ∈ renewBody sites, Idle types stock known e := by
  intro e he
  rcases List.mem_append.1 he with he | he
  · obtain ⟨s, hs, rfl⟩ := List.mem_map.1 he
    exact ⟨⟨h s hs, trivial⟩, rfl⟩
  · exact List.mem_singleton.1 he ▸ invoke_idle "Reset"

/-- A class is planted over its members. -/
theorem classDecl_run (name : String) (sig : ClassSig) {decls methods holders : List Planted}
    (hs : Stock t ((decls ++ methods ++ holders).map fun x => [x])) :
    ∃ (t' : Tree) (x : Planted),
      (Sketch.classDecl name sig ((decls.map Term.tag).map .node) [] ((methods.map Term.tag).map .node)
        ((holders.map Term.tag).map .node)).plant t = (.ok x.tag, t')
      ∧ Yields t t' (tagsOf ((decls ++ methods ++ holders).map fun x => [x])) [[x]]
      ∧ x.shape.kind = .classDecl sig ∧ nameOf x.shape = name
      ∧ part x.shape .fields = decls.map Term.shape
      ∧ part x.shape .methods = methods.map Term.shape
      ∧ part x.shape .classes = holders.map Term.shape := by
  have huses : (Sketch.classDecl name sig ((decls.map Term.tag).map .node) []
      ((methods.map Term.tag).map .node) ((holders.map Term.tag).map .node)).uses
      = decls.map Term.tag ++ methods.map Term.tag ++ holders.map Term.tag := by
    show ((Sketch.usesList _ ++ []) ++ Sketch.usesList _) ++ Sketch.usesList _ = _
    rw [Sketch.usesList_nodes, Sketch.usesList_nodes, Sketch.usesList_nodes, List.append_nil]
  have hheads : ((decls ++ methods ++ holders).map fun x => [x]).map (headOr none)
      = (decls.map Term.tag ++ methods.map Term.tag ++ holders.map Term.tag).map some := by
    simp only [List.map_append, List.map_map]
    rfl
  obtain ⟨stock, t', x, hstock, hrun, hy, hx⟩ := Sketch.plant_node _ hs
    (hheads.trans (congrArg (List.map some) huses.symm))
    (fun stock _ => ⟨Sketch.fitsList_nodes .., trivial, Sketch.fitsList_nodes ..,
      Sketch.fitsList_nodes ..⟩) fun _ => rfl
  have hshape := (List.cons.inj hx).1
  rw [huses] at hstock
  simp only [List.map_append] at hstock
  obtain ⟨hfront, hholders⟩ := List.append_inj hstock (by simp)
  obtain ⟨hdecls, hmethods⟩ := List.append_inj hfront (by simp)
  refine ⟨t', x, hrun, hy, ?_⟩
  rw [← hshape]
  exact ⟨rfl, rfl, codeList_stock hdecls, codeList_stock hmethods, codeList_stock hholders⟩

/-- The sites of members that were built for mounts. -/
def builtSites (ms : List Mount) (bs : List Built) : List Site :=
  (ms.zip bs).map fun p => (p.1, p.2.decl.tag)

theorem builtSites_declares {ms : List Mount} {bs : List Built}
    (h : List.Forall₂ (MemberCode t inventory) ms bs) :
    ∀ s ∈ builtSites ms bs, t.Declares s.2 s.1.memberName (.named s.1.typeName) := by
  intro s hs
  obtain ⟨p, hp, rfl⟩ := List.mem_map.1 hs
  exact ((List.forall₂_iff_zip.1 h).2 hp).declares

theorem builtSites_mounts {ms : List Mount} {bs : List Built}
    (h : List.Forall₂ (MemberCode t inventory) ms bs) :
    (builtSites ms bs).map Prod.fst = ms := by
  unfold builtSites
  rw [List.map_map]
  exact List.map_fst_zip (Nat.le_of_eq h.length_eq)

/-- The members that were built for mounts. -/
def builtMembers (ms : List Mount) (bs : List Built) : List Member :=
  (ms.zip bs).map fun p => p.2.member p.1

/-- The nodes of members that were built, for each of their two parts. -/
theorem builtMembers_nodes {ms : List Mount} {bs : List Built} (h : bs.length ≤ ms.length) :
    (builtMembers ms bs).map (fun m => Sketch.node m.decl) = ((bs.map Built.decl).map Term.tag).map .node
      ∧ (builtMembers ms bs).map (fun m => Sketch.node m.holder)
        = ((bs.map Built.holder).map Term.tag).map .node := by
  have hbs := List.map_snd_zip h
  constructor
  all_goals
    conv_rhs => rw [← hbs]
    unfold builtMembers
    rw [List.map_map, List.map_map, List.map_map, List.map_map]
    rfl

theorem assembleMembers_eq (name : String) (ms : List Mount) (bs : List Built) :
    assembleMembers name (builtMembers ms bs)
      = .method name ctorSig [] (assembleBody (builtSites ms bs)) := by
  unfold assembleMembers assembleBody builtMembers builtSites
  rw [List.map_map, List.map_map]
  rfl

theorem resetMembers_eq (ms : List Mount) (bs : List Built) :
    resetMembers (builtMembers ms bs)
      = .method "IPeripheral.Reset" {} [] (renewBody (builtSites ms bs)) := by
  unfold resetMembers renewBody builtMembers builtSites
  rw [List.map_map, List.map_map]
  rfl

/-- The classes of the members go behind their declarations. -/
theorem chains_perm (bs : List Built) :
    (bs.flatMap Built.chains).Perm
      ((bs.map Built.decl ++ bs.map Built.holder).map fun x => [x]) := by
  have hsplit : (bs.flatMap (fun b => [[b.holder]]) ++ bs.flatMap fun b => [[b.decl]]).Perm
      (bs.flatMap Built.chains) := List.flatMap_append_perm ..
  rw [List.map_append, List.map_map, List.map_map]
  rw [← List.map_eq_flatMap, ← List.map_eq_flatMap] at hsplit
  exact hsplit.symm.trans List.perm_append_comm

/-- The members of a peripheral are drafted, those of the arrays first. -/
theorem members_run {d : Draft} (hm : d.tree.Mutual) (hs : inventory.Sized) :
    ∃ (t₁ t₂ : Tree) (journal : Journal) (bs : List Built) (arrays : List (Member × ArraySite))
      (registers : List (Member × RegisterSite)) (sites : List (Register × NodeId)),
      inventory.arrays.mapM arrayMember d.tree = (.ok arrays, t₁)
      ∧ inventory.registers.mapM (fun r => registerMember r (inventory.resetOf r)) ⟨t₁, d.journal⟩
        = (.ok registers, ⟨t₂, journal⟩)
      ∧ arrays.map (·.1) ++ registers.map (·.1) = builtMembers inventory.mounts bs
      ∧ registers.map (·.2) = sites.map registerSite
      ∧ sitesOf (arrays.map (·.2)) sites = builtSites inventory.mounts bs
      ∧ Yields d.tree t₂ [] (bs.flatMap Built.chains) ∧ HoleFreeIn (bs.flatMap Built.chains)
      ∧ List.Forall₂ (MemberCode t₂ inventory) inventory.mounts bs := by
  obtain ⟨t₁, bs₁, harrays, hy₁, hbs₁⟩ := arrayMembers_run inventory hm inventory.arrays hs.arrays
  obtain ⟨t₂, bs₂, journal, hregisters, hy₂, hbs₂⟩ := registerMembers_run inventory
    hy₁.stock.linked inventory.registers hs.registers d.journal
  have hzip : (inventory.arrays.map Mount.array ++ inventory.registers.map Mount.register).zip
      (bs₁ ++ bs₂) = (inventory.arrays.map Mount.array).zip bs₁
        ++ (inventory.registers.map Mount.register).zip bs₂ :=
    List.zip_append (by simpa using hbs₁.length_eq)
  refine ⟨t₁, t₂, journal, bs₁ ++ bs₂, _, _,
    (inventory.registers.zip bs₂).map fun p => (p.1, p.2.decl.tag), harrays, hregisters, ?_, ?_, ?_,
    ?_, ?_, ?_⟩
  · unfold builtMembers Inventory.mounts
    rw [hzip, List.map_append, List.zip_map_left, List.zip_map_left, List.map_map, List.map_map,
      List.map_map, List.map_map]
    rfl
  · rw [List.map_map, List.map_map]
    rfl
  · unfold sitesOf builtSites Inventory.mounts
    rw [hzip, List.map_append, List.zip_map_left, List.zip_map_left, List.map_map, List.map_map,
      List.map_map, List.map_map, List.map_map]
    rfl
  · rw [List.flatMap_append]
    exact hy₁.and hy₂
  · have hfree₁ := (Edit.holeFree_mapM holeFree_arrayMember inventory.arrays).built harrays hm hy₁
    have hfree₂ := (Drafting.holeFree_mapM
      (fun r => holeFree_registerMember r (inventory.resetOf r)) inventory.registers).built
        hregisters hy₁.stock.linked hy₂
    rw [List.flatMap_append]
    exact holeFreeIn_append.2 ⟨hfree₁, hfree₂⟩
  · refine List.rel_append ?_ ?_
    · rw [List.forall₂_map_left_iff]
      exact hbs₁.imp fun _ _ hcode => hcode.keep hy₂
    · rw [List.forall₂_map_left_iff]
      exact hbs₂

/-- The methods of a peripheral are planted. -/
theorem methods_run (hm : t.Mutual) (name : String)
    (hd : ∀ s ∈ sitesOf arrays registers, t.Known s.2) :
    ∃ (t₁ t₂ t₃ t₄ t' : Tree) (construct init renew reset read write : Planted),
      (Sketch.method name ctorSig [] (assembleBody (sitesOf arrays registers))).plant t
        = (.ok construct.tag, t₁)
      ∧ Sketch.plantList [userHook "Init", userHook "Reset"] t₁ = (.ok [init.tag, renew.tag], t₂)
      ∧ (Sketch.method "IPeripheral.Reset" {} [] (renewBody (sitesOf arrays registers))).plant t₂
        = (.ok reset.tag, t₃)
      ∧ readDispatch arrays (registers.map registerSite) t₃ = (.ok read.tag, t₄)
      ∧ writeDispatch arrays (registers.map registerSite) t₄ = (.ok write.tag, t')
      ∧ Yields t t' [] ([construct, init, renew, reset, read, write].map fun x => [x])
      ∧ HoleFreeIn ([construct, init, renew, reset, read, write].map fun x => [x])
      ∧ MethodCode name ctorSig (assembleBody (sitesOf arrays registers)) construct.shape
      ∧ HookCode "Init" init.shape ∧ HookCode "Reset" renew.shape
      ∧ MethodCode "IPeripheral.Reset" {} (renewBody (sitesOf arrays registers)) reset.shape
      ∧ ReadDispatchCode t' (sitesOf arrays registers) read.shape
      ∧ WriteDispatchCode t' (sitesOf arrays registers) write.shape := by
  obtain ⟨t₁, construct, hconstruct, hy₁, hconstructCode⟩ := method_run hm name ctorSig _
    fun stock => assembleBody_idle hd
  have hm₁ := hy₁.stock.linked
  obtain ⟨t₂, init, hinit, hy₂, hinitCode⟩ := hook_run hm₁ "Init"
  have hm₂ := hy₂.stock.linked
  obtain ⟨t₃, renew, hrenew, hy₃, hrenewCode⟩ := hook_run hm₂ "Reset"
  have hm₃ := hy₃.stock.linked
  have hhooks : Sketch.plantList [userHook "Init", userHook "Reset"] t₁
      = (.ok [init.tag, renew.tag], t₃) := (Edit.bind_run hinit).trans
    ((Edit.bind_run ((Edit.bind_run hrenew).trans rfl)).trans rfl)
  have hd₃ : ∀ s ∈ sitesOf arrays registers, t₃.Known s.2 := fun s hs =>
    known_keep (known_keep (known_keep (hd s hs) hy₁) hy₂) hy₃
  obtain ⟨t₄, reset, hreset, hy₄, hresetCode⟩ := method_run hm₃ "IPeripheral.Reset" {} _
    fun stock => renewBody_idle hd₃
  have hd₄ : ∀ s ∈ sitesOf arrays registers, t₄.Known s.2 := fun s hs => known_keep (hd₃ s hs) hy₄
  obtain ⟨t₅, read, hread, hy₅, hreadCode⟩ := readDispatch_run hy₄.stock.linked hd₄
  have hd₅ : ∀ s ∈ sitesOf arrays registers, t₅.Known s.2 := fun s hs => known_keep (hd₄ s hs) hy₅
  obtain ⟨t₆, write, hwrite, hy₆, hwriteCode⟩ := writeDispatch_run hy₅.stock.linked hd₅
  have hassemble : Sketch.listIsHoleFree (assembleBody (sitesOf arrays registers)) = true :=
    holeFree_append (holeFree_map _ fun _ => rfl) rfl
  have hrenewal : Sketch.listIsHoleFree (renewBody (sitesOf arrays registers)) = true :=
    holeFree_append (holeFree_map _ fun _ => rfl) rfl
  have hfree₁ := (Sketch.holeFree_plant (.method name ctorSig [] _)
    (holeFree_method _ _ rfl hassemble)).built hconstruct hm hy₁
  have hfree₂ := (Sketch.holeFree_plant (userHook "Init") rfl).built hinit hm₁ hy₂
  have hfree₃ := (Sketch.holeFree_plant (userHook "Reset") rfl).built hrenew hm₂ hy₃
  have hfree₄ := (Sketch.holeFree_plant (.method "IPeripheral.Reset" {} [] _)
    (holeFree_method _ _ rfl hrenewal)).built hreset hm₃ hy₄
  have hfree₅ : HoleFreeIn [[read]] := holeFreeIn_singleton.2 <|
    hreadCode.holeFree (hy₅.stock.stands (List.cons_ne_nil _ _)).full_shape
  have hfree₆ : HoleFreeIn [[write]] := holeFreeIn_singleton.2 <|
    hwriteCode.holeFree (hy₆.stock.stands (List.cons_ne_nil _ _)).full_shape
  have hfree : HoleFreeIn ([[construct]] ++ [[init]] ++ [[renew]] ++ [[reset]] ++ [[read]]
      ++ [[write]]) := by
    simp only [holeFreeIn_append]
    exact ⟨⟨⟨⟨⟨hfree₁, hfree₂⟩, hfree₃⟩, hfree₄⟩, hfree₅⟩, hfree₆⟩
  obtain ⟨offset, ho, hguards⟩ := hreadCode
  exact ⟨t₁, t₃, t₄, t₅, t₆, construct, init, renew, reset, read, write, hconstruct, hhooks, hreset,
    hread, hwrite, ((((hy₁.and hy₂).and hy₃).and hy₄).and hy₅).and hy₆, hfree, hconstructCode,
    hinitCode, hrenewCode, hresetCode, ⟨offset, ho.keep hy₆, hguards⟩, hwriteCode⟩

/-- The class of a peripheral is drafted. -/
theorem peripheralClass_run {d : Draft} (hm : d.tree.Mutual) (hs : inventory.Sized)
    (c : Config) :
    ∃ (t' : Tree) (x : Planted) (journal : Journal),
      peripheralClass inventory c d = (.ok x.tag, ⟨t', journal⟩) ∧ Yields d.tree t' [] [[x]]
      ∧ x.shape.HoleFree ∧ PeripheralCode t' inventory (c.className inventory.name) x.shape := by
  obtain ⟨t₁, t₂, journal, bs, as, rs, sites, harrays, hregisters, hmembers, hsites, hbuilt, hy₂,
    hfree₂, hcodes⟩ := members_run hm hs
  have hdeclares := builtSites_declares hcodes
  rw [← hbuilt] at hdeclares
  obtain ⟨t₃, t₄, t₅, t₆, t₇, construct, init, renew, reset, read, write, hconstruct, hhooks,
    hreset, hread, hwrite, hy₇, hfree₇, hconstructCode, hinitCode, hrenewCode, hresetCode, hreadCode,
    hwriteCode⟩ := methods_run hy₂.stock.linked (c.className inventory.name)
      fun s hs => (hdeclares s hs).known
  obtain ⟨methods, hmethods⟩ : ∃ l, l = [construct, init, renew, reset, read, write] := ⟨_, rfl⟩
  rw [← hmethods] at hy₇ hfree₇
  -- the classes of the members go behind everything else
  have hperm : (bs.flatMap Built.chains ++ methods.map fun x => [x]).Perm
      ((bs.map Built.decl ++ methods ++ bs.map Built.holder).map fun x => [x]) := by
    refine ((chains_perm bs).append_right _).trans ?_
    simp only [List.map_append, List.append_assoc]
    exact List.perm_append_comm.append_left _
  have hall := (hy₂.and hy₇).perm hperm
  obtain ⟨t₈, x, hclass, hy₈, hkind, hname, hfields, hparts, hclasses⟩ :=
    classDecl_run (c.className inventory.name)
      { derives := interfaces.map fun type => (none, type), access := some .pub
        modifiers := { isPartial := true } } hall.stock
  have hnodes := Sketch.listIsHoleFree_nodes
  have hfree := (Sketch.holeFree_plant (.classDecl _ _ _ [] _ _)
    (holeFree_classDecl _ _ (hnodes _) rfl (hnodes _) (hnodes _))).yields hclass hy₈ hall.stock
      fun c hc => holeFreeIn_append.2 ⟨hfree₂, hfree₇⟩ c (hperm.mem_iff.2 hc)
  obtain ⟨journal', hrun⟩ : ∃ journal',
      peripheralClass inventory c d = (.ok x.tag, ⟨t₈, journal'⟩) := by
    obtain ⟨hdecls, hholders⟩ := builtMembers_nodes (Nat.le_of_eq hcodes.length_eq.symm)
    rw [hbuilt, ← assembleMembers_eq] at hconstruct
    rw [hbuilt, ← resetMembers_eq] at hreset
    rw [hmethods, ← hdecls, ← hholders] at hclass
    apply Exists.intro
    unfold peripheralClass
    dsimp only
    rw [Drafting.bind_run (Drafting.ofEdit_run harrays), Drafting.bind_run hregisters, hmembers,
      hsites, Drafting.bind_run (Drafting.ofEdit_run hconstruct),
      Drafting.bind_run (Drafting.ofEdit_run hhooks), Drafting.bind_run (Drafting.ofEdit_run hreset),
      Drafting.bind_run (Drafting.ofEdit_run hread), Drafting.bind_run (Drafting.ofEdit_run hwrite),
      Drafting.bind_run (Drafting.note_run ..)]
    exact Drafting.ofEdit_run hclass
  refine ⟨t₈, x, journal', hrun, hall.trans hy₈,
    holeFreeIn_singleton.1 hfree, ⟨_, hkind⟩, hname, ?_, ?_,
    sitesOf (as.map (·.2)) sites, construct.shape, init.shape, renew.shape, reset.shape, read.shape,
    write.shape, hbuilt ▸ builtSites_mounts hcodes, fun s hs => ((hdeclares s hs).keep hy₇).keep hy₈,
    ?_, hconstructCode, hinitCode, hrenewCode, hresetCode, ?_, ?_⟩
  · rw [hfields, List.map_map, List.forall₂_map_right_iff]
    exact hcodes.imp fun _ _ hcode => hcode.field
  · rw [hclasses, List.map_map, List.forall₂_map_right_iff]
    exact hcodes.imp fun _ _ hcode => (hcode.holder.keep hy₇).keep hy₈
  · rw [hparts, hmethods]
    rfl
  · obtain ⟨offset, ho, hcode⟩ := hreadCode
    exact ⟨offset, ho.keep hy₈, hcode⟩
  · obtain ⟨offset, value, ho, hv, hcode⟩ := hwriteCode
    exact ⟨offset, value, ho.keep hy₈, hv.keep hy₈, hcode⟩

end Peripheral

end RegisterMap
