/-
The methods that pass accesses on, run. A guard evaluates to whether its
mount covers the offset (`guard_gives`), so a list of guards does what the
first mount does that covers it, and nothing where there is none
(`guards_run`). With that, the peripheral answers an access as the member
does that the access goes to (`PeripheralCode.routed_serves`).
-/
import RegisterMap.Proofs.Peripheral.Members

namespace RegisterMap.Peripheral

open Code Exec

variable {ctx : Context} {s s' : Store} {types : NodeId → TypeRef} {stock : NodeId → List Shape}
  {decl offset value : NodeId} {m : Mount} {o v : Nat} {object : Ref} {heap : Heap} {w : Value}

-- =============================================================== guards

theorem address_gives (types : NodeId → TypeRef) (stock : NodeId → List Shape) {address : Nat}
    (h : address < 2 ^ 63) :
    Gives ctx s ((addressLit address).code types stock) (.long, some address)
      (.int .long address) := gives_literal true h

/-- The end of an array. Where the array starts at zero, only its size is
left of the sum. -/
theorem end_gives (types : NodeId → TypeRef) (stock : NodeId → List Shape) {a : RegisterArray}
    {path : List String} {r : Ref} (hend : a.address + a.count * a.stride < 2 ^ 63)
    (hsees : Sees ctx s decl (.ref object)) (hobj : s.heap[object]? = some (ownerCell path r))
    (hserve : ctx.service.serve object (.get "Size") s.heap
      = .ok (.int .long (a.count * a.stride : Nat), s.heap)) :
    ∃ f, Gives ctx s ((Sketch.binary .add (addressLit a.address)
      (.member (.use decl) "Size" .long)).code types stock) f
      (.int .long (a.address + a.count * a.stride : Nat)) := by
  have hsize : Gives ctx s ((Sketch.member (.use decl) "Size" .long).code types stock) _ _ :=
    gives_property (gives_use (types decl) hsees) hobj rfl hserve
  have hstart : Gives ctx s ((addressLit a.address).code types stock) _ _ :=
    address_gives types stock (Nat.lt_of_le_of_lt (Nat.le_add_right ..) hend)
  by_cases h0 : a.address = 0
  · rw [h0] at hstart ⊢
    rw [Nat.zero_add]
    exact ⟨_, hstart.right _ hsize rfl⟩
  · have hsurv : survives .add (.long, some a.address) (.long, none) = none :=
      (if_neg fun he => h0 (Option.some.inj he)).trans (if_neg nofun)
    exact ⟨_, hstart.binary _ hsize hsurv nofun nofun
      (operate_arith (fun _ => by decide) nofun rfl rfl rfl (Operator.arith_add hend))⟩

/-- A guard holds where its mount covers the offset. -/
theorem guard_gives (types : NodeId → TypeRef) (stock : NodeId → List Shape) (hm : m.Sound)
    (hoffset : Sees ctx s offset (.int .long o)) (hsees : Sees ctx s decl (.ref object))
    (hobj : ∃ path r, s.heap[object]? = some (ownerCell path r))
    (hserve : ∀ a, m = .array a → ctx.service.serve object (.get "Size") s.heap
      = .ok (.int .long (a.count * a.stride : Nat), s.heap)) :
    ∃ f, Gives ctx s ((m.guard decl offset).code types stock) f (.bool (m.covers o)) := by
  have huse := gives_use (types offset) hoffset
  cases m with
  | array a =>
    have hend : a.address + a.count * a.stride < 2 ^ 63 := hm.2.2.1
    obtain ⟨path, r, hcell⟩ := hobj
    obtain ⟨f, hbehind⟩ := end_gives types stock hend hsees hcell (hserve a rfl)
    have hstart : Gives ctx s ((addressLit a.address).code types stock) _ _ :=
      address_gives types stock (Nat.lt_of_le_of_lt (Nat.le_add_right ..) hend)
    have hfrom := gives_compare .gte (Operator.gte.typeOver (types offset)) huse hstart
      (t := .long) (by decide) rfl rfl
    have hbelow := gives_compare .lt (Operator.lt.typeOver (types offset)) huse hbehind
      (t := .long) (by decide) rfl rfl
    have hboth := gives_connective .bool (Or.inl ⟨rfl, rfl⟩) hfrom hbelow
    have hcovers : (decide ((a.address : Int) ≤ o)
        && decide ((o : Int) < (a.address + a.count * a.stride : Nat))) = (Mount.array a).covers o :=
      congrArg₂ and (decide_eq_decide.2 Int.ofNat_le) (decide_eq_decide.2 Int.ofNat_lt)
    rw [hcovers] at hboth
    exact ⟨_, hboth⟩
  | register r =>
    have haddress : Gives ctx s ((addressLit r.address).code types stock) _ _ :=
      address_gives types stock hm.2.1
    have hat := gives_compare .eq (Operator.eq.typeOver (types offset)) huse haddress
      (t := .long) (by decide) rfl rfl
    have hcovers : ((o : Int) == r.address) = (Mount.register r).covers o := by
      unfold Mount.covers
      rw [Bool.eq_iff_iff, beq_iff_eq, beq_iff_eq, Int.ofNat_inj]
    rw [hcovers] at hat
    exact ⟨_, hat⟩

/-- Guards do what is behind the first that holds. -/
theorem guards_run {α : Type} {condition : α → Sketch} {body : α → List Sketch} {holds : α → Bool}
    {sites : List α} {guards : List Shape}
    (hcode : List.Forall₂ (fun s c => GuardCode (condition s) (body s) c) sites guards)
    (hcond : ∀ a ∈ sites, ∀ types stock, ∃ f,
      Gives ctx s ((condition a).code types stock) f (.bool (holds a))) :
    (sites.find? holds = none → Runs ctx guards s s)
      ∧ ∀ a w s', sites.find? holds = some a →
        (∀ types stock, Returns ctx (Sketch.codeList types stock (body a)).flatten s w s') →
        Returns ctx guards s w s' := by
  induction hcode with
  | nil => exact ⟨fun _ => runs_nil s, nofun⟩
  | @cons a c sites guards hc _ ih =>
    obtain ⟨types, stock, types', stock', rfl⟩ := hc
    obtain ⟨f, hgives⟩ := hcond a (List.mem_cons_self ..) types stock
    have hrest := ih fun b hb => hcond b (List.mem_cons_of_mem _ hb)
    cases ha : holds a with
    | true =>
      rw [ha] at hgives
      rw [List.find?_cons_of_pos ha]
      refine ⟨nofun, fun b w s' hb hbody => ?_⟩
      obtain rfl := Option.some.inj hb
      exact (returns_branch hgives (hbody types' stock')).append guards
    | false =>
      rw [ha] at hgives
      rw [List.find?_cons_of_neg (by rw [ha]; exact Bool.false_ne_true)]
      exact ⟨fun hnone => (runs_guard hgives).append (hrest.1 hnone),
        fun b w s' hb hbody => (runs_guard hgives).returns (hrest.2 b w s' hb hbody)⟩

-- =============================================================== bodies

/-- The position that a member is told. -/
theorem position_passes (types : NodeId → TypeRef) (stock : NodeId → List Shape) (hm : m.Sound)
    (hcovers : m.covers o = true) (hoffset : Sees ctx s offset (.int .long o)) :
    List.Forall₂ (Passes ctx s) (Sketch.codeList types stock (m.position decl offset))
      (m.arguments o) := by
  have huse := gives_use (types offset) hoffset
  cases m with
  | register r => exact .nil
  | array a =>
    have hbounds : a.address ≤ o ∧ o < a.address + a.count * a.stride := by
      simpa [Mount.covers] using hcovers
    have hend : a.address + a.count * a.stride < 2 ^ 63 := hm.2.2.1
    have hstart : Gives ctx s ((addressLit a.address).code types stock) _ _ :=
      address_gives types stock (Nat.lt_of_le_of_lt (Nat.le_add_right ..) hend)
    refine .cons ⟨rfl, ?_⟩ .nil
    show ∃ f, Gives ctx s _ f (.int .long (o - a.address : Nat)) ∧ f.2.isSome = false
    by_cases h0 : a.address = 0
    · have hsurv : survives .sub (types offset, none) (.long, some a.address) = some true :=
        if_pos (congrArg some h0)
      have hsame : o - a.address = o := by rw [h0, Nat.sub_zero]
      rw [hsame]
      exact ⟨_, huse.left _ hstart hsurv, rfl⟩
    · have hsurv : survives .sub (types offset, none) (.long, some a.address) = none :=
        if_neg fun he => h0 (Option.some.inj he)
      exact ⟨_, huse.binary _ hstart hsurv nofun nofun (operate_arith nofun (fun _ => by decide) rfl
        rfl rfl (Operator.arith_sub hbounds.1 (Nat.lt_trans hbounds.2 hend))), rfl⟩

section Bodies

variable (hm : m.Sound) (hcovers : m.covers o = true) (hoffset : Sees ctx s offset (.int .long o))
  (hsees : Sees ctx s decl (.ref object))

include hm hcovers hoffset hsees

/-- A read is passed on to a member. -/
theorem readBody_returns (types : NodeId → TypeRef) (stock : NodeId → List Shape)
    (hret : ctx.returns = some .uint) {n : Nat}
    (hserve : ctx.service.serve object (m.request (.read o)) s.heap = .ok (.int .uint n, heap)) :
    Returns ctx (Sketch.codeList types stock (m.readBody decl offset)).flatten s (.int .uint n)
      { s with heap } :=
  (does_call (gives_use (types decl) hsees) (position_passes types stock hm hcovers hoffset)
    hserve).returns hret rfl

/-- A write is passed on to a member, and the method ends. -/
theorem writeBody_returns (types : NodeId → TypeRef) (stock : NodeId → List Shape)
    (hret : ctx.returns = none) (hvalue : Sees ctx s value (.int .uint v))
    (hserve : ctx.service.serve object (m.request (.write o v)) s.heap = .ok (.nothing, heap)) :
    Returns ctx (Sketch.codeList types stock (m.writeBody decl offset value)).flatten s .nothing
      { s with heap } := by
  have hargs : List.Forall₂ (Passes ctx s)
      (Sketch.codeList types stock (m.position decl offset ++ [.use value]))
      (m.arguments o ++ [⟨.int .uint v, false⟩]) := by
    rw [codeList_append]
    exact List.rel_append (position_passes types stock hm hcovers hoffset)
      (.cons ⟨rfl, _, gives_use (types value) hvalue, rfl⟩ .nil)
  have hcall : Does ctx s [.above (.call m.writeName none)
      [(Sketch.use decl).code types stock, ((Sketch.codeList types stock
        (m.position decl offset ++ [.use value])).map asArgument).flatten]] _ _ :=
    does_call (gives_use (types decl) hsees) hargs hserve
  exact hcall.runs.returns (returns_nothing hret)

end Bodies

-- ============================================================= requests

variable {p : Program} {service : Service} {root : Ref} {path : List String} {t : Tree}
  {inventory : Inventory} {x y : Shape} {allPublic : Bool} {name called : String}
  {sites : List Site} {locals : Variables} {depth : Nat} {heap' : Heap} {access : BusAccess}

/-- A body goes on behind what leaves everything as it was. -/
theorem runBody_append {c d : List Shape}
    (h : Runs ctx c { heap, locals } { heap, locals }) :
    runBody ctx (denote (c ++ d)) locals heap = runBody ctx (denote d) locals heap := by
  unfold runBody
  rw [h.append_eq d]

/-- A request for a method that passes accesses on. -/
theorem DispatchCode.serves {sig : MethodSig} {params : List Shape} {body : Site → List Sketch}
    {rest : List Sketch} (args : List Operand) {holds : Site → Bool}
    (h : DispatchCode sites called sig params offset body rest y) (hx : Answers x)
    (hobj : ∃ fields, heap[root]? = some (.object path fields))
    (hpath : p.resolve path = some (x.finished allPublic)) (hmem : y ∈ part x .methods)
    (hsig : sig.ctor = false ∧ sig.bodied = true)
    (hps : ∀ q ∈ params, q.kind.isOperator = false) (hbind : bindParams params args = .ok locals)
    (hctx : ctx = { p.context service root path with returns := sig.returns })
    (hcond : ∀ s ∈ sites, ∀ types stock, ∃ f,
      Gives ctx { heap, locals } ((s.1.guard s.2 offset).code types stock) f (.bool (holds s))) :
    (∀ s w heap', sites.find? holds = some s →
        (∀ types stock, Returns ctx (Sketch.codeList types stock (body s)).flatten { heap, locals } w
          { heap := heap', locals }) →
        p.serve service root (.method called args) heap = .ok (w, heap'))
      ∧ ∀ w, sites.find? holds = none →
        (∀ types stock, runBody ctx (denote (Sketch.codeList types stock rest).flatten) locals heap
          = .ok (w, heap)) →
        p.serve service root (.method called args) heap = .ok (w, heap) := by
  obtain ⟨fields, hcell⟩ := hobj
  obtain ⟨guards, types, stock, hguards, hbody⟩ := h.body_eq
  have hserve : p.serve service root (.method called args) heap = _ := hx.serve_body hcell hpath hmem
    h.kind_eq h.name_eq hsig (h.params_eq ▸ hps) (h.params_eq ▸ hbind)
  rw [hbody, ← hctx] at hserve
  have hrun := guards_run hguards hcond
  refine ⟨fun s w heap' hs hreturns => ?_, fun w hnone hrest => ?_⟩
  · exact hserve.trans (runBody_returns ((hrun.2 s w _ hs hreturns).append _))
  · exact hserve.trans ((runBody_append (hrun.1 hnone)).trans (hrest types stock))

theorem find?_sites (hsites : sites.map Prod.fst = inventory.mounts) (o : Nat) :
    (sites.find? (·.1.covers o)).map Prod.fst = inventory.mounts.find? (·.covers o) := by
  rw [← hsites, List.find?_map]
  rfl

/-- The first mount that covers the offset stands at the first such site. -/
theorem find?_site (hsites : sites.map Prod.fst = inventory.mounts)
    (h : inventory.mounts.find? (·.covers o) = some m) :
    ∃ decl, sites.find? (·.1.covers o) = some (m, decl) ∧ (m, decl) ∈ sites
      ∧ m ∈ inventory.mounts ∧ m.covers o = true := by
  rw [← find?_sites hsites, Option.map_eq_some_iff] at h
  obtain ⟨⟨m, decl⟩, hsite, rfl⟩ := h
  have hmem := List.mem_of_find?_eq_some hsite
  exact ⟨decl, hsite, hmem, hsites ▸ List.mem_map_of_mem hmem,
    List.find?_some (p := fun s : Site => s.1.covers o) hsite⟩

/-- Code of the peripheral finds the object of a mount. -/
theorem Alive.sees (h : Alive inventory name heap root) (hm : m ∈ inventory.mounts)
    (hself : ctx.self = root) (hname : ctx.names decl = m.memberName)
    (hlocals : locals.get? m.memberName = none) :
    Sees ctx { heap, locals } decl (.ref (inventory.objectOf root m)) := by
  obtain ⟨field, hfield, hvalue⟩ := Option.map_eq_some_iff.1 (h.held m hm).field
  rw [← hvalue]
  exact sees_field (by rw [hname]; exact hlocals) (by rw [hname, hself]; exact hfield)

/-- No parameter hides a member. -/
theorem params_apart (m : Mount) {locals : Variables}
    (h : ∀ y ∈ locals, y.name = "offset" ∨ y.name = "value") : locals.get? m.memberName = none := by
  refine List.find?_eq_none.2 fun y hy he => ?_
  have hname : y.name = m.memberName := by simpa using he
  rcases h y hy with ho | hv
  · exact m.memberName_ne.1 (hname.symm.trans ho)
  · exact m.memberName_ne.2 (hname.symm.trans hv)

namespace PeripheralCode

variable (h : PeripheralCode t inventory name x) (hs : inventory.Sound)
  (hroot : p.root = x.finished allPublic) (hnames : ∀ d, d < t.size → p.names d = t.name d)
  (ha : Alive inventory name heap root)

include h hs hroot hnames ha

/-- The guards of the peripheral tell which mount covers the offset. -/
theorem guards_give (hctx : ctx.self = root ∧ ctx.names = p.names ∧ ctx.service = p.service (depth + 1))
    (hsites : sites.map Prod.fst = inventory.mounts)
    (hdeclares : ∀ s ∈ sites, t.Declares s.2 s.1.memberName (.named s.1.typeName))
    (hlocals : ∀ y ∈ locals, y.name = "offset" ∨ y.name = "value")
    (hoffset : Sees ctx { heap, locals } offset (.int .long o)) :
    ∀ s ∈ sites, ∀ types stock, ∃ f, Gives ctx { heap, locals }
      ((s.1.guard s.2 offset).code types stock) f (.bool (s.1.covers o)) := by
  intro s hmem types stock
  have hm : s.1 ∈ inventory.mounts := hsites ▸ List.mem_map_of_mem hmem
  have hd := hdeclares s hmem
  have hname : ctx.names s.2 = s.1.memberName := by
    rw [hctx.2.1, hnames s.2 hd.lt_size, hd.name_eq]
  have hobject := (ha.held s.1 hm).object
  refine guard_gives types stock (hs.mounts s.1 hm) hoffset
    (ha.sees hm hctx.1 hname (params_apart s.1 hlocals)) ⟨_, _, hobject⟩ fun a harray => ?_
  obtain ⟨y, hcode, hpath, -⟩ := h.resolve_member hs hroot hm
  have hsound := hs.mounts s.1 hm
  rw [harray] at hcode hsound
  obtain ⟨memory, hcontainer⟩ := hcode
  rw [hctx.2.2]
  exact hcontainer.size_serves hpath
    (Nat.lt_of_le_of_lt (Nat.le_add_left ..) hsound.2.2.1) hobject

/-- The peripheral answers a read. -/
theorem read_serves (depth o : Nat) :
    (∀ m n heap', inventory.mounts.find? (·.covers o) = some m →
        p.serve (p.service depth) (inventory.objectOf root m) (m.request (.read o)) heap
          = .ok (.int .uint (n : Nat), heap') →
        p.serve (p.service (depth + 1)) root (BusAccess.read o).request heap
          = .ok (.int .uint n, heap'))
      ∧ (inventory.mounts.find? (·.covers o) = none →
        p.serve (p.service (depth + 1)) root (BusAccess.read o).request heap
          = .ok (.int .uint 0, heap)) := by
  obtain ⟨sites, construct, init, renew, reset, read, write, hsites, hdeclares, hall, -, -, -, -,
    ⟨offset, ho, hcode⟩, -⟩ := h.methods
  have hmem : read ∈ part x .methods := by
    rw [hall]
    simp
  have hname : p.names offset = "offset" := (hnames offset ho.lt_size).trans ho.name_eq
  have hoffset : Sees { p.context (p.service (depth + 1)) root [name] with returns := some .uint }
      { heap, locals := [⟨"offset", .long, .int .long o⟩] } offset (.int .long o) :=
    sees_param (y := ⟨"offset", .long, .int .long o⟩) rfl hname rfl
  have hlocals : ∀ y ∈ [(⟨"offset", .long, .int .long o⟩ : Variable)],
      y.name = "offset" ∨ y.name = "value" := fun y hy => Or.inl (List.mem_singleton.1 hy ▸ rfl)
  have hguards := h.guards_give hs hroot hnames ha ⟨rfl, rfl, rfl⟩ hsites hdeclares hlocals hoffset
  have hserves := hcode.serves [⟨.int .long o, false⟩] h.answers ha.isObject (h.resolve_name hroot)
    hmem ⟨rfl, rfl⟩ (fun q hq => List.mem_singleton.1 hq ▸ rfl) rfl rfl hguards
  refine ⟨fun m n heap' hm hmember => ?_, fun hnone => ?_⟩
  · obtain ⟨decl, hsite, hin, hmount, hcovers⟩ := find?_site hsites hm
    have hd := hdeclares _ hin
    have hsees : Sees { p.context (p.service (depth + 1)) root [name] with returns := some .uint }
        { heap, locals := [⟨"offset", .long, .int .long o⟩] } decl _ :=
      ha.sees hmount rfl ((hnames decl hd.lt_size).trans hd.name_eq) (params_apart m hlocals)
    exact hserves.1 _ _ heap' hsite fun types stock =>
      readBody_returns (hs.mounts m hmount) hcovers hoffset hsees types stock rfl hmember
  · rw [← find?_sites hsites, Option.map_eq_none_iff] at hnone
    refine hserves.2 _ hnone fun types stock => ?_
    have hzero : Gives { p.context (p.service (depth + 1)) root [name] with returns := some .uint }
        { heap, locals := [⟨"offset", .long, .int .long o⟩] }
        ((Sketch.literal 0 true false false).code types stock) _ _ :=
      gives_literal (p := .uint) (n := 0) false (by decide)
    exact runBody_returns (returns_value rfl hzero rfl)

/-- The peripheral answers a write. -/
theorem write_serves (depth o v : Nat) :
    (∀ m heap', inventory.mounts.find? (·.covers o) = some m →
        p.serve (p.service depth) (inventory.objectOf root m) (m.request (.write o v)) heap
          = .ok (.nothing, heap') →
        p.serve (p.service (depth + 1)) root (BusAccess.write o v).request heap
          = .ok (.nothing, heap'))
      ∧ (inventory.mounts.find? (·.covers o) = none →
        p.serve (p.service (depth + 1)) root (BusAccess.write o v).request heap
          = .ok (.nothing, heap)) := by
  obtain ⟨sites, construct, init, renew, reset, read, write, hsites, hdeclares, hall, -, -, -, -, -,
    ⟨offset, value, ho, hv, hcode⟩⟩ := h.methods
  have hmem : write ∈ part x .methods := by
    rw [hall]
    simp
  have hname : p.names offset = "offset" := (hnames offset ho.lt_size).trans ho.name_eq
  have hname' : p.names value = "value" := (hnames value hv.lt_size).trans hv.name_eq
  have hoffset : Sees { p.context (p.service (depth + 1)) root [name] with returns := none }
      { heap, locals := [⟨"offset", .long, .int .long o⟩, ⟨"value", .uint, .int .uint v⟩] } offset
      (.int .long o) := sees_param (y := ⟨"offset", .long, .int .long o⟩) rfl hname rfl
  have hvalue : Sees { p.context (p.service (depth + 1)) root [name] with returns := none }
      { heap, locals := [⟨"offset", .long, .int .long o⟩, ⟨"value", .uint, .int .uint v⟩] } value
      (.int .uint v) := sees_param (y := ⟨"value", .uint, .int .uint v⟩) rfl hname' rfl
  have hlocals : ∀ y ∈ [(⟨"offset", .long, .int .long o⟩ : Variable),
      ⟨"value", .uint, .int .uint v⟩], y.name = "offset" ∨ y.name = "value" := by
    intro y hy
    simp only [List.mem_cons, List.not_mem_nil, or_false] at hy
    rcases hy with rfl | rfl
    · exact Or.inl rfl
    · exact Or.inr rfl
  have hguards := h.guards_give hs hroot hnames ha ⟨rfl, rfl, rfl⟩ hsites hdeclares hlocals hoffset
  have hps : ∀ q ∈ [paramShape "offset" .long, paramShape "value" .uint],
      q.kind.isOperator = false := by
    intro q hq
    simp only [List.mem_cons, List.not_mem_nil, or_false] at hq
    rcases hq with rfl | rfl <;> rfl
  have hserves := hcode.serves [⟨.int .long o, false⟩, ⟨.int .uint v, false⟩] h.answers ha.isObject
    (h.resolve_name hroot) hmem ⟨rfl, rfl⟩ hps rfl rfl hguards
  refine ⟨fun m heap' hm hmember => ?_, fun hnone => ?_⟩
  · obtain ⟨decl, hsite, hin, hmount, hcovers⟩ := find?_site hsites hm
    have hd := hdeclares _ hin
    have hsees : Sees { p.context (p.service (depth + 1)) root [name] with returns := none }
        { heap, locals := [⟨"offset", .long, .int .long o⟩, ⟨"value", .uint, .int .uint v⟩] } decl _ :=
      ha.sees hmount rfl ((hnames decl hd.lt_size).trans hd.name_eq) (params_apart m hlocals)
    exact hserves.1 _ _ heap' hsite fun types stock =>
      writeBody_returns (hs.mounts m hmount) hcovers hoffset hsees types stock rfl hvalue hmember
  · rw [← find?_sites hsites, Option.map_eq_none_iff] at hnone
    exact hserves.2 _ hnone fun types stock => rfl

/-- An access that is routed to a mount is what its member is asked for. -/
theorem routed_serves {v : Value} (hroute : inventory.Routes access.offset m)
    (hmember : p.serve (p.service depth) (inventory.objectOf root m) (m.request access) heap
      = .ok (v, heap')) (hanswers : access.Answers v) :
    p.serve (p.service (depth + 1)) root access.request heap = .ok (v, heap') := by
  have hfind := hs.routes_iff.1 hroute
  cases access with
  | read offset =>
    obtain ⟨n, rfl⟩ := hanswers
    exact (h.read_serves hs hroot hnames ha depth offset).1 m n heap' hfind hmember
  | write offset value =>
    obtain rfl := hanswers
    exact (h.write_serves hs hroot hnames ha depth offset value).1 m heap' hfind hmember

/-- An access that is routed nowhere changes nothing. -/
theorem unmapped_serves (depth : Nat) (hroute : ∀ m, ¬inventory.Routes access.offset m) :
    p.serve (p.service (depth + 1)) root access.request heap = .ok (access.unmapped, heap) := by
  have hfind := hs.not_routes_iff.1 hroute
  cases access with
  | read offset => exact (h.read_serves hs hroot hnames ha depth offset).2 hfind
  | write offset value => exact (h.write_serves hs hroot hnames ha depth offset value).2 hfind

end PeripheralCode

end RegisterMap.Peripheral
