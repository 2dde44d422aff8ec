/-
The assembled peripheral. Its class is housed in nested namespaces
(`Houses`), and the rewriting finishes the class where it stands, so the
program that is written out is the finished class (`assemble_run`).
-/
import RegisterMap.Proofs.Peripheral.PeripheralCode
import RegisterMap.Proofs.Peripheral.RegisterAccess

namespace RegisterMap.Peripheral

open Code Exec
open Code.Tree (Stock Yields)

variable {t t' : Tree} {inventory : Inventory} {c x : Shape} {path : List String}

/-- The class stands alone in the innermost of nested namespaces, whose
names are given outermost first. -/
inductive Houses (c : Shape) : List String → Shape → Prop
  | home {name : String} {x : Shape} : x.kind = .namespaceDecl → nameOf x = name →
    part x .classes = [c] → Houses c [name] x
  | nested {name : String} {path : List String} {x y : Shape} : x.kind = .namespaceDecl →
    nameOf x = name → part x .namespaces = [y] → Houses c path y → Houses c (name :: path) x

theorem Houses.kind_eq (h : Houses c path x) : x.kind = .namespaceDecl := by
  cases h <;> assumption

/-- The rewriting of the namespaces is the rewriting of the class. -/
theorem Houses.finished (h : Houses c path x) (hc : c.kind.isOperator = false) (allPublic : Bool) :
    Houses (c.finished allPublic) path (x.finished allPublic) := by
  have hpart : ∀ {x y : Shape} {s : Slot}, x.kind = .namespaceDecl → part x s = [y] →
      y.kind.isOperator = false → part (x.finished allPublic) s = [y.finished allPublic] := by
    intro x y s hk hs hy
    rw [part_finished (by rw [hk]; rfl) (by rw [hk]; rfl) fun z hz => ?_, hs]
    · rfl
    · rw [hs] at hz
      exact List.mem_singleton.1 hz ▸ hy
  have hkind : ∀ {x : Shape}, x.kind = .namespaceDecl → (x.finished allPublic).kind = .namespaceDecl := by
    intro x hk
    rw [kind_finished, hk]
    cases allPublic <;> rfl
  induction h with
  | home hk hname hclasses =>
    exact .home (hkind hk) ((nameOf_finished _).trans hname) (hpart hk hclasses hc)
  | nested hk hname hinner h ih =>
    exact .nested (hkind hk) ((nameOf_finished _).trans hname)
      (hpart hk hinner (by rw [h.kind_eq]; rfl)) ih

/-- A namespace is planted over its members. -/
theorem namespace_run (name : String) (classes inner : List Planted)
    (hs : Stock t ((classes ++ inner).map fun x => [x])) :
    ∃ (t' : Tree) (x : Planted),
      (Sketch.namespaceDecl name ((classes.map Term.tag).map .node)
        ((inner.map Term.tag).map .node)).plant t = (.ok x.tag, t')
      ∧ Yields t t' (tagsOf ((classes ++ inner).map fun x => [x])) [[x]]
      ∧ x.shape.kind = .namespaceDecl ∧ nameOf x.shape = name
      ∧ part x.shape .classes = classes.map Term.shape
      ∧ part x.shape .namespaces = inner.map Term.shape := by
  have huses : (Sketch.namespaceDecl name ((classes.map Term.tag).map .node)
      ((inner.map Term.tag).map .node)).uses = classes.map Term.tag ++ inner.map Term.tag := by
    show Sketch.usesList _ ++ Sketch.usesList _ = _
    rw [Sketch.usesList_nodes, Sketch.usesList_nodes]
  have hheads : ((classes ++ inner).map fun x => [x]).map (headOr none)
      = (classes.map Term.tag ++ inner.map Term.tag).map some := by
    simp only [List.map_append, List.map_map]
    rfl
  obtain ⟨stock, t', x, hstock, hrun, hy, hx⟩ := Sketch.plant_node _ hs
    (hheads.trans (congrArg (List.map some) huses.symm))
    (fun stock _ => ⟨Sketch.fitsList_nodes .., Sketch.fitsList_nodes ..⟩) fun _ => rfl
  have hshape := (List.cons.inj hx).1
  rw [huses] at hstock
  simp only [List.map_append] at hstock
  obtain ⟨hclasses, hinner⟩ := List.append_inj hstock (by simp)
  refine ⟨t', x, hrun, hy, ?_⟩
  rw [← hshape]
  exact ⟨rfl, rfl, codeList_stock hclasses, codeList_stock hinner⟩

/-- Namespaces are planted around what is housed already. -/
theorem nest_run (names : List String) {y : Planted} (hs : Stock t [[y]]) (h : Houses c path y.shape) :
    ∃ (t' : Tree) (x : Planted), names.foldlM (fun inner name =>
        (Sketch.namespaceDecl name [] [.node inner]).plant) y.tag t = (.ok x.tag, t')
      ∧ Yields t t' (tagsOf [[y]]) [[x]] ∧ Houses c (names.reverse ++ path) x.shape := by
  induction names generalizing t y path with
  | nil => exact ⟨t, y, rfl, hs.yields_refl, h⟩
  | cons name names ih =>
    obtain ⟨t₁, z, hrun₁, hy₁, hkind, hname, -, hinner⟩ := namespace_run name [] [y] hs
    obtain ⟨t₂, x, hrun₂, hy₂, hhouses⟩ := ih hy₁.stock (.nested hkind hname hinner h)
    refine ⟨t₂, x, ?_, hy₁.trans hy₂, ?_⟩
    · rw [List.foldlM_cons]
      exact (Edit.bind_run hrun₁).trans hrun₂
    · rwa [List.reverse_cons, List.append_assoc]

/-- The steps of an assembly, one after the other. -/
theorem assemble_of_runs {d d' : Draft} {t₁ t₂ t₃ : Tree} {journal : Journal} {c : Config}
    {innermost : String} {peripheral home root : NodeId} (hlast : c.path.getLast? = some innermost)
    (hclass : peripheralClass inventory c d = (.ok peripheral, ⟨t₁, journal⟩))
    (hhome : (Sketch.namespaceDecl innermost [.node peripheral] []).plant t₁ = (.ok home, t₂))
    (hnest : nest c.path.dropLast home t₂ = (.ok root, t₃))
    (hrewrite : Drafting.rewrite root c.allPublic ⟨t₃, journal⟩ = (.ok (), d')) :
    assemble inventory c d = (.ok { root, home, peripheral }, d') := by
  unfold assemble
  rw [hlast]
  dsimp only
  rw [Drafting.bind_run hclass, Drafting.bind_run (Drafting.ofEdit_run hhome),
    Drafting.bind_run (Drafting.ofEdit_run hnest), Drafting.bind_run hrewrite]
  rfl

/-- A peripheral is assembled: its class is finished, in the namespaces
that were asked for. -/
theorem assemble_run {d : Draft} (linked : d.tree.Mutual) (hs : inventory.Sized) (c : Config)
    (housed : c.path ≠ []) :
    ∃ assembly d' t x, assemble inventory c d = (.ok assembly, d')
      ∧ PeripheralCode t inventory (c.className inventory.name) x
      ∧ Houses (x.finished c.allPublic) c.path (d'.tree.shape assembly.root)
      ∧ ∀ j < t.size, d'.tree.name j = t.name j := by
  obtain ⟨t₁, x, journal, hclass, hy₁, -, hcode⟩ := peripheralClass_run linked hs c
  obtain ⟨innermost, hlast⟩ : ∃ name, c.path.getLast? = some name :=
    Option.isSome_iff_exists.1 (by simpa using housed)
  have hpath : c.path.dropLast.reverse.reverse ++ [innermost] = c.path := by
    rw [List.reverse_reverse]
    exact List.dropLast_append_getLast? innermost hlast
  obtain ⟨t₂, home, hhome, hy₂, hkind, hname, hclasses, -⟩ :=
    namespace_run innermost [x] [] hy₁.stock
  obtain ⟨t₃, root, hnest, hy₃, hhouses⟩ := nest_run c.path.dropLast.reverse hy₂.stock
    (.home hkind hname hclasses)
  rw [hpath] at hhouses
  have hall := (hy₁.trans hy₂).trans hy₃
  obtain ⟨t₄, y, journal', hrewrite, htag, hshape, hswap⟩ := Drafting.rewrite_run
    (hall.stock.stands (List.cons_ne_nil root []))
    (by rw [← Term.kind_shape, hhouses.kind_eq]; rfl) c.allPublic journal
  refine ⟨_, ⟨t₄, journal'⟩, t₁, x.shape, assemble_of_runs hlast hclass hhome hnest hrewrite, hcode, ?_,
    fun j hj => ?_⟩
  · obtain ⟨sig, hsig⟩ := hcode.isClass
    rw [← htag, Tree.shape_of_holds hswap.holds (by simpa using hswap.nodup), hshape]
    exact hhouses.finished (by rw [hsig]; rfl) c.allPublic
  · have hj₂ := Nat.lt_of_lt_of_le hj hy₂.grows
    exact (hswap.names j (Nat.lt_of_lt_of_le hj₂ hy₃.grows)).trans
      ((hy₃.names j hj₂).trans (hy₂.names j hj))

end RegisterMap.Peripheral
