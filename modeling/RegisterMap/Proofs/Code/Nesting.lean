/-
Code in nested namespaces. A namespace that holds nothing but the next one
is planted around what stands already (`nest_around`). The passes go
straight through such namespaces to what is inside: the node they are
nested around keeps its number, and its code is rewritten as if it stood
alone (`rewrite_around`).
-/
import RegisterMap.Proofs.Code.Publishing

open RegisterMap.Code.Tree (Stands Swaps Stock Yields)

namespace RegisterMap.Code

variable {t t' : Tree} {place : Place} {next : Option NodeId} {x y : Planted}

/-- `y`, or a namespace with nothing inside but a namespace around `y`. -/
inductive Around (y : Planted) : Planted → Prop
  | here : Around y y
  | nested {x : Planted} (id : NodeId) (notes : Notes) :
    Around y x → Around y (.node id .namespaceDecl notes [[], [x]])

/-- The only thing in a standing namespace stands in its slot for namespaces,
and if it is exchanged there, so is the namespace. -/
theorem stands_nested {id : NodeId} {notes : Notes}
    (hs : t.Stands place next [.node id .namespaceDecl notes [[], [x]]]) :
    t.Stands (.slot id .namespaces) none [x] ∧ ∀ t' x',
      Swaps t t' (.slot id .namespaces) none x.tags [x'] →
        Swaps t t' place next (Term.node id .namespaceDecl notes [[], [x]]).tags
          [.node id .namespaceDecl notes [[], [x']]] := by
  have hs' : t.Stands place next [.node id .namespaceDecl notes ([[]] ++ [x] :: [])] := hs
  have hslots : Kind.namespaceDecl.slots = [.classes] ++ .namespaces :: [] := rfl
  exact ⟨hs'.slot hslots rfl (List.cons_ne_nil _ _), fun t' x' hswap =>
    hswap.inSlot hs' hslots rfl fun j hj => Or.inl (by rwa [List.flatMap_singleton])⟩

/-- What is nested in standing namespaces stands as well. -/
theorem Around.stands (h : Around y x) (hs : t.Stands place next [x]) :
    ∃ place next, t.Stands place next [y] := by
  induction h generalizing place next with
  | here => exact ⟨place, next, hs⟩
  | nested id notes h ih =>
    exact ih (stands_nested hs).1

/-- A namespace with nothing inside but what is there already. -/
theorem namespace_around (name : String) (hs : Stock t [[y]]) :
    ∃ t' id notes, (Sketch.namespaceDecl name [] [.node y.tag]).plant t = (.ok id, t')
      ∧ Yields t t' y.tags [[.node id .namespaceDecl notes [[], [y]]]] := by
  have htags : tagsOf [[], [y]] = y.tags := by simp [tagsOf]
  have hids : [[y]].map (headOr none) = [y.tag].map some := rfl
  obtain ⟨t₁, hjoin, hy₁⟩ := Tree.join_run hs (by simp) hids
  rw [show tagsOf [[y]] = y.tags by simp [tagsOf]] at hy₁
  have hstock : Stock t₁ [[], [y]] := by
    refine ⟨hy₁.stock.linked, fun c hc => ?_, htags ▸ (by simpa [tagsOf] using hs.nodup)⟩
    rcases List.mem_cons.1 hc with rfl | hc
    · exact Tree.holdsChain_nil ..
    · exact hy₁.stock.holds c hc
  have hlinks : [(.classes, none), (.namespaces, some y.tag)]
      = Kind.namespaceDecl.slots.zip ([[], [y]].map (headOr none)) := rfl
  obtain ⟨t₂, hadd, hy₂⟩ := Tree.add_run .namespaceDecl hstock rfl hlinks nofun
  obtain ⟨t₃, hnamed, hy₃⟩ := Tree.named_run name hadd hy₂ (Nat.le_refl _)
  rw [htags] at hy₃
  refine ⟨t₃, t₁.size, _, ?_, hy₁.trans (by simpa [tagsOf] using hy₃)⟩
  have hplant : Sketch.plantList [.node y.tag] t = (.ok [y.tag], t) := rfl
  have hnone : Edit.join [] t = (.ok none, t) := rfl
  show (Sketch.plantList [.node y.tag] >>= Edit.namespaceDecl name []) t = _
  rw [Edit.bind_run hplant]
  show (Edit.join [] >>= fun classes => Edit.join [y.tag] >>= fun namespaces =>
    Edit.named name (Edit.add .namespaceDecl [(.classes, classes), (.namespaces, namespaces)])) t = _
  rw [Edit.bind_run hnone, Edit.bind_run hjoin]
  exact hnamed

/-- Namespaces are planted one around the other. -/
theorem nest_around (names : List String) (h : Around y x) (hs : Stock t [[x]]) :
    ∃ t' z, names.foldlM (fun inner name =>
        (Sketch.namespaceDecl name [] [.node inner]).plant) x.tag t = (.ok z.tag, t')
      ∧ Yields t t' x.tags [[z]] ∧ Around y z := by
  induction names generalizing t x with
  | nil =>
    have hrefl := hs.yields_refl
    rw [show tagsOf [[x]] = x.tags by simp [tagsOf]] at hrefl
    exact ⟨t, x, rfl, hrefl, h⟩
  | cons name names ih =>
    obtain ⟨t₁, id, notes, hrun₁, hy₁⟩ := namespace_around name hs
    obtain ⟨t₂, z, hrun₂, hy₂, hz⟩ := ih (.nested id notes h) hy₁.stock
    refine ⟨t₂, z, ?_, ?_, hz⟩
    · rw [List.foldlM_cons]
      exact (Edit.bind_run hrun₁).trans hrun₂
    · exact hy₁.trans (by simpa [tagsOf] using hy₂)

-- ============================================================== passes

/-- A pass that does nothing to namespaces rewrites what they are nested
around. -/
theorem Visitor.visitFrom_around {v : Visitor Edit} {pass : Shape → List Shape} {z : Shape}
    {fuel : Nat} (hv : v.Steps pass) (hspace : v.action? Kind.namespaceDecl.role = none)
    (h : Around y x) (hy : y.kind.isOperator = false) (hpass : pass y.shape = [z])
    (hf : x.tags.length ≤ fuel) (hs : t.Stands place next [x]) :
    ∃ t' x' y', v.visitFrom fuel x.tag t = (.ok (), t') ∧ x'.tag = x.tag ∧ y'.tag = y.tag
      ∧ y'.shape = z ∧ Around y' x' ∧ Swaps t t' place next x.tags [x'] := by
  induction h generalizing t place next fuel with
  | here =>
    obtain ⟨t', ys, hrun, hcode, ⟨-, hhead⟩, hswap⟩ :=
      visitFrom_rewrites hv y hf t place next (fun _ => hy) hs
    rw [hpass] at hcode
    obtain ⟨y', rfl, hy'⟩ := List.map_eq_singleton_iff.1 hcode
    have htag : y'.tag = y.tag := Option.some.inj (hhead hy)
    exact ⟨t', y', y', hrun, htag, htag, hy', .here, hswap⟩
  | nested id notes h ih =>
    rename_i x
    rw [Term.tags_node, List.length_cons] at hf
    cases fuel with
    | zero => exact absurd hf (Nat.not_succ_le_zero _)
    | succ fuel =>
      obtain ⟨hinner, houter⟩ := stands_nested hs
      obtain ⟨t', x', y', hrun, hx', hy', hshape, haround, hswap⟩ :=
        ih (by simpa using hf) hinner
      refine ⟨t', .node id .namespaceDecl notes [[], [x']], y', ?_, rfl, hy', hshape,
        .nested id notes haround, houter t' x' hswap⟩
      rw [visitFrom_none hspace hs]
      have hchildren : t.children id = [x.tag] := Tree.children_of_holds hs.holds
        (by simpa using hs.nodup)
      have hread : Edit.read (fun t => .ok (t.children id)) t = (.ok [x.tag], t) :=
        Edit.read_run (congrArg Except.ok hchildren)
      refine (Edit.bind_run hread).trans ?_
      rw [Edit.forM_cons_run hrun]
      rfl

theorem Visitor.visit_around {v : Visitor Edit} {pass : Shape → List Shape} {z : Shape}
    (hv : v.Steps pass) (hspace : v.action? Kind.namespaceDecl.role = none) (h : Around y x)
    (hy : y.kind.isOperator = false) (hpass : pass y.shape = [z]) (hs : t.Stands place next [x]) :
    ∃ t' x' y', v.visit x.tag t = (.ok (), t') ∧ x'.tag = x.tag ∧ y'.tag = y.tag
      ∧ y'.shape = z ∧ Around y' x' ∧ t'.Stands place next [x'] := by
  have hlen := hs.holds.tags_length_le hs.nodup
  rw [List.flatMap_singleton] at hlen
  obtain ⟨t', x', y', hrun, hx', hy', hshape, haround, hswap⟩ :=
    visitFrom_around hv hspace h hy hpass (Nat.le_succ_of_le hlen) hs
  exact ⟨t', x', y', (visit_eq ..).trans hrun, hx', hy', hshape, haround,
    hswap.stands hs (List.cons_ne_nil _ _) fun j hj => Or.inl (by rwa [List.flatMap_singleton])⟩

/-- The rewriting of nested namespaces is the rewriting of what they are
nested around. -/
theorem Drafting.rewrite_around (h : Around y x) (hy : y.kind.isOperator = false)
    (hs : t.Stands place next [x]) (allPublic : Bool) (journal : Journal) :
    ∃ t' x' y' journal', rewrite x.tag allPublic ⟨t, journal⟩ = (.ok (), ⟨t', journal'⟩)
      ∧ x'.tag = x.tag ∧ y'.tag = y.tag ∧ y'.shape = y.shape.finished allPublic ∧ Around y' x'
      ∧ t'.Stands place next [x'] := by
  have hkind : y.shape.kind.isOperator = false := by rwa [Term.kind_shape]
  obtain ⟨t₁, x₁, y₁, hreduce, hx₁, hy₁, hshape₁, h₁, hs₁⟩ :=
    Visitor.visit_around Edit.reducer_steps rfl h hy (Term.reduced_eq hkind) hs
  have hk₁ : y₁.kind.isOperator = false := by
    rw [← Term.kind_shape, hshape₁]
    exact hkind
  obtain ⟨t₂, x₂, y₂, horder, hx₂, hy₂, hshape₂, h₂, hs₂⟩ :=
    Visitor.visit_around Edit.parenthesizer_steps rfl h₁ hk₁ rfl hs₁
  have hk₂ : y₂.kind.isOperator = false := by
    rw [← Term.kind_shape, hshape₂, Term.kind_parenthesized, Term.kind_shape]
    exact hk₁
  obtain ⟨t₃, x₃, y₃, hpublish, hx₃, hy₃, hshape₃, h₃, hs₃⟩ :=
    Visitor.visit_around Edit.publisher_steps rfl h₂ hk₂ rfl hs₂
  rw [hx₁] at horder
  rw [hx₂, hx₁] at hpublish
  obtain ⟨journal', hrun⟩ := rewrite_of_passes hreduce horder hpublish allPublic journal
  cases allPublic with
  | false =>
    exact ⟨t₂, x₂, y₂, journal', hrun, hx₂.trans hx₁, hy₂.trans hy₁,
      hshape₂.trans (congrArg Term.parenthesized hshape₁), h₂, hs₂⟩
  | true =>
    exact ⟨t₃, x₃, y₃, journal', hrun, hx₃.trans (hx₂.trans hx₁), hy₃.trans (hy₂.trans hy₁),
      hshape₃.trans (congrArg Term.published (hshape₂.trans (congrArg Term.parenthesized hshape₁))),
      h₃, hs₃⟩

end RegisterMap.Code
