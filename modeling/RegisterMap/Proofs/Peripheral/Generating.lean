/-
The source file of a peripheral. Of an inventory whose widths and sizes are
numbers there is one unless the namespace is empty or a field is too wide,
and these are the only reasons that are ever given (`source_outcome`): no
node of the tree is misused on the way, no number leaves its range, and no
hole is left in what is written out.
-/
import RegisterMap.Peripheral.Source
import RegisterMap.Proofs.Code.Nesting
import RegisterMap.Proofs.Code.Writing
import RegisterMap.Proofs.Peripheral.Assembled
import RegisterMap.Proofs.Peripheral.Refusing

namespace RegisterMap.Peripheral

open Code Exec

variable {inventory : Inventory} {c : Config}

-- ============================================================= assembly

/-- An assembled peripheral stands in its namespace, and there is no hole
in it. -/
theorem assemble_stands {d : Draft} (hm : d.tree.Mutual) (hs : inventory.Buildable)
    (housed : c.path ≠ []) :
    ∃ assembly d' place next home, assemble inventory c d = (.ok assembly, d')
      ∧ assembly.home = Term.tag home ∧ d'.tree.Stands place next [home]
      ∧ home.shape.HoleFree := by
  obtain ⟨t₁, x, journal, hclass, hy₁, hfree₁, -⟩ := peripheralClass_run hm hs.sized c
  obtain ⟨innermost, hlast⟩ : ∃ name, c.path.getLast? = some name :=
    Option.isSome_iff_exists.1 (by simpa using housed)
  obtain ⟨t₂, home, hhome, hy₂, hkind, -⟩ := namespace_run innermost [x] [] hy₁.stock
  have hfree₂ := (Sketch.holeFree_plant (.namespaceDecl innermost [.node x.tag] []) rfl).yields
    hhome hy₂ hy₁.stock (Tree.holeFreeIn_singleton.2 hfree₁)
  obtain ⟨t₃, root, hnest, hy₃, haround⟩ :=
    nest_around c.path.dropLast.reverse (Around.here (y := home)) hy₂.stock
  -- the rewriting leaves the namespace of the class where it is
  have hop : home.kind.isOperator = false := by
    rw [← Term.kind_shape, hkind]
    rfl
  obtain ⟨t₄, root', home', journal', hrewrite, -, htag, hshape, haround', hs₄⟩ :=
    Drafting.rewrite_around haround hop (hy₃.stock.stands (List.cons_ne_nil _ _)) c.allPublic
      journal
  obtain ⟨place, next, hstands⟩ := haround'.stands hs₄
  refine ⟨_, ⟨t₄, journal'⟩, place, next, home', assemble_of_runs hlast hclass hhome hnest hrewrite,
    htag.symm, hstands, ?_⟩
  rw [hshape]
  exact Term.holeFree_finished (Tree.holeFreeIn_singleton.1 hfree₂) (by rwa [Term.kind_shape]) _

/-- A peripheral with a field that is too wide is not assembled. -/
theorem assemble_stops {d : Draft} (hm : d.tree.Mutual) (h : inventory.Measured)
    (hwide : ∃ f ∈ inventory.fields, 64 < f.high - f.low + 1) (housed : c.path ≠ []) :
    Stops (assemble inventory c) d (Field.TooWide inventory.fields) := by
  obtain ⟨innermost, hlast⟩ : ∃ name, c.path.getLast? = some name :=
    Option.isSome_iff_exists.1 (by simpa using housed)
  unfold assemble
  rw [hlast]
  exact (peripheralClass_stops hm h hwide c).bind _

-- =========================================================== source file

/-- An action on a new draft stops where the action does. -/
theorem fresh_stops {α : Type} {act : Drafting α} {reason : Failure → Prop} {journal : Journal}
    (h : Stops act { journal } reason) : Stops act.fresh journal reason := by
  obtain ⟨e, he, hreason⟩ := h
  refine ⟨e, ?_, hreason⟩
  have hrun : act { journal } = (.error e, (act { journal }).2) := Prod.ext he rfl
  unfold Drafting.fresh
  rw [hrun]

/-- A peripheral that can be built has a source file, which is the text of
its namespace. -/
theorem source_run (hs : inventory.Buildable) (housed : c.path ≠ []) (journal : Journal) :
    ∃ assembly tree journal' body,
      (assemble inventory c).fresh journal = (.ok (assembly, tree), journal')
      ∧ (tree.shape assembly.home).HoleFree ∧ tree.emit assembly.home {} = .ok body
      ∧ (source inventory c journal).1 = .ok (heading ++ tidy body) := by
  obtain ⟨assembly, d, place, next, home, hrun, hhome, hstands, hfree⟩ :=
    assemble_stands (d := { journal }) Tree.mutual_empty hs housed
  obtain ⟨body, hbody⟩ := Tree.emit_holeFree hstands hfree {}
  rw [← hhome] at hbody
  have hfresh : (assemble inventory c).fresh journal = (.ok (assembly, d.tree), d.journal) := by
    unfold Drafting.fresh
    rw [hrun]
  have hquiet : Reporting.quiet (d.tree.emit assembly.home {}) d.journal
      = (.ok body, d.journal) := by
    rw [hbody]
    rfl
  refine ⟨assembly, d.tree, d.journal, body, hfresh, ?_, hbody, ?_⟩
  · rw [hhome, Tree.shape_of_holds hstands.holds (by simpa using hstands.nodup)]
    exact hfree
  · unfold source
    rw [run_bind hfresh]
    dsimp only
    rw [run_bind hquiet]
    rfl

/-- Why there is no source file: the namespace is empty, or else a field is
too wide. -/
def Unsupported (inventory : Inventory) (c : Config) (e : Failure) : Prop :=
  (c.path = [] ∧ e = .refused .noNamespace)
    ∨ (c.path ≠ [] ∧ Field.TooWide inventory.fields e)

theorem source_stops (h : inventory.Measured)
    (hbad : c.path = [] ∨ ∃ f ∈ inventory.fields, 64 < f.high - f.low + 1) (journal : Journal) :
    Stops (source inventory c) journal (Unsupported inventory c) := by
  refine Stops.bind (fresh_stops ?_) _
  by_cases housed : c.path = []
  · refine ⟨.refused .noNamespace, ?_, Or.inl ⟨housed, rfl⟩⟩
    unfold assemble
    rw [housed]
    rfl
  · exact (assemble_stops Tree.mutual_empty h (hbad.resolve_left housed) housed).imp
      fun _ he => Or.inr ⟨housed, he⟩

/-- There is no source file exactly where the namespace is empty or a field
has more than 64 bits, and nothing else is ever given as the reason. What
is written otherwise is the text of an assembled peripheral without a
hole. -/
theorem source_outcome (h : inventory.Measured) (c : Config) (journal : Journal) :
    ((∃ e, (source inventory c journal).1 = .error e)
      ↔ c.path = [] ∨ ∃ f ∈ inventory.fields, 64 < f.high - f.low + 1)
    ∧ (∀ e, (source inventory c journal).1 = .error e → Unsupported inventory c e)
    ∧ ∀ text, (source inventory c journal).1 = .ok text →
      ∃ assembly tree journal' body,
        (assemble inventory c).fresh journal = (.ok (assembly, tree), journal')
        ∧ (tree.shape assembly.home).HoleFree ∧ tree.emit assembly.home {} = .ok body
        ∧ text = heading ++ tidy body := by
  by_cases hbad : c.path = [] ∨ ∃ f ∈ inventory.fields, 64 < f.high - f.low + 1
  · obtain ⟨e, he, hreason⟩ := source_stops h hbad journal
    refine ⟨iff_of_true ⟨e, he⟩ hbad, fun e' he' => ?_, fun text htext => ?_⟩
    · rwa [← Except.error.inj (he.symm.trans he')]
    · cases he.symm.trans htext
  · obtain ⟨housed, hnarrow⟩ := not_or.1 hbad
    obtain ⟨assembly, tree, journal', body, hrun, hfree, hbody, htext⟩ := source_run
      (h.buildable fun f hf => Nat.le_of_not_lt fun hwide => hnarrow ⟨f, hf, hwide⟩) housed journal
    have hno : ∀ e, (source inventory c journal).1 ≠ .error e := fun e he => by
      cases htext.symm.trans he
    refine ⟨iff_of_false (fun ⟨e, he⟩ => hno e he) hbad, fun e he => absurd he (hno e),
      fun text he => ⟨assembly, tree, journal', body, hrun, hfree, hbody, ?_⟩⟩
    exact Except.ok.inj (he.symm.trans htext)

/-- A register without fields that is wider than any mask, and an array
without elements whose template does not fit between two of them. -/
def oddShapes : Inventory where
  name := "odd"
  registers := [{ name := "bare", width := 200 }]
  arrays := [{
    name := "none"
    register := {
      name := "entry"
      fields := [{ name := "tag", low := 100, high := 163, reset := 5 }] }
    count := 0
    stride := 1 }]

/-- With a field of 65 bits in place of none. -/
def oneTooWide : Inventory :=
  { oddShapes with
    registers := [{ name := "data", fields := [{ name := "value", low := 3, high := 67 }] }] }

/-- Odd shapes have a source file, a field of 65 bits has none. -/
theorem source_outcome_oddShapes :
    (∃ text, (source oddShapes {} #[]).1 = .ok text)
    ∧ (source oneTooWide {} #[]).1 = .error (.refused (.fieldTooWide "value" 65)) := by
  have housed : ({} : Config).path ≠ [] := by decide
  constructor
  · have hmeasured : oddShapes.Measured := by decide
    have hodd := source_outcome hmeasured {} #[]
    cases hrun : (source oddShapes {} #[]).1 with
    | ok text => exact ⟨text, rfl⟩
    | error e => exact absurd (hodd.1.1 ⟨e, hrun⟩) (not_or.2 ⟨housed, by decide⟩)
  · have hmeasured : oneTooWide.Measured := by decide
    have hwide := source_outcome hmeasured {} #[]
    obtain ⟨e, he⟩ := hwide.1.2 (Or.inr (by decide))
    rcases hwide.2.1 e he with ⟨hnone, -⟩ | ⟨-, f, hf, hbits, hreason⟩
    · exact absurd hnone housed
    · have honly : ∀ f ∈ oneTooWide.fields, 64 < f.high - f.low + 1 →
          f = { name := "value", low := 3, high := 67 } := by decide
      rw [he, hreason, honly f hf hbits]
      rfl

end RegisterMap.Peripheral
