/-
Public accessibility, on code alone, and the whole rewriting of finished
code. Publishing changes the kinds of declarations in place and adds no
node (`publish_top`). The three passes one after the other are a function
of the code as well (`Term.finished`, `rewrite_run`).
-/
import RegisterMap.Proofs.Code.Wrapping
import RegisterMap.Code.Draft

namespace RegisterMap.Code

namespace Kind

@[simp] theorem slots_published (qualified : Bool) (kind : Kind) :
    (kind.published qualified).slots = kind.slots := by
  cases kind with
  | methodDecl sig =>
    unfold published
    dsimp only
    split <;> rfl
  | _ => rfl

/-- The kinds whose members are made public too. -/
def isOpen : Kind → Bool
  | .variableDecl .. | .paramDecl .. | .methodDecl .. | .propertyDecl .. => false
  | _ => true

end Kind

namespace Term

/-- The name of a node contains a dot. -/
def qualified (notes : Notes) : Bool := (notes.name.getD "").contains '.'

/-- The code with public declarations, next to the code as it was. -/
def publishing : Shape → Shape × Shape := fold fun _ kind notes slots =>
  let old := slots.map (List.map Prod.fst)
  let new := slots.map (List.map Prod.snd)
  (.node () kind notes old,
    .node () (kind.published (qualified notes)) notes (if kind.isOpen then new else old))

/-- The code with public declarations. -/
def published (x : Shape) : Shape := x.publishing.2

theorem publishing_node (kind : Kind) (notes : Notes) (slots : List (List Shape)) :
    (node () kind notes slots).publishing
      = (.node () kind notes (slots.map (List.map fun x => x.publishing.1)),
        .node () (kind.published (qualified notes)) notes
          (slots.map (List.map fun x =>
            if kind.isOpen then x.publishing.2 else x.publishing.1))) := by
  unfold publishing
  rw [fold_node, List.map_map, List.map_map]
  cases kind.isOpen <;> simp [Function.comp_def, List.map_map]

theorem publishing_fst (x : Shape) : x.publishing.1 = x := by
  induction x using Term.ind with
  | node tag kind notes slots ih =>
    rw [publishing_node]
    show node () kind notes _ = node () kind notes slots
    congr 1
    refine (List.map_congr_left fun c hc => ?_).trans (List.map_id slots)
    exact (List.map_congr_left fun y hy => ih c hc y hy).trans (List.map_id c)

theorem published_node (kind : Kind) (notes : Notes) (slots : List (List Shape)) :
    (node () kind notes slots).published
      = .node () (kind.published (qualified notes)) notes
        (slots.map (List.map fun x => if kind.isOpen then x.published else x)) := by
  unfold published
  rw [publishing_node]
  simp only [publishing_fst]

end Term

namespace Tree

variable {t : Tree} {place : Place} {next : Option NodeId}

theorem node?_setKind (t : Tree) (i j : NodeId) (k : Kind) :
    (t.setKind i k).node? j
      = if i = j then (t.node? j).map fun n => { n with kind := k } else t.node? j :=
  node?_update ..

theorem name_setKind (t : Tree) (i j : NodeId) (k : Kind) :
    (t.setKind i k).name j = t.name j := by
  unfold Tree.name
  rw [node?_setKind]
  split
  · rw [Option.bind_map]
    rfl
  · rfl

/-- A standing node is given another kind with the same slots. -/
theorem setKind_run {id : NodeId} {kind k : Kind} {notes : Notes} {slots : List (List Planted)}
    (hs : t.Stands place next [.node id kind notes slots]) (hk : k.slots = kind.slots) :
    Swaps t (t.setKind id k) place next (Term.node id kind notes slots).tags
      [.node id k notes slots] := by
  obtain ⟨hlen, htop, hslots⟩ := holdsChain_singleton.1 hs.holds
  have htags : [Term.node id k notes slots].flatMap Term.tags
      = (Term.node id kind notes slots).tags := by simp
  have hn := hs.nodup
  rw [List.flatMap_singleton] at hn
  refine ⟨Nat.le_of_eq (size_update ..).symm,
    mutual_update hs.linked id fun _ => ⟨rfl, rfl, rfl⟩, ?_, ?_, ?_, ?_, fun j _ => name_setKind ..⟩
  · refine holdsChain_singleton.2 ⟨hlen.trans (congrArg _ hk.symm), ?_, fun sc hsc => ?_⟩
    · rw [node?_setKind]
      refine (if_pos rfl).trans ?_
      rw [show t.node? (Term.node id k notes slots).tag = _ from htop]
      show some _ = some _
      congr 1
      show ({ kind := k, heads := headsOf kind.slots slots, notes, place, next } : Node)
        = { kind := k, heads := headsOf k.slots slots, notes, place, next }
      rw [hk]
    · have hsc' : sc ∈ kind.slots.zip slots := by rwa [← hk]
      refine (hslots sc hsc').congr fun j hj => ?_
      have hunder := mem_tags_of_slot (x := .node id kind notes slots) hsc' hj
      have hne : id ≠ j := fun he => tag_not_mem_of_nodup hn (he ▸ hunder)
      exact (node?_setKind ..).trans (if_neg hne)
  · rw [htags]
    exact hn
  · intro j hj
    rw [htags] at hj
    exact Or.inl hj
  · intro j hj hnot
    have hne : id ≠ j := fun he => hnot (he ▸ Term.tag_mem_tags _)
    obtain ⟨n, hnode⟩ := exists_node?_of_lt hj
    rw [node?_setKind, if_neg hne, hnode, Option.map_some]
    exact congrArg some (hs.relink_self hnode).symm

end Tree

namespace Edit

open RegisterMap.Code.Tree (Stands Swaps)

variable {t : Tree} {place : Place} {next : Option NodeId} {id : NodeId} {kind : Kind}
  {notes : Notes} {slots : List (List Planted)}

theorem publishHere_run (hs : t.Stands place next [.node id kind notes slots]) :
    ∃ t', publishHere id t = (.ok (), t')
      ∧ Swaps t t' place next (Term.node id kind notes slots).tags
        [.node id (kind.published (Term.qualified notes)) notes slots] := by
  have hnode := hs.holds.node_eq
  have hname : t.name id = notes.name.getD "" := by
    unfold Tree.name
    rw [show t.node? id = _ from (Tree.holdsChain_singleton.1 hs.holds).2.1]
    rfl
  refine ⟨t.setKind id (kind.published (Term.qualified notes)),
    change_run (a := (kind, Term.qualified notes)) ?_,
    Tree.setKind_run hs (Kind.slots_published ..)⟩
  show (do return ((← t.node id).kind, (t.name id).contains '.') : Except Failure _) = _
  rw [show t.node id = _ from hnode, hname]
  rfl

theorem action?_publisher {kind : Kind} (h : kind.isOpen = false) :
    publisher.action? kind.role = some fun _ i => publishHere i := by
  cases kind <;> first | rfl | cases h

/-- The chains below a node that has been entered. -/
theorem published_slots {slots slots' : List (List Planted)}
    (h : slots'.map (List.map Term.shape)
      = slots.map fun c => (c.map Term.shape).flatMap fun x => [x.published]) :
    slots'.map (List.map Term.shape)
      = (slots.map fun c => c.map Term.shape).map (List.map Term.published) := by
  rw [h, List.map_map]
  refine List.map_congr_left fun c _ => ?_
  exact List.flatMap_pure_eq_map Term.published (c.map Term.shape)

/-- A node and, if it is open, what has been visited below it. It keeps its
place, whatever that is. -/
theorem visit_publish_run {fuel : Nat} {x : Planted}
    (hbelow : ∀ c ∈ x.slots, ∀ y ∈ c,
      Rewrites (publisher.visitFrom fuel) (fun x => [x.published]) y)
    (hs : t.Stands place next [x]) :
    ∃ t' y, publisher.visitFrom (fuel + 1) x.tag t = (.ok (), t')
      ∧ Term.shape y = x.shape.published ∧ y.tag = x.tag ∧ Swaps t t' place next x.tags [y] := by
  cases x with
  | node id kind notes slots =>
    rw [Term.shape_node, Term.published_node]
    cases hopen : kind.isOpen with
    | false =>
      obtain ⟨t', hrun, hswap⟩ := publishHere_run hs
      refine ⟨t', .node id (kind.published (Term.qualified notes)) notes slots, ?_, ?_, rfl,
        hswap⟩
      · have hact := action?_publisher hopen
        rw [Visitor.visitFrom_some (x := .node id kind notes slots) hact hs]
        exact hrun
      · simp
    | true =>
      have hentered : (fun x : Shape => if true = true then x.published else x)
          = Term.published := rfl
      rw [hentered]
      by_cases hclass : ∃ sig, kind = .classDecl sig
      · obtain ⟨sig, rfl⟩ := hclass
        obtain ⟨t₁, hrun₁, hswap₁⟩ := publishHere_run hs
        have hs₁ := hswap₁.stands hs (List.cons_ne_nil _ _) fun j hj =>
          Or.inl (by rwa [List.flatMap_singleton])
        obtain ⟨t₂, slots₂, hrun₂, hcode, hswap₂⟩ := Visitor.walk_run hbelow hs₁
        refine ⟨t₂, .node id _ notes slots₂, ?_, ?_, rfl, hswap₁.trans hswap₂ fun j hj =>
          Or.inl (by simpa using hj)⟩
        · rw [Visitor.visitFrom_some (v := publisher) rfl hs]
          exact (Edit.bind_run hrun₁).trans hrun₂
        · rw [Term.shape_node, published_slots hcode]
          rfl
      · obtain ⟨t₁, slots₁, hrun, hcode, hswap⟩ := Visitor.walk_run hbelow hs
        have hnone : publisher.action? kind.role = none := by
          cases kind with
          | classDecl sig => exact absurd ⟨sig, rfl⟩ hclass
          | variableDecl | paramDecl | methodDecl | propertyDecl => cases hopen
          | _ => rfl
        have hsame : kind.published (Term.qualified notes) = kind := by
          cases kind with
          | classDecl sig => exact absurd ⟨sig, rfl⟩ hclass
          | variableDecl | paramDecl | methodDecl | propertyDecl => cases hopen
          | _ => rfl
        refine ⟨t₁, .node id kind notes slots₁, ?_, ?_, rfl, hswap⟩
        · rw [Visitor.visitFrom_none (x := .node id kind notes slots) hnone hs]
          exact hrun
        · rw [Term.shape_node, published_slots hcode, hsame]
          rfl

theorem publisher_steps : publisher.Steps fun x => [x.published] := by
  intro fuel x hbelow t place next hroot hs
  obtain ⟨t', y, hrun, hcode, htag, hswap⟩ := visit_publish_run hbelow hs
  exact ⟨t', [y], hrun, congrArg (fun y => [y]) hcode, Term.leaves_self _ htag, hswap⟩

/-- Publishing from a node that stands anywhere does to the arena what it
does to the code. -/
theorem publish_top {x : Planted} (hs : t.Stands place next [x]) :
    ∃ t' y, Edit.publish x.tag t = (.ok (), t') ∧ Term.shape y = x.shape.published
      ∧ y.tag = x.tag ∧ Swaps t t' place next x.tags [y] := by
  obtain ⟨t', y, hrun, hcode⟩ :=
    visit_publish_run (Visitor.rewrites_below publisher_steps hs) hs
  exact ⟨t', y, (Visitor.visit_eq ..).trans hrun, hcode⟩

end Edit

-- =========================================================== rewriting

namespace Term

/-- A node that is no operation, over reduced chains. -/
def reducedBelow (x : Shape) : Shape :=
  .node () x.kind x.notes (x.slots.map fun c => c.flatMap reduced)

/-- Code after the rewriting that finishes it. -/
def finished (allPublic : Bool) (x : Shape) : Shape :=
  if allPublic then x.reducedBelow.parenthesized.published else x.reducedBelow.parenthesized

theorem reduced_eq {x : Shape} (h : x.kind.isOperator = false) : x.reduced = [x.reducedBelow] := by
  cases x with
  | node tag kind notes slots =>
    rw [reduced_node, reduceTop_of_ne fun op type he => by rw [he] at h; cases h]
    rfl

theorem kind_parenthesized (x : Shape) : x.parenthesized.kind = x.kind := by
  cases x
  rw [parenthesized_node]
  rfl

end Term

namespace Drafting

open RegisterMap.Code.Tree (Stands Swaps Yields)

variable {t t' : Tree} {journal : Journal} {α β : Type}

theorem bind_run {act : Drafting α} {f : α → Drafting β} {a : α} {d d' : Draft}
    (h : act d = (.ok a, d')) : (act >>= f) d = f a d' := run_bind h

theorem bind_error_run {act : Drafting α} {f : α → Drafting β} {e : Failure} {d d' : Draft}
    (h : act d = (.error e, d')) : (act >>= f) d = (.error e, d') := run_bind_error h

theorem ofEdit_run {e : Edit α} {a : α} (h : e t = (.ok a, t')) :
    ofEdit e ⟨t, journal⟩ = (.ok a, ⟨t', journal⟩) := by
  unfold ofEdit
  dsimp only
  rw [h]

theorem note_run (level : Level) (text : String) (d : Draft) :
    note level text d = (.ok (), { d with journal := d.journal.push ⟨level, text⟩ }) := rfl

/-- A message about a node is noted, whatever it says. -/
theorem announce_run (f : String → String) (i : NodeId) (next : Drafting β) (t : Tree)
    (journal : Journal) :
    ∃ journal', ((do
        note .debug (f (← describe i))
        next) : Drafting β) ⟨t, journal⟩ = next ⟨t, journal'⟩ := by
  refine ⟨journal.push ⟨.debug, f (t.describe i)⟩, ?_⟩
  have hdescribe : describe i ⟨t, journal⟩ = (.ok (t.describe i), ⟨t, journal⟩) :=
    ofEdit_run (Edit.read_run rfl)
  exact (bind_run hdescribe).trans (bind_run (note_run ..))

/-- The reduction comes first, after a message. -/
theorem rewrite_begins (i : NodeId) (allPublic : Bool) (t : Tree) (journal : Journal) :
    ∃ journal', rewrite i allPublic ⟨t, journal⟩ = ((do
      ofEdit (Edit.reduce i)
      note .debug s!"Ordering operators under {← describe i}"
      ofEdit (Edit.parenthesize i)
      if allPublic then
        note .debug s!"Making all declarations public under {← describe i}"
        ofEdit (Edit.publish i)) : Drafting Unit) ⟨t, journal'⟩ :=
  announce_run (fun s => s!"Eliminating null operations under {s}") i _ t journal

/-- If the operations cannot be reduced, nothing else is done. -/
theorem rewrite_of_error {i : NodeId} {e : Failure} (h : Edit.reduce i t = (.error e, t'))
    (allPublic : Bool) (journal : Journal) :
    (rewrite i allPublic ⟨t, journal⟩).1 = .error e := by
  obtain ⟨j₁, h₁⟩ := rewrite_begins i allPublic t journal
  have hreduce : ofEdit (Edit.reduce i) ⟨t, j₁⟩ = (.error e, ⟨t', j₁⟩) := by
    unfold ofEdit
    dsimp only
    rw [h]
  rw [h₁, bind_error_run hreduce]

/-- The three passes one after the other, the last of them if asked for. -/
theorem rewrite_of_passes {i : NodeId} {t₁ t₂ t₃ : Tree}
    (hreduce : Edit.reduce i t = (.ok (), t₁)) (horder : Edit.parenthesize i t₁ = (.ok (), t₂))
    (hpublish : Edit.publish i t₂ = (.ok (), t₃)) (allPublic : Bool) (journal : Journal) :
    ∃ journal', rewrite i allPublic ⟨t, journal⟩
      = (.ok (), ⟨if allPublic then t₃ else t₂, journal'⟩) := by
  obtain ⟨j₁, h₁⟩ := rewrite_begins i allPublic t journal
  rw [h₁, bind_run (ofEdit_run hreduce)]
  obtain ⟨j₂, h₂⟩ := announce_run (fun s => s!"Ordering operators under {s}") i
    (do
      ofEdit (Edit.parenthesize i)
      if allPublic then
        note .debug s!"Making all declarations public under {← describe i}"
        ofEdit (Edit.publish i)) t₁ j₁
  rw [h₂, bind_run (ofEdit_run horder)]
  cases allPublic with
  | false => exact ⟨j₂, rfl⟩
  | true =>
    obtain ⟨j₃, h₃⟩ := announce_run (fun s => s!"Making all declarations public under {s}") i
      (ofEdit (Edit.publish i)) t₂ j₂
    exact ⟨j₃, h₃.trans (ofEdit_run hpublish)⟩

/-- What the rewriting makes of the code that is left at a node once its
operations have been reduced, be it linked or not. -/
theorem rewrite_of_reduce {x : Planted} {place : Place} {next : Option NodeId}
    (h : Edit.reduce x.tag t = (.ok (), t')) (hs : t'.Stands place next [x]) (allPublic : Bool)
    (journal : Journal) :
    ∃ t'' y journal', rewrite x.tag allPublic ⟨t, journal⟩ = (.ok (), ⟨t'', journal'⟩)
      ∧ Term.tag y = x.tag
      ∧ y.shape = (if allPublic then x.shape.parenthesized.published else x.shape.parenthesized)
      ∧ Swaps t' t'' place next x.tags [y] := by
  obtain ⟨t₂, x₂, horder, hx₂, htag₂, hswap₂⟩ := Edit.parenthesize_top hs
  have hs₂ := hswap₂.stands hs (List.cons_ne_nil _ _) fun j hj =>
    Or.inl (by rwa [List.flatMap_singleton])
  obtain ⟨t₃, x₃, hpublish, hx₃, htag₃, hswap₃⟩ := Edit.publish_top hs₂
  rw [htag₂] at hpublish
  obtain ⟨journal', hrun⟩ := rewrite_of_passes h horder hpublish allPublic journal
  cases allPublic with
  | false => exact ⟨t₂, x₂, journal', hrun, htag₂, hx₂, hswap₂⟩
  | true =>
    refine ⟨t₃, x₃, journal', hrun, htag₃.trans htag₂, ?_,
      hswap₂.trans hswap₃ fun j hj => Or.inl (by rwa [List.flatMap_singleton])⟩
    rw [hx₃, hx₂]
    rfl

/-- The rewriting of finished code leaves it where it stands, as a
function of what it was. -/
theorem rewrite_run {x : Planted} (hs : t.Stands .root none [x])
    (hop : x.kind.isOperator = false) (allPublic : Bool) (journal : Journal) :
    ∃ t' y journal', rewrite x.tag allPublic ⟨t, journal⟩ = (.ok (), ⟨t', journal'⟩)
      ∧ Term.tag y = x.tag ∧ y.shape = x.shape.finished allPublic
      ∧ Swaps t t' .root none x.tags [y] := by
  obtain ⟨t₁, ys, hreduce, hcode₁, hleaves₁, hswap₁⟩ := Edit.reduce_run hs fun _ => hop
  have hop' : x.shape.kind.isOperator = false := by rwa [Term.kind_shape]
  rw [Term.reduced_eq hop'] at hcode₁
  obtain ⟨x₁, rfl, hx₁⟩ := List.map_eq_singleton_iff.1 hcode₁
  have htag₁ : x₁.tag = x.tag := Option.some.inj (hleaves₁.2 hop)
  have hs₁ := hswap₁.stands hs (List.cons_ne_nil _ _) fun j hj =>
    Or.inl (by rwa [List.flatMap_singleton])
  rw [← htag₁] at hreduce ⊢
  obtain ⟨t₂, y, journal', hrun, htag, hcode, hswap⟩ :=
    rewrite_of_reduce hreduce hs₁ allPublic journal
  refine ⟨t₂, y, journal', hrun, htag, ?_,
    hswap₁.trans hswap fun j hj => Or.inl (by rwa [List.flatMap_singleton])⟩
  rw [hcode, hx₁]
  rfl

/-- Builds a node and finishes its code. -/
def finish (build : Drafting NodeId) (allPublic : Bool) : Drafting NodeId := do
  let i ← build
  rewrite i allPublic
  return i

/-- What is built over nothing can be finished. -/
theorem finish_run {build : Drafting NodeId} {x : Planted} {d : Draft}
    (hbuild : build d = (.ok x.tag, ⟨t', journal⟩)) (hy : Yields d.tree t' [] [[x]])
    (hop : x.shape.kind.isOperator = false) (allPublic : Bool) :
    ∃ d', finish build allPublic d = (.ok x.tag, d')
      ∧ d'.tree.shape x.tag = x.shape.finished allPublic
      ∧ ∀ j < t'.size, d'.tree.name j = t'.name j := by
  rw [Term.kind_shape] at hop
  obtain ⟨t₂, y, journal', hrewrite, htag, hshape, hswap⟩ :=
    rewrite_run (hy.stock.stands (List.cons_ne_nil x [])) hop allPublic journal
  refine ⟨⟨t₂, journal'⟩, ?_, ?_, hswap.names⟩
  · unfold finish
    rw [bind_run hbuild, bind_run hrewrite]
    rfl
  · rw [← htag, ← hshape]
    exact Tree.shape_of_holds hswap.holds (by simpa using hswap.nodup)

end Drafting

end RegisterMap.Code
