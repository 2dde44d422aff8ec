/-
Tours of a description and what is left of them. A tour passes every node
twice, on the way in and on the way out (`Mark`), and everything below it
in between. Each mark has its turn there, told by where its node lies
(`Mark.Before`), whether a tour comes by or not.

A listener that is taken along may skip what is below a node and may end
the tour (`Follows`). What it is told then is the tour without the marks
below the nodes skipped, cut off behind the first failure, so a mark that
is told of can be told from the answers before its turn (`told_iff`). That
the marks told are nested the same way as those of the whole tour follows
from the tour being nested below each of its nodes (`unwind_told`).
-/
import Mathlib.Data.List.Forall2
import Mathlib.Data.List.Lex
import Mathlib.Order.WithBot
import RegisterMap.Proofs.Description.Sites

namespace RegisterMap.Description

-- ============================================================ positions

/-- Where a node of a description is: the way down from the top node, by
numbers among siblings. -/
abbrev Position := List Nat

/-- The second position is somewhere below the first. -/
def Above (p q : Position) : Prop := ∃ k r, q = p ++ k :: r

/-- Where the parent of a node is. -/
def parent? (p : Position) : Option Position := if p = [] then none else some p.dropLast

@[simp] theorem parent?_append (p : Position) (k : Nat) : parent? (p ++ [k]) = some p := by
  unfold parent?
  rw [if_neg (by simp), List.dropLast_concat]

theorem Above.trans {p q r : Position} (h : Above p q) (h' : Above q r) : Above p r := by
  obtain ⟨j, a, rfl⟩ := h
  obtain ⟨k, b, rfl⟩ := h'
  exact ⟨j, a ++ k :: b, by simp⟩

/-- A node of a description: a component in its place, or a field. -/
inductive Item where
  | component (node : Node)
  | field (node : FieldNode)

namespace Item

def children : Item → List Item
  | .component ⟨_, .register node⟩ => node.fields.map .field
  | .component ⟨above, .group kind name offset children⟩ =>
    children.map fun c => .component ⟨above ++ [⟨kind, name, offset⟩], c⟩
  | .field _ => []

/-- What is at a position, counted from the item down. -/
def at? : Item → Position → Option Item
  | i, [] => some i
  | i, k :: p => i.children[k]?.bind (·.at? p)

theorem at?_append (i : Item) (p q : Position) : i.at? (p ++ q) = (i.at? p).bind (·.at? q) := by
  induction p generalizing i with
  | nil => rfl
  | cons k p ih =>
    rw [List.cons_append, at?, at?, Option.bind_assoc]
    exact congrArg _ (funext ih)

end Item

namespace Design

/-- The top node as a component. -/
def root (d : Design) : Component := .group .addressMap d.name d.offset d.children

/-- The node at a position. -/
def item? (d : Design) (p : Position) : Option Item := (Item.component ⟨[], d.root⟩).at? p

theorem item?_child {d : Design} {p : Position} {i : Item} (h : d.item? p = some i) (k : Nat) :
    d.item? (p ++ [k]) = i.children[k]? := by
  unfold item? at h ⊢
  rw [Item.at?_append, h, Option.bind_some, Item.at?]
  exact Option.bind_fun_some _

/-- What is above a node is there, too. -/
theorem item?_of_above {d : Design} {p q : Position} (h : Above p q)
    (hq : (d.item? q).isSome) : (d.item? p).isSome := by
  obtain ⟨k, r, rfl⟩ := h
  unfold item? at hq ⊢
  rw [Item.at?_append] at hq
  exact Option.isSome_of_isSome_bind hq

end Design

-- ================================================================ marks

/-- A node is entered or left. -/
inductive Mark where
  | enter (p : Position)
  | leave (p : Position)
  deriving DecidableEq, Repr

namespace Mark

def position : Mark → Position
  | .enter p => p
  | .leave p => p

/-- The position of a node, and for its end the place behind all of its
children. -/
def key : Mark → List (WithTop Nat)
  | .enter p => p.map WithTop.some
  | .leave p => p.map WithTop.some ++ [⊤]

/-- The first mark has its turn before the second one. -/
def Before (m m' : Mark) : Prop := m.key < m'.key

theorem Before.trans {m m' m'' : Mark} (h : m.Before m') (h' : m'.Before m'') : m.Before m'' :=
  lt_trans h h'

theorem Before.irrefl (m : Mark) : ¬ m.Before m := lt_irrefl _

theorem Before.asymm {m m' : Mark} (h : m.Before m') : ¬ m'.Before m := lt_asymm h

theorem key_of_position {m : Mark} {p : Position} {k : Nat} {r : Position}
    (h : m.position = p ++ k :: r) :
    ∃ tail, m.key = p.map WithTop.some ++ WithTop.some k :: tail := by
  cases m with
  | enter q =>
    obtain rfl : q = _ := h
    exact ⟨r.map WithTop.some, by simp [key]⟩
  | leave q =>
    obtain rfl : q = _ := h
    exact ⟨r.map WithTop.some ++ [⊤], by simp [key]⟩

theorem lt_append_cons (l tail : List (WithTop Nat)) (x : WithTop Nat) : l < l ++ x :: tail := by
  have h : l ++ [] < l ++ x :: tail := List.append_left_lt (List.nil_lt_cons x tail)
  rwa [List.append_nil] at h

theorem enter_before_leave (p : Position) : (enter p).Before (leave p) := lt_append_cons _ [] ⊤

/-- A node is entered before anything below it has its turn. -/
theorem enter_before {p : Position} {m : Mark} (h : Above p m.position) : (enter p).Before m := by
  obtain ⟨k, r, hr⟩ := h
  obtain ⟨tail, hkey⟩ := key_of_position hr
  show _ < m.key
  rw [hkey]
  exact lt_append_cons _ tail _

/-- A node is left after everything below it has had its turn. -/
theorem before_leave {p : Position} {m : Mark} (h : Above p m.position) : m.Before (leave p) := by
  obtain ⟨k, r, hr⟩ := h
  obtain ⟨tail, hkey⟩ := key_of_position hr
  show m.key < _
  rw [hkey]
  exact List.append_left_lt (List.cons_lt_cons_iff.2 (Or.inl (WithTop.coe_lt_top k)))

/-- Nothing at a node has its turn after its end. -/
theorem not_leave_before {p : Position} {m : Mark} (h : p <+: m.position) :
    ¬ (leave p).Before m := by
  obtain ⟨_ | ⟨k, r⟩, hr⟩ := h
  · rw [List.append_nil] at hr
    subst hr
    cases m with
    | enter p => exact (enter_before_leave p).asymm
    | leave p => exact Before.irrefl _
  · exact (before_leave ⟨k, r, hr.symm⟩).asymm

/-- All that is at one node has its turn before what is at a later sibling
of the node. -/
theorem before_sibling {p r r' : Position} {j k : Nat} {m m' : Mark} (hjk : j < k)
    (h : m.position = p ++ j :: r) (h' : m'.position = p ++ k :: r') : m.Before m' := by
  obtain ⟨tail, hkey⟩ := key_of_position h
  obtain ⟨tail', hkey'⟩ := key_of_position h'
  show m.key < m'.key
  rw [hkey, hkey']
  exact List.append_left_lt (List.cons_lt_cons_iff.2 (Or.inl (WithTop.coe_lt_coe.2 hjk)))

/-- Nodes have their turns in pre-order. -/
theorem enter_before_iff {p q : Position} : (enter p).Before (enter q) ↔ p < q := by
  show p.map WithTop.some < q.map WithTop.some ↔ p < q
  induction p generalizing q with
  | nil => cases q <;> simp
  | cons j p ih =>
    cases q with
    | nil => simp
    | cons k q =>
      rw [List.map_cons, List.map_cons, List.cons_lt_cons_iff, List.cons_lt_cons_iff, ih]
      simp

/-- The position of a node that is entered. -/
def entered? : Mark → Option Position
  | .enter p => some p
  | .leave _ => none

theorem eq_enter_of_entered? {m : Mark} {p : Position} (h : m.entered? = some p) : m = .enter p := by
  cases m with
  | enter q => exact congrArg Mark.enter (Option.some.inj h)
  | leave q => cases h

end Mark

/-- Goes through marks with the nodes that are open, the innermost one
first. A node is entered in its parent only, and only the innermost open
node is left. -/
def unwind : (opened : List Position) → List Mark → Option (List Position)
  | opened, [] => some opened
  | opened, .enter p :: marks =>
    if opened.head? = parent? p then unwind (p :: opened) marks else none
  | opened, .leave p :: marks =>
    if opened.head? = some p then unwind opened.tail marks else none

theorem unwind_enter {opened : List Position} {p : Position} (h : opened.head? = parent? p)
    (marks : List Mark) : unwind opened (.enter p :: marks) = unwind (p :: opened) marks := if_pos h

theorem head?_of_unwind_enter {opened opened' : List Position} {p : Position} {marks : List Mark}
    (h : unwind opened (.enter p :: marks) = some opened') : opened.head? = parent? p := by
  unfold unwind at h
  split at h
  · assumption
  · cases h

theorem unwind_leave (opened : List Position) (p : Position) (marks : List Mark) :
    unwind (p :: opened) (.leave p :: marks) = unwind opened marks := if_pos rfl

/-- Whether the first mark can come next does not depend on the others. -/
theorem exists_of_unwind_cons {opened opened' : List Position} {m : Mark} {marks : List Mark}
    (h : unwind opened (m :: marks) = some opened') : ∃ next, unwind next marks = some opened'
      ∧ ∀ marks', unwind opened (m :: marks') = unwind next marks' := by
  cases m <;>
  · unfold unwind at h
    split at h
    · next hopened => exact ⟨_, h, fun _ => if_pos hopened⟩
    · cases h

theorem unwind_append {opened opened' : List Position} {marks : List Mark}
    (h : unwind opened marks = some opened') (marks' : List Mark) :
    unwind opened (marks ++ marks') = unwind opened' marks' := by
  induction marks generalizing opened with
  | nil =>
    cases h
    rfl
  | cons m marks ih =>
    obtain ⟨next, hnext, hfirst⟩ := exists_of_unwind_cons h
    exact (hfirst _).trans (ih hnext)

-- ================================================================ tours

/-- The marks passed on the way around a node, for each place it may be
at. -/
abbrev Tour := Position → List Mark

namespace Tour

/-- The tours of siblings, the first of them being number `k`. -/
def row (p : Position) : (k : Nat) → List Tour → List Mark
  | _, [] => []
  | k, tour :: rest => tour (p ++ [k]) ++ row p (k + 1) rest

/-- The tour of a node with the tours of its children. -/
def around (inside : List Tour) : Tour := fun p => .enter p :: (row p 0 inside ++ [.leave p])

end Tour

mutual

/-- The whole tour of a component. -/
def Component.tour : Component → Tour
  | .register node => Tour.around (node.fields.map fun _ => Tour.around [])
  | .group _ _ _ children => Tour.around (Component.tours children)

def Component.tours : List Component → List Tour
  | [] => []
  | c :: rest => Component.tour c :: Component.tours rest

end

/-- A tour passes the nodes of an item, in and out, each mark in its
turn. -/
structure IsTour (i : Item) (tour : Tour) : Prop where
  mem_iff : ∀ p m, m ∈ tour p ↔ ∃ r, m.position = p ++ r ∧ (i.at? r).isSome
  ordered : ∀ p, (tour p).Pairwise Mark.Before
  nested : ∀ p opened, opened.head? = parent? p → unwind opened (tour p) = some opened

/-- The marks are below an open node and leave it open. -/
structure Inside (p : Position) (marks : List Mark) : Prop where
  above : ∀ m ∈ marks, Above p m.position
  nested : ∀ opened, opened.head? = some p → unwind opened marks = some opened

section Tours

variable {items : List Item} {tours : List Tour}

theorem mem_row (h : List.Forall₂ IsTour items tours) {p : Position} {k : Nat} {m : Mark} :
    m ∈ Tour.row p k tours ↔
      ∃ j r, m.position = p ++ (k + j) :: r ∧ (items[j]?.bind (·.at? r)).isSome := by
  induction h generalizing k with
  | nil => simp [Tour.row]
  | @cons i tour items tours hi _ ih =>
    rw [Tour.row, List.mem_append, hi.mem_iff, ih]
    constructor
    · rintro (⟨r, hr, hsome⟩ | ⟨j, r, hr, hsome⟩)
      · exact ⟨0, r, by simpa using hr, hsome⟩
      · exact ⟨j + 1, r, by rw [hr, Nat.add_right_comm]; rfl, hsome⟩
    · rintro ⟨_ | j, r, hr, hsome⟩
      · exact Or.inl ⟨r, by simpa using hr, hsome⟩
      · exact Or.inr ⟨j, r, by rw [hr, Nat.add_right_comm]; rfl, hsome⟩

theorem row_ordered (h : List.Forall₂ IsTour items tours) (p : Position) (k : Nat) :
    (Tour.row p k tours).Pairwise Mark.Before := by
  induction h generalizing k with
  | nil => exact List.Pairwise.nil
  | cons hi hrest ih =>
    refine List.pairwise_append.2 ⟨hi.ordered _, ih (k + 1), fun m hm m' hm' => ?_⟩
    obtain ⟨r, hr, -⟩ := (hi.mem_iff _ m).1 hm
    obtain ⟨j, r', hr', -⟩ := (mem_row hrest).1 hm'
    exact Mark.before_sibling (show k < k + 1 + j by omega) (by simpa using hr) hr'

theorem row_inside (h : List.Forall₂ IsTour items tours) (p : Position) (k : Nat) :
    Inside p (Tour.row p k tours) where
  above m hm := by
    obtain ⟨j, r, hr, -⟩ := (mem_row h).1 hm
    exact ⟨k + j, r, hr⟩
  nested opened hopened := by
    induction h generalizing k with
    | nil => rfl
    | cons hi _ ih =>
      rw [Tour.row, unwind_append (hi.nested _ _ (by rw [hopened, parent?_append]))]
      exact ih (k + 1)

/-- The tours of the children make the tour of a node. -/
theorem IsTour.around {i : Item} (h : List.Forall₂ IsTour i.children tours) :
    IsTour i (Tour.around tours) where
  mem_iff p m := by
    have hrow := mem_row h (p := p) (k := 0) (m := m)
    unfold Tour.around
    rw [List.mem_cons, List.mem_append, List.mem_singleton, hrow]
    constructor
    · rintro (rfl | ⟨j, r, hr, hsome⟩ | rfl)
      · exact ⟨[], (List.append_nil p).symm, rfl⟩
      · exact ⟨j :: r, by rw [hr, Nat.zero_add], hsome⟩
      · exact ⟨[], (List.append_nil p).symm, rfl⟩
    · rintro ⟨_ | ⟨j, r⟩, hr, hsome⟩
      · rw [List.append_nil] at hr
        cases m with
        | enter q => exact Or.inl (congrArg Mark.enter hr)
        | leave q => exact Or.inr (Or.inr (congrArg Mark.leave hr))
      · exact Or.inr (Or.inl ⟨j, r, by rw [hr, Nat.zero_add], hsome⟩)
  ordered p := by
    have habove := (row_inside h p 0).above
    refine List.pairwise_cons.2 ⟨fun m hm => ?_, List.pairwise_append.2
      ⟨row_ordered h p 0, List.pairwise_singleton .., fun m hm m' hm' => ?_⟩⟩
    · rcases List.mem_append.1 hm with hm | hm
      · exact Mark.enter_before (habove m hm)
      · exact List.mem_singleton.1 hm ▸ Mark.enter_before_leave p
    · exact List.mem_singleton.1 hm' ▸ Mark.before_leave (habove m hm)
  nested p opened hopened := by
    unfold Tour.around
    rw [unwind_enter hopened, unwind_append ((row_inside h p 0).nested (p :: opened) rfl)]
    exact unwind_leave opened p []

end Tours

theorem fields_tours (fields : List FieldNode) :
    List.Forall₂ IsTour (fields.map .field) (fields.map fun _ => Tour.around []) := by
  rw [List.forall₂_map_left_iff, List.forall₂_map_right_iff, List.forall₂_same]
  exact fun f _ => IsTour.around List.Forall₂.nil

mutual

theorem Component.isTour (above : List Group) :
    (c : Component) → IsTour (.component ⟨above, c⟩) c.tour
  | .register node => IsTour.around (fields_tours node.fields)
  | .group kind name offset children =>
    IsTour.around (Component.areTours (above ++ [Group.mk kind name offset]) children)

theorem Component.areTours (above : List Group) : (cs : List Component) →
    List.Forall₂ IsTour (cs.map fun c => .component ⟨above, c⟩) (Component.tours cs)
  | [] => .nil
  | c :: rest => .cons (Component.isTour above c) (Component.areTours above rest)

end

-- ============================================================== answers

/-- What a listener answers when told of a mark. -/
inductive Answer where
  | proceed
  | skip
  | failed (e : Failure)
  deriving DecidableEq, Repr

/-- A mark that was told of, and the answer to it. -/
structure Step where
  mark : Mark
  answer : Answer
  deriving DecidableEq, Repr

/-- The answer that ends a tour. -/
def Step.Failed (s : Step) : Prop := ∃ e, s.answer = .failed e

/-- Nothing failed, or the last step did, and that is the outcome. -/
def Ended (steps : List Step) (r : Except Failure Unit) : Prop :=
  r = .ok () ∧ (∀ s ∈ steps, ¬ s.Failed)
    ∨ ∃ before m e, steps = before ++ [⟨m, .failed e⟩] ∧ r = .error e ∧ ∀ s ∈ before, ¬ s.Failed

theorem Ended.cons {s : Step} {steps : List Step} {r : Except Failure Unit} (h : Ended steps r)
    (hs : ¬ s.Failed) : Ended (s :: steps) r := by
  rcases h with ⟨hr, hall⟩ | ⟨before, m, e, rfl, hr, hall⟩
  · exact Or.inl ⟨hr, List.forall_mem_cons.2 ⟨hs, hall⟩⟩
  · exact Or.inr ⟨s :: before, m, e, rfl, hr, List.forall_mem_cons.2 ⟨hs, hall⟩⟩

/-- What is told of marks that are passed one after the other, and how it
ends. The marks below a node that is skipped are passed over, and a failure
ends the tour. -/
inductive Follows : List Mark → List Step → Except Failure Unit → Prop
  | done : Follows [] [] (.ok ())
  | told {m : Mark} {marks : List Mark} {steps : List Step} {r : Except Failure Unit} :
    Follows marks steps r → Follows (m :: marks) (⟨m, .proceed⟩ :: steps) r
  | skipped {p : Position} {inside marks : List Mark} {steps : List Step}
    {r : Except Failure Unit} : Inside p inside → Follows (.leave p :: marks) steps r →
    Follows (.enter p :: (inside ++ .leave p :: marks)) (⟨.enter p, .skip⟩ :: steps) r
  | failed (m : Mark) (marks : List Mark) (e : Failure) :
    Follows (m :: marks) [⟨m, .failed e⟩] (.error e)

namespace Follows

variable {marks marks' : List Mark} {steps steps' : List Step} {r r' : Except Failure Unit}

theorem append (h : Follows marks steps (.ok ())) (h' : Follows marks' steps' r) :
    Follows (marks ++ marks') (steps ++ steps') r := by
  generalize hr : Except.ok () = r₀ at h
  induction h with
  | done => exact h'
  | told _ ih => exact .told (ih hr)
  | skipped hinside _ ih =>
    rw [List.cons_append, List.append_assoc]
    exact .skipped hinside (ih hr)
  | failed m marks e => cases hr

theorem append_error {e : Failure} (h : Follows marks steps (.error e)) (marks' : List Mark) :
    Follows (marks ++ marks') steps (.error e) := by
  generalize hr : Except.error e = r₀ at h
  induction h with
  | done => cases hr
  | told _ ih => exact .told (ih hr)
  | skipped hinside _ ih =>
    rw [List.cons_append, List.append_assoc]
    exact .skipped hinside (ih hr)
  | failed m marks e' => exact hr ▸ .failed m _ e'

theorem sublist (h : Follows marks steps r) : (steps.map (·.mark)).Sublist marks := by
  induction h with
  | done => exact .slnil
  | told _ ih => exact ih.cons_cons _
  | skipped _ _ ih => exact (ih.trans (List.sublist_append_right ..)).cons_cons _
  | failed m marks e => exact (List.nil_sublist _).cons_cons _

/-- Nothing is told after a failure, which is how the tour ends. -/
theorem ended (h : Follows marks steps r) : Ended steps r := by
  induction h with
  | done => exact Or.inl ⟨rfl, fun s hs => nomatch hs⟩
  | told _ ih => exact ih.cons fun ⟨e, he⟩ => nomatch he
  | skipped _ _ ih => exact ih.cons fun ⟨e, he⟩ => nomatch he
  | failed m marks e => exact Or.inr ⟨[], m, e, rfl, rfl, fun s hs => nomatch hs⟩

/-- The marks told of are nested as those passed are; after a failure, some
nodes may still be open. -/
theorem unwind_told (h : Follows marks steps r) {opened opened' : List Position}
    (hnested : unwind opened marks = some opened') :
    ∃ rest, unwind opened (steps.map (·.mark)) = some rest ∧ (r = .ok () → rest = opened') := by
  induction h generalizing opened with
  | done => exact ⟨opened, rfl, fun _ => Option.some.inj hnested⟩
  | told _ ih =>
    obtain ⟨next, hnext, hfirst⟩ := exists_of_unwind_cons hnested
    obtain ⟨rest, hrest, hok⟩ := ih hnext
    exact ⟨rest, (hfirst _).trans hrest, hok⟩
  | @skipped p _ _ _ _ hinside _ ih =>
    have hopened := head?_of_unwind_enter hnested
    rw [unwind_enter hopened, unwind_append (hinside.nested (p :: opened) rfl)] at hnested
    obtain ⟨rest, hrest, hok⟩ := ih hnested
    exact ⟨rest, (unwind_enter hopened _).trans hrest, hok⟩
  | failed m marks e =>
    obtain ⟨next, -, hfirst⟩ := exists_of_unwind_cons hnested
    exact ⟨next, hfirst [], fun hr => nomatch hr⟩

-- ================================================================ turns

/-- None of some marks in order comes before the first one, and no node
above it is entered with or after it. -/
theorem first_free {m : Mark} (hordered : (m :: marks).Pairwise Mark.Before) :
    (∀ m' ∈ m :: marks, ¬ m'.Before m)
      ∧ ∀ q, Above q m.position → Mark.enter q ∉ m :: marks := by
  have hnone : ∀ m' ∈ m :: marks, ¬ m'.Before m := by
    intro m' hm'
    rcases List.mem_cons.1 hm' with rfl | hm'
    · exact Mark.Before.irrefl m'
    · exact ((List.pairwise_cons.1 hordered).1 m' hm').asymm
  exact ⟨hnone, fun q hq hmem => hnone _ hmem (Mark.enter_before hq)⟩

theorem mark_mem (h : Follows marks steps r) {s : Step} (hs : s ∈ steps) : s.mark ∈ marks :=
  h.sublist.subset (List.mem_map_of_mem hs)

/-- What a mark waits for: the nodes above it have to go on, and nothing
must have failed before its turn. -/
def Awaits (marks : List Mark) (steps : List Step) (m : Mark) : Prop :=
  (∀ q, Above q m.position → .enter q ∈ marks → ⟨.enter q, .proceed⟩ ∈ steps)
    ∧ ∀ s ∈ steps, s.Failed → ¬ s.mark.Before m

theorem awaits_first {m : Mark} (h : Follows (m :: marks) steps r)
    (hordered : (m :: marks).Pairwise Mark.Before) : Awaits (m :: marks) steps m := by
  obtain ⟨hnone, hfree⟩ := first_free hordered
  exact ⟨fun q hq hin => absurd hin (hfree q hq), fun s hs _ => hnone _ (h.mark_mem hs)⟩

/-- A step that did not fail changes nothing for a later mark that is not
below its node, or if the node goes on. -/
theorem awaits_cons (passed : List Mark) {m : Mark} {s : Step} (hs : ¬ s.Failed)
    (hlate : s.mark ∉ marks)
    (hpassed : ∀ q, Above q m.position → .enter q ∈ passed → ⟨.enter q, .proceed⟩ = s) :
    Awaits (passed ++ marks) (s :: steps) m ↔ Awaits marks steps m := by
  constructor
  · rintro ⟨habove, hturn⟩
    refine ⟨fun q hq hin => ?_, fun s' hs' => hturn s' (List.mem_cons_of_mem _ hs')⟩
    rcases List.mem_cons.1 (habove q hq (List.mem_append_right _ hin)) with rfl | h
    · exact absurd hin hlate
    · exact h
  · rintro ⟨habove, hturn⟩
    refine ⟨fun q hq hin => ?_, fun s' hs' hfail => ?_⟩
    · rcases List.mem_append.1 hin with hin | hin
      · exact hpassed q hq hin ▸ List.mem_cons_self ..
      · exact List.mem_cons_of_mem _ (habove q hq hin)
    · rcases List.mem_cons.1 hs' with rfl | hs'
      · exact absurd hfail hs
      · exact hturn s' hs' hfail

/-- A mark is told of exactly if the nodes above it that are entered on the
way had it go on, and nothing failed before its turn. -/
theorem told_iff (h : Follows marks steps r) (hordered : marks.Pairwise Mark.Before) {m : Mark}
    (hm : m ∈ marks) : m ∈ steps.map (·.mark) ↔ Awaits marks steps m := by
  induction h with
  | done => cases hm
  | @told m₀ marks steps r h ih =>
    have hlate : m₀ ∉ marks := fun hin =>
      Mark.Before.irrefl m₀ ((List.pairwise_cons.1 hordered).1 m₀ hin)
    rcases List.mem_cons.1 hm with rfl | hm
    · exact iff_of_true (List.mem_cons_self ..) (awaits_first (.told h) hordered)
    · have hne : m ≠ m₀ := fun he => hlate (he ▸ hm)
      rw [List.map_cons, List.mem_cons, or_iff_right hne, ih (List.pairwise_cons.1 hordered).2 hm]
      refine (awaits_cons [m₀] (fun ⟨e, he⟩ => nomatch he) hlate fun q _ hin => ?_).symm
      rw [List.mem_singleton.1 hin]
  | @skipped p inside marks steps r hinside h ih =>
    obtain ⟨hfirst, hrest⟩ := List.pairwise_cons.1 hordered
    obtain ⟨-, hlast, hcross⟩ := List.pairwise_append.1 hrest
    have hlate : Mark.enter p ∉ .leave p :: marks := fun hin =>
      Mark.Before.irrefl _ (hfirst _ (List.mem_append_right _ hin))
    rcases List.mem_cons.1 hm with rfl | hm
    · exact iff_of_true (List.mem_cons_self ..) (awaits_first (.skipped hinside h) hordered)
    have hne : m ≠ .enter p := fun he => Mark.Before.irrefl _ (he ▸ hfirst m hm)
    rw [List.map_cons, List.mem_cons, or_iff_right hne]
    rcases List.mem_append.1 hm with hm | hm
    · -- nothing below the node is told of, and the node did not have it go on
      refine iff_of_false (fun hin => ?_) fun hawaits => ?_
      · exact Mark.Before.irrefl m (hcross m hm m (h.sublist.subset hin))
      · rcases List.mem_cons.1 (hawaits.1 p (hinside.above m hm) (List.mem_cons_self ..))
          with he | hin
        · cases he
        · exact hlate (h.mark_mem hin)
    · -- the end of the node and what comes after it is not below the node
      have hnot : ¬ Above p m.position := fun habove =>
        (first_free hlast).1 m hm (Mark.before_leave habove)
      rw [ih hlast hm]
      refine (awaits_cons (.enter p :: inside) (fun ⟨e, he⟩ => nomatch he) hlate
        fun q hq hin => ?_).symm
      rcases List.mem_cons.1 hin with he | hin
      · exact absurd (Mark.enter.inj he ▸ hq) hnot
      · exact absurd ((hinside.above _ hin).trans hq) hnot
  | failed m₀ marks e =>
    rcases List.mem_cons.1 hm with rfl | hm
    · exact iff_of_true (List.mem_cons_self ..) (awaits_first (.failed m marks e) hordered)
    · have hbefore := (List.pairwise_cons.1 hordered).1 m hm
      refine iff_of_false (fun hin => ?_) fun hawaits =>
        hawaits.2 _ (List.mem_singleton_self _) ⟨e, rfl⟩ hbefore
      rw [List.mem_singleton.1 hin] at hbefore
      exact Mark.Before.irrefl _ hbefore

end Follows

end RegisterMap.Description
