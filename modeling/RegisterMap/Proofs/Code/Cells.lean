/-
How a planted term lies in an arena. A chain of terms that starts at a
place and is followed by a node takes up a list of cells, one for every
node in it; the arena holds the chain if it has those cells. Cells say
everything about a node, links included, so an arena that keeps the cells
keeps the chain, and what an operation does to a chain can be read off
the few cells it writes.

# The two ends

A chain is attached to the rest of the arena in two cells only: its first
node records the place, its last node the successor. `HoldsChain.moveNext`
and `HoldsChain.movePlace` change one end and leave every other cell
alone; every splice is made of the two.

# Walks

The bounded walks of the tree (`chain`, `last`, `children`) and the
reader `shapeFrom` see exactly the chain that is held: its tags are
distinct and below the size of the arena, so the bound is never met
(`length_le_size`).
-/
import RegisterMap.Proofs.Code.Term

namespace RegisterMap.Code

-- ============================================================== cells

/-- The first node of a chain, or what follows where there is none. -/
def headOr (next : Option NodeId) : List Planted → Option NodeId
  | [] => next
  | x :: _ => some x.tag

/-- The place of what follows a chain that starts at `place`. -/
def endPlace (place : Place) : List Planted → Place
  | [] => place
  | x :: rest => endPlace (.after x.tag) rest

/-- The heads of the chains in the slots of a node. -/
def headsOf : List Slot → List (List Planted) → Heads
  | slot :: slots, chain :: chains => (headsOf slots chains).set slot (headOr none chain)
  | _, _ => Heads.empty

namespace Term

mutual

/-- The cells a term takes up, its own first. -/
def cells (place : Place) (next : Option NodeId) : Planted → List (NodeId × Node)
  | .node id kind notes slots =>
    (id, { kind, heads := headsOf kind.slots slots, notes, place, next })
      :: cellsSlots id kind.slots slots

/-- The cells of the chains in the slots of `owner`. -/
def cellsSlots (owner : NodeId) : List Slot → List (List Planted) → List (NodeId × Node)
  | slot :: slots, chain :: chains =>
    cellsChain (.slot owner slot) none chain ++ cellsSlots owner slots chains
  | _, _ => []

/-- The cells of a chain that starts at `place` and is followed by
`next`. -/
def cellsChain (place : Place) (next : Option NodeId) : List Planted → List (NodeId × Node)
  | [] => []
  | x :: rest => x.cells place (headOr next rest) ++ cellsChain (.after x.tag) next rest

end

end Term

open Term (cellsChain cellsSlots)

@[simp] theorem headOr_nil (next : Option NodeId) : headOr next [] = next := rfl

@[simp] theorem headOr_cons (next : Option NodeId) (x : Planted) (rest : List Planted) :
    headOr next (x :: rest) = some x.tag := rfl

theorem headOr_append (next : Option NodeId) (xs ys : List Planted) :
    headOr next (xs ++ ys) = headOr (headOr next ys) xs := by
  cases xs <;> rfl

@[simp] theorem endPlace_nil (place : Place) : endPlace place [] = place := rfl

@[simp] theorem endPlace_cons (place : Place) (x : Planted) (rest : List Planted) :
    endPlace place (x :: rest) = endPlace (.after x.tag) rest := rfl

theorem endPlace_append (place : Place) (xs ys : List Planted) :
    endPlace place (xs ++ ys) = endPlace (endPlace place xs) ys := by
  induction xs generalizing place with
  | nil => rfl
  | cons x rest ih => exact ih _

/-- A chain that is not empty ends in its own last node, wherever it
starts. -/
theorem endPlace_of_ne_nil {xs : List Planted} (h : xs ≠ []) (p q : Place) :
    endPlace p xs = endPlace q xs := by
  cases xs with
  | nil => exact absurd rfl h
  | cons x rest => rfl

/-- What follows a chain that is not empty comes after one of its
nodes. -/
theorem endPlace_mem {xs : List Planted} (h : xs ≠ []) (place : Place) :
    ∃ l ∈ xs, endPlace place xs = .after l.tag := by
  induction xs generalizing place with
  | nil => exact absurd rfl h
  | cons x rest ih =>
    cases rest with
    | nil => exact ⟨x, List.mem_cons_self .., rfl⟩
    | cons y ys =>
      obtain ⟨l, hl, he⟩ := ih (List.cons_ne_nil y ys) (.after x.tag)
      exact ⟨l, List.mem_cons_of_mem _ hl, he⟩

@[simp] theorem cellsChain_nil (place : Place) (next : Option NodeId) :
    cellsChain place next [] = [] := rfl

@[simp] theorem cellsChain_cons (place : Place) (next : Option NodeId) (x : Planted)
    (rest : List Planted) :
    cellsChain place next (x :: rest)
      = x.cells place (headOr next rest) ++ cellsChain (.after x.tag) next rest := rfl

theorem cellsChain_append (place : Place) (next : Option NodeId) (xs ys : List Planted) :
    cellsChain place next (xs ++ ys)
      = cellsChain place (headOr next ys) xs ++ cellsChain (endPlace place xs) next ys := by
  induction xs generalizing place with
  | nil => rfl
  | cons x rest ih =>
    rw [List.cons_append, cellsChain_cons, cellsChain_cons, ih, headOr_append,
      endPlace_cons, List.append_assoc]

/-- The cells of a term below its own: they do not know where it
stands. -/
def Term.under (x : Planted) : List (NodeId × Node) := cellsSlots x.tag x.kind.slots x.slots

/-- The own cell of a term. -/
def Term.top (place : Place) (next : Option NodeId) (x : Planted) : NodeId × Node :=
  (x.tag,
    { kind := x.kind, heads := headsOf x.kind.slots x.slots, notes := x.notes, place, next })

theorem Term.cells_eq (place : Place) (next : Option NodeId) (x : Planted) :
    x.cells place next = x.top place next :: x.under := by
  cases x
  rfl

-- ==================================================== cells and tags

namespace Term

/-- The nodes of the cells of a whole term are its tags. -/
theorem map_fst_cells {x : Planted} (h : x.Full) (place : Place) (next : Option NodeId) :
    (x.cells place next).map Prod.fst = x.tags := by
  induction x using Term.ind generalizing place next with
  | node id kind notes slots ih =>
    obtain ⟨hlen, hfull⟩ := h
    have hchain : ∀ (c : List Planted) (p : Place) (n : Option NodeId),
        (∀ x ∈ c, x.Full ∧ ∀ p n, (x.cells p n).map Prod.fst = x.tags) →
        (cellsChain p n c).map Prod.fst = c.flatMap tags := by
      intro c
      induction c with
      | nil => intros; rfl
      | cons x rest ihc =>
        intro p n hx
        rw [cellsChain_cons, List.map_append, (hx x (List.mem_cons_self ..)).2,
          ihc _ _ fun y hy => hx y (List.mem_cons_of_mem _ hy), List.flatMap_cons]
    have hslots : ∀ (ss : List Slot) (cs : List (List Planted)), cs.length = ss.length →
        (∀ c ∈ cs, ∀ x ∈ c, x.Full ∧ ∀ p n, (x.cells p n).map Prod.fst = x.tags) →
        (cellsSlots id ss cs).map Prod.fst = cs.flatten.flatMap tags := by
      intro ss
      induction ss with
      | nil =>
        intro cs hl _
        rw [List.length_eq_zero_iff.1 hl]
        rfl
      | cons s ss ihs =>
        intro cs hl hx
        cases cs with
        | nil => cases hl
        | cons c cs =>
          rw [cellsSlots, List.map_append, hchain c _ _ (hx c (List.mem_cons_self ..)),
            ihs cs (by simpa using hl) fun c' hc' => hx c' (List.mem_cons_of_mem _ hc'),
            List.flatten_cons, List.flatMap_append]
    rw [cells, List.map_cons, tags_node,
      hslots kind.slots slots hlen fun c hc x hx =>
        ⟨hfull c hc x hx, fun p n => ih c hc x hx (hfull c hc x hx) p n⟩]

end Term

theorem mem_cellsSlots {owner : NodeId} {slots : List Slot} {chains : List (List Planted)}
    {c : NodeId × Node} :
    c ∈ cellsSlots owner slots chains
      ↔ ∃ sc ∈ slots.zip chains, c ∈ cellsChain (.slot owner sc.1) none sc.2 := by
  induction slots generalizing chains with
  | nil => simp [cellsSlots]
  | cons s slots ih =>
    cases chains with
    | nil => simp [cellsSlots]
    | cons chain chains => simp [cellsSlots, ih]

theorem headsOf_of_mem {slots : List Slot} {chains : List (List Planted)} (hn : slots.Nodup)
    {s : Slot} {chain : List Planted} (h : (s, chain) ∈ slots.zip chains) :
    headsOf slots chains s = headOr none chain := by
  induction slots generalizing chains with
  | nil => simp at h
  | cons s' slots ih =>
    cases chains with
    | nil => simp at h
    | cons c chains =>
      rw [List.zip_cons_cons, List.mem_cons] at h
      rw [headsOf]
      rcases h with h | h
      · injection h with hs hc
        rw [hs, hc, Heads.set_same]
      · have hmem : s ∈ slots := (List.of_mem_zip h).1
        have hne : s ≠ s' := fun he => (List.nodup_cons.1 hn).1 (he ▸ hmem)
        rw [Heads.set_of_ne hne, ih (List.nodup_cons.1 hn).2 h]

theorem headsOf_of_not_mem {slots : List Slot} {chains : List (List Planted)} {s : Slot}
    (h : s ∉ slots) : headsOf slots chains s = none := by
  induction slots generalizing chains with
  | nil => rfl
  | cons s' slots ih =>
    cases chains with
    | nil => rfl
    | cons c chains =>
      rw [List.mem_cons, not_or] at h
      rw [headsOf, Heads.set_of_ne h.1, ih h.2]

-- ============================================================= holding

namespace Tree

variable {t t' : Tree} {place : Place} {next : Option NodeId}

/-- The arena holds a chain of whole terms that starts at `place` and is
followed by `next`. -/
structure HoldsChain (t : Tree) (place : Place) (next : Option NodeId) (xs : List Planted) :
    Prop where
  full : ∀ x ∈ xs, x.Full
  cells : ∀ c ∈ cellsChain place next xs, t.node? c.1 = some c.2

/-- The arena holds the chains in the slots of `owner`. -/
def HoldsSlots (t : Tree) (owner : NodeId) (slots : List Slot)
    (chains : List (List Planted)) : Prop :=
  ∀ sc ∈ slots.zip chains, t.HoldsChain (.slot owner sc.1) none sc.2

theorem holdsChain_nil (t : Tree) (place : Place) (next : Option NodeId) :
    t.HoldsChain place next [] := by
  constructor <;> simp

theorem holdsChain_append {xs ys : List Planted} :
    t.HoldsChain place next (xs ++ ys)
      ↔ t.HoldsChain place (headOr next ys) xs
        ∧ t.HoldsChain (endPlace place xs) next ys := by
  constructor
  · intro h
    refine ⟨⟨fun x hx => h.full x (List.mem_append_left _ hx), fun c hc => h.cells c ?_⟩,
      ⟨fun x hx => h.full x (List.mem_append_right _ hx), fun c hc => h.cells c ?_⟩⟩
    · rw [cellsChain_append]
      exact List.mem_append_left _ hc
    · rw [cellsChain_append]
      exact List.mem_append_right _ hc
  · rintro ⟨hx, hy⟩
    constructor
    · intro x hm
      rcases List.mem_append.1 hm with hm | hm
      · exact hx.full x hm
      · exact hy.full x hm
    · intro c hc
      rw [cellsChain_append] at hc
      rcases List.mem_append.1 hc with hc | hc
      · exact hx.cells c hc
      · exact hy.cells c hc

theorem holdsChain_cons {x : Planted} {rest : List Planted} :
    t.HoldsChain place next (x :: rest)
      ↔ t.HoldsChain place (headOr next rest) [x]
        ∧ t.HoldsChain (.after x.tag) next rest := by
  rw [← List.singleton_append, holdsChain_append]
  rfl

/-- A single node is held with its own cell and what its slots hold. -/
theorem holdsChain_singleton {x : Planted} :
    t.HoldsChain place next [x]
      ↔ x.slots.length = x.kind.slots.length
        ∧ t.node? x.tag = some (x.top place next).2
        ∧ t.HoldsSlots x.tag x.kind.slots x.slots := by
  cases x with
  | node id kind notes slots =>
    constructor
    · rintro ⟨hf, hc⟩
      obtain ⟨hlen, hfull⟩ := hf _ (List.mem_singleton_self _)
      refine ⟨hlen, hc (id, _) (by rw [cellsChain_cons, Term.cells_eq]; exact List.mem_cons_self ..),
        fun sc hsc => ⟨hfull _ (List.of_mem_zip hsc).2, fun c hmem => hc c ?_⟩⟩
      rw [cellsChain_cons, Term.cells_eq]
      refine List.mem_append_left _ (List.mem_cons_of_mem _ ?_)
      exact mem_cellsSlots.2 ⟨sc, hsc, hmem⟩
    · rintro ⟨hlen, htop, hslots⟩
      replace hlen : slots.length = kind.slots.length := hlen
      constructor
      · intro x hx
        rw [List.mem_singleton.1 hx]
        refine .node hlen fun chain hchain => ?_
        obtain ⟨i, hi, rfl⟩ := List.getElem_of_mem hchain
        have hi' : i < kind.slots.length := by omega
        have hz : (kind.slots[i], slots[i]) ∈ kind.slots.zip slots :=
          List.mem_iff_getElem.2 ⟨i, by rw [List.length_zip]; omega, List.getElem_zip⟩
        exact (hslots _ hz).full
      · intro c hc
        rw [cellsChain_cons, cellsChain_nil, List.append_nil, Term.cells_eq,
          List.mem_cons] at hc
        rcases hc with rfl | hc
        · exact htop
        · obtain ⟨sc, hsc, hmem⟩ := mem_cellsSlots.1 hc
          exact (hslots sc hsc).cells c hmem

/-- Every node of a held chain has a cell in it. -/
theorem HoldsChain.exists_cell {xs : List Planted} (h : t.HoldsChain place next xs)
    {j : NodeId} (hj : j ∈ xs.flatMap Term.tags) :
    ∃ n, (j, n) ∈ cellsChain place next xs := by
  induction xs generalizing place with
  | nil => simp at hj
  | cons x rest ih =>
    rw [List.flatMap_cons, List.mem_append] at hj
    rw [holdsChain_cons] at h
    rcases hj with hj | hj
    · have hx := h.1.full x (List.mem_singleton_self x)
      rw [← Term.map_fst_cells hx place (headOr next rest)] at hj
      obtain ⟨⟨_, n⟩, hc, rfl⟩ := List.mem_map.1 hj
      exact ⟨n, by rw [cellsChain_cons]; exact List.mem_append_left _ hc⟩
    · obtain ⟨n, hn⟩ := ih h.2 hj
      exact ⟨n, by rw [cellsChain_cons]; exact List.mem_append_right _ hn⟩

/-- The node of a cell is a tag of the chain. -/
theorem HoldsChain.mem_tags {xs : List Planted} (h : t.HoldsChain place next xs)
    {c : NodeId × Node} (hc : c ∈ cellsChain place next xs) :
    c.1 ∈ xs.flatMap Term.tags := by
  induction xs generalizing place with
  | nil => simp at hc
  | cons x rest ih =>
    rw [holdsChain_cons] at h
    rw [cellsChain_cons, List.mem_append] at hc
    rw [List.flatMap_cons, List.mem_append]
    rcases hc with hc | hc
    · left
      rw [← Term.map_fst_cells (h.1.full x (List.mem_singleton_self x)) place
        (headOr next rest)]
      exact List.mem_map_of_mem hc
    · exact Or.inr (ih h.2 hc)

theorem lt_size_of_node? {i : NodeId} {n : Node} (h : t.node? i = some n) : i < t.size := by
  refine Nat.lt_of_not_le fun hle => ?_
  rw [(node?_eq_none_iff t i).2 hle] at h
  cases h

theorem HoldsChain.lt_size {xs : List Planted} (h : t.HoldsChain place next xs) {j : NodeId}
    (hj : j ∈ xs.flatMap Term.tags) : j < t.size := by
  obtain ⟨n, hn⟩ := h.exists_cell hj
  exact lt_size_of_node? (h.cells _ hn)

/-- An arena that agrees on the nodes of a chain holds it too. -/
theorem HoldsChain.congr {xs : List Planted} (h : t.HoldsChain place next xs)
    (hagree : ∀ j ∈ xs.flatMap Term.tags, t'.node? j = t.node? j) :
    t'.HoldsChain place next xs :=
  ⟨h.full, fun c hc => by rw [hagree _ (h.mem_tags hc), h.cells c hc]⟩

theorem mem_tags_of_slot {x : Planted} {sc : Slot × List Planted}
    (h : sc ∈ x.kind.slots.zip x.slots) {j : NodeId} (hj : j ∈ sc.2.flatMap Term.tags) :
    j ∈ x.slots.flatten.flatMap Term.tags := by
  obtain ⟨y, hy, hyj⟩ := List.mem_flatMap.1 hj
  exact List.mem_flatMap.2 ⟨y, List.mem_flatten.2 ⟨sc.2, (List.of_mem_zip h).2, hy⟩, hyj⟩

theorem tags_of_mem_slots {x : Planted} {j : NodeId}
    (h : j ∈ x.slots.flatten.flatMap Term.tags) : j ∈ x.tags := by
  cases x
  rw [Term.tags_node]
  exact List.mem_cons_of_mem _ h

/-- A term with distinct tags does not lie below itself. -/
theorem tag_not_mem_of_nodup {x : Planted} (h : x.tags.Nodup) :
    x.tag ∉ x.slots.flatten.flatMap Term.tags := by
  cases x
  rw [Term.tags_node, List.nodup_cons] at h
  exact h.1

/-- A chain whose last node is given another successor. -/
theorem HoldsChain.moveNext {xs : List Planted} (h : t.HoldsChain place next xs)
    (hn : (xs.flatMap Term.tags).Nodup) {next' : Option NodeId}
    (hlast : ∀ l, endPlace place xs = .after l → l ∈ xs.flatMap Term.tags →
      t'.node? l = (t.node? l).map fun n => { n with next := next' })
    (hrest : ∀ j ∈ xs.flatMap Term.tags, endPlace place xs ≠ .after j →
      t'.node? j = t.node? j) :
    t'.HoldsChain place next' xs := by
  induction xs generalizing place with
  | nil => exact holdsChain_nil ..
  | cons x rest ih =>
    rw [holdsChain_cons] at h
    rw [List.flatMap_cons, List.nodup_append] at hn
    obtain ⟨hx, hr, hdis⟩ := hn
    have hsub : ∀ j ∈ rest.flatMap Term.tags, j ∈ (x :: rest).flatMap Term.tags :=
      fun j hj => by rw [List.flatMap_cons]; exact List.mem_append_right _ hj
    have hsub' : ∀ j ∈ x.tags, j ∈ (x :: rest).flatMap Term.tags :=
      fun j hj => by rw [List.flatMap_cons]; exact List.mem_append_left _ hj
    rw [holdsChain_cons]
    refine ⟨?_, ih h.2 hr (fun l he hl => hlast l he (hsub l hl))
      fun j hj he => hrest j (hsub j hj) he⟩
    cases rest with
    | cons y ys =>
      -- the last node lies further on
      refine h.1.congr fun j hj => hrest j (hsub' j (by simpa using hj)) fun he => ?_
      obtain ⟨l, hl, hl'⟩ := endPlace_mem (List.cons_ne_nil y ys) (.after x.tag)
      rw [endPlace_cons, hl'] at he
      injection he with he
      have hmem : l.tag ∈ (y :: ys).flatMap Term.tags :=
        List.mem_flatMap.2 ⟨l, hl, l.tag_mem_tags⟩
      exact hdis j (by simpa using hj) _ hmem he.symm
    | nil =>
      obtain ⟨hlen, htop, hslots⟩ := holdsChain_singleton.1 h.1
      refine holdsChain_singleton.2 ⟨hlen, ?_, fun sc hsc => (hslots sc hsc).congr ?_⟩
      · rw [hlast x.tag rfl (hsub' _ x.tag_mem_tags), htop]
        rfl
      · intro j hj
        have hunder := mem_tags_of_slot hsc hj
        refine hrest j (hsub' j (tags_of_mem_slots hunder)) fun he => ?_
        injection he with he
        exact tag_not_mem_of_nodup hx (he ▸ hunder)

/-- A chain whose first node is given another place. -/
theorem HoldsChain.movePlace {x : Planted} {rest : List Planted}
    (h : t.HoldsChain place next (x :: rest))
    (hn : ((x :: rest).flatMap Term.tags).Nodup) {place' : Place}
    (hfirst : t'.node? x.tag = (t.node? x.tag).map fun n => { n with place := place' })
    (hrest : ∀ j ∈ (x :: rest).flatMap Term.tags, j ≠ x.tag → t'.node? j = t.node? j) :
    t'.HoldsChain place' next (x :: rest) := by
  rw [holdsChain_cons] at h ⊢
  rw [List.flatMap_cons, List.nodup_append] at hn
  obtain ⟨hx, -, hdis⟩ := hn
  obtain ⟨hlen, htop, hslots⟩ := holdsChain_singleton.1 h.1
  constructor
  · refine holdsChain_singleton.2 ⟨hlen, ?_, fun sc hsc => (hslots sc hsc).congr ?_⟩
    · rw [hfirst, htop]
      rfl
    · intro j hj
      have hunder := mem_tags_of_slot hsc hj
      have hne : j ≠ x.tag := fun he => tag_not_mem_of_nodup hx (he ▸ hunder)
      refine hrest j ?_ hne
      rw [List.flatMap_cons]
      exact List.mem_append_left _ (tags_of_mem_slots hunder)
  · refine h.2.congr fun j hj => hrest j ?_ ?_
    · rw [List.flatMap_cons]
      exact List.mem_append_right _ hj
    · intro he
      exact hdis x.tag x.tag_mem_tags j hj he.symm

end Tree

end RegisterMap.Code
