/-
Links that are recorded at both ends. An arena is `Mutual` if a node
follows another exactly when the other says so, and heads a slot exactly
when the slot says so. Every operation on links keeps this; it is what
lets an argument about a held chain stay local, for a climb through the
places of an arena can then enter a chain only from within the chain
(`mem_of_lineage`), and linking an unlinked chain at a node outside of it
never closes a cycle (`wouldCycle_eq_false`).

The equations at the beginning say what each elementary update does to
the three readings of a link: `place`, `next?` and `head`.
-/
import RegisterMap.Proofs.Code.Reading

namespace RegisterMap.Code

open Term (cellsChain)

namespace Tree

variable {t : Tree}

-- ================================================ elementary updates

theorem node?_setPlace (t : Tree) (i j : NodeId) (p : Place) :
    (t.setPlace i p).node? j
      = if i = j then (t.node? j).map fun n => { n with place := p } else t.node? j :=
  node?_update ..

theorem node?_setNext (t : Tree) (i j : NodeId) (next : Option NodeId) :
    (t.setNext i next).node? j
      = if i = j then (t.node? j).map fun n => { n with next := next } else t.node? j :=
  node?_update ..

theorem node?_setHead (t : Tree) (i j : NodeId) (s : Slot) (head : Option NodeId) :
    (t.setHead i s head).node? j
      = if i = j then (t.node? j).map fun n => { n with heads := n.heads.set s head }
        else t.node? j :=
  node?_update ..

theorem isSome_node?_iff (t : Tree) (i : NodeId) : (t.node? i).isSome ↔ i < t.size := by
  rw [Option.isSome_iff_ne_none, ne_eq, node?_eq_none_iff, Nat.not_le]

theorem exists_node?_of_lt {i : NodeId} (h : i < t.size) : ∃ n, t.node? i = some n :=
  Option.isSome_iff_exists.1 ((isSome_node?_iff t i).2 h)

@[simp] theorem size_setPlace (t : Tree) (i : NodeId) (p : Place) :
    (t.setPlace i p).size = t.size := size_update ..

@[simp] theorem size_setNext (t : Tree) (i : NodeId) (next : Option NodeId) :
    (t.setNext i next).size = t.size := size_update ..

@[simp] theorem size_setHead (t : Tree) (i : NodeId) (s : Slot) (head : Option NodeId) :
    (t.setHead i s head).size = t.size := size_update ..

@[simp] theorem place_setPlace (t : Tree) (i j : NodeId) (p : Place) :
    (t.setPlace i p).place j = if i = j ∧ j < t.size then p else t.place j := by
  unfold Tree.place
  rw [node?_setPlace]
  by_cases hij : i = j
  · by_cases hj : j < t.size
    · obtain ⟨n, hn⟩ := exists_node?_of_lt hj
      simp [hij, hj, hn]
    · have hn := (node?_eq_none_iff t j).2 (Nat.le_of_not_lt hj)
      simp [hij, hj, hn]
  · simp [hij]

@[simp] theorem place_setNext (t : Tree) (i j : NodeId) (next : Option NodeId) :
    (t.setNext i next).place j = t.place j := by
  unfold Tree.place
  rw [node?_setNext]
  split
  · rw [Option.map_map]
    rfl
  · rfl

@[simp] theorem place_setHead (t : Tree) (i j : NodeId) (s : Slot) (head : Option NodeId) :
    (t.setHead i s head).place j = t.place j := by
  unfold Tree.place
  rw [node?_setHead]
  split
  · rw [Option.map_map]
    rfl
  · rfl

@[simp] theorem next?_setPlace (t : Tree) (i j : NodeId) (p : Place) :
    (t.setPlace i p).next? j = t.next? j := by
  unfold Tree.next?
  rw [node?_setPlace]
  split
  · rw [Option.bind_map]
    rfl
  · rfl

@[simp] theorem next?_setNext (t : Tree) (i j : NodeId) (next : Option NodeId) :
    (t.setNext i next).next? j = if i = j ∧ j < t.size then next else t.next? j := by
  unfold Tree.next?
  rw [node?_setNext]
  by_cases hij : i = j
  · by_cases hj : j < t.size
    · obtain ⟨n, hn⟩ := exists_node?_of_lt hj
      simp [hij, hj, hn]
    · have hn := (node?_eq_none_iff t j).2 (Nat.le_of_not_lt hj)
      simp [hij, hj, hn]
  · simp [hij]

@[simp] theorem next?_setHead (t : Tree) (i j : NodeId) (s : Slot) (head : Option NodeId) :
    (t.setHead i s head).next? j = t.next? j := by
  unfold Tree.next?
  rw [node?_setHead]
  split
  · rw [Option.bind_map]
    rfl
  · rfl

@[simp] theorem head_setPlace (t : Tree) (i j : NodeId) (p : Place) (s : Slot) :
    (t.setPlace i p).head j s = t.head j s := by
  unfold Tree.head
  rw [node?_setPlace]
  split
  · rw [Option.bind_map]
    rfl
  · rfl

@[simp] theorem head_setNext (t : Tree) (i j : NodeId) (next : Option NodeId) (s : Slot) :
    (t.setNext i next).head j s = t.head j s := by
  unfold Tree.head
  rw [node?_setNext]
  split
  · rw [Option.bind_map]
    rfl
  · rfl

@[simp] theorem head_setHead (t : Tree) (i j : NodeId) (s s' : Slot)
    (head : Option NodeId) :
    (t.setHead i s head).head j s'
      = if i = j ∧ s = s' ∧ j < t.size then head else t.head j s' := by
  unfold Tree.head
  rw [node?_setHead]
  by_cases hij : i = j
  · by_cases hj : j < t.size
    · obtain ⟨n, hn⟩ := exists_node?_of_lt hj
      by_cases hs : s = s'
      · simp [hij, hj, hn, hs]
      · simp [hij, hj, hn, hs, Heads.set_of_ne (Ne.symm hs)]
    · have hn := (node?_eq_none_iff t j).2 (Nat.le_of_not_lt hj)
      simp [hij, hj, hn]
  · simp [hij]

-- ======================================================= both ends

/-- Every link is recorded at both of its ends. -/
structure Mutual (t : Tree) : Prop where
  next_iff : ∀ p x, t.next? p = some x ↔ t.place x = .after p
  head_iff : ∀ o s x, t.head o s = some x ↔ t.place x = .slot o s

/-- Nothing is linked in the empty arena. -/
theorem mutual_empty : Mutual {} where
  next_iff := fun _ _ => ⟨fun h => (nomatch h), fun h => (nomatch h)⟩
  head_iff := fun _ _ _ => ⟨fun h => (nomatch h), fun h => (nomatch h)⟩

/-- Whatever is linked exists, and so does what it is linked to. -/
theorem lt_size_of_place {i : NodeId} (h : t.place i ≠ .root) : i < t.size := by
  refine Nat.lt_of_not_le fun hle => h ?_
  unfold Tree.place
  rw [(node?_eq_none_iff t i).2 hle]
  rfl

theorem lt_size_of_next? {p x : NodeId} (h : t.next? p = some x) : p < t.size := by
  refine Nat.lt_of_not_le fun hle => ?_
  unfold Tree.next? at h
  rw [(node?_eq_none_iff t p).2 hle] at h
  cases h

theorem lt_size_of_head {o x : NodeId} {s : Slot} (h : t.head o s = some x) :
    o < t.size := by
  refine Nat.lt_of_not_le fun hle => ?_
  unfold Tree.head at h
  rw [(node?_eq_none_iff t o).2 hle] at h
  cases h

-- ==================================================== closed downwards

theorem headOr_mem {xs : List Planted} {i : NodeId} (h : headOr none xs = some i) :
    i ∈ xs.flatMap Term.tags := by
  cases xs with
  | nil => cases h
  | cons x rest =>
    injection h with h
    rw [List.flatMap_cons, ← h]
    exact List.mem_append_left _ x.tag_mem_tags

theorem headsOf_mem {slots : List Slot} {chains : List (List Planted)} {s : Slot}
    {i : NodeId} (h : headsOf slots chains s = some i) :
    i ∈ chains.flatten.flatMap Term.tags := by
  induction slots generalizing chains with
  | nil => cases h
  | cons s' slots ih =>
    cases chains with
    | nil => cases h
    | cons c chains =>
      rw [List.flatten_cons, List.flatMap_append, List.mem_append]
      by_cases hs : s = s'
      · rw [hs, headsOf, Heads.set_same] at h
        exact Or.inl (headOr_mem h)
      · rw [headsOf, Heads.set_of_ne hs] at h
        exact Or.inr (ih h)

/-- A node whose links lead to `tags`, its last one possibly to `next`. -/
def Inward (tags : List NodeId) (next : Option NodeId) (n : Node) : Prop :=
  (∀ s i, n.heads s = some i → i ∈ tags) ∧ ∀ i, n.next = some i → i ∈ tags ∨ next = some i

theorem inward_cellsChain {xs : List Planted}
    (hx : ∀ x ∈ xs, ∀ p n, ∀ c ∈ x.cells p n, Inward x.tags n c.2) (place : Place)
    (next : Option NodeId) :
    ∀ c ∈ cellsChain place next xs, Inward (xs.flatMap Term.tags) next c.2 := by
  induction xs generalizing place with
  | nil => simp
  | cons x rest ih =>
    intro c hc
    rw [cellsChain_cons, List.mem_append] at hc
    simp only [Inward, List.flatMap_cons, List.mem_append]
    rcases hc with hc | hc
    · obtain ⟨hh, hn⟩ := hx x (List.mem_cons_self ..) _ _ c hc
      refine ⟨fun s i h => Or.inl (hh s i h), fun i h => ?_⟩
      rcases hn i h with hm | hm
      · exact Or.inl (Or.inl hm)
      · cases rest with
        | nil => exact Or.inr hm
        | cons y ys =>
          injection hm with hm
          refine Or.inl (Or.inr ?_)
          rw [← hm, List.flatMap_cons]
          exact List.mem_append_left _ y.tag_mem_tags
    · obtain ⟨hh, hn⟩ := ih (fun y hy => hx y (List.mem_cons_of_mem _ hy)) _ c hc
      refine ⟨fun s i h => Or.inr (hh s i h), fun i h => ?_⟩
      rcases hn i h with hm | hm
      · exact Or.inl (Or.inr hm)
      · exact Or.inr hm

/-- No link leads out of a term but the one to its successor. -/
theorem inward_cells (x : Planted) (place : Place) (next : Option NodeId) :
    ∀ c ∈ x.cells place next, Inward x.tags next c.2 := by
  induction x using Term.ind generalizing place next with
  | node id kind notes slots ih =>
    intro c hc
    rw [Term.cells_eq, List.mem_cons] at hc
    rw [Term.tags_node]
    rcases hc with rfl | hc
    · exact ⟨fun s i h => List.mem_cons_of_mem _ (headsOf_mem h), fun i h => Or.inr h⟩
    · obtain ⟨sc, hsc, hmem⟩ := mem_cellsSlots.1 hc
      have hslot : sc.2 ∈ slots := (List.of_mem_zip hsc).2
      obtain ⟨hh, hn⟩ := inward_cellsChain (fun y hy => ih sc.2 hslot y hy) _ _ c hmem
      have hup : ∀ i ∈ sc.2.flatMap Term.tags, i ∈ id :: slots.flatten.flatMap Term.tags :=
        fun i hi => List.mem_cons_of_mem _ (mem_tags_of_slot hsc hi)
      refine ⟨fun s i h => hup i (hh s i h), fun i h => Or.inl ?_⟩
      rcases hn i h with hm | hm
      · exact hup i hm
      · cases hm

/-- A node that stands at `start` or at a node of `tags`. -/
def Outward (tags : List NodeId) (start : Place) (n : Node) : Prop :=
  n.place = start ∨ (∃ p ∈ tags, n.place = .after p) ∨ ∃ o ∈ tags, ∃ s, n.place = .slot o s

theorem outward_cellsChain {xs : List Planted}
    (hx : ∀ x ∈ xs, ∀ p n, ∀ c ∈ x.cells p n, Outward x.tags p c.2) (place : Place)
    (next : Option NodeId) :
    ∀ c ∈ cellsChain place next xs, Outward (xs.flatMap Term.tags) place c.2 := by
  induction xs generalizing place with
  | nil => simp
  | cons x rest ih =>
    intro c hc
    rw [cellsChain_cons, List.mem_append] at hc
    simp only [Outward, List.flatMap_cons, List.mem_append]
    rcases hc with hc | hc
    · rcases hx x (List.mem_cons_self ..) _ _ c hc with h | ⟨p, hp, h⟩ | ⟨o, ho, s, h⟩
      · exact Or.inl h
      · exact Or.inr (Or.inl ⟨p, Or.inl hp, h⟩)
      · exact Or.inr (Or.inr ⟨o, Or.inl ho, s, h⟩)
    · rcases ih (fun y hy => hx y (List.mem_cons_of_mem _ hy)) _ c hc with
        h | ⟨p, hp, h⟩ | ⟨o, ho, s, h⟩
      · exact Or.inr (Or.inl ⟨x.tag, Or.inl x.tag_mem_tags, h⟩)
      · exact Or.inr (Or.inl ⟨p, Or.inr hp, h⟩)
      · exact Or.inr (Or.inr ⟨o, Or.inr ho, s, h⟩)

theorem outward_cells (x : Planted) (place : Place) (next : Option NodeId) :
    ∀ c ∈ x.cells place next, Outward x.tags place c.2 := by
  induction x using Term.ind generalizing place next with
  | node id kind notes slots ih =>
    intro c hc
    rw [Term.cells_eq, List.mem_cons] at hc
    rw [Term.tags_node]
    rcases hc with rfl | hc
    · exact Or.inl rfl
    · obtain ⟨sc, hsc, hmem⟩ := mem_cellsSlots.1 hc
      have hslot : sc.2 ∈ slots := (List.of_mem_zip hsc).2
      have hup : ∀ i ∈ sc.2.flatMap Term.tags, i ∈ id :: slots.flatten.flatMap Term.tags :=
        fun i hi => List.mem_cons_of_mem _ (mem_tags_of_slot hsc hi)
      rcases outward_cellsChain (fun y hy => ih sc.2 hslot y hy) _ _ c hmem with
        h | ⟨p, hp, h⟩ | ⟨o, ho, s, h⟩
      · exact Or.inr (Or.inr ⟨id, List.mem_cons_self .., sc.1, h⟩)
      · exact Or.inr (Or.inl ⟨p, hup p hp, h⟩)
      · exact Or.inr (Or.inr ⟨o, hup o ho, s, h⟩)

theorem HoldsChain.next_mem {xs : List Planted} {place : Place} {next : Option NodeId}
    (h : t.HoldsChain place next xs) {p i : NodeId} (hp : p ∈ xs.flatMap Term.tags)
    (hi : t.next? p = some i) : i ∈ xs.flatMap Term.tags ∨ next = some i := by
  obtain ⟨n, hn⟩ := h.exists_cell hp
  unfold Tree.next? at hi
  rw [h.cells _ hn] at hi
  exact (inward_cellsChain (fun x _ => inward_cells x) _ _ _ hn).2 i hi

theorem HoldsChain.head_mem {xs : List Planted} {place : Place} {next : Option NodeId}
    (h : t.HoldsChain place next xs) {o i : NodeId} {s : Slot}
    (ho : o ∈ xs.flatMap Term.tags) (hi : t.head o s = some i) :
    i ∈ xs.flatMap Term.tags := by
  obtain ⟨n, hn⟩ := h.exists_cell ho
  unfold Tree.head at hi
  rw [h.cells _ hn] at hi
  exact (inward_cellsChain (fun x _ => inward_cells x) _ _ _ hn).1 s i hi

/-- The places of a held chain are its own, its first one apart. -/
theorem HoldsChain.place_mem {xs : List Planted} {place : Place} {next : Option NodeId}
    (h : t.HoldsChain place next xs) {j : NodeId} (hj : j ∈ xs.flatMap Term.tags) :
    t.place j = place ∨ (∃ p ∈ xs.flatMap Term.tags, t.place j = .after p)
      ∨ ∃ o ∈ xs.flatMap Term.tags, ∃ s, t.place j = .slot o s := by
  obtain ⟨n, hn⟩ := h.exists_cell hj
  have hp : t.place j = n.place := by
    unfold Tree.place
    rw [h.cells _ hn]
    rfl
  rw [hp]
  exact outward_cellsChain (fun x _ => outward_cells x) _ _ _ hn

-- ============================================================== climbs

section Climb

variable {xs : List Planted} {place : Place}

/-- A step back along a chain does not enter a held chain from outside. -/
theorem mem_of_firstFrom (hm : t.Mutual) (h : t.HoldsChain place none xs) (fuel : Nat) :
    ∀ i, t.firstFrom fuel i ∈ xs.flatMap Term.tags → i ∈ xs.flatMap Term.tags := by
  induction fuel with
  | zero => exact fun _ h => h
  | succ fuel ih =>
    intro i hi
    cases hp : t.place i with
    | root =>
      rw [firstFrom, previous?, hp] at hi
      exact hi
    | slot o s =>
      rw [firstFrom, previous?, hp] at hi
      exact hi
    | after p =>
      rw [firstFrom, previous?, hp] at hi
      rcases h.next_mem (ih p hi) ((hm.next_iff p i).2 hp) with hmem | hmem
      · exact hmem
      · cases hmem

/-- Neither does a climb from node to owner. -/
theorem mem_of_lineageFrom (hm : t.Mutual) (h : t.HoldsChain place none xs) (fuel : Nat) :
    ∀ i, (∃ j ∈ t.lineageFrom fuel i, j ∈ xs.flatMap Term.tags) →
      i ∈ xs.flatMap Term.tags := by
  induction fuel with
  | zero =>
    rintro i ⟨j, hj, -⟩
    cases hj
  | succ fuel ih =>
    rintro i ⟨j, hj, hmem⟩
    have hfirst := mem_of_firstFrom hm h t.size i
    rw [lineageFrom, List.mem_cons, List.mem_cons] at hj
    rcases hj with rfl | rfl | hj
    · exact hmem
    · exact hfirst hmem
    · cases hp : t.place (t.first i) with
      | root =>
        rw [hp] at hj
        cases hj
      | after p =>
        rw [hp] at hj
        cases hj
      | slot o s =>
        rw [hp] at hj
        exact hfirst (h.head_mem (ih o ⟨j, hj, hmem⟩) ((hm.head_iff o s _).2 hp))

/-- Linking a chain at a node outside of it closes no cycle. -/
theorem wouldCycle_eq_false {x : Planted} {rest : List Planted} (hm : t.Mutual)
    (h : t.HoldsChain place none (x :: rest))
    (hn : ((x :: rest).flatMap Term.tags).Nodup) {anchor : NodeId}
    (ha : anchor ∉ (x :: rest).flatMap Term.tags) : t.wouldCycle anchor x.tag = false := by
  have hc : t.chain (some x.tag) = (x :: rest).map Term.tag := chain_of_holds h hn
  unfold Tree.wouldCycle
  rw [hc, List.any_eq_false]
  intro j hj hmem
  rw [List.contains_iff_mem, List.mem_map] at hmem
  obtain ⟨y, hy, rfl⟩ := hmem
  have hy' : y.tag ∈ (x :: rest).flatMap Term.tags :=
    List.mem_flatMap.2 ⟨y, hy, y.tag_mem_tags⟩
  exact ha (mem_of_lineageFrom hm h _ anchor ⟨_, hj, hy'⟩)

end Climb

end Tree

end RegisterMap.Code
