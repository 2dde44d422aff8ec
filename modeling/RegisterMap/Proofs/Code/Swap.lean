/-
Exchange of one chain for another. An operation that rewrites code takes
a chain out of its place and leaves another one there; everything outside
of the two keeps its cell, except the two neighbours, which record the
new first and the new last node (`Node.relink`). `Swaps` says exactly
that of two arenas, and nothing about the nodes that were given up.

# How exchanges compose

- One after the other at the same place (`Swaps.trans`).
- A part of a chain is exchanged: so is the chain (`Swaps.inChain`).
- A chain below a node is exchanged: so is the node (`Swaps.inSlot`).

With these three a rewriting pass is reduced to what it does at a single
node.
-/
import RegisterMap.Proofs.Code.Mutual

namespace RegisterMap.Code

open Term (cellsChain)

/-- A neighbour of a place after the chain `ys` has been put there: what
holds the place holds the first node, what follows comes after the
last. -/
def Node.relink (place : Place) (next : Option NodeId) (ys : List Planted) (j : NodeId)
    (n : Node) : Node :=
  { n with
    heads := fun s => if place = .slot j s then headOr next ys else n.heads s
    next := if place = .after j then headOr next ys else n.next
    place := if next = some j then endPlace place ys else n.place }

namespace Tree

variable {t t' t'' : Tree} {place : Place} {next : Option NodeId} {j : NodeId}
  {xs ys zs pre post : List Planted} {old : List NodeId}

-- ============================================================ relinking

/-- A node that is no neighbour stays as it is. -/
theorem relink_of_apart {n : Node} (hs : ∀ s, place ≠ .slot j s) (ha : place ≠ .after j)
    (hn : next ≠ some j) : n.relink place next ys j = n := by
  unfold Node.relink
  simp only [hs, ha, hn, if_false]

theorem relink_relink (n : Node) :
    (n.relink place next ys j).relink place next zs j = n.relink place next zs j := by
  unfold Node.relink
  congr 1
  · funext s
    dsimp only
    split <;> rfl
  · dsimp only
    split <;> rfl
  · dsimp only
    split <;> rfl

-- ============================================================= standing

/-- A held chain with its neighbours outside of it. -/
structure Stands (t : Tree) (place : Place) (next : Option NodeId) (xs : List Planted) :
    Prop where
  linked : t.Mutual
  holds : t.HoldsChain place next xs
  nodup : (xs.flatMap Term.tags).Nodup
  ne_nil : xs ≠ []
  next_outside : ∀ m, next = some m → m ∉ xs.flatMap Term.tags
  owner_outside : ∀ o s, place = .slot o s → o ∉ xs.flatMap Term.tags
  previous_outside : ∀ p, place = .after p → p ∉ xs.flatMap Term.tags

theorem Stands.place_head (h : t.Stands place next xs) :
    ∃ i, headOr next xs = some i ∧ t.place i = place := by
  obtain ⟨x, rest, rfl⟩ := List.exists_cons_of_ne_nil h.ne_nil
  exact ⟨x.tag, rfl, (holdsChain_cons.1 h.holds).1.place_eq⟩

theorem HoldsChain.next?_end {x : Planted} {rest : List Planted}
    (h : t.HoldsChain place next (x :: rest)) :
    ∃ l, endPlace place (x :: rest) = .after l ∧ l ∈ (x :: rest).flatMap Term.tags
      ∧ t.next? l = next := by
  induction rest generalizing x place with
  | nil => exact ⟨x.tag, rfl, by simp [x.tag_mem_tags], h.next?_eq⟩
  | cons y ys ih =>
    rw [holdsChain_cons] at h
    obtain ⟨l, he, hl, hn⟩ := ih h.2
    exact ⟨l, he, by rw [List.flatMap_cons]; exact List.mem_append_right _ hl, hn⟩

theorem Stands.next_end (h : t.Stands place next xs) :
    ∃ l, endPlace place xs = .after l ∧ l ∈ xs.flatMap Term.tags ∧ t.next? l = next := by
  obtain ⟨x, rest, rfl⟩ := List.exists_cons_of_ne_nil h.ne_nil
  exact h.holds.next?_end

/-- The neighbours of a chain record it already. -/
theorem Stands.relink_self (h : t.Stands place next xs) {n : Node}
    (hn : t.node? j = some n) : n.relink place next xs j = n := by
  obtain ⟨i, hi, hp⟩ := h.place_head
  obtain ⟨l, hl, -, hnext⟩ := h.next_end
  unfold Node.relink
  congr 1
  · funext s
    split
    · next he =>
      have := (h.linked.head_iff j s i).2 (hp.trans he)
      unfold Tree.head at this
      rw [hn] at this
      exact hi.trans this.symm
    · rfl
  · split
    · next he =>
      have := (h.linked.next_iff l j).1 (hnext.trans he)
      unfold Tree.place at this
      rw [hn] at this
      exact hl.trans this.symm
    · rfl
  · split
    · next he =>
      have := (h.linked.next_iff j i).2 (hp.trans he)
      unfold Tree.next? at this
      rw [hn] at this
      exact hi.trans this.symm
    · rfl

-- ============================================================ exchanges

/-- The nodes `old` are given up for the chain `ys`, which stands at
`place` now, followed by `next`. -/
structure Swaps (t t' : Tree) (place : Place) (next : Option NodeId) (old : List NodeId)
    (ys : List Planted) : Prop where
  grows : t.size ≤ t'.size
  linked : t'.Mutual
  holds : t'.HoldsChain place next ys
  nodup : (ys.flatMap Term.tags).Nodup
  fresh : ∀ j ∈ ys.flatMap Term.tags, j ∈ old ∨ t.size ≤ j
  frame : ∀ j, j < t.size → j ∉ old →
    t'.node? j = (t.node? j).map (Node.relink place next ys j)
  names : ∀ j, j < t.size → t'.name j = t.name j

/-- Nothing happens. -/
theorem Stands.swaps_refl (h : t.Stands place next xs) :
    Swaps t t place next (xs.flatMap Term.tags) xs where
  grows := Nat.le_refl _
  linked := h.linked
  holds := h.holds
  nodup := h.nodup
  fresh := fun _ hj => Or.inl hj
  frame := fun j hj _ => by
    obtain ⟨n, hn⟩ := exists_node?_of_lt hj
    rw [hn, Option.map_some, h.relink_self hn]
  names := fun _ _ => rfl

/-- Two exchanges at one place, the second of which gives up what the
first has put there. -/
theorem Swaps.trans {old' : List NodeId} (h₁ : Swaps t t' place next old ys)
    (h₂ : Swaps t' t'' place next old' zs)
    (hsub : ∀ j ∈ old', j ∈ ys.flatMap Term.tags ∨ j ∈ old ∨ t.size ≤ j) :
    Swaps t t'' place next old zs := by
  have hgone : ∀ j ∈ old', j ∈ old ∨ t.size ≤ j := fun j hj => by
    rcases hsub j hj with h' | h' | h'
    · exact h₁.fresh j h'
    · exact Or.inl h'
    · exact Or.inr h'
  constructor
  · exact Nat.le_trans h₁.grows h₂.grows
  · exact h₂.linked
  · exact h₂.holds
  · exact h₂.nodup
  · intro j hj
    rcases h₂.fresh j hj with hm | hm
    · exact hgone j hm
    · exact Or.inr (Nat.le_trans h₁.grows hm)
  · intro j hj hnot
    have hnot' : j ∉ old' := fun hm => by
      rcases hgone j hm with h' | h'
      · exact hnot h'
      · exact Nat.not_lt_of_le h' hj
    rw [h₂.frame j (Nat.lt_of_lt_of_le hj h₁.grows) hnot', h₁.frame j hj hnot,
      Option.map_map]
    congr 1
    funext n
    exact relink_relink n
  · intro j hj
    rw [h₂.names j (Nat.lt_of_lt_of_le hj h₁.grows), h₁.names j hj]

section

variable (h : Swaps t t' place next old ys) (hold : ∀ j ∈ old, j ∈ xs.flatMap Term.tags ∨ t.size ≤ j)

include h hold

/-- The new code has nodes of the exchanged part, and new ones. -/
theorem Swaps.mem_or_new (hj : j ∈ ys.flatMap Term.tags) : j ∈ xs.flatMap Term.tags ∨ t.size ≤ j :=
  (h.fresh j hj).elim (hold j) Or.inr

/-- Nodes outside of the exchanged part are neither given up nor in the new
code. -/
theorem Swaps.outside (hj : j < t.size) (hnot : j ∉ xs.flatMap Term.tags) :
    j ∉ old ∧ j ∉ ys.flatMap Term.tags :=
  ⟨fun hm => (hold j hm).elim hnot (Nat.not_le_of_lt hj),
    fun hm => (h.mem_or_new hold hm).elim hnot (Nat.not_le_of_lt hj)⟩

end

/-- The chain that an exchange leaves stands where the old one stood. -/
theorem Swaps.stands (h : Swaps t t' place next old ys) (hs : t.Stands place next xs)
    (hne : ys ≠ []) (hold : ∀ j ∈ old, j ∈ xs.flatMap Term.tags ∨ t.size ≤ j) :
    t'.Stands place next ys := by
  have hout : ∀ j, j < t.size → j ∉ xs.flatMap Term.tags → j ∉ ys.flatMap Term.tags :=
    fun j hj hnot => (h.outside hold hj hnot).2
  obtain ⟨i, -, hi⟩ := hs.place_head
  obtain ⟨l, -, -, hl⟩ := hs.next_end
  refine ⟨h.linked, h.holds, h.nodup, hne, fun m hm => ?_, fun o s ho => ?_,
    fun p hp => ?_⟩
  · refine hout m ?_ (hs.next_outside m hm)
    have hpm := (hs.linked.next_iff l m).1 (hl.trans hm)
    exact lt_size_of_place (by rw [hpm]; exact Place.noConfusion)
  · exact hout o (lt_size_of_head ((hs.linked.head_iff o s i).2 (hi.trans ho)))
      (hs.owner_outside o s ho)
  · exact hout p (lt_size_of_next? ((hs.linked.next_iff p i).2 (hi.trans hp)))
      (hs.previous_outside p hp)

-- ====================================================== within a chain

/-- The three parts of a chain with distinct tags share none. -/
theorem nodup_parts (h : ((pre ++ xs ++ post).flatMap Term.tags).Nodup) :
    (pre.flatMap Term.tags).Nodup ∧ (xs.flatMap Term.tags).Nodup
      ∧ (post.flatMap Term.tags).Nodup
      ∧ (∀ j ∈ pre.flatMap Term.tags, j ∉ xs.flatMap Term.tags ∧ j ∉ post.flatMap Term.tags)
      ∧ ∀ j ∈ xs.flatMap Term.tags, j ∉ post.flatMap Term.tags := by
  rw [List.flatMap_append, List.flatMap_append, List.nodup_append, List.nodup_append] at h
  obtain ⟨⟨hp, hx, hpx⟩, hq, hpq⟩ := h
  refine ⟨hp, hx, hq, fun j hj => ⟨fun hm => hpx j hj j hm rfl, fun hm => ?_⟩,
    fun j hj hm => ?_⟩
  · exact hpq j (List.mem_append_left _ hj) j hm rfl
  · exact hpq j (List.mem_append_right _ hj) j hm rfl

theorem headOr_outside {S : List NodeId} (hnext : ∀ m, next = some m → m ∉ S)
    (hpost : ∀ j ∈ post.flatMap Term.tags, j ∉ S) :
    ∀ m, headOr next post = some m → m ∉ S := by
  intro m hm
  cases post with
  | nil => exact hnext m hm
  | cons y ys =>
    injection hm with hm
    refine hpost m ?_
    rw [← hm, List.flatMap_cons]
    exact List.mem_append_left _ y.tag_mem_tags

theorem endPlace_outside (pre : List Planted) {S : List NodeId}
    (howner : ∀ o s, place = .slot o s → o ∉ S) (hprevious : ∀ p, place = .after p → p ∉ S)
    (hpre : ∀ j ∈ pre.flatMap Term.tags, j ∉ S) :
    (∀ o s, endPlace place pre = .slot o s → o ∉ S)
      ∧ ∀ p, endPlace place pre = .after p → p ∉ S := by
  cases pre with
  | nil => exact ⟨howner, hprevious⟩
  | cons y ys =>
    obtain ⟨l, hl, he⟩ := endPlace_mem (List.cons_ne_nil y ys) place
    rw [he]
    refine ⟨fun _ _ h => Place.noConfusion h, fun p hp => ?_⟩
    injection hp with hp
    exact hpre p (List.mem_flatMap.2 ⟨l, hl, hp ▸ l.tag_mem_tags⟩)

/-- A part of a standing chain stands between the others. -/
theorem Stands.part (h : t.Stands place next (pre ++ xs ++ post)) (hne : xs ≠ []) :
    t.Stands (endPlace place pre) (headOr next post) xs := by
  obtain ⟨-, hx, -, hpx, hxq⟩ := nodup_parts h.nodup
  have hsub : ∀ j ∈ xs.flatMap Term.tags, j ∈ (pre ++ xs ++ post).flatMap Term.tags := by
    intro j hj
    rw [List.flatMap_append, List.flatMap_append]
    exact List.mem_append_left _ (List.mem_append_right _ hj)
  have hholds := h.holds
  rw [holdsChain_append, holdsChain_append] at hholds
  have hplace := endPlace_outside pre (S := xs.flatMap Term.tags)
    (fun o s ho hm => h.owner_outside o s ho (hsub o hm))
    (fun p hp hm => h.previous_outside p hp (hsub p hm)) fun j hj => (hpx j hj).1
  exact ⟨h.linked, hholds.1.2, hx, hne,
    headOr_outside (fun m hm hmem => h.next_outside m hm (hsub m hmem))
      fun j hj hm => hxq j hm hj,
    hplace.1, hplace.2⟩

/-- An exchange of a part of a chain, seen by a node outside of the
chain. -/
theorem relink_part {n : Node} (hself : n.relink place next (pre ++ xs ++ post) j = n)
    (hpre : j ∉ pre.flatMap Term.tags) (hpost : j ∉ post.flatMap Term.tags) :
    n.relink (endPlace place pre) (headOr next post) ys j
      = n.relink place next (pre ++ ys ++ post) j := by
  have hheads := congrArg Node.heads hself
  have hplace := congrArg Node.place hself
  have hnext := congrArg Node.next hself
  unfold Node.relink at hheads hplace hnext ⊢
  congr 1
  · cases pre with
    | nil =>
      funext s
      rw [List.nil_append, endPlace_nil, headOr_append]
    | cons y rest =>
      obtain ⟨l, -, hl⟩ := endPlace_mem (List.cons_ne_nil y rest) place
      rw [hl]
      exact hheads.symm
  · cases post with
    | nil => rw [List.append_nil, headOr_nil, endPlace_append]
    | cons y rest =>
      have hne : headOr next (y :: rest) ≠ some j := by
        rw [headOr_cons]
        intro he
        injection he with he
        refine hpost ?_
        rw [← he, List.flatMap_cons]
        exact List.mem_append_left _ y.tag_mem_tags
      have hend : endPlace place (pre ++ ys ++ y :: rest)
          = endPlace place (pre ++ xs ++ y :: rest) := by
        rw [endPlace_append, endPlace_append _ (pre ++ xs)]
        exact endPlace_of_ne_nil (List.cons_ne_nil y rest) _ _
      rw [if_neg hne, hend]
      exact hplace.symm
  · cases pre with
    | nil => rw [List.nil_append, endPlace_nil, headOr_append]
    | cons y rest =>
      obtain ⟨l, hl, he⟩ := endPlace_mem (List.cons_ne_nil y rest) place
      have hne : endPlace place (y :: rest) ≠ .after j := by
        rw [he]
        intro h'
        injection h' with h'
        exact hpre (List.mem_flatMap.2 ⟨l, hl, h' ▸ l.tag_mem_tags⟩)
      rw [if_neg hne]
      exact hnext.symm

/-- What stands before an exchanged part is held as before, up to its
successor. -/
theorem holds_before (hpre : t.HoldsChain place (headOr (headOr next post) xs) pre)
    (hn : (pre.flatMap Term.tags).Nodup)
    (hframe : ∀ j, j < t.size → j ∉ old → t'.node? j
      = (t.node? j).map (Node.relink (endPlace place pre) (headOr next post) ys j))
    (hold : ∀ j ∈ pre.flatMap Term.tags, j ∉ old)
    (hpost : ∀ j ∈ pre.flatMap Term.tags, headOr next post ≠ some j) :
    t'.HoldsChain place (headOr (headOr next post) ys) pre := by
  cases pre with
  | nil => exact holdsChain_nil ..
  | cons y rest =>
    obtain ⟨l, hl, he⟩ := endPlace_mem (List.cons_ne_nil y rest) place
    rw [he] at hframe
    refine hpre.moveNext hn (fun k hk hmem => ?_) fun j hj hne => ?_
    · rw [hframe k (hpre.lt_size hmem) (hold k hmem)]
      congr 1
      funext n
      unfold Node.relink
      rw [he] at hk
      injection hk with hk
      rw [hk, if_pos rfl, if_neg (hpost k hmem)]
      congr 1
    · rw [hframe j (hpre.lt_size hj) (hold j hj)]
      obtain ⟨n, hnode⟩ := exists_node?_of_lt (hpre.lt_size hj)
      rw [hnode, Option.map_some, relink_of_apart (fun s => Place.noConfusion)
        (fun h' => hne (he.trans h')) (hpost j hj)]

/-- What stands after an exchanged part is held as before, up to its
place. -/
theorem holds_after {p : Place} (hpost : t.HoldsChain (endPlace p xs) next post)
    (hn : (post.flatMap Term.tags).Nodup)
    (hframe : ∀ j, j < t.size → j ∉ old → t'.node? j
      = (t.node? j).map (Node.relink p (headOr next post) ys j))
    (hold : ∀ j ∈ post.flatMap Term.tags, j ∉ old)
    (howner : ∀ j ∈ post.flatMap Term.tags, (∀ s, p ≠ .slot j s) ∧ p ≠ .after j) :
    t'.HoldsChain (endPlace p ys) next post := by
  cases post with
  | nil => exact holdsChain_nil ..
  | cons y rest =>
    refine hpost.movePlace hn ?_ fun j hj hne => ?_
    · have hmem : y.tag ∈ (y :: rest).flatMap Term.tags :=
        List.mem_flatMap.2 ⟨y, List.mem_cons_self .., y.tag_mem_tags⟩
      rw [hframe y.tag (hpost.lt_size hmem) (hold _ hmem)]
      congr 1
      funext n
      unfold Node.relink
      rw [if_neg (howner _ hmem).2, headOr_cons, if_pos rfl]
      congr 1
      funext s
      exact if_neg ((howner _ hmem).1 s)
    · rw [hframe j (hpost.lt_size hj) (hold j hj)]
      obtain ⟨n, hnode⟩ := exists_node?_of_lt (hpost.lt_size hj)
      rw [hnode, Option.map_some, relink_of_apart (howner j hj).1 (howner j hj).2 fun he => ?_]
      rw [headOr_cons] at he
      injection he with he
      exact hne he.symm

/-- The exchange of a part of a chain exchanges the chain. -/
theorem Swaps.inChain (hs : t.Stands place next (pre ++ xs ++ post))
    (h : Swaps t t' (endPlace place pre) (headOr next post) old ys)
    (hold : ∀ j ∈ old, j ∈ xs.flatMap Term.tags ∨ t.size ≤ j) :
    Swaps t t' place next ((pre ++ xs ++ post).flatMap Term.tags) (pre ++ ys ++ post) := by
  obtain ⟨hp, hx, hq, hpx, hxq⟩ := nodup_parts hs.nodup
  have hholds := hs.holds
  rw [holdsChain_append, holdsChain_append] at hholds
  obtain ⟨⟨hhp, hhx⟩, hhq⟩ := hholds
  have hmem : ∀ j, j ∈ (pre ++ xs ++ post).flatMap Term.tags
      ↔ (j ∈ pre.flatMap Term.tags ∨ j ∈ xs.flatMap Term.tags)
        ∨ j ∈ post.flatMap Term.tags := by
    intro j
    rw [List.flatMap_append, List.flatMap_append, List.mem_append, List.mem_append]
  have hmemPre := fun j hj => (hmem j).2 (Or.inl (Or.inl hj))
  have hmemMid := fun j hj => (hmem j).2 (Or.inl (Or.inr hj))
  have hmemPost := fun j hj => (hmem j).2 (Or.inr hj)
  have hpre : ∀ j ∈ pre.flatMap Term.tags, j ∉ old ∧ j ∉ ys.flatMap Term.tags := fun j hj =>
    h.outside hold (hhp.lt_size hj) (hpx j hj).1
  have hpost : ∀ j ∈ post.flatMap Term.tags, j ∉ old ∧ j ∉ ys.flatMap Term.tags := fun j hj =>
    h.outside hold (hhq.lt_size hj) fun hm => hxq j hm hj
  constructor
  · exact h.grows
  · exact h.linked
  · rw [holdsChain_append, holdsChain_append]
    refine ⟨⟨?_, h.holds⟩, ?_⟩
    · refine holds_before hhp hp h.frame (fun j hj => (hpre j hj).1) fun j hj hm => ?_
      exact headOr_outside (S := pre.flatMap Term.tags)
        (fun m hm hmem => hs.next_outside m hm (hmemPre m hmem))
        (fun k hk hmem => (hpx k hmem).2 hk) j hm hj
    · rw [endPlace_append]
      rw [endPlace_append] at hhq
      refine holds_after hhq hq h.frame (fun j hj => (hpost j hj).1) fun j hj => ?_
      have hout := endPlace_outside pre (S := post.flatMap Term.tags)
        (fun o s ho hmem => hs.owner_outside o s ho (hmemPost o hmem))
        (fun p hp hmem => hs.previous_outside p hp (hmemPost p hmem))
        fun k hk => (hpx k hk).2
      exact ⟨fun s he => hout.1 j s he hj, fun he => hout.2 j he hj⟩
  · rw [List.flatMap_append, List.flatMap_append, List.nodup_append, List.nodup_append]
    refine ⟨⟨hp, h.nodup, fun i hi k hk he => (hpre i hi).2 (he ▸ hk)⟩, hq,
      fun i hi k hk he => ?_⟩
    rcases List.mem_append.1 hi with hi | hi
    · exact (hpx i hi).2 (he ▸ hk)
    · exact (hpost k hk).2 (he ▸ hi)
  · intro j hj
    rw [List.flatMap_append, List.flatMap_append, List.mem_append, List.mem_append] at hj
    rcases hj with (hj | hj) | hj
    · exact Or.inl (hmemPre j hj)
    · exact (h.mem_or_new hold hj).imp_left (hmemMid j)
    · exact Or.inl (hmemPost j hj)
  · intro j hj hnot
    have hnot' : j ∉ old := (h.outside hold hj fun hm => hnot (hmemMid j hm)).1
    obtain ⟨n, hn⟩ := exists_node?_of_lt hj
    rw [h.frame j hj hnot', hn, Option.map_some, Option.map_some,
      relink_part (hs.relink_self hn) (fun hm => hnot (hmemPre j hm))
        fun hm => hnot (hmemPost j hm)]
  · exact h.names

-- ========================================================= below a node

variable {id : NodeId} {kind : Kind} {notes : Notes} {s : Slot}
  {before after : List Slot} {done rest : List (List Planted)}

theorem zip_slots (hlen : done.length = before.length) :
    (before ++ s :: after).zip (done ++ ys :: rest)
      = before.zip done ++ (s, ys) :: after.zip rest := by
  rw [List.zip_append hlen.symm, List.zip_cons_cons]

/-- Another chain in one slot changes the head of that slot alone. -/
theorem headsOf_replace (xs : List Planted) (hn : (before ++ s :: after).Nodup)
    (hlen : done.length = before.length) (s' : Slot) :
    headsOf (before ++ s :: after) (done ++ ys :: rest) s'
      = if s = s' then headOr none ys
        else headsOf (before ++ s :: after) (done ++ xs :: rest) s' := by
  split
  · next he =>
    subst he
    refine headsOf_of_mem hn ?_
    rw [zip_slots hlen]
    exact List.mem_append_right _ (List.mem_cons_self ..)
  · next hne =>
    induction before generalizing done with
    | nil =>
      rw [List.length_eq_zero_iff.1 hlen]
      show Heads.set _ _ _ _ = Heads.set _ _ _ _
      rw [Heads.set_of_ne (Ne.symm hne), Heads.set_of_ne (Ne.symm hne)]
    | cons b before ih =>
      cases done with
      | nil => cases hlen
      | cons c done =>
        show Heads.set _ _ _ _ = Heads.set _ _ _ _
        by_cases hb : s' = b
        · rw [hb, Heads.set_same, Heads.set_same]
        · rw [Heads.set_of_ne hb, Heads.set_of_ne hb]
          exact ih (List.nodup_cons.1 hn).2 (Nat.succ.inj hlen)

/-- The tags of a node, one slot of it apart. -/
theorem tags_split (id : NodeId) (kind : Kind) (notes : Notes) :
    (Term.node id kind notes (done ++ ys :: rest)).tags
      = id :: (done.flatten ++ ys ++ rest.flatten).flatMap Term.tags := by
  rw [Term.tags_node, List.flatten_append, List.flatten_cons, ← List.append_assoc]

/-- The chain in a slot of a standing node stands there. -/
theorem Stands.slot (h : t.Stands place next [.node id kind notes (done ++ xs :: rest)])
    (hk : kind.slots = before ++ s :: after) (hlen : done.length = before.length)
    (hne : xs ≠ []) : t.Stands (.slot id s) none xs := by
  have hn := h.nodup
  rw [List.flatMap_singleton, tags_split, List.nodup_cons] at hn
  obtain ⟨hid, hn⟩ := hn
  obtain ⟨-, hx, -⟩ := nodup_parts hn
  obtain ⟨-, -, hslots⟩ := holdsChain_singleton.1 h.holds
  refine ⟨h.linked, ?_, hx, hne, fun _ hm => (nomatch hm), fun o s' ho hm => ?_,
    fun _ hp => (nomatch hp)⟩
  · refine hslots (s, xs) ?_
    show (s, xs) ∈ kind.slots.zip (done ++ xs :: rest)
    rw [hk, zip_slots hlen]
    exact List.mem_append_right _ (List.mem_cons_self ..)
  · injection ho with ho
    subst ho
    refine hid ?_
    rw [List.flatMap_append, List.flatMap_append]
    exact List.mem_append_left _ (List.mem_append_right _ hm)

/-- A node is held with another chain in one slot, if that chain is held
there, the node has the new head, and the other slots are as before. -/
theorem HoldsChain.replaceSlot
    (h : t.HoldsChain place next [.node id kind notes (done ++ xs :: rest)])
    (hk : kind.slots = before ++ s :: after) (hlen : done.length = before.length)
    (hid : t'.node? id = (t.node? id).map (Node.relink (.slot id s) none ys id))
    (hframe : ∀ j, j ∈ done.flatten.flatMap Term.tags ∨ j ∈ rest.flatten.flatMap Term.tags →
      t'.node? j = t.node? j)
    (hys : t'.HoldsChain (.slot id s) none ys) :
    t'.HoldsChain place next [.node id kind notes (done ++ ys :: rest)] := by
  obtain ⟨hfull, htop, hslots⟩ := holdsChain_singleton.1 h
  refine holdsChain_singleton.2 ⟨?_, ?_, fun sc hsc => ?_⟩
  · have hl : (done ++ xs :: rest).length = kind.slots.length := hfull
    show (done ++ ys :: rest).length = kind.slots.length
    rw [← hl, List.length_append, List.length_append, List.length_cons, List.length_cons]
  · have htop' : t.node? id
        = some (Term.top place next (.node id kind notes (done ++ xs :: rest))).2 := htop
    rw [Term.tag_node, hid, htop', Option.map_some]
    unfold Node.relink Term.top
    congr 2
    funext s'
    show _ = headsOf kind.slots (done ++ ys :: rest) s'
    rw [hk, headsOf_replace xs (hk ▸ kind.nodup_slots) hlen]
    show (if Place.slot id s = .slot id s' then headOr none ys
      else headsOf kind.slots (done ++ xs :: rest) s') = _
    rw [hk]
    simp
  · have hsub : ∀ {c : List Planted} {l : List (List Planted)}, c ∈ l →
        ∀ j ∈ c.flatMap Term.tags, j ∈ l.flatten.flatMap Term.tags :=
      fun hc j hj => ((List.sublist_flatten_of_mem hc).flatMap Term.tags).subset hj
    have hsame : sc ∈ before.zip done ∨ sc ∈ after.zip rest →
        t.HoldsChain (.slot id sc.1) none sc.2 := by
      intro hm
      refine hslots sc ?_
      show sc ∈ kind.slots.zip (done ++ xs :: rest)
      rw [hk, zip_slots hlen, List.mem_append, List.mem_cons]
      rcases hm with hm | hm
      · exact Or.inl hm
      · exact Or.inr (Or.inr hm)
    rw [Term.kind_node, Term.slots_node, hk, zip_slots hlen, List.mem_append,
      List.mem_cons] at hsc
    rcases hsc with hsc | rfl | hsc
    · exact (hsame (Or.inl hsc)).congr fun j hj =>
        hframe j (Or.inl (hsub (List.of_mem_zip hsc).2 j hj))
    · exact hys
    · exact (hsame (Or.inr hsc)).congr fun j hj =>
        hframe j (Or.inr (hsub (List.of_mem_zip hsc).2 j hj))

/-- The exchange of the chain in a slot exchanges the node. -/
theorem Swaps.inSlot (hs : t.Stands place next [.node id kind notes (done ++ xs :: rest)])
    (hk : kind.slots = before ++ s :: after) (hlen : done.length = before.length)
    (h : Swaps t t' (.slot id s) none old ys)
    (hold : ∀ j ∈ old, j ∈ xs.flatMap Term.tags ∨ t.size ≤ j) :
    Swaps t t' place next (Term.node id kind notes (done ++ xs :: rest)).tags
      [.node id kind notes (done ++ ys :: rest)] := by
  have hn := hs.nodup
  have hlt : ∀ j ∈ (Term.node id kind notes (done ++ xs :: rest)).tags, j < t.size :=
    fun j hj => hs.holds.lt_size (by rwa [List.flatMap_singleton])
  rw [tags_split] at hlt ⊢
  rw [List.flatMap_singleton, tags_split, List.nodup_cons] at hn
  obtain ⟨hid, hn⟩ := hn
  obtain ⟨hp, hx, hq, hpx, hxq⟩ := nodup_parts hn
  have hmem : ∀ j, j ∈ (done.flatten ++ xs ++ rest.flatten).flatMap Term.tags
      ↔ (j ∈ done.flatten.flatMap Term.tags ∨ j ∈ xs.flatMap Term.tags)
        ∨ j ∈ rest.flatten.flatMap Term.tags := by
    intro j
    rw [List.flatMap_append, List.flatMap_append, List.mem_append, List.mem_append]
  have hout : ∀ j ∈ id :: (done.flatten ++ xs ++ rest.flatten).flatMap Term.tags,
      j ∉ xs.flatMap Term.tags → j ∉ old ∧ j ∉ ys.flatMap Term.tags := fun j hj =>
    h.outside hold (hlt j hj)
  have hframe : ∀ j, j < t.size → j ∉ old → j ≠ id → t'.node? j = t.node? j := by
    intro j hj hnot hne
    obtain ⟨n, hnode⟩ := exists_node?_of_lt hj
    have hslot : ∀ s', Place.slot id s ≠ .slot j s' := fun s' he => by
      injection he with he
      exact hne he.symm
    have hafter : Place.slot id s ≠ .after j := Place.noConfusion
    rw [h.frame j hj hnot, hnode, Option.map_some,
      relink_of_apart hslot hafter (Option.some_ne_none j).symm]
  have hidx : id ∉ xs.flatMap Term.tags := fun hm => hid ((hmem id).2 (Or.inl (Or.inr hm)))
  have hside : ∀ j, j ∈ done.flatten.flatMap Term.tags ∨ j ∈ rest.flatten.flatMap Term.tags →
      j ∈ (done.flatten ++ xs ++ rest.flatten).flatMap Term.tags
        ∧ j ∉ xs.flatMap Term.tags := by
    intro j hj
    rcases hj with hj | hj
    · exact ⟨(hmem j).2 (Or.inl (Or.inl hj)), (hpx j hj).1⟩
    · exact ⟨(hmem j).2 (Or.inr hj), fun hm => hxq j hm hj⟩
  constructor
  · exact h.grows
  · exact h.linked
  · refine hs.holds.replaceSlot hk hlen ?_ (fun j hj => ?_) h.holds
    · exact h.frame id (hlt id (List.mem_cons_self ..))
        (hout id (List.mem_cons_self ..) hidx).1
    · obtain ⟨hj', hjx⟩ := hside j hj
      exact hframe j (hlt j (List.mem_cons_of_mem _ hj'))
        (hout j (List.mem_cons_of_mem _ hj') hjx).1 fun he => hid (he ▸ hj')
  · have hys : ∀ j, j ∈ done.flatten.flatMap Term.tags ∨ j ∈ rest.flatten.flatMap Term.tags →
        j ∉ ys.flatMap Term.tags := fun j hj =>
      (hout j (List.mem_cons_of_mem _ (hside j hj).1) (hside j hj).2).2
    rw [List.flatMap_singleton, tags_split, List.nodup_cons, List.flatMap_append,
      List.flatMap_append, List.nodup_append, List.nodup_append]
    refine ⟨fun hm => ?_, ⟨hp, h.nodup, fun i hi k hk he => hys i (Or.inl hi) (he ▸ hk)⟩, hq,
      fun i hi k hk he => ?_⟩
    · rcases List.mem_append.1 hm with hm | hm
      · rcases List.mem_append.1 hm with hm | hm
        · exact hid ((hmem id).2 (Or.inl (Or.inl hm)))
        · exact (hout id (List.mem_cons_self ..) hidx).2 hm
      · exact hid ((hmem id).2 (Or.inr hm))
    · rcases List.mem_append.1 hi with hi | hi
      · exact (hpx i hi).2 (he ▸ hk)
      · exact hys i (Or.inr (he ▸ hk)) hi
  · intro j hj
    rw [List.flatMap_singleton, tags_split, List.mem_cons, List.flatMap_append,
      List.flatMap_append, List.mem_append, List.mem_append] at hj
    rw [List.mem_cons]
    rcases hj with hj | (hj | hj) | hj
    · exact Or.inl (Or.inl hj)
    · exact Or.inl (Or.inr ((hmem j).2 (Or.inl (Or.inl hj))))
    · exact (h.mem_or_new hold hj).imp_left fun hm => Or.inr ((hmem j).2 (Or.inl (Or.inr hm)))
    · exact Or.inl (Or.inr ((hmem j).2 (Or.inr hj)))
  · intro j hj hnot
    rw [List.mem_cons, not_or] at hnot
    have hnot' : j ∉ old :=
      (h.outside hold hj fun hm => hnot.2 ((hmem j).2 (Or.inl (Or.inr hm)))).1
    obtain ⟨n, hnode⟩ := exists_node?_of_lt hj
    rw [hframe j hj hnot' hnot.1, hnode, Option.map_some]
    exact congrArg some (hs.relink_self hnode).symm
  · exact h.names

end Tree

end RegisterMap.Code
