/-
The code below a node of a sound arena. What lies below a node is what a
climb from owner to owner brings to it (`Within`). A sound arena holds, for
every node, a term with exactly these nodes (`Sound.exists_term`), so what
is proved of standing terms holds of whatever operations have built.

The induction is on the hanging order, children first. Two facts carry it:
the children of a node are the nodes it owns (`Sound.mem_children_iff`),
and no node owns itself through others (`Sound.not_owner_within`), so the
terms of different children share no node.
-/
import RegisterMap.Proofs.Code.Climbing
import RegisterMap.Proofs.Code.Swap
import RegisterMap.Proofs.Code.Reading

namespace RegisterMap.Code

open Relation (ReflTransGen TransGen)

namespace Tree

/-- `i` is `a` or lies in the slots of `a`, at whatever depth. -/
abbrev Within (t : Tree) : NodeId → NodeId → Prop := ReflTransGen t.OwnedBy

variable {t : Tree} {i j a b o p : NodeId}

-- ============================================================== owners

/-- A chain hangs in one slot. -/
theorem rightUnique_ownedBy (t : Tree) : Relator.RightUnique t.OwnedBy := by
  rintro i a b ⟨s, ha⟩ ⟨s', hb⟩
  have h := ha.symm.trans hb
  injection h with h
  exact congrArg Prod.fst h

theorem previous?_eq_none (hp : ∀ p, t.place i ≠ .after p) : t.previous? i = none := by
  unfold previous?
  split
  · next p h => exact absurd h (hp p)
  · rfl

/-- Only what exists is owned. -/
theorem OwnedBy.lt_size (h : t.OwnedBy i o) : i < t.size := by
  obtain ⟨s, h⟩ := h
  rw [parent?_eq_some] at h
  by_contra hi
  have hroot : t.place i = .root := by
    unfold Tree.place
    rw [(t.node?_eq_none_iff i).2 (Nat.le_of_not_lt hi)]
    rfl
  have hprev : t.previous? i = none :=
    previous?_eq_none fun p hp => Place.noConfusion (hroot.symm.trans hp)
  have hfirst : t.first i = i := by
    unfold Tree.first
    cases t.size with
    | zero => rfl
    | succ n => rw [firstFrom, hprev]
  rw [hfirst, hroot] at h
  cases h

theorem head_of_node? {n : Node} (hn : t.node? o = some n) (s : Slot) :
    t.head o s = n.heads s := by
  unfold Tree.head
  rw [hn]
  rfl

/-- A node over terms for its children. -/
def gathered (t : Tree) (f : NodeId → Planted) (i : NodeId) (n : Node) : Planted :=
  .node i n.kind n.notes (n.kind.slots.map fun s => (t.chain (n.heads s)).map f)

section Owners

variable (hs : t.Sound)

include hs

/-- A node without a predecessor heads its chain. -/
theorem Sound.first_self (hi : i < t.size) (h : t.previous? i = none) : t.first i = i :=
  (hs.first_eq (l := []) rfl h hi).1

/-- Neighbours in a chain have one owner. -/
theorem Sound.parent?_next (hn : t.next? p = some i) : t.parent? i = t.parent? p := by
  obtain ⟨⟨l, hl⟩, hprev, -⟩ := hs.first_path (lt_size_of_next? hn)
  have hpath : t.Path (some (t.first p)) (l ++ [p]) (some i) := path_append.2 ⟨_, hl, rfl, hn⟩
  have hlt := (hs.under_first (lt_size_of_next? hn)).lt_size hs.linked (lt_size_of_next? hn)
  unfold Tree.parent?
  rw [(hs.first_eq hpath hprev hlt).1]

theorem Sound.ownedBy_slot {s : Slot} (h : t.place i = .slot o s) : t.OwnedBy i o := by
  have hi : i < t.size := lt_size_of_place (h ▸ Place.noConfusion)
  have hprev : t.previous? i = none :=
    previous?_eq_none fun p hp => Place.noConfusion (h.symm.trans hp)
  exact ⟨s, parent?_eq_some.2 (by rw [hs.first_self hi hprev, h])⟩

/-- Climbing from owner to owner does not come back. -/
theorem Sound.not_owner_within (ho : t.OwnedBy i o) : ¬ t.Within o i := fun h =>
  hs.acyclic i ((hs.transGen_of_ownedBy ho.lt_size ho).trans_left
    (hs.owners_above (hs.ownedBy_lt ho) h).2)

/-- Of two nodes with one owner neither lies below the other. -/
theorem Sound.eq_of_within (ha : t.OwnedBy a o) (hb : t.OwnedBy b o) (h : t.Within a b) :
    a = b := by
  rcases ReflTransGen.cases_head h with he | ⟨c, hc, hcb⟩
  · exact he
  · have hoc := rightUnique_ownedBy t ha hc
    exact absurd (hoc ▸ hcb) (hs.not_owner_within hb)

/-- What lies below two nodes with one owner lies below one. -/
theorem Sound.eq_of_below (ha : t.OwnedBy a o) (hb : t.OwnedBy b o) (hja : t.Within j a)
    (hjb : t.Within j b) : a = b := by
  rcases ReflTransGen.total_of_right_unique (rightUnique_ownedBy t) hja hjb with h | h
  · exact hs.eq_of_within ha hb h
  · exact (hs.eq_of_within hb ha h).symm

/-- The chain in a slot is what the slot owns. -/
theorem Sound.mem_slot_iff {s : Slot} :
    j ∈ t.chain (t.head o s) ↔ t.parent? j = some (o, s) := by
  constructor
  · intro hj
    cases hh : t.head o s with
    | none =>
      rw [hh] at hj
      unfold Tree.chain at hj
      cases hsize : t.size with
      | zero => rw [hsize] at hj; cases hj
      | succ n => rw [hsize] at hj; cases hj
    | some f =>
      rw [hh] at hj
      have hplace := (hs.linked.head_iff o s f).1 hh
      have hf : f < t.size := lt_size_of_place (hplace ▸ Place.noConfusion)
      have hpath := hs.path_chain fun k (hk : some f = some k) => Option.some.inj hk ▸ hf
      obtain ⟨l, m, hlm⟩ := List.append_of_mem hj
      rw [hlm] at hpath
      obtain ⟨c, hl, rfl, -⟩ := path_append.1 hpath
      have hprev : t.previous? f = none :=
        previous?_eq_none fun p hp => Place.noConfusion (hplace.symm.trans hp)
      rw [parent?_eq_some, (hs.first_eq hl hprev hf).1, hplace]
  · intro hj
    have hlt : j < t.size := OwnedBy.lt_size ⟨s, hj⟩
    rw [(hs.linked.head_iff o s _).2 (parent?_eq_some.1 hj)]
    exact hs.mem_chain_first hlt

/-- Only the slots of its own kind hold something. -/
theorem Sound.slot_mem {n : Node} {s : Slot} (hn : t.node? o = some n)
    (h : t.head o s = some j) : s ∈ n.kind.slots := by
  obtain ⟨k, hk, hks⟩ := hs.slotted h
  unfold Tree.kind? at hk
  rw [hn] at hk
  obtain rfl : n.kind = k := Option.some.inj hk
  exact hks

/-- The children of a node are what it owns. -/
theorem Sound.mem_children_iff : j ∈ t.children o ↔ t.OwnedBy j o := by
  unfold Tree.children
  cases hn : t.node? o with
  | none =>
    have hnot : ¬ t.OwnedBy j o := fun h => by
      have hlt := hs.ownedBy_lt h
      rw [← isSome_node?_iff, hn] at hlt
      cases hlt
    exact ⟨fun h => absurd h List.not_mem_nil, fun h => absurd h hnot⟩
  | some n =>
    rw [List.mem_flatMap]
    constructor
    · rintro ⟨s, -, hj⟩
      rw [← head_of_node? hn s] at hj
      exact ⟨s, hs.mem_slot_iff.1 hj⟩
    · rintro ⟨s, hj⟩
      have hmem := hs.mem_slot_iff.2 hj
      rw [head_of_node? hn] at hmem
      exact ⟨s, hs.slot_mem hn ((hs.linked.head_iff o s _).2 (parent?_eq_some.1 hj)), hmem⟩

/-- No child is listed twice. -/
theorem Sound.nodup_children (o : NodeId) : (t.children o).Nodup := by
  unfold Tree.children
  cases hn : t.node? o with
  | none => exact List.nodup_nil
  | some n =>
    refine List.nodup_flatMap.2 ⟨fun s _ => ?_, n.kind.nodup_slots.imp fun {s s'} hne => ?_⟩
    · rw [← head_of_node? hn s]
      exact (hs.path_chain fun i hi => hs.linked.lt_of_head hi).nodup hs
    · show List.Disjoint (t.chain (n.heads s)) (t.chain (n.heads s'))
      intro j hj hj'
      rw [← head_of_node? hn, hs.mem_slot_iff] at hj hj'
      have h := hj.symm.trans hj'
      injection h with h
      exact hne (congrArg Prod.snd h)

-- =============================================================== terms

/-- A chain of held nodes is held. -/
theorem Sound.holds_path {f : NodeId → Planted} {place : Place} {start : Option NodeId}
    {l : List NodeId} (hl : t.Path start l none)
    (hplace : ∀ i, start = some i → t.place i = place)
    (hf : ∀ i ∈ l, (f i).tag = i ∧ t.HoldsChain (t.place i) (t.next? i) [f i]) :
    t.HoldsChain place none (l.map f) := by
  induction l generalizing start place with
  | nil => exact holdsChain_nil ..
  | cons i l ih =>
    obtain ⟨rfl, hl⟩ := hl
    obtain ⟨htag, hi⟩ := hf i (List.mem_cons_self ..)
    have hnext : headOr none (l.map f) = t.next? i := by
      rw [hl.head_eq]
      cases l with
      | nil => rfl
      | cons k l => exact congrArg some (hf k (by simp)).1
    rw [List.map_cons, holdsChain_cons, hnext, htag, ← hplace i rfl]
    refine ⟨hi, ih hl (fun k hk => ?_) fun k hk => hf k (List.mem_cons_of_mem _ hk)⟩
    exact (hs.linked.next_iff i k).1 hk

/-- The neighbours of a node do not lie within it. -/
theorem Sound.next_not_within (hn : t.next? i = some j) : ¬ t.Within j i := by
  intro h
  rcases ReflTransGen.cases_head h with rfl | ⟨o, ⟨s, ho⟩, hoi⟩
  · exact hs.not_under (hs.linked.hangsFrom_next hn) .refl
  · have hi : t.OwnedBy i o := ⟨s, (hs.parent?_next hn).symm.trans ho⟩
    exact hs.not_owner_within hi hoi

theorem Sound.previous_not_within (hn : t.next? p = some i) : ¬ t.Within p i := by
  intro h
  rcases ReflTransGen.cases_head h with rfl | ⟨o, ⟨s, ho⟩, hoi⟩
  · exact hs.not_under (hs.linked.hangsFrom_next hn) .refl
  · have hi : t.OwnedBy i o := ⟨s, (hs.parent?_next hn).trans ho⟩
    exact hs.not_owner_within hi hoi

section Gathered

variable {f : NodeId → Planted} {n : Node} (hn : t.node? i = some n)
  (hf : ∀ c, t.OwnedBy c i → (f c).tag = c ∧ t.Stands (t.place c) (t.next? c) [f c]
    ∧ ∀ j, j ∈ (f c).tags ↔ t.Within j c)

omit hs in
include hn in
theorem flatten_gathered : (t.gathered f i n).slots.flatten = (t.children i).map f := by
  unfold Tree.children gathered
  rw [hn, Term.slots_node, List.map_flatMap, List.flatMap_def]

omit hs in
theorem zip_gathered : n.kind.slots.zip (t.gathered f i n).slots
    = n.kind.slots.map fun s => (s, (t.chain (n.heads s)).map f) := by
  exact List.map_prod_left_eq_zip.symm

include hn hf

theorem Sound.holds_slot (s : Slot) :
    t.HoldsChain (.slot i s) none ((t.chain (n.heads s)).map f) := by
  rw [← head_of_node? hn]
  refine hs.holds_path (hs.path_chain fun k hk => hs.linked.lt_of_head hk)
    (fun k hk => (hs.linked.head_iff i s k).1 hk) fun k hk => ?_
  have hown : t.OwnedBy k i := ⟨s, hs.mem_slot_iff.1 hk⟩
  exact ⟨(hf k hown).1, (hf k hown).2.1.holds⟩

theorem Sound.headsOf_gathered : headsOf n.kind.slots (t.gathered f i n).slots = n.heads := by
  funext s
  by_cases hks : s ∈ n.kind.slots
  · have hz : (s, (t.chain (n.heads s)).map f) ∈ n.kind.slots.zip (t.gathered f i n).slots := by
      rw [zip_gathered]
      exact List.mem_map.2 ⟨s, hks, rfl⟩
    have hpath := hs.path_chain (a := t.head i s) fun k hk => hs.linked.lt_of_head hk
    rw [headsOf_of_mem n.kind.nodup_slots hz, ← head_of_node? hn]
    refine Eq.trans ?_ hpath.head_eq.symm
    cases hc : t.chain (t.head i s) with
    | nil => rfl
    | cons k l =>
      have hk : k ∈ t.chain (t.head i s) := hc ▸ List.mem_cons_self ..
      exact congrArg some (hf k ⟨s, hs.mem_slot_iff.1 hk⟩).1
  · rw [headsOf_of_not_mem hks, ← head_of_node? hn]
    cases hx : t.head i s with
    | none => rfl
    | some x => exact absurd (hs.slot_mem hn hx) hks

theorem Sound.mem_tags_gathered (j : NodeId) :
    j ∈ (t.gathered f i n).tags ↔ t.Within j i := by
  rw [Term.tags_eq, flatten_gathered hn, List.mem_cons, List.mem_flatMap]
  constructor
  · rintro (rfl | ⟨x, hx, hj⟩)
    · exact .refl
    · obtain ⟨c, hc, rfl⟩ := List.mem_map.1 hx
      have hown := hs.mem_children_iff.1 hc
      exact (((hf c hown).2.2 j).1 hj).tail hown
  · intro h
    rcases ReflTransGen.cases_tail h with rfl | ⟨c, hjc, hc⟩
    · exact Or.inl rfl
    · exact Or.inr ⟨f c, List.mem_map_of_mem (hs.mem_children_iff.2 hc),
        ((hf c hc).2.2 j).2 hjc⟩

theorem Sound.nodup_gathered : (t.gathered f i n).tags.Nodup := by
  have hown : ∀ c ∈ t.children i, t.OwnedBy c i := fun c hc => hs.mem_children_iff.1 hc
  rw [Term.tags_eq, flatten_gathered hn, List.nodup_cons]
  constructor
  · intro h
    obtain ⟨x, hx, hj⟩ := List.mem_flatMap.1 h
    obtain ⟨c, hc, rfl⟩ := List.mem_map.1 hx
    exact hs.not_owner_within (hown c hc) (((hf c (hown c hc)).2.2 i).1 hj)
  · rw [List.flatMap_map]
    refine List.nodup_flatMap.2 ⟨fun c hc => ?_, ?_⟩
    · have h := (hf c (hown c hc)).2.1.nodup
      rwa [List.flatMap_singleton] at h
    · refine (hs.nodup_children i).imp_of_mem fun {a b} ha hb hne => ?_
      show List.Disjoint (f a).tags (f b).tags
      intro j hja hjb
      rw [(hf a (hown a ha)).2.2] at hja
      rw [(hf b (hown b hb)).2.2] at hjb
      exact hne (hs.eq_of_below (hown a ha) (hown b hb) hja hjb)

theorem Sound.stands_gathered :
    t.Stands (t.place i) (t.next? i) [t.gathered f i n] := by
  have hone : [t.gathered f i n].flatMap Term.tags = (t.gathered f i n).tags :=
    List.flatMap_singleton ..
  have hmem := hs.mem_tags_gathered hn hf
  refine ⟨hs.linked, holdsChain_singleton.2 ⟨List.length_map .., ?_, fun sc hsc => ?_⟩, ?_,
    List.cons_ne_nil _ _, fun m hm => ?_, fun o s ho => ?_, fun p hp => ?_⟩
  · show t.node? i = some { n with
      heads := headsOf n.kind.slots (t.gathered f i n).slots
      place := t.place i
      next := t.next? i }
    rw [hs.headsOf_gathered hn hf, hn]
    unfold Tree.place Tree.next?
    rw [hn]
    rfl
  · change sc ∈ n.kind.slots.zip (t.gathered f i n).slots at hsc
    rw [zip_gathered] at hsc
    obtain ⟨s, -, rfl⟩ := List.mem_map.1 hsc
    exact hs.holds_slot hn hf s
  · rw [hone]
    exact hs.nodup_gathered hn hf
  · rw [hone, hmem]
    exact hs.next_not_within hm
  · rw [hone, hmem]
    exact hs.not_owner_within (hs.ownedBy_slot ho)
  · rw [hone, hmem]
    exact hs.previous_not_within ((hs.linked.next_iff p i).2 hp)

end Gathered

/-- Every node of a sound arena stands there with what lies below it. -/
theorem Sound.exists_term (hi : i < t.size) :
    ∃ x : Planted, x.tag = i ∧ t.Stands (t.place i) (t.next? i) [x]
      ∧ ∀ j, j ∈ x.tags ↔ t.Within j i := by
  have hwf := wellFounded_of_acyclic (fun hab => hs.linked.hangsFrom_lt hab) hs.acyclic
  induction i using hwf.transGen.induction with
  | _ i ih =>
    have hchild : ∀ c, t.OwnedBy c i → ∃ x : Planted, x.tag = c
        ∧ t.Stands (t.place c) (t.next? c) [x] ∧ ∀ j, j ∈ x.tags ↔ t.Within j c :=
      fun c hc => ih c (hs.transGen_of_ownedBy hc.lt_size hc) hc.lt_size
    have : Nonempty Planted := ⟨.node i .hole {} []⟩
    choose! f hf using hchild
    obtain ⟨n, hn⟩ := exists_node?_of_lt hi
    exact ⟨t.gathered f i n, rfl, hs.stands_gathered hn hf, hs.mem_tags_gathered hn hf⟩

/-- Where a term stands, there is one of the same shape that has all that
lies below. -/
theorem Sound.exists_term_at {p : Place} {next : Option NodeId} {y : Planted}
    (hy : t.Stands p next [y]) :
    ∃ place next z, Term.tag z = y.tag ∧ t.Stands place next [z]
      ∧ (∀ j, j ∈ z.tags ↔ t.Within j y.tag) ∧ z.shape = y.shape := by
  have hlt : y.tag < t.size := lt_size_of_node? hy.holds.node?_eq
  obtain ⟨z, hz, hstands, hwithin⟩ := hs.exists_term hlt
  refine ⟨_, _, z, hz, hstands, hwithin, ?_⟩
  rw [← shape_of_holds hstands.holds (by simpa using hstands.nodup),
    ← shape_of_holds hy.holds (by simpa using hy.nodup), hz]

end Owners

end Tree

end RegisterMap.Code
