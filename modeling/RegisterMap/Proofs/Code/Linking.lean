/-
What the operations on links do to held chains. Each of them is a handful
of writes to the cells at the ends of the chains involved; the theorems
here say what that amounts to:

- `detach_run`: a chain is taken out of its place and stands alone.
- `replace_run`: an unlinked chain is put where a node was.
- `insertAfter_run`: an unlinked chain follows another one.

In each case the arena stays mutual, and every other node keeps its cell
but for the links to the places concerned.
-/
import RegisterMap.Proofs.Code.Edits

namespace RegisterMap.Code

namespace Tree

variable {t : Tree} {place : Place} {next : Option NodeId} {x y : Planted}
  {xs ys rest : List Planted}

theorem mem_tags_head (y : Planted) (rest : List Planted) :
    y.tag ∈ (y :: rest).flatMap Term.tags :=
  List.mem_flatMap.2 ⟨y, List.mem_cons_self .., y.tag_mem_tags⟩

theorem Stands.lt_size (h : t.Stands place next xs) {j : NodeId}
    (hj : j ∈ xs.flatMap Term.tags) : j < t.size :=
  h.holds.lt_size hj

theorem Stands.place_eq (h : t.Stands place next (y :: rest)) : t.place y.tag = place :=
  (holdsChain_cons.1 h.holds).1.place_eq

-- ============================================================= checks

theorem require_eq_ok {i : NodeId} (h : i < t.size) : t.require i = .ok () := if_pos h

theorem requireUnlinked_eq_ok {i : NodeId} (h : i < t.size) (hp : t.place i = .root) :
    t.requireUnlinked i = .ok () := by
  unfold Tree.requireUnlinked
  rw [require_eq_ok h, hp]
  rfl

theorem requireLinked_eq_ok {i : NodeId} (h : i < t.size) (hp : t.place i ≠ .root) :
    t.requireLinked i = .ok () := by
  unfold Tree.requireLinked
  rw [require_eq_ok h]
  cases hq : t.place i with
  | root => exact absurd hq hp
  | slot o s => rfl
  | after p => rfl

theorem requireAcyclic_eq_ok {anchor : NodeId} (h : t.Stands place none (y :: rest))
    (ha : anchor ∉ (y :: rest).flatMap Term.tags) :
    t.requireAcyclic anchor y.tag = .ok () := by
  unfold Tree.requireAcyclic
  rw [wouldCycle_eq_false h.linked h.holds h.nodup ha]
  rfl

-- ============================================================== detach

theorem mutual_unlink (hm : t.Mutual) {i : NodeId} (hi : i < t.size)
    (hp : t.place i = place) : (t.unlink i).Mutual := by
  unfold Tree.unlink
  rw [hp]
  constructor
  · intro p j
    rw [next?_setPlace, next?_hold, place_setPlace, place_hold, size_hold]
    have h1 := hm.next_iff p j
    have h2 := hm.next_iff p i
    have h3 := @lt_size_of_next? t p i
    grind
  · intro o s j
    rw [head_setPlace, head_hold, place_setPlace, place_hold, size_hold]
    have h1 := hm.head_iff o s j
    have h2 := hm.head_iff o s i
    have h3 := @lt_size_of_head t o i s
    grind

theorem node?_unlink (hp : t.place y.tag = place) (j : NodeId) :
    (t.unlink y.tag).node? j = (t.node? j).map fun n =>
      { n.relink place none [] j with place := if y.tag = j then .root else n.place } := by
  unfold Tree.unlink
  rw [hp, node?_setPlace, node?_hold]
  obtain h | ⟨n, h⟩ := Option.eq_none_or_eq_some (t.node? j)
  · rw [h]
    simp
  · rw [h, Option.map_some, Option.map_some, Option.map_some]
    by_cases hy : y.tag = j
    · rw [if_pos hy, if_pos hy]
      rfl
    · rw [if_neg hy, if_neg hy]
      rfl

/-- The chain from a linked node on is taken out of its place and stands
alone. -/
theorem detach_run (h : t.Stands place none (y :: rest)) (hp : place ≠ .root) :
    ∃ t', Edit.detach y.tag t = (.ok (), t')
      ∧ Swaps t t' place none ((y :: rest).flatMap Term.tags) []
      ∧ t'.Stands .root none (y :: rest) := by
  have hy := mem_tags_head y rest
  have hlt := h.lt_size hy
  have hplace := h.place_eq
  have hnode := node?_unlink hplace
  have hm := mutual_unlink h.linked hlt hplace
  refine ⟨t.unlink y.tag, Edit.change_run (requireLinked_eq_ok hlt (hplace ▸ hp)), ?_, ?_⟩
  · constructor
    · simp [Tree.unlink]
    · exact hm
    · exact holdsChain_nil ..
    · exact List.nodup_nil
    · intro j hj
      cases hj
    · intro j hj hnot
      have hne : y.tag ≠ j := fun he => hnot (he ▸ hy)
      obtain ⟨n, hn⟩ := exists_node?_of_lt hj
      rw [hnode, hn, Option.map_some, Option.map_some, if_neg hne]
      rfl
    · intro j _
      simp [Tree.unlink]
  · refine ⟨hm, ?_, h.nodup, h.ne_nil, fun _ hm => (nomatch hm), fun _ _ ho => (nomatch ho),
      fun _ hp => (nomatch hp)⟩
    have hself : ∀ j ∈ (y :: rest).flatMap Term.tags, ∀ n : Node,
        n.relink place none [] j = n := fun j hj n =>
      relink_of_apart (fun s he => h.owner_outside j s he hj)
        (fun he => h.previous_outside j he hj) (Option.some_ne_none j).symm
    refine h.holds.movePlace h.nodup ?_ fun j hj hne => ?_
    · obtain ⟨n, hn⟩ := exists_node?_of_lt hlt
      rw [hnode, hn, Option.map_some, Option.map_some, if_pos rfl, hself _ hy]
    · obtain ⟨n, hn⟩ := exists_node?_of_lt (h.lt_size hj)
      rw [hnode, hn, Option.map_some, if_neg (Ne.symm hne), hself j hj]

-- ============================================================= replace

/-- The neighbours of a standing chain lie outside of any unlinked one
that shares no node with it. -/
theorem Stands.neighbours_outside (h : t.Stands place next xs)
    (hy : t.Stands .root none ys)
    (hdis : ∀ j ∈ xs.flatMap Term.tags, j ∉ ys.flatMap Term.tags) :
    (∀ m, next = some m → m ∉ ys.flatMap Term.tags)
      ∧ (∀ o s, place = .slot o s → o ∉ ys.flatMap Term.tags)
      ∧ ∀ p, place = .after p → p ∉ ys.flatMap Term.tags := by
  obtain ⟨i, hi, hpi⟩ := h.place_head
  obtain ⟨l, -, hl, hnext⟩ := h.next_end
  have hix : i ∈ xs.flatMap Term.tags := by
    obtain ⟨x, rest, rfl⟩ := List.exists_cons_of_ne_nil h.ne_nil
    injection hi with hi
    exact hi ▸ mem_tags_head x rest
  refine ⟨fun m hm hmem => ?_, fun o s ho hmem => ?_, fun p hp hmem => ?_⟩
  · have hpm := (h.linked.next_iff l m).1 (hnext.trans hm)
    rcases hy.holds.place_mem hmem with h' | ⟨p, hp, h'⟩ | ⟨o, -, s, h'⟩
    · rw [hpm] at h'
      cases h'
    · rw [hpm] at h'
      injection h' with h'
      exact hdis l hl (h' ▸ hp)
    · rw [hpm] at h'
      cases h'
  · exact hdis i hix (hy.holds.head_mem hmem ((h.linked.head_iff o s i).2 (hpi.trans ho)))
  · rcases hy.holds.next_mem hmem ((h.linked.next_iff p i).2 (hpi.trans hp)) with h' | h'
    · exact hdis i hix h'
    · cases h'

/-- A splice up to the successor: the chain of `y` takes the place of
`x`. -/
def settle (t : Tree) (x y : NodeId) : Tree :=
  (((t.hold (t.place x) (some y)).setPlace y (t.place x)).setPlace x .root).setNext x none

theorem splice_eq (t : Tree) (x y : NodeId) :
    t.splice x y = (t.settle x y).followWith y (t.next? x) := rfl

theorem node?_settle (hp : t.place x.tag = place) (hne : x.tag ≠ y.tag) (j : NodeId) :
    (t.settle x.tag y.tag).node? j = (t.node? j).map fun n =>
      { n with
        heads := fun s => if place = .slot j s then some y.tag else n.heads s
        place := if x.tag = j then .root else if y.tag = j then place else n.place
        next :=
          if x.tag = j then none else if place = .after j then some y.tag else n.next } := by
  unfold Tree.settle
  rw [hp, node?_setNext, node?_setPlace, node?_setPlace, node?_hold]
  obtain h | ⟨n, h⟩ := Option.eq_none_or_eq_some (t.node? j)
  · rw [h]
    simp
  · rw [h]
    by_cases hx : x.tag = j
    · have hy : y.tag ≠ j := fun hy => hne (hx.trans hy.symm)
      simp [hx, hy]
    · by_cases hy : y.tag = j
      · simp [hx, hy]
      · simp [hx, hy]

theorem HoldsChain.end_mem {p q : Place} (h : t.HoldsChain p next (y :: rest)) {l : NodeId}
    (hl : endPlace q (y :: rest) = .after l) :
    l ∈ (y :: rest).flatMap Term.tags ∧ t.next? l = next := by
  obtain ⟨l', hl', hmem, hnext⟩ := h.next?_end
  rw [endPlace_of_ne_nil (List.cons_ne_nil y rest) p q, hl] at hl'
  obtain rfl := Place.after.inj hl'
  exact ⟨hmem, hnext⟩

/-- Everything a splice writes: `l` is the last node of the chain. -/
theorem node?_splice (h : t.Stands place next [x]) (hy : t.Stands .root none (y :: rest))
    (hdis : ∀ j ∈ x.tags, j ∉ (y :: rest).flatMap Term.tags) {l : NodeId}
    (hl : endPlace place (y :: rest) = .after l) (j : NodeId) :
    (t.splice x.tag y.tag).node? j = (t.node? j).map fun n =>
      { n with
        heads := fun s => if place = .slot j s then some y.tag else n.heads s
        place :=
          if x.tag = j then .root else if y.tag = j then place
          else if next = some j then .after l else n.place
        next :=
          if x.tag = j then none else if place = .after j then some y.tag
          else if l = j then next else n.next } := by
  have hx : x.tag ∉ (y :: rest).flatMap Term.tags := hdis _ x.tag_mem_tags
  have hne : x.tag ≠ y.tag := fun he => hx (he ▸ mem_tags_head y rest)
  obtain ⟨hlmem, hlnext⟩ := hy.holds.end_mem hl
  have hout := h.neighbours_outside hy (by simpa using hdis)
  have hxp := h.place_eq
  have hxn : t.next? x.tag = next := h.holds.next?_eq
  rw [splice_eq, hxn]
  have hsettle := node?_settle (t := t) hxp hne
  -- the chain is held at its new place before the tail follows it
  have hheld : (t.settle x.tag y.tag).HoldsChain place none (y :: rest) := by
    have howner : ∀ j ∈ (y :: rest).flatMap Term.tags,
        (∀ s, place ≠ .slot j s) ∧ place ≠ .after j := fun j hj =>
      ⟨fun s he => hout.2.1 j s he hj, fun he => hout.2.2 j he hj⟩
    refine hy.holds.movePlace hy.nodup ?_ fun j hj hjy => ?_
    · obtain ⟨hs, hp⟩ := howner y.tag (mem_tags_head y rest)
      rw [hsettle]
      simp only [hs, hp, hne, if_true, if_false]
    · obtain ⟨hs, hp⟩ := howner j hj
      obtain ⟨n, hn⟩ := exists_node?_of_lt (hy.lt_size hj)
      have hjx : x.tag ≠ j := fun he => hx (he ▸ hj)
      rw [hsettle, hn]
      simp only [hs, hp, hjx, Ne.symm hjy, if_false, Option.map_some]
  have hlast : (t.settle x.tag y.tag).last y.tag = l := by
    have := (last_of_holds hheld hy.nodup place).symm.trans hl
    injection this
  have hxl : x.tag ≠ l := fun he => hx (he ▸ hlmem)
  have hpl : place ≠ .after l := fun he => hout.2.2 _ he hlmem
  obtain hnone | ⟨n, hn⟩ := Option.eq_none_or_eq_some (t.node? j)
  · cases next with
    | none => simp [followWith, hsettle, hnone]
    | some m => simp [followWith, node?_setPlace, node?_setNext, hsettle, hnone]
  · cases next with
    | none =>
      rw [followWith, hsettle, hn]
      have hself : l = j → n.next = none := fun he => by
        unfold Tree.next? at hlnext
        rw [he, hn] at hlnext
        exact hlnext
      grind
    | some m =>
      have hmx : x.tag ≠ m := fun he => h.next_outside m rfl (by simp [← he, x.tag_mem_tags])
      have hmy : y.tag ≠ m := fun he => hout.1 m rfl (he ▸ mem_tags_head y rest)
      have hml : m ≠ l := fun he => hout.1 m rfl (he ▸ hlmem)
      rw [followWith, hlast, node?_setPlace, node?_setNext, hsettle, hn]
      grind

theorem name_followWith (t : Tree) (i : NodeId) (tail : Option NodeId) (j : NodeId) :
    (t.followWith i tail).name j = t.name j := by
  cases tail <;> simp [followWith]

theorem size_followWith (t : Tree) (i : NodeId) (tail : Option NodeId) :
    (t.followWith i tail).size = t.size := by
  cases tail <;> simp [followWith]

theorem name_splice (t : Tree) (i other j : NodeId) : (t.splice i other).name j = t.name j := by
  rw [splice_eq, name_followWith]
  simp [settle]

theorem kind?_splice (t : Tree) (i other j : NodeId) :
    (t.splice i other).kind? j = t.kind? j := by
  rw [splice_eq]
  cases t.next? i <;> simp [followWith, settle]

theorem size_splice (t : Tree) (i other : NodeId) : (t.splice i other).size = t.size := by
  rw [splice_eq, size_followWith]
  simp [settle]

section Splice

variable {l : NodeId} (h : t.Stands place next [x]) (hy : t.Stands .root none (y :: rest))
  (hdis : ∀ j ∈ x.tags, j ∉ (y :: rest).flatMap Term.tags)
  (hl : endPlace place (y :: rest) = .after l)

include h hy hdis hl

theorem place_splice (j : NodeId) :
    (t.splice x.tag y.tag).place j =
      if x.tag = j then .root else if y.tag = j then place
      else if next = some j then .after l else t.place j := by
  unfold Tree.place
  rw [node?_splice h hy hdis hl]
  obtain hn | ⟨n, hn⟩ := Option.eq_none_or_eq_some (t.node? j)
  · have hj := (node?_eq_none_iff t j).1 hn
    have hxj : x.tag ≠ j :=
      Nat.ne_of_lt (Nat.lt_of_lt_of_le (h.lt_size (mem_tags_head x [])) hj)
    have hyj : y.tag ≠ j :=
      Nat.ne_of_lt (Nat.lt_of_lt_of_le (hy.lt_size (mem_tags_head y rest)) hj)
    have hnj : next ≠ some j := fun he => by
      have hp := (h.linked.next_iff x.tag j).1 (h.holds.next?_eq.trans he)
      have hlt := lt_size_of_place (hp ▸ Place.noConfusion : t.place j ≠ .root)
      exact Nat.not_lt_of_le hj hlt
    simp [hn, hnj, hxj, hyj]
  · simp [hn]

theorem next?_splice (j : NodeId) :
    (t.splice x.tag y.tag).next? j =
      if x.tag = j then none else if place = .after j ∧ j < t.size then some y.tag
      else if l = j then next else t.next? j := by
  unfold Tree.next?
  rw [node?_splice h hy hdis hl]
  obtain hn | ⟨n, hn⟩ := Option.eq_none_or_eq_some (t.node? j)
  · have hj := (node?_eq_none_iff t j).1 hn
    have hlj : l ≠ j :=
      Nat.ne_of_lt (Nat.lt_of_lt_of_le (hy.lt_size (hy.holds.end_mem hl).1) hj)
    simp [hn, hlj, Nat.not_lt_of_le hj]
  · simp [hn, lt_size_of_node? hn]

theorem head_splice (j : NodeId) (s : Slot) :
    (t.splice x.tag y.tag).head j s =
      if place = .slot j s ∧ j < t.size then some y.tag else t.head j s := by
  unfold Tree.head
  rw [node?_splice h hy hdis hl]
  obtain hn | ⟨n, hn⟩ := Option.eq_none_or_eq_some (t.node? j)
  · simp [hn, Nat.not_lt_of_le ((node?_eq_none_iff t j).1 hn)]
  · simp [hn, lt_size_of_node? hn]

theorem mutual_splice : (t.splice x.tag y.tag).Mutual := by
  have hym := mem_tags_head y rest
  have hx : x.tag ∉ (y :: rest).flatMap Term.tags := hdis _ x.tag_mem_tags
  have hne : x.tag ≠ y.tag := fun he => hx (he ▸ hym)
  obtain ⟨hlmem, hlnext⟩ := hy.holds.end_mem hl
  have hxl : x.tag ≠ l := fun he => hx (he ▸ hlmem)
  have hout := h.neighbours_outside hy (by simpa using hdis)
  have hxm := mem_tags_head x []
  have hxp := h.place_eq
  have hyp : t.place y.tag = .root := hy.place_eq
  have hxn : t.next? x.tag = next := h.holds.next?_eq
  have hxlt := h.lt_size hxm
  have hylt := hy.lt_size hym
  constructor
  · intro p j
    rw [next?_splice h hy hdis hl, place_splice h hy hdis hl]
    have h1 := h.linked.next_iff p j
    have h2 := h.linked.next_iff x.tag j
    have h3 := h.linked.next_iff l j
    have h4 := h.linked.next_iff p x.tag
    have h5 := h.linked.next_iff p y.tag
    have h6 := @lt_size_of_next? t p x.tag
    have h7 := h.next_outside j
    have h8 := h.previous_outside p
    have h9 := hout.1 j
    have h10 := hout.2.2 p
    grind
  · intro o s j
    rw [head_splice h hy hdis hl, place_splice h hy hdis hl]
    have h1 := h.linked.head_iff o s j
    have h2 := h.linked.next_iff x.tag j
    have h3 := h.linked.head_iff o s x.tag
    have h4 := h.linked.head_iff o s y.tag
    have h5 := @lt_size_of_head t o x.tag s
    grind

/-- The first node of the chain is moved, then the last one is given its
successor. -/
theorem holdsChain_splice : (t.splice x.tag y.tag).HoldsChain place next (y :: rest) := by
  have hnode := node?_splice h hy hdis hl
  have hx : x.tag ∉ (y :: rest).flatMap Term.tags := hdis _ x.tag_mem_tags
  have hout := h.neighbours_outside hy (by simpa using hdis)
  have howner : ∀ j ∈ (y :: rest).flatMap Term.tags,
      (∀ s, place ≠ .slot j s) ∧ place ≠ .after j ∧ next ≠ some j ∧ x.tag ≠ j := fun j hj =>
    ⟨fun s he => hout.2.1 j s he hj, fun he => hout.2.2 j he hj, fun he => hout.1 j he hj,
      fun he => hx (he ▸ hj)⟩
  have hmoved : (t.setPlace y.tag place).HoldsChain place none (y :: rest) := by
    refine hy.holds.movePlace hy.nodup ?_ fun j _ hne => ?_
    · rw [node?_setPlace, if_pos rfl]
    · rw [node?_setPlace, if_neg (Ne.symm hne)]
  refine hmoved.moveNext hy.nodup (fun k hk hkm => ?_) fun j hj hne => ?_
  · obtain rfl : l = k := by
      rw [hl] at hk
      injection hk
    obtain ⟨hs, hp, hn, hxj⟩ := howner l hkm
    rw [hnode, node?_setPlace]
    simp only [hs, hp, hn, hxj, if_true, if_false]
    by_cases hyl : y.tag = l
    · simp [hyl, Option.map_map, Function.comp_def]
    · simp [hyl]
  · obtain ⟨hs, hp, hn, hxj⟩ := howner j hj
    have hlj : l ≠ j := fun he => hne (he ▸ hl)
    rw [hnode, node?_setPlace]
    simp only [hs, hp, hn, hxj, hlj, if_false]
    by_cases hyj : y.tag = j
    · simp [hyj]
    · simp [hyj]

/-- The node is left alone. -/
theorem stands_splice : (t.splice x.tag y.tag).Stands .root none [x] := by
  have hnode := node?_splice h hy hdis hl
  have hlmem := (hy.holds.end_mem hl).1
  have hself : ∀ j ∈ x.tags,
      (∀ s, place ≠ .slot j s) ∧ place ≠ .after j ∧ next ≠ some j ∧ y.tag ≠ j ∧ l ≠ j := by
    intro j hj
    have hj' : j ∈ [x].flatMap Term.tags := by rwa [List.flatMap_singleton]
    exact ⟨fun s he => h.owner_outside j s he hj', fun he => h.previous_outside j he hj',
      fun he => h.next_outside j he hj', fun he => hdis j hj (he ▸ mem_tags_head y rest),
      fun he => hdis j hj (he ▸ hlmem)⟩
  refine ⟨mutual_splice h hy hdis hl, ?_, h.nodup, h.ne_nil, fun _ hm => (nomatch hm),
    fun _ _ ho => (nomatch ho), fun _ hp => (nomatch hp)⟩
  have hmoved : (t.setPlace x.tag .root).HoldsChain .root next [x] := by
    refine h.holds.movePlace h.nodup ?_ fun j _ hne => ?_
    · rw [node?_setPlace, if_pos rfl]
    · rw [node?_setPlace, if_neg (Ne.symm hne)]
  refine hmoved.moveNext h.nodup (fun k hk _ => ?_) fun j hj hne => ?_
  · obtain rfl : x.tag = k := by
      injection hk
    obtain ⟨hs, hp, hn, hyj, hlj⟩ := hself x.tag x.tag_mem_tags
    rw [hnode, node?_setPlace]
    simp only [hs, if_true, if_false, Option.map_map, Function.comp_def]
  · rw [List.flatMap_singleton] at hj
    obtain ⟨hs, hp, hn, hyj, hlj⟩ := hself j hj
    have hxj : x.tag ≠ j := fun he => hne (he ▸ rfl)
    rw [hnode, node?_setPlace]
    simp only [hs, hp, hn, hyj, hlj, hxj, if_false]
    simp

theorem swaps_splice : Swaps t (t.splice x.tag y.tag) place next
    (x.tags ++ (y :: rest).flatMap Term.tags) (y :: rest) where
  grows := Nat.le_of_eq (size_splice ..).symm
  linked := mutual_splice h hy hdis hl
  holds := holdsChain_splice h hy hdis hl
  nodup := hy.nodup
  fresh := fun j hj => Or.inl (List.mem_append_right _ hj)
  frame := fun j hj hnot => by
    rw [List.mem_append, not_or] at hnot
    have hxj : x.tag ≠ j := fun he => hnot.1 (he ▸ x.tag_mem_tags)
    have hyj : y.tag ≠ j := fun he => hnot.2 (he ▸ mem_tags_head y rest)
    have hlj : l ≠ j := fun he => hnot.2 (he ▸ (hy.holds.end_mem hl).1)
    rw [node?_splice h hy hdis hl]
    congr 1
    funext n
    unfold Node.relink
    rw [hl]
    simp only [hxj, hyj, hlj, if_false, headOr_cons]
  names := fun j _ => name_splice ..

end Splice

/-- An unlinked chain takes the place of a node, which is left alone. -/
theorem replace_run (h : t.Stands place next [x]) (hp : place ≠ .root)
    (hy : t.Stands .root none (y :: rest))
    (hdis : ∀ j ∈ x.tags, j ∉ (y :: rest).flatMap Term.tags) :
    ∃ t', Edit.replace x.tag y.tag t = (.ok (), t')
      ∧ Swaps t t' place next (x.tags ++ (y :: rest).flatMap Term.tags) (y :: rest)
      ∧ t'.Stands .root none [x] ∧ ∀ j, t'.kind? j = t.kind? j := by
  obtain ⟨l, hl, -⟩ := hy.holds.next?_end
  rw [endPlace_of_ne_nil (List.cons_ne_nil y rest) .root place] at hl
  refine ⟨t.splice x.tag y.tag, Edit.change_run (a := ()) ?_, swaps_splice h hy hdis hl,
    stands_splice h hy hdis hl, kind?_splice _ _ _⟩
  have hxp := h.place_eq
  have ha := requireAcyclic_eq_ok hy (hdis _ x.tag_mem_tags)
  show (do t.requireLinked x.tag; t.requireUnlinked y.tag; t.requireAcyclic x.tag y.tag)
    = Except.ok ()
  rw [requireLinked_eq_ok (h.lt_size (mem_tags_head x [])) (hxp ▸ hp),
    requireUnlinked_eq_ok (hy.lt_size (mem_tags_head y rest)) hy.place_eq, ha]
  rfl

-- ========================================================= insertAfter

theorem linkAfter_eq {i : NodeId} (h : t.next? i = none) (other : NodeId) :
    t.linkAfter i other = (t.setNext i (some other)).setPlace other (.after i) := by
  unfold Tree.linkAfter
  rw [h]
  rfl

theorem node?_linkAfter {i o : NodeId} (h : t.next? i = none) (hne : o ≠ i) (j : NodeId) :
    (t.linkAfter i o).node? j =
      if o = j then (t.node? j).map fun n => { n with place := .after i }
      else if i = j then (t.node? j).map fun n => { n with next := some o }
      else t.node? j := by
  rw [linkAfter_eq h, node?_setPlace, node?_setNext]
  grind

section LinkAfter

variable {l : NodeId} (hx : t.Stands .root none xs) (hy : t.Stands .root none (y :: rest))
  (hdis : ∀ j ∈ xs.flatMap Term.tags, j ∉ (y :: rest).flatMap Term.tags)
  (hl : endPlace .root xs = .after l)

include hx hl

theorem Stands.end_mem : l ∈ xs.flatMap Term.tags ∧ t.next? l = none := by
  obtain ⟨l', hl', hmem, hnext⟩ := hx.next_end
  obtain rfl := Place.after.inj (hl.symm.trans hl')
  exact ⟨hmem, hnext⟩

include hy hdis

theorem mutual_linkAfter : (t.linkAfter l y.tag).Mutual := by
  obtain ⟨hlmem, hlnext⟩ := hx.end_mem hl
  have hlt := hx.lt_size hlmem
  have hylt := hy.lt_size (mem_tags_head y rest)
  have hyl : y.tag ≠ l := fun he => hdis l hlmem (he ▸ mem_tags_head y rest)
  have hyp : t.place y.tag = .root := hy.place_eq
  rw [linkAfter_eq hlnext]
  constructor
  · intro p j
    rw [next?_setPlace, next?_setNext, place_setPlace, place_setNext, size_setNext]
    have h1 := hx.linked.next_iff p j
    have h2 := hx.linked.next_iff p y.tag
    grind
  · intro o s j
    rw [head_setPlace, head_setNext, place_setPlace, place_setNext, size_setNext]
    have h1 := hx.linked.head_iff o s j
    have h2 := hx.linked.head_iff o s y.tag
    grind

theorem holdsChain_linkAfter :
    (t.linkAfter l y.tag).HoldsChain .root none (xs ++ y :: rest) := by
  obtain ⟨hlmem, hlnext⟩ := hx.end_mem hl
  have hyl : y.tag ≠ l := fun he => hdis l hlmem (he ▸ mem_tags_head y rest)
  have hnode := node?_linkAfter hlnext hyl
  rw [holdsChain_append, hl]
  constructor
  · refine hx.holds.moveNext hx.nodup (fun k hk hkm => ?_) fun j hj hne => ?_
    · obtain rfl := Place.after.inj (hl.symm.trans hk)
      rw [hnode, if_neg hyl, if_pos rfl]
      rfl
    · have hyj : y.tag ≠ j := fun he => hdis j hj (he ▸ mem_tags_head y rest)
      have hlj : l ≠ j := fun he => hne (he ▸ hl)
      rw [hnode, if_neg hyj, if_neg hlj]
  · refine hy.holds.movePlace hy.nodup ?_ fun j hj hne => ?_
    · rw [hnode, if_pos rfl]
    · have hlj : l ≠ j := fun he => hdis l hlmem (he ▸ hj)
      rw [hnode, if_neg (Ne.symm hne), if_neg hlj]

theorem swaps_linkAfter : Swaps t (t.linkAfter l y.tag) .root none
    (xs.flatMap Term.tags ++ (y :: rest).flatMap Term.tags) (xs ++ y :: rest) where
  grows := by
    rw [linkAfter_eq (hx.end_mem hl).2]
    simp
  linked := mutual_linkAfter hx hy hdis hl
  holds := holdsChain_linkAfter hx hy hdis hl
  nodup := by
    rw [List.flatMap_append, List.nodup_append]
    exact ⟨hx.nodup, hy.nodup, fun i hi k hk he => hdis i hi (he ▸ hk)⟩
  fresh := fun j hj => by
    rw [List.flatMap_append] at hj
    exact Or.inl hj
  frame := fun j hj hnot => by
    obtain ⟨hlmem, hlnext⟩ := hx.end_mem hl
    rw [List.mem_append, not_or] at hnot
    have hyj : y.tag ≠ j := fun he => hnot.2 (he ▸ mem_tags_head y rest)
    have hlj : l ≠ j := fun he => hnot.1 (he ▸ hlmem)
    have hyl : y.tag ≠ l := fun he => hdis l hlmem (he ▸ mem_tags_head y rest)
    obtain ⟨n, hn⟩ := exists_node?_of_lt hj
    rw [node?_linkAfter hlnext hyl, if_neg hyj, if_neg hlj, hn, Option.map_some,
      relink_of_apart (fun _ => Place.noConfusion) Place.noConfusion (Option.some_ne_none j).symm]
  names := fun j _ => by rw [linkAfter_eq (hx.end_mem hl).2, name_setPlace, name_setNext]

/-- An unlinked chain follows another one. -/
theorem insertAfter_run :
    ∃ t', Edit.insertAfter l y.tag false t = (.ok (), t')
      ∧ Swaps t t' .root none (xs.flatMap Term.tags ++ (y :: rest).flatMap Term.tags)
        (xs ++ y :: rest)
      ∧ ∀ j, t'.kind? j = t.kind? j := by
  obtain ⟨hlmem, hlnext⟩ := hx.end_mem hl
  refine ⟨t.linkAfter l y.tag, Edit.change_run (a := ()) ?_, swaps_linkAfter hx hy hdis hl,
    fun j => by rw [linkAfter_eq hlnext, kind?_setPlace, kind?_setNext]⟩
  have ha := requireAcyclic_eq_ok hy fun hm => hdis l hlmem hm
  show (do
      t.require l
      t.requireUnlinked y.tag
      t.requireAcyclic l y.tag
      if (t.next? l).isSome && !false then
        .error (.link (.hasSuccessor (t.describe l)))
      else .ok ()) = Except.ok ()
  rw [require_eq_ok (hx.lt_size hlmem),
    requireUnlinked_eq_ok (hy.lt_size (mem_tags_head y rest)) hy.place_eq, ha, hlnext]
  rfl

end LinkAfter

end Tree

end RegisterMap.Code
