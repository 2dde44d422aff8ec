/-
Reading a held chain back. The walks of a tree are bounded by its size; on
a held chain the bound is never met, because the tags of the chain are
distinct node numbers (`length_le_size`). So `chain` lists the chain,
`last` finds its end, `children` lists what lies in the slots, and
`Tree.shape` reads off the shape of the term (`shape_of_holds`).

`Tree.shape` is how a piece of code is taken out of an arena wherever
only the code matters: it is total, and what it makes of a node that does
not exist is a hole.
-/
import RegisterMap.Proofs.Code.Cells
import Mathlib.Data.List.Flatten
import Mathlib.Data.List.Perm.Subperm

namespace RegisterMap.Code

namespace Tree

/-- The code at a node, at most `fuel` levels of it. -/
def shapeFrom (t : Tree) : (fuel : Nat) → NodeId → Shape
  | 0, _ => .node () .hole {} []
  | fuel + 1, i =>
    match t.node? i with
    | none => .node () .hole {} []
    | some n =>
      .node () n.kind n.notes <|
        n.kind.slots.map fun slot => (t.chain (n.heads slot)).map (t.shapeFrom fuel)

/-- The code at a node. -/
def shape (t : Tree) (i : NodeId) : Shape := t.shapeFrom t.size i

variable {t t' : Tree} {place : Place} {next : Option NodeId}

-- ============================================================== bounds

/-- Distinct node numbers of an arena are no more than its size. -/
theorem length_le_size {l : List NodeId} (hn : l.Nodup) (hlt : ∀ j ∈ l, j < t.size) :
    l.length ≤ t.size := by
  have hsub : l ⊆ List.range t.size := fun j hj => List.mem_range.2 (hlt j hj)
  have h := (hn.subperm hsub).length_le
  rwa [List.length_range] at h

theorem HoldsChain.tags_length_le {xs : List Planted} (h : t.HoldsChain place next xs)
    (hn : (xs.flatMap Term.tags).Nodup) : (xs.flatMap Term.tags).length ≤ t.size :=
  length_le_size hn fun _ => h.lt_size

theorem length_le_tags_length (xs : List Planted) :
    xs.length ≤ (xs.flatMap Term.tags).length := by
  induction xs with
  | nil => exact Nat.le_refl 0
  | cons x rest ih =>
    have hx : 0 < x.tags.length := List.length_pos_of_mem x.tag_mem_tags
    rw [List.length_cons, List.flatMap_cons, List.length_append]
    omega

-- =============================================================== nodes

theorem HoldsChain.node?_eq {x : Planted} (h : t.HoldsChain place next [x]) :
    t.node? x.tag = some (x.top place next).2 :=
  (holdsChain_singleton.1 h).2.1

theorem HoldsChain.node_eq {x : Planted} (h : t.HoldsChain place next [x]) :
    t.node x.tag = .ok (x.top place next).2 := by
  unfold Tree.node
  rw [h.node?_eq]

theorem HoldsChain.kind?_eq {x : Planted} (h : t.HoldsChain place next [x]) :
    t.kind? x.tag = some x.kind := by
  unfold Tree.kind?
  rw [h.node?_eq]
  rfl

theorem HoldsChain.place_eq {x : Planted} (h : t.HoldsChain place next [x]) :
    t.place x.tag = place := by
  unfold Tree.place
  rw [h.node?_eq]
  rfl

theorem HoldsChain.next?_eq {x : Planted} (h : t.HoldsChain place next [x]) :
    t.next? x.tag = next := by
  unfold Tree.next?
  rw [h.node?_eq]
  rfl

theorem HoldsChain.head_eq {x : Planted} (h : t.HoldsChain place next [x]) {s : Slot}
    {chain : List Planted} (hs : (s, chain) ∈ x.kind.slots.zip x.slots) :
    t.head x.tag s = headOr none chain := by
  unfold Tree.head
  rw [h.node?_eq]
  exact headsOf_of_mem x.kind.nodup_slots hs

/-- Every member of a held chain is held at some place. -/
theorem HoldsChain.of_mem {xs : List Planted} (h : t.HoldsChain place next xs)
    {x : Planted} (hx : x ∈ xs) : ∃ p n, t.HoldsChain p n [x] := by
  induction xs generalizing place with
  | nil => cases hx
  | cons y rest ih =>
    rw [holdsChain_cons] at h
    rcases List.mem_cons.1 hx with rfl | hx
    · exact ⟨_, _, h.1⟩
    · exact ih h.2 hx

-- ============================================================== chains

theorem chainFrom_of_holds {xs : List Planted} (h : t.HoldsChain place none xs)
    {fuel : Nat} (hf : xs.length ≤ fuel) :
    t.chainFrom fuel (headOr none xs) = xs.map Term.tag := by
  induction xs generalizing place fuel with
  | nil => cases fuel <;> rfl
  | cons x rest ih =>
    rw [holdsChain_cons] at h
    cases fuel with
    | zero => exact absurd hf (Nat.not_succ_le_zero _)
    | succ fuel =>
      rw [headOr_cons, chainFrom, h.1.next?_eq, ih h.2 (Nat.le_of_succ_le_succ hf),
        List.map_cons]

/-- A held chain is listed in order. -/
theorem chain_of_holds {xs : List Planted} (h : t.HoldsChain place none xs)
    (hn : (xs.flatMap Term.tags).Nodup) :
    t.chain (headOr none xs) = xs.map Term.tag :=
  chainFrom_of_holds h (Nat.le_trans (length_le_tags_length xs) (h.tags_length_le hn))

/-- The last node of a held chain is found from its first. -/
theorem last_of_holds {x : Planted} {rest : List Planted}
    (h : t.HoldsChain place none (x :: rest))
    (hn : ((x :: rest).flatMap Term.tags).Nodup) (p : Place) :
    endPlace p (x :: rest) = .after (t.last x.tag) := by
  unfold Tree.last
  have hc : t.chain (some x.tag) = (x :: rest).map Term.tag := chain_of_holds h hn
  rw [hc]
  clear h hn hc
  induction rest generalizing x p with
  | nil => rfl
  | cons y ys ih =>
    rw [endPlace_cons, ih, List.map_cons, List.getLastD_cons, List.map_cons,
      List.map_cons, List.getLastD_cons, List.getLastD_cons]

/-- Two lists of one length whose entries agree in pairs have equal
images. -/
theorem map_eq_of_zip {α β γ : Type} {f : α → γ} {g : β → γ} {l : List α} {m : List β}
    (hlen : l.length = m.length) (h : ∀ p ∈ l.zip m, f p.1 = g p.2) :
    l.map f = m.map g := by
  induction l generalizing m with
  | nil => rw [List.length_eq_zero_iff.1 hlen.symm, List.map_nil, List.map_nil]
  | cons a l ih =>
    cases m with
    | nil => cases hlen
    | cons b m =>
      rw [List.map_cons, List.map_cons,
        h (a, b) (by rw [List.zip_cons_cons]; exact List.mem_cons_self ..),
        ih (Nat.succ.inj hlen) fun p hp =>
          h p (by rw [List.zip_cons_cons]; exact List.mem_cons_of_mem _ hp)]

/-- The chain in a slot of a term with distinct tags has distinct
tags. -/
theorem nodup_slot {x : Planted} (hn : x.tags.Nodup) {chain : List Planted}
    (hc : chain ∈ x.slots) : (chain.flatMap Term.tags).Nodup := by
  cases x with
  | node id kind notes slots =>
    rw [Term.tags_node, List.nodup_cons] at hn
    exact hn.2.sublist ((List.sublist_flatten_of_mem hc).flatMap Term.tags)

/-- The children of a held node, slot by slot. -/
theorem children_of_holds {x : Planted} (h : t.HoldsChain place next [x])
    (hn : x.tags.Nodup) : t.children x.tag = x.slots.flatten.map Term.tag := by
  obtain ⟨hlen, htop, hslots⟩ := holdsChain_singleton.1 h
  unfold Tree.children
  rw [htop]
  show x.kind.slots.flatMap (fun slot => t.chain (headsOf x.kind.slots x.slots slot)) = _
  have hchain : ∀ sc ∈ x.kind.slots.zip x.slots,
      t.chain (headsOf x.kind.slots x.slots sc.1) = sc.2.map Term.tag := by
    intro sc hsc
    rw [headsOf_of_mem x.kind.nodup_slots hsc]
    exact chain_of_holds (hslots sc hsc) (nodup_slot hn (List.of_mem_zip hsc).2)
  rw [List.flatMap_def, map_eq_of_zip hlen.symm hchain, List.map_flatten]

-- =============================================================== shapes

/-- Reading a held term gives its shape, from as many levels on as it has
nodes. -/
theorem shapeFrom_of_holds {x : Planted} (h : t.HoldsChain place next [x])
    (hn : x.tags.Nodup) {fuel : Nat} (hf : x.tags.length ≤ fuel) :
    t.shapeFrom fuel x.tag = x.shape := by
  induction x using Term.ind generalizing place next fuel with
  | node id kind notes slots ih =>
    obtain ⟨hlen, htop, hslots⟩ := holdsChain_singleton.1 h
    replace htop : t.node? id = some (Term.top place next (.node id kind notes slots)).2 :=
      htop
    rw [Term.tags_node, List.length_cons] at hf
    cases fuel with
    | zero => exact absurd hf (Nat.not_succ_le_zero _)
    | succ fuel =>
      have hslot : ∀ sc ∈ kind.slots.zip slots,
          (t.chain (headsOf kind.slots slots sc.1)).map (t.shapeFrom fuel)
            = sc.2.map Term.shape := by
        intro sc hsc
        have hmem : sc.2 ∈ slots := (List.of_mem_zip hsc).2
        have hnd : (sc.2.flatMap Term.tags).Nodup := nodup_slot hn hmem
        rw [headsOf_of_mem kind.nodup_slots hsc, chain_of_holds (hslots sc hsc) hnd,
          List.map_map]
        refine List.map_congr_left fun y hy => ?_
        have hsub : y.tags.Sublist (slots.flatten.flatMap Term.tags) :=
          (Term.tags_sublist hy).trans ((List.sublist_flatten_of_mem hmem).flatMap Term.tags)
        obtain ⟨p, n, hy'⟩ := (hslots sc hsc).of_mem hy
        refine ih sc.2 hmem y hy hy' (hnd.sublist (Term.tags_sublist hy)) ?_
        have := hsub.length_le
        omega
      rw [Term.tag_node, shapeFrom, htop, Term.shape_node]
      show Term.node () kind notes (kind.slots.map fun slot =>
        (t.chain (headsOf kind.slots slots slot)).map (t.shapeFrom fuel)) = _
      exact congrArg _ (map_eq_of_zip (l := kind.slots) hlen.symm hslot)

theorem shape_of_holds {x : Planted} (h : t.HoldsChain place next [x]) (hn : x.tags.Nodup) :
    t.shape x.tag = x.shape := by
  refine shapeFrom_of_holds h hn ?_
  have := h.tags_length_le (by simpa using hn)
  simpa using this

end Tree

end RegisterMap.Code
