/-
An arena as rows of nodes. Every chain has a seat: the slot it hangs in,
or nowhere, and then it is known by its head. In a sound arena the rows
are disjoint and cover it, so each node has one seat and one position in
the row there (`Sound.mem_row_iff`).
-/
import RegisterMap.Proofs.Code.Climbing

namespace RegisterMap.Code

/-- Where a whole chain is. -/
inductive Seat where
  | slot (owner : NodeId) (slot : Slot)
  /-- Nowhere: the chain of an unlinked node. -/
  | loose (head : NodeId)
  deriving DecidableEq, Repr

namespace Tree

/-- The first node of the chain at a seat. -/
def seatHead (t : Tree) : Seat → Option NodeId
  | .slot owner slot => t.head owner slot
  | .loose i => if i < t.size ∧ t.place i = .root then some i else none

/-- The nodes of the chain at a seat, in order. -/
def row (t : Tree) (seat : Seat) : List NodeId := t.chain (t.seatHead seat)

/-- The seat of the chain a node belongs to. -/
def seat (t : Tree) (i : NodeId) : Seat :=
  match t.parent? i with
  | some (owner, slot) => .slot owner slot
  | none => .loose (t.first i)

variable {t : Tree}

theorem seatHead_loose {i : NodeId} (hi : i < t.size) (hp : t.place i = .root) :
    t.seatHead (.loose i) = some i := if_pos ⟨hi, hp⟩

theorem seatHead_loose_iff {i h : NodeId} :
    t.seatHead (.loose h) = some i ↔ i = h ∧ i < t.size ∧ t.place i = .root := by
  show (if h < t.size ∧ t.place h = .root then some h else none) = some i ↔ _
  split
  · next hh => exact ⟨fun he => Option.some.inj he ▸ ⟨rfl, hh⟩, fun he => congrArg some he.1.symm⟩
  · next hh => exact ⟨fun he => (nomatch he), fun ⟨he, hi⟩ => absurd (he ▸ hi) hh⟩

/-- The head of a row heads no other one, and has no predecessor. -/
theorem Mutual.seatHead_spec (hm : t.Mutual) {seat : Seat} {i : NodeId}
    (h : t.seatHead seat = some i) :
    i < t.size ∧ t.previous? i = none
      ∧ ∀ seat', t.seatHead seat' = some i → seat' = seat := by
  have hplace : ∀ seat', t.seatHead seat' = some i →
      (∃ o s, seat' = .slot o s ∧ t.place i = .slot o s)
        ∨ seat' = .loose i ∧ i < t.size ∧ t.place i = .root := by
    intro seat' h
    cases seat' with
    | slot o s => exact Or.inl ⟨o, s, rfl, (hm.head_iff o s i).1 h⟩
    | loose j =>
      obtain ⟨rfl, hi⟩ := seatHead_loose_iff.1 h
      exact Or.inr ⟨rfl, hi⟩
  rcases hplace seat h with ⟨o, s, rfl, hp⟩ | ⟨rfl, hi, hp⟩
  · refine ⟨lt_size_of_place (hp ▸ Place.noConfusion), by rw [previous?, hp], fun seat' h' => ?_⟩
    rcases hplace seat' h' with ⟨o', s', rfl, hp'⟩ | ⟨rfl, -, hp'⟩
    · injection hp.symm.trans hp' with ho hs
      rw [ho, hs]
    · cases hp.symm.trans hp'
  · refine ⟨hi, by rw [previous?, hp], fun seat' h' => ?_⟩
    rcases hplace seat' h' with ⟨o', s', rfl, hp'⟩ | ⟨rfl, -, -⟩
    · cases hp.symm.trans hp'
    · rfl

section Rows

variable (hs : t.Sound) {seat : Seat} {i : NodeId}

include hs

theorem Sound.path_row (seat : Seat) : t.Path (t.seatHead seat) (t.row seat) none :=
  hs.path_chain fun _ h => (hs.linked.seatHead_spec h).1

/-- The row at a seat is all that the next links lead through. -/
theorem Sound.row_eq {l : List NodeId} (h : t.Path (t.seatHead seat) l none) :
    t.row seat = l :=
  (hs.path_row seat).unique h

theorem Sound.nodup_row (seat : Seat) : (t.row seat).Nodup := (hs.path_row seat).nodup hs

theorem Sound.lt_of_mem_row (h : i ∈ t.row seat) : i < t.size :=
  (hs.path_row seat).lt_size hs.linked (fun _ h => (hs.linked.seatHead_spec h).1) i h

theorem Sound.seatHead_seat (hi : i < t.size) : t.seatHead (t.seat i) = some (t.first i) := by
  have hprev := (hs.first_path hi).2.1
  have hlt := (hs.under_first hi).lt_size hs.linked hi
  unfold Tree.seat Tree.parent?
  cases hp : t.place (t.first i) with
  | root => exact seatHead_loose hlt hp
  | slot o s => exact (hs.linked.head_iff o s _).2 hp
  | after p =>
    rw [previous?, hp] at hprev
    cases hprev

/-- A node is in the row of its own seat and in no other one. -/
theorem Sound.mem_row_iff : i ∈ t.row seat ↔ i < t.size ∧ t.seat i = seat := by
  constructor
  · intro h
    have hi := hs.lt_of_mem_row h
    refine ⟨hi, ?_⟩
    obtain ⟨l, m, hlm⟩ := List.append_of_mem h
    obtain ⟨b, hl, hm⟩ := path_append.1 (hlm ▸ hs.path_row seat)
    obtain rfl : b = some i := hm.1
    cases hf : t.seatHead seat with
    | none =>
      rw [hf] at hl
      cases l with
      | nil => cases (show none = some i from hl)
      | cons j l => cases hl.1
    | some f =>
      rw [hf] at hl
      obtain ⟨hlt, hprev, hone⟩ := hs.linked.seatHead_spec hf
      have hfirst := (hs.first_eq hl hprev hlt).1
      exact hone _ (hfirst ▸ hs.seatHead_seat hi)
  · rintro ⟨hi, rfl⟩
    unfold Tree.row
    rw [hs.seatHead_seat hi]
    exact hs.mem_chain_first hi

/-- The rows cover the arena, and each node is in one of them, once. -/
theorem Sound.existsUnique_row (hi : i < t.size) :
    ∃! seat, i ∈ t.row seat ∧ (t.row seat).count i = 1 :=
  ⟨t.seat i, ⟨hs.mem_row_iff.2 ⟨hi, rfl⟩,
      List.count_eq_one_of_mem (hs.nodup_row _) (hs.mem_row_iff.2 ⟨hi, rfl⟩)⟩,
    fun _ h => (hs.mem_row_iff.1 h.1).2.symm⟩

end Rows

end Tree

end RegisterMap.Code
