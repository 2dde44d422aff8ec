/-
New nodes. A node is added with the chains it claims; they have to be
unlinked and different, so nothing else holds them (`claimable_iff`), and
the new node itself is held by nothing, so the arena stays sound
(`Sound.adopt`).

The checks in front of the operations are read backwards here: what is
known of the nodes involved once a check has passed.
-/
import RegisterMap.Proofs.Code.Surgery
import RegisterMap.Proofs.Code.Planting

namespace RegisterMap.Code

open Relation (ReflTransGen TransGen)

namespace Tree

variable {t t' : Tree}

-- ============================================================= checks

theorem require_iff {i : NodeId} : t.require i = .ok () ↔ i < t.size := by
  unfold Tree.require
  split <;> simp [*]

theorem requireUnlinked_iff {i : NodeId} :
    t.requireUnlinked i = .ok () ↔ i < t.size ∧ t.place i = .root := by
  constructor
  · intro h
    unfold Tree.requireUnlinked at h
    by_cases hi : i < t.size
    · rw [require_iff.2 hi] at h
      refine ⟨hi, ?_⟩
      cases hp : t.place i with
      | root => rfl
      | slot o s =>
        rw [hp] at h
        cases h
      | after p =>
        rw [hp] at h
        cases h
    · unfold Tree.require at h
      rw [if_neg hi] at h
      cases h
  · exact fun ⟨hi, hp⟩ => requireUnlinked_eq_ok hi hp

theorem requireLinked_iff {i : NodeId} :
    t.requireLinked i = .ok () ↔ t.place i ≠ .root := by
  constructor
  · intro h hp
    unfold Tree.requireLinked Tree.require at h
    rw [hp] at h
    split at h <;> cases h
  · exact fun hp => requireLinked_eq_ok (lt_size_of_place hp) hp

theorem requireAcyclic_iff {anchor head : NodeId} :
    t.requireAcyclic anchor head = .ok () ↔ t.wouldCycle anchor head = false := by
  unfold Tree.requireAcyclic
  split <;> simp [*]

/-- A slot that can be looked up is one of its owner's kind. -/
theorem slotHead_eq_ok {o : NodeId} {s : Slot} {head : Option NodeId} :
    t.slotHead o s = .ok head ↔ (∃ k, t.kind? o = some k ∧ s ∈ k.slots) ∧ t.head o s = head := by
  unfold Tree.slotHead Tree.node Tree.kind? Tree.head
  cases t.node? o with
  | none => simp [bind, Except.bind]
  | some n => by_cases hs : s ∈ n.kind.slots <;> simp [bind, Except.bind, hs]

/-- A check that goes on after another passes if both do. -/
theorem check_bind_iff {ε α : Type} {c : Except ε Unit} {d : Except ε α} {a : α} :
    (do c; d) = .ok a ↔ c = .ok () ∧ d = .ok a := by
  cases c with
  | error e => exact ⟨fun h => (nomatch h), fun h => (nomatch h.1)⟩
  | ok u => exact ⟨fun h => ⟨rfl, h⟩, fun h => h.2⟩

-- ============================================================ claiming

/-- The chains in the slots listed are given their place below `id`. -/
def claim (t : Tree) (id : NodeId) (heads : Heads) (slots : List Slot) : Tree :=
  slots.foldl
    (fun t slot =>
      match heads slot with
      | some child => t.setPlace child (.slot id slot)
      | none => t)
    t

theorem adopt_eq_claim (t : Tree) (kind : Kind) (heads : Heads) :
    (t.adopt kind heads).2 = (t.push { kind, heads := heads.restrict kind.slots }).2.claim
      t.size heads kind.slots := rfl

/-- Nothing but places is written. -/
theorem claim_reads (slots : List Slot) (t : Tree) (id : NodeId) (heads : Heads) :
    (t.claim id heads slots).size = t.size
      ∧ (∀ j, (t.claim id heads slots).kind? j = t.kind? j)
      ∧ (∀ j, (t.claim id heads slots).next? j = t.next? j)
      ∧ ∀ j s, (t.claim id heads slots).head j s = t.head j s := by
  induction slots generalizing t with
  | nil => exact ⟨rfl, fun _ => rfl, fun _ => rfl, fun _ _ => rfl⟩
  | cons s slots ih =>
    unfold claim
    rw [List.foldl_cons]
    cases heads s with
    | none => exact ih t
    | some c =>
      have h := ih (t.setPlace c (.slot id s))
      simp only [size_setPlace, kind?_setPlace, next?_setPlace, head_setPlace] at h
      exact h

theorem place_claim_of_ne {slots : List Slot} {id j : NodeId} {heads : Heads}
    (h : ∀ s ∈ slots, heads s ≠ some j) : (t.claim id heads slots).place j = t.place j := by
  induction slots generalizing t with
  | nil => rfl
  | cons s slots ih =>
    have hs := h s (List.mem_cons_self ..)
    have hrest := fun s hs => h s (List.mem_cons_of_mem _ hs)
    unfold claim
    rw [List.foldl_cons]
    cases hc : heads s with
    | none => exact ih hrest
    | some c =>
      refine (ih hrest).trans ?_
      rw [place_setPlace, if_neg fun he => hs (hc.trans (congrArg some he.1))]

theorem place_claim_of_eq {slots : List Slot} {id j : NodeId} {heads : Heads} {s : Slot}
    (hmem : s ∈ slots) (hs : heads s = some j) (hj : j < t.size)
    (hone : ∀ s' ∈ slots, heads s' = some j → s' = s) :
    (t.claim id heads slots).place j = .slot id s := by
  induction slots generalizing t with
  | nil => cases hmem
  | cons s' slots ih =>
    have hrest := fun s hs => hone s (List.mem_cons_of_mem _ hs)
    unfold claim
    rw [List.foldl_cons]
    by_cases hin : s ∈ slots
    · cases hc : heads s' with
      | none => exact ih hin hj hrest
      | some c => exact ih hin (by simpa using hj) hrest
    · obtain rfl : s = s' := (List.mem_cons.1 hmem).resolve_right hin
      rw [hs]
      refine (place_claim_of_ne fun s' hs' he => hin (hrest s' hs' he ▸ hs')).trans ?_
      rw [place_setPlace_of_lt hj, if_pos rfl]

/-- Chains that may be claimed are unlinked and different. -/
theorem claimable_ok {heads : Heads} {slots : List Slot} {claimed : List NodeId}
    (h : t.claimable heads slots claimed = .ok ()) :
    (∀ s ∈ slots, ∀ c, heads s = some c → c < t.size ∧ t.place c = .root ∧ c ∉ claimed)
      ∧ slots.Pairwise fun s s' => ∀ c, heads s = some c → heads s' ≠ some c := by
  induction slots generalizing claimed with
  | nil => exact ⟨fun _ hs => (nomatch hs), List.Pairwise.nil⟩
  | cons s slots ih =>
    rw [claimable] at h
    cases hc : heads s with
    | none =>
      rw [hc] at h
      obtain ⟨hfree, hdiff⟩ := ih h
      refine ⟨fun s' hs' c' hc' => ?_, List.pairwise_cons.2 ⟨fun s' _ c hs => ?_, hdiff⟩⟩
      · rcases List.mem_cons.1 hs' with rfl | hs'
        · cases hc.symm.trans hc'
        · exact hfree s' hs' c' hc'
      · cases hc.symm.trans hs
    | some c =>
      rw [hc] at h
      obtain ⟨hun, h⟩ := check_bind_iff.1 h
      obtain ⟨hlt, hroot⟩ := requireUnlinked_iff.1 hun
      split at h
      · cases h
      · next hnot =>
        rw [List.contains_iff_mem] at hnot
        obtain ⟨hfree, hdiff⟩ := ih h
        refine ⟨fun s' hs' c' hc' => ?_, List.pairwise_cons.2 ⟨fun s' hs' c' hs => ?_, hdiff⟩⟩
        · rcases List.mem_cons.1 hs' with rfl | hs'
          · obtain rfl := Option.some.inj (hc.symm.trans hc')
            exact ⟨hlt, hroot, hnot⟩
          · obtain ⟨h1, h2, h3⟩ := hfree s' hs' c' hc'
            exact ⟨h1, h2, fun hm => h3 (List.mem_cons_of_mem _ hm)⟩
        · obtain rfl := Option.some.inj (hc.symm.trans hs)
          exact fun hs'' => (hfree s' hs' c hs'').2.2 (List.mem_cons_self ..)

-- ============================================================== adding

theorem next?_push (t : Tree) (kind : Kind) (heads : Heads) (j : NodeId) :
    (t.push { kind, heads }).2.next? j = t.next? j := by
  unfold Tree.next?
  rw [node?_push]
  split
  · next hj => rw [(node?_eq_none_iff t j).2 (Nat.le_of_eq hj.symm)]; rfl
  · rfl

theorem place_push (t : Tree) (kind : Kind) (heads : Heads) (j : NodeId) :
    (t.push { kind, heads }).2.place j = t.place j := by
  unfold Tree.place
  rw [node?_push]
  split
  · next hj => rw [(node?_eq_none_iff t j).2 (Nat.le_of_eq hj.symm)]; rfl
  · rfl

theorem head_push (t : Tree) (kind : Kind) (heads : Heads) (j : NodeId) (s : Slot) :
    (t.push { kind, heads }).2.head j s = if j = t.size then heads s else t.head j s := by
  unfold Tree.head
  rw [node?_push]
  split <;> rfl

theorem kind?_push_self (t : Tree) (kind : Kind) (heads : Heads) :
    (t.push { kind, heads }).2.kind? t.size = some kind := by
  unfold Tree.kind?
  rw [node?_push, if_pos rfl]
  rfl

/-- A new node claims unlinked and different chains. -/
theorem Sound.adopt (hs : t.Sound) {kind : Kind} {heads : Heads}
    (h : t.claimable heads kind.slots [] = .ok ()) : (t.adopt kind heads).2.Sound := by
  obtain ⟨hfree, hdiff⟩ := claimable_ok h
  have hone : ∀ s ∈ kind.slots, ∀ s' ∈ kind.slots, ∀ c, heads s = some c →
      heads s' = some c → s' = s := by
    intro s hs s' hs' c hc hc'
    by_contra hne
    have : Std.Symm fun s s' => ∀ c, heads s = some c → heads s' ≠ some c :=
      ⟨fun _ _ hss c h1 h2 => hss c h2 h1⟩
    exact hdiff.forall hs hs' (Ne.symm hne) c hc hc'
  rw [adopt_eq_claim]
  obtain ⟨hsize, hkind, hnext, hhead⟩ := claim_reads kind.slots
    (t.push { kind, heads := heads.restrict kind.slots }).2 t.size heads
  generalize hu : (t.push { kind, heads := heads.restrict kind.slots }).2 = u at *
  have hplace : ∀ j, (∃ s ∈ kind.slots, heads s = some j
        ∧ (u.claim t.size heads kind.slots).place j = .slot t.size s ∧ t.place j = .root)
      ∨ (∀ s ∈ kind.slots, heads s ≠ some j)
        ∧ (u.claim t.size heads kind.slots).place j = t.place j := by
    intro j
    by_cases hj : ∃ s ∈ kind.slots, heads s = some j
    · obtain ⟨s, hs, hc⟩ := hj
      obtain ⟨hlt, hroot, -⟩ := hfree s hs j hc
      have hlt' : j < u.size := by
        rw [← hu, size_push]
        exact Nat.lt_succ_of_lt hlt
      exact Or.inl ⟨s, hs, hc, place_claim_of_eq hs hc hlt' fun s' hs' => hone s hs s' hs' j hc,
        hroot⟩
    · have hj' : ∀ s ∈ kind.slots, heads s ≠ some j := fun s hs hc => hj ⟨s, hs, hc⟩
      exact Or.inr ⟨hj', by rw [place_claim_of_ne hj', ← hu, place_push]⟩
  have hnext' : ∀ j, (u.claim t.size heads kind.slots).next? j = t.next? j := fun j => by
    rw [hnext, ← hu, next?_push]
  have hhead' : ∀ j s, (u.claim t.size heads kind.slots).head j s
      = if j = t.size then (if s ∈ kind.slots then heads s else none) else t.head j s :=
    fun j s => by
      rw [hhead, ← hu, head_push]
      rfl
  have hnone : ∀ j s, t.place j ≠ .slot t.size s := fun j s hp =>
    Nat.lt_irrefl _ (lt_size_of_head ((hs.linked.head_iff _ s j).2 hp))
  refine ⟨⟨fun p x => ?_, fun o s x => ?_⟩, fun {o s x} hx => ?_, acyclic_of_grounded ⟨fun i => ?_⟩⟩
  · rw [hnext']
    rcases hplace x with ⟨s, -, -, hp, hroot⟩ | ⟨-, hp⟩
    · rw [hs.linked.next_iff, hp, hroot]
      exact ⟨Place.noConfusion, Place.noConfusion⟩
    · rw [hp]
      exact hs.linked.next_iff p x
  · rw [hhead']
    have hold := hs.linked.head_iff o s x
    rcases hplace x with ⟨s', hs', hc, hp, hroot⟩ | ⟨hnot, hp⟩
    · have := hone s' hs' s
      grind
    · have := hnone x s
      have := hnot s
      grind
  · rw [hkind, ← hu]
    rw [hhead'] at hx
    split at hx
    · next ho =>
      split at hx
      · next hs' => exact ⟨kind, ho ▸ kind?_push_self .., hs'⟩
      · cases hx
    · rw [kind?_push (lt_size_of_head hx)]
      exact hs.slotted hx
  · -- the new node hangs from nothing, and the heads of its chains from it
    have hnew : Acc (Function.swap (u.claim t.size heads kind.slots).HangsFrom) t.size := by
      refine ⟨_, fun p (hp : Tree.anchor? _ _ = some p) => ?_⟩
      rcases hplace t.size with ⟨s, hs', hc, -⟩ | ⟨-, hp'⟩
      · exact absurd (hfree s hs' _ hc).1 (Nat.lt_irrefl _)
      · have hroot : t.place t.size = .root := by
          by_contra hne
          exact Nat.lt_irrefl _ (lt_size_of_place hne)
        rw [anchor?_of_root (hp'.trans hroot)] at hp
        cases hp
    refine hs.acc_of_agree fun j _ => ?_
    rcases hplace j with ⟨s, -, -, hp, -⟩ | ⟨-, hp⟩
    · refine Or.inr (Or.inr ⟨_, fun p (hp' : Tree.anchor? _ _ = some p) => ?_⟩)
      exact Option.some.inj ((anchor?_of_slot hp).symm.trans hp') ▸ hnew
    · exact Or.inr (Or.inl (anchor?_congr hp))

/-- A node that claims nothing is only added. -/
theorem adopt_empty (t : Tree) (kind : Kind) :
    (t.adopt kind Heads.empty).2 = (t.push { kind }).2 := by
  have hclaim : ∀ (slots : List Slot) (u : Tree), u.claim t.size Heads.empty slots = u := by
    intro slots
    induction slots with
    | nil => exact fun _ => rfl
    | cons s slots ih => exact ih
  have hheads : Heads.empty.restrict kind.slots = Heads.empty := by
    funext s
    simp [Heads.restrict, Heads.empty]
  rw [adopt_eq_claim, hclaim, hheads]

theorem claimable_empty (t : Tree) (slots : List Slot) (claimed : List NodeId) :
    t.claimable Heads.empty slots claimed = .ok () := by
  induction slots with
  | nil => rfl
  | cons s slots ih => exact ih

/-- A new node without children. -/
theorem Sound.push (hs : t.Sound) (kind : Kind) : (t.push { kind }).2.Sound :=
  adopt_empty t kind ▸ hs.adopt (claimable_empty ..)

end Tree

end RegisterMap.Code
