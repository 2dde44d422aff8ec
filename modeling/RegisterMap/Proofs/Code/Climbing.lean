/-
Climbing an arena. Every node hangs from at most one other, its
predecessor or the owner of its slot (`anchor?`); an arena is `Sound` if
links are recorded at both ends, chains hang in slots their owners have,
and no climb ever comes back to where it started.

The walks of a tree count down a fuel. In a sound arena the fuel is never
used up: a walk visits different nodes, and there are no more of them than
the arena has (`length_le_size`). So a chain is all of what the next links
lead through (`Sound.path_chain`), the head found by walking back has no
predecessor (`Sound.first_path`), and a climb from owner to owner reaches
the top (`Sound.climb`). With that, the test made before every linking
says exactly whether the head of the new chain lies above the anchor
(`Sound.wouldCycle_iff`).
-/
import RegisterMap.Proofs.Code.Mutual
import Mathlib.Order.WellFoundedSet

namespace RegisterMap.Code

open Relation (ReflTransGen TransGen)

/-- On finitely many numbers a relation without cycles is well-founded. -/
theorem wellFounded_of_acyclic {r : NodeId → NodeId → Prop} {n : Nat}
    (hlt : ∀ {a b}, r a b → a < n ∧ b < n) (hac : ∀ i, ¬ TransGen r i i) : WellFounded r := by
  have : IsStrictOrder NodeId (TransGen r) := { irrefl := hac, trans := fun _ _ _ => .trans }
  have hon : Set.WellFoundedOn {i | i < n} (TransGen r) := (Set.finite_lt_nat n).wellFoundedOn
  exact (Set.wellFoundedOn_iff.1 hon).mono fun a b hab => ⟨.single hab, (hlt hab).1, (hlt hab).2⟩

namespace Tree

/-- The node that `i` hangs from: its predecessor, or the owner of its
slot. -/
def anchor? (t : Tree) (i : NodeId) : Option NodeId :=
  match t.place i with
  | .root => none
  | .slot owner _ => some owner
  | .after previous => some previous

/-- `i` hangs from `p`. -/
def HangsFrom (t : Tree) (i p : NodeId) : Prop := t.anchor? i = some p

/-- A climb from `i` passes `a`. -/
abbrev Under (t : Tree) : NodeId → NodeId → Prop := ReflTransGen t.HangsFrom

/-- What every operation on links keeps. -/
structure Sound (t : Tree) : Prop where
  linked : t.Mutual
  /-- Only a slot of its owner's kind holds a chain. -/
  slotted : ∀ {o s x}, t.head o s = some x → ∃ k, t.kind? o = some k ∧ s ∈ k.slots
  /-- No climb comes back. -/
  acyclic : ∀ i, ¬ TransGen t.HangsFrom i i

variable {t t' : Tree}

-- ============================================================= anchors

theorem anchor?_of_root {i : NodeId} (h : t.place i = .root) : t.anchor? i = none := by
  rw [anchor?, h]

theorem anchor?_of_slot {i o : NodeId} {s : Slot} (h : t.place i = .slot o s) :
    t.anchor? i = some o := by
  rw [anchor?, h]

theorem anchor?_of_after {i p : NodeId} (h : t.place i = .after p) : t.anchor? i = some p := by
  rw [anchor?, h]

theorem place_of_anchor? {i p : NodeId} (h : t.anchor? i = some p) :
    t.place i = .after p ∨ ∃ s, t.place i = .slot p s := by
  unfold Tree.anchor? at h
  cases hp : t.place i with
  | root =>
    rw [hp] at h
    cases h
  | slot o s =>
    rw [hp] at h
    injection h with h
    exact Or.inr ⟨s, by rw [h]⟩
  | after q =>
    rw [hp] at h
    injection h with h
    exact Or.inl (by rw [h])

/-- A node that hangs from another exists, and so does the other. -/
theorem Mutual.hangsFrom_lt (h : t.Mutual) {i p : NodeId} (hi : t.HangsFrom i p) :
    i < t.size ∧ p < t.size := by
  rcases place_of_anchor? hi with hp | ⟨s, hp⟩
  · exact ⟨lt_size_of_place (hp ▸ Place.noConfusion),
      lt_size_of_next? ((h.next_iff p i).2 hp)⟩
  · exact ⟨lt_size_of_place (hp ▸ Place.noConfusion),
      lt_size_of_head ((h.head_iff p s i).2 hp)⟩

theorem Mutual.hangsFrom_next (h : t.Mutual) {p x : NodeId} (hn : t.next? p = some x) :
    t.HangsFrom x p :=
  anchor?_of_after ((h.next_iff p x).1 hn)

/-- Whatever heads a slot or follows a node exists. -/
theorem Mutual.lt_of_next (h : t.Mutual) {p x : NodeId} (hn : t.next? p = some x) :
    x < t.size :=
  (h.hangsFrom_lt (h.hangsFrom_next hn)).1

theorem Mutual.lt_of_head (h : t.Mutual) {o x : NodeId} {s : Slot}
    (hx : t.head o s = some x) : x < t.size :=
  (h.hangsFrom_lt (anchor?_of_slot ((h.head_iff o s x).1 hx))).1

/-- A climb has one way to go. -/
theorem rightUnique_hangsFrom (t : Tree) : Relator.RightUnique t.HangsFrom := by
  intro i a b ha hb
  exact Option.some.inj (ha.symm.trans hb)

/-- A climb ends at the root it passes. -/
theorem Under.to_root {i a r : NodeId} (ha : t.Under i a) (hr : t.Under i r)
    (hroot : t.anchor? r = none) : t.Under a r := by
  rcases ReflTransGen.total_of_right_unique (rightUnique_hangsFrom t) ha hr with h | h
  · exact h
  · rcases ReflTransGen.cases_head h with rfl | ⟨c, hc, -⟩
    · exact .refl
    · exact absurd (hroot.symm.trans hc) (Option.some_ne_none c).symm

theorem Under.lt_size (hm : t.Mutual) {i a : NodeId} (h : t.Under i a) (hi : i < t.size) :
    a < t.size := by
  induction h with
  | refl => exact hi
  | tail _ hbc _ => exact (hm.hangsFrom_lt hbc).2

theorem Sound.grounded (h : t.Sound) : WellFounded (Function.swap t.HangsFrom) := by
  refine wellFounded_of_acyclic (n := t.size) (fun hab => ?_) fun i hi => ?_
  · exact (h.linked.hangsFrom_lt hab).symm
  · exact h.acyclic i (Relation.transGen_swap.1 hi)

/-- What is above a node is not below it. -/
theorem Sound.not_under (h : t.Sound) {i p : NodeId} (hp : t.HangsFrom i p) : ¬ t.Under p i :=
  fun hu => h.acyclic i (TransGen.head' hp hu)

theorem acyclic_of_grounded (h : WellFounded (Function.swap t.HangsFrom)) (i : NodeId) :
    ¬ TransGen t.HangsFrom i i := by
  have : IsWellFounded NodeId (Function.swap t.HangsFrom) := ⟨h⟩
  exact fun hi => irrefl_of (TransGen (Function.swap t.HangsFrom)) i (Relation.transGen_swap.2 hi)

/-- Next links do not come back either. -/
theorem Sound.next_grounded (h : t.Sound) : WellFounded fun x p => t.next? p = some x := by
  refine wellFounded_of_acyclic (n := t.size) (fun hab => ?_) fun i hi => ?_
  · exact (h.linked.hangsFrom_lt (h.linked.hangsFrom_next hab))
  · exact h.acyclic i (hi.lift id fun _ _ => h.linked.hangsFrom_next)

-- =============================================================== paths

/-- The next links lead from `start` through the nodes listed to `stop`. -/
def Path (t : Tree) : (start : Option NodeId) → List NodeId → (stop : Option NodeId) → Prop
  | start, [], stop => start = stop
  | start, i :: l, stop => start = some i ∧ t.Path (t.next? i) l stop

variable {a b c : Option NodeId} {l m : List NodeId}

@[simp] theorem path_nil : t.Path a [] c ↔ a = c := Iff.rfl

@[simp] theorem path_cons {i : NodeId} :
    t.Path a (i :: l) c ↔ a = some i ∧ t.Path (t.next? i) l c := Iff.rfl

theorem path_append : t.Path a (l ++ m) c ↔ ∃ b, t.Path a l b ∧ t.Path b m c := by
  induction l generalizing a with
  | nil => simp
  | cons i l ih => simp [ih, and_assoc]

/-- A path is read off the next links of its own nodes. -/
theorem Path.congr (h : t.Path a l c) (hn : ∀ i ∈ l, t'.next? i = t.next? i) :
    t'.Path a l c := by
  induction l generalizing a with
  | nil => exact h
  | cons i l ih =>
    refine ⟨h.1, ?_⟩
    rw [hn i (List.mem_cons_self ..)]
    exact ih h.2 fun j hj => hn j (List.mem_cons_of_mem _ hj)

theorem Path.head_eq (h : t.Path a l none) : a = l.head? := by
  cases l with
  | nil => exact h
  | cons i l => exact h.1

/-- The next link of the last node leads on. -/
theorem Path.next?_last {i : NodeId} (h : t.Path a (l ++ [i]) c) : t.next? i = c := by
  obtain ⟨b, -, -, hc⟩ := path_append.1 h
  exact hc

/-- Two paths from one node to the end are one. -/
theorem Path.unique (h : t.Path a l none) (hm : t.Path a m none) : l = m := by
  induction l generalizing a m with
  | nil =>
    obtain rfl : a = none := h
    cases m with
    | nil => rfl
    | cons j m => cases hm.1
  | cons i l ih =>
    obtain ⟨rfl, h⟩ := h
    cases m with
    | nil => cases (show some i = none from hm)
    | cons j m =>
      obtain ⟨hj, hm⟩ := hm
      injection hj with hj
      subst hj
      rw [ih h hm]

theorem Path.chainFrom (h : t.Path a l none) {fuel : Nat} (hf : l.length ≤ fuel) :
    t.chainFrom fuel a = l := by
  induction l generalizing a fuel with
  | nil =>
    obtain rfl : a = none := h
    cases fuel <;> rfl
  | cons i l ih =>
    obtain ⟨rfl, h⟩ := h
    cases fuel with
    | zero => cases hf
    | succ fuel => rw [Tree.chainFrom, ih h (Nat.le_of_succ_le_succ hf)]

/-- The later nodes of a path hang below its first one. -/
theorem Path.under (hm : t.Mutual) {i : NodeId} (h : t.Path (some i) l c) :
    ∀ j ∈ l, t.Under j i := by
  induction l generalizing i with
  | nil => exact fun _ hj => nomatch hj
  | cons k l ih =>
    obtain ⟨hk, h⟩ := h
    injection hk with hk
    subst hk
    intro j hj
    rcases List.mem_cons.1 hj with rfl | hj
    · exact .refl
    · cases hn : t.next? i with
      | none =>
        rw [hn] at h
        cases l with
        | nil => cases hj
        | cons k l => cases h.1
      | some x =>
        rw [hn] at h
        exact (ih h j hj).tail (hm.hangsFrom_next hn)

/-- Only the first node of a path need not follow another. -/
theorem Path.eq_or_next {i : NodeId} (h : t.Path (some i) l c) :
    ∀ j ∈ l, j = i ∨ ∃ p, t.next? p = some j := by
  induction l generalizing i with
  | nil => exact fun _ hj => nomatch hj
  | cons k l ih =>
    obtain ⟨hk, h⟩ := h
    injection hk with hk
    subst hk
    intro j hj
    rcases List.mem_cons.1 hj with rfl | hj
    · exact Or.inl rfl
    · cases hn : t.next? i with
      | none =>
        rw [hn] at h
        cases l with
        | nil => cases hj
        | cons k l => cases h.1
      | some x =>
        rw [hn] at h
        rcases ih h j hj with rfl | hp
        · exact Or.inr ⟨i, hn⟩
        · exact Or.inr hp

theorem Path.nodup (hs : t.Sound) (h : t.Path a l c) : l.Nodup := by
  induction l generalizing a with
  | nil => exact List.nodup_nil
  | cons i l ih =>
    refine List.nodup_cons.2 ⟨fun hi => ?_, ih h.2⟩
    cases hn : t.next? i with
    | none =>
      have hl := h.2
      rw [hn] at hl
      cases l with
      | nil => cases hi
      | cons k l => cases hl.1
    | some x =>
      have hl := h.2
      rw [hn] at hl
      exact hs.not_under (hs.linked.hangsFrom_next hn) (Path.under hs.linked hl i hi)

theorem Path.lt_size (hm : t.Mutual) (ha : ∀ i, a = some i → i < t.size)
    (h : t.Path a l c) : ∀ j ∈ l, j < t.size := by
  induction l generalizing a with
  | nil => exact fun _ hj => nomatch hj
  | cons i l ih =>
    intro j hj
    rcases List.mem_cons.1 hj with rfl | hj
    · exact ha _ h.1
    · exact ih (fun k hk => hm.lt_of_next hk) h.2 j hj

-- ============================================================== chains

section Walks

variable (hs : t.Sound)

include hs

theorem Sound.exists_path (i : NodeId) : ∃ l, t.Path (some i) l none := by
  induction i using hs.next_grounded.induction with
  | _ i ih =>
    cases hn : t.next? i with
    | none => exact ⟨[i], rfl, hn⟩
    | some x =>
      obtain ⟨l, hl⟩ := ih x hn
      exact ⟨i :: l, rfl, hn ▸ hl⟩

/-- A chain is all that the next links lead through. -/
theorem Sound.path_chain (ha : ∀ i, a = some i → i < t.size) :
    t.Path a (t.chain a) none := by
  cases a with
  | none =>
    have : t.chain none = [] := by
      unfold Tree.chain
      cases t.size <;> rfl
    rw [this]
    rfl
  | some i =>
    obtain ⟨l, hl⟩ := hs.exists_path i
    have hlen := length_le_size (hl.nodup hs) (hl.lt_size hs.linked ha)
    have hc : t.chain (some i) = l := hl.chainFrom hlen
    exact hc ▸ hl

theorem Sound.chain_eq (ha : ∀ i, a = some i → i < t.size) (h : t.Path a l none) :
    t.chain a = l :=
  (hs.path_chain ha).unique h

/-- More fuel lists no more. -/
theorem Sound.chainFrom_eq (ha : ∀ i, a = some i → i < t.size) {fuel : Nat}
    (hf : t.size ≤ fuel) : t.chainFrom fuel a = t.chain a := by
  have h := hs.path_chain ha
  have hlen := length_le_size (h.nodup hs) (h.lt_size hs.linked ha)
  exact h.chainFrom (Nat.le_trans hlen hf)

/-- A chain starts with its head and ends with its last node, which has no
successor. -/
theorem Sound.chain_last {i : NodeId} (hi : i < t.size) :
    ∃ l, t.chain (some i) = l ++ [t.last i] ∧ t.next? (t.last i) = none := by
  have h := hs.path_chain fun j (hj : some i = some j) => Option.some.inj hj ▸ hi
  obtain ⟨l, k, hk⟩ : ∃ l k, t.chain (some i) = l ++ [k] := by
    refine List.eq_nil_or_concat' _ |>.resolve_left fun hnil => ?_
    rw [hnil] at h
    cases h
  have hlast : t.last i = k := by
    unfold Tree.last
    rw [hk, List.getLastD_concat]
  rw [hlast]
  exact ⟨l, hk, (hk ▸ h).next?_last⟩

/-- Walking back from a node ends at one without a predecessor. -/
theorem Sound.exists_first {i : NodeId} (hi : i < t.size) :
    ∃ f l, t.Path (some f) l (some i) ∧ t.previous? f = none ∧ f < t.size := by
  revert hi
  induction i using hs.grounded.induction with
  | _ i ih =>
    intro hi
    cases hp : t.place i with
    | root => exact ⟨i, [], rfl, by rw [previous?, hp], hi⟩
    | slot o s => exact ⟨i, [], rfl, by rw [previous?, hp], hi⟩
    | after p =>
      have hhang : t.HangsFrom i p := anchor?_of_after hp
      obtain ⟨f, l, hl, hf, hlt⟩ := ih p hhang (hs.linked.hangsFrom_lt hhang).2
      have hstep : t.Path (some p) [p] (some i) := ⟨rfl, (hs.linked.next_iff p i).2 hp⟩
      exact ⟨f, l ++ [p], path_append.2 ⟨_, hl, hstep⟩, hf, hlt⟩

/-- A path from a node without a predecessor starts at the head of the
chain it leads along, whatever fuel beyond the size is given. -/
theorem Sound.first_eq {f i : NodeId} (h : t.Path (some f) l (some i))
    (hf : t.previous? f = none) (hlt : f < t.size) :
    t.first i = f ∧ ∀ fuel, t.size ≤ fuel → t.firstFrom fuel i = f := by
  have hwalk : ∀ fuel, l.length ≤ fuel → t.firstFrom fuel i = f := by
    clear hlt
    induction l using List.reverseRecOn generalizing i with
    | nil =>
      intro fuel _
      obtain rfl : f = i := Option.some.inj h
      cases fuel with
      | zero => rfl
      | succ fuel => rw [firstFrom, hf]
    | append_singleton l p ih =>
      intro fuel hle
      obtain ⟨b, hl, rfl, hn⟩ := path_append.1 h
      rw [List.length_append] at hle
      cases fuel with
      | zero => cases hle
      | succ fuel =>
        rw [firstFrom, previous?, (hs.linked.next_iff p i).1 hn]
        exact ih hl fuel (Nat.le_of_succ_le_succ hle)
  have hlen := length_le_size (h.nodup hs)
    (h.lt_size hs.linked fun j hj => Option.some.inj hj ▸ hlt)
  exact ⟨hwalk _ hlen, fun fuel hle => hwalk fuel (Nat.le_trans hlen hle)⟩

/-- The head of the chain of a node has no predecessor, and the chain leads
from it to the node. -/
theorem Sound.first_path {i : NodeId} (hi : i < t.size) :
    (∃ l, t.Path (some (t.first i)) l (some i)) ∧ t.previous? (t.first i) = none
      ∧ ∀ fuel, t.size ≤ fuel → t.firstFrom fuel i = t.first i := by
  obtain ⟨f, l, hl, hf, hlt⟩ := hs.exists_first hi
  obtain ⟨hfirst, hfuel⟩ := hs.first_eq hl hf hlt
  rw [hfirst]
  exact ⟨⟨l, hl⟩, hf, hfuel⟩

theorem Sound.under_first {i : NodeId} (hi : i < t.size) : t.Under i (t.first i) := by
  obtain ⟨l, hl⟩ := (hs.first_path hi).1
  have h : t.Path (some (t.first i)) (l ++ [i]) (t.next? i) := path_append.2 ⟨_, hl, rfl, rfl⟩
  exact h.under hs.linked i (by simp)

/-- A node lies in the chain of its head. -/
theorem Sound.mem_chain_first {i : NodeId} (hi : i < t.size) :
    i ∈ t.chain (some (t.first i)) := by
  obtain ⟨l, hl⟩ := (hs.first_path hi).1
  obtain ⟨m, hm⟩ := hs.exists_path i
  have hlt := (hs.under_first hi).lt_size hs.linked hi
  rw [hs.chain_eq (fun j hj => Option.some.inj hj ▸ hlt) (path_append.2 ⟨_, hl, hm⟩)]
  cases m with
  | nil => cases (show some i = none from hm)
  | cons j m =>
    injection hm.1 with hj
    simp [hj]

end Walks

-- ============================================================== climbs

/-- The chain of `i` hangs in a slot of `o`. -/
def OwnedBy (t : Tree) (i o : NodeId) : Prop := ∃ s, t.parent? i = some (o, s)

theorem parent?_eq_some {i o : NodeId} {s : Slot} :
    t.parent? i = some (o, s) ↔ t.place (t.first i) = .slot o s := by
  unfold Tree.parent?
  cases t.place (t.first i) <;> simp

section Climbs

variable (hs : t.Sound) {i : NodeId} (hi : i < t.size)

include hs

theorem Sound.ownedBy_lt {o : NodeId} (ho : t.OwnedBy i o) : o < t.size := by
  obtain ⟨s, ho⟩ := ho
  exact lt_size_of_head ((hs.linked.head_iff o s _).2 (parent?_eq_some.1 ho))

include hi

theorem Sound.transGen_of_ownedBy {o : NodeId} (ho : t.OwnedBy i o) :
    TransGen t.HangsFrom i o := by
  obtain ⟨s, ho⟩ := ho
  exact TransGen.tail' (hs.under_first hi) (anchor?_of_slot (parent?_eq_some.1 ho))

theorem Sound.owners_above {o : NodeId} (ho : ReflTransGen t.OwnedBy i o) :
    o < t.size ∧ t.Under i o := by
  induction ho with
  | refl => exact ⟨hi, .refl⟩
  | tail _ hcd ih =>
    exact ⟨hs.ownedBy_lt hcd, ih.2.trans (hs.transGen_of_ownedBy ih.1 hcd).to_reflTransGen⟩

/-- A climb from owner to owner passes different nodes and reaches the top,
so no fuel beyond their number adds to it. -/
theorem Sound.climb : ∃ levels : List NodeId, levels.Nodup
    ∧ (∀ c, c ∈ levels ↔ ReflTransGen t.OwnedBy i c)
    ∧ (∃ c ∈ levels, t.place (t.first c) = .root)
    ∧ ∀ fuel, levels.length ≤ fuel →
      t.lineageFrom fuel i = levels.flatMap fun c => [c, t.first c] := by
  revert hi
  induction i using hs.grounded.transGen.induction with
  | _ i ih =>
    intro hi
    have hprev := (hs.first_path hi).2.1
    cases hp : t.place (t.first i) with
    | after p =>
      rw [previous?, hp] at hprev
      cases hprev
    | root =>
      have hnone : ∀ o, ¬ t.OwnedBy i o := by
        rintro o ⟨s, ho⟩
        rw [parent?_eq_some, hp] at ho
        cases ho
      refine ⟨[i], List.nodup_singleton i, fun c => ?_, ⟨i, List.mem_singleton_self i, hp⟩,
        fun fuel hle => ?_⟩
      · rw [List.mem_singleton]
        refine ⟨fun h => h ▸ .refl, fun h => ?_⟩
        rcases ReflTransGen.cases_head h with rfl | ⟨o, ho, -⟩
        · rfl
        · exact absurd ho (hnone o)
      · cases fuel with
        | zero => cases hle
        | succ fuel =>
          rw [lineageFrom, hp]
          rfl
    | slot o s =>
      have ho : t.OwnedBy i o := ⟨s, parent?_eq_some.2 hp⟩
      have hone : ∀ o', t.OwnedBy i o' → o' = o := by
        rintro o' ⟨s', ho'⟩
        rw [parent?_eq_some, hp] at ho'
        injection ho' with ho'
        exact ho'.symm
      have hup := hs.transGen_of_ownedBy hi ho
      obtain ⟨levels, hnodup, hmem, ⟨c, hc, htop⟩, hfuel⟩ :=
        ih o (Relation.transGen_swap.2 hup) (hs.ownedBy_lt ho)
      refine ⟨i :: levels, List.nodup_cons.2 ⟨fun hin => ?_, hnodup⟩, fun c => ?_,
        ⟨c, List.mem_cons_of_mem _ hc, htop⟩, fun fuel hle => ?_⟩
      · have hback := (hs.owners_above (hs.ownedBy_lt ho) ((hmem i).1 hin)).2
        exact hs.acyclic i (hup.trans_left hback)
      · rw [List.mem_cons, hmem]
        constructor
        · rintro (rfl | h)
          · exact .refl
          · exact .head ho h
        · intro h
          rcases ReflTransGen.cases_head h with rfl | ⟨o', ho', h⟩
          · exact Or.inl rfl
          · exact Or.inr (hone o' ho' ▸ h)
      · cases fuel with
        | zero => cases hle
        | succ fuel =>
          have hstep := hfuel fuel (Nat.le_of_succ_le_succ hle)
          rw [lineageFrom, hp, List.flatMap_cons, ← hstep]
          rfl

/-- The levels of a climb are in `lineage`, each with the head of its
chain. -/
theorem Sound.mem_lineage (j : NodeId) :
    j ∈ t.lineage i ↔ ∃ c, ReflTransGen t.OwnedBy i c ∧ (j = c ∨ j = t.first c) := by
  obtain ⟨levels, hnodup, hmem, -, hfuel⟩ := hs.climb hi
  have hlen := length_le_size hnodup fun c hc => (hs.owners_above hi ((hmem c).1 hc)).1
  rw [lineage, hfuel _ (Nat.le_succ_of_le hlen), List.mem_flatMap]
  simp [hmem]

/-- More fuel climbs no higher. -/
theorem Sound.lineageFrom_eq {fuel : Nat} (hf : t.size < fuel) :
    t.lineageFrom fuel i = t.lineage i := by
  obtain ⟨levels, hnodup, hmem, -, hfuel⟩ := hs.climb hi
  have hlen := length_le_size hnodup fun c hc => (hs.owners_above hi ((hmem c).1 hc)).1
  rw [lineage, hfuel _ (Nat.le_succ_of_le hlen), hfuel _ (Nat.le_trans hlen (Nat.le_of_lt hf))]

/-- Below a root lies what is owned, through any number of levels, by a
node of its chain. -/
theorem Sound.under_root_iff {o : NodeId} (hroot : t.place o = .root) (ho : o < t.size) :
    t.Under i o ↔ ∃ c, ReflTransGen t.OwnedBy i c ∧ c ∈ t.chain (some o) := by
  constructor
  · intro h
    obtain ⟨levels, -, hmem, ⟨c, hc, htop⟩, -⟩ := hs.climb hi
    have hown := (hmem c).1 hc
    obtain ⟨hlt, hup⟩ := hs.owners_above hi hown
    have hfirst : t.Under (t.first c) o :=
      Under.to_root (hup.trans (hs.under_first hlt)) h (anchor?_of_root hroot)
    have heq : t.first c = o := by
      rcases ReflTransGen.cases_head hfirst with he | ⟨p, hp, -⟩
      · exact he
      · exact absurd ((anchor?_of_root htop).symm.trans hp) (Option.some_ne_none p).symm
    exact ⟨c, hown, heq ▸ hs.mem_chain_first hlt⟩
  · rintro ⟨c, hown, hc⟩
    have hpath := hs.path_chain fun j (hj : some o = some j) => Option.some.inj hj ▸ ho
    exact (hs.owners_above hi hown).2.trans (hpath.under hs.linked c hc)

/-- The test before a linking finds out whether the head of the new chain
lies above the anchor. -/
theorem Sound.wouldCycle_iff {o : NodeId} (hroot : t.place o = .root) (ho : o < t.size) :
    t.wouldCycle i o = true ↔ t.Under i o := by
  have hpath := hs.path_chain fun j (hj : some o = some j) => Option.some.inj hj ▸ ho
  have hlow : ∀ {c}, c < t.size → t.first c ∈ t.chain (some o) → c ∈ t.chain (some o) := by
    intro c hlt hc
    rcases hpath.eq_or_next _ hc with he | ⟨p, hp⟩
    · exact he ▸ hs.mem_chain_first hlt
    · have hprev := (hs.first_path hlt).2.1
      rw [previous?, (hs.linked.next_iff p _).1 hp] at hprev
      cases hprev
  unfold Tree.wouldCycle
  simp only [List.any_eq_true, List.contains_iff_mem, hs.mem_lineage hi,
    hs.under_root_iff hi hroot ho]
  constructor
  · rintro ⟨j, ⟨c, hown, rfl | rfl⟩, hc⟩
    · exact ⟨_, hown, hc⟩
    · exact ⟨c, hown, hlow (hs.owners_above hi hown).1 hc⟩
  · rintro ⟨c, hown, hc⟩
    exact ⟨c, ⟨c, hown, Or.inl rfl⟩, hc⟩

end Climbs

end Tree

end RegisterMap.Code
