/-
What the changes behind the operations on links write, and that each of
them keeps an arena sound. All of them either drop links or hang the chain
of one root somewhere else; then the node it hangs from is not below that
root, so no climb from there is touched, and every other climb ends up
there or goes on as before (`Sound.grounded_graft`).
-/
import RegisterMap.Proofs.Code.Climbing
import RegisterMap.Proofs.Code.Linking

namespace RegisterMap.Code

open Relation (ReflTransGen TransGen)

namespace Tree

variable {t t' : Tree}

-- ============================================================= reading

theorem anchor?_congr {i j : NodeId} (h : t'.place i = t.place j) :
    t'.anchor? i = t.anchor? j := by
  rw [anchor?, h]
  rfl

theorem place_setPlace_of_lt {i : NodeId} (hi : i < t.size) (j : NodeId) (p : Place) :
    (t.setPlace i p).place j = if i = j then p else t.place j := by
  grind [place_setPlace]

theorem next?_setNext_of_lt {i : NodeId} (hi : i < t.size) (j : NodeId)
    (next : Option NodeId) :
    (t.setNext i next).next? j = if i = j then next else t.next? j := by
  grind [next?_setNext]

-- ======================================================== acyclicity

/-- A climb that meets nothing but kept, dropped and grounded anchors is
grounded. -/
theorem Sound.acc_of_agree (hs : t.Sound) {i : NodeId}
    (h : ∀ j, t.Under i j → t'.anchor? j = none ∨ t'.anchor? j = t.anchor? j
      ∨ Acc (Function.swap t'.HangsFrom) j) :
    Acc (Function.swap t'.HangsFrom) i := by
  induction i using hs.grounded.induction with
  | _ i ih =>
    rcases h i .refl with hnone | hsame | hacc
    · exact ⟨_, fun p (hp : t'.anchor? i = some p) => by rw [hnone] at hp; cases hp⟩
    · refine ⟨_, fun p (hp : t'.anchor? i = some p) => ?_⟩
      have hup : t.HangsFrom i p := hsame.symm.trans hp
      exact ih p hup fun j hj => h j (.head hup hj)
    · exact hacc

/-- Links are only dropped. -/
theorem Sound.drop (hs : t.Sound) (hm : t'.Mutual) (hk : ∀ j, t'.kind? j = t.kind? j)
    (hh : ∀ o s x, t'.head o s = some x → t.head o s = some x)
    (ha : ∀ j, t'.anchor? j = none ∨ t'.anchor? j = t.anchor? j) : t'.Sound where
  linked := hm
  slotted := fun {o s x} hx => (hk o).symm ▸ hs.slotted (hh o s x hx)
  acyclic := acyclic_of_grounded
    ⟨fun _ => hs.acc_of_agree fun j _ => (ha j).imp_right Or.inl⟩

/-- The chain of the root `o` is hung from a node that is not below it; a
node that hung from outside of it may follow a node `l` of it. -/
theorem Sound.grounded_graft (hs : t.Sound) {p o l : NodeId} {n : Option NodeId}
    (hroot : t.place o = .root) (hp : ¬ t.Under p o) (hl : t.Under l o)
    (htail : ∀ x, n = some x → ¬ t.Under x o ∧ ¬ t.Under p x)
    (ho' : t'.anchor? o = some p) (htail' : ∀ x, n = some x → t'.anchor? x = some l)
    (hrest : ∀ j, j ≠ o → n ≠ some j →
      t'.anchor? j = none ∨ t'.anchor? j = t.anchor? j) :
    WellFounded (Function.swap t'.HangsFrom) := by
  have hstep : ∀ {i q}, t'.anchor? i = some q → Acc (Function.swap t'.HangsFrom) q →
      Acc (Function.swap t'.HangsFrom) i := fun hq hacc =>
    ⟨_, fun r (hr : t'.anchor? _ = some r) => Option.some.inj (hq.symm.trans hr) ▸ hacc⟩
  have hanchor : Acc (Function.swap t'.HangsFrom) p := by
    refine hs.acc_of_agree fun j hj => (hrest j ?_ ?_).imp_right Or.inl
    · rintro rfl
      exact hp hj
    · intro hx
      exact (htail j hx).2 hj
  have hhead := hstep ho' hanchor
  have hlast : Acc (Function.swap t'.HangsFrom) l := by
    refine hs.acc_of_agree fun j hj => ?_
    by_cases hjo : j = o
    · exact Or.inr (Or.inr (hjo ▸ hhead))
    · refine (hrest j hjo fun hx => ?_).imp_right Or.inl
      exact (htail j hx).1 (hj.to_root hl (anchor?_of_root hroot))
  refine ⟨fun i => hs.acc_of_agree fun j _ => ?_⟩
  by_cases hjo : j = o
  · exact Or.inr (Or.inr (hjo ▸ hhead))
  · by_cases hx : n = some j
    · exact Or.inr (Or.inr (hstep (htail' j hx) hlast))
    · exact (hrest j hjo hx).imp_right Or.inl

-- ============================================================ dropping

theorem place_unlink {i : NodeId} (hi : i < t.size) (j : NodeId) :
    (t.unlink i).place j = if i = j then .root else t.place j := by
  unfold Tree.unlink
  rw [place_setPlace_of_lt (by rwa [size_hold]), place_hold]

theorem next?_unlink (hm : t.Mutual) (i j : NodeId) :
    (t.unlink i).next? j = if t.place i = .after j then none else t.next? j := by
  have h := @lt_size_of_next? t j i
  have hiff := hm.next_iff j i
  unfold Tree.unlink
  rw [next?_setPlace, next?_hold]
  grind

theorem head_unlink (hm : t.Mutual) (i j : NodeId) (s : Slot) :
    (t.unlink i).head j s = if t.place i = .slot j s then none else t.head j s := by
  have h := @lt_size_of_head t j i s
  have hiff := hm.head_iff j s i
  unfold Tree.unlink
  rw [head_setPlace, head_hold]
  grind

theorem kind?_unlink (t : Tree) (i j : NodeId) : (t.unlink i).kind? j = t.kind? j := by
  simp [Tree.unlink]

/-- A chain is taken out of its place. -/
theorem Sound.unlink (hs : t.Sound) {i : NodeId} (hi : i < t.size) : (t.unlink i).Sound := by
  refine hs.drop (mutual_unlink hs.linked hi rfl) (kind?_unlink t i) (fun o s x hx => ?_)
    fun j => ?_
  · rw [head_unlink hs.linked] at hx
    split at hx
    · cases hx
    · exact hx
  · by_cases hij : i = j
    · exact Or.inl (anchor?_of_root (by rw [place_unlink hi, if_pos hij]))
    · exact Or.inr (anchor?_congr (by rw [place_unlink hi, if_neg hij]))

/-- What a node carries beside its kind and links may change. -/
theorem Sound.setNotes (hs : t.Sound) (i : NodeId) (f : Notes → Notes) :
    (t.setNotes i f).Sound := by
  have hnode : ∀ j, (t.setNotes i f).node? j
      = (t.node? j).map fun n => if i = j then { n with notes := f n.notes } else n := by
    intro j
    unfold Tree.setNotes
    rw [node?_update]
    by_cases hij : i = j
    · simp [hij]
    · simp [hij]
  have hplace : ∀ j, (t.setNotes i f).place j = t.place j := fun j => by
    unfold Tree.place
    rw [hnode, Option.map_map]
    congr 2
    funext n
    by_cases hij : i = j <;> simp [hij]
  have hhead : ∀ o s, (t.setNotes i f).head o s = t.head o s := fun o s => by
    unfold Tree.head
    rw [hnode, Option.bind_map]
    congr 1
    funext n
    by_cases hij : i = o <;> simp [hij]
  have hnext : ∀ j, (t.setNotes i f).next? j = t.next? j := fun j => by
    unfold Tree.next?
    rw [hnode, Option.bind_map]
    congr 1
    funext n
    by_cases hij : i = j <;> simp [hij]
  refine hs.drop ⟨fun p x => ?_, fun o s x => ?_⟩ (fun j => kind?_setNotes ..)
    (fun o s x hx => hhead o s ▸ hx) fun j => Or.inr (anchor?_congr (hplace j))
  · rw [hnext, hplace]
    exact hs.linked.next_iff p x
  · rw [hhead, hplace]
    exact hs.linked.head_iff o s x

-- ============================================================ grafting

/-- The last node of a chain whose nodes keep their successors. -/
theorem Sound.last_congr (hs : t.Sound) {o : NodeId} (ho : o < t.size)
    (hsize : t'.size = t.size) (hn : ∀ j, t.Under j o → t'.next? j = t.next? j) :
    t'.last o = t.last o := by
  have hbound : ∀ j, some o = some j → j < t.size := fun j hj => Option.some.inj hj ▸ ho
  have hpath := hs.path_chain hbound
  have hlen := length_le_size (hpath.nodup hs) (hpath.lt_size hs.linked hbound)
  have hpath' : t'.Path (some o) (t.chain (some o)) none :=
    hpath.congr fun j hj => hn j (hpath.under hs.linked j hj)
  have hchain : t'.chain (some o) = t.chain (some o) := hpath'.chainFrom (hsize ▸ hlen)
  unfold Tree.last
  rw [hchain]

theorem Sound.last_under (hs : t.Sound) {o : NodeId} (ho : o < t.size) :
    t.Under (t.last o) o := by
  obtain ⟨l, hl, -⟩ := hs.chain_last ho
  have hpath := hs.path_chain fun j (hj : some o = some j) => Option.some.inj hj ▸ ho
  exact hpath.under hs.linked _ (by rw [hl]; simp)

theorem Sound.last_lt (hs : t.Sound) {o : NodeId} (ho : o < t.size) : t.last o < t.size := by
  obtain ⟨l, hl, -⟩ := hs.chain_last ho
  have hbound : ∀ j, some o = some j → j < t.size := fun j hj => Option.some.inj hj ▸ ho
  exact (hs.path_chain hbound).lt_size hs.linked hbound _ (by rw [hl]; simp)

theorem Sound.next?_last (hs : t.Sound) {o : NodeId} (ho : o < t.size) :
    t.next? (t.last o) = none :=
  (hs.chain_last ho).choose_spec.2

theorem Sound.ne_next (hs : t.Sound) {i x : NodeId} (hx : t.next? i = some x) : i ≠ x := by
  rintro rfl
  exact hs.acyclic i (.single (hs.linked.hangsFrom_next hx))

/-- The successor of a node that is not below a root is not below it. -/
theorem Sound.next_free (hs : t.Sound) {i o x : NodeId} (hroot : t.place o = .root)
    (hfree : ¬ t.Under i o) (hx : t.next? i = some x) : ¬ t.Under x o := by
  intro h
  have hhang := hs.linked.hangsFrom_next hx
  rcases ReflTransGen.cases_head h with rfl | ⟨c, hc, h⟩
  · rw [(hs.linked.next_iff i x).1 hx] at hroot
    cases hroot
  · exact hfree (Option.some.inj (hc.symm.trans hhang) ▸ h)

theorem Mutual.head_splice (hm : t.Mutual) (i o j : NodeId) (s : Slot) :
    (t.splice i o).head j s = if t.place i = .slot j s then some o else t.head j s := by
  have h := @lt_size_of_head t j i s
  have hiff := hm.head_iff j s i
  have hset : (t.settle i o).head j s
      = if t.place i = .slot j s then some o else t.head j s := by
    unfold settle
    rw [head_setNext, head_setPlace, head_setPlace, head_hold]
    grind
  rw [splice_eq]
  cases t.next? i with
  | none => exact hset
  | some x => rw [followWith, head_setPlace, head_setNext, hset]

section Splice

variable {i o : NodeId} (hs : t.Sound) (hi : t.place i ≠ .root)

include hs hi

theorem Sound.next?_settle (j : NodeId) :
    (t.settle i o).next? j = if i = j then none
      else if t.place i = .after j then some o else t.next? j := by
  have h := @lt_size_of_next? t j i
  have hiff := hs.linked.next_iff j i
  have hilt := lt_size_of_place hi
  unfold settle
  rw [next?_setNext_of_lt (by simpa using hilt), next?_setPlace, next?_setPlace, next?_hold]
  grind

variable (ho : o < t.size) (hfree : ¬ t.Under i o)

include ho hfree

theorem Sound.last_settle : (t.settle i o).last o = t.last o := by
  refine hs.last_congr ho (by simp [settle]) fun j hj => ?_
  have hij : i ≠ j := fun he => hfree (he ▸ hj)
  have hpj : t.place i ≠ .after j := fun he => hfree (.head (anchor?_of_after he) hj)
  rw [hs.next?_settle hi, if_neg hij, if_neg hpj]

theorem Sound.next?_splice (j : NodeId) :
    (t.splice i o).next? j = if i = j then none else if t.place i = .after j then some o
      else if t.last o = j then t.next? i else t.next? j := by
  have hset := hs.next?_settle (o := o) hi
  have hlast := hs.last_settle hi ho hfree
  have hend := hs.next?_last ho
  have hunder := hs.last_under ho
  have hlt := hs.last_lt ho
  rw [splice_eq]
  cases hn : t.next? i with
  | none =>
    rw [followWith, hset]
    grind
  | some x =>
    have hil : i ≠ t.last o := fun he => hfree (he ▸ hunder)
    have hpl : t.place i ≠ .after (t.last o) := fun he =>
      hfree (.head (anchor?_of_after he) hunder)
    rw [followWith, hlast, next?_setPlace, next?_setNext_of_lt (by simpa [settle] using hlt), hset]
    grind

variable (hroot : t.place o = .root)

include hroot

theorem Sound.place_splice (j : NodeId) :
    (t.splice i o).place j = if i = j then .root else if o = j then t.place i
      else if t.next? i = some j then .after (t.last o) else t.place j := by
  have hilt := lt_size_of_place hi
  have hio : i ≠ o := fun he => hfree (he ▸ .refl)
  have hset : (t.settle i o).place j
      = if i = j then .root else if o = j then t.place i else t.place j := by
    unfold settle
    rw [place_setNext, place_setPlace_of_lt (by simpa using hilt),
      place_setPlace_of_lt (by simpa using ho), place_hold]
  rw [splice_eq]
  cases hn : t.next? i with
  | none =>
    rw [followWith, hset]
    grind
  | some x =>
    have hx := hs.next_free hroot hfree hn
    have hxo : o ≠ x := fun he => hx (he ▸ .refl)
    have hxi := hs.ne_next hn
    have hxlt := hs.linked.lt_of_next hn
    rw [followWith, hs.last_settle hi ho hfree,
      place_setPlace_of_lt (by simpa [settle] using hxlt), place_setNext, hset]
    grind

/-- The chain of an unlinked node takes the place of another node. -/
theorem Sound.splice : (t.splice i o).Sound := by
  have hplace := hs.place_splice hi ho hfree hroot
  have hnext := hs.next?_splice hi ho hfree
  have hhead := hs.linked.head_splice i o
  have hend := hs.next?_last ho
  have hunder := hs.last_under ho
  have hio : i ≠ o := fun he => hfree (he ▸ .refl)
  have hil : i ≠ t.last o := fun he => hfree (he ▸ hunder)
  have hpl : t.place i ≠ .after (t.last o) := fun he =>
    hfree (.head (anchor?_of_after he) hunder)
  have hm : (t.splice i o).Mutual := by
    constructor
    · intro p j
      rw [hnext, hplace]
      have h1 := hs.linked.next_iff p j
      have h2 := hs.linked.next_iff i j
      have h3 := hs.linked.next_iff p i
      have h4 := hs.linked.next_iff p o
      have h5 := @Sound.ne_next t hs i
      grind
    · intro q s j
      rw [hhead, hplace]
      have h1 := hs.linked.head_iff q s j
      have h2 := hs.linked.head_iff q s i
      have h3 := hs.linked.head_iff q s o
      have h4 := hs.linked.next_iff i j
      grind
  obtain ⟨p, hp⟩ : ∃ p, t.HangsFrom i p := by
    cases hq : t.place i with
    | root => exact absurd hq hi
    | slot q s => exact ⟨q, anchor?_of_slot hq⟩
    | after q => exact ⟨q, anchor?_of_after hq⟩
  refine ⟨hm, fun {q s x} hx => ?_, acyclic_of_grounded (hs.grounded_graft (p := p) (o := o)
    (l := t.last o) (n := t.next? i) hroot (fun h => hfree (.head hp h)) hunder
    (fun x hx => ⟨hs.next_free hroot hfree hx, fun h => ?_⟩) ?_ (fun x hx => ?_)
    fun j hjo hj => ?_)⟩
  · rw [kind?_splice]
    rw [hhead] at hx
    split at hx
    · next hq => exact hs.slotted ((hs.linked.head_iff q s i).2 hq)
    · exact hs.slotted hx
  · exact hs.not_under (hs.linked.hangsFrom_next hx) (.head hp h)
  · rw [anchor?_congr (t := t) (j := i) (by rw [hplace, if_neg hio, if_pos rfl])]
    exact hp
  · have hxi := hs.ne_next hx
    have hxo : o ≠ x := fun he => hs.next_free hroot hfree hx (he ▸ .refl)
    exact anchor?_of_after (by rw [hplace, if_neg hxi, if_neg hxo, if_pos hx])
  · by_cases hij : i = j
    · exact Or.inl (anchor?_of_root (by rw [hplace, if_pos hij]))
    · exact Or.inr (anchor?_congr (by
        rw [hplace, if_neg hij, if_neg (Ne.symm hjo), if_neg hj]))

end Splice

section LinkAfter

variable {i o : NodeId} (hs : t.Sound) (ho : o < t.size)

theorem head_linkAfter (i o j : NodeId) (s : Slot) :
    (t.linkAfter i o).head j s = t.head j s := by
  unfold Tree.linkAfter
  cases t.next? i <;> simp [followWith]

theorem kind?_linkAfter (i o j : NodeId) : (t.linkAfter i o).kind? j = t.kind? j := by
  unfold Tree.linkAfter
  cases t.next? i <;> simp [followWith]

include hs ho

theorem Sound.next?_linkAfter (hi : i < t.size) (j : NodeId) :
    (t.linkAfter i o).next? j
      = if i = j then some o else if t.last o = j then t.next? i else t.next? j := by
  have hend := hs.next?_last ho
  have hlt := hs.last_lt ho
  unfold Tree.linkAfter
  rw [next?_setPlace, next?_setNext_of_lt (by simpa [size_followWith] using hi)]
  cases hn : t.next? i with
  | none =>
    rw [followWith]
    grind
  | some x =>
    rw [followWith, next?_setPlace, next?_setNext_of_lt hlt]

theorem Sound.place_linkAfter (j : NodeId) :
    (t.linkAfter i o).place j = if o = j then .after i
      else if t.next? i = some j then .after (t.last o) else t.place j := by
  unfold Tree.linkAfter
  rw [place_setPlace_of_lt (by simpa [size_followWith] using ho), place_setNext]
  cases hn : t.next? i with
  | none =>
    rw [followWith]
    grind
  | some x =>
    have hxlt := hs.linked.lt_of_next hn
    rw [followWith, place_setPlace_of_lt (by simpa using hxlt), place_setNext]
    grind

/-- The chain of an unlinked node is linked after another node. -/
theorem Sound.linkAfter (hi : i < t.size) (hroot : t.place o = .root)
    (hfree : ¬ t.Under i o) : (t.linkAfter i o).Sound := by
  have hplace := hs.place_linkAfter (i := i) ho
  have hnext := hs.next?_linkAfter ho hi
  have hend := hs.next?_last ho
  have hunder := hs.last_under ho
  have hil : i ≠ t.last o := fun he => hfree (he ▸ hunder)
  have hm : (t.linkAfter i o).Mutual := by
    constructor
    · intro p j
      rw [hnext, hplace]
      have h1 := hs.linked.next_iff p j
      have h2 := hs.linked.next_iff i j
      have h3 := hs.linked.next_iff p o
      grind
    · intro q s j
      rw [head_linkAfter, hplace]
      have h1 := hs.linked.head_iff q s j
      have h2 := hs.linked.head_iff q s o
      have h3 := hs.linked.next_iff i j
      grind
  refine ⟨hm, fun {q s x} hx => ?_, acyclic_of_grounded (hs.grounded_graft (p := i) (o := o)
    (l := t.last o) (n := t.next? i) hroot hfree hunder
    (fun x hx => ⟨hs.next_free hroot hfree hx, hs.not_under (hs.linked.hangsFrom_next hx)⟩)
    ?_ (fun x hx => ?_) fun j hjo hj => ?_)⟩
  · rw [kind?_linkAfter]
    rw [head_linkAfter] at hx
    exact hs.slotted hx
  · exact anchor?_of_after (by rw [hplace, if_pos rfl])
  · have hxo : o ≠ x := fun he => hs.next_free hroot hfree hx (he ▸ .refl)
    exact anchor?_of_after (by rw [hplace, if_neg hxo, if_pos hx])
  · exact Or.inr (anchor?_congr (by rw [hplace, if_neg (Ne.symm hjo), if_neg hj]))

end LinkAfter

section Hang

variable {i o : NodeId} {s : Slot} (hs : t.Sound) (hi : i < t.size) (ho : o < t.size)

include hi in
theorem place_hang (j : NodeId) :
    (t.hang o s i).place j = if i = j then .slot o s else t.place j := by
  unfold Tree.hang
  rw [place_setPlace_of_lt (by rwa [size_setHead]), place_setHead]

theorem next?_hang (j : NodeId) : (t.hang o s i).next? j = t.next? j := by
  simp [Tree.hang]

theorem kind?_hang (j : NodeId) : (t.hang o s i).kind? j = t.kind? j := by
  simp [Tree.hang]

include ho in
theorem head_hang (j : NodeId) (s' : Slot) :
    (t.hang o s i).head j s' = if o = j ∧ s = s' then some i else t.head j s' := by
  unfold Tree.hang
  rw [head_setPlace, head_setHead]
  grind

include hs hi ho

/-- The chain of an unlinked node is hung into an empty slot. -/
theorem Sound.hang (hroot : t.place i = .root) (hfree : ¬ t.Under o i)
    (hslot : ∃ k, t.kind? o = some k ∧ s ∈ k.slots) (hempty : t.head o s = none) :
    (t.hang o s i).Sound := by
  have hm : (t.hang o s i).Mutual := by
    constructor
    · intro p j
      rw [next?_hang, place_hang hi]
      have h1 := hs.linked.next_iff p j
      have h2 := hs.linked.next_iff p i
      grind
    · intro q s' j
      rw [head_hang ho, place_hang hi]
      have h1 := hs.linked.head_iff q s' j
      have h2 := hs.linked.head_iff q s' i
      have h3 := hs.linked.head_iff o s j
      grind
  refine ⟨hm, fun {q s' x} hx => ?_, acyclic_of_grounded (hs.grounded_graft (p := o) (o := i)
    (l := i) (n := none) hroot hfree .refl (fun x hx => nomatch hx)
    (anchor?_of_slot (by rw [place_hang hi, if_pos rfl])) (fun x hx => nomatch hx)
    fun j hji _ => Or.inr (anchor?_congr (by rw [place_hang hi, if_neg (Ne.symm hji)])))⟩
  rw [kind?_hang]
  rw [head_hang ho] at hx
  split at hx
  · next he => exact he.1 ▸ he.2 ▸ hslot
  · exact hs.slotted hx

end Hang

-- ============================================================= cutting

/-- To end a chain is to detach what follows. -/
theorem endAt_eq (hs : t.Sound) {i x : NodeId} (hx : t.next? i = some x) :
    t.endAt i x = t.unlink x := by
  unfold Tree.unlink
  rw [(hs.linked.next_iff i x).1 hx]
  rfl

/-- The tree with `i` alone out of its chain: its successor, if there is
one, is where the node was. -/
def removeAlone (t : Tree) (i : NodeId) : Tree :=
  match t.next? i with
  | none => t.unlink i
  | some x => if t.place i = .root then t.unlink x else (t.unlink x).splice i x

theorem removeAlone_eq {i x : NodeId} (hx : t.next? i = some x) :
    t.removeAlone i
      = if t.place i = .root then t.unlink x else (t.unlink x).splice i x := by
  unfold removeAlone
  rw [hx]

/-- What hangs below a node after links were dropped did so before. -/
theorem Under.mono (ha : ∀ j, t'.anchor? j = none ∨ t'.anchor? j = t.anchor? j)
    {i a : NodeId} (h : t'.Under i a) : t.Under i a := by
  refine ReflTransGen.mono (fun j p (hj : t'.anchor? j = some p) => ?_) _ _ h
  rcases ha j with hnone | hsame
  · rw [hnone] at hj
    cases hj
  · exact hsame.symm.trans hj

/-- A detached successor is a root, and its predecessor is not below it. -/
theorem Sound.unlink_next (hs : t.Sound) {i x : NodeId} (hx : t.next? i = some x) :
    (t.unlink x).place x = .root ∧ (t.unlink x).place i = t.place i
      ∧ ¬ (t.unlink x).Under i x := by
  have hlt := hs.linked.lt_of_next hx
  refine ⟨by rw [place_unlink hlt, if_pos rfl],
    by rw [place_unlink hlt, if_neg (hs.ne_next hx).symm], fun h => ?_⟩
  refine hs.not_under (hs.linked.hangsFrom_next hx) (h.mono fun j => ?_)
  by_cases hxj : x = j
  · exact Or.inl (anchor?_of_root (by rw [place_unlink hlt, if_pos hxj]))
  · exact Or.inr (anchor?_congr (by rw [place_unlink hlt, if_neg hxj]))

/-- A node is taken out of its chain. -/
theorem Sound.removeAlone (hs : t.Sound) {i : NodeId} (hi : i < t.size) :
    (t.removeAlone i).Sound := by
  cases hx : t.next? i with
  | none =>
    unfold Tree.removeAlone
    rw [hx]
    exact hs.unlink hi
  | some x =>
    have hlt := hs.linked.lt_of_next hx
    obtain ⟨hroot, hplace, hfree⟩ := hs.unlink_next hx
    rw [removeAlone_eq hx]
    split
    · exact hs.unlink hlt
    · next hi =>
      exact (hs.unlink hlt).splice (hplace ▸ hi) (by simpa [Tree.unlink] using hlt) hfree hroot

end Tree

end RegisterMap.Code
