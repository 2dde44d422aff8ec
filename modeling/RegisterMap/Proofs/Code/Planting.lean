/-
What building code does to an arena. The code under construction is a
stock of chains that hang nowhere. A builder takes some of them out of
the stock and leaves others there, most often one: the node it has
built. Everything else in the arena stays as it is, cell by cell; of the
nodes that were taken, name and kind stay.

`Yields` says this of two arenas. Builders are followed step by step with
`Yields.trans` (what one step leaves is taken by the next) and
`Yields.append` (two steps that have nothing to do with each other).
-/
import RegisterMap.Proofs.Code.Linking
import RegisterMap.Code.Build

namespace RegisterMap.Code

/-- The nodes of several chains. -/
def tagsOf (chains : List (List Planted)) : List NodeId := chains.flatten.flatMap Term.tags

@[simp] theorem tagsOf_nil : tagsOf [] = [] := rfl

@[simp] theorem tagsOf_cons (c : List Planted) (cs : List (List Planted)) :
    tagsOf (c :: cs) = c.flatMap Term.tags ++ tagsOf cs := by
  unfold tagsOf
  rw [List.flatten_cons, List.flatMap_append]

@[simp] theorem tagsOf_append (cs ds : List (List Planted)) :
    tagsOf (cs ++ ds) = tagsOf cs ++ tagsOf ds := by
  unfold tagsOf
  rw [List.flatten_append, List.flatMap_append]

theorem tagsOf_node (id : NodeId) (kind : Kind) (notes : Notes) (cs : List (List Planted)) :
    tagsOf [[.node id kind notes cs]] = id :: tagsOf cs := by
  unfold tagsOf
  simp

theorem mem_tagsOf {cs : List (List Planted)} {j : NodeId} :
    j ∈ tagsOf cs ↔ ∃ c ∈ cs, j ∈ c.flatMap Term.tags := by
  unfold tagsOf
  constructor
  · intro h
    obtain ⟨x, hx, hj⟩ := List.mem_flatMap.1 h
    obtain ⟨c, hc, hxc⟩ := List.mem_flatten.1 hx
    exact ⟨c, hc, List.mem_flatMap.2 ⟨x, hxc, hj⟩⟩
  · rintro ⟨c, hc, hj⟩
    obtain ⟨x, hx, hj⟩ := List.mem_flatMap.1 hj
    exact List.mem_flatMap.2 ⟨x, List.mem_flatten.2 ⟨c, hc, hx⟩, hj⟩

namespace Tree

variable {t t' t'' : Tree} {old old' : List NodeId} {cs ds : List (List Planted)}
  {c xs ys : List Planted} {x y : Planted} {rest : List Planted}

-- =============================================================== stocks

/-- Chains that hang nowhere and share no node. -/
structure Stock (t : Tree) (chains : List (List Planted)) : Prop where
  linked : t.Mutual
  holds : ∀ c ∈ chains, t.HoldsChain .root none c
  nodup : (tagsOf chains).Nodup

theorem Stock.lt_size (h : Stock t cs) {j : NodeId} (hj : j ∈ tagsOf cs) : j < t.size := by
  obtain ⟨c, hc, hj⟩ := mem_tagsOf.1 hj
  exact (h.holds c hc).lt_size hj

theorem stock_append :
    Stock t (cs ++ ds) ↔ Stock t cs ∧ Stock t ds ∧ ∀ j ∈ tagsOf cs, j ∉ tagsOf ds := by
  constructor
  · rintro ⟨hm, hh, hn⟩
    rw [tagsOf_append, List.nodup_append] at hn
    exact ⟨⟨hm, fun c hc => hh c (List.mem_append_left _ hc), hn.1⟩,
      ⟨hm, fun c hc => hh c (List.mem_append_right _ hc), hn.2.1⟩,
      fun j hj hj' => hn.2.2 j hj j hj' rfl⟩
  · rintro ⟨hc, hd, hdis⟩
    refine ⟨hc.linked, fun c hm => ?_, ?_⟩
    · rcases List.mem_append.1 hm with hm | hm
      · exact hc.holds c hm
      · exact hd.holds c hm
    · rw [tagsOf_append, List.nodup_append]
      exact ⟨hc.nodup, hd.nodup, fun j hj k hk he => hdis j hj (he ▸ hk)⟩

theorem stock_nil (h : t.Mutual) : Stock t [] where
  linked := h
  holds := fun _ hc => nomatch hc
  nodup := List.nodup_nil

theorem Stock.stands (h : Stock t [c]) (hne : c ≠ []) : t.Stands .root none c where
  linked := h.linked
  holds := h.holds c (List.mem_singleton_self c)
  nodup := by simpa using h.nodup
  ne_nil := hne
  next_outside := fun _ hm => nomatch hm
  owner_outside := fun _ _ ho => nomatch ho
  previous_outside := fun _ hp => nomatch hp

theorem Stands.stock (h : t.Stands .root none c) : Stock t [c] where
  linked := h.linked
  holds := fun d hd => List.mem_singleton.1 hd ▸ h.holds
  nodup := by simpa using h.nodup

/-- Chains of the stock that were there before are there still. -/
theorem Stock.congr (h : Stock t cs) (hm : t'.Mutual)
    (hagree : ∀ j ∈ tagsOf cs, t'.node? j = t.node? j) : Stock t' cs where
  linked := hm
  holds := fun c hc => (h.holds c hc).congr fun j hj => hagree j (mem_tagsOf.2 ⟨c, hc, hj⟩)
  nodup := h.nodup

-- =============================================================== yields

/-- The nodes `old` of the stock are taken and `chains` are put there. -/
structure Yields (t t' : Tree) (old : List NodeId) (chains : List (List Planted)) : Prop where
  grows : t.size ≤ t'.size
  stock : Stock t' chains
  fresh : ∀ j ∈ tagsOf chains, j ∈ old ∨ t.size ≤ j
  frame : ∀ j, j < t.size → j ∉ old → t'.node? j = t.node? j
  names : ∀ j, j < t.size → t'.name j = t.name j
  kinds : ∀ j, j < t.size → t'.kind? j = t.kind? j

theorem Stock.yields_refl (h : Stock t cs) : Yields t t (tagsOf cs) cs where
  grows := Nat.le_refl _
  stock := h
  fresh := fun _ hj => Or.inl hj
  frame := fun _ _ _ => rfl
  names := fun _ _ => rfl
  kinds := fun _ _ => rfl

/-- An exchange at the top of the stock. -/
theorem Swaps.yields (h : Swaps t t' .root none old ys)
    (hkinds : ∀ j, j < t.size → t'.kind? j = t.kind? j) : Yields t t' old [ys] where
  grows := h.grows
  stock := ⟨h.linked, fun c hc => List.mem_singleton.1 hc ▸ h.holds, by simpa using h.nodup⟩
  fresh := fun j hj => h.fresh j (by simpa using hj)
  frame := fun j hj hnot => by
    obtain ⟨n, hn⟩ := exists_node?_of_lt hj
    rw [h.frame j hj hnot, hn, Option.map_some,
      relink_of_apart (fun _ => Place.noConfusion) Place.noConfusion (Option.some_ne_none j).symm]
  names := h.names
  kinds := hkinds

/-- What a step does beside a standing chain, seen at its place. -/
theorem Yields.swaps {place : Place} {next : Option NodeId} (h : Yields t t' old cs)
    (hs : t.Stands place next xs) (hdis : ∀ j ∈ xs.flatMap Term.tags, j ∉ old) :
    Swaps t t' place next (xs.flatMap Term.tags ++ old) xs where
  grows := h.grows
  linked := h.stock.linked
  holds := hs.holds.congr fun j hj => h.frame j (hs.holds.lt_size hj) (hdis j hj)
  nodup := hs.nodup
  fresh := fun j hj => Or.inl (List.mem_append_left _ hj)
  frame := fun j hj hnot => by
    rw [List.mem_append, not_or] at hnot
    obtain ⟨n, hn⟩ := exists_node?_of_lt hj
    rw [h.frame j hj hnot.2, hn, Option.map_some, hs.relink_self hn]
  names := h.names

/-- One step takes what the step before has left. -/
theorem Yields.trans (h₁ : Yields t t' old cs) (h₂ : Yields t' t'' (tagsOf cs) ds) :
    Yields t t'' old ds where
  grows := Nat.le_trans h₁.grows h₂.grows
  stock := h₂.stock
  fresh := fun j hj => by
    rcases h₂.fresh j hj with hm | hm
    · exact h₁.fresh j hm
    · exact Or.inr (Nat.le_trans h₁.grows hm)
  frame := fun j hj hnot => by
    have hnot' : j ∉ tagsOf cs := fun hm => by
      rcases h₁.fresh j hm with h' | h'
      · exact hnot h'
      · exact Nat.not_lt_of_le h' hj
    rw [h₂.frame j (Nat.lt_of_lt_of_le hj h₁.grows) hnot', h₁.frame j hj hnot]
  names := fun j hj => by
    rw [h₂.names j (Nat.lt_of_lt_of_le hj h₁.grows), h₁.names j hj]
  kinds := fun j hj => by
    rw [h₂.kinds j (Nat.lt_of_lt_of_le hj h₁.grows), h₁.kinds j hj]

/-- A part of the stock that a step does not take. -/
theorem Yields.keep (h : Yields t t' old cs) (hd : Stock t ds)
    (hout : ∀ j ∈ tagsOf ds, j ∉ old) : Stock t' ds :=
  hd.congr h.stock.linked fun j hj => h.frame j (hd.lt_size hj) (hout j hj)

/-- Two steps on different parts of the stock. -/
theorem Yields.append (h₁ : Yields t t' old cs) (h₂ : Yields t' t'' old' ds)
    (hdis : ∀ j ∈ old', j < t.size ∧ j ∉ old) :
    Yields t t'' (old ++ old') (cs ++ ds) := by
  have hout : ∀ j ∈ tagsOf cs, j ∉ old' := fun j hj hm => by
    rcases h₁.fresh j hj with h' | h'
    · exact (hdis j hm).2 h'
    · exact Nat.not_lt_of_le h' (hdis j hm).1
  constructor
  · exact Nat.le_trans h₁.grows h₂.grows
  · refine stock_append.2 ⟨h₂.keep h₁.stock hout, h₂.stock, fun j hj hm => ?_⟩
    rcases h₂.fresh j hm with h' | h'
    · exact hout j hj h'
    · exact Nat.not_lt_of_le h' (h₁.stock.lt_size hj)
  · intro j hj
    rw [tagsOf_append, List.mem_append] at hj
    rcases hj with hj | hj
    · exact (h₁.fresh j hj).imp_left (List.mem_append_left _)
    · rcases h₂.fresh j hj with h' | h'
      · exact Or.inl (List.mem_append_right _ h')
      · exact Or.inr (Nat.le_trans h₁.grows h')
  · intro j hj hnot
    rw [List.mem_append, not_or] at hnot
    rw [h₂.frame j (Nat.lt_of_lt_of_le hj h₁.grows) hnot.2, h₁.frame j hj hnot.1]
  · intro j hj
    rw [h₂.names j (Nat.lt_of_lt_of_le hj h₁.grows), h₁.names j hj]
  · intro j hj
    rw [h₂.kinds j (Nat.lt_of_lt_of_le hj h₁.grows), h₁.kinds j hj]

/-- A step that leaves the rest of the stock alone, seen with the rest. -/
theorem Yields.beside (h : Yields t t' old cs) (hd : Stock t ds)
    (hout : ∀ j ∈ tagsOf ds, j ∉ old) : Yields t t' (old ++ tagsOf ds) (cs ++ ds) :=
  h.append (h.keep hd hout).yields_refl fun j hj => ⟨hd.lt_size hj, hout j hj⟩

-- ================================================================ nodes

theorem size_push (t : Tree) (n : Node) : (t.push n).2.size = t.size + 1 :=
  Array.size_push ..

theorem name_push {t : Tree} {n : Node} {j : NodeId} (hj : j < t.size) :
    (t.push n).2.name j = t.name j := by
  unfold Tree.name
  rw [node?_push, if_neg (Nat.ne_of_lt hj)]

theorem kind?_push {t : Tree} {n : Node} {j : NodeId} (hj : j < t.size) :
    (t.push n).2.kind? j = t.kind? j := by
  unfold Tree.kind?
  rw [node?_push, if_neg (Nat.ne_of_lt hj)]

/-- The heads a new node is given are those of its chains. -/
theorem ofList_zip (slots : List Slot) (chains : List (List Planted)) :
    Heads.ofList (slots.zip (chains.map (headOr none))) = headsOf slots chains := by
  funext s
  induction slots generalizing chains with
  | nil => rfl
  | cons s' slots ih =>
    cases chains with
    | nil => rfl
    | cons c cs =>
      unfold Heads.ofList headsOf
      rw [List.map_cons, List.zip_cons_cons, List.find?_cons]
      by_cases hs : s' = s
      · simp [hs]
      · rw [Heads.set_of_ne (Ne.symm hs), ← ih cs]
        simp [hs, Heads.ofList]

theorem restrict_headsOf (slots : List Slot) (chains : List (List Planted)) :
    (headsOf slots chains).restrict slots = headsOf slots chains := by
  funext s
  unfold Heads.restrict
  split
  · rfl
  · next h => exact (headsOf_of_not_mem h).symm

/-- The first node of every chain is given its place below `id`. -/
def settleAll (t : Tree) (id : NodeId) (zs : List (Slot × List Planted)) : Tree :=
  zs.foldl
    (fun t z =>
      match headOr none z.2 with
      | some child => t.setPlace child (.slot id z.1)
      | none => t)
    t

theorem settleAll_cons (t : Tree) (id : NodeId) (s : Slot) (c : List Planted)
    (zs : List (Slot × List Planted)) :
    t.settleAll id ((s, c) :: zs)
      = Tree.settleAll
        (match headOr none c with
          | some child => t.setPlace child (.slot id s)
          | none => t) id zs := rfl

theorem head_settleAll (zs : List (Slot × List Planted)) (t : Tree) (id : NodeId) :
    (t.settleAll id zs).size = t.size ∧ (∀ j, (t.settleAll id zs).name j = t.name j)
      ∧ (∀ j, (t.settleAll id zs).kind? j = t.kind? j)
      ∧ (∀ j, (t.settleAll id zs).next? j = t.next? j)
      ∧ ∀ j s, (t.settleAll id zs).head j s = t.head j s := by
  induction zs generalizing t with
  | nil => exact ⟨rfl, fun _ => rfl, fun _ => rfl, fun _ => rfl, fun _ _ => rfl⟩
  | cons z zs ih =>
    obtain ⟨s, c⟩ := z
    rw [settleAll_cons]
    cases c with
    | nil => exact ih t
    | cons x rest =>
      obtain ⟨h1, h2, h3, h4, h5⟩ := ih (t.setPlace x.tag (.slot id s))
      simp only [size_setPlace, name_setPlace, kind?_setPlace, next?_setPlace,
        head_setPlace] at h1 h2 h3 h4 h5
      exact ⟨h1, h2, h3, h4, h5⟩

/-- Only the first nodes of the chains are touched. -/
theorem node?_settleAll {zs : List (Slot × List Planted)} {id j : NodeId} {t : Tree}
    (h : ∀ z ∈ zs, headOr none z.2 ≠ some j) : (t.settleAll id zs).node? j = t.node? j := by
  induction zs generalizing t with
  | nil => rfl
  | cons z zs ih =>
    obtain ⟨s, c⟩ := z
    have hz := h (s, c) (List.mem_cons_self ..)
    rw [settleAll_cons, ih fun z hz => h z (List.mem_cons_of_mem _ hz)]
    cases c with
    | nil => rfl
    | cons x rest =>
      show (t.setPlace x.tag (.slot id s)).node? j = _
      rw [node?_setPlace, if_neg fun he => hz (congrArg some he)]

theorem holds_settleAll {zs : List (Slot × List Planted)} {id : NodeId} {t : Tree}
    (hh : ∀ z ∈ zs, t.HoldsChain .root none z.2) (hn : (tagsOf (zs.map Prod.snd)).Nodup) :
    ∀ z ∈ zs, (t.settleAll id zs).HoldsChain (.slot id z.1) none z.2 := by
  induction zs generalizing t with
  | nil => exact fun _ hz => nomatch hz
  | cons z zs ih =>
    obtain ⟨s, c⟩ := z
    rw [List.map_cons, tagsOf_cons, List.nodup_append] at hn
    obtain ⟨hc, hzs, hdis⟩ := hn
    have hhead : ∀ z ∈ zs, ∀ i, headOr none z.2 = some i → i ∈ tagsOf (zs.map Prod.snd) :=
      fun z hz i hi => mem_tagsOf.2 ⟨z.2, List.mem_map_of_mem hz, headOr_mem hi⟩
    rw [settleAll_cons]
    cases c with
    | nil =>
      intro z hz
      rcases List.mem_cons.1 hz with rfl | hz
      · exact holdsChain_nil ..
      · exact ih (fun z hz => hh z (List.mem_cons_of_mem _ hz)) hzs z hz
    | cons x rest =>
      have hx := hh (s, x :: rest) (List.mem_cons_self ..)
      show ∀ z ∈ (s, x :: rest) :: zs,
        ((t.setPlace x.tag (.slot id s)).settleAll id zs).HoldsChain _ none z.2
      intro z hz
      rcases List.mem_cons.1 hz with rfl | hz
      · have hmoved : (t.setPlace x.tag (.slot id s)).HoldsChain (.slot id s) none (x :: rest) := by
          refine hx.movePlace hc ?_ fun j _ hne => ?_
          · rw [node?_setPlace, if_pos rfl]
          · rw [node?_setPlace, if_neg (Ne.symm hne)]
        refine hmoved.congr fun j hj => node?_settleAll fun z hz he => ?_
        exact hdis j hj j (hhead z hz j he) rfl
      · refine ih (fun z hz => ?_) hzs z hz
        refine (hh z (List.mem_cons_of_mem _ hz)).congr fun j hj => ?_
        rw [node?_setPlace, if_neg fun he => ?_]
        have hj' : j ∈ tagsOf (zs.map Prod.snd) := mem_tagsOf.2 ⟨z.2, List.mem_map_of_mem hz, hj⟩
        exact hdis x.tag (mem_tags_head x rest) j hj' he

-- =============================================================== adding

/-- The first nodes of the chains of a stock are different. -/
theorem claimable_eq_ok (slots : List Slot) (chains : List (List Planted)) (heads : Heads)
    (claimed : List NodeId) (hs : Stock t chains)
    (hheads : ∀ z ∈ slots.zip chains, heads z.1 = headOr none z.2)
    (hlen : chains.length = slots.length) (hclaimed : ∀ j ∈ claimed, j ∉ tagsOf chains) :
    t.claimable heads slots claimed = .ok () := by
  induction slots generalizing chains claimed with
  | nil => rfl
  | cons s slots ih =>
    cases chains with
    | nil => cases hlen
    | cons c cs =>
      have hsplit := stock_append.1 (show Stock t ([c] ++ cs) from hs)
      have hrest := fun z hz => hheads z (by rw [List.zip_cons_cons]; exact List.mem_cons_of_mem _ hz)
      have hhead := hheads (s, c) (by rw [List.zip_cons_cons]; exact List.mem_cons_self ..)
      have hout : ∀ j ∈ claimed, j ∉ c.flatMap Term.tags ∧ j ∉ tagsOf cs := fun j hj => by
        have := hclaimed j hj
        rwa [tagsOf_cons, List.mem_append, not_or] at this
      unfold Tree.claimable
      cases c with
      | nil =>
        rw [hhead]
        exact ih cs claimed hsplit.2.1 hrest (Nat.succ.inj hlen) fun j hj => (hout j hj).2
      | cons x rest =>
        have hx := mem_tags_head x rest
        have hstands := hsplit.1.stands (List.cons_ne_nil x rest)
        have hnot : claimed.contains x.tag = false := by
          refine Bool.eq_false_iff.2 fun he => ?_
          exact (hout x.tag (List.contains_iff_mem.1 he)).1 hx
        rw [hhead]
        show (do
          t.requireUnlinked x.tag
          if claimed.contains x.tag then .error (.link (.alreadyLinked (t.describe x.tag)))
          else t.claimable heads slots (x.tag :: claimed)) = Except.ok ()
        rw [requireUnlinked_eq_ok (hstands.lt_size hx) hstands.place_eq, hnot]
        refine ih cs (x.tag :: claimed) hsplit.2.1 hrest (Nat.succ.inj hlen) fun j hj => ?_
        rcases List.mem_cons.1 hj with rfl | hj
        · exact hsplit.2.2 x.tag (by simpa using Or.inl x.tag_mem_tags)
        · exact (hout j hj).2

theorem adopt_eq (t : Tree) (kind : Kind) (hlen : cs.length = kind.slots.length) :
    t.adopt kind (headsOf kind.slots cs)
      = (t.size, Tree.settleAll (t.push { kind, heads := headsOf kind.slots cs }).2 t.size
        (kind.slots.zip cs)) := by
  have hfst : (kind.slots.zip cs).map Prod.fst = kind.slots :=
    List.map_fst_zip (Nat.le_of_eq hlen.symm)
  have hfold : ∀ (f : Tree → Slot → Tree) (u : Tree),
      kind.slots.foldl f u = (kind.slots.zip cs).foldl (fun u z => f u z.1) u := by
    intro f u
    calc kind.slots.foldl f u = ((kind.slots.zip cs).map Prod.fst).foldl f u := by rw [hfst]
      _ = _ := List.foldl_map
  unfold Tree.adopt Tree.settleAll
  rw [restrict_headsOf]
  show (t.size, kind.slots.foldl _ _) = (t.size, _)
  rw [hfold]
  congr 1
  refine List.foldl_ext _ _ _ fun u z hz => ?_
  exact headsOf_of_mem kind.nodup_slots hz ▸ rfl

section Adopt

variable (hs : Stock t cs) (kind : Kind) (hlen : cs.length = kind.slots.length)

section

include hlen

/-- Everything but the first nodes of the chains is as it was. -/
theorem node?_adopt {j : NodeId} (h : ∀ z ∈ kind.slots.zip cs, headOr none z.2 ≠ some j) :
    (t.adopt kind (headsOf kind.slots cs)).2.node? j
      = if j = t.size then some { kind, heads := headsOf kind.slots cs } else t.node? j := by
  rw [adopt_eq t kind hlen, node?_settleAll h, node?_push]

theorem size_adopt : (t.adopt kind (headsOf kind.slots cs)).2.size = t.size + 1 := by
  rw [adopt_eq t kind hlen, (head_settleAll ..).1, size_push]

theorem next?_adopt (j : NodeId) :
    (t.adopt kind (headsOf kind.slots cs)).2.next? j = t.next? j := by
  rw [adopt_eq t kind hlen, (head_settleAll ..).2.2.2.1]
  unfold Tree.next?
  rw [node?_push]
  split
  · next he =>
    rw [he, (node?_eq_none_iff t t.size).2 (Nat.le_refl _)]
    rfl
  · rfl

theorem head_adopt (o : NodeId) (s : Slot) :
    (t.adopt kind (headsOf kind.slots cs)).2.head o s
      = if o = t.size then headsOf kind.slots cs s else t.head o s := by
  rw [adopt_eq t kind hlen, (head_settleAll ..).2.2.2.2]
  unfold Tree.head
  rw [node?_push]
  split <;> rfl

theorem place_adopt {j : NodeId} (h : ∀ z ∈ kind.slots.zip cs, headOr none z.2 ≠ some j) :
    (t.adopt kind (headsOf kind.slots cs)).2.place j = t.place j := by
  unfold Tree.place
  rw [node?_adopt kind hlen h]
  split
  · next he =>
    rw [he, (node?_eq_none_iff t t.size).2 (Nat.le_refl _)]
    rfl
  · rfl

/-- The head of a slot heads the chain that goes there. -/
theorem exists_mem_zip {s : Slot} {i : NodeId} (h : headsOf kind.slots cs s = some i) :
    ∃ z ∈ kind.slots.zip cs, z.1 = s ∧ headOr none z.2 = some i := by
  have hmem : s ∈ kind.slots := by
    refine Classical.byContradiction fun hnot => ?_
    rw [headsOf_of_not_mem hnot] at h
    cases h
  have hfst : (kind.slots.zip cs).map Prod.fst = kind.slots :=
    List.map_fst_zip (Nat.le_of_eq hlen.symm)
  rw [← hfst] at hmem
  obtain ⟨z, hz, rfl⟩ := List.mem_map.1 hmem
  exact ⟨z, hz, rfl, (headsOf_of_mem kind.nodup_slots hz).symm.trans h⟩

end

include hs hlen

theorem holds_adopt : ∀ z ∈ kind.slots.zip cs,
    (t.adopt kind (headsOf kind.slots cs)).2.HoldsChain (.slot t.size z.1) none z.2 := by
  have hsnd : (kind.slots.zip cs).map Prod.snd = cs := List.map_snd_zip (Nat.le_of_eq hlen)
  rw [adopt_eq t kind hlen]
  refine holds_settleAll (fun z hz => ?_) (by rw [hsnd]; exact hs.nodup)
  have hmem : z.2 ∈ cs := (List.of_mem_zip hz).2
  refine (hs.holds z.2 hmem).congr fun j hj => ?_
  rw [node?_push, if_neg (Nat.ne_of_lt (hs.lt_size (mem_tagsOf.2 ⟨z.2, hmem, hj⟩)))]

theorem headOr_adopt {z : Slot × List Planted} (hz : z ∈ kind.slots.zip cs) {i : NodeId}
    (hi : headOr none z.2 = some i) :
    i < t.size ∧ t.place i = .root
      ∧ (t.adopt kind (headsOf kind.slots cs)).2.place i = .slot t.size z.1 := by
  have hmem : z.2 ∈ cs := (List.of_mem_zip hz).2
  have hroot := hs.holds z.2 hmem
  have hnow := holds_adopt hs kind hlen z hz
  refine ⟨hs.lt_size (mem_tagsOf.2 ⟨z.2, hmem, headOr_mem hi⟩), ?_⟩
  obtain ⟨s, c⟩ := z
  cases c with
  | nil => cases hi
  | cons x rest =>
    injection hi with hi
    exact hi ▸ ⟨(holdsChain_cons.1 hroot).1.place_eq, (holdsChain_cons.1 hnow).1.place_eq⟩

theorem mutual_adopt : (t.adopt kind (headsOf kind.slots cs)).2.Mutual := by
  constructor
  · intro p x
    rw [next?_adopt kind hlen, hs.linked.next_iff]
    by_cases hx : ∃ z ∈ kind.slots.zip cs, headOr none z.2 = some x
    · obtain ⟨z, hz, hi⟩ := hx
      obtain ⟨-, hroot, hnow⟩ := headOr_adopt hs kind hlen hz hi
      rw [hroot, hnow]
      constructor
      · intro h
        cases h
      · intro h
        cases h
    · rw [place_adopt kind hlen fun z hz he => hx ⟨z, hz, he⟩]
  · intro o s x
    rw [head_adopt kind hlen]
    by_cases hx : ∃ z ∈ kind.slots.zip cs, headOr none z.2 = some x
    · obtain ⟨z, hz, hi⟩ := hx
      obtain ⟨-, hroot, hnow⟩ := headOr_adopt hs kind hlen hz hi
      rw [hnow]
      constructor
      · intro hsx
        split at hsx
        · next ho =>
          obtain ⟨z', hz', rfl, hi'⟩ := exists_mem_zip kind hlen hsx
          obtain ⟨-, -, hnow'⟩ := headOr_adopt hs kind hlen hz' hi'
          rw [← hnow, hnow', ho]
        · have := (hs.linked.head_iff o s x).1 hsx
          rw [hroot] at this
          cases this
      · intro he
        injection he with ho hzs
        rw [if_pos ho.symm, ← hzs, headsOf_of_mem kind.nodup_slots hz, hi]
    · rw [place_adopt kind hlen fun z hz he => hx ⟨z, hz, he⟩]
      split
      · next ho =>
        constructor
        · intro hsx
          obtain ⟨z, hz, -, hi⟩ := exists_mem_zip kind hlen hsx
          exact absurd ⟨z, hz, hi⟩ hx
        · intro hp
          have := lt_size_of_head ((hs.linked.head_iff o s x).2 hp)
          exact absurd this (Nat.not_lt_of_le (Nat.le_of_eq ho.symm))
      · exact hs.linked.head_iff o s x

/-- A node is added over chains of the stock. -/
theorem adopt_yields :
    Yields t (t.adopt kind (headsOf kind.slots cs)).2 (tagsOf cs)
      [[.node t.size kind {} cs]] := by
  have hout : ∀ j, j ∉ tagsOf cs → ∀ z ∈ kind.slots.zip cs, headOr none z.2 ≠ some j :=
    fun j hj z hz he => hj (mem_tagsOf.2 ⟨z.2, (List.of_mem_zip hz).2, headOr_mem he⟩)
  have hnew : t.size ∉ tagsOf cs := fun hm => Nat.lt_irrefl _ (hs.lt_size hm)
  have hsize := size_adopt (t := t) kind hlen
  constructor
  · rw [hsize]
    exact Nat.le_succ _
  · constructor
    · exact mutual_adopt hs kind hlen
    · intro c hc
      rw [List.mem_singleton.1 hc]
      refine holdsChain_singleton.2 ⟨hlen, ?_, holds_adopt hs kind hlen⟩
      rw [Term.tag_node, node?_adopt kind hlen (hout _ hnew), if_pos rfl]
      rfl
    · rw [tagsOf_node, List.nodup_cons]
      exact ⟨hnew, hs.nodup⟩
  · intro j hj
    rw [tagsOf_node, List.mem_cons] at hj
    rcases hj with rfl | hm
    · exact Or.inr (Nat.le_refl _)
    · exact Or.inl hm
  · intro j hj hnot
    rw [node?_adopt kind hlen (hout j hnot), if_neg (Nat.ne_of_lt hj)]
  · intro j hj
    rw [adopt_eq t kind hlen, (head_settleAll ..).2.1, name_push hj]
  · intro j hj
    rw [adopt_eq t kind hlen, (head_settleAll ..).2.2.1, kind?_push hj]

end Adopt

/-- A node whose kind may be read off the arena. -/
theorem make_run (kind : Tree → Except Failure Kind) {k : Kind}
    {links : List (Slot × Option NodeId)} (hk : kind t = .ok k) (hs : Stock t cs)
    (hlen : cs.length = k.slots.length) (hlinks : links = k.slots.zip (cs.map (headOr none)))
    (hdecl : ∀ d type, k = .varRef d type → d < t.size) :
    ∃ t', Edit.make kind links t = (.ok t.size, t')
      ∧ Yields t t' (tagsOf cs) [[.node t.size k {} cs]] := by
  have hadd : t.addable k (headsOf k.slots cs) = .ok () := by
    have hclaim := claimable_eq_ok k.slots cs (headsOf k.slots cs) [] hs
      (fun z hz => headsOf_of_mem k.nodup_slots hz) hlen fun _ hj => absurd hj List.not_mem_nil
    unfold Tree.addable
    rw [hclaim]
    cases k with
    | varRef d type => exact require_eq_ok (hdecl d type rfl)
    | _ => rfl
  have hcheck : (do
      let kind ← kind t
      t.addable kind (Heads.ofList links)
      pure kind) = Except.ok k := by
    rw [hk, hlinks, ofList_zip]
    show (do t.addable k (headsOf k.slots cs); pure k) = Except.ok k
    rw [hadd]
    rfl
  refine ⟨(t.adopt k (headsOf k.slots cs)).2, ?_, adopt_yields hs k hlen⟩
  unfold Edit.make
  rw [Edit.guarded_of_ok hcheck, hlinks, ofList_zip, adopt_eq t k hlen]

theorem add_run (k : Kind) {links : List (Slot × Option NodeId)} (hs : Stock t cs)
    (hlen : cs.length = k.slots.length) (hlinks : links = k.slots.zip (cs.map (headOr none)))
    (hdecl : ∀ d type, k ≠ .varRef d type) :
    ∃ t', Edit.add k links t = (.ok t.size, t')
      ∧ Yields t t' (tagsOf cs) [[.node t.size k {} cs]] :=
  make_run _ rfl hs hlen hlinks fun d type he => absurd he (hdecl d type)

theorem headsOf_nils (slots : List Slot) :
    headsOf slots (slots.map fun _ => []) = Heads.empty := by
  funext s
  induction slots with
  | nil => rfl
  | cons s' slots ih =>
    show (headsOf slots (slots.map fun _ => [])).set s' none s = none
    by_cases hs : s = s'
    · rw [hs, Heads.set_same]
    · rw [Heads.set_of_ne hs, ih]
      rfl

theorem settleAll_nils (slots : List Slot) (t : Tree) (id : NodeId) :
    t.settleAll id (slots.zip (slots.map fun _ => [])) = t := by
  induction slots with
  | nil => rfl
  | cons s slots ih => exact ih

/-- A node whose slots are empty. -/
theorem leaf_run (hm : t.Mutual) (k : Kind) :
    ∃ t', Edit.leaf k t = (.ok t.size, t')
      ∧ Yields t t' [] [[.node t.size k {} (k.slots.map fun _ => [])]] := by
  have hnils : ∀ c ∈ k.slots.map fun _ => ([] : List Planted), c = [] := by
    intro c hc
    obtain ⟨_, -, rfl⟩ := List.mem_map.1 hc
    rfl
  have htags : tagsOf (k.slots.map fun _ => []) = [] := by
    refine List.eq_nil_iff_forall_not_mem.2 fun j hj => ?_
    obtain ⟨c, hc, hj⟩ := mem_tagsOf.1 hj
    rw [hnils c hc] at hj
    cases hj
  have hs : Stock t (k.slots.map fun _ => []) := by
    refine ⟨hm, fun c hc => ?_, by rw [htags]; exact List.nodup_nil⟩
    rw [hnils c hc]
    exact holdsChain_nil ..
  have hlen : (k.slots.map fun _ => ([] : List Planted)).length = k.slots.length :=
    List.length_map ..
  have hadopt := adopt_yields hs k hlen
  rw [adopt_eq t k hlen, settleAll_nils, headsOf_nils, htags] at hadopt
  exact ⟨(t.push { kind := k }).2, Edit.guarded_of_ok rfl, hadopt⟩

end Tree

end RegisterMap.Code
