/-
Code that is put into a hole. A guard is planted around a hole, and what
it guards is built after it and takes the place of the hole
(`graft_run`). What was built in between is not in the way: an exchange
below a node may use nodes that were put in the stock after the node was.
-/
import RegisterMap.Proofs.Code.Growing

open RegisterMap.Code.Tree (Stands Stock Swaps Yields)

namespace RegisterMap.Code

variable {t t' : Tree} {cs ds : List (List Planted)}

namespace Tree

-- =============================================================== order

theorem tagsOf_perm (h : cs.Perm ds) : (tagsOf cs).Perm (tagsOf ds) :=
  h.flatten.flatMap_right Term.tags

/-- The order of the stock does not matter. -/
theorem Stock.perm (h : Stock t cs) (hp : cs.Perm ds) : Stock t ds where
  linked := h.linked
  holds := fun c hc => h.holds c (hp.mem_iff.2 hc)
  nodup := (tagsOf_perm hp).nodup_iff.1 h.nodup

theorem Yields.perm {old : List NodeId} (h : Yields t t' old cs) (hp : cs.Perm ds) :
    Yields t t' old ds where
  grows := h.grows
  stock := h.stock.perm hp
  fresh := fun j hj => h.fresh j ((tagsOf_perm hp).mem_iff.2 hj)
  frame := h.frame
  names := h.names
  kinds := h.kinds

end Tree

-- ============================================================ extending

namespace Edit

/-- One chain of the stock is linked behind another one. -/
theorem extend_run {x y : Planted} {xs ys : List Planted}
    (hs : Stock t [x :: xs, y :: ys]) :
    ∃ t', Edit.extend x.tag y.tag t = (.ok (), t')
      ∧ Yields t t' (tagsOf [x :: xs, y :: ys]) [(x :: xs) ++ y :: ys] := by
  obtain ⟨hx, hy, hdis⟩ := Tree.stock_append.1 (show Stock t ([x :: xs] ++ [y :: ys]) from hs)
  have hxs := hx.stands (List.cons_ne_nil x xs)
  have hys := hy.stands (List.cons_ne_nil y ys)
  obtain ⟨k, -, hl⟩ := endPlace_mem (List.cons_ne_nil x xs) .root
  have hlast := Tree.lastOf_run hxs.holds hxs.nodup hl
  obtain ⟨t', hrun, hswap, hkinds⟩ := Tree.insertAfter_run hxs hys
    (fun j hj hm => hdis j (by simpa using hj) (by simpa using hm)) hl
  refine ⟨t', (Edit.bind_run hlast).trans hrun, ?_⟩
  have hyield := hswap.yields fun j _ => hkinds j
  rwa [tagsOf_cons, tagsOf_cons, tagsOf_nil, List.append_nil]

end Edit

-- ============================================================= grafting

/-- Builds a guard around what is built after it. -/
def graft (condition : Sketch) (build : Edit NodeId) : Edit NodeId := do
  let hole ← Sketch.hole.plant
  let guard ← (Sketch.branch condition [.node hole] []).plant
  let access ← build
  Edit.replace hole access
  return guard

/-- A branch over one node is planted; the node is in it. -/
theorem branch_run {condition : Sketch} {x : Planted} (hs : Stock t [[x]])
    (huses : condition.uses = []) (hfits : ∀ stock, condition.Fits t.typeAt stock t.Known) :
    ∃ (stock : NodeId → List Shape) (t' : Tree) (id : NodeId) (c : List Planted),
      (Sketch.branch condition [.node x.tag] []).plant t = (.ok id, t')
      ∧ c.map Term.shape = condition.code t.typeAt stock
      ∧ Yields t t' x.tags [[.node id .branch {} [c, [x], []]]] := by
  obtain ⟨stock, t₁, i, ys, -, hrun₁, hi, hy₁, hcode⟩ := Sketch.plant_over condition
    (Tree.stock_nil hs.linked) (by rw [huses]; rfl) fun stock _ => hfits stock
  have htags : tagsOf [[x]] = x.tags := by simp
  have hy : Yields t t₁ x.tags ([ys] ++ ([[x]] ++ [])) := by
    have hbeside := hy₁.beside hs fun _ _ hj => nomatch hj
    rwa [htags] at hbeside
  have hone : [[x]].map (headOr none) = [x.tag].map some := rfl
  obtain ⟨t₂, hjoin₂, hy₂⟩ := Sketch.join_part [ys] hy hone
  have hy₂' : Yields t t₂ x.tags ([ys, [x]] ++ ([] ++ [])) := hy₂
  have hempty : ([] : List (List Planted)).map (headOr none) = ([] : List NodeId).map some := rfl
  obtain ⟨t₃, hjoin₃, hy₃⟩ := Sketch.join_part [ys, [x]] hy₂' hempty
  have hlinks : [(Slot.condition, some i), (.consequent, some x.tag), (.alternative, none)]
      = Kind.branch.slots.zip ([ys, [x], []].map (headOr none)) := by
    rw [← hi]
    rfl
  obtain ⟨t₄, hadd, hy₄⟩ := Tree.add_run .branch hy₃.stock rfl hlinks fun _ _ he => nomatch he
  refine ⟨stock, t₄, t₃.size, ys, ?_, hcode, hy₃.trans hy₄⟩
  exact (Edit.bind_run hrun₁).trans ((Edit.bind_run hjoin₂).trans ((Edit.bind_run hjoin₃).trans hadd))

/-- The guard stands around what was built for it. -/
theorem graft_run {condition : Sketch} {build : Edit NodeId} {P : List Shape → Prop}
    (hm : t.Mutual) (huses : condition.uses = [])
    (hfits : ∀ t' cs, Yields t t' [] cs → ∀ stock, condition.Fits t'.typeAt stock t'.Known)
    (hbuild : ∀ t' cs, Yields t t' [] cs →
      ∃ (t'' : Tree) (y : Planted) (ys : List Planted), build t' = (.ok y.tag, t'')
        ∧ Yields t' t'' [] [y :: ys] ∧ P ((y :: ys).map Term.shape)) :
    ∃ types stock t' x body, graft condition build t = (.ok (Term.tag x), t')
      ∧ Yields t t' [] [[x]] ∧ P body
      ∧ x.shape = .above .branch [condition.code types stock, body, []] := by
  obtain ⟨t₁, hleaf, hy₁⟩ := Tree.leaf_run hm .hole
  obtain ⟨hole, hhole⟩ : ∃ hole : Planted, hole = .node t.size .hole {} [] := ⟨_, rfl⟩
  replace hy₁ : Yields t t₁ [] [[hole]] := hhole ▸ hy₁
  replace hleaf : Sketch.hole.plant t = (.ok hole.tag, t₁) := by
    rw [hhole]
    exact hleaf
  obtain ⟨stock, t₂, id, c, hbranch, hcode, hy₂⟩ := branch_run hy₁.stock huses (hfits t₁ _ hy₁)
  obtain ⟨guard, hguard⟩ : ∃ g : Planted, g = .node id .branch {} ([c] ++ [hole] :: [[]]) :=
    ⟨_, rfl⟩
  replace hy₂ : Yields t₁ t₂ (tagsOf [[hole]]) [[guard]] := by
    rw [show tagsOf [[hole]] = hole.tags by simp]
    exact hguard ▸ hy₂
  have hy := hy₁.trans hy₂
  obtain ⟨t₃, y, ys, hrun, hy₃, hp⟩ := hbuild t₂ _ hy
  -- the hole stands in the guard, and what was built stands alone
  have hs := hy.stock.stands (List.cons_ne_nil guard [])
  rw [hguard] at hs
  have hslots : Kind.branch.slots = [Slot.condition] ++ Slot.consequent :: [.alternative] := rfl
  have hin := hs.slot hslots rfl (List.cons_ne_nil hole [])
  have hswap₃ := hy₃.swaps hin fun _ _ hj => nomatch hj
  have hin₃ := hswap₃.stands hin (List.cons_ne_nil hole []) fun j hj => Or.inl (by simpa using hj)
  have halone := hy₃.stock.stands (List.cons_ne_nil y ys)
  have hnew : ∀ j ∈ (y :: ys).flatMap Term.tags, t₂.size ≤ j := fun j hj =>
    (hy₃.fresh j (by simpa using hj)).resolve_left fun h => nomatch h
  obtain ⟨t₄, hreplace, hswap₄, -, hkinds⟩ := Tree.replace_run hin₃ Place.noConfusion halone
    fun j hj hm => Nat.not_lt_of_le (hnew j hm) (hin.holds.lt_size (by simpa using hj))
  -- the exchange happens below the guard
  have hswap := hswap₃.trans hswap₄ fun j hj => by
    rcases List.mem_append.1 hj with hj | hj
    · exact Or.inl (by simpa using hj)
    · exact Or.inr (Or.inr (hnew j hj))
  have hyield := (Swaps.inSlot hs hslots rfl hswap fun j hj => Or.inl (by simpa using hj)).yields
    fun j hj => (hkinds j).trans (hy₃.kinds j hj)
  have htags : tagsOf [[guard]] = (Term.node id .branch {} ([c] ++ [hole] :: [[]])).tags := by
    rw [hguard]
    simp
  rw [← htags] at hyield
  refine ⟨t₁.typeAt, stock, t₄, _, (y :: ys).map Term.shape, ?_, hy.trans hyield, hp, ?_⟩
  · exact (Edit.bind_run hleaf).trans ((Edit.bind_run hbranch).trans ((Edit.bind_run hrun).trans
      ((Edit.bind_run hreplace).trans rfl)))
  · rw [← hcode, Term.shape_node]
    rfl

end RegisterMap.Code
