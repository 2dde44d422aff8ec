/-
The other steps of building: a node of the stock is given its name and
its comments (`named_run`, `annotate_run`), and chains of the stock are
joined to one (`join_run`).
-/
import RegisterMap.Proofs.Code.Planting

namespace RegisterMap.Code

namespace Tree

variable {t t' : Tree} {old : List NodeId} {cs : List (List Planted)}
  {xs : List Planted} {x y : Planted} {rest : List Planted}

-- ============================================================== remarks

theorem node?_setNotes (t : Tree) (i j : NodeId) (f : Notes → Notes) :
    (t.setNotes i f).node? j
      = if i = j then (t.node? j).map fun n => { n with notes := f n.notes } else t.node? j :=
  node?_update ..

@[simp] theorem size_setNotes (t : Tree) (i : NodeId) (f : Notes → Notes) :
    (t.setNotes i f).size = t.size := size_update ..

/-- A change that leaves the links of the node alone. -/
def KeepsLinks (f : Node → Node) : Prop :=
  ∀ n, (f n).heads = n.heads ∧ (f n).place = n.place ∧ (f n).next = n.next

theorem reads_update (i : NodeId) {f : Node → Node} (hf : KeepsLinks f) (j : NodeId) :
    (t.update i f).place j = t.place j ∧ (t.update i f).next? j = t.next? j
      ∧ ∀ s, (t.update i f).head j s = t.head j s := by
  unfold Tree.place Tree.next? Tree.head
  rw [node?_update]
  split
  · cases t.node? j with
    | none => exact ⟨rfl, rfl, fun _ => rfl⟩
    | some n =>
      obtain ⟨hheads, hplace, hnext⟩ := hf n
      exact ⟨hplace, hnext, fun s => congrFun hheads s⟩
  · exact ⟨rfl, rfl, fun _ => rfl⟩

theorem mutual_update (hm : t.Mutual) (i : NodeId) {f : Node → Node} (hf : KeepsLinks f) :
    (t.update i f).Mutual := by
  have hreads := reads_update (t := t) i hf
  constructor
  · intro p x
    rw [(hreads p).2.1, (hreads x).1]
    exact hm.next_iff p x
  · intro o s x
    rw [(hreads o).2.2, (hreads x).1]
    exact hm.head_iff o s x

theorem mutual_setNotes (hm : t.Mutual) (i : NodeId) (f : Notes → Notes) :
    (t.setNotes i f).Mutual := mutual_update hm i fun _ => ⟨rfl, rfl, rfl⟩

theorem HoldsChain.remark {place : Place} {next : Option NodeId}
    (h : t.HoldsChain place next (x :: rest)) (hn : ((x :: rest).flatMap Term.tags).Nodup)
    (f : Notes → Notes) :
    (t.setNotes x.tag f).HoldsChain place next (x.remark f :: rest) := by
  rw [List.flatMap_cons, List.nodup_append] at hn
  rw [holdsChain_cons] at h
  rw [holdsChain_cons, Term.tag_remark]
  obtain ⟨hlen, htop, hslots⟩ := holdsChain_singleton.1 h.1
  constructor
  · cases x with
    | node id kind notes slots =>
      refine holdsChain_singleton.2 ⟨hlen, ?_, fun sc hsc => (hslots sc hsc).congr fun j hj => ?_⟩
      · rw [Term.tag_remark, node?_setNotes, if_pos rfl, htop]
        rfl
      · have hunder := mem_tags_of_slot hsc hj
        have hne : id ≠ j := fun he => tag_not_mem_of_nodup hn.1 (he ▸ hunder)
        exact (node?_setNotes ..).trans (if_neg hne)
  · refine h.2.congr fun j hj => ?_
    exact (node?_setNotes ..).trans (if_neg (hn.2.2 x.tag x.tag_mem_tags j hj))

theorem name_setNotes {i j : NodeId} {f : Notes → Notes}
    (h : i ≠ j ∨ ∀ notes, (f notes).name = notes.name) :
    (t.setNotes i f).name j = t.name j := by
  unfold Tree.name
  rw [node?_setNotes]
  split
  · next he =>
    rw [Option.bind_map]
    congr 2
    funext n
    exact (h.resolve_left fun hne => hne he) n.notes
  · rfl

theorem tagsOf_remark (f : Notes → Notes) (x : Planted) (rest : List Planted) :
    tagsOf [x.remark f :: rest] = tagsOf [x :: rest] := by
  simp

/-- Remarks on a node of the stock, one that is new or that keeps its
name. -/
theorem Yields.remark (h : Yields t t' old [x :: rest]) {f : Notes → Notes}
    (hname : t.size ≤ x.tag ∨ ∀ notes, (f notes).name = notes.name) :
    Yields t (t'.setNotes x.tag f) old [x.remark f :: rest] := by
  have hx : x.tag ∈ tagsOf [x :: rest] := by simp [x.tag_mem_tags]
  have hn := h.stock.nodup
  have hholds := h.stock.holds _ (List.mem_singleton_self _)
  constructor
  · rw [size_setNotes]
    exact h.grows
  · refine ⟨mutual_setNotes h.stock.linked .., fun c hc => ?_, ?_⟩
    · rw [List.mem_singleton.1 hc]
      exact hholds.remark (by simpa using hn) f
    · rw [tagsOf_remark]
      exact hn
  · intro j hj
    rw [tagsOf_remark] at hj
    exact h.fresh j hj
  · intro j hj hnot
    have hne : x.tag ≠ j := fun he => by
      rcases h.fresh x.tag hx with hm | hm
      · exact hnot (he ▸ hm)
      · exact Nat.not_lt_of_le hm (he ▸ hj)
    rw [node?_setNotes, if_neg hne, h.frame j hj hnot]
  · intro j hj
    rw [← h.names j hj]
    refine name_setNotes (hname.imp_left fun hle he => ?_)
    exact Nat.not_lt_of_le hle (he ▸ hj)
  · intro j hj
    rw [kind?_setNotes, h.kinds j hj]

theorem annotate_run (hs : Stock t [x :: rest]) (f : Notes → Notes) :
    Edit.annotate x.tag f t = (.ok (), t.setNotes x.tag f) := by
  have hholds := hs.holds _ (List.mem_singleton_self _)
  exact Edit.change_run ((holdsChain_cons.1 hholds).1.node_eq)

/-- The name of a node. -/
def titled (name : String) (notes : Notes) : Notes := { notes with name := some name }

/-- A new node is given its name. -/
theorem named_run (name : String) {build : Edit NodeId}
    (hb : build t = (.ok x.tag, t')) (h : Yields t t' old [[x]]) (hx : t.size ≤ x.tag) :
    ∃ t'', Edit.named name build t = (.ok x.tag, t'')
      ∧ Yields t t'' old [[x.remark (titled name)]] := by
  refine ⟨t'.setNotes x.tag (titled name), ?_, h.remark (Or.inl hx)⟩
  have hset : Edit.setName x.tag name t' = (.ok (), t'.setNotes x.tag (titled name)) :=
    annotate_run h.stock (titled name)
  show (build >>= fun i => Edit.setName i name >>= fun _ => pure i) t = _
  rw [Edit.bind_run hb, Edit.bind_run hset]
  rfl

-- ============================================================== joining

theorem lastOf_run {place : Place} (h : t.HoldsChain place none (y :: rest))
    (hn : ((y :: rest).flatMap Term.tags).Nodup) {l : NodeId}
    (hl : endPlace .root (y :: rest) = .after l) : Edit.lastOf y.tag t = (.ok l, t) := by
  have hlast := last_of_holds h hn .root
  rw [hl] at hlast
  injection hlast with hlast
  refine Edit.read_run ?_
  show (do let _ ← t.node y.tag; pure (t.last y.tag)) = Except.ok l
  rw [(holdsChain_cons.1 h).1.node_eq, ← hlast]
  rfl

/-- Chains of the stock are linked behind one of them. -/
theorem joinAfter_run (hs : Stock t (xs :: cs)) (hne : ∀ c ∈ xs :: cs, c ≠ []) {l : NodeId}
    (hl : endPlace .root xs = .after l) {ids : List NodeId}
    (hids : cs.map (headOr none) = ids.map some) :
    ∃ t', Edit.joinAfter l ids t = (.ok (), t')
      ∧ Yields t t' (tagsOf (xs :: cs)) [xs ++ cs.flatten] := by
  induction cs generalizing t xs l ids with
  | nil =>
    cases ids with
    | cons i ids => cases hids
    | nil =>
      refine ⟨t, rfl, ?_⟩
      rw [List.flatten_nil, List.append_nil]
      exact hs.yields_refl
  | cons c cs ih =>
    cases ids with
    | nil => cases hids
    | cons i ids =>
      rw [List.map_cons, List.map_cons] at hids
      injection hids with hi hids
      obtain ⟨y, rest, rfl⟩ := List.exists_cons_of_ne_nil
        (hne c (List.mem_cons_of_mem _ (List.mem_cons_self ..)))
      injection hi with hi
      subst hi
      have hsplit := stock_append.1 (show Stock t ([xs] ++ ([y :: rest] ++ cs)) from hs)
      obtain ⟨hys, hcs, hyc⟩ := stock_append.1 hsplit.2.1
      have hxs := hsplit.1.stands (hne xs (List.mem_cons_self ..))
      have hdis : ∀ j ∈ xs.flatMap Term.tags, j ∉ (y :: rest).flatMap Term.tags := by
        intro j hj hm
        refine hsplit.2.2 j (by simpa using hj) ?_
        rw [tagsOf_append, List.mem_append]
        exact Or.inl (by simpa using hm)
      have hout : ∀ j ∈ tagsOf cs, j ∉ xs.flatMap Term.tags ++ (y :: rest).flatMap Term.tags := by
        intro j hj hm
        rcases List.mem_append.1 hm with hm | hm
        · refine hsplit.2.2 j (by simpa using hm) ?_
          rw [tagsOf_append, List.mem_append]
          exact Or.inr hj
        · exact hyc j (by simpa using hm) hj
      obtain ⟨t₁, hrun, hswap, hkinds⟩ :=
        insertAfter_run hxs (hys.stands (List.cons_ne_nil y rest)) hdis hl
      have hyield := (hswap.yields fun j _ => hkinds j).beside hcs hout
      obtain ⟨l₁, hl₁⟩ : ∃ l₁, endPlace .root (xs ++ y :: rest) = .after l₁ := by
        obtain ⟨k, -, hk⟩ := endPlace_mem (List.append_ne_nil_of_right_ne_nil xs
          (List.cons_ne_nil y rest)) .root
        exact ⟨k.tag, hk⟩
      have hl₂ : endPlace .root (y :: rest) = .after l₁ := by
        rw [endPlace_append] at hl₁
        rw [← hl₁]
        exact endPlace_of_ne_nil (List.cons_ne_nil y rest) _ _
      have hjoined := hswap.holds
      rw [holdsChain_append] at hjoined
      have hlast := lastOf_run hjoined.2 (hys.stands (List.cons_ne_nil y rest)).nodup hl₂
      have hne' : ∀ c ∈ (xs ++ y :: rest) :: cs, c ≠ [] := by
        intro c hc
        rcases List.mem_cons.1 hc with rfl | hc
        · exact List.append_ne_nil_of_right_ne_nil xs (List.cons_ne_nil y rest)
        · exact hne c (List.mem_cons_of_mem _ (List.mem_cons_of_mem _ hc))
      obtain ⟨t₂, hrun₂, hyield₂⟩ := ih hyield.stock hne' hl₁ hids
      refine ⟨t₂, ?_, ?_⟩
      · show (Edit.insertAfter l y.tag false >>= fun _ =>
          Edit.lastOf y.tag >>= fun l => Edit.joinAfter l ids) t = _
        rw [Edit.bind_run hrun, Edit.bind_run hlast, hrun₂]
      · have htrans := hyield.trans hyield₂
        rw [List.append_assoc] at htrans
        rw [tagsOf_cons, tagsOf_cons, List.flatten_cons]
        simpa only [List.append_assoc] using htrans

/-- Chains of the stock become one, which is handed out by its first
node. -/
theorem join_run (hs : Stock t cs) (hne : ∀ c ∈ cs, c ≠ []) {ids : List NodeId}
    (hids : cs.map (headOr none) = ids.map some) :
    ∃ t', Edit.join ids t = (.ok (headOr none cs.flatten), t')
      ∧ Yields t t' (tagsOf cs) [cs.flatten] := by
  cases cs with
  | nil =>
    cases ids with
    | cons i ids => cases hids
    | nil =>
      refine ⟨t, rfl, ?_⟩
      have hnil : Stock t [[]] := ⟨hs.linked, fun c hc => ?_, by simp⟩
      · exact hnil.yields_refl
      · rw [List.mem_singleton.1 hc]
        exact holdsChain_nil ..
  | cons c cs =>
    cases ids with
    | nil => cases hids
    | cons i ids =>
      rw [List.map_cons, List.map_cons] at hids
      injection hids with hi hids
      obtain ⟨x, rest, rfl⟩ := List.exists_cons_of_ne_nil (hne c (List.mem_cons_self ..))
      injection hi with hi
      subst hi
      obtain ⟨k, -, hl⟩ := endPlace_mem (List.cons_ne_nil x rest) .root
      have hsplit := stock_append.1 (show Stock t ([x :: rest] ++ cs) from hs)
      have hlast := lastOf_run (hs.holds _ (List.mem_cons_self ..))
        (hsplit.1.stands (List.cons_ne_nil x rest)).nodup hl
      obtain ⟨t', hrun, hyield⟩ := joinAfter_run hs hne hl hids
      refine ⟨t', ?_, hyield⟩
      show (Edit.lastOf x.tag >>= fun l => Edit.joinAfter l ids >>= fun _ =>
        pure (some x.tag)) t = _
      rw [Edit.bind_run hlast, Edit.bind_run hrun]
      rfl

end Tree

end RegisterMap.Code
