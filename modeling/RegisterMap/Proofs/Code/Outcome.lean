/-
What becomes of an arena when the code at one of its nodes is rewritten.
The node may be any, linked or not, and the arena any that operations have
built. There is one way to fail: the node is linked nowhere and, once its
operands have been rewritten, is an operation without effect, so that the
operand would have to take a place that does not exist (`heir?`).

In every other case the links stay sound, and outside of the code at the
node nothing changes, unless the node gives way to its heir: then what held
the node holds the heir, and what followed the node follows the last node
that came with the heir (`Node.handOver`).

Soundness is kept edit by edit (`keeps_visitFrom`); what happens outside is
composed from the exchanges of the three passes.
-/
import RegisterMap.Proofs.Code.Ending
import RegisterMap.Proofs.Code.Reaching
import RegisterMap.Proofs.Code.Subtrees

open RegisterMap.Code.Tree (Stands Swaps)

namespace RegisterMap.Code

-- ======================================================= kept soundness

namespace Tree

variable {t : Tree}

/-- A node may change in all but its links and slots. -/
theorem Sound.update (hs : t.Sound) (i : NodeId) {f : Node → Node} (hf : KeepsLinks f)
    (hk : ∀ n, t.node? i = some n → (f n).kind.slots = n.kind.slots) : (t.update i f).Sound := by
  have hreads := reads_update (t := t) i hf
  have hanchor : (t.update i f).HangsFrom = t.HangsFrom := by
    funext j p
    exact congrArg (· = some p) (anchor?_congr (hreads j).1)
  refine ⟨mutual_update hs.linked i hf, fun {o s x} hx => ?_, hanchor ▸ hs.acyclic⟩
  rw [(hreads o).2.2] at hx
  obtain ⟨n, hn⟩ := exists_node?_of_lt (lt_size_of_head hx)
  have hmem := hs.slot_mem hn hx
  unfold Tree.kind?
  rw [node?_update, hn]
  split
  · next he => exact ⟨(f n).kind, rfl, (hk n (he ▸ hn)).symm ▸ hmem⟩
  · exact ⟨n.kind, rfl, hmem⟩

end Tree

namespace Edit

theorem keeps_forM {f : NodeId → Edit Unit} (h : ∀ i, Keeps (f i)) (l : List NodeId) :
    Keeps (l.forM f) := by
  induction l with
  | nil => exact keeps_pure _
  | cons i l ih => exact (h i).bind fun _ => ih

/-- A visit keeps what its actions keep. -/
theorem keeps_visitFrom {v : Visitor Edit}
    (h : ∀ role act, v role = some act → ∀ walk, (∀ i, Keeps (walk i)) → ∀ i, Keeps (act walk i))
    (fuel : Nat) (i : NodeId) : Keeps (v.visitFrom fuel i) := by
  induction fuel generalizing i with
  | zero => exact keeps_pure _
  | succ fuel ih =>
    have hwalk : ∀ j, Keeps (v.walk fuel j) := fun j =>
      (keeps_read _).bind fun children => keeps_forM ih children
    rw [Visitor.visitFrom_succ]
    refine (keeps_read _).bind fun n => ?_
    cases hact : v.action? n.kind.role with
    | none => exact hwalk i
    | some act =>
      obtain ⟨role, -, hrole⟩ := List.exists_of_findSome?_eq_some hact
      exact h role act hrole _ hwalk i

theorem keeps_visit {v : Visitor Edit}
    (h : ∀ role act, v role = some act → ∀ walk, (∀ i, Keeps (walk i)) → ∀ i, Keeps (act walk i))
    (i : NodeId) : Keeps (v.visit i) :=
  (keeps_read _).bind fun _ => keeps_visitFrom h _ i

theorem keeps_reduceHere (i : NodeId) : Keeps (reduceHere i) := by
  refine (keeps_read _).bind fun n => ?_
  split
  · refine (keeps_read _).bind fun lhs => (keeps_read _).bind fun rhs => ?_
    split
    · refine (keeps_read _).bind fun o => ?_
      split
      · exact (keeps_detach _).bind fun _ => keeps_replace ..
      · exact keeps_pure _
    · exact keeps_pure _
  · exact keeps_pure _

theorem keeps_reduce (i : NodeId) : Keeps (reduce i) := by
  refine keeps_visit (fun role act hact walk hwalk i => ?_) i
  cases role with
  | binary =>
    injection hact with hact
    subst hact
    exact (hwalk i).bind fun _ => keeps_reduceHere i
  | _ => cases hact

theorem keeps_wrap (i : NodeId) : Keeps (wrap i) :=
  (keeps_leaf _).bind fun _ => (keeps_replace ..).bind fun _ =>
    (keeps_make ..).bind fun _ => keeps_replace ..

theorem keeps_wrapWhere (p : Kind → Bool) (i : NodeId) : Keeps (wrapWhere p i) := by
  refine (keeps_read _).bind fun n => ?_
  split
  · exact keeps_wrap i
  · exact keeps_pure _

theorem keeps_wrapLooser (i : NodeId) : Keeps (wrapLooser i) :=
  (keeps_read _).bind fun outer => (keeps_read _).bind fun children =>
    keeps_forM (fun j => keeps_wrapWhere (isLooser outer.kind) j) children

theorem keeps_wrapRegrouped (i : NodeId) (slot : Slot) : Keeps (wrapRegrouped i slot) := by
  refine (keeps_read _).bind fun head => ?_
  split
  · exact keeps_pure _
  · next child =>
    exact (keeps_read _).bind fun outer => keeps_wrapWhere (isRegrouped outer.kind) child

theorem keeps_wrapCastOperand (i : NodeId) : Keeps (wrapCastOperand i) := by
  refine (keeps_read _).bind fun head => ?_
  split
  · exact keeps_pure _
  · next child => exact keeps_wrapWhere Kind.isOperator child

theorem keeps_parenthesize (i : NodeId) : Keeps (parenthesize i) := by
  refine keeps_visit (fun role act hact walk hwalk i => ?_) i
  cases role with
  | binary | cond =>
    injection hact with hact
    subst hact
    exact (hwalk i).bind fun _ => (keeps_wrapLooser i).bind fun _ => keeps_wrapRegrouped i _
  | cast =>
    injection hact with hact
    subst hact
    exact (hwalk i).bind fun _ => keeps_wrapCastOperand i
  | _ => cases hact

theorem keeps_publishHere (i : NodeId) : Keeps (publishHere i) := by
  refine keeps_change fun t a h hc => ?_
  obtain ⟨n, hn, ha⟩ : ∃ n, t.node? i = some n
      ∧ ((n.kind, (t.name i).contains '.') : Kind × Bool) = a := by
    unfold Tree.node at hc
    cases hn : t.node? i with
    | none =>
      rw [hn] at hc
      cases hc
    | some n =>
      rw [hn] at hc
      exact ⟨n, rfl, Except.ok.inj hc⟩
  subst ha
  refine h.update i (fun _ => ⟨rfl, rfl, rfl⟩) fun m hm => ?_
  obtain rfl : n = m := Option.some.inj (hn.symm.trans hm)
  exact Kind.slots_published ..

theorem keeps_publish (i : NodeId) : Keeps (publish i) := by
  refine keeps_visit (fun role act hact walk hwalk i => ?_) i
  cases role with
  | «variable» | invokable =>
    injection hact with hact
    subst hact
    exact keeps_publishHere i
  | classRole =>
    injection hact with hact
    subst hact
    exact (keeps_publishHere i).bind fun _ => hwalk i
  | _ => cases hact

end Edit

namespace Drafting

variable {α β : Type}

/-- The same for the arena of a draft. -/
structure Keeps (act : Drafting α) : Prop where
  sound : ∀ d : Draft, d.tree.Sound → Tree.Sound (act d).2.tree

theorem keeps_pure (a : α) : Keeps (pure a) := ⟨fun _ h => h⟩

theorem keeps_note (level : Level) (text : String) : Keeps (note level text) := ⟨fun _ h => h⟩

theorem keeps_ofEdit {e : Edit α} (he : Edit.Keeps e) : Keeps (ofEdit e) :=
  ⟨fun d h => he.sound d.tree h⟩

theorem Keeps.bind {act : Drafting α} {f : α → Drafting β} (hact : Keeps act)
    (hf : ∀ a, Keeps (f a)) : Keeps (act >>= f) := by
  refine ⟨fun d hd => ?_⟩
  have h := hact.sound d hd
  cases hr : act d with
  | mk r s =>
    rw [hr] at h
    cases r with
    | error e =>
      rw [bind_error_run hr]
      exact h
    | ok a =>
      rw [bind_run hr]
      exact (hf a).sound s h

theorem keeps_describe (i : NodeId) : Keeps (describe i) := keeps_ofEdit (Edit.keeps_read _)

theorem keeps_rewrite (root : NodeId) (allPublic : Bool) : Keeps (rewrite root allPublic) := by
  refine (keeps_describe root).bind fun _ => (keeps_note ..).bind fun _ =>
    (keeps_ofEdit (Edit.keeps_reduce root)).bind fun _ => (keeps_describe root).bind fun _ =>
    (keeps_note ..).bind fun _ => (keeps_ofEdit (Edit.keeps_parenthesize root)).bind fun _ => ?_
  cases allPublic with
  | false => exact keeps_pure _
  | true =>
    exact (keeps_describe root).bind fun _ => (keeps_note ..).bind fun _ =>
      keeps_ofEdit (Edit.keeps_publish root)

end Drafting

-- ============================================================== the heir

namespace Tree

variable {t t' : Tree} {place : Place} {next : Option NodeId} {i j o : NodeId}

/-- The operand that an operation without effect gives way to. -/
def heir? (t : Tree) (i : NodeId) : Option NodeId :=
  match t.kind? i with
  | some (.binary op _) => do
    let lhs ← t.head i .lhs
    let rhs ← t.head i .rhs
    t.survivor? op lhs rhs
  | _ => none

theorem survivor?_mem {op : Operator} {lhs rhs : NodeId} (h : t.survivor? op lhs rhs = some o) :
    o = lhs ∨ o = rhs := by
  unfold Tree.survivor? at h
  cases op <;> dsimp only at h <;> (try split_ifs at h) <;> cases h <;> simp

/-- Only an operation on two operands has an heir. -/
theorem heir?_eq_some {id : NodeId} {kind : Kind} {notes : Notes} {slots : List (List Planted)}
    (h : t.HoldsChain place next [.node id kind notes slots]) (ho : t.heir? id = some o) :
    ∃ op type, kind = .binary op type ∧ ∃ a l b r, slots = [a :: l, b :: r]
      ∧ t.survivor? op (Term.tag a) (Term.tag b) = some o := by
  have hkind : t.kind? id = some kind := h.kind?_eq
  unfold heir? at ho
  rw [hkind] at ho
  cases kind with
  | binary op type =>
    obtain ⟨l, r, rfl⟩ : ∃ l r, slots = [l, r] :=
      List.length_eq_two.1 (holdsChain_singleton.1 h).1
    have hl : t.head id .lhs = headOr none l := h.head_eq (by simp [Kind.slots])
    have hr : t.head id .rhs = headOr none r := h.head_eq (by simp [Kind.slots])
    obtain ⟨lhs, hlhs, ho⟩ := Option.bind_eq_some_iff.1 ho
    obtain ⟨rhs, hrhs, ho⟩ := Option.bind_eq_some_iff.1 ho
    rw [hl] at hlhs
    rw [hr] at hrhs
    cases l with
    | nil => cases hlhs
    | cons a l =>
      cases r with
      | nil => cases hrhs
      | cons b r =>
        injection hlhs with hlhs
        injection hrhs with hrhs
        exact ⟨op, type, rfl, a, l, b, r, rfl, hlhs ▸ hrhs ▸ ho⟩
  | _ => cases ho

/-- An heir heads one of the slots. -/
theorem heir?_slot {id : NodeId} {kind : Kind} {notes : Notes} {slots : List (List Planted)}
    (h : t.HoldsChain place next [.node id kind notes slots]) (ho : t.heir? id = some o) :
    ∃ before s after done y ys rest, kind.slots = before ++ s :: after
      ∧ slots = done ++ (y :: ys) :: rest ∧ done.length = before.length ∧ o = Term.tag y := by
  obtain ⟨op, type, rfl, a, l, b, r, rfl, ho⟩ := heir?_eq_some h ho
  rcases survivor?_mem ho with rfl | rfl
  · exact ⟨[], .lhs, [.rhs], [], a, l, [b :: r], rfl, rfl, rfl, rfl⟩
  · exact ⟨[.lhs], .rhs, [], [a :: l], b, r, [], rfl, rfl, rfl, rfl⟩

theorem describe_congr (h : (t'.node? i).map (fun n => (n.kind, n.notes))
    = (t.node? i).map fun n => (n.kind, n.notes)) : t'.describe i = t.describe i := by
  unfold Tree.describe
  cases hn : t.node? i with
  | none =>
    rw [hn, Option.map_none, Option.map_eq_none_iff] at h
    rw [h]
  | some n =>
    rw [hn, Option.map_some] at h
    obtain ⟨m, hm, he⟩ := Option.map_eq_some_iff.1 h
    injection he with hkind hnotes
    rw [hm]
    simp only [hkind, hnotes]

end Tree

namespace Edit

variable {t t' : Tree} {place : Place} {next : Option NodeId} {id o : NodeId} {kind : Kind}
  {notes : Notes} {slots : List (List Planted)}

/-- An operation gives its place to its heir; without one nothing is done. -/
theorem reduceHere_eq (hs : t.Stands place next [.node id kind notes slots]) :
    reduceHere id t = match t.heir? id with
      | some o => (do
        detach o
        replace id o : Edit Unit) t
      | none => (.ok (), t) := by
  have hnode : Edit.read (·.node id) t
      = (.ok (Term.top place next (.node id kind notes slots)).2, t) :=
    Edit.read_run hs.holds.node_eq
  have hkind : t.kind? id = some kind := hs.holds.kind?_eq
  unfold Tree.heir? reduceHere
  rw [bind_run hnode, hkind]
  cases kind with
  | binary op type =>
    obtain ⟨l, r, rfl⟩ : ∃ l r, slots = [l, r] :=
      List.length_eq_two.1 (Tree.holdsChain_singleton.1 hs.holds).1
    have hl : Edit.read (·.slotHead id .lhs) t = (.ok (headOr none l), t) :=
      slotHead_run hs.holds (by simp [Kind.slots])
    have hr : Edit.read (·.slotHead id .rhs) t = (.ok (headOr none r), t) :=
      slotHead_run hs.holds (by simp [Kind.slots])
    have hlh : t.head id .lhs = headOr none l := hs.holds.head_eq (by simp [Kind.slots])
    have hrh : t.head id .rhs = headOr none r := hs.holds.head_eq (by simp [Kind.slots])
    refine (bind_run hl).trans ((bind_run hr).trans ?_)
    show _ = match (do
      let lhs ← t.head id .lhs
      let rhs ← t.head id .rhs
      t.survivor? op lhs rhs : Option NodeId) with
      | some o => _
      | none => _
    rw [hlh, hrh]
    cases l with
    | nil => rfl
    | cons a l =>
      cases r with
      | nil => rfl
      | cons b r =>
        have hsurv : Edit.read (fun t => .ok (t.survivor? op a.tag b.tag)) t
            = (.ok (t.survivor? op a.tag b.tag), t) := read_run rfl
        refine (bind_run hsurv).trans ?_
        show _ = match t.survivor? op a.tag b.tag with
          | some o => _
          | none => _
        cases t.survivor? op a.tag b.tag <;> rfl
  | _ => rfl

/-- What lies below a node is reduced first, wherever the node stands. -/
theorem reduce_top (hs : t.Stands place next [.node id kind notes slots]) :
    ∃ t₁ slots₁, (t.children id).forM reduce t = (.ok (), t₁)
      ∧ slots₁.map (List.map Term.shape)
        = slots.map (fun c => (c.map Term.shape).flatMap Term.reduced)
      ∧ Swaps t t₁ place next (Term.node id kind notes slots).tags [.node id kind notes slots₁]
      ∧ reduce id t = reduceHere id t₁ := by
  have hbelow := Visitor.rewrites_below reducer_steps hs
  obtain ⟨t₁, slots₁, hwalk, hcode, hswap⟩ := Visitor.walk_run hbelow hs
  have hs₁ := hswap.stands hs (List.cons_ne_nil _ _) fun j hj =>
    Or.inl (by rwa [List.flatMap_singleton])
  have hforM : (t.children id).forM reduce t = (.ok (), t₁) := by
    have hagree := forM_agree hbelow (fun c hc y hy => Visitor.visit_agree reducer_steps
      reducer_uniform y (Visitor.tags_length_below hs c hc y hy)) hs
    exact hagree.symm.trans ((Visitor.walkBy_run _ id t).symm.trans hwalk)
  refine ⟨t₁, slots₁, hforM, hcode, hswap, (Visitor.visit_eq ..).trans ?_⟩
  cases hbin : kind.isBinary with
  | true =>
    exact (Visitor.visitFrom_some (x := .node id kind notes slots) (action?_reducer_binary hbin)
      hs).trans (bind_run hwalk)
  | false =>
    have hnone : t₁.heir? id = none := by
      have hkind : t₁.kind? id = some kind := hs₁.holds.kind?_eq
      unfold Tree.heir?
      rw [hkind]
      cases kind <;> first | rfl | cases hbin
    refine (Visitor.visitFrom_none (x := .node id kind notes slots) (action?_reducer hbin) hs).trans
      (hwalk.trans ?_)
    rw [reduceHere_eq hs₁, hnone]

/-- A node that is linked nowhere cannot be replaced. -/
theorem replace_unlinked (hroot : t.place id = .root) (hid : id < t.size) (o : NodeId) :
    replace id o t = (.error (.link (.notLinked (t.describe id))), t) := by
  have hrequire : t.requireLinked id = .error (.link (.notLinked (t.describe id))) := by
    unfold Tree.requireLinked
    rw [Tree.require_eq_ok hid, hroot]
    rfl
  unfold replace change
  refine guarded_of_error ?_
  rw [hrequire]
  rfl

/-- The operation takes its heir out of its slot, but there is no place to
put it. -/
theorem lift_unlinked (hs : t.Stands .root next [.node id kind notes slots])
    (ho : t.heir? id = some o) :
    ∃ t', (do
      detach o
      replace id o : Edit Unit) t = (.error (.link (.notLinked (t.describe id))), t') := by
  obtain ⟨before, s, after, done, y, ys, rest, hk, rfl, hlen, rfl⟩ := Tree.heir?_slot hs.holds ho
  have hslot := hs.slot hk hlen (List.cons_ne_nil y ys)
  obtain ⟨t', hdetach, hswap, -⟩ := Tree.detach_run hslot Place.noConfusion
  have hid : id < t.size := Tree.lt_size_of_node? hs.holds.node?_eq
  have hout : id ∉ (y :: ys).flatMap Term.tags := hslot.owner_outside id s rfl
  have hframe := hswap.frame id hid hout
  have hplace : t'.place id = .root := by
    have hp : t.place id = .root := hs.holds.place_eq
    unfold Tree.place at hp ⊢
    rw [hframe, Option.map_map]
    cases hn : t.node? id with
    | none => rfl
    | some n =>
      rw [hn] at hp
      exact hp
  have hdescribe : t'.describe id = t.describe id := by
    refine Tree.describe_congr ?_
    rw [hframe, Option.map_map]
    rfl
  refine ⟨t', (bind_run hdetach).trans ?_⟩
  rw [replace_unlinked hplace (Nat.lt_of_lt_of_le hid hswap.grows), hdescribe]

end Edit

-- ========================================================== the outcome

/-- A node outside of some code that has given its place to a chain: what
held the code holds the first node of the chain, what followed the code
follows the last. -/
def Node.handOver (place : Place) (next : Option NodeId) (first last j : NodeId) (n : Node) :
    Node :=
  { n with
    heads := fun s => if place = .slot j s then some first else n.heads s
    next := if place = .after j then some first else n.next
    place := if next = some j then .after last else n.place }

namespace Tree

variable {t t₁ t' : Tree} {place : Place} {next : Option NodeId} {root : NodeId}

/-- Outside of the code at `root` nothing has changed, unless `root` had an
heir in `t₁`. -/
def KeepsOutside (t t₁ t' : Tree) (root : NodeId) : Prop :=
  ∀ j < t.size, ¬ t.Within j root → t'.node? j = match t₁.heir? root with
    | none => t.node? j
    | some heir => (t.node? j).map
        (Node.handOver (t.place root) (t.next? root) heir (t₁.last heir) j)

/-- An exchange for code with the same top node is not seen outside. -/
theorem Swaps.sameTop {x y : Planted} (h : Swaps t t' place next x.tags [y])
    (hs : t.Stands place next [x]) (hy : y.tag = x.tag) {j : NodeId} (hj : j < t.size)
    (hout : j ∉ x.tags) : t'.node? j = t.node? j := by
  obtain ⟨n, hn⟩ := exists_node?_of_lt hj
  have hsame : n.relink place next [y] j = n.relink place next [x] j := by
    unfold Node.relink
    simp only [headOr_cons, endPlace_cons, endPlace_nil, hy]
  rw [h.frame j hj hout, hn, Option.map_some, hsame, hs.relink_self hn]

end Tree

namespace Edit

variable {t : Tree} {place : Place} {next : Option NodeId} {id : NodeId} {kind : Kind}
  {notes : Notes} {slots : List (List Planted)}

/-- The operation fails where its heir has no place to go. Otherwise
something is left at its node, and outside at most the heir is new. -/
theorem reduce_outcome {x : Planted} (hs : t.Stands place next [x]) :
    ∃ t₁, (t.children x.tag).forM reduce t = (.ok (), t₁)
      ∧ (place = .root ∧ (t₁.heir? x.tag).isSome →
        ∃ t', reduce x.tag t = (.error (.link (.notLinked (t.describe x.tag))), t'))
      ∧ (¬ (place = .root ∧ (t₁.heir? x.tag).isSome) →
        ∃ t' place' next' y, reduce x.tag t = (.ok (), t') ∧ Term.tag y = x.tag
          ∧ t'.Stands place' next' [y] ∧ t.size ≤ t'.size
          ∧ (∀ j ∈ y.tags, j ∈ x.tags ∨ t.size ≤ j)
          ∧ ∀ j < t.size, j ∉ x.tags → t'.node? j = match t₁.heir? x.tag with
            | none => t.node? j
            | some heir => (t.node? j).map (Node.handOver place next heir (t₁.last heir) j)) := by
  cases x with
  | node id kind notes slots =>
    obtain ⟨t₁, slots₁, hforM, -, hswap, hreduce⟩ := reduce_top hs
    have hs₁ := hswap.stands hs (List.cons_ne_nil _ _) fun j hj =>
      Or.inl (by rwa [List.flatMap_singleton])
    have hfresh₁ : ∀ j ∈ (Term.node id kind notes slots₁).tags,
        j ∈ (Term.node id kind notes slots).tags ∨ t.size ≤ j := fun j hj =>
      hswap.fresh j (by rwa [List.flatMap_singleton])
    rw [reduceHere_eq hs₁] at hreduce
    rw [Term.tag_node, hreduce]
    refine ⟨t₁, hforM, fun hlost => ?_, fun hkept => ?_⟩
    · obtain ⟨rfl, hsome⟩ := hlost
      obtain ⟨o, ho⟩ := Option.isSome_iff_exists.1 hsome
      obtain ⟨t', hrun⟩ := lift_unlinked hs₁ ho
      have hdescribe : t₁.describe id = t.describe id := by
        refine Tree.describe_congr ?_
        rw [show t₁.node? id = _ from hs₁.holds.node?_eq,
          show t.node? id = _ from hs.holds.node?_eq]
        rfl
      rw [ho, ← hdescribe]
      exact ⟨t', hrun⟩
    · cases ho : t₁.heir? id with
      | none =>
        exact ⟨t₁, place, next, _, rfl, rfl, hs₁, hswap.grows, hfresh₁, fun j hj hout =>
          hswap.sameTop hs rfl hj hout⟩
      | some o =>
        have hlinked : place ≠ .root := fun hroot => hkept ⟨hroot, by rw [ho]; rfl⟩
        obtain ⟨before, s, after, done, y, ys, rest, hk, rfl, hlen, rfl⟩ :=
          Tree.heir?_slot hs₁.holds ho
        have hslot := hs₁.slot hk hlen (List.cons_ne_nil y ys)
        obtain ⟨t₂, hlift, hswap₂, halone⟩ := Tree.lift_run hs₁ hk hlen hlinked
        have hall := hswap.trans hswap₂ fun j hj => Or.inl (by rwa [List.flatMap_singleton])
        refine ⟨t₂, .root, none, _, hlift, rfl, halone, hall.grows, fun j hj => hfresh₁ j ?_,
          fun j hj hout => ?_⟩
        · rw [Tree.tags_split, List.append_nil, List.mem_cons, List.flatMap_append,
            List.mem_append] at hj
          rw [Tree.tags_split, List.mem_cons, List.flatMap_append, List.flatMap_append,
            List.mem_append, List.mem_append]
          exact hj.imp_right (Or.imp_left Or.inl)
        · rw [hall.frame j hj hout]
          congr 1
          funext n
          unfold Node.relink Node.handOver
          rw [Tree.last_of_holds hslot.holds hslot.nodup place]
          rfl

/-- If the reduction succeeds, something is left at the node, linked or
not. -/
theorem reduce_leaves {x : Planted} {t' : Tree} (hs : t.Stands place next [x])
    (h : reduce x.tag t = (.ok (), t')) :
    ∃ place' next' y, Term.tag y = x.tag ∧ t'.Stands place' next' [y] := by
  obtain ⟨t₁, -, hlost, hkept⟩ := reduce_outcome hs
  by_cases hc : place = .root ∧ (t₁.heir? x.tag).isSome
  · obtain ⟨t₂, hrun⟩ := hlost hc
    cases hrun.symm.trans h
  · obtain ⟨t₂, place', next', y, hrun, htag, hy, -⟩ := hkept hc
    cases hrun.symm.trans h
    exact ⟨place', next', y, htag, hy⟩

end Edit

namespace Drafting

open Edit

variable {t : Tree} {root : NodeId}

/-- No pass of the rewriting of `root` comes to the bound of its visit,
wherever the passes before it have led. -/
structure Ends (t : Tree) (root : NodeId) : Prop where
  reducing : reducer.EndsAt t root
  ordering : ∀ t₁, reduce root t = (.ok (), t₁) → parenthesizer.EndsAt t₁ root
  publishing : ∀ t₁ t₂, reduce root t = (.ok (), t₁) → parenthesize root t₁ = (.ok (), t₂) →
    publisher.EndsAt t₂ root

theorem ends_run {x : Planted} {place : Place} {next : Option NodeId}
    (hs : t.Stands place next [x]) : Ends t x.tag := by
  refine ⟨Visitor.endsAt_run reducer_steps reducer_uniform hs, fun t₁ h₁ => ?_,
    fun t₁ t₂ h₁ h₂ => ?_⟩
  · obtain ⟨place, next, y, htag, hy⟩ := reduce_leaves hs h₁
    exact htag ▸ Visitor.endsAt_run parenthesizer_steps parenthesizer_uniform hy
  · obtain ⟨place, next, y, htag, hy⟩ := reduce_leaves hs h₁
    obtain ⟨t', z, hrun, -, htag', hswap⟩ := parenthesize_top hy
    rw [htag] at hrun htag'
    cases hrun.symm.trans h₂
    have hz := hswap.stands hy (List.cons_ne_nil _ _) fun j hj =>
      Or.inl (by rwa [List.flatMap_singleton])
    exact htag' ▸ Visitor.endsAt_run publisher_steps publisher_uniform hz

/-- The code at any node of a sound arena can be rewritten, unless it is an
unlinked operation with an heir once its operands have been rewritten. The
arena stays sound, and outside of the code at the node only the link to it
and the place of its successor can change. -/
theorem rewrite_outcome (hs : t.Sound) (hroot : root < t.size) (allPublic : Bool)
    (journal : Journal) :
    Ends t root ∧ Tree.Sound (rewrite root allPublic ⟨t, journal⟩).2.tree
      ∧ ∃ t₁, (t.children root).forM reduce t = (.ok (), t₁)
      ∧ (t.place root = .root ∧ (t₁.heir? root).isSome →
        (rewrite root allPublic ⟨t, journal⟩).1 = .error (.link (.notLinked (t.describe root))))
      ∧ (¬ (t.place root = .root ∧ (t₁.heir? root).isSome) →
        (rewrite root allPublic ⟨t, journal⟩).1 = .ok ()
          ∧ t.KeepsOutside t₁ (rewrite root allPublic ⟨t, journal⟩).2.tree root) := by
  obtain ⟨x, rfl, hx, hwithin⟩ := hs.exists_term hroot
  obtain ⟨t₁, hforM, hlost, hkept⟩ := reduce_outcome hx
  refine ⟨ends_run hx, (keeps_rewrite ..).sound ⟨t, journal⟩ hs, t₁, hforM, fun hc => ?_,
    fun hc => ?_⟩
  · obtain ⟨t', hrun⟩ := hlost hc
    exact rewrite_of_error hrun allPublic journal
  · obtain ⟨t₂, place, next, y, hrun, htag, hy, hgrows, hfresh, hframe⟩ := hkept hc
    rw [← htag] at hrun
    obtain ⟨t', z, journal', hrewrite, htag', -, hswap⟩ :=
      rewrite_of_reduce hrun hy allPublic journal
    rw [htag] at hrewrite
    rw [hrewrite]
    refine ⟨rfl, fun j hj hout => ?_⟩
    have hmem : j ∉ x.tags := fun h => hout ((hwithin j).1 h)
    have hmem' : j ∉ y.tags := fun h => (hfresh j h).elim hmem fun hle =>
      Nat.not_lt_of_le hle hj
    refine (hswap.sameTop hy htag' (Nat.lt_of_lt_of_le hj hgrows) hmem').trans ?_
    exact hframe j hj hmem

/-- The chain `a`, `x | 0`, `c`. -/
def amongSiblings : Tree := Tree.built [.leaf (.snippetExpr "x" .int),
  .leaf (.intLit 0 .int false), .binary .or 0 1, .leaf (.snippet "a"), .leaf (.snippet "c"),
  .join [3, 2, 4]]

/-- The operation gives its place between its siblings to `x`. -/
theorem rewrite_outcome_amongSiblings :
    amongSiblings.Sound ∧ 2 < amongSiblings.size
      ∧ amongSiblings.next? 3 = some 2 ∧ amongSiblings.place 4 = .after 2
      ∧ (rewrite 2 true ⟨amongSiblings, #[]⟩).1 = .ok ()
      ∧ (rewrite 2 true ⟨amongSiblings, #[]⟩).2.tree.next? 3 = some 0
      ∧ (rewrite 2 true ⟨amongSiblings, #[]⟩).2.tree.place 4 = .after 0 := by
  have hs : amongSiblings.Sound := Tree.sound_built _
  have hroot : 2 < amongSiblings.size := by decide
  obtain ⟨-, -, t₁, hforM, -, hkept⟩ := rewrite_outcome hs hroot true #[]
  -- the operands are leaves, which no pass changes
  have hsame : (amongSiblings.children 2).forM reduce amongSiblings = (.ok (), amongSiblings) := rfl
  obtain rfl : amongSiblings = t₁ := congrArg Prod.snd (hsame.symm.trans hforM)
  have hlinked : ¬ (amongSiblings.place 2 = .root ∧ (amongSiblings.heir? 2).isSome) := by decide
  obtain ⟨hok, hout⟩ := hkept hlinked
  have hapart : ∀ j, amongSiblings.parent? j = none → j ≠ 2 → ¬ amongSiblings.Within j 2 := by
    intro j hj hne h
    rcases Relation.ReflTransGen.cases_head h with rfl | ⟨o, ⟨s, ho⟩, -⟩
    · exact hne rfl
    · cases hj.symm.trans ho
  have hnext := hout 3 (by decide) (hapart 3 (by decide) (by decide))
  have hplace := hout 4 (by decide) (hapart 4 (by decide) (by decide))
  refine ⟨hs, hroot, by decide, by decide, hok, ?_, ?_⟩
  · unfold Tree.next?
    rw [hnext]
    rfl
  · unfold Tree.place
    rw [hplace]
    rfl

end Drafting

end RegisterMap.Code
