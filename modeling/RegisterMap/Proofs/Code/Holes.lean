/-
Code without holes. A hole keeps a place open for code that is built later
and stays in the arena, linked nowhere, once that code has taken its place.
So what is shown of building code is not that the arena has no holes, but
that the code has none (`Term.HoleFree`).

Most edits make no hole at all (`Edit.HoleFree`): a node is a hole after
them only if it was one before. This goes over to every way edits are put
together, and with it what they build is free of holes, because every node
of it is either new or was taken from code without holes
(`HoleFree.yields`). The passes that rewrite code make no hole part of it
(`holeFree_finished`).
-/
import RegisterMap.Proofs.Code.Settling

open RegisterMap.Code.Tree (Stands Stock Yields)

namespace RegisterMap.Code

-- ================================================================= code

namespace Term

/-- No node is a hole. -/
abbrev HoleFree : Shape → Prop := All fun x => x.kind ≠ .hole

variable {kind : Kind} {notes : Notes} {slots : List (List Shape)} {x : Shape}

/-- Whether code is free of holes can be read off it. -/
theorem holeFree_of_all (h : x.all (fun y => !decide (y.kind = .hole)) = true) : x.HoleFree := by
  induction x using Term.ind with
  | node tag kind notes slots ih =>
    rw [all_node, Bool.and_eq_true_iff, List.all_eq_true] at h
    refine .node (of_decide_eq_false ((Bool.not_eq_true' _).mp h.1)) fun _ c hc y hy =>
      ih c hc y hy ?_
    exact List.all_eq_true.1 (h.2 c hc) y hy

theorem holeFree_reduceTop (hk : kind ≠ .hole) (h : ∀ c ∈ slots, ∀ y ∈ c, y.HoleFree) :
    ∀ y ∈ reduceTop kind notes slots, y.HoleFree := by
  have hnode : (node () kind notes slots).HoleFree := .node hk fun _ => h
  unfold reduceTop
  split
  · split
    · exact h _ (List.mem_cons_self ..)
    · exact h _ (List.mem_cons_of_mem _ (List.mem_cons_self ..))
    · exact List.forall_mem_singleton.2 hnode
  · exact List.forall_mem_singleton.2 hnode

theorem holeFree_reduced (h : x.HoleFree) : ∀ y ∈ x.reduced, y.HoleFree := by
  induction x using Term.ind with
  | node tag kind notes slots ih =>
    rw [reduced_node]
    refine holeFree_reduceTop h.top fun c hc y hy => ?_
    obtain ⟨c', hc', rfl⟩ := List.mem_map.1 hc
    obtain ⟨z, hz, hy⟩ := List.mem_flatMap.1 hy
    exact ih c' hc' z hz (h.inside rfl c' hc' z hz) y hy

theorem holeFree_parenthesized (h : x.HoleFree) : x.parenthesized.HoleFree := by
  induction x using Term.ind with
  | node tag kind notes slots ih =>
    rw [parenthesized_node]
    refine .node h.top fun _ => each_parenTop (fun _ _ => Kind.noConfusion) fun c hc y hy => ?_
    obtain ⟨c', hc', rfl⟩ := List.mem_map.1 hc
    obtain ⟨z, hz, rfl⟩ := List.mem_map.1 hy
    exact ih c' hc' z hz (h.inside rfl c' hc' z hz)

theorem holeFree_published (h : x.HoleFree) : x.published.HoleFree := by
  refine h.published_all fun {kind notes slots} htop => ?_
  show kind.published (qualified notes) ≠ .hole
  cases kind with
  | hole => exact absurd rfl htop
  | methodDecl sig =>
    unfold Kind.published
    dsimp only
    split <;> exact Kind.noConfusion
  | _ => exact Kind.noConfusion

/-- Rewritten code has no hole that it did not have before. -/
theorem holeFree_finished (h : x.HoleFree) (hop : x.kind.isOperator = false) (allPublic : Bool) :
    (x.finished allPublic).HoleFree := by
  have hreduced : x.reducedBelow.HoleFree :=
    holeFree_reduced h _ (by rw [reduced_eq hop]; exact List.mem_singleton_self _)
  unfold finished
  cases allPublic with
  | false => exact holeFree_parenthesized hreduced
  | true => exact holeFree_published (holeFree_parenthesized hreduced)

end Term

namespace Tree

variable {t t' : Tree} {place : Place} {next : Option NodeId} {x : Planted} {old : List NodeId}
  {cs ds : List (List Planted)}

/-- Code is free of holes where the nodes it stands on are none. -/
theorem Stands.holeFree_iff (hs : t.Stands place next [x]) :
    x.shape.HoleFree ↔ ∀ j ∈ x.tags, t.kind? j ≠ some .hole := by
  induction x using Term.ind generalizing place next with
  | node id kind notes slots ih =>
    have hkind : t.kind? id = some kind := hs.holds.kind?_eq
    rw [Term.shape_node, Term.tags_node]
    constructor
    · intro h j hj
      rcases List.mem_cons.1 hj with rfl | hj
      · rw [hkind]
        exact fun he => h.top (Option.some.inj he)
      · obtain ⟨y, hy, hj⟩ := List.mem_flatMap.1 hj
        obtain ⟨c, hc, hy⟩ := List.mem_flatten.1 hy
        obtain ⟨p, n, hstands⟩ := hs.child hc hy
        exact (ih c hc y hy hstands).1
          (h.inside rfl _ (List.mem_map_of_mem hc) _ (List.mem_map_of_mem hy)) j hj
    · intro h
      have hk : kind ≠ .hole := fun he =>
        h id (List.mem_cons_self ..) (hkind.trans (congrArg some he))
      refine .node hk fun _ c hc y hy => ?_
      obtain ⟨c', hc', rfl⟩ := List.mem_map.1 hc
      obtain ⟨z, hz, rfl⟩ := List.mem_map.1 hy
      obtain ⟨p, n, hstands⟩ := hs.child hc' hz
      refine (ih c' hc' z hz hstands).2 fun j hj => h j (List.mem_cons_of_mem _ ?_)
      exact List.mem_flatMap.2 ⟨z, List.mem_flatten.2 ⟨c', hc', hz⟩, hj⟩

/-- The code in every one of several chains is free of holes. -/
def HoleFreeIn (cs : List (List Planted)) : Prop := ∀ c ∈ cs, ∀ x ∈ c, (Term.shape x).HoleFree

theorem holeFreeIn_append : HoleFreeIn (cs ++ ds) ↔ HoleFreeIn cs ∧ HoleFreeIn ds :=
  List.forall_mem_append

theorem holeFreeIn_singleton : HoleFreeIn [[x]] ↔ x.shape.HoleFree := by
  simp [HoleFreeIn]

theorem Stock.member (h : Stock t cs) {c : List Planted} (hc : c ∈ cs) (hx : x ∈ c) :
    ∃ p n, t.Stands p n [x] := by
  obtain ⟨before, after, rfl⟩ := List.append_of_mem hc
  rw [← List.singleton_append, stock_append, stock_append] at h
  have hs := h.2.1.1.stands (List.ne_nil_of_mem hx)
  obtain ⟨pre, post, rfl⟩ := List.append_of_mem hx
  have hsplit : pre ++ x :: post = pre ++ [x] ++ post := by simp
  rw [hsplit] at hs
  exact ⟨_, _, hs.part (List.cons_ne_nil x [])⟩

/-- A step that makes no hole builds code without holes from code without
holes. -/
theorem Yields.holeFree (hy : Yields t t' (tagsOf ds) cs) (hs : Stock t ds) (hds : HoleFreeIn ds)
    (h : ∀ i, t'.kind? i = some .hole → t.kind? i = some .hole) : HoleFreeIn cs := by
  intro c hc x hx
  obtain ⟨p, n, hstands⟩ := hy.stock.member hc hx
  refine hstands.holeFree_iff.2 fun j hj he => ?_
  rcases hy.fresh j (mem_tagsOf.2 ⟨c, hc, List.mem_flatMap.2 ⟨x, hx, hj⟩⟩) with hj | hj
  · obtain ⟨d, hd, hj⟩ := mem_tagsOf.1 hj
    obtain ⟨y, hy, hj⟩ := List.mem_flatMap.1 hj
    obtain ⟨p, n, hstands⟩ := hs.member hd hy
    exact hstands.holeFree_iff.1 (hds d hd y hy) j hj (h j he)
  · have hnone : t.kind? j = none := by
      unfold Tree.kind?
      rw [(t.node?_eq_none_iff j).2 hj]
      rfl
    cases hnone.symm.trans (h j he)

/-- What is built over nothing by such a step has none. -/
theorem Yields.holeFree_new (hy : Yields t t' [] cs) (hm : t.Mutual)
    (h : ∀ i, t'.kind? i = some .hole → t.kind? i = some .hole) : HoleFreeIn cs := by
  have hnothing : Yields t t' (tagsOf []) cs := hy
  exact hnothing.holeFree (stock_nil hm) nofun h

end Tree

-- ================================================================ edits

namespace Edit

variable {α β : Type}

/-- The edit turns no node into a hole and adds none. -/
structure HoleFree (e : Edit α) : Prop where
  before : ∀ t i, (e t).2.kind? i = some .hole → t.kind? i = some .hole

/-- What such an edit builds from code without holes has none. -/
theorem HoleFree.yields {e : Edit α} {r : Except Failure α} {t t' : Tree}
    {cs ds : List (List Planted)} (h : HoleFree e) (hrun : e t = (r, t'))
    (hy : Yields t t' (tagsOf ds) cs) (hs : Stock t ds) (hds : Tree.HoleFreeIn ds) :
    Tree.HoleFreeIn cs :=
  hy.holeFree hs hds fun i hi => h.before t i (by rwa [hrun])

theorem HoleFree.built {e : Edit α} {r : Except Failure α} {t t' : Tree}
    {cs : List (List Planted)} (h : HoleFree e) (hrun : e t = (r, t')) (hm : t.Mutual)
    (hy : Yields t t' [] cs) : Tree.HoleFreeIn cs :=
  hy.holeFree_new hm fun i hi => h.before t i (by rwa [hrun])

theorem holeFree_pure (a : α) : HoleFree (pure a) := ⟨fun _ _ h => h⟩

theorem HoleFree.bind {e : Edit α} {f : α → Edit β} (he : HoleFree e) (hf : ∀ a, HoleFree (f a)) :
    HoleFree (e >>= f) := by
  refine ⟨fun t i h => ?_⟩
  rcases bind_ends e f t with hend | ⟨a, hrun⟩
  · rw [hend] at h
    exact he.before t i h
  · rw [hrun] at h
    exact he.before t i ((hf a).before _ i h)

theorem holeFree_guarded {check : Tree → Except Failure α} {act : α → Tree → β × Tree}
    (h : ∀ t a i, check t = .ok a → (act a t).2.kind? i = some .hole → t.kind? i = some .hole) :
    HoleFree (guarded check act) := by
  refine ⟨fun t i hhole => ?_⟩
  cases hc : check t with
  | error e => rwa [guarded_of_error hc] at hhole
  | ok a =>
    rw [guarded_of_ok hc] at hhole
    exact h t a i hc hhole

theorem holeFree_read (look : Tree → Except Failure α) : HoleFree (read look) :=
  holeFree_guarded fun _ _ _ _ h => h

theorem holeFree_check (result : Except Failure α) : HoleFree (check result) := holeFree_read _

/-- A change that keeps the kinds of nodes. -/
theorem holeFree_change {check : Tree → Except Failure α} {act : α → Tree → Tree}
    (h : ∀ t a i, (act a t).kind? i = t.kind? i) : HoleFree (change check act) :=
  holeFree_guarded fun t a i _ hhole => (h t a i).symm.trans hhole

theorem holeFree_mapM {f : α → Edit β} (h : ∀ a, HoleFree (f a)) (l : List α) :
    HoleFree (l.mapM f) := by
  induction l with
  | nil => exact holeFree_pure _
  | cons a l ih =>
    rw [List.mapM_cons]
    exact (h a).bind fun _ => ih.bind fun _ => holeFree_pure _

-- --------------------------------------------------------------- links

theorem holeFree_insertAfter (i other : NodeId) (insert : Bool) :
    HoleFree (insertAfter i other insert) :=
  holeFree_change fun _ _ => Tree.kind?_linkAfter _ _

theorem holeFree_lastOf (i : NodeId) : HoleFree (lastOf i) := holeFree_read _

theorem holeFree_joinAfter (tail : NodeId) (heads : List NodeId) :
    HoleFree (joinAfter tail heads) := by
  induction heads generalizing tail with
  | nil => exact holeFree_pure _
  | cons i rest ih =>
    exact (holeFree_insertAfter ..).bind fun _ => (holeFree_lastOf i).bind fun _ => ih _

theorem holeFree_join (heads : List NodeId) : HoleFree (join heads) := by
  cases heads with
  | nil => exact holeFree_pure _
  | cons i rest =>
    exact (holeFree_lastOf i).bind fun _ => (holeFree_joinAfter ..).bind fun _ => holeFree_pure _

theorem holeFree_annotate (i : NodeId) (f : Notes → Notes) : HoleFree (annotate i f) :=
  holeFree_change fun t _ j => Tree.kind?_setNotes t i j f

-- --------------------------------------------------------------- nodes

/-- A pushed node is a hole only if it was pushed as one. -/
theorem hole_of_push {t : Tree} {n : Node} (hn : n.kind ≠ .hole) {i : NodeId}
    (h : (t.push n).2.kind? i = some .hole) : t.kind? i = some .hole := by
  unfold Tree.kind? at h ⊢
  rw [Tree.node?_push] at h
  split at h
  · exact absurd (Option.some.inj h) hn
  · exact h

theorem kind?_foldl_setPlace (t : Tree) (id : NodeId) (heads : Heads) (slots : List Slot)
    (i : NodeId) :
    (slots.foldl (fun t slot =>
      match heads slot with
      | some child => t.setPlace child (.slot id slot)
      | none => t) t).kind? i = t.kind? i := by
  induction slots generalizing t with
  | nil => rfl
  | cons s slots ih =>
    rw [List.foldl_cons, ih]
    split
    · exact Tree.kind?_setPlace ..
    · rfl

theorem holeFree_make {kind : Tree → Except Failure Kind} (hk : ∀ t, kind t ≠ .ok .hole)
    (links : List (Slot × Option NodeId)) : HoleFree (make kind links) := by
  refine holeFree_guarded fun t k i hc h => ?_
  have hne : k ≠ .hole := by
    rintro rfl
    cases hkind : kind t with
    | error e => rw [hkind] at hc; cases hc
    | ok k' =>
      rw [hkind] at hc
      obtain ⟨-, hpure⟩ := Tree.check_bind_iff.1 hc
      injection hpure with hpure
      exact hk t (hpure ▸ hkind)
  exact hole_of_push hne ((kind?_foldl_setPlace ..).symm.trans h)

/-- A kind that is found in steps is no hole if the last step gives none. -/
theorem bind_ne_hole {r : Except Failure α} {f : α → Except Failure Kind}
    (h : ∀ a, f a ≠ .ok .hole) : (r >>= f) ≠ .ok .hole := by
  cases r with
  | error e => exact nofun
  | ok a => exact h a

theorem ok_ne_hole {kind : Kind} (h : kind ≠ .hole) : (.ok kind : Except Failure Kind) ≠ .ok .hole :=
  fun he => h (Except.ok.inj he)

theorem holeFree_add {kind : Kind} (hk : kind ≠ .hole) (links : List (Slot × Option NodeId)) :
    HoleFree (add kind links) :=
  holeFree_make (fun _ h => hk (Except.ok.inj h)) links

theorem holeFree_leaf {kind : Kind} (hk : kind ≠ .hole) : HoleFree (leaf kind) :=
  holeFree_guarded fun _ _ _ _ h => hole_of_push hk h

theorem holeFree_named (name : String) {build : Edit NodeId} (h : HoleFree build) :
    HoleFree (named name build) :=
  h.bind fun _ => (holeFree_annotate ..).bind fun _ => holeFree_pure _

theorem holeFree_arguments (values : List NodeId) : HoleFree (arguments values) := by
  refine (holeFree_mapM (fun value => (holeFree_read _).bind fun n => ?_) values).bind
    fun _ => holeFree_join _
  split
  · exact holeFree_pure _
  · exact holeFree_add Kind.noConfusion _

end Edit

-- ============================================================= sketches

namespace Sketch

open Edit

mutual

/-- The sketch has no hole. -/
def isHoleFree : Sketch → Bool
  | .hole => false
  | .raw kind _ => !decide (kind = .hole)
  | .node _ | .snippet _ | .snippetExpr .. | .int _ | .long _ | .mask _ | .literal .. | .bool _
  | .string _ | .self | .param .. => true
  | .reference s | .cast _ s | .paren s | .member s _ _ | .arg s _ _ | .newArray _ s | .stmt s
  | .throw s | .noted s _ _ _ => s.isHoleFree
  | .binary _ lhs rhs | .assign lhs rhs | .index lhs rhs _ => lhs.isHoleFree && rhs.isHoleFree
  | .cond condition consequent alternative =>
    condition.isHoleFree && (consequent.isHoleFree && alternative.isHoleFree)
  | .call _ receiver args _ => optionIsHoleFree receiver && listIsHoleFree args
  | .newObject _ args => listIsHoleFree args
  | .variable _ _ init _ => optionIsHoleFree init
  | .ret expr => optionIsHoleFree expr
  | .branch condition consequent alternative =>
    condition.isHoleFree && (listIsHoleFree consequent && listIsHoleFree alternative)
  | .method _ _ first second | .property _ _ first second | .namespaceDecl _ first second =>
    listIsHoleFree first && listIsHoleFree second
  | .classDecl _ _ fields properties methods classes =>
    listIsHoleFree fields && (listIsHoleFree properties
      && (listIsHoleFree methods && listIsHoleFree classes))

def optionIsHoleFree : Option Sketch → Bool
  | none => true
  | some s => s.isHoleFree

def listIsHoleFree : List Sketch → Bool
  | [] => true
  | s :: rest => s.isHoleFree && listIsHoleFree rest

end

theorem listIsHoleFree_iff {l : List Sketch} :
    listIsHoleFree l = true ↔ ∀ s ∈ l, s.isHoleFree = true := by
  induction l with
  | nil => exact ⟨fun _ _ h => (nomatch h), fun _ => rfl⟩
  | cons s l ih => rw [listIsHoleFree, Bool.and_eq_true_iff, ih, List.forall_mem_cons]

theorem listIsHoleFree_nodes (ids : List NodeId) : listIsHoleFree (ids.map .node) = true :=
  listIsHoleFree_iff.2 fun _ hs => by
    obtain ⟨id, -, rfl⟩ := List.mem_map.1 hs
    rfl

mutual

/-- Planting makes the holes of the sketch and no others. -/
theorem holeFree_plant (s : Sketch) (h : s.isHoleFree = true) : HoleFree s.plant := by
  cases s with
  | hole => cases h
  | node => exact holeFree_pure _
  | snippet | snippetExpr | int | long | mask | literal | bool | string | self =>
    exact holeFree_leaf Kind.noConfusion
  | reference decl =>
    exact (holeFree_plant decl h).bind fun _ =>
      holeFree_make (fun _ => bind_ne_hole fun _ => ok_ne_hole Kind.noConfusion) _
  | binary op lhs rhs | assign lhs rhs =>
    obtain ⟨hl, hr⟩ := Bool.and_eq_true_iff.1 h
    exact (holeFree_plant lhs hl).bind fun _ => (holeFree_plant rhs hr).bind fun _ =>
      holeFree_make (fun _ => bind_ne_hole fun _ => ok_ne_hole Kind.noConfusion) _
  | cond condition consequent alternative =>
    obtain ⟨hc, h⟩ := Bool.and_eq_true_iff.1 h
    obtain ⟨ha, hb⟩ := Bool.and_eq_true_iff.1 h
    exact (holeFree_plant condition hc).bind fun _ => (holeFree_plant consequent ha).bind fun _ =>
      (holeFree_plant alternative hb).bind fun _ =>
        holeFree_make (fun _ => bind_ne_hole fun _ => bind_ne_hole fun _ => bind_ne_hole fun _ =>
          ok_ne_hole Kind.noConfusion) _
  | cast type expr | paren expr =>
    exact (holeFree_plant expr h).bind fun _ =>
      holeFree_make (fun _ => bind_ne_hole fun _ => ok_ne_hole Kind.noConfusion) _
  | index object position type =>
    obtain ⟨hl, hr⟩ := Bool.and_eq_true_iff.1 h
    exact (holeFree_plant object hl).bind fun _ => (holeFree_plant position hr).bind fun _ =>
      holeFree_add Kind.noConfusion _
  | member expr | arg expr | newArray _ expr | stmt expr | throw expr =>
    exact (holeFree_plant expr h).bind fun _ => holeFree_add Kind.noConfusion _
  | call callee receiver args type =>
    obtain ⟨hr, ha⟩ := Bool.and_eq_true_iff.1 h
    exact (holeFree_plantOption receiver hr).bind fun _ => (holeFree_plantList args ha).bind fun _ =>
      (holeFree_arguments _).bind fun _ => holeFree_add Kind.noConfusion _
  | newObject type args =>
    exact (holeFree_plantList args h).bind fun _ =>
      (holeFree_arguments _).bind fun _ => holeFree_add Kind.noConfusion _
  | «variable» name type init access =>
    exact (holeFree_plantOption init h).bind fun _ =>
      holeFree_named _ (holeFree_add Kind.noConfusion _)
  | param => exact holeFree_named _ (holeFree_leaf Kind.noConfusion)
  | ret expr =>
    exact (holeFree_plantOption expr h).bind fun _ => holeFree_add Kind.noConfusion _
  | branch condition consequent alternative =>
    obtain ⟨hc, h⟩ := Bool.and_eq_true_iff.1 h
    obtain ⟨ha, hb⟩ := Bool.and_eq_true_iff.1 h
    exact (holeFree_plant condition hc).bind fun _ =>
      (holeFree_plantList consequent ha).bind fun _ =>
        (holeFree_plantList alternative hb).bind fun _ =>
          (holeFree_join _).bind fun _ => (holeFree_join _).bind fun _ =>
            holeFree_add Kind.noConfusion _
  | method name sig first second | property name sig first second
  | namespaceDecl name first second =>
    obtain ⟨hf, hs⟩ := Bool.and_eq_true_iff.1 h
    exact (holeFree_plantList first hf).bind fun _ => (holeFree_plantList second hs).bind fun _ =>
      (holeFree_join _).bind fun _ => (holeFree_join _).bind fun _ =>
        holeFree_named _ (holeFree_add Kind.noConfusion _)
  | classDecl name sig fields properties methods classes =>
    obtain ⟨hf, h⟩ := Bool.and_eq_true_iff.1 h
    obtain ⟨hp, h⟩ := Bool.and_eq_true_iff.1 h
    obtain ⟨hm, hc⟩ := Bool.and_eq_true_iff.1 h
    exact (holeFree_plantList fields hf).bind fun _ =>
      (holeFree_plantList properties hp).bind fun _ =>
        (holeFree_plantList methods hm).bind fun _ =>
          (holeFree_plantList classes hc).bind fun _ =>
            (holeFree_join _).bind fun _ => (holeFree_join _).bind fun _ =>
              (holeFree_join _).bind fun _ => (holeFree_join _).bind fun _ =>
                holeFree_named _ (holeFree_add Kind.noConfusion _)
  | raw kind links => exact holeFree_add (of_decide_eq_false ((Bool.not_eq_true' _).mp h)) _
  | noted body doc comment indents =>
    refine (holeFree_plant body h).bind fun _ => ?_
    dsimp only
    split
    · exact (holeFree_annotate ..).bind fun _ => holeFree_pure _
    · exact holeFree_pure _

theorem holeFree_plantOption (o : Option Sketch) (h : optionIsHoleFree o = true) :
    HoleFree (plantOption o) := by
  cases o with
  | none => exact holeFree_pure _
  | some s => exact (holeFree_plant s h).bind fun _ => holeFree_pure _

theorem holeFree_plantList (l : List Sketch) (h : listIsHoleFree l = true) :
    HoleFree (plantList l) := by
  cases l with
  | nil => exact holeFree_pure _
  | cons s rest =>
    obtain ⟨hs, hrest⟩ := Bool.and_eq_true_iff.1 h
    exact (holeFree_plant s hs).bind fun _ =>
      (holeFree_plantList rest hrest).bind fun _ => holeFree_pure _

end

end Sketch

end RegisterMap.Code
