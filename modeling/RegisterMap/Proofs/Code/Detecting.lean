/-
A hole is never passed over. Whatever stands in a slot is written, unless
it is the body of a method that is only declared or of an accessor without
one (`Kind.writes`). So a node has tokens only if everything below it has,
and a hole has none (`holeFree_of_tokensFrom`).

Main statement: where no such body is hidden, code has a text if and only
if no node of it is a hole, and the failure is that of an unfilled hole
otherwise (`emit_unfilledHole_iff`).
-/
import RegisterMap.Proofs.Code.Writing
import RegisterMap.Proofs.Code.Composing

open RegisterMap.Code.Tree (Stands)

namespace RegisterMap.Code

/-- What stands in the slot is written. -/
def Kind.writes : Kind → Slot → Bool
  | .methodDecl sig, .body => sig.bodied
  | .propertyDecl sig, .get => sig.get == .body
  | .propertyDecl sig, .set => sig.set == .body
  | _, _ => true

namespace Tree

variable {t : Tree} {i root : NodeId} {n : Node} {tokens : List Token} {fuel : Nat}
  {place : Place} {next : Option NodeId} {x : Planted}

/-- At and below `root` every slot is empty that is not written. -/
def HidesNothing (t : Tree) (root : NodeId) : Prop :=
  ∀ i n s, t.Within i root → t.node? i = some n → (n.heads s).isSome → n.kind.writes s = true

/-- A node that has tokens has asked for those of every chain. -/
theorem kindTokens_asks {chain : (sep : String) → Slot → Except Failure (List Token)} {s : Slot}
    (h : t.kindTokens i n chain = .ok tokens) (hs : s ∈ n.kind.slots)
    (hhas : (n.heads s).isSome = true) (hw : n.kind.writes s = true) :
    ∃ sep part, chain sep s = .ok part := by
  unfold kindTokens at h
  cases hk : n.kind with
  | hole | snippet | snippetExpr | intLit | boolLit | stringLit | varRef | self =>
    rw [hk] at hs
    exact absurd hs List.not_mem_nil
  | cast | paren | member | newObject | newArray | arg | exprStmt | throwStmt =>
    rw [hk] at h hs
    obtain rfl := List.mem_singleton.1 hs
    obtain ⟨e, he, -⟩ := bind_eq_ok_iff.1 h
    exact ⟨_, e, he⟩
  | binary | assign | index =>
    rw [hk] at h hs
    obtain ⟨l, hl, h⟩ := bind_eq_ok_iff.1 h
    obtain ⟨r, hr, -⟩ := bind_eq_ok_iff.1 h
    rcases List.mem_cons.1 hs with rfl | hs
    · exact ⟨_, l, hl⟩
    · obtain rfl := List.mem_singleton.1 hs
      exact ⟨_, r, hr⟩
  | cond =>
    rw [hk] at h hs
    obtain ⟨c, hc, h⟩ := bind_eq_ok_iff.1 h
    obtain ⟨a, ha, h⟩ := bind_eq_ok_iff.1 h
    obtain ⟨b, hb, -⟩ := bind_eq_ok_iff.1 h
    simp only [Kind.slots, List.mem_cons, List.not_mem_nil, or_false] at hs
    rcases hs with rfl | rfl | rfl
    · exact ⟨_, c, hc⟩
    · exact ⟨_, a, ha⟩
    · exact ⟨_, b, hb⟩
  | call method type =>
    rw [hk] at h hs
    rcases List.mem_cons.1 hs with rfl | hs
    · dsimp only at h
      rw [if_pos hhas] at h
      obtain ⟨r, hr, -⟩ := bind_eq_ok_iff.1 h
      exact ⟨_, r, hr⟩
    · obtain rfl := List.mem_singleton.1 hs
      dsimp only at h
      split at h
      · obtain ⟨_, -, h⟩ := bind_eq_ok_iff.1 h
        obtain ⟨_, -, h⟩ := bind_eq_ok_iff.1 h
        obtain ⟨a, ha, -⟩ := bind_eq_ok_iff.1 h
        exact ⟨_, a, ha⟩
      · obtain ⟨_, -, h⟩ := bind_eq_ok_iff.1 h
        obtain ⟨a, ha, -⟩ := bind_eq_ok_iff.1 h
        exact ⟨_, a, ha⟩
  | variableDecl | paramDecl | returnStmt =>
    rw [hk] at h hs
    obtain rfl := List.mem_singleton.1 hs
    dsimp only at h
    rw [if_pos hhas] at h
    obtain ⟨part, hpart, -⟩ := bind_eq_ok_iff.1 h
    exact ⟨_, part, hpart⟩
  | branch =>
    rw [hk] at h hs
    obtain ⟨c, hc, h⟩ := bind_eq_ok_iff.1 h
    obtain ⟨a, ha, h⟩ := bind_eq_ok_iff.1 h
    simp only [Kind.slots, List.mem_cons, List.not_mem_nil, or_false] at hs
    rcases hs with rfl | rfl | rfl
    · exact ⟨_, c, hc⟩
    · exact ⟨_, a, ha⟩
    · dsimp only at h
      rw [if_pos hhas] at h
      obtain ⟨b, hb, -⟩ := bind_eq_ok_iff.1 h
      exact ⟨_, b, hb⟩
  | methodDecl sig =>
    rw [hk] at h hs hw
    obtain ⟨ps, hps, h⟩ := bind_eq_ok_iff.1 h
    rcases List.mem_cons.1 hs with rfl | hs
    · exact ⟨_, ps, hps⟩
    · obtain rfl := List.mem_singleton.1 hs
      have hbodied : sig.bodied = true := hw
      rw [if_pos hbodied] at h
      obtain ⟨b, hb, -⟩ := bind_eq_ok_iff.1 h
      exact ⟨_, b, hb⟩
  | propertyDecl sig =>
    rw [hk] at h hs hw
    dsimp only at h
    rcases List.mem_cons.1 hs with rfl | hs
    · have hget : (sig.get == .body) = true := hw
      rw [if_pos hget] at h
      obtain ⟨g, hg, -⟩ := bind_eq_ok_iff.1 h
      exact ⟨_, g, hg⟩
    · obtain rfl := List.mem_singleton.1 hs
      have hset : (sig.set == .body) = true := hw
      split at h
      all_goals
        obtain ⟨_, -, h⟩ := bind_eq_ok_iff.1 h
        obtain ⟨part, hpart, -⟩ := bind_eq_ok_iff.1 h
        exact ⟨_, part, hpart⟩
  | classDecl sig =>
    rw [hk] at h hs
    obtain ⟨sections, hsections, -⟩ := bind_eq_ok_iff.1 h
    have hmem : ∃ sep, (s, sep) ∈ classSections := by
      simp only [Kind.slots, List.mem_cons, List.not_mem_nil, or_false] at hs
      rcases hs with rfl | rfl | rfl | rfl <;> simp [classSections]
    obtain ⟨sep, hmem⟩ := hmem
    obtain ⟨part, hpart⟩ := exists_of_mapM_ok hsections (s, sep) (List.mem_filter.2 ⟨hmem, hhas⟩)
    exact ⟨sep, part, hpart⟩
  | namespaceDecl =>
    rw [hk] at h hs
    obtain ⟨cs, hcs, h⟩ := bind_eq_ok_iff.1 h
    obtain ⟨ns, hns, -⟩ := bind_eq_ok_iff.1 h
    rcases List.mem_cons.1 hs with rfl | hs
    · exact ⟨_, cs, hcs⟩
    · obtain rfl := List.mem_singleton.1 hs
      exact ⟨_, ns, hns⟩

/-- Standing code that has tokens has no hole, if no slot of it is passed
over and the levels suffice. -/
theorem holeFree_of_tokensFrom (hs : t.Stands place next [x])
    (hhides : ∀ i ∈ x.tags, ∀ n s, t.node? i = some n → (n.heads s).isSome = true →
      n.kind.writes s = true)
    (hfuel : x.tags.length ≤ fuel) (h : t.tokensFrom fuel x.tag = .ok tokens) :
    x.shape.HoleFree := by
  induction x using Term.ind generalizing place next fuel tokens with
  | node id kind notes slots ih =>
    have hn := hs.nodup
    rw [List.flatMap_singleton] at hn
    cases fuel with
    | zero => exact absurd hfuel (by simp)
    | succ fuel =>
      have hnode : t.node? id = some (Term.top place next (.node id kind notes slots)).2 :=
        hs.holds.node?_eq
      rw [Term.tag_node, tokensFrom, show t.node id = _ from hs.holds.node_eq] at h
      obtain ⟨n, hfound, h⟩ := bind_eq_ok_iff.1 h
      obtain rfl := Except.ok.inj hfound
      obtain ⟨own, hown, -⟩ := bind_eq_ok_iff.1 h
      rw [Term.shape_node]
      refine .node (fun hk => ?_) fun _ c' hc' y' hy' => ?_
      · subst hk
        cases hown
      · obtain ⟨c, hc, rfl⟩ := List.mem_map.1 hc'
        obtain ⟨y, hy, rfl⟩ := List.mem_map.1 hy'
        obtain ⟨s, hsc⟩ := hs.exists_slot hc
        obtain ⟨p, m, hchild⟩ := hs.child hc hy
        have hslot := hs.inSlot hsc (List.ne_nil_of_mem hy)
        have hhead : headsOf kind.slots slots s = headOr none c :=
          headsOf_of_mem kind.nodup_slots hsc
        have hhas : (headsOf kind.slots slots s).isSome = true := by
          rw [hhead]
          cases c with
          | nil => cases hy
          | cons z zs => rfl
        have hw : kind.writes s = true := hhides id (Term.tag_mem_tags _) _ s hnode hhas
        obtain ⟨sep, part, hpart⟩ := kindTokens_asks hown (List.of_mem_zip hsc).1 hhas hw
        obtain ⟨parts, hparts, -⟩ := bind_eq_ok_iff.1 hpart
        have hchain : t.chain (headsOf kind.slots slots s) = c.map Term.tag := by
          rw [hhead]
          exact chain_of_holds hslot.holds hslot.nodup
        have hsub : y.tags.Sublist (slots.flatten.flatMap Term.tags) :=
          Term.tags_sublist (List.mem_flatten_of_mem hc hy)
        obtain ⟨tokens', htokens'⟩ := exists_of_mapM_ok hparts y.tag
          (hchain ▸ List.mem_map_of_mem hy)
        refine ih c hc y hy hchild (fun j hj => hhides j ?_) ?_ htokens'
        · rw [Term.tags_node]
          exact List.mem_cons_of_mem _ (hsub.subset hj)
        · rw [Term.tags_node, List.length_cons] at hfuel
          exact Nat.le_trans hsub.length_le (Nat.le_of_succ_le_succ hfuel)

/-- A node of a sound arena has tokens, or it is refused for a hole at or
below it. -/
theorem Sound.tokens_ends (hs : t.Sound) (hroot : root < t.size) :
    Ends (t.tokens root) (fun _ => True) fun e => ∃ j, t.Within j root ∧ t.kind? j = some .hole
      ∧ e = .link (.unfilledHole (t.describe (t.ownerOr j))) := by
  have hends := tokensFrom_ends (t := t) (Q := fun _ _ => True)
    (E := fun i e => i < t.size → ∃ j, t.Within j i ∧ t.kind? j = some .hole
      ∧ e = .link (.unfilledHole (t.describe (t.ownerOr j))))
    (fun _ => trivial) (fun i hi hlt => absurd hlt (Nat.not_lt_of_le hi))
    (fun i hi _ => ⟨i, .refl, hi, rfl⟩) (fun i c hc e he _ => ?_) (fun _ _ _ _ _ => trivial)
    (t.size + 1) root
  · exact hends.imp (fun _ h => h) fun e he => he hroot
  · have hown := hs.mem_children_iff.1 hc
    obtain ⟨j, hj, hhole, rfl⟩ := he hown.lt_size
    exact ⟨j, hj.tail hown, hhole, rfl⟩

/-- Code all of which is written is refused for one of its holes, or it has
a text and no hole. -/
theorem Sound.emit_cases (hs : t.Sound) (hroot : root < t.size) (hhides : t.HidesNothing root)
    (options : EmitOptions) :
    (∃ j, t.Within j root ∧ t.kind? j = some .hole
        ∧ t.emit root options = .error (.link (.unfilledHole (t.describe (t.ownerOr j)))))
      ∨ (¬ ∃ j, t.Within j root ∧ t.kind? j = some .hole)
        ∧ ∃ text, t.emit root options = .ok text := by
  obtain ⟨x, rfl, hx, hwithin⟩ := hs.exists_term hroot
  cases htokens : t.tokens x.tag with
  | error e =>
    obtain ⟨j, hj, hhole, rfl⟩ := (hs.tokens_ends hroot).2 e htokens
    refine .inl ⟨j, hj, hhole, ?_⟩
    unfold emit
    rw [htokens]
    rfl
  | ok tokens =>
    have hlen := hx.holds.tags_length_le hx.nodup
    rw [List.flatMap_singleton] at hlen
    have hfree : x.shape.HoleFree := holeFree_of_tokensFrom hx
      (fun i hi n s => hhides i n s ((hwithin i).1 hi)) (Nat.le_succ_of_le hlen) htokens
    refine .inr ⟨fun ⟨j, hj, hhole⟩ => ?_, emit_holeFree hx hfree options⟩
    exact hx.holeFree_iff.1 hfree j ((hwithin j).2 hj) hhole

/-- Code all of which is written is refused for an unfilled hole if and
only if a node of it is one, and it has a text otherwise. -/
theorem emit_unfilledHole_iff (hs : t.Sound) (hroot : root < t.size)
    (hhides : t.HidesNothing root) (options : EmitOptions) :
    ((∃ owner, t.emit root options = .error (.link (.unfilledHole owner)))
        ↔ ∃ j, t.Within j root ∧ t.kind? j = some .hole)
      ∧ ((¬ ∃ j, t.Within j root ∧ t.kind? j = some .hole) →
        ∃ text, t.emit root options = .ok text) := by
  rcases hs.emit_cases hroot hhides options with ⟨j, hj, hhole, he⟩ | ⟨hnone, text, htext⟩
  · exact ⟨⟨fun _ => ⟨j, hj, hhole⟩, fun _ => ⟨_, he⟩⟩, fun hnone => absurd ⟨j, hj, hhole⟩ hnone⟩
  · refine ⟨⟨fun ⟨owner, he⟩ => ?_, fun hhole => absurd hhole hnone⟩, fun _ => ⟨text, htext⟩⟩
    rw [htext] at he
    cases he

/-- Whether an arena hides anything can be read off its nodes. -/
theorem hidesNothing_of_all (h : t.nodes.toList.all (fun n =>
    Slot.all.all fun s => !(n.heads s).isSome || n.kind.writes s) = true) (root : NodeId) :
    t.HidesNothing root := by
  intro i n s _ hn hhas
  have hmem : n ∈ t.nodes.toList := Array.mem_toList_iff.2 (Array.mem_of_getElem? hn)
  have hslot := List.all_eq_true.1 (List.all_eq_true.1 h n hmem) s s.mem_all
  rw [hhas] at hslot
  exact hslot

/-- A method whose body is a hole, behind a method without a body. -/
def partlyFilled : Tree := Tree.built [.leaf .hole, .methodDecl "Run" {} [] [0],
  .methodDecl "Init" { bodied := false, modifiers := { isPartial := true } } [] [],
  .classDecl "Device" {} [] [] [2, 1] []]

/-- The class cannot be written; the method without a body can, hole or no
hole behind it. -/
theorem emit_unfilledHole_iff_partlyFilled :
    (∃ owner, partlyFilled.emit 3 {} = .error (.link (.unfilledHole owner)))
      ∧ partlyFilled.next? 2 = some 1 ∧ ∃ text, partlyFilled.emit 2 {} = .ok text := by
  have hs : partlyFilled.Sound := sound_built _
  have hhides := hidesNothing_of_all (t := partlyFilled) (by decide)
  have hbody : partlyFilled.OwnedBy 0 1 := ⟨.body, by decide⟩
  have hmethod : partlyFilled.OwnedBy 1 3 := ⟨.methods, by decide⟩
  refine ⟨(emit_unfilledHole_iff hs (by decide) (hhides 3) {}).1.2
    ⟨0, .tail (.single hbody) hmethod, by decide⟩, by decide,
    (emit_unfilledHole_iff hs (by decide) (hhides 2) {}).2 fun ⟨j, hj, hhole⟩ => ?_⟩
  -- nothing lies below the method without a body
  rcases hj.cases_tail with rfl | ⟨c, -, hc⟩
  · revert hhole
    decide
  · have hnone : partlyFilled.children 2 = [] := by decide
    have hmem := hs.mem_children_iff.2 hc
    rw [hnone] at hmem
    cases hmem

end Tree

end RegisterMap.Code
