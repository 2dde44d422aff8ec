/-
Every arena there can be. An arena starts out empty and is changed by
operations only: constructors of nodes, operations on links, and changes
to names, comments and docs. Whatever their order, and whether they
succeed or fail, its links agree with each other (`consistent_built`).

An operation made of several steps may fail after some of them, so what is
shown of each step is that it keeps the arena sound whatever it answers
(`Edit.Keeps`), and that goes over to every way steps are put together.
-/
import RegisterMap.Proofs.Code.Claiming
import RegisterMap.Proofs.Code.Rows

namespace RegisterMap.Code

open Relation (ReflTransGen TransGen)

-- ========================================================== operations

/-- An operation on an arena, with its arguments. -/
inductive Operation where
  | add (kind : Kind) (links : List (Slot × Option NodeId))
  | leaf (kind : Kind)
  | literal (value : Nat) (unsigned long hex : Bool)
  | reference (decl : NodeId)
  | binary (op : Operator) (lhs rhs : NodeId)
  | cond (condition consequent alternative : NodeId)
  | cast (type : TypeRef) (expr : NodeId)
  | paren (expr : NodeId)
  | assign (lhs rhs : NodeId)
  | index (object index : NodeId) (type : TypeRef)
  | member (object : NodeId) (name : String) (type : TypeRef)
  | arg (value : NodeId) (name : Option String) (out : Bool)
  | call (method : String) (receiver : Option NodeId) (args : List NodeId)
    (type : Option TypeRef)
  | newObject (type : TypeRef) (args : List NodeId)
  | newArray (element : TypeRef) (count : NodeId)
  | variableDecl (name : String) (type : TypeRef) (init : Option NodeId)
    (access : Option Access)
  | paramDecl (name : String) (type : TypeRef)
  | exprStmt (expr : NodeId)
  | returnStmt (expr : Option NodeId)
  | throwStmt (expr : NodeId)
  | branch (condition : NodeId) (consequent alternative : List NodeId)
  | methodDecl (name : String) (sig : MethodSig) (params body : List NodeId)
  | propertyDecl (name : String) (sig : PropertySig) (get set : List NodeId)
  | classDecl (name : String) (sig : ClassSig)
    (fields properties methods classes : List NodeId)
  | namespaceDecl (name : String) (classes namespaces : List NodeId)
  | annotate (i : NodeId) (f : Notes → Notes)
  | detach (i : NodeId)
  | cut (i : NodeId)
  | replace (i other : NodeId)
  | insertAfter (i other : NodeId) (insert : Bool)
  | extend (i other : NodeId)
  | join (heads : List NodeId)
  | fill (owner : NodeId) (slot : Slot) (i : NodeId)
  | pushInto (owner : NodeId) (slot : Slot) (i : NodeId)

/-- The edit an operation is; what it answers is dropped. -/
def Operation.edit : Operation → Edit Unit
  | .add kind links => discard (Edit.add kind links)
  | .leaf kind => discard (Edit.leaf kind)
  | .literal value unsigned long hex => discard (Edit.literal value unsigned long hex)
  | .reference decl => discard (Edit.reference decl)
  | .binary op lhs rhs => discard (Edit.binary op lhs rhs)
  | .cond condition consequent alternative =>
    discard (Edit.cond condition consequent alternative)
  | .cast type expr => discard (Edit.cast type expr)
  | .paren expr => discard (Edit.paren expr)
  | .assign lhs rhs => discard (Edit.assign lhs rhs)
  | .index object i type => discard (Edit.index object i type)
  | .member object name type => discard (Edit.member object name type)
  | .arg value name out => discard (Edit.arg value name out)
  | .call method receiver args type => discard (Edit.call method receiver args type)
  | .newObject type args => discard (Edit.newObject type args)
  | .newArray element count => discard (Edit.newArray element count)
  | .variableDecl name type init access => discard (Edit.variableDecl name type init access)
  | .paramDecl name type => discard (Edit.paramDecl name type)
  | .exprStmt expr => discard (Edit.exprStmt expr)
  | .returnStmt expr => discard (Edit.returnStmt expr)
  | .throwStmt expr => discard (Edit.throwStmt expr)
  | .branch condition consequent alternative =>
    discard (Edit.branch condition consequent alternative)
  | .methodDecl name sig params body => discard (Edit.methodDecl name sig params body)
  | .propertyDecl name sig get set => discard (Edit.propertyDecl name sig get set)
  | .classDecl name sig fields properties methods classes =>
    discard (Edit.classDecl name sig fields properties methods classes)
  | .namespaceDecl name classes namespaces =>
    discard (Edit.namespaceDecl name classes namespaces)
  | .annotate i f => Edit.annotate i f
  | .detach i => Edit.detach i
  | .cut i => Edit.cut i
  | .replace i other => Edit.replace i other
  | .insertAfter i other insert => Edit.insertAfter i other insert
  | .extend i other => Edit.extend i other
  | .join heads => discard (Edit.join heads)
  | .fill owner slot i => Edit.fill owner slot i
  | .pushInto owner slot i => Edit.pushInto owner slot i

/-- What a sequence of operations makes of the empty arena, the failing
ones included. -/
def Tree.built (ops : List Operation) : Tree := ops.foldl (fun t op => (op.edit t).2) {}

-- =============================================================== steps

namespace Edit

open RegisterMap.Code.Tree (Sound)

variable {α β : Type}

/-- The edit leaves a sound arena sound, whether it succeeds or fails. -/
structure Keeps (e : Edit α) : Prop where
  sound : ∀ t : Tree, t.Sound → Tree.Sound (e t).2

theorem keeps_pure (a : α) : Keeps (pure a) := ⟨fun _ h => h⟩

theorem Keeps.bind {e : Edit α} {f : α → Edit β} (he : Keeps e) (hf : ∀ a, Keeps (f a)) :
    Keeps (e >>= f) := by
  refine ⟨fun t ht => ?_⟩
  rcases bind_ends e f t with h | ⟨a, h⟩
  · rw [h]
    exact he.sound t ht
  · rw [h]
    exact (hf a).sound _ (he.sound t ht)

theorem Keeps.discard {e : Edit α} (he : Keeps e) : Keeps (Functor.discard e) := by
  have h : Functor.discard e = e >>= fun _ => pure PUnit.unit := rfl
  rw [h]
  exact he.bind fun _ => keeps_pure _

theorem keeps_guarded {check : Tree → Except Failure α} {act : α → Tree → β × Tree}
    (h : ∀ t a, t.Sound → check t = .ok a → (act a t).2.Sound) : Keeps (guarded check act) := by
  refine ⟨fun t ht => ?_⟩
  cases hc : check t with
  | error e => rwa [guarded_of_error hc]
  | ok a =>
    rw [guarded_of_ok hc]
    exact h t a ht hc

theorem keeps_read (look : Tree → Except Failure α) : Keeps (read look) :=
  keeps_guarded fun _ _ h _ => h

theorem keeps_change {check : Tree → Except Failure α} {act : α → Tree → Tree}
    (h : ∀ t a, t.Sound → check t = .ok a → (act a t).Sound) : Keeps (change check act) :=
  keeps_guarded h

theorem keeps_mapM {f : α → Edit β} (h : ∀ a, Keeps (f a)) (l : List α) :
    Keeps (l.mapM f) := by
  induction l with
  | nil => exact keeps_pure _
  | cons a l ih =>
    rw [List.mapM_cons]
    exact (h a).bind fun _ => ih.bind fun _ => keeps_pure _

-- --------------------------------------------------------------- links

theorem keeps_detach (i : NodeId) : Keeps (detach i) :=
  keeps_change fun _ _ h hc => h.unlink (Tree.lt_size_of_place (Tree.requireLinked_iff.1 hc))

theorem keeps_replace (i other : NodeId) : Keeps (replace i other) := by
  refine keeps_change fun t _ h hc => ?_
  obtain ⟨hl, hc⟩ := Tree.check_bind_iff.1 hc
  obtain ⟨hu, ha⟩ := Tree.check_bind_iff.1 hc
  have hi := Tree.requireLinked_iff.1 hl
  obtain ⟨ho, hroot⟩ := Tree.requireUnlinked_iff.1 hu
  refine h.splice hi ho (fun hup => ?_) hroot
  have hcycle := (h.wouldCycle_iff (Tree.lt_size_of_place hi) hroot ho).2 hup
  rw [Tree.requireAcyclic_iff.1 ha] at hcycle
  cases hcycle

section Cut

variable {t : Tree} {i x : NodeId}

/-- Once the siblings after a linked node are detached, nothing keeps them
from replacing it. -/
theorem replace_detached (hs : t.Sound) (hx : t.next? i = some x) (hi : t.place i ≠ .root) :
    replace i x (t.unlink x) = (.ok (), (t.unlink x).splice i x) := by
  have hxlt := hs.linked.lt_of_next hx
  have hsize : (t.unlink x).size = t.size := by simp [Tree.unlink]
  obtain ⟨hroot, hplace, hfree⟩ := hs.unlink_next hx
  refine change_run (a := ()) (Tree.check_bind_iff.2 ⟨?_, Tree.check_bind_iff.2 ⟨?_, ?_⟩⟩)
  · exact Tree.requireLinked_iff.2 (hplace ▸ hi)
  · exact Tree.requireUnlinked_iff.2 ⟨hsize ▸ hxlt, hroot⟩
  · refine Tree.requireAcyclic_iff.2 (Bool.eq_false_of_not_eq_true fun hcycle => hfree ?_)
    exact ((hs.unlink hxlt).wouldCycle_iff (hsize ▸ Tree.lt_size_of_place hi) hroot
      (hsize ▸ hxlt)).1 hcycle

theorem read_next (hi : i < t.size) :
    read (fun t => do t.require i; pure (t.next? i)) t = (.ok (t.next? i), t) := by
  refine read_run ?_
  rw [Tree.require_iff.2 hi]
  rfl

/-- In a sound arena a cut never stops half way. -/
theorem cut_ok (hs : t.Sound) (hi : i < t.size) (h : t.place i ≠ .root ∨ t.next? i ≠ none) :
    cut i t = (.ok (), t.removeAlone i) := by
  unfold cut
  rw [bind_run (read_next hi)]
  cases hx : t.next? i with
  | none =>
    have hlinked := h.resolve_right fun hne => hne hx
    refine (change_run (Tree.requireLinked_iff.2 hlinked)).trans ?_
    unfold Tree.removeAlone
    rw [hx]
  | some x =>
    have hend : change (fun _ => .ok ()) (fun _ t => t.endAt i x) t = (.ok (), t.unlink x) := by
      rw [← Tree.endAt_eq hs hx]
      exact change_run (a := ()) rfl
    rw [Tree.removeAlone_eq hx]
    refine (bind_run hend).trans ((bind_run (read_run rfl)).trans ?_)
    obtain ⟨-, hplace, -⟩ := hs.unlink_next hx
    rw [hplace]
    cases hp : t.place i with
    | root => rfl
    | slot owner s =>
      rw [if_neg (Place.noConfusion)]
      exact replace_detached hs hx (hp ▸ Place.noConfusion)
    | after p =>
      rw [if_neg (Place.noConfusion)]
      exact replace_detached hs hx (hp ▸ Place.noConfusion)

/-- A node that is not there, or that is alone, is not cut. -/
theorem cut_error (h : ¬(i < t.size ∧ (t.place i ≠ .root ∨ t.next? i ≠ none))) :
    ∃ f, cut i t = (.error f, t) := by
  unfold cut
  by_cases hi : i < t.size
  · have hnone : t.next? i = none := by
      by_contra hne
      exact h ⟨hi, Or.inr hne⟩
    rw [bind_run (read_next hi), hnone]
    cases hc : t.requireLinked i with
    | ok u => exact absurd ⟨hi, Or.inl (Tree.requireLinked_iff.1 hc)⟩ h
    | error f =>
      refine ⟨f, ?_⟩
      show detach i t = _
      unfold detach change
      exact guarded_of_error hc
  · have hread : read (fun t => do t.require i; pure (t.next? i)) t
        = (.error (.link (.unknownNode i)), t) := by
      refine guarded_of_error ?_
      unfold Tree.require
      rw [if_neg hi]
      rfl
    exact ⟨_, bind_error_run hread⟩

theorem keeps_cut (i : NodeId) : Keeps (cut i) := by
  refine ⟨fun t hs => ?_⟩
  by_cases h : i < t.size ∧ (t.place i ≠ .root ∨ t.next? i ≠ none)
  · rw [cut_ok hs h.1 h.2]
    exact hs.removeAlone h.1
  · obtain ⟨f, hf⟩ := cut_error h
    rwa [hf]

end Cut

theorem keeps_insertAfter (i other : NodeId) (insert : Bool) :
    Keeps (insertAfter i other insert) := by
  refine keeps_change fun t _ h hc => ?_
  obtain ⟨hl, hc⟩ := Tree.check_bind_iff.1 hc
  obtain ⟨hu, hc⟩ := Tree.check_bind_iff.1 hc
  have ha := (Tree.check_bind_iff.1 hc).1
  have hi := Tree.require_iff.1 hl
  obtain ⟨ho, hroot⟩ := Tree.requireUnlinked_iff.1 hu
  refine h.linkAfter ho hi hroot fun hup => ?_
  have hcycle := (h.wouldCycle_iff hi hroot ho).2 hup
  rw [Tree.requireAcyclic_iff.1 ha] at hcycle
  cases hcycle

theorem keeps_lastOf (i : NodeId) : Keeps (lastOf i) := keeps_read _

theorem keeps_extend (i other : NodeId) : Keeps (extend i other) :=
  (keeps_lastOf i).bind fun _ => keeps_insertAfter ..

theorem keeps_joinAfter (tail : NodeId) (heads : List NodeId) :
    Keeps (joinAfter tail heads) := by
  induction heads generalizing tail with
  | nil => exact keeps_pure _
  | cons i rest ih =>
    exact (keeps_insertAfter ..).bind fun _ => (keeps_lastOf i).bind fun _ => ih _

theorem keeps_join (heads : List NodeId) : Keeps (join heads) := by
  cases heads with
  | nil => exact keeps_pure _
  | cons i rest =>
    exact (keeps_lastOf i).bind fun _ => (keeps_joinAfter ..).bind fun _ => keeps_pure _

theorem keeps_fill (owner : NodeId) (slot : Slot) (i : NodeId) : Keeps (fill owner slot i) := by
  refine keeps_change fun t _ h hc => ?_
  obtain ⟨hl, hc⟩ := Tree.check_bind_iff.1 hc
  obtain ⟨hu, hc⟩ := Tree.check_bind_iff.1 hc
  have ho := Tree.require_iff.1 hl
  obtain ⟨hi, hroot⟩ := Tree.requireUnlinked_iff.1 hu
  cases hs : t.slotHead owner slot with
  | error e =>
    rw [hs] at hc
    cases hc
  | ok head =>
    rw [hs] at hc
    cases head with
    | some x => cases hc
    | none =>
      obtain ⟨hslot, hempty⟩ := Tree.slotHead_eq_ok.1 hs
      refine h.hang hi ho hroot (fun hup => ?_) hslot hempty
      have hcycle := (h.wouldCycle_iff ho hroot hi).2 hup
      rw [Tree.requireAcyclic_iff.1 hc] at hcycle
      cases hcycle

theorem keeps_pushInto (owner : NodeId) (slot : Slot) (i : NodeId) :
    Keeps (pushInto owner slot i) := by
  refine (keeps_read _).bind fun head => ?_
  cases head with
  | none => exact keeps_fill ..
  | some head => exact keeps_extend ..

theorem keeps_annotate (i : NodeId) (f : Notes → Notes) : Keeps (annotate i f) :=
  keeps_change fun _ _ h _ => h.setNotes i f

-- --------------------------------------------------------------- nodes

theorem keeps_make (kind : Tree → Except Failure Kind) (links : List (Slot × Option NodeId)) :
    Keeps (make kind links) := by
  refine keeps_guarded fun t k h hc => ?_
  cases hk : kind t with
  | error e =>
    rw [hk] at hc
    cases hc
  | ok k' =>
    rw [hk] at hc
    obtain ⟨hadd, hpure⟩ := Tree.check_bind_iff.1 hc
    injection hpure with hpure
    subst hpure
    exact h.adopt (Tree.check_bind_iff.1 hadd).1

theorem keeps_add (kind : Kind) (links : List (Slot × Option NodeId)) :
    Keeps (add kind links) := keeps_make ..

theorem keeps_leaf (kind : Kind) : Keeps (leaf kind) :=
  keeps_guarded fun _ _ h _ => h.push kind

theorem keeps_named (name : String) {build : Edit NodeId} (h : Keeps build) :
    Keeps (named name build) :=
  h.bind fun _ => (keeps_annotate ..).bind fun _ => keeps_pure _

theorem keeps_arguments (values : List NodeId) : Keeps (arguments values) := by
  refine (keeps_mapM (fun value => (keeps_read _).bind fun n => ?_) values).bind
    fun _ => keeps_join _
  split
  · exact keeps_pure _
  · exact keeps_add ..

end Edit

/-- Every operation keeps an arena sound, whether it succeeds or fails. -/
theorem Operation.keeps (op : Operation) : Edit.Keeps op.edit := by
  open Edit in
  cases op with
  | add | index | member | arg | newArray | exprStmt | returnStmt | throwStmt =>
    exact (keeps_add ..).discard
  | leaf | literal => exact (keeps_leaf _).discard
  | reference | binary | cond | cast | paren | assign => exact (keeps_make ..).discard
  | call | newObject => exact ((keeps_arguments _).bind fun _ => keeps_add ..).discard
  | variableDecl => exact (keeps_named _ (keeps_add ..)).discard
  | paramDecl => exact (keeps_named _ (keeps_leaf _)).discard
  | branch =>
    exact ((keeps_join _).bind fun _ => (keeps_join _).bind fun _ => keeps_add ..).discard
  | methodDecl | propertyDecl | namespaceDecl =>
    exact ((keeps_join _).bind fun _ => (keeps_join _).bind fun _ =>
      keeps_named _ (keeps_add ..)).discard
  | classDecl =>
    exact ((keeps_join _).bind fun _ => (keeps_join _).bind fun _ => (keeps_join _).bind
      fun _ => (keeps_join _).bind fun _ => keeps_named _ (keeps_add ..)).discard
  | annotate => exact keeps_annotate ..
  | detach => exact keeps_detach _
  | cut => exact keeps_cut _
  | replace => exact keeps_replace ..
  | insertAfter => exact keeps_insertAfter ..
  | extend => exact keeps_extend ..
  | join => exact (keeps_join _).discard
  | fill => exact keeps_fill ..
  | pushInto => exact keeps_pushInto ..

-- ======================================================== all arenas

namespace Tree

variable {t : Tree}

theorem sound_empty : Sound {} where
  linked := mutual_empty
  slotted := fun h => nomatch h
  acyclic := fun i h => by
    obtain ⟨p, hp, -⟩ := TransGen.head'_iff.1 h
    cases hp

/-- An arena that operations have made is sound. -/
theorem sound_built (ops : List Operation) : (built ops).Sound := by
  have hfold : ∀ t : Tree, t.Sound → (ops.foldl (fun t op => (op.edit t).2) t).Sound := by
    induction ops with
    | nil => exact fun _ h => h
    | cons op ops ih => exact fun t h => ih _ (op.keeps.sound t h)
  exact hfold {} sound_empty

/-- The walks from a node end by themselves, not because their fuel does:
they stop where there is no way on, and more fuel takes them no further. -/
structure WalksEnd (t : Tree) (i : NodeId) : Prop where
  first_stops : t.previous? (t.first i) = none
  last_stops : t.next? (t.last i) = none
  first : ∀ fuel, t.size ≤ fuel → t.firstFrom fuel i = t.first i
  chain : ∀ fuel, t.size ≤ fuel → t.chainFrom fuel (some i) = t.chain (some i)
  /-- The owners of a node are those a climb of any length meets; on top of
  them is an unlinked node. -/
  climb : ∀ fuel, t.size < fuel → t.lineageFrom fuel i = t.lineage i
  climb_stops : ∃ top ∈ t.lineage i, t.place top = .root

/-- All that is recorded of links fits together. -/
structure Consistent (t : Tree) : Prop where
  -- numbers
  next_lt : ∀ p x, t.next? p = some x → x < t.size
  previous_lt : ∀ x p, t.place x = .after p → p < t.size
  owner_lt : ∀ x o s, t.place x = .slot o s → o < t.size
  slot_lt : ∀ o s x, t.slotHead o s = .ok (some x) → x < t.size
  -- both ends
  after_iff : ∀ x p, t.place x = .after p ↔ t.next? p = some x
  slot_iff : ∀ x o s, t.place x = .slot o s ↔ t.slotHead o s = .ok (some x)
  root_free : ∀ x, t.place x = .root →
    (∀ p, t.next? p ≠ some x) ∧ ∀ o s, t.slotHead o s ≠ .ok (some x)
  -- no way back
  next_acyclic : ∀ i, ¬ TransGen (fun p x => t.next? p = some x) i i
  climb_acyclic : ∀ i, ¬ TransGen t.HangsFrom i i
  -- what follows for every node
  one_row : ∀ i < t.size, ∃! seat, i ∈ t.row seat ∧ (t.row seat).count i = 1
  walks_end : ∀ i < t.size, t.WalksEnd i

theorem Sound.slotHead_iff (hs : t.Sound) {o x : NodeId} {s : Slot} :
    t.slotHead o s = .ok (some x) ↔ t.place x = .slot o s := by
  rw [slotHead_eq_ok, ← hs.linked.head_iff]
  exact ⟨fun h => h.2, fun h => ⟨hs.slotted h, h⟩⟩

theorem Sound.walksEnd (hs : t.Sound) {i : NodeId} (hi : i < t.size) : t.WalksEnd i := by
  obtain ⟨-, hprev, hfirst⟩ := hs.first_path hi
  obtain ⟨-, -, hlast⟩ := hs.chain_last hi
  obtain ⟨levels, -, hmem, ⟨c, hc, htop⟩, -⟩ := hs.climb hi
  have hbound : ∀ j, some i = some j → j < t.size := fun j hj => Option.some.inj hj ▸ hi
  exact {
    first_stops := hprev
    last_stops := hlast
    first := hfirst
    chain := fun _ hf => hs.chainFrom_eq hbound hf
    climb := fun _ hf => hs.lineageFrom_eq hi hf
    climb_stops := ⟨t.first c, (hs.mem_lineage hi _).2 ⟨c, (hmem c).1 hc, Or.inr rfl⟩, htop⟩ }

theorem Sound.consistent (hs : t.Sound) : t.Consistent where
  next_lt := fun _ _ h => hs.linked.lt_of_next h
  previous_lt := fun x p h => lt_size_of_next? ((hs.linked.next_iff p x).2 h)
  owner_lt := fun x o s h => lt_size_of_head ((hs.linked.head_iff o s x).2 h)
  slot_lt := fun _ _ _ h => hs.linked.lt_of_head (slotHead_eq_ok.1 h).2
  after_iff := fun x p => (hs.linked.next_iff p x).symm
  slot_iff := fun _ _ _ => hs.slotHead_iff.symm
  root_free := fun x h => by
    refine ⟨fun p hp => ?_, fun o s hx => ?_⟩
    · cases h.symm.trans ((hs.linked.next_iff p x).1 hp)
    · cases h.symm.trans (hs.slotHead_iff.1 hx)
  next_acyclic := fun i h => by
    have hback := Relation.transGen_swap.2 h
    exact hs.acyclic i (hback.lift id fun _ _ hx => hs.linked.hangsFrom_next hx)
  climb_acyclic := hs.acyclic
  one_row := fun _ hi => hs.existsUnique_row hi
  walks_end := fun _ hi => hs.walksEnd hi

/-- Whatever sequence of operations made an arena, its links fit
together. -/
theorem consistent_built (ops : List Operation) : (built ops).Consistent :=
  (sound_built ops).consistent

end Tree

end RegisterMap.Code
