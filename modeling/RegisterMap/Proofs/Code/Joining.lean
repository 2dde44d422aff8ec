/-
Operations that join the chains they are given. Such an operation is a
sequence of smaller ones (`Operation.parts`): every plain argument of a
call is wrapped, every chain is made to follow the one before it, and in
the end a node may be added that claims what has been joined. Each part
checks everything before it changes anything, but nothing is checked for
the whole: when a part fails, the parts before it have been done and stay
done (`failed_parts`). So a failed operation leaves the arena unchanged
exactly if its first part failed, and `repeatedChain_linked` is one that
does not.

What is done is never destructive (`Tree.Grows`): no node there was loses
its kind, its notes, its children, its successor or its place. It is only
that ends of chains have been continued and roots have been linked.

`Performs` describes a sequence that answers a value and `Breaks` one that
need not; both are put together from the parts in the order the sequence
goes through them.
-/
import RegisterMap.Proofs.Code.Failing
import RegisterMap.Proofs.Code.Sketching

namespace RegisterMap.Code

-- =============================================================== parts

namespace Operation

/-- Every chain is made to follow the one before it. -/
def followings (heads : List NodeId) : List Operation := heads.zipWith .extend heads.tail

/-- The arguments that have to be wrapped, and the heads of the list of
arguments that comes of it. New nodes are numbered from `next` on. -/
def wrappings (isArg : NodeId → Bool) : (next : NodeId) → List NodeId →
    List Operation × List NodeId
  | _, [] => ([], [])
  | next, value :: values =>
    if isArg value then
      let (wraps, heads) := wrappings isArg next values
      (wraps, value :: heads)
    else
      let (wraps, heads) := wrappings (fun i => i == next || isArg i) (next + 1) values
      (.arg value none false :: wraps, next :: heads)

end Operation

/-- The arguments of a call in an arena that has to be wrapped, and the
heads of the list of arguments. -/
def Tree.wrappings (t : Tree) (values : List NodeId) : List Operation × List NodeId :=
  Operation.wrappings (fun i => (t.kind? i).any Kind.isArg) t.size values

namespace Operation

/-- What an operation that joins chains does to them, one after the other. -/
def linking (t : Tree) : Operation → List Operation
  | .join heads => followings heads
  | .branch _ consequent alternative => followings consequent ++ followings alternative
  | .methodDecl _ _ params body => followings params ++ followings body
  | .propertyDecl _ _ get set => followings get ++ followings set
  | .classDecl _ _ fields properties methods classes =>
    followings fields ++ followings properties ++ followings methods ++ followings classes
  | .namespaceDecl _ classes namespaces => followings classes ++ followings namespaces
  | .call _ _ args _ | .newObject _ args =>
    (t.wrappings args).1 ++ followings (t.wrappings args).2
  | _ => []

/-- The node an operation that joins chains adds in the end. -/
def adding (t : Tree) : Operation → List Operation
  | .branch condition consequent alternative =>
    [.add .branch [(.condition, some condition), (.consequent, consequent.head?),
      (.alternative, alternative.head?)]]
  | .methodDecl _ sig params body =>
    [.add (.methodDecl sig) [(.params, params.head?), (.body, body.head?)]]
  | .propertyDecl _ sig get set =>
    [.add (.propertyDecl sig) [(.get, get.head?), (.set, set.head?)]]
  | .classDecl _ sig fields properties methods classes =>
    [.add (.classDecl sig) [(.fields, fields.head?), (.properties, properties.head?),
      (.methods, methods.head?), (.classes, classes.head?)]]
  | .namespaceDecl _ classes namespaces =>
    [.add .namespaceDecl [(.classes, classes.head?), (.namespaces, namespaces.head?)]]
  | .call method receiver args type =>
    [.add (.call method type) [(.receiver, receiver), (.args, (t.wrappings args).2.head?)]]
  | .newObject type args => [.add (.newObject type) [(.args, (t.wrappings args).2.head?)]]
  | _ => []

/-- The smaller operations that an operation that joins chains consists
of. -/
def parts (t : Tree) (op : Operation) : List Operation := op.linking t ++ op.adding t

end Operation

namespace Edit

variable {α β : Type} {t t' : Tree} {l l' : List Operation} {a : α} {b : β}

-- =========================================================== sequences

/-- Where the edit fails for its arguments, some of the parts have been
done, and the next one failed. -/
def Breaks (e : Edit α) (t : Tree) (l : List Operation) : Prop :=
  ∀ err t', e t = (.error (.link err), t') → ∃ done part rest, l = done ++ part :: rest
    ∧ done.forM Operation.edit t = (.ok (), t') ∧ part.edit t' = (.error (.link err), t')

/-- The edit does the parts one after the other and answers `a`. -/
structure Performs (e : Edit α) (t : Tree) (l : List Operation) (a : α) : Prop where
  ok : ∀ b t', e t = (.ok b, t') → b = a ∧ l.forM Operation.edit t = (.ok (), t')
  breaks : Breaks e t l

theorem performs_pure (a : α) (t : Tree) : Performs (pure a) t [] a where
  ok b t' h := by
    cases h
    exact ⟨rfl, rfl⟩
  breaks _ _ h := nomatch h

theorem Performs.bind_breaks {e : Edit α} {f : α → Edit β} (he : Performs e t l a)
    (hf : ∀ t', l.forM Operation.edit t = (.ok (), t') → Breaks (f a) t' l') :
    Breaks (e >>= f) t (l ++ l') := by
  intro err t' h
  cases hrun : e t with
  | mk r t₁ =>
    cases r with
    | error err' =>
      rw [bind_error_run hrun] at h
      cases h
      obtain ⟨done, part, rest, rfl, hdone, hpart⟩ := he.breaks err t' hrun
      exact ⟨done, part, rest ++ l', by simp, hdone, hpart⟩
    | ok b =>
      obtain ⟨rfl, hl⟩ := he.ok b t₁ hrun
      rw [bind_run hrun] at h
      obtain ⟨done, part, rest, rfl, hdone, hpart⟩ := hf t₁ hl err t' h
      exact ⟨l ++ done, part, rest, by simp, (forM_append_run hl).trans hdone, hpart⟩

theorem Performs.bind {e : Edit α} {f : α → Edit β} (he : Performs e t l a)
    (hf : ∀ t', l.forM Operation.edit t = (.ok (), t') → Performs (f a) t' l' b) :
    Performs (e >>= f) t (l ++ l') b where
  ok c t' h := by
    obtain ⟨b', t₁, hrun, hrest⟩ := exists_of_bind_run h
    obtain ⟨rfl, hl⟩ := he.ok b' t₁ hrun
    obtain ⟨rfl, hl'⟩ := (hf t₁ hl).ok c t' hrest
    exact ⟨rfl, (forM_append_run hl).trans hl'⟩
  breaks := he.bind_breaks fun t' hl => (hf t' hl).breaks

theorem Performs.map {e : Edit α} (he : Performs e t l a) (f : α → β) :
    Performs (f <$> e) t l (f a) := by
  rw [map_eq_pure_bind, ← List.append_nil l]
  exact he.bind fun t' _ => performs_pure (f a) t'

/-- A lookup does nothing, and what it may fail for is not the arguments. -/
theorem performs_read {look : Tree → Except Failure α} (hfail : ∀ err, look t ≠ .error (.link err))
    (hok : ∀ b, look t = .ok b → b = a) : Performs (read look) t [] a where
  ok b t' h := by
    cases hlook : look t with
    | error e =>
      rw [show read look t = _ from guarded_of_error hlook] at h
      cases h
    | ok c =>
      rw [read_run hlook] at h
      cases h
      exact ⟨hok b hlook, rfl⟩
  breaks err t' h := by
    cases hlook : look t with
    | error e =>
      rw [show read look t = _ from guarded_of_error hlook] at h
      cases h
      exact absurd hlook (hfail err)
    | ok c =>
      rw [read_run hlook] at h
      cases h

/-- One part that fails cleanly. -/
theorem performs_part {e : Edit α} {op : Operation} (hop : op.edit = discard e)
    (hall : AllOrNothing e t) (hok : ∀ b t', e t = (.ok b, t') → b = a) :
    Performs e t [op] a where
  ok b t' h := by
    refine ⟨hok b t' h, ?_⟩
    have hrun : op.edit t = (.ok (), t') := by
      rw [hop]
      exact map_run h
    exact forM_cons_run hrun
  breaks err t' h := by
    have hsame : t' = t := by
      have := hall.unchanged _ (congrArg Prod.fst h)
      rwa [h] at this
    subst hsame
    refine ⟨[], op, [], rfl, rfl, ?_⟩
    rw [hop]
    have hbind : (discard e : Edit PUnit) = e >>= fun _ => pure PUnit.unit := rfl
    rw [hbind, bind_error_run h]

-- ============================================================ joining

theorem node_fails {i : NodeId} {err : LinkError} : t.node i ≠ .error (.link err) := by
  unfold Tree.node
  cases t.node? i <;> exact nofun

theorem performs_lastOf (i : NodeId) (t : Tree) : Performs (lastOf i) t [] (t.last i) := by
  refine performs_read (fun err h => ?_) fun b h => ?_
  · cases hnode : t.node i with
    | error e =>
      rw [hnode] at h
      injection h with h
      exact node_fails (hnode.trans (congrArg Except.error h))
    | ok n =>
      rw [hnode] at h
      cases h
  · cases hnode : t.node i with
    | error e =>
      rw [hnode] at h
      cases h
    | ok n =>
      rw [hnode] at h
      exact (Except.ok.inj h).symm

theorem performs_extend (i other : NodeId) (t : Tree) :
    Performs (extend i other) t [.extend i other] () := by
  refine ⟨fun b t' h => ⟨rfl, forM_cons_run h⟩, fun err t' h => ?_⟩
  have hsame := (extend_allOrNothing i other t).unchanged _ (congrArg Prod.fst h)
  rw [h] at hsame
  dsimp only at hsame
  subst hsame
  exact ⟨[], _, [], rfl, rfl, h⟩

/-- Chains are linked behind the one that starts at `i`. -/
theorem performs_joinAfter (i : NodeId) (rest : List NodeId) (t : Tree) :
    Performs (lastOf i >>= fun tail => joinAfter tail rest) t
      (Operation.followings (i :: rest)) () := by
  induction rest generalizing i t with
  | nil => exact (performs_lastOf i t).bind fun t' _ => performs_pure () t'
  | cons j rest ih =>
    have hseq : (lastOf i >>= fun tail => joinAfter tail (j :: rest))
        = extend i j >>= fun _ => lastOf j >>= fun tail => joinAfter tail rest := by
      unfold extend
      rw [bind_assoc]
      rfl
    rw [hseq]
    exact (performs_extend i j t).bind fun t' _ => ih j t'

theorem performs_join (heads : List NodeId) (t : Tree) :
    Performs (join heads) t (Operation.followings heads) heads.head? := by
  cases heads with
  | nil => exact performs_pure none t
  | cons i rest =>
    have hseq : join (i :: rest)
        = (lastOf i >>= fun tail => joinAfter tail rest) >>= fun _ => pure (some i) := by
      rw [bind_assoc]
      rfl
    rw [hseq, ← List.append_nil (Operation.followings _)]
    exact (performs_joinAfter i rest t).bind fun t' _ => performs_pure (some i) t'

-- ============================================================= adding

theorem exists_of_guarded_run {check : Tree → Except Failure α} {act : α → Tree → β × Tree}
    (h : guarded check act t = (.ok b, t')) : ∃ a, check t = .ok a ∧ act a t = (b, t') := by
  cases hcheck : check t with
  | error e =>
    rw [guarded_of_error hcheck] at h
    cases h
  | ok a =>
    rw [guarded_of_ok hcheck] at h
    injection h with hb ht
    injection hb with hb
    exact ⟨a, rfl, Prod.ext hb ht⟩

/-- What adding a node amounts to. -/
theorem add_run {kind : Kind} {links : List (Slot × Option NodeId)} {i : NodeId}
    (h : add kind links t = (.ok i, t')) :
    i = t.size ∧ t.addable kind (Heads.ofList links) = .ok ()
      ∧ t' = (t.adopt kind (Heads.ofList links)).2 := by
  unfold add make at h
  obtain ⟨k, hcheck, hact⟩ := exists_of_guarded_run h
  obtain ⟨hadd, hk⟩ := Tree.check_bind_iff.1 hcheck
  obtain rfl := Except.ok.inj hk
  exact ⟨(congrArg Prod.fst hact).symm, hadd, (congrArg Prod.snd hact).symm⟩

theorem performs_add {op : Operation} {kind : Kind} {links : List (Slot × Option NodeId)}
    (hop : op.edit = discard (add kind links)) : Performs (add kind links) t [op] t.size :=
  performs_part hop (add_allOrNothing ..) fun _ _ h => (add_run h).1

/-- The name is given in the end, which no longer fails for the
arguments. -/
theorem breaks_named {build : Edit NodeId} (name : String) (h : Breaks build t l) :
    Breaks (named name build) t l := by
  intro err t' hrun
  cases hbuild : build t with
  | mk r t₁ =>
    cases r with
    | error err' =>
      unfold named at hrun
      rw [bind_error_run hbuild] at hrun
      cases hrun
      exact h err t' hbuild
    | ok i =>
      unfold named at hrun
      rw [bind_run hbuild] at hrun
      cases hnode : t₁.node i with
      | error e =>
        have hname : setName i name t₁ = (.error e, t₁) := by
          unfold setName annotate change
          exact guarded_of_error hnode
        rw [bind_error_run hname] at hrun
        cases hrun
        exact absurd hnode node_fails
      | ok n =>
        unfold setName annotate at hrun
        rw [bind_run (change_run hnode)] at hrun
        cases hrun

-- =========================================================== wrapping

theorem Performs.congr {e e' : Edit α} (h : e t = e' t) (he : Performs e' t l a) :
    Performs e t l a where
  ok b t' hrun := he.ok b t' (h ▸ hrun)
  breaks err t' hrun := he.breaks err t' (h ▸ hrun)

/-- A plain expression as an argument. -/
def asArg (value : NodeId) : Edit NodeId := do
  match (← read (·.node value)).kind with
  | .arg .. => pure value
  | _ => arg value none false

theorem arguments_eq (values : List NodeId) :
    arguments values = values.mapM asArg >>= join := rfl

theorem performs_asArg (value : NodeId) (t : Tree) :
    Performs (asArg value) t
      (if (t.kind? value).any Kind.isArg then [] else [.arg value none false])
      (if (t.kind? value).any Kind.isArg then value else t.size) := by
  cases hnode : t.node? value with
  | none =>
    have hfault : asArg value t = (.error (.fault (.outOfRange t.size value)), t) := by
      have hread : read (·.node value) t = (.error (.fault (.outOfRange t.size value)), t) := by
        refine guarded_of_error ?_
        unfold Tree.node
        rw [hnode]
      exact bind_error_run hread
    exact ⟨fun b t' h => (nomatch hfault.symm.trans h),
      fun err t' h => (nomatch hfault.symm.trans h)⟩
  | some n =>
    have hkind : t.kind? value = some n.kind := by
      unfold Tree.kind?
      rw [hnode]
      rfl
    have hread : read (·.node value) t = (.ok n, t) := read_run (by
      unfold Tree.node
      rw [hnode])
    rw [hkind, Option.any_some]
    cases hn : n.kind.isArg with
    | true =>
      refine (performs_pure value t).congr ((bind_run hread).trans ?_)
      cases hk : n.kind with
      | arg name out => rfl
      | _ =>
        rw [hk] at hn
        cases hn
    | false =>
      refine (performs_add rfl).congr ((bind_run hread).trans ?_)
      cases hk : n.kind with
      | arg name out =>
        rw [hk] at hn
        cases hn
      | _ => rfl

theorem forM_single_run {op : Operation} (h : [op].forM Operation.edit t = (.ok (), t')) :
    op.edit t = (.ok (), t') := by
  obtain ⟨⟨⟩, t₁, hrun, hnil⟩ := exists_of_bind_run h
  cases hnil
  exact hrun

theorem exists_of_discard_run {e : Edit α} (h : discard e t = (.ok (), t')) :
    ∃ a, e t = (.ok a, t') := by
  have hbind : discard e = e >>= fun _ => pure PUnit.unit := rfl
  rw [hbind] at h
  obtain ⟨a, t₁, hrun, hpure⟩ := exists_of_bind_run h
  cases hpure
  exact ⟨a, hrun⟩

/-- An argument that has been wrapped is one from then on. -/
theorem arg_run {value : NodeId}
    (h : (Operation.arg value none false).edit t = (.ok (), t')) :
    t'.size = t.size + 1
      ∧ ∀ i, (t'.kind? i).any Kind.isArg = (i == t.size || (t.kind? i).any Kind.isArg) := by
  obtain ⟨_, hadd⟩ := exists_of_discard_run h
  obtain ⟨-, -, rfl⟩ := add_run hadd
  rw [Tree.adopt_eq_claim]
  obtain ⟨hsize, hkind, -, -⟩ := Tree.claim_reads (Kind.arg none false).slots
    (t.push { kind := .arg none false, heads := _ }).2 t.size (Heads.ofList [(.value, some value)])
  refine ⟨hsize.trans (Tree.size_push ..), fun i => ?_⟩
  rw [hkind]
  unfold Tree.kind?
  rw [Tree.node?_push]
  by_cases hi : i = t.size
  · rw [if_pos hi, beq_iff_eq.2 hi]
    rfl
  · rw [if_neg hi, beq_eq_false_iff_ne.2 hi, Bool.false_or]

theorem performs_wrappings (values : List NodeId) {isArg : NodeId → Bool}
    (h : ∀ i, (t.kind? i).any Kind.isArg = isArg i) :
    Performs (values.mapM asArg) t (Operation.wrappings isArg t.size values).1
      (Operation.wrappings isArg t.size values).2 := by
  induction values generalizing t isArg with
  | nil => exact performs_pure [] t
  | cons value values ih =>
    have hstep := performs_asArg value t
    rw [h] at hstep
    rw [List.mapM_cons]
    unfold Operation.wrappings
    cases hv : isArg value with
    | true =>
      rw [hv] at hstep
      refine hstep.bind fun t' ht' => ?_
      cases ht'
      exact (ih h).map (value :: ·)
    | false =>
      rw [hv] at hstep
      refine hstep.bind fun t' ht' => ?_
      obtain ⟨hsize, hargs⟩ := arg_run (forM_single_run ht')
      rw [← hsize]
      refine (ih fun i => ?_).map (t.size :: ·)
      rw [hargs, h]

theorem performs_arguments (values : List NodeId) (t : Tree) :
    Performs (arguments values) t
      ((t.wrappings values).1 ++ Operation.followings (t.wrappings values).2)
      (t.wrappings values).2.head? := by
  rw [arguments_eq]
  exact (performs_wrappings values fun _ => rfl).bind fun t' _ => performs_join _ t'

theorem Breaks.discard {e : Edit α} (h : Breaks e t l) : Breaks (Functor.discard e) t l := by
  intro err t' hrun
  cases he : e t with
  | mk r t₁ =>
    have hbind : Functor.discard e = e >>= fun _ => pure PUnit.unit := rfl
    rw [hbind] at hrun
    cases r with
    | error err' =>
      rw [bind_error_run he] at hrun
      cases hrun
      exact h err t' he
    | ok b =>
      rw [bind_run he] at hrun
      cases hrun

open Operation in
/-- An operation that joins chains consists of its parts. -/
theorem breaks_parts (op : Operation) (hop : op.joins = true) (t : Tree) :
    Breaks op.edit t (op.parts t) := by
  have add_breaks : ∀ {kind links} (t : Tree), Breaks (add kind links) t [.add kind links] :=
    fun t => (performs_add rfl).breaks
  cases op with
  | join heads =>
    unfold parts linking adding
    rw [List.append_nil]
    exact Breaks.discard (performs_join heads t).breaks
  | branch condition consequent alternative =>
    unfold parts linking adding
    rw [List.append_assoc]
    refine Breaks.discard ((performs_join consequent t).bind_breaks fun t' _ => ?_)
    exact (performs_join alternative t').bind_breaks fun t' _ => add_breaks t'
  | methodDecl name sig params body =>
    unfold parts linking adding
    rw [List.append_assoc]
    refine Breaks.discard ((performs_join params t).bind_breaks fun t' _ => ?_)
    exact (performs_join body t').bind_breaks fun t' _ => breaks_named name (add_breaks t')
  | propertyDecl name sig get set =>
    unfold parts linking adding
    rw [List.append_assoc]
    refine Breaks.discard ((performs_join get t).bind_breaks fun t' _ => ?_)
    exact (performs_join set t').bind_breaks fun t' _ => breaks_named name (add_breaks t')
  | classDecl name sig fields properties methods classes =>
    unfold parts linking adding
    rw [List.append_assoc, List.append_assoc, List.append_assoc]
    refine Breaks.discard ((performs_join fields t).bind_breaks fun t' _ => ?_)
    refine (performs_join properties t').bind_breaks fun t' _ => ?_
    refine (performs_join methods t').bind_breaks fun t' _ => ?_
    exact (performs_join classes t').bind_breaks fun t' _ => breaks_named name (add_breaks t')
  | namespaceDecl name classes namespaces =>
    unfold parts linking adding
    rw [List.append_assoc]
    refine Breaks.discard ((performs_join classes t).bind_breaks fun t' _ => ?_)
    exact (performs_join namespaces t').bind_breaks fun t' _ => breaks_named name (add_breaks t')
  | call method receiver args type =>
    exact Breaks.discard ((performs_arguments args t).bind_breaks fun t' _ => add_breaks t')
  | newObject type args =>
    exact Breaks.discard ((performs_arguments args t).bind_breaks fun t' _ => add_breaks t')
  | _ => cases hop

end Edit

-- ============================================================== growth

/-- Nothing a node has is lost. -/
structure Node.Grows (n n' : Node) : Prop where
  kind : n'.kind = n.kind
  heads : n'.heads = n.heads
  notes : n'.notes = n.notes
  next : n.next ≠ none → n'.next = n.next
  place : n.place ≠ .root → n'.place = n.place

namespace Tree

variable {t t' t'' : Tree}

/-- Nothing any node has is lost. -/
def Grows (t t' : Tree) : Prop :=
  ∀ i n, t.node? i = some n → ∃ n', t'.node? i = some n' ∧ n.Grows n'

namespace Grows

theorem refl (t : Tree) : t.Grows t := fun _ n hn =>
  ⟨n, hn, rfl, rfl, rfl, fun _ => rfl, fun _ => rfl⟩

theorem trans (h : t.Grows t') (h' : t'.Grows t'') : t.Grows t'' := by
  intro i n hn
  obtain ⟨n', hn', hg⟩ := h i n hn
  obtain ⟨n'', hn'', hg'⟩ := h' i n' hn'
  refine ⟨n'', hn'', hg'.kind.trans hg.kind, hg'.heads.trans hg.heads, hg'.notes.trans hg.notes,
    fun hnext => ?_, fun hplace => ?_⟩
  · rw [hg'.next (hg.next hnext ▸ hnext), hg.next hnext]
  · rw [hg'.place (hg.place hplace ▸ hplace), hg.place hplace]

theorem push (t : Tree) (n : Node) : t.Grows (t.push n).2 := by
  intro i m hm
  refine ⟨m, ?_, rfl, rfl, rfl, fun _ => rfl, fun _ => rfl⟩
  rw [node?_push, if_neg (Nat.ne_of_lt (lt_size_of_node? hm)), hm]

theorem setPlace {i : NodeId} (h : t.place i = .root) (p : Place) : t.Grows (t.setPlace i p) := by
  intro j n hn
  rw [node?_setPlace]
  by_cases hij : i = j
  · subst hij
    rw [if_pos rfl, hn]
    refine ⟨_, rfl, rfl, rfl, rfl, fun _ => rfl, fun hroot => ?_⟩
    unfold Tree.place at h
    rw [hn] at h
    exact absurd h hroot
  · rw [if_neg hij]
    exact refl t j n hn

theorem setNext {i : NodeId} (h : t.next? i = none) (next : Option NodeId) :
    t.Grows (t.setNext i next) := by
  intro j n hn
  rw [node?_setNext]
  by_cases hij : i = j
  · subst hij
    rw [if_pos rfl, hn]
    refine ⟨_, rfl, rfl, rfl, rfl, fun hnext => ?_, fun _ => rfl⟩
    unfold Tree.next? at h
    rw [hn] at h
    exact absurd h hnext
  · rw [if_neg hij]
    exact refl t j n hn

/-- A linked node stays where it is. -/
theorem place_eq (h : t.Grows t') {i : NodeId} (hi : t.place i ≠ .root) :
    t'.place i = t.place i := by
  obtain ⟨n, hn⟩ := exists_node?_of_lt (lt_size_of_place hi)
  obtain ⟨n', hn', hg⟩ := h i n hn
  unfold Tree.place at hi ⊢
  rw [hn] at hi ⊢
  rw [hn']
  exact hg.place hi

/-- Chains are claimed that are unlinked and different. -/
theorem claim {slots : List Slot} {heads : Heads} {id : NodeId}
    (hfree : ∀ s ∈ slots, ∀ c, heads s = some c → t.place c = .root)
    (hdiff : slots.Pairwise fun s s' => ∀ c, heads s = some c → heads s' ≠ some c) :
    t.Grows (t.claim id heads slots) := by
  induction slots generalizing t with
  | nil => exact refl t
  | cons s slots ih =>
    obtain ⟨hhead, hrest⟩ := List.pairwise_cons.1 hdiff
    have hfree' := fun s' hs' => hfree s' (List.mem_cons_of_mem _ hs')
    unfold Tree.claim
    rw [List.foldl_cons]
    cases hc : heads s with
    | none => exact ih hfree' hrest
    | some c =>
      refine (setPlace (hfree s (List.mem_cons_self ..) c hc) _).trans (ih (fun s' hs' c' hc' => ?_)
        hrest)
      have hne : c ≠ c' := fun he => hhead s' hs' c hc (he ▸ hc')
      rw [place_setPlace, if_neg fun h => hne h.1]
      exact hfree' s' hs' c' hc'

end Grows

end Tree

namespace Edit

variable {t t' : Tree}

theorem add_grows {kind : Kind} {links : List (Slot × Option NodeId)} {i : NodeId}
    (h : add kind links t = (.ok i, t')) : t.Grows t' := by
  obtain ⟨-, hadd, rfl⟩ := add_run h
  obtain ⟨hclaim, -⟩ := Tree.check_bind_iff.1 hadd
  obtain ⟨hfree, hdiff⟩ := Tree.claimable_ok hclaim
  rw [Tree.adopt_eq_claim]
  refine (Tree.Grows.push t _).trans (.claim (fun s hs c hc => ?_) hdiff)
  rw [Tree.place_push]
  exact (hfree s hs c hc).2.1

/-- An argument holds its value, whose head was unlinked. -/
theorem arg_links {value i : NodeId} (h : arg value none false t = (.ok i, t')) :
    value < t.size ∧ t.place value = .root ∧ t'.place value ≠ .root := by
  obtain ⟨-, hadd, rfl⟩ := add_run h
  obtain ⟨hclaim, -⟩ := Tree.check_bind_iff.1 hadd
  have hhead : Heads.ofList [(.value, some value)] .value = some value := rfl
  have hmem : Slot.value ∈ (Kind.arg none false).slots := List.mem_singleton_self _
  obtain ⟨hlt, hroot, -⟩ := (Tree.claimable_ok hclaim).1 .value hmem value hhead
  have hone : ∀ s ∈ (Kind.arg none false).slots,
      Heads.ofList [(.value, some value)] s = some value → s = .value := fun s hs _ =>
    List.mem_singleton.1 hs
  refine ⟨hlt, hroot, ?_⟩
  rw [Tree.adopt_eq_claim, Tree.place_claim_of_eq hmem hhead
    (by rw [Tree.size_push]; exact Nat.lt_succ_of_lt hlt) hone]
  exact nofun

/-- A chain follows another one: its head was unlinked, and it is no
longer. -/
theorem extend_links {i other : NodeId} (h : extend i other t = (.ok (), t')) :
    t.Grows t' ∧ other < t.size ∧ t.place other = .root ∧ t'.place other ≠ .root := by
  obtain ⟨tail, t₁, hlast, hrun⟩ := exists_of_bind_run h
  obtain ⟨-, hsame⟩ := (performs_lastOf i t).ok tail t₁ hlast
  cases hsame
  unfold insertAfter change at hrun
  obtain ⟨⟨⟩, hcheck, hact⟩ := exists_of_guarded_run hrun
  obtain ⟨-, hcheck⟩ := Tree.check_bind_iff.1 hcheck
  obtain ⟨hun, hcheck⟩ := Tree.check_bind_iff.1 hcheck
  obtain ⟨-, hnext⟩ := Tree.check_bind_iff.1 hcheck
  obtain ⟨hlt, hroot⟩ := Tree.requireUnlinked_iff.1 hun
  obtain rfl := congrArg Prod.snd hact
  have hnone : t.next? tail = none := by
    cases hn : t.next? tail with
    | none => rfl
    | some m =>
      rw [hn] at hnext
      cases hnext
  show t.Grows (t.linkAfter tail other) ∧ _ ∧ _ ∧ (t.linkAfter tail other).place other ≠ .root
  unfold Tree.linkAfter
  rw [hnone]
  refine ⟨(Tree.Grows.setNext hnone _).trans (.setPlace ?_ _), hlt, hroot, ?_⟩
  · rw [Tree.place_setNext]
    exact hroot
  · rw [Tree.place_setPlace_of_lt (by simpa [Tree.followWith] using hlt), if_pos rfl]
    simp

end Edit

namespace Operation

variable {t t' : Tree} {op : Operation} {l : List Operation}

/-- A chain is linked behind another one, or into an argument. -/
def Links (op : Operation) : Prop :=
  (∃ i other, op = .extend i other) ∨ ∃ value, op = .arg value none false

theorem links_of_mem_followings {heads : List NodeId} (h : op ∈ followings heads) : op.Links := by
  cases heads with
  | nil => cases h
  | cons i rest =>
    induction rest generalizing i with
    | nil => cases h
    | cons j rest ih =>
      rcases List.mem_cons.1 h with rfl | h
      · exact Or.inl ⟨i, j, rfl⟩
      · exact ih j h

theorem links_of_mem_wrappings {isArg : NodeId → Bool} {next : NodeId} {values : List NodeId}
    (h : op ∈ (wrappings isArg next values).1) : op.Links := by
  induction values generalizing isArg next with
  | nil => cases h
  | cons value values ih =>
    unfold wrappings at h
    split at h
    · exact ih h
    · rcases List.mem_cons.1 h with rfl | h
      · exact Or.inr ⟨value, rfl⟩
      · exact ih h

/-- Nothing but links is made before the node is added. -/
theorem links_of_mem_linking {whole : Operation} (h : op ∈ whole.linking t) : op.Links := by
  unfold linking at h
  split at h
  case h_1 => exact links_of_mem_followings h
  case h_5 =>
    rcases List.mem_append.1 h with h | h
    · rcases List.mem_append.1 h with h | h
      · exact (List.mem_append.1 h).elim links_of_mem_followings links_of_mem_followings
      · exact links_of_mem_followings h
    · exact links_of_mem_followings h
  case h_7 | h_8 => exact (List.mem_append.1 h).elim links_of_mem_wrappings links_of_mem_followings
  case h_9 => cases h
  all_goals exact (List.mem_append.1 h).elim links_of_mem_followings links_of_mem_followings

/-- A link is made at a root, which is none afterwards. -/
theorem Links.run (h : op.Links) (hrun : op.edit t = (.ok (), t')) :
    t.Grows t' ∧ ∃ i < t.size, t.place i = .root ∧ t'.place i ≠ .root := by
  rcases h with ⟨i, other, rfl⟩ | ⟨value, rfl⟩
  · obtain ⟨hgrows, hlt, hroot, hlinked⟩ := Edit.extend_links hrun
    exact ⟨hgrows, other, hlt, hroot, hlinked⟩
  · obtain ⟨i, hadd⟩ := Edit.exists_of_discard_run hrun
    obtain ⟨hlt, hroot, hlinked⟩ := Edit.arg_links hadd
    exact ⟨Edit.add_grows hadd, value, hlt, hroot, hlinked⟩

theorem grows_of_links (hl : ∀ op ∈ l, op.Links) (h : l.forM Operation.edit t = (.ok (), t')) :
    t.Grows t' := by
  induction l generalizing t with
  | nil =>
    cases h
    exact .refl _
  | cons op l ih =>
    obtain ⟨⟨⟩, t₁, hrun, hrest⟩ := Edit.exists_of_bind_run h
    exact ((hl op (List.mem_cons_self ..)).run hrun).1.trans
      (ih (fun p hp => hl p (List.mem_cons_of_mem _ hp)) hrest)

/-- A link that has been made is seen at one of the nodes there were. -/
theorem changed_of_links (hl : ∀ op ∈ l, op.Links) (hne : l ≠ [])
    (h : l.forM Operation.edit t = (.ok (), t')) : ∃ i < t.size, t'.place i ≠ t.place i := by
  cases l with
  | nil => exact absurd rfl hne
  | cons op l =>
    obtain ⟨⟨⟩, t₁, hrun, hrest⟩ := Edit.exists_of_bind_run h
    obtain ⟨-, i, hi, hroot, hlinked⟩ := (hl op (List.mem_cons_self ..)).run hrun
    have hgrows := grows_of_links (fun p hp => hl p (List.mem_cons_of_mem _ hp)) hrest
    refine ⟨i, hi, ?_⟩
    rw [hgrows.place_eq hlinked, hroot]
    exact hlinked

/-- What is done before the last part fails are links. -/
theorem mem_linking_of_done {whole part : Operation} {done rest : List Operation}
    (h : whole.parts t = done ++ part :: rest) : ∀ op ∈ done, op ∈ whole.linking t := by
  have hone : (whole.adding t).length ≤ 1 := by
    unfold adding
    split <;> simp
  have hprefix : done <+: whole.linking t := by
    refine List.prefix_of_prefix_length_le ⟨part :: rest, h.symm⟩ (List.prefix_append ..) ?_
    have hlen := congrArg List.length h
    unfold parts at hlen
    rw [List.length_append, List.length_append, List.length_cons] at hlen
    omega
  exact fun op hop => hprefix.subset hop

/-- Where an operation that joins chains fails for its arguments, the parts
before the one that failed have been done and no others. No node there was
has lost anything by that, and none has changed if and only if the first
part failed. -/
theorem failed_parts (t : Tree) (op : Operation) (hop : op.joins = true) {e : LinkError}
    (h : (op.edit t).1 = .error (.link e)) :
    ∃ done part rest, op.parts t = done ++ part :: rest
      ∧ done.forM Operation.edit t = (.ok (), (op.edit t).2)
      ∧ part.edit (op.edit t).2 = (.error (.link e), (op.edit t).2)
      ∧ t.Grows (op.edit t).2
      ∧ ((∀ i < t.size, (op.edit t).2.node? i = t.node? i) ↔ done = []) := by
  obtain ⟨done, part, rest, hparts, hdone, hpart⟩ :=
    Edit.breaks_parts op hop t e (op.edit t).2 (Prod.ext h rfl)
  have hlinks : ∀ p ∈ done, p.Links := fun p hp =>
    links_of_mem_linking (mem_linking_of_done hparts p hp)
  refine ⟨done, part, rest, hparts, hdone, hpart, grows_of_links hlinks hdone, fun hsame => ?_,
    fun hnil => ?_⟩
  · by_contra hne
    obtain ⟨i, hi, hplace⟩ := changed_of_links hlinks hne hdone
    refine hplace ?_
    unfold Tree.place
    rw [hsame i hi]
  · subst hnil
    intro i _
    injection hdone with _ hsame
    rw [← hsame]

/-- Two pieces of code that are linked nowhere. -/
def looseCode : Tree := Tree.built [.leaf (.snippet "a"), .leaf (.snippet "b")]

/-- A call whose second argument is given twice: both arguments have been
wrapped when it is found out. -/
theorem failed_parts_repeatedArgument :
    let op := Operation.call "M" none [0, 1, 1] none
    op.joins = true ∧ (op.edit looseCode).1 = .error (.link (.alreadyLinked (looseCode.describe 1)))
      ∧ op.parts looseCode = [.arg 0 none false, .arg 1 none false, .arg 1 none false,
        .extend 2 3, .extend 3 4, .add (.call "M" none) [(.receiver, none), (.args, some 2)]]
      ∧ looseCode.Grows (op.edit looseCode).2
      ∧ (op.edit looseCode).2.place 0 = .slot 2 .value := by
  intro op
  have hop : op.joins = true := rfl
  have hrun : (op.edit looseCode).1 = .error (.link (.alreadyLinked (looseCode.describe 1))) := by
    decide
  obtain ⟨_, _, _, _, _, _, hgrows, _⟩ := failed_parts looseCode op hop hrun
  exact ⟨hop, hrun, by rfl, hgrows, by decide⟩

/-- A join of a chain that is given twice fails after the chain has been
linked. -/
theorem repeatedChain_linked :
    looseCode.Sound
      ∧ ((Operation.join [0, 1, 1]).edit looseCode).1
        = .error (.link (.alreadyLinked (looseCode.describe 1)))
      ∧ looseCode.next? 0 = none ∧ looseCode.place 1 = .root
      ∧ ((Operation.join [0, 1, 1]).edit looseCode).2.next? 0 = some 1
      ∧ ((Operation.join [0, 1, 1]).edit looseCode).2.place 1 = .after 0 :=
  ⟨Tree.sound_built _, by decide, by decide, by decide, by decide, by decide⟩

end Operation

end RegisterMap.Code
