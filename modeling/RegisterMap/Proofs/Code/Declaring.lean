/-
Public accessibility, node by node. `Proofs/Code/Publishing` says what
publishing makes of the code below a node; this says what becomes of every
single node of the arena, wherever it stands (`publish_declares`). A
declaration is given public access if it is shown, that is reached from
the root without passing a variable, parameter, method or property
(`Tree.Shows`), unless it is a method that is partial or named after an
interface. Every other node is left exactly as it is.

A property named after an interface is no exception, although it has no
more use for an accessibility than such a method
(`qualifiedProperty_published`).

The visit counts down a fuel, so it goes as far as paths of that length
lead (`Tree.Reaches`). The induction is on the fuel; what carries it is
that making a node public twice is making it public once, and that no link
depends on accessibility, so the paths are the same before and after.
-/
import RegisterMap.Code.Render
import RegisterMap.Proofs.Code.Publishing
import RegisterMap.Proofs.Code.Reaching
import RegisterMap.Proofs.Code.Subtrees

namespace RegisterMap.Code

open Relation (ReflTransGen TransGen)

-- ======================================================== declarations

namespace Kind

/-- The declaration with another accessibility. -/
def withAccess (access : Option Access) : Kind → Kind
  | .variableDecl type _ => .variableDecl type access
  | .methodDecl sig => .methodDecl { sig with access }
  | .propertyDecl sig => .propertyDecl { sig with access }
  | .classDecl sig => .classDecl { sig with access }
  | kind => kind

theorem isOpen_published (qualified : Bool) (kind : Kind) :
    (kind.published qualified).isOpen = kind.isOpen := by
  cases kind with
  | methodDecl sig =>
    unfold published
    dsimp only
    split <;> rfl
  | _ => rfl

/-- What is public is not changed again. -/
theorem published_published (qualified : Bool) (kind : Kind) :
    (kind.published qualified).published qualified = kind.published qualified := by
  cases kind with
  | methodDecl sig =>
    cases h : qualified || sig.modifiers.isPartial <;> simp [published, h]
  | _ => rfl

end Kind

namespace Node

variable {n : Node}

/-- A method that is partial or named after an interface. -/
def keepsAccess (n : Node) : Bool :=
  match n.kind with
  | .methodDecl sig => Term.qualified n.notes || sig.modifiers.isPartial
  | _ => false

/-- The node after it has been made public. -/
def declared (n : Node) : Node :=
  { n with kind := if n.keepsAccess then n.kind else n.kind.withAccess (some .pub) }

theorem declared_eq (n : Node) :
    n.declared = { n with kind := n.kind.published (Term.qualified n.notes) } := by
  unfold declared keepsAccess
  cases n.kind <;> rfl

theorem kind_declared {qualified : Bool} (h : Term.qualified n.notes = qualified) :
    n.declared.kind = n.kind.published qualified := by
  rw [declared_eq, ← h]

theorem declared_of_published (h : n.kind.published (Term.qualified n.notes) = n.kind) :
    n.declared = n := by
  rw [declared_eq, h]

theorem slots_declared (n : Node) : n.declared.kind.slots = n.kind.slots := by
  rw [declared_eq]
  exact Kind.slots_published ..

theorem isOpen_declared (n : Node) : n.declared.kind.isOpen = n.kind.isOpen := by
  rw [declared_eq]
  exact Kind.isOpen_published ..

theorem declared_declared (n : Node) : n.declared.declared = n.declared := by
  rw [declared_eq, declared_eq]
  exact congrArg (fun kind => { n with kind }) (Kind.published_published ..)

end Node

namespace Tree

variable {t t' t'' : Tree} {root i j : NodeId} {S S' : NodeId → Prop} {fuel : Nat}

-- =============================================================== paths

/-- `i` is reached from `root` without passing a variable, parameter,
method or property. -/
inductive Shows (t : Tree) (root : NodeId) : NodeId → Prop where
  | root : t.Shows root root
  | step {i j : NodeId} {n : Node} : t.Shows root i → t.node? i = some n → n.kind.isOpen = true →
      j ∈ t.children i → t.Shows root j

/-- `j` is reached from `i` so, with fewer steps than `fuel`. -/
inductive Reaches (t : Tree) : (fuel : Nat) → NodeId → NodeId → Prop where
  | here (fuel : Nat) (i : NodeId) : t.Reaches (fuel + 1) i i
  | step {fuel : Nat} {i j c : NodeId} {n : Node} : t.node? i = some n → n.kind.isOpen = true →
      c ∈ t.children i → t.Reaches fuel c j → t.Reaches (fuel + 1) i j

theorem Reaches.mono (h : t.Reaches fuel i j) {more : Nat} (hle : fuel ≤ more) :
    t.Reaches more i j := by
  induction h generalizing more with
  | here fuel i =>
    obtain ⟨more, rfl⟩ := Nat.exists_eq_succ_of_ne_zero (Nat.ne_zero_of_lt hle)
    exact .here more i
  | step hn hopen hc _ ih =>
    obtain ⟨more, rfl⟩ := Nat.exists_eq_succ_of_ne_zero (Nat.ne_zero_of_lt hle)
    exact .step hn hopen hc (ih (Nat.le_of_succ_le_succ hle))

theorem reaches_closed {n : Node} (hn : t.node? i = some n) (hclosed : n.kind.isOpen = false) :
    t.Reaches (fuel + 1) i j ↔ j = i := by
  refine ⟨fun h => ?_, fun h => h ▸ .here fuel _⟩
  cases h with
  | here => rfl
  | step hn' hopen =>
    obtain rfl := Option.some.inj (hn.symm.trans hn')
    rw [hclosed] at hopen
    cases hopen

theorem reaches_open {n : Node} (hn : t.node? i = some n) (hopen : n.kind.isOpen = true) :
    t.Reaches (fuel + 1) i j ↔ j = i ∨ ∃ c ∈ t.children i, t.Reaches fuel c j := by
  constructor
  · intro h
    cases h with
    | here => exact Or.inl rfl
    | step _ _ hc h => exact Or.inr ⟨_, hc, h⟩
  · rintro (rfl | ⟨c, hc, h⟩)
    · exact .here fuel _
    · exact .step hn hopen hc h

/-- One more step at the far end. -/
theorem Reaches.snoc {c : NodeId} {n : Node} (h : t.Reaches fuel i j) (hn : t.node? j = some n)
    (hopen : n.kind.isOpen = true) (hc : c ∈ t.children j) : t.Reaches (fuel + 1) i c := by
  induction h with
  | here fuel i => exact .step hn hopen hc (.here fuel c)
  | step hn' hopen' hc' _ ih => exact .step hn' hopen' hc' (ih hn hc)

/-- Paths depend on what is open and on the children alone. -/
theorem Reaches.congr
    (hopen : ∀ k, (t'.node? k).map (·.kind.isOpen) = (t.node? k).map (·.kind.isOpen))
    (hchildren : ∀ k, t'.children k = t.children k) (h : t.Reaches fuel i j) :
    t'.Reaches fuel i j := by
  induction h with
  | here fuel i => exact .here fuel i
  | @step fuel i j c n hn hop hc _ ih =>
    have hk := hopen i
    rw [hn, Option.map_some, hop] at hk
    obtain ⟨n', hn', hop'⟩ := Option.map_eq_some_iff.1 hk
    exact .step hn' hop' (hchildren i ▸ hc) ih

theorem Shows.trans (h : t.Shows root i) (hj : t.Reaches fuel i j) : t.Shows root j := by
  induction hj with
  | here => exact h
  | step hn hopen hc _ ih => exact ih (h.step hn hopen hc)

/-- The nodes on the way to what is shown are different ones, so there are
no more of them than the arena has. -/
theorem Sound.reaches_of_shows (hs : t.Sound) (hroot : root < t.size) (h : t.Shows root j) :
    t.Reaches t.size root j := by
  suffices ∃ path : List NodeId, path.Nodup ∧ (∀ k ∈ path, k < t.size ∧ t.Under j k)
      ∧ t.Reaches path.length root j by
    obtain ⟨path, hnodup, hpath, hreaches⟩ := this
    exact hreaches.mono (length_le_size hnodup fun k hk => (hpath k hk).1)
  induction h with
  | root =>
    exact ⟨[root], List.nodup_singleton root, by simpa using ⟨hroot, .refl⟩, .here 0 root⟩
  | @step i j n _ hn hopen hj ih =>
    obtain ⟨path, hnodup, hpath, hreaches⟩ := ih
    have hown := hs.mem_children_iff.1 hj
    have hlt : j < t.size := OwnedBy.lt_size hown
    have habove := hs.transGen_of_ownedBy hlt hown
    refine ⟨j :: path, List.nodup_cons.2 ⟨fun hmem => ?_, hnodup⟩, fun k hk => ?_,
      hreaches.snoc hn hopen hj⟩
    · exact hs.acyclic j (habove.trans_left (hpath j hmem).2)
    · rcases List.mem_cons.1 hk with rfl | hk
      · exact ⟨hlt, .refl⟩
      · exact ⟨(hpath k hk).1, habove.to_reflTransGen.trans (hpath k hk).2⟩

-- ============================================================ exposure

/-- No node has a child outside of the arena. -/
def Closed (t : Tree) : Prop := ∀ i, ∀ j ∈ t.children i, j < t.size

/-- The nodes of `S` have been made public, and that is all that has
changed. -/
def Exposes (S : NodeId → Prop) (t t' : Tree) : Prop :=
  t'.size = t.size ∧ ∀ i n, t.node? i = some n →
    (S i → t'.node? i = some n.declared) ∧ (¬ S i → t'.node? i = some n)

namespace Exposes

theorem none (t : Tree) : Exposes (fun _ => False) t t :=
  ⟨rfl, fun _ _ hn => ⟨False.elim, fun _ => hn⟩⟩

theorem congr (h : Exposes S t t') (hS : ∀ i, S i ↔ S' i) : Exposes S' t t' :=
  ⟨h.1, fun i n hn => ⟨fun hi => (h.2 i n hn).1 ((hS i).2 hi),
    fun hi => (h.2 i n hn).2 fun hi' => hi ((hS i).1 hi')⟩⟩

theorem trans (h : Exposes S t t') (h' : Exposes S' t' t'') :
    Exposes (fun i => S i ∨ S' i) t t'' := by
  refine ⟨h'.1.trans h.1, fun i n hn => ⟨fun hi => ?_, fun hi => ?_⟩⟩
  · by_cases hS : S i
    · have h₁ := (h.2 i n hn).1 hS
      by_cases hS' : S' i
      · rw [(h'.2 i _ h₁).1 hS', Node.declared_declared]
      · exact (h'.2 i _ h₁).2 hS'
    · exact (h'.2 i _ ((h.2 i n hn).2 hS)).1 (hi.resolve_left hS)
  · have h₁ := (h.2 i n hn).2 fun hS => hi (Or.inl hS)
    exact (h'.2 i n h₁).2 fun hS' => hi (Or.inr hS')

/-- Whatever is the same for a node and its public form is the same for
both arenas. -/
theorem map_node? {α : Type} (h : Exposes S t t') (f : Node → α)
    (hf : ∀ n : Node, f n.declared = f n) (i : NodeId) :
    (t'.node? i).map f = (t.node? i).map f := by
  cases hn : t.node? i with
  | none =>
    have hnone : t'.node? i = Option.none := by
      rw [node?_eq_none_iff, h.1]
      exact (node?_eq_none_iff t i).1 hn
    rw [hnone]
  | some n =>
    by_cases hS : S i
    · rw [(h.2 i n hn).1 hS, Option.map_some, Option.map_some, hf]
    · rw [(h.2 i n hn).2 hS]

theorem next?_eq (h : Exposes S t t') (i : NodeId) : t'.next? i = t.next? i := by
  have hnext : ∀ t : Tree, t.next? i = ((t.node? i).map Node.next).bind id := fun t => by
    rw [Option.bind_map]
    rfl
  rw [hnext, hnext, h.map_node? Node.next fun _ => rfl]

theorem chain_eq (h : Exposes S t t') (head : Option NodeId) : t'.chain head = t.chain head := by
  unfold Tree.chain
  rw [h.1]
  generalize t.size = fuel
  induction fuel generalizing head with
  | zero => rfl
  | succ fuel ih =>
    cases head with
    | none => rfl
    | some i => rw [chainFrom, chainFrom, h.next?_eq, ih]

theorem children_eq (h : Exposes S t t') (i : NodeId) : t'.children i = t.children i := by
  have hmap := h.map_node? (fun n => (n.kind.slots, n.heads))
    (fun n => congrArg (·, n.heads) n.slots_declared) i
  unfold Tree.children
  cases hn : t.node? i with
  | none =>
    rw [hn] at hmap
    rw [Option.map_eq_none_iff.1 hmap]
  | some n =>
    rw [hn] at hmap
    obtain ⟨n', hn', he⟩ := Option.map_eq_some_iff.1 hmap
    injection he with hslots hheads
    rw [hn']
    dsimp only
    rw [hslots, hheads]
    simp only [h.chain_eq]

theorem reaches_iff (h : Exposes S t t') : t'.Reaches fuel i j ↔ t.Reaches fuel i j := by
  have hopen := h.map_node? (·.kind.isOpen) Node.isOpen_declared
  exact ⟨.congr (fun k => (hopen k).symm) fun k => (h.children_eq k).symm,
    .congr hopen h.children_eq⟩

theorem closed (h : Exposes S t t') (hclosed : t.Closed) : t'.Closed := fun i j hj => by
  rw [h.1]
  exact hclosed i j (h.children_eq i ▸ hj)

/-- A node that is public already may be counted in. -/
theorem self {n : Node} (hn : t.node? i = some n) (hsame : n.declared = n) :
    Exposes (· = i) t t := by
  refine ⟨rfl, fun j m hm => ⟨?_, fun _ => hm⟩⟩
  rintro rfl
  obtain rfl := Option.some.inj (hn.symm.trans hm)
  rw [hsame]
  exact hm

end Exposes

end Tree

-- ============================================================== visits

namespace Edit

open RegisterMap.Code.Tree (Exposes Reaches Shows)

variable {t : Tree} {i root : NodeId} {n : Node} {fuel : Nat}

theorem publishHere_exposes (hn : t.node? i = some n) :
    ∃ t', publishHere i t = (.ok (), t') ∧ Exposes (· = i) t t' := by
  have hcheck : (do return ((← t.node i).kind, (t.name i).contains '.') : Except Failure _)
      = .ok (n.kind, Term.qualified n.notes) := by
    unfold Tree.node Tree.name
    rw [hn]
    rfl
  refine ⟨_, change_run hcheck, Tree.size_update .., fun j m hm => ?_⟩
  dsimp only
  rw [Tree.node?_setKind, hm]
  constructor
  · rintro rfl
    obtain rfl := Option.some.inj (hn.symm.trans hm)
    rw [if_pos rfl, Option.map_some, Node.declared_eq]
  · exact fun hne => if_neg fun he => hne he.symm

/-- What a visit of every node exposes, a walk along a list of nodes
exposes for all of them. -/
theorem forM_exposes (h : ∀ {t : Tree} {i}, t.Closed → i < t.size →
      ∃ t', publisher.visitFrom fuel i t = (.ok (), t') ∧ Exposes (t.Reaches fuel i) t t')
    {l : List NodeId} (hclosed : t.Closed) (hl : ∀ i ∈ l, i < t.size) :
    ∃ t', l.forM (publisher.visitFrom fuel) t = (.ok (), t')
      ∧ Exposes (fun j => ∃ i ∈ l, t.Reaches fuel i j) t t' := by
  induction l generalizing t with
  | nil => exact ⟨t, forM_nil_run .., (Exposes.none t).congr fun j => by simp⟩
  | cons i l ih =>
    obtain ⟨t₁, hrun₁, h₁⟩ := h hclosed (hl i (List.mem_cons_self ..))
    obtain ⟨t₂, hrun₂, h₂⟩ := ih (h₁.closed hclosed) fun j hj => by
      rw [h₁.1]
      exact hl j (List.mem_cons_of_mem _ hj)
    refine ⟨t₂, (forM_cons_run hrun₁).trans hrun₂, (h₁.trans h₂).congr fun j => ?_⟩
    simp [h₁.reaches_iff]

theorem walk_exposes (h : ∀ {t : Tree} {i}, t.Closed → i < t.size →
      ∃ t', publisher.visitFrom fuel i t = (.ok (), t') ∧ Exposes (t.Reaches fuel i) t t')
    (hclosed : t.Closed) (i : NodeId) :
    ∃ t', publisher.walk fuel i t = (.ok (), t')
      ∧ Exposes (fun j => ∃ c ∈ t.children i, t.Reaches fuel c j) t t' := by
  obtain ⟨t', hrun, hexposes⟩ := forM_exposes h hclosed (hclosed i)
  exact ⟨t', (bind_run (read_run rfl)).trans hrun, hexposes⟩

theorem visitFrom_eq {v : Visitor Edit} (hn : t.node? i = some n) :
    v.visitFrom (fuel + 1) i t = match v.action? n.kind.role with
      | some act => act (v.walk fuel) i t
      | none => v.walk fuel i t := by
  have hnode : t.node i = .ok n := by
    unfold Tree.node
    rw [hn]
  rw [Visitor.visitFrom_succ, bind_run (read_run hnode)]
  cases v.action? n.kind.role <;> rfl

/-- A visit makes public what it reaches, and nothing else. -/
theorem visit_exposes (fuel : Nat) {t : Tree} {i : NodeId} (hclosed : t.Closed) (hi : i < t.size) :
    ∃ t', publisher.visitFrom fuel i t = (.ok (), t') ∧ Exposes (t.Reaches fuel i) t t' := by
  induction fuel generalizing t i with
  | zero => exact ⟨t, rfl, (Exposes.none t).congr fun j => ⟨False.elim, nofun⟩⟩
  | succ fuel ih =>
    obtain ⟨n, hn⟩ := Tree.exists_node?_of_lt hi
    rw [visitFrom_eq hn]
    cases hopen : n.kind.isOpen with
    | false =>
      rw [action?_publisher hopen]
      obtain ⟨t₁, hrun, h⟩ := publishHere_exposes hn
      exact ⟨t₁, hrun, h.congr fun j => (Tree.reaches_closed hn hopen).symm⟩
    | true =>
      -- the node itself first, if it is a class, then what is below it
      suffices ∃ t₁, (match publisher.action? n.kind.role with
          | some act => act (publisher.walk fuel) i t
          | none => publisher.walk fuel i t) = publisher.walk fuel i t₁ ∧ Exposes (· = i) t t₁ by
        obtain ⟨t₁, hrun, h₁⟩ := this
        obtain ⟨t₂, hrun₂, h₂⟩ := walk_exposes ih (h₁.closed hclosed) i
        rw [hrun]
        refine ⟨t₂, hrun₂, (h₁.trans h₂).congr fun j => ?_⟩
        simp only [h₁.reaches_iff, h₁.children_eq, Tree.reaches_open hn hopen]
      cases hkind : n.kind with
      | classDecl sig =>
        obtain ⟨t₁, hrun, h₁⟩ := publishHere_exposes hn
        exact ⟨t₁, bind_run hrun, h₁⟩
      | variableDecl | paramDecl | methodDecl | propertyDecl =>
        rw [hkind] at hopen
        cases hopen
      | _ =>
        refine ⟨t, rfl, .self hn (Node.declared_of_published ?_)⟩
        rw [hkind]
        rfl

theorem reaches_iff_shows (hs : t.Sound) (hroot : root < t.size) :
    t.Reaches (t.size + 1) root i ↔ t.Shows root i :=
  ⟨Shows.trans .root, fun h => (hs.reaches_of_shows hroot h).mono (Nat.le_succ _)⟩

/-- Publishing below a node of a sound arena succeeds. Every declaration
that is shown is public afterwards, methods that keep their access apart,
and no other node is changed. -/
theorem publish_declares (hs : t.Sound) (hroot : root < t.size) :
    ∃ t', publish root t = (.ok (), t') ∧ t'.size = t.size ∧ ∀ i n, t.node? i = some n →
      (t.Shows root i → t'.node? i = some n.declared)
        ∧ (¬ t.Shows root i → t'.node? i = some n) := by
  have hclosed : t.Closed := fun i j hj => Tree.OwnedBy.lt_size (hs.mem_children_iff.1 hj)
  obtain ⟨t', hrun, h⟩ := visit_exposes (t.size + 1) hclosed hroot
  have hexposes := h.congr fun i => reaches_iff_shows hs hroot
  exact ⟨t', (Visitor.visit_eq ..).trans hrun, hexposes.1, hexposes.2⟩

/-- A class with a field, a method that has a local variable, a partial
method and a class in it. -/
def nestedClasses : Tree := Tree.built [.variableDecl "temp" .int none none,
  .methodDecl "Helper" { access := some .priv } [] [0],
  .methodDecl "Init" { modifiers := { isPartial := true } } [] [],
  .classDecl "Inner" { access := some .prot } [] [] [] [],
  .variableDecl "Ctrl" (.named "CtrlType") none (some .prot),
  .classDecl "Outer" {} [4] [] [1, 2] [3]]

/-- The local variable and the partial method are as before. -/
theorem publish_declares_nestedClasses :
    ∃ t', publish 5 nestedClasses = (.ok (), t')
      ∧ t'.kind? 0 = some (.variableDecl .int none)
      ∧ t'.kind? 1 = some (.methodDecl { access := some .pub })
      ∧ t'.kind? 2 = some (.methodDecl { modifiers := { isPartial := true } })
      ∧ t'.kind? 3 = some (.classDecl { access := some .pub })
      ∧ t'.kind? 4 = some (.variableDecl (.named "CtrlType") (some .pub)) := by
  have hs : nestedClasses.Sound := Tree.sound_built _
  obtain ⟨t', hrun, -, h⟩ := publish_declares hs (show 5 < nestedClasses.size by decide)
  have hclass : ∃ n, nestedClasses.node? 5 = some n ∧ n.kind.isOpen = true := ⟨_, rfl, rfl⟩
  obtain ⟨n, hn, hopen⟩ := hclass
  have shown : ∀ i ∈ nestedClasses.children 5, nestedClasses.Shows 5 i := fun i hi =>
    .step .root hn hopen hi
  have hidden : ¬ nestedClasses.Shows 5 0 := by
    intro h0
    cases h0 with
    | @step i _ m _ hm hmopen hmem =>
      obtain ⟨s, hs0⟩ := hs.mem_children_iff.1 hmem
      have hparent : nestedClasses.parent? 0 = some (1, .body) := by decide
      rw [hparent] at hs0
      injection hs0 with hs0
      injection hs0 with hi
      subst hi
      have hclosed : ∃ m, nestedClasses.node? 1 = some m ∧ m.kind.isOpen = false := ⟨_, rfl, rfl⟩
      obtain ⟨m', hm', hmclosed⟩ := hclosed
      obtain rfl := Option.some.inj (hm.symm.trans hm')
      rw [hmclosed] at hmopen
      cases hmopen
  have published : ∀ (i kind notes), nestedClasses.Shows 5 i →
      (nestedClasses.node? i).map (fun n => (n.kind, n.notes)) = some (kind, notes) →
      t'.kind? i = some (kind.published (Term.qualified notes)) := by
    intro i kind notes hi hnode
    obtain ⟨m, hm, he⟩ := Option.map_eq_some_iff.1 hnode
    injection he with hkind hnotes
    subst hkind hnotes
    unfold Tree.kind?
    rw [(h i m hm).1 hi, Option.map_some, Node.kind_declared rfl]
  have hhelper : Term.qualified { name := some "Helper" } = false := by simp [Term.qualified]
  have hinit : Term.qualified { name := some "Init" } = false := by simp [Term.qualified]
  refine ⟨t', hrun, ?_,
    (published 1 _ { name := some "Helper" } (shown 1 (by decide)) rfl).trans ?_,
    (published 2 _ { name := some "Init" } (shown 2 (by decide)) rfl).trans ?_,
    published 3 _ _ (shown 3 (by decide)) rfl, published 4 _ _ (shown 4 (by decide)) rfl⟩
  · unfold Tree.kind?
    rw [(h 0 _ rfl).2 hidden]
    rfl
  · rw [hhelper]
    rfl
  · rw [hinit]
    rfl

/-- A class with a property that is named after an interface. -/
def qualifiedProperty : Tree := Tree.built
  [.propertyDecl "IFoo.Bar" { type := .int, get := .auto } [] [], .classDecl "C" {} [] [0] [] []]

/-- The property is made public, name or not. -/
theorem qualifiedProperty_published :
    qualifiedProperty.Sound ∧ qualifiedProperty.kind? 1 = some (.classDecl {})
      ∧ qualifiedProperty.Shows 1 0 ∧ (qualifiedProperty.name 0).contains '.' = true
      ∧ qualifiedProperty.kind? 0 = some (.propertyDecl { type := .int, get := .auto })
      ∧ ∃ t', publish 1 qualifiedProperty = (.ok (), t')
        ∧ t'.kind? 0 = some (.propertyDecl { type := .int, get := .auto, access := some .pub })
        ∧ t'.emit 1 {}
          = .ok "public class C\n\x7b\n    public int IFoo.Bar \x7b get; \x7d\n\x7d\n" := by
  have hclass : ∃ n, qualifiedProperty.node? 1 = some n ∧ n.kind.isOpen = true := ⟨_, rfl, rfl⟩
  obtain ⟨n, hn, hopen⟩ := hclass
  have hname : qualifiedProperty.name 0 = "IFoo.Bar" := by decide
  refine ⟨Tree.sound_built _, by decide, .step .root hn hopen (by decide), by simp [hname],
    by decide, (publish 1 qualifiedProperty).2, by rfl, by decide, ?_⟩
  rfl

end Edit

end RegisterMap.Code
