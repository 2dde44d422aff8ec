/-
What the tokens of a node are put together from. A node writes text, bodies
that it nests, and the tokens of its children (`Made`); a namespace writes
its header around that (`Composed`). Whatever goes wrong is an unfilled
hole, at the node itself or below it.

`kindTokens_ends` goes through the kinds once. Every property of streams
that texts, bodies and headers keep holds of the tokens of every node by
`tokensFrom_ends`, where the induction is on the levels of the tree.
-/
import RegisterMap.Proofs.Code.Subtrees
import RegisterMap.Proofs.Sequences
import RegisterMap.Code.Token

namespace RegisterMap.Code

-- ============================================================== results

/-- A result is as it should be, and a failure is one that may be. -/
def Ends {α : Type} (r : Except Failure α) (P : α → Prop) (E : Failure → Prop) : Prop :=
  (∀ a, r = .ok a → P a) ∧ ∀ e, r = .error e → E e

section Ends

variable {α β : Type} {P P' : α → Prop} {Q : β → Prop} {E E' : Failure → Prop}
  {r : Except Failure α}

theorem ends_ok {a : α} (h : P a) : Ends (.ok a) P E :=
  ⟨fun _ hb => Except.ok.inj hb ▸ h, nofun⟩

theorem ends_pure {a : α} (h : P a) : Ends (pure a) P E := ends_ok h

theorem ends_error {e : Failure} (h : E e) : Ends (.error e) P E :=
  ⟨nofun, fun _ he => Except.error.inj he ▸ h⟩

theorem Ends.bind {f : α → Except Failure β} (h : Ends r P E) (hf : ∀ a, P a → Ends (f a) Q E) :
    Ends (r >>= f) Q E := by
  cases r with
  | error e => exact ends_error (h.2 e rfl)
  | ok a => exact hf a (h.1 a rfl)

theorem Ends.imp (h : Ends r P E) (hP : ∀ a, P a → P' a) (hE : ∀ e, E e → E' e) :
    Ends r P' E' :=
  ⟨fun a ha => hP a (h.1 a ha), fun e he => hE e (h.2 e he)⟩

theorem ends_mapM {f : α → Except Failure β} {l : List α} (h : ∀ a ∈ l, Ends (f a) Q E) :
    Ends (l.mapM f) (fun bs => ∀ b ∈ bs, Q b) E := by
  induction l with
  | nil => exact ends_pure fun _ h => nomatch h
  | cons a l ih =>
    rw [List.mapM_cons]
    exact (h a (List.mem_cons_self ..)).bind fun b hb =>
      (ih fun c hc => h c (List.mem_cons_of_mem _ hc)).bind fun bs hbs =>
        ends_pure (List.forall_mem_cons.2 ⟨hb, hbs⟩)

/-- Every member of a list that is gone through has a result. -/
theorem exists_of_mapM_ok {f : α → Except Failure β} {l : List α} {bs : List β}
    (h : l.mapM f = .ok bs) : ∀ a ∈ l, ∃ b, f a = .ok b := by
  induction l generalizing bs with
  | nil => exact fun _ ha => nomatch ha
  | cons a l ih =>
    rw [List.mapM_cons] at h
    obtain ⟨b, hb, h⟩ := bind_eq_ok_iff.1 h
    obtain ⟨cs, hcs, -⟩ := bind_eq_ok_iff.1 h
    exact List.forall_mem_cons.2 ⟨⟨b, hb⟩, ih hcs⟩

end Ends

-- =============================================================== streams

namespace Token

/-- Tokens put together from texts, from pieces of the given sort, and from
bodies that node `i` nests. -/
inductive Made (i : NodeId) (P : List Token → Prop) : List Token → Prop
  | nil : Made i P []
  | text (s : String) : Made i P [.text s]
  | piece {as : List Token} : P as → Made i P as
  | append {as bs : List Token} : Made i P as → Made i P bs → Made i P (as ++ bs)
  | nested {as : List Token} : Made i P as → Made i P (.nest i :: as ++ [.unnest i])

/-- The header of a namespace with its body. -/
def headed (i : NodeId) (body : List Token) : List Token :=
  [word "namespace ", [.qualifiedName i], word "\n\x7b\n", [.enterNamespace i],
    .nest i :: body ++ [.unnest i], [.exitNamespace], word "\x7d\n"].flatten

/-- What node `i` writes beside its remarks. -/
def Composed (i : NodeId) (kind : Kind) (P : List Token → Prop) (tokens : List Token) : Prop :=
  if kind = .namespaceDecl then ∃ body, Made i P body ∧ tokens = headed i body
  else Made i P tokens

variable {i : NodeId} {P Q : List Token → Prop} {as : List Token} {parts : List (List Token)}

/-- What texts have, and appending and nesting keep, holds of a stream if
it holds of the pieces. -/
theorem Made.holds (h : Made i P as) (nil : Q []) (text : ∀ s, Q [.text s])
    (append : ∀ {as bs}, Q as → Q bs → Q (as ++ bs))
    (nested : ∀ {as}, Q as → Q (.nest i :: as ++ [.unnest i])) (piece : ∀ bs, P bs → Q bs) :
    Q as := by
  induction h with
  | nil => exact nil
  | text s => exact text s
  | piece h => exact piece _ h
  | append _ _ iha ihb => exact append iha ihb
  | nested _ ih => exact nested ih

/-- So it does of what a node writes, if headers keep it too. -/
theorem Composed.holds {kind : Kind} (h : Composed i kind P as) (nil : Q [])
    (text : ∀ s, Q [.text s]) (append : ∀ {as bs}, Q as → Q bs → Q (as ++ bs))
    (nested : ∀ {as}, Q as → Q (.nest i :: as ++ [.unnest i]))
    (header : ∀ {body}, Q body → Q (headed i body)) (piece : ∀ bs, P bs → Q bs) : Q as := by
  unfold Composed at h
  split at h
  · obtain ⟨body, hbody, rfl⟩ := h
    exact header (hbody.holds nil text append nested piece)
  · exact h.holds nil text append nested piece

theorem composed_of_made {kind : Kind} (hk : kind ≠ .namespaceDecl) (h : Made i P as) :
    Composed i kind P as := by
  unfold Composed
  rwa [if_neg hk]

@[simp] theorem made_nil : Made i P [] := .nil

@[simp] theorem made_word (s : String) : Made i P (word s) := .text s

theorem made_flatten (h : ∀ part ∈ parts, Made i P part) : Made i P parts.flatten := by
  induction parts with
  | nil => exact .nil
  | cons part rest ih =>
    obtain ⟨hpart, hrest⟩ := List.forall_mem_cons.1 h
    exact .append hpart (ih hrest)

theorem made_separated (sep : String) (h : ∀ part ∈ parts, Made i P part) :
    Made i P (separated sep parts) := by
  unfold separated
  refine made_flatten fun part hpart => ?_
  induction parts with
  | nil => cases hpart
  | cons p rest ih =>
    obtain ⟨hp, hrest⟩ := List.forall_mem_cons.1 h
    cases rest with
    | nil => exact List.mem_singleton.1 hpart ▸ hp
    | cons q rest =>
      rw [List.intersperse_cons_cons, List.mem_cons, List.mem_cons] at hpart
      rcases hpart with rfl | rfl | hpart
      · exact hp
      · exact .text sep
      · exact ih hrest hpart

theorem made_block (h : Made i P as) : Made i P (block i as) := by
  have hbody := Made.append (.text "\n\x7b\n") (h.nested.append (.text "\x7d\n"))
  simpa [block] using hbody

theorem made_accessor (keyword : String) (shape : Accessor) (multiline : Bool)
    (h : Made i P as) : Made i P (accessor i keyword shape multiline as) := by
  cases shape with
  | absent => exact .nil
  | auto => cases multiline <;> exact .text _
  | body => exact .append (.text keyword) (made_block h)

end Token

-- ================================================================= kinds

namespace Tree

open Token (Made Composed word made_flatten made_separated made_block made_accessor)

variable {t : Tree} {i : NodeId} {n : Node} {P : List Token → Prop} {E : Failure → Prop}
  {chain : (sep : String) → Slot → Except Failure (List Token)}

/-- The owner of a node, or the node itself if it has none. -/
def ownerOr (t : Tree) (i : NodeId) : NodeId := ((t.parent? i).map (·.1)).getD i

/-- A property: its accessors stand in lines of their own or in that of the
property. -/
theorem made_property (lead : String) (multiline : Bool) (get set : Accessor) {g s : List Token}
    (hg : Made i P g) (hs : Made i P s) :
    Made i P (List.flatten [word lead,
      if multiline = true then
        List.flatten [word "\n", [.nest i], List.flatten [Token.accessor i "get" get multiline g,
          Token.accessor i "set" set multiline s], [.unnest i], word "\x7d\n"]
      else List.flatten [List.flatten [Token.accessor i "get" get multiline g,
        Token.accessor i "set" set multiline s], word " \x7d\n"]]) := by
  have haccessors : Made i P (List.flatten [Token.accessor i "get" get multiline g,
      Token.accessor i "set" set multiline s]) := made_flatten (by simp [made_accessor, hg, hs])
  refine .append (.text _) (.append ?_ .nil)
  split
  · have hbody := Made.append (.text "\n") (haccessors.nested.append (.text "\x7d\n"))
    simpa [word] using hbody
  · exact .append haccessors (.append (.text _) .nil)

/-- What a node writes is composed of what the chains in its slots are. -/
theorem kindTokens_ends
    (hhole : n.kind = .hole → E (.link (.unfilledHole (t.describe (t.ownerOr i)))))
    (h : ∀ sep, ∀ s ∈ n.kind.slots, Ends (chain sep s) (Made i P) E) :
    Ends (t.kindTokens i n chain) (Composed i n.kind P) E := by
  unfold kindTokens
  cases hk : n.kind with
  | hole =>
    refine ends_error ?_
    have howner := hhole hk
    unfold ownerOr at howner
    split
    · next o s hp => rwa [hp] at howner
    · next hp => rwa [hp] at howner
  | namespaceDecl =>
    rw [hk] at h
    refine (h "\n" .classes (by simp [Kind.slots])).bind fun cs hcs =>
      (h "\n" .namespaces (by simp [Kind.slots])).bind fun ns hns => ends_pure ?_
    unfold Composed
    rw [if_pos rfl]
    refine ⟨cs ++ ((if (n.heads .classes).isSome && (n.heads .namespaces).isSome then word "\n"
      else []) ++ ns), hcs.append (Made.append ?_ hns), ?_⟩
    · split <;> simp
    · unfold Token.headed
      simp [word]
  | snippet | snippetExpr | intLit | boolLit | stringLit | varRef | self =>
    exact ends_pure (Token.composed_of_made Kind.noConfusion (.text _))
  | binary | assign | index =>
    rw [hk] at h
    refine (h "" _ (by simp [Kind.slots])).bind fun l hl =>
      (h "" _ (by simp [Kind.slots])).bind fun r hr => ends_pure ?_
    exact Token.composed_of_made Kind.noConfusion (made_flatten (by simp [hl, hr]))
  | cond =>
    rw [hk] at h
    refine (h "" _ (by simp [Kind.slots])).bind fun c hc =>
      (h "" _ (by simp [Kind.slots])).bind fun a ha =>
        (h "" _ (by simp [Kind.slots])).bind fun b hb => ends_pure ?_
    exact Token.composed_of_made Kind.noConfusion (made_flatten (by simp [hc, ha, hb]))
  | cast | paren | member | newObject | newArray | exprStmt | throwStmt =>
    rw [hk] at h
    refine (h _ _ (by simp [Kind.slots])).bind fun e he => ends_pure ?_
    exact Token.composed_of_made Kind.noConfusion (made_flatten (by simp [he]))
  | arg name out =>
    rw [hk] at h
    refine (h "" .value (by simp [Kind.slots])).bind fun e he => ends_pure ?_
    refine Token.composed_of_made Kind.noConfusion (made_flatten ?_)
    cases name <;> cases out <;> simp [he]
  | call method type =>
    rw [hk] at h
    dsimp only
    split
    · refine (h "" .receiver (by simp [Kind.slots])).bind fun r hr =>
        (h ", " .args (by simp [Kind.slots])).bind fun a ha => ends_pure ?_
      refine Token.composed_of_made Kind.noConfusion (made_flatten ?_)
      have hreceiver : Made i P [r, word "."].flatten := made_flatten (by simp [hr])
      simp only [List.forall_mem_cons]
      exact ⟨hreceiver, by simp, by simp, ha, by simp, by simp⟩
    · refine (h ", " .args (by simp [Kind.slots])).bind fun a ha => ends_pure ?_
      exact Token.composed_of_made Kind.noConfusion (made_flatten (by simp [ha]))
  | variableDecl type access =>
    rw [hk] at h
    dsimp only
    split
    · refine (h "" .init (by simp [Kind.slots])).bind fun e he => ends_pure ?_
      refine Token.composed_of_made Kind.noConfusion (made_flatten ?_)
      have hinit : Made i P [word " = ", e].flatten := made_flatten (by simp [he])
      simp only [List.forall_mem_cons]
      exact ⟨by simp, hinit, by simp, by simp⟩
    · exact ends_pure (Token.composed_of_made Kind.noConfusion (made_flatten (by simp)))
  | paramDecl type out =>
    rw [hk] at h
    have hout : Made i P (if out = true then word "out " else []) := by
      split <;> simp
    dsimp only
    split
    · refine (h "" .init (by simp [Kind.slots])).bind fun e he => ends_pure ?_
      refine Token.composed_of_made Kind.noConfusion (made_flatten ?_)
      have hinit : Made i P [word " = ", e].flatten := made_flatten (by simp [he])
      simp only [List.forall_mem_cons]
      exact ⟨hout, by simp, hinit, by simp⟩
    · exact ends_pure (Token.composed_of_made Kind.noConfusion (made_flatten (by simp [hout])))
  | returnStmt =>
    rw [hk] at h
    dsimp only
    split
    · refine (h "" .expr (by simp [Kind.slots])).bind fun e he => ends_pure ?_
      exact Token.composed_of_made Kind.noConfusion (made_flatten (by simp [he]))
    · exact ends_pure (Token.composed_of_made Kind.noConfusion (.text _))
  | branch =>
    rw [hk] at h
    refine (h "" .condition (by simp [Kind.slots])).bind fun c hc =>
      (h "" .consequent (by simp [Kind.slots])).bind fun a ha => ?_
    dsimp only
    split
    · refine (h "" .alternative (by simp [Kind.slots])).bind fun b hb => ends_pure ?_
      refine Token.composed_of_made Kind.noConfusion (made_flatten ?_)
      have helse : Made i P [word "else", Token.block i b].flatten :=
        made_flatten (by simp [made_block hb])
      simp only [List.forall_mem_cons]
      exact ⟨by simp, hc, by simp, made_block ha, helse, by simp⟩
    · exact ends_pure (Token.composed_of_made Kind.noConfusion
        (made_flatten (by simp [hc, made_block ha])))
  | methodDecl sig =>
    rw [hk] at h
    refine (h ", " .params (by simp [Kind.slots])).bind fun ps hps => ?_
    dsimp only
    split
    · refine (h "" .body (by simp [Kind.slots])).bind fun b hb => ends_pure ?_
      exact Token.composed_of_made Kind.noConfusion
        (made_flatten (by simp [hps, made_block hb]))
    · exact ends_pure (Token.composed_of_made Kind.noConfusion (made_flatten (by simp [hps])))
  | propertyDecl sig =>
    rw [hk] at h
    have hmade : ∀ g s, Made i P g → Made i P s → Composed i (.propertyDecl sig) P _ :=
      fun g s hg hs => Token.composed_of_made Kind.noConfusion
        (made_property (sig.lead (t.name i)) (sig.get == .body || sig.set == .body) sig.get sig.set
          hg hs)
    dsimp only
    split
    · refine (h "" .get (by simp [Kind.slots])).bind fun g hg => ?_
      split
      · exact (h "" .set (by simp [Kind.slots])).bind fun s hs => ends_pure (hmade g s hg hs)
      · exact ends_pure (hmade g [] hg .nil)
    · split
      · exact (h "" .set (by simp [Kind.slots])).bind fun s hs => ends_pure (hmade [] s .nil hs)
      · exact ends_pure (hmade [] [] .nil .nil)
  | classDecl sig =>
    rw [hk] at h
    have hslots : ∀ p ∈ classSections, Ends (chain p.2 p.1) (Made i P) E := fun p hmem => by
      refine h p.2 p.1 ?_
      simp only [classSections, List.mem_cons, List.not_mem_nil, or_false] at hmem
      rcases hmem with rfl | rfl | rfl | rfl <;> simp [Kind.slots]
    refine (ends_mapM fun p hp => hslots p (List.mem_filter.1 hp).1).bind
      fun sections hsections => ends_pure ?_
    refine Token.composed_of_made Kind.noConfusion ?_
    have hbody := Made.append (.text (sig.lead (t.name i))) (Made.append (.text "\n\x7b\n")
      ((made_separated "\n" hsections).nested.append (.text "\x7d\n")))
    simpa [word] using hbody

-- ================================================================= nodes

/-- A property of streams holds of the tokens of every node if it goes over
from the children of a node to the node; so does the reason of a failure. -/
theorem tokensFrom_ends {Q : NodeId → List Token → Prop} {E : NodeId → Failure → Prop}
    (bottom : ∀ i, Q i [])
    (missing : ∀ i, t.size ≤ i → E i (.fault (.outOfRange t.size i)))
    (hole : ∀ i, t.kind? i = some .hole → E i (.link (.unfilledHole (t.describe (t.ownerOr i)))))
    (below : ∀ i, ∀ c ∈ t.children i, ∀ e, E c e → E i e)
    (node : ∀ i n tokens, t.node? i = some n →
      Composed i n.kind (fun as => ∃ c ∈ t.children i, Q c as) tokens →
      Q i (Token.remarks n.notes (n.kind.exprType.isSome || n.kind == .self) ++ tokens))
    (fuel : Nat) (i : NodeId) : Ends (t.tokensFrom fuel i) (Q i) (E i) := by
  induction fuel generalizing i with
  | zero => exact ends_ok (bottom i)
  | succ fuel ih =>
    rw [tokensFrom]
    unfold Tree.node
    cases hn : t.node? i with
    | none => exact ends_error (missing i ((t.node?_eq_none_iff i).1 hn))
    | some n =>
      refine (kindTokens_ends (n := n) (E := E i) (fun hk => hole i ?_) fun sep s hs => ?_).bind
        fun tokens htokens => ends_pure (node i n tokens hn htokens)
      · unfold Tree.kind?
        rw [hn, Option.map_some, hk]
      · -- every member of the chain is a child
        have hchain : ∀ c ∈ t.chain (n.heads s), Ends (t.tokensFrom fuel c)
            (fun as => ∃ c ∈ t.children i, Q c as) (E i) := fun c hc => by
          have hchild : c ∈ t.children i := by
            unfold Tree.children
            rw [hn]
            exact List.mem_flatMap.2 ⟨s, hs, hc⟩
          exact (ih c).imp (fun as has => ⟨c, hchild, has⟩) (below i c hchild)
        exact (ends_mapM hchain).bind fun parts hparts =>
          ends_pure (made_separated sep fun part hpart => .piece (hparts part hpart))

/-- So it holds of the tokens of a node, whatever a failure would be. -/
theorem tokens_holds {Q : NodeId → List Token → Prop} {root : NodeId} {tokens : List Token}
    (bottom : ∀ i, Q i [])
    (node : ∀ i n tokens, t.node? i = some n →
      Composed i n.kind (fun as => ∃ c ∈ t.children i, Q c as) tokens →
      Q i (Token.remarks n.notes (n.kind.exprType.isSome || n.kind == .self) ++ tokens))
    (h : t.tokens root = .ok tokens) : Q root tokens :=
  (tokensFrom_ends (E := fun _ _ => True) bottom (fun _ _ => trivial) (fun _ _ => trivial)
    (fun _ _ _ _ _ => trivial) node (t.size + 1) root).1 tokens h

end Tree

end RegisterMap.Code
