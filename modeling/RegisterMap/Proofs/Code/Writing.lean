/-
Code without holes can be written out. Its tokens are found, and they name
no node that does not exist (`tokensFrom_run`); a writer that has entered
existing namespaces only takes every such token (`consumeAll_run`). Nothing
else could go wrong, so there is a text (`emit_holeFree`).
-/
import RegisterMap.Proofs.Code.Composing
import RegisterMap.Proofs.Code.Holes
import RegisterMap.Proofs.Code.Fragments

open RegisterMap.Code.Tree (Stands)

namespace RegisterMap.Code

variable {t : Tree} {place : Place} {next : Option NodeId} {x : Planted}

-- =============================================================== tokens

namespace Token

/-- The node that the token names, if it names one, exists. -/
def Known (t : Tree) : Token → Prop
  | .nest i | .unnest i | .qualifiedName i | .enterNamespace i => i < t.size
  | _ => True

/-- So does every node named in a stream. -/
def AllKnown (t : Tree) (tokens : List Token) : Prop := ∀ token ∈ tokens, token.Known t

variable {as bs : List Token} {i : NodeId}

@[simp] theorem allKnown_nil : AllKnown t [] := fun _ h => nomatch h

@[simp] theorem allKnown_word (s : String) : AllKnown t (word s) := fun _ h =>
  List.mem_singleton.1 h ▸ trivial

@[simp] theorem allKnown_cons {token : Token} :
    AllKnown t (token :: as) ↔ token.Known t ∧ AllKnown t as := List.forall_mem_cons

@[simp] theorem allKnown_append : AllKnown t (as ++ bs) ↔ AllKnown t as ∧ AllKnown t bs :=
  List.forall_mem_append

theorem allKnown_remarks (notes : Notes) (inline : Bool) : AllKnown t (remarks notes inline) := by
  unfold remarks
  cases notes.doc <;> cases notes.comment <;> cases inline <;> simp [Known]

/-- Every node named in what a node writes exists, if it does. -/
theorem Composed.allKnown {kind : Kind} {P : List Token → Prop} (h : Composed i kind P as)
    (hi : i < t.size) (hP : ∀ bs, P bs → AllKnown t bs) : AllKnown t as :=
  h.holds allKnown_nil allKnown_word (fun ha hb => allKnown_append.2 ⟨ha, hb⟩)
    (fun ha => by simp [Known, hi, ha]) (fun hbody => by simp [headed, word, Known, hi, hbody]) hP

end Token

-- ============================================================== results

/-- There is a result, and it is as it should be. -/
def Gives {α : Type} (r : Except Failure α) (P : α → Prop) : Prop := ∃ a, r = .ok a ∧ P a

section Gives

variable {α β : Type} {P : α → Prop} {Q : β → Prop}

theorem gives_ok {a : α} (h : P a) : Gives (.ok a) P := ⟨a, rfl, h⟩

theorem gives_pure {a : α} (h : P a) : Gives (pure a) P := ⟨a, rfl, h⟩

theorem Gives.bind {r : Except Failure α} {f : α → Except Failure β} (h : Gives r P)
    (hf : ∀ a, P a → Gives (f a) Q) : Gives (r >>= f) Q := by
  obtain ⟨a, rfl, ha⟩ := h
  exact hf a ha

/-- What cannot fail gives a result. -/
theorem Ends.gives {r : Except Failure α} (h : Ends r P fun _ => False) : Gives r P := by
  cases r with
  | ok a => exact gives_ok (h.1 a rfl)
  | error e => exact (h.2 e rfl).elim

end Gives

namespace Tree

open Token (AllKnown)

/-- The tokens of standing code without holes, down to any level. -/
theorem tokensFrom_run (hs : t.Stands place next [x]) (h : x.shape.HoleFree) (fuel : Nat) :
    Ends (t.tokensFrom fuel x.tag) (AllKnown t) fun _ => False := by
  induction x using Term.ind generalizing place next fuel with
  | node id kind notes slots ih =>
    cases fuel with
    | zero => exact ends_ok Token.allKnown_nil
    | succ fuel =>
      rw [Term.shape_node] at h
      have hnode : t.node id = .ok (Term.top place next (.node id kind notes slots)).2 :=
        hs.holds.node_eq
      have hn := hs.nodup
      rw [List.flatMap_singleton] at hn
      -- what the slots hold is what the term says
      have hchain : ∀ s ∈ kind.slots, ∀ i ∈ t.chain (headsOf kind.slots slots s),
          Ends (t.tokensFrom fuel i) (AllKnown t) fun _ => False := by
        intro s hmem i hi
        have hchild : i ∈ t.children id := by
          unfold Tree.children
          rw [show t.node? id = _ from hs.holds.node?_eq]
          exact List.mem_flatMap.2 ⟨s, hmem, hi⟩
        rw [show t.children id = _ from children_of_holds hs.holds hn] at hchild
        obtain ⟨y, hy, rfl⟩ := List.mem_map.1 hchild
        obtain ⟨c, hc, hy⟩ := List.mem_flatten.1 hy
        obtain ⟨p, n, hstands⟩ := hs.child hc hy
        exact ih c hc y hy hstands
          (h.inside rfl _ (List.mem_map_of_mem hc) _ (List.mem_map_of_mem hy)) fuel
      rw [Term.tag_node, tokensFrom, hnode]
      refine (kindTokens_ends (P := AllKnown t) (E := fun _ => False) (fun hk => h.top hk)
        fun sep s hmem => ?_).bind fun tokens htokens => ends_pure ?_
      · exact (ends_mapM (hchain s hmem)).bind fun parts hparts =>
          ends_pure (Token.made_separated sep fun part hpart => .piece (hparts part hpart))
      · exact Token.allKnown_append.2 ⟨Token.allKnown_remarks _ _,
          htokens.allKnown (Tree.lt_size_of_node? hs.holds.node?_eq) fun _ hbs => hbs⟩

theorem tokens_run (hs : t.Stands place next [x]) (h : x.shape.HoleFree) :
    Gives (t.tokens x.tag) (AllKnown t) :=
  (tokensFrom_run hs h _).gives

end Tree

-- ================================================================ text

namespace Writer

/-- Every namespace that the writer is in exists. -/
def Inside (t : Tree) (w : Writer) : Prop := ∀ i ∈ w.namespaces, i < t.size

variable {w : Writer} {options : EmitOptions}

@[simp] theorem namespaces_write (s : String) : (w.write s).namespaces = w.namespaces := by
  rw [write_eq, writeChars_written]

theorem Inside.write (hw : w.Inside t) (s : String) : (w.write s).Inside t := by
  unfold Inside
  rwa [namespaces_write]

/-- Where remarks begin and end no namespace does. -/
theorem Inside.remark (hw : w.Inside t) (shown : Bool) (mark : String) (n : Nat) :
    Inside t (if shown then w.write mark else { w with suppressed := n }) := by
  cases shown
  · exact hw
  · exact hw.write mark

theorem node_gives {i : NodeId} (h : i < t.size) : Gives (t.node i) fun _ => True := by
  obtain ⟨n, hn⟩ := Tree.exists_node?_of_lt h
  unfold Tree.node
  rw [hn]
  exact gives_ok trivial

theorem consume_run {token : Token} (hw : w.Inside t) (h : token.Known t) :
    Gives (w.consume t options token) (Inside t) := by
  cases token with
  | text s =>
    refine gives_ok ?_
    split
    · exact hw.write s
    · exact hw
  | nest i =>
    refine (node_gives h).bind fun n _ => gives_pure ?_
    split <;> exact hw
  | unnest i =>
    refine (node_gives h).bind fun n _ => gives_pure ?_
    split <;> exact hw
  | inlineComments | restoreComments => exact gives_ok hw
  | commentBegin | commentEnd | docBegin | docEnd => exact gives_ok (hw.remark _ _ _)
  | qualifiedName i =>
    refine (node_gives h).bind fun n _ => ?_
    cases hhead : w.namespaces.head? with
    | none => exact gives_pure (hw.write _)
    | some context =>
      exact (node_gives (hw context (List.mem_of_mem_head? hhead))).bind fun _ _ =>
        gives_pure (hw.write _)
  | enterNamespace i => exact gives_ok (List.forall_mem_cons.2 ⟨h, hw⟩)
  | exitNamespace => exact gives_ok fun i hi => hw i (List.mem_of_mem_tail hi)

theorem consumeAll_run {tokens : List Token} (hw : w.Inside t) (h : Token.AllKnown t tokens) :
    Gives (w.consumeAll t options tokens) (Inside t) := by
  induction tokens generalizing w with
  | nil => exact gives_pure hw
  | cons token rest ih =>
    obtain ⟨htoken, hrest⟩ := Token.allKnown_cons.1 h
    rw [consumeAll_cons]
    exact (consume_run hw htoken).bind fun w' hw' => ih hw' hrest

end Writer

/-- Standing code without holes has a text. -/
theorem Tree.emit_holeFree (hs : t.Stands place next [x]) (h : x.shape.HoleFree)
    (options : EmitOptions) : ∃ text, t.emit x.tag options = .ok text := by
  have hemit : Gives (t.emit x.tag options) fun _ => True :=
    (tokens_run hs h).bind fun tokens htokens =>
      (Writer.consumeAll_run (fun _ hi => absurd hi List.not_mem_nil) htokens).bind fun _ _ =>
        gives_pure trivial
  obtain ⟨text, htext, -⟩ := hemit
  exact ⟨text, htext⟩

end RegisterMap.Code
