/-
Phrases in the arena. `Term.Forms` says that code is a phrase: operations,
accesses and calls with exactly one operand in each slot, over leaves.
Written out, it gives the characters of the phrase (`emit_phrase`), since
every piece of a phrase is text and remarks are held back.
-/
import RegisterMap.Proofs.Syntax.Phrase
import RegisterMap.Proofs.Code.Wrapping
import RegisterMap.Proofs.Code.Fragments

namespace RegisterMap.Code

/-- The text of a leaf, where declarations are named as given. -/
def Kind.leafText? (name : NodeId → String) : Kind → Option String
  | .snippet code | .snippetExpr code _ => some code
  | .intLit value type hex => some (Literal.integer value type hex)
  | .boolLit value => some (if value then "true" else "false")
  | .stringLit value => some (Literal.string value)
  | .varRef decl _ => some (name decl)
  | .self => some "this"
  | _ => none

/-- No remark of a node is written. -/
def EmitOptions.Omits (options : EmitOptions) (notes : Notes) : Prop :=
  (options.comments = true → notes.comment = none) ∧ (options.docs = true → notes.doc = none)

theorem omits_plain : ({} : EmitOptions).Omits {} := ⟨fun _ => rfl, fun _ => rfl⟩

/-- The code is the phrase, and its remarks are as they may be. -/
inductive Term.Forms (name : NodeId → String) (may : Notes → Prop) :
    {s : Part} → List Shape → Phrase s → Prop
  | word {kind notes text} : may notes → kind.leafText? name = some text →
    Forms name may [.node () kind notes []] (.word text)
  | binary {op type notes xs ys l r} : may notes → Forms name may xs l → Forms name may ys r →
    Forms name may [.node () (.binary op type) notes [xs, ys]] (.binary op l r)
  | cond {type notes xs ys zs c a b} : may notes → Forms name may xs c → Forms name may ys a →
    Forms name may zs b → Forms name may [.node () (.cond type) notes [xs, ys, zs]] (.cond c a b)
  | cast {type notes xs e} : may notes → Forms name may xs e →
    Forms name may [.node () (.cast type) notes [xs]] (.cast type.text e)
  | paren {type notes xs e} : may notes → Forms name may xs e →
    Forms name may [.node () (.paren type) notes [xs]] (.paren e)
  | member {member type notes xs e} : may notes → Forms name may xs e →
    Forms name may [.node () (.member member type) notes [xs]] (.member e member)
  | item {type notes xs ys e i} : may notes → Forms name may xs e → Forms name may ys i →
    Forms name may [.node () (.index type) notes [xs, ys]] (.item e i)
  | array {element notes xs n} : may notes → Forms name may xs n →
    Forms name may [.node () (.newArray element) notes [xs]] (.array element.text n)
  | function {method type notes xs args} : may notes → Forms name may xs args →
    Forms name may [.node () (.call method type) notes [[], xs]] (.call (.function method) args)
  | creation {type notes xs args} : may notes → Forms name may xs args →
    Forms name may [.node () (.newObject type) notes [xs]] (.call (.creation type.text) args)
  | send {method type notes xs ys e args} : may notes → Forms name may xs e →
    Forms name may ys args →
    Forms name may [.node () (.call method type) notes [xs, ys]] (.send e method args)
  | none : Forms name may [] .none
  | more {label out notes xs ys init e} : may notes → Forms name may xs init →
    Forms name may ys e →
    Forms name may (xs ++ [.node () (.arg label out) notes [ys]]) (.more init label out e)

namespace Term

variable {name : NodeId → String} {may : Notes → Prop} {xs : List Shape} {e : Phrase .operand}

/-- An operand is a single piece of code. -/
theorem Forms.exists_eq (h : Forms name may xs e) : ∃ x, xs = [x] := by
  cases h <;> exact ⟨_, rfl⟩

theorem Forms.eq_nil_iff {args : Phrase .arguments} (h : Forms name may xs args) :
    xs = [] ↔ args = .none := by
  cases h with
  | none => exact iff_of_true rfl rfl
  | more => exact iff_of_false (List.append_ne_nil_of_right_ne_nil _ (List.cons_ne_nil _ _)) nofun

/-- Tags are nothing to what code denotes. -/
theorem shape_eq_node {y : Planted} {kind : Kind} {notes : Notes} {slots : List (List Shape)}
    (h : y.shape = .node () kind notes slots) : ∃ slots', y = .node y.tag kind notes slots'
      ∧ slots'.map (List.map shape) = slots := by
  cases y with
  | node id k n s =>
    rw [shape_node] at h
    cases h
    exact ⟨s, rfl, rfl⟩

section

variable {slots : List (List Planted)} {ys zs : List Shape}

theorem chains_one (h : slots.map (List.map shape) = [xs]) :
    ∃ c, slots = [c] ∧ c.map shape = xs := by
  obtain ⟨c, rest, rfl, hc, hrest⟩ := List.map_eq_cons_iff.1 h
  exact ⟨c, by rw [List.map_eq_nil_iff.1 hrest], hc⟩

theorem chains_two (h : slots.map (List.map shape) = [xs, ys]) :
    ∃ c d, slots = [c, d] ∧ c.map shape = xs ∧ d.map shape = ys := by
  obtain ⟨c, rest, rfl, hc, hrest⟩ := List.map_eq_cons_iff.1 h
  obtain ⟨d, rfl, hd⟩ := chains_one hrest
  exact ⟨c, d, rfl, hc, hd⟩

theorem chains_three (h : slots.map (List.map shape) = [xs, ys, zs]) :
    ∃ c d f, slots = [c, d, f] ∧ c.map shape = xs ∧ d.map shape = ys ∧ f.map shape = zs := by
  obtain ⟨c, rest, rfl, hc, hrest⟩ := List.map_eq_cons_iff.1 h
  obtain ⟨d, f, rfl, hd, hf⟩ := chains_two hrest
  exact ⟨c, d, f, rfl, hc, hd, hf⟩

end

end Term

-- =============================================================== writing

namespace Writer

variable {t : Tree} {options : EmitOptions} {as bs : List Token} {cs ds : List Char}

/-- The tokens put down the characters as they are, on a line that is not
indented and outside of remarks that are held back. -/
def Puts (t : Tree) (options : EmitOptions) (tokens : List Token) (cs : List Char) : Prop :=
  ∀ w : Writer, w.indent = 0 → w.suppressed = 0 →
    w.consumeAll t options tokens = .ok { w with written := cs.reverse ++ w.written }

theorem puts_nil (t : Tree) (options : EmitOptions) : Puts t options [] [] := fun _ _ _ => rfl

theorem Puts.append (h : Puts t options as cs) (h' : Puts t options bs ds) :
    Puts t options (as ++ bs) (cs ++ ds) := by
  intro w hi hs
  rw [consumeAll_append, h w hi hs]
  refine (h' { w with written := cs.reverse ++ w.written } hi hs).trans ?_
  rw [List.reverse_append, List.append_assoc]

theorem writeChars_eq (w : Writer) (hi : w.indent = 0) (cs : List Char) :
    w.writeChars cs = { w with written := cs.reverse ++ w.written } := by
  induction cs generalizing w with
  | nil => rfl
  | cons c cs ih =>
    have hput : w.put c = { w with written := c :: w.written } := by
      unfold put
      rw [hi, Nat.mul_zero, ite_self]
      rfl
    show (w.put c).writeChars cs = _
    rw [hput, List.reverse_cons, List.append_assoc]
    exact ih { w with written := c :: w.written } hi

theorem puts_word (t : Tree) (options : EmitOptions) (text : String) :
    Puts t options (Token.word text) text.toList := by
  intro w hi hs
  show (Except.ok (if w.suppressed = 0 then w.write text else w) >>= pure) = _
  rw [if_pos hs]
  exact congrArg Except.ok ((w.write_eq text).trans (w.writeChars_eq hi _))

theorem puts_between (t : Tree) (options : EmitOptions) (lead text trail : String) :
    Puts t options (Token.word (lead ++ text ++ trail))
      (lead.toList ++ (text.toList ++ trail.toList)) := by
  have h := puts_word t options (lead ++ text ++ trail)
  rwa [String.toList_append, String.toList_append, List.append_assoc] at h

/-- A doc that is not written leaves nothing. -/
theorem puts_doc (t : Tree) (h : options.docs = false) (doc : String) :
    Puts t options [.docBegin, .text doc, .docEnd] [] := by
  obtain ⟨comments, docs⟩ := options
  obtain rfl : docs = false := h
  exact fun _ _ _ => rfl

theorem puts_comment (t : Tree) (h : options.comments = false) (comment : String) :
    Puts t options [.commentBegin, .text comment, .commentEnd] [] := by
  obtain ⟨comments, docs⟩ := options
  obtain rfl : comments = false := h
  exact fun _ _ _ => rfl

theorem puts_inline (t : Tree) (h : options.comments = false) (comment : String) :
    Puts t options
      (.inlineComments :: [.commentBegin, .text comment, .commentEnd] ++ [.restoreComments])
      [] := by
  obtain ⟨comments, docs⟩ := options
  obtain rfl : comments = false := h
  exact fun _ _ _ => rfl

/-- Remarks that are not written leave nothing. -/
theorem puts_remarks {notes : Notes} (h : options.Omits notes) (t : Tree) (inline : Bool) :
    Puts t options (Token.remarks notes inline) [] := by
  obtain ⟨hcomment, hdoc⟩ := h
  unfold Token.remarks
  rw [← List.append_nil ([] : List Char)]
  refine Puts.append ?_ ?_
  · cases hn : notes.doc with
    | none => exact puts_nil t options
    | some doc =>
      refine puts_doc t (Bool.eq_false_iff.2 fun hd => ?_) doc
      rw [hdoc hd] at hn
      cases hn
  · cases hn : notes.comment with
    | none =>
      rw [Option.isSome_none, Bool.and_false]
      exact puts_nil t options
    | some comment =>
      have hoff : options.comments = false := Bool.eq_false_iff.2 fun hc => by
        rw [hcomment hc] at hn
        cases hn
      cases inline with
      | false => exact puts_comment t hoff comment
      | true => exact puts_inline t hoff comment

end Writer

-- =============================================================== phrases

theorem Token.separated_append (sep : String) (parts : List (List Token)) (p : List Token) :
    separated sep (parts ++ [p])
      = separated sep parts ++ ((if parts = [] then [] else [.text sep]) ++ p) := by
  induction parts with
  | nil => simp [separated]
  | cons a rest ih =>
    cases rest with
    | nil => simp [separated]
    | cons b rest =>
      have hstep : ∀ l : List (List Token),
          separated sep (a :: b :: l) = a ++ (.text sep :: separated sep (b :: l)) := fun _ => rfl
      rw [List.cons_append, List.cons_append, hstep, ← List.cons_append, ih, hstep]
      simp

namespace Tree

open Writer (Puts)
open Token (word)

variable {t : Tree} {place : Place} {next : Option NodeId} {options : EmitOptions} {sep : String}
  {ys : List Planted} {y z : Planted} {cs ds : List Char} {s : Part}

/-- The tokens of a node put down the characters, from as many levels on as
there are nodes. -/
def Written (t : Tree) (options : EmitOptions) (y : Planted) (cs : List Char) : Prop :=
  ∀ place next fuel, t.HoldsChain place next [y] → y.tags.Nodup → y.tags.length ≤ fuel →
    ∃ tokens, t.tokensFrom fuel y.tag = .ok tokens ∧ Puts t options tokens cs

/-- The tokens of a chain, with `sep` in between, put down the
characters. -/
def WrittenChain (t : Tree) (options : EmitOptions) (sep : String) (ys : List Planted)
    (cs : List Char) : Prop :=
  ∀ place next fuel, t.HoldsChain place next ys → (ys.flatMap Term.tags).Nodup →
    (ys.flatMap Term.tags).length ≤ fuel →
    ∃ parts, (ys.map Term.tag).mapM (t.tokensFrom fuel) = .ok parts ∧ parts.length = ys.length
      ∧ Puts t options (Token.separated sep parts) cs

/-- A node alone is written as itself, whatever would stand in between. -/
theorem Written.chain (h : t.Written options y cs) (sep : String) :
    t.WrittenChain options sep [y] cs := by
  intro place next fuel hheld hnodup hfuel
  rw [List.flatMap_singleton] at hnodup hfuel
  obtain ⟨tokens, hrun, hputs⟩ := h place next fuel hheld hnodup hfuel
  refine ⟨[tokens], ?_, rfl, ?_⟩
  · rw [List.map_singleton, List.mapM_cons, hrun]
    rfl
  · show Puts t options (tokens ++ []) cs
    rwa [List.append_nil]

theorem writtenChain_nil (t : Tree) (options : EmitOptions) (sep : String) :
    t.WrittenChain options sep [] [] := fun _ _ _ _ _ _ =>
  ⟨[], rfl, rfl, Writer.puts_nil t options⟩

/-- One more node behind a chain. -/
theorem WrittenChain.snoc (h : t.WrittenChain options sep ys cs) (hz : t.Written options z ds) :
    t.WrittenChain options sep (ys ++ [z])
      (cs ++ ((if ys = [] then [] else sep.toList) ++ ds)) := by
  intro place next fuel hheld hnodup hfuel
  rw [holdsChain_append] at hheld
  rw [List.flatMap_append, List.flatMap_singleton] at hnodup hfuel
  rw [List.length_append] at hfuel
  obtain ⟨parts, hparts, hlen, hputs⟩ := h _ _ fuel hheld.1 (List.nodup_append.1 hnodup).1
    (Nat.le_trans (Nat.le_add_right ..) hfuel)
  obtain ⟨tokens, htokens, hzputs⟩ := hz _ _ fuel hheld.2 (List.nodup_append.1 hnodup).2.1
    (Nat.le_trans (Nat.le_add_left ..) hfuel)
  refine ⟨parts ++ [tokens], ?_, ?_, ?_⟩
  · rw [List.map_append, List.map_singleton, List.mapM_append, hparts, List.mapM_cons, htokens]
    rfl
  · rw [List.length_append, List.length_append, hlen]
    rfl
  · have hempty : parts = [] ↔ ys = [] := by
      rw [← List.length_eq_zero_iff, hlen, List.length_eq_zero_iff]
    rw [Token.separated_append]
    refine hputs.append (Puts.append ?_ hzputs)
    simp only [hempty]
    split
    · exact Writer.puts_nil t options
    · exact Writer.puts_word t options sep

/-- What a node puts down is what its kind does, given what the chains in
its slots do. -/
theorem written_chains {id : NodeId} {kind : Kind} {notes : Notes} {slots : List (List Planted)}
    (hnotes : options.Omits notes)
    (h : ∀ (n : Node) (chain : String → Slot → Except Failure (List Token)), n.kind = kind →
      n.heads = headsOf kind.slots slots →
      (∀ s c sep ds, (s, c) ∈ kind.slots.zip slots → t.WrittenChain options sep c ds →
        ∃ tokens, chain sep s = .ok tokens ∧ Puts t options tokens ds) →
      ∃ tokens, t.kindTokens id n chain = .ok tokens ∧ Puts t options tokens cs) :
    t.Written options (.node id kind notes slots) cs := by
  intro place next fuel hheld hnodup hfuel
  obtain ⟨-, htop, hslots⟩ := holdsChain_singleton.1 hheld
  have hnode : t.node id = .ok (Term.top place next (.node id kind notes slots)).2 :=
    hheld.node_eq
  cases fuel with
  | zero =>
    rw [Term.tags_node, List.length_cons] at hfuel
    exact absurd hfuel (Nat.not_succ_le_zero _)
  | succ fuel =>
    obtain ⟨tokens, hrun, hputs⟩ := h (Term.top place next (.node id kind notes slots)).2
      (fun sep slot => do
        return Token.separated sep
          (← (t.chain (headsOf kind.slots slots slot)).mapM (t.tokensFrom fuel)))
      rfl rfl fun s c sep ds hsc hc => by
        have hmem : c ∈ slots := (List.of_mem_zip hsc).2
        have hsub : (c.flatMap Term.tags).Sublist (slots.flatten.flatMap Term.tags) :=
          (List.sublist_flatten_of_mem hmem).flatMap Term.tags
        have hcnodup : (c.flatMap Term.tags).Nodup := nodup_slot hnodup hmem
        have hcheld : t.HoldsChain (.slot id s) none c := hslots _ hsc
        obtain ⟨parts, hparts, -, hcputs⟩ := hc _ _ fuel hcheld hcnodup (by
          rw [Term.tags_node, List.length_cons] at hfuel
          have := hsub.length_le
          omega)
        refine ⟨Token.separated sep parts, ?_, hcputs⟩
        rw [headsOf_of_mem kind.nodup_slots hsc, chain_of_holds hcheld hcnodup, hparts]
        rfl
    refine ⟨Token.remarks notes (kind.exprType.isSome || kind == .self) ++ tokens, ?_,
      (Writer.puts_remarks hnotes t _).append hputs⟩
    rw [Term.tag_node, tokensFrom, hnode]
    show (t.kindTokens id _ _ >>= fun tokens => pure (Token.remarks _ _ ++ tokens)) = _
    refine (congrArg (· >>= _) hrun).trans rfl

/-- What a node of an expression puts down is what its kind does, given
what the operands in its slots do. -/
theorem written_node {id : NodeId} {kind : Kind} {notes : Notes} {slots : List (List Planted)}
    (hnotes : options.Omits notes)
    (h : ∀ (n : Node) (one : String → Slot → Except Failure (List Token)), n.kind = kind →
      (∀ s z ds, (s, [z]) ∈ kind.slots.zip slots → t.Written options z ds →
        ∃ tokens, one "" s = .ok tokens ∧ Puts t options tokens ds) →
      ∃ tokens, t.kindTokens id n one = .ok tokens ∧ Puts t options tokens cs) :
    t.Written options (.node id kind notes slots) cs :=
  written_chains hnotes fun n one hkind _ hone =>
    h n one hkind fun s z ds hsz hz => hone s [z] "" ds hsz (hz.chain "")

theorem written_leaf {id : NodeId} {kind : Kind} {notes : Notes} {text : String}
    (hnotes : options.Omits notes) (h : kind.leafText? t.name = some text) :
    t.Written options (.node id kind notes []) text.toList := by
  refine written_node hnotes fun n one hkind _ => ⟨word text, ?_, Writer.puts_word t options text⟩
  unfold kindTokens
  rw [hkind]
  cases kind <;> first | cases h; rfl | cases h

variable {id : NodeId} {type : TypeRef} {notes : Notes} {x : Planted} {as bs cs : List Char}

theorem written_binary {op : Operator} (hnotes : options.Omits notes)
    (hy : t.Written options y as) (hz : t.Written options z bs) :
    t.Written options (.node id (.binary op type) notes [[y], [z]])
      (as ++ ' ' :: (op.symbol.toList ++ ' ' :: bs)) := by
  refine written_node hnotes fun n one hkind hone => ?_
  obtain ⟨ls, hls, hputl⟩ := hone .lhs y as (List.mem_cons_self ..) hy
  obtain ⟨rs, hrs, hputr⟩ := hone .rhs z bs (List.mem_cons_of_mem _ (List.mem_cons_self ..)) hz
  refine ⟨[ls, word (" " ++ op.symbol ++ " "), rs].flatten, ?_, ?_⟩
  · unfold kindTokens
    rw [hkind]
    dsimp only
    rw [hls, hrs]
    rfl
  · have hall := hputl.append ((Writer.puts_between t options " " op.symbol " ").append hputr)
    simpa using hall

theorem written_cond (hnotes : options.Omits notes) (hx : t.Written options x as)
    (hy : t.Written options y bs) (hz : t.Written options z cs) :
    t.Written options (.node id (.cond type) notes [[x], [y], [z]])
      (as ++ ' ' :: '?' :: ' ' :: (bs ++ ' ' :: ':' :: ' ' :: cs)) := by
  refine written_node hnotes fun n one hkind hone => ?_
  obtain ⟨xs, hxs, hputx⟩ := hone .condition x as (List.mem_cons_self ..) hx
  obtain ⟨ys, hys, hputy⟩ :=
    hone .consequent y bs (List.mem_cons_of_mem _ (List.mem_cons_self ..)) hy
  obtain ⟨zs, hzs, hputz⟩ := hone .alternative z cs
    (List.mem_cons_of_mem _ (List.mem_cons_of_mem _ (List.mem_cons_self ..))) hz
  refine ⟨[xs, word " ? ", ys, word " : ", zs].flatten, ?_, ?_⟩
  · unfold kindTokens
    rw [hkind]
    dsimp only
    rw [hxs, hys, hzs]
    rfl
  · have hall := hputx.append ((Writer.puts_word t options " ? ").append
      (hputy.append ((Writer.puts_word t options " : ").append hputz)))
    simpa using hall

theorem written_cast (hnotes : options.Omits notes) (hx : t.Written options x as) :
    t.Written options (.node id (.cast type) notes [[x]])
      ('(' :: (type.text.toList ++ ')' :: as)) := by
  refine written_node hnotes fun n one hkind hone => ?_
  obtain ⟨xs, hxs, hputx⟩ := hone .expr x as (List.mem_cons_self ..) hx
  refine ⟨[word ("(" ++ type.text ++ ")"), xs].flatten, ?_, ?_⟩
  · unfold kindTokens
    rw [hkind]
    dsimp only
    rw [hxs]
    rfl
  · have hall := (Writer.puts_between t options "(" type.text ")").append hputx
    simpa using hall

theorem written_paren (hnotes : options.Omits notes) (hx : t.Written options x as) :
    t.Written options (.node id (.paren type) notes [[x]]) ('(' :: (as ++ [')'])) := by
  refine written_node hnotes fun n one hkind hone => ?_
  obtain ⟨xs, hxs, hputx⟩ := hone .expr x as (List.mem_cons_self ..) hx
  refine ⟨[word "(", xs, word ")"].flatten, ?_, ?_⟩
  · unfold kindTokens
    rw [hkind]
    dsimp only
    rw [hxs]
    rfl
  · have hall := (Writer.puts_word t options "(").append
      (hputx.append (Writer.puts_word t options ")"))
    simpa using hall

theorem written_member {member : String} (hnotes : options.Omits notes)
    (hx : t.Written options x as) :
    t.Written options (.node id (.member member type) notes [[x]])
      (as ++ '.' :: member.toList) := by
  refine written_node hnotes fun n one hkind hone => ?_
  obtain ⟨xs, hxs, hputx⟩ := hone .object x as (List.mem_cons_self ..) hx
  refine ⟨[xs, word ".", word member].flatten, ?_, ?_⟩
  · unfold kindTokens
    rw [hkind]
    dsimp only
    rw [hxs]
    rfl
  · have hall := hputx.append ((Writer.puts_word t options ".").append
      (Writer.puts_word t options member))
    simpa using hall

theorem written_item (hnotes : options.Omits notes) (hx : t.Written options x as)
    (hy : t.Written options y bs) :
    t.Written options (.node id (.index type) notes [[x], [y]])
      (as ++ '[' :: (bs ++ [']'])) := by
  refine written_node hnotes fun n one hkind hone => ?_
  obtain ⟨xs, hxs, hputx⟩ := hone .object x as (List.mem_cons_self ..) hx
  obtain ⟨ys, hys, hputy⟩ := hone .index y bs (List.mem_cons_of_mem _ (List.mem_cons_self ..)) hy
  refine ⟨[xs, word "[", ys, word "]"].flatten, ?_, ?_⟩
  · unfold kindTokens
    rw [hkind]
    dsimp only
    rw [hxs, hys]
    rfl
  · have hall := hputx.append ((Writer.puts_word t options "[").append
      (hputy.append (Writer.puts_word t options "]")))
    simpa using hall

theorem written_array (hnotes : options.Omits notes) (hx : t.Written options x as) :
    t.Written options (.node id (.newArray type) notes [[x]])
      ('n' :: 'e' :: 'w' :: ' ' :: (type.text.toList ++ '[' :: (as ++ [']']))) := by
  refine written_node hnotes fun n one hkind hone => ?_
  obtain ⟨xs, hxs, hputx⟩ := hone .count x as (List.mem_cons_self ..) hx
  refine ⟨[word ("new " ++ type.text ++ "["), xs, word "]"].flatten, ?_, ?_⟩
  · unfold kindTokens
    rw [hkind]
    dsimp only
    rw [hxs]
    rfl
  · have hall := (Writer.puts_between t options "new " type.text "[").append
      (hputx.append (Writer.puts_word t options "]"))
    simpa using hall

theorem written_creation (hnotes : options.Omits notes)
    (hys : t.WrittenChain options ", " ys cs) :
    t.Written options (.node id (.newObject type) notes [ys])
      ('n' :: 'e' :: 'w' :: ' ' :: (type.text.toList ++ '(' :: (cs ++ [')']))) := by
  refine written_chains hnotes fun n chain hkind _ hchain => ?_
  obtain ⟨args, hargs, hputs⟩ := hchain .args ys ", " cs (List.mem_cons_self ..) hys
  refine ⟨[word ("new " ++ type.text ++ "("), args, word ")"].flatten, ?_, ?_⟩
  · unfold kindTokens
    rw [hkind]
    dsimp only
    rw [hargs]
    rfl
  · have hall := (Writer.puts_between t options "new " type.text "(").append
      (hputs.append (Writer.puts_word t options ")"))
    simpa using hall

theorem written_function {method : String} {result : Option TypeRef}
    (hnotes : options.Omits notes) (hys : t.WrittenChain options ", " ys cs) :
    t.Written options (.node id (.call method result) notes [[], ys])
      (method.toList ++ '(' :: (cs ++ [')'])) := by
  refine written_chains hnotes fun n chain hkind hheads hchain => ?_
  obtain ⟨args, hargs, hputs⟩ :=
    hchain .args ys ", " cs (List.mem_cons_of_mem _ (List.mem_cons_self ..)) hys
  have hmem : (Slot.receiver, ([] : List Planted))
      ∈ (Kind.call method result).slots.zip [[], ys] := List.mem_cons_self ..
  have hreceiver : (n.heads .receiver).isSome = false := by
    rw [hheads, headsOf_of_mem (Kind.nodup_slots _) hmem]
    rfl
  refine ⟨[[], word method, word "(", args, word ")"].flatten, ?_, ?_⟩
  · unfold kindTokens
    rw [hkind]
    dsimp only
    refine (if_neg (Bool.eq_false_iff.1 hreceiver)).trans ?_
    rw [hargs]
    rfl
  · have hall := (Writer.puts_word t options method).append
      ((Writer.puts_word t options "(").append
        (hputs.append (Writer.puts_word t options ")")))
    simpa using hall

theorem written_send {method : String} {result : Option TypeRef} (hnotes : options.Omits notes)
    (hx : t.Written options x as) (hys : t.WrittenChain options ", " ys cs) :
    t.Written options (.node id (.call method result) notes [[x], ys])
      (as ++ '.' :: (method.toList ++ '(' :: (cs ++ [')']))) := by
  refine written_chains hnotes fun n chain hkind hheads hchain => ?_
  obtain ⟨args, hargs, hputs⟩ :=
    hchain .args ys ", " cs (List.mem_cons_of_mem _ (List.mem_cons_self ..)) hys
  obtain ⟨xs, hxs, hputx⟩ := hchain .receiver [x] "" as (List.mem_cons_self ..) (hx.chain "")
  have hmem : (Slot.receiver, [x]) ∈ (Kind.call method result).slots.zip [[x], ys] :=
    List.mem_cons_self ..
  have hreceiver : (n.heads .receiver).isSome = true := by
    rw [hheads, headsOf_of_mem (Kind.nodup_slots _) hmem]
    rfl
  refine ⟨[[xs, word "."].flatten, word method, word "(", args, word ")"].flatten, ?_, ?_⟩
  · unfold kindTokens
    rw [hkind]
    dsimp only
    refine (if_pos hreceiver).trans ?_
    rw [hxs, hargs]
    rfl
  · have hall := hputx.append ((Writer.puts_word t options ".").append
      ((Writer.puts_word t options method).append ((Writer.puts_word t options "(").append
        (hputs.append (Writer.puts_word t options ")")))))
    simpa using hall

theorem written_arg {label : Option String} {out : Bool} (hnotes : options.Omits notes)
    (hx : t.Written options x as) :
    t.Written options (.node id (.arg label out) notes [[x]])
      (Phrase.leadChars label out ++ as) := by
  refine written_node hnotes fun n one hkind hone => ?_
  obtain ⟨xs, hxs, hputx⟩ := hone .value x as (List.mem_cons_self ..) hx
  have hout : Puts t options (if out then word "out " else [])
      (if out then ['o', 'u', 't', ' '] else []) := by
    cases out with
    | true => exact Writer.puts_word t options "out "
    | false => exact Writer.puts_nil t options
  have hlabel : Puts t options (label.elim [] fun name => word (name ++ ": "))
      (label.elim [] fun name => name.toList ++ [':', ' ']) := by
    cases label with
    | none => exact Writer.puts_nil t options
    | some name =>
      have h := Writer.puts_word t options (name ++ ": ")
      rwa [String.toList_append] at h
  refine ⟨[label.elim [] fun name => word (name ++ ": "), if out then word "out " else [],
    xs].flatten, ?_, ?_⟩
  · unfold kindTokens
    rw [hkind]
    dsimp only
    rw [hxs]
    cases label <;> rfl
  · have hall := (hlabel.append hout).append hputx
    simpa [Phrase.leadChars] using hall

/-- What is written for a phrase. -/
def WrittenAs (t : Tree) (options : EmitOptions) (ys : List Planted) : {s : Part} → Phrase s → Prop
  | .operand, e => ∃ y, ys = [y] ∧ t.Written options y e.chars
  | .arguments, a => t.WrittenChain options ", " ys a.chars

/-- Code that is the phrase, in the planted form. -/
theorem exists_node {kind : Kind} {slots : List (List Shape)}
    (h : ys.map Term.shape = [.node () kind notes slots]) :
    ∃ id slots', ys = [.node id kind notes slots']
      ∧ slots'.map (List.map Term.shape) = slots := by
  obtain ⟨y, rfl, hy⟩ := List.map_eq_singleton_iff.1 h
  obtain ⟨slots', hy, hslots⟩ := Term.shape_eq_node hy
  exact ⟨y.tag, slots', by rw [← hy], hslots⟩

/-- Phrases are written as their characters. -/
theorem written_phrase {p : Phrase s} (h : Term.Forms t.name options.Omits (ys.map Term.shape) p) :
    t.WrittenAs options ys p := by
  generalize hshape : ys.map Term.shape = xs at h
  induction h generalizing ys with
  | none =>
    obtain rfl := List.map_eq_nil_iff.1 hshape
    exact writtenChain_nil t options ", "
  | word hnotes htext =>
    obtain ⟨id, slots, rfl, hslots⟩ := exists_node hshape
    obtain rfl := List.map_eq_nil_iff.1 hslots
    exact ⟨_, rfl, written_leaf hnotes htext⟩
  | binary hnotes _ _ ihx ihy =>
    obtain ⟨id, slots, rfl, hslots⟩ := exists_node hshape
    obtain ⟨c, d, rfl, rfl, rfl⟩ := Term.chains_two hslots
    obtain ⟨x, rfl, hx⟩ := ihx rfl
    obtain ⟨y, rfl, hy⟩ := ihy rfl
    exact ⟨_, rfl, written_binary hnotes hx hy⟩
  | cond hnotes _ _ _ ihx ihy ihz =>
    obtain ⟨id, slots, rfl, hslots⟩ := exists_node hshape
    obtain ⟨c, d, f, rfl, rfl, rfl, rfl⟩ := Term.chains_three hslots
    obtain ⟨x, rfl, hx⟩ := ihx rfl
    obtain ⟨y, rfl, hy⟩ := ihy rfl
    obtain ⟨z, rfl, hz⟩ := ihz rfl
    exact ⟨_, rfl, written_cond hnotes hx hy hz⟩
  | cast hnotes _ ihx =>
    obtain ⟨id, slots, rfl, hslots⟩ := exists_node hshape
    obtain ⟨c, rfl, rfl⟩ := Term.chains_one hslots
    obtain ⟨x, rfl, hx⟩ := ihx rfl
    exact ⟨_, rfl, written_cast hnotes hx⟩
  | paren hnotes _ ihx =>
    obtain ⟨id, slots, rfl, hslots⟩ := exists_node hshape
    obtain ⟨c, rfl, rfl⟩ := Term.chains_one hslots
    obtain ⟨x, rfl, hx⟩ := ihx rfl
    exact ⟨_, rfl, written_paren hnotes hx⟩
  | member hnotes _ ihx =>
    obtain ⟨id, slots, rfl, hslots⟩ := exists_node hshape
    obtain ⟨c, rfl, rfl⟩ := Term.chains_one hslots
    obtain ⟨x, rfl, hx⟩ := ihx rfl
    exact ⟨_, rfl, written_member hnotes hx⟩
  | item hnotes _ _ ihx ihy =>
    obtain ⟨id, slots, rfl, hslots⟩ := exists_node hshape
    obtain ⟨c, d, rfl, rfl, rfl⟩ := Term.chains_two hslots
    obtain ⟨x, rfl, hx⟩ := ihx rfl
    obtain ⟨y, rfl, hy⟩ := ihy rfl
    exact ⟨_, rfl, written_item hnotes hx hy⟩
  | array hnotes _ ihx =>
    obtain ⟨id, slots, rfl, hslots⟩ := exists_node hshape
    obtain ⟨c, rfl, rfl⟩ := Term.chains_one hslots
    obtain ⟨x, rfl, hx⟩ := ihx rfl
    exact ⟨_, rfl, written_array hnotes hx⟩
  | function hnotes _ iha =>
    obtain ⟨id, slots, rfl, hslots⟩ := exists_node hshape
    obtain ⟨c, d, rfl, hc, rfl⟩ := Term.chains_two hslots
    obtain rfl := List.map_eq_nil_iff.1 hc
    exact ⟨_, rfl, written_function hnotes (iha rfl)⟩
  | creation hnotes _ iha =>
    obtain ⟨id, slots, rfl, hslots⟩ := exists_node hshape
    obtain ⟨c, rfl, rfl⟩ := Term.chains_one hslots
    exact ⟨_, rfl, written_creation hnotes (iha rfl)⟩
  | send hnotes _ _ ihx iha =>
    obtain ⟨id, slots, rfl, hslots⟩ := exists_node hshape
    obtain ⟨c, d, rfl, rfl, rfl⟩ := Term.chains_two hslots
    obtain ⟨x, rfl, hx⟩ := ihx rfl
    exact ⟨_, rfl, written_send hnotes hx (iha rfl)⟩
  | @more label out notes xs ys' init e hnotes hinit _ ihi ihx =>
    obtain ⟨c, last, rfl, rfl, hlast⟩ := List.map_eq_append_iff.1 hshape
    obtain ⟨id, slots, rfl, hslots⟩ := exists_node hlast
    obtain ⟨d, rfl, rfl⟩ := Term.chains_one hslots
    obtain ⟨x, rfl, hx⟩ := ihx rfl
    have hcomma : (if c = [] then [] else ", ".toList) = init.commaChars := by
      have hnone := hinit.eq_nil_iff
      rw [List.map_eq_nil_iff] at hnone
      cases init with
      | none => exact if_pos (hnone.2 rfl)
      | more => exact if_neg fun hc => nomatch hnone.1 hc
    have hinit : t.WrittenChain options ", " c init.chars := ihi rfl
    have harg : t.Written options (.node id (.arg label out) notes [[x]])
        (Phrase.leadChars label out ++ e.chars) := written_arg hnotes hx
    have hall := hinit.snoc harg
    rwa [hcomma] at hall

/-- The text of a standing node. -/
theorem Written.emit (h : t.Written options y cs) (hheld : t.HoldsChain place next [y])
    (hnodup : y.tags.Nodup) : t.emit y.tag options = .ok (String.ofList cs) := by
  have hlen := hheld.tags_length_le (by simpa using hnodup)
  rw [List.flatMap_singleton] at hlen
  obtain ⟨tokens, htokens, hputs⟩ :=
    h place next (t.size + 1) hheld hnodup (Nat.le_succ_of_le hlen)
  unfold Tree.emit Tree.tokens
  rw [htokens]
  show (Writer.consumeAll t options {} tokens >>= fun w => pure w.text) = _
  rw [hputs {} rfl rfl]
  show Except.ok (String.ofList (cs.reverse ++ []).reverse) = _
  rw [List.append_nil, List.reverse_reverse]

/-- The text of a standing operand. -/
theorem emit_phrase {e : Phrase .operand} {y : Planted} (hheld : t.HoldsChain place next [y])
    (hnodup : y.tags.Nodup) (h : Term.Forms t.name options.Omits [y.shape] e) :
    t.emit y.tag options = .ok (String.ofList e.chars) := by
  have hall : t.WrittenAs options [y] e := written_phrase h
  obtain ⟨x, hyx, hwritten⟩ := hall
  obtain rfl := List.singleton_inj.1 hyx
  exact hwritten.emit hheld hnodup

end Tree

end RegisterMap.Code
