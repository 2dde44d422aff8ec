/-
The names in the headers of namespaces. `Headings` follows a stream and
keeps, for every namespace that is open, the name printed in its header.
Behind the tokens above a header in the code of `i` the namespaces open are
those between it and `i` (`Encloses`), and a name is printed relative to the
innermost of them: it is the whole path for the outermost header and one
part of the path for every other. So the headers around a namespace join to
the path from the top of the arena (`header_names`).

The induction is on the levels of the tree, by `tokens_holds`, with
`Titled` as what a stream has.
-/
import RegisterMap.Proofs.Code.Bracketing

namespace RegisterMap.Code

open Relation (ReflTransGen TransGen)

-- ============================================================== headings

/-- The namespaces that a stream is in at its end. -/
structure Headings where
  /-- Innermost first, each with the name in its header. -/
  entered : List (NodeId × String) := []
  /-- The name printed last. -/
  last : String := ""

namespace Headings

/-- The innermost namespace. -/
def context (h : Headings) : Option NodeId := h.entered.head?.map Prod.fst

/-- Takes one token. -/
def step (t : Tree) (h : Headings) : Token → Headings
  | .qualifiedName i => { h with last := t.qualifiedName h.context i }
  | .enterNamespace i => { h with entered := (i, h.last) :: h.entered }
  | .exitNamespace => { h with entered := h.entered.tail }
  | _ => h

/-- Takes a stream. -/
def run (t : Tree) (h : Headings) (tokens : List Token) : Headings := tokens.foldl (step t) h

variable {t : Tree} {h : Headings} {options : EmitOptions} {w w' : Writer} {tokens : List Token}

@[simp] theorem run_cons (token : Token) : run t h (token :: tokens) = run t (h.step t token) tokens :=
  rfl

@[simp] theorem run_append (rest : List Token) :
    run t h (tokens ++ rest) = run t (run t h tokens) rest :=
  List.foldl_append

/-- A writer is in the namespaces that its stream is in. -/
theorem namespaces_consumeAll (hw : w.namespaces = h.entered.map Prod.fst)
    (hc : w.consumeAll t options tokens = .ok w') :
    w'.namespaces = (run t h tokens).entered.map Prod.fst := by
  induction tokens generalizing w h with
  | nil =>
    obtain rfl := Except.ok.inj hc
    exact hw
  | cons token rest ih =>
    rw [Writer.consumeAll_cons] at hc
    obtain ⟨w₁, hw₁, hc⟩ := bind_eq_ok_iff.1 hc
    refine ih ?_ hc
    rw [Writer.consume_eq hw₁]
    cases token with
    | exitNamespace => simp [Writer.moved, step, hw, List.map_tail]
    | enterNamespace i => simp [Writer.moved, step, hw]
    | _ => exact hw

end Headings

-- =============================================================== streams

namespace Tree

/-- The names in the headers of namespaces that are nested in each other,
innermost first, around all of which is `context`. -/
def named (t : Tree) (context : Option NodeId) : List NodeId → List (NodeId × String)
  | [] => []
  | m :: rest => (m, t.qualifiedName (rest.head?.or context) m) :: t.named context rest

variable {t : Tree} {context : Option NodeId} {i n c : NodeId} {between : List NodeId}

/-- The outermost namespace comes last. -/
theorem named_snoc (l : List NodeId) :
    t.named context (l ++ [i]) = t.named (some i) l ++ [(i, t.qualifiedName context i)] := by
  induction l with
  | nil => rfl
  | cons m rest ih =>
    have hhead : (rest ++ [i]).head?.or context = rest.head?.or (some i) := by
      cases rest <;> rfl
    rw [List.cons_append, named, named, ih, hhead, List.cons_append]

end Tree

namespace Token

open RegisterMap.Code.Tree (named)

variable {t : Tree} {R R' : NodeId → List NodeId → Prop} {as bs : List Token} {i : NodeId}

/-- A stream ends in the namespaces in which it begins, and the namespaces
that it has entered before a header are as they should be, by name too. -/
def Titled (t : Tree) (R : NodeId → List NodeId → Prop) (as : List Token) : Prop :=
  ∀ h : Headings, (h.run t as).entered = h.entered
    ∧ ∀ pre n post, as = pre ++ .qualifiedName n :: post →
      ∃ l, R n l ∧ (h.run t pre).entered = t.named h.context l ++ h.entered

theorem Titled.mono (h : Titled t R as) (hR : ∀ n l, R n l → R' n l) : Titled t R' as := fun s =>
  ⟨(h s).1, fun pre n post hsplit =>
    let ⟨l, hl, hrun⟩ := (h s).2 pre n post hsplit
    ⟨l, hR n l hl, hrun⟩⟩

/-- The token neither names nor enters nor leaves a namespace. -/
def isPlain : Token → Bool
  | .qualifiedName _ | .enterNamespace _ | .exitNamespace => false
  | _ => true

theorem titled_plain (h : as.all isPlain = true) : Titled t R as := fun s => by
  rw [List.all_eq_true] at h
  constructor
  · induction as generalizing s with
    | nil => rfl
    | cons token rest ih =>
      obtain ⟨htoken, hrest⟩ := List.forall_mem_cons.1 h
      rw [Headings.run_cons, ih hrest]
      cases token with
      | qualifiedName | enterNamespace | exitNamespace => cases htoken
      | _ => rfl
  · rintro pre n post rfl
    exact nomatch h (.qualifiedName n) (by simp)

theorem Titled.append (ha : Titled t R as) (hb : Titled t R bs) :
    Titled t R (as ++ bs) := fun s => by
  have hcontext : (s.run t as).context = s.context := by
    unfold Headings.context
    rw [(ha s).1]
  constructor
  · rw [Headings.run_append, (hb _).1, (ha s).1]
  · intro pre n post hsplit
    -- the header lies in the second stream, or in the first
    have hlies : (∃ mid, pre = as ++ mid ∧ bs = mid ++ .qualifiedName n :: post)
        ∨ ∃ mid, as = pre ++ .qualifiedName n :: mid := by
      rcases List.append_eq_append_iff.1 hsplit with h | ⟨mid, has, hmid⟩
      · exact .inl h
      · cases mid with
        | nil => exact .inl ⟨[], by simp [has], hmid.symm⟩
        | cons token mid =>
          obtain ⟨rfl, -⟩ := List.cons.inj hmid
          exact .inr ⟨mid, has⟩
    rcases hlies with ⟨mid, rfl, hmid⟩ | ⟨mid, hmid⟩
    · obtain ⟨l, hl, hrun⟩ := (hb (s.run t as)).2 mid n post hmid
      rw [hcontext, (ha s).1] at hrun
      exact ⟨l, hl, by rw [Headings.run_append, hrun]⟩
    · exact (ha s).2 pre n mid hmid

theorem plain_remarks (notes : Notes) (inline : Bool) :
    (remarks notes inline).all isPlain = true := by
  unfold remarks
  cases notes.doc <;> cases notes.comment <;> cases inline <;> rfl

/-- A body that node `i` nests names what it would name without. -/
theorem Titled.nested (h : Titled t R as) : Titled t R (.nest i :: as ++ [.unnest i]) := by
  have hopens : Titled t R [.nest i] := titled_plain rfl
  have hcloses : Titled t R [.unnest i] := titled_plain rfl
  exact (hopens.append h).append hcloses

/-- A header, with what stands inside the namespace. -/
theorem Titled.inside (h : Titled t R' as) (hi : R i []) (hR : ∀ n l, R' n l → R n (l ++ [i]))
    (brace : String) :
    Titled t R (.qualifiedName i :: .text brace :: .enterNamespace i :: as ++ [.exitNamespace]) :=
  fun s => by
    let s₁ : Headings :=
      { entered := (i, t.qualifiedName s.context i) :: s.entered
        last := t.qualifiedName s.context i }
    obtain ⟨hback, hheaders⟩ := h s₁
    constructor
    · show ((s₁.run t (as ++ [.exitNamespace])).entered) = s.entered
      rw [Headings.run_append]
      exact congrArg List.tail hback
    · intro pre n post hsplit
      match pre, hsplit with
      | [], hsplit =>
        obtain ⟨hn, -⟩ := List.cons.inj hsplit
        injection hn with hn
        exact ⟨[], hn ▸ hi, rfl⟩
      | [_], hsplit => cases hsplit
      | [_, _], hsplit => cases hsplit
      | a :: b :: c :: pre, hsplit =>
        simp only [List.cons_append, List.cons.injEq] at hsplit
        obtain ⟨rfl, rfl, rfl, hsplit⟩ := hsplit
        have hmid : ∃ mid, as = pre ++ .qualifiedName n :: mid := by
          rcases List.append_eq_append_iff.1 hsplit with ⟨mid, -, hmid⟩ | ⟨mid, has, hmid⟩
          · cases mid with
            | nil => cases hmid
            | cons token mid =>
              obtain ⟨-, hmid⟩ := List.cons.inj hmid
              exact absurd hmid (by simp)
          · cases mid with
            | nil => cases hmid
            | cons token mid =>
              obtain ⟨rfl, -⟩ := List.cons.inj hmid
              exact ⟨mid, has⟩
        obtain ⟨mid, hmid⟩ := hmid
        obtain ⟨l, hl, hrun⟩ := hheaders pre n mid hmid
        refine ⟨l ++ [i], hR n l hl, hrun.trans ?_⟩
        rw [Tree.named_snoc, List.append_assoc]
        rfl

theorem Made.titled {P : List Token → Prop} (h : Made i P as) (hP : ∀ bs, P bs → Titled t R bs) :
    Titled t R as :=
  h.holds (titled_plain rfl) (fun _ => titled_plain rfl) Titled.append Titled.nested hP

end Token

namespace Tree

variable {t : Tree} {root i n c m : NodeId} {between rest : List NodeId}

-- ================================================================= paths

/-- The namespace `n` is `i` or lies in it, and `between` are the namespaces
around it up to `i`, innermost first. -/
inductive Encloses (t : Tree) (n : NodeId) : NodeId → List NodeId → Prop
  | self : t.kind? n = some .namespaceDecl → Encloses t n n []
  | inNamespace {c i : NodeId} {between : List NodeId} : t.OwnedBy c i →
      t.kind? i = some .namespaceDecl → Encloses t n c between → Encloses t n i (between ++ [i])
  | inOther {c i : NodeId} {between : List NodeId} : t.OwnedBy c i →
      t.kind? i ≠ some .namespaceDecl → Encloses t n c between → Encloses t n i between

/-- Names of the namespaces around `i` up to the top of the arena, nearest
first. -/
inductive NamespacesAround (t : Tree) : NodeId → List String → Prop
  | top {i : NodeId} : (∀ o, ¬ t.OwnedBy i o) → NamespacesAround t i []
  | inNamespace {i o : NodeId} {names : List String} : t.OwnedBy i o →
      t.kind? o = some .namespaceDecl → NamespacesAround t o names →
      NamespacesAround t i (t.name o :: names)
  | inOther {i o : NodeId} {names : List String} : t.OwnedBy i o →
      t.kind? o ≠ some .namespaceDecl → NamespacesAround t o names → NamespacesAround t i names

/-- The headers above a header in the code of a node are those of the
namespaces between. -/
theorem Sound.tokens_titled (hs : t.Sound) {tokens : List Token} (h : t.tokens root = .ok tokens) :
    Token.Titled t (fun n l => t.Encloses n root l) tokens := by
  refine tokens_holds (Q := fun i as => Token.Titled t (fun n l => t.Encloses n i l) as)
    (fun _ => Token.titled_plain rfl) (fun i node as hn has => ?_) h
  refine (Token.titled_plain (Token.plain_remarks _ _)).append ?_
  have hkind : t.kind? i = some node.kind := by
    unfold Tree.kind?
    rw [hn, Option.map_some]
  unfold Token.Composed at has
  split at has
  · next hspace =>
    rw [hspace] at hkind
    obtain ⟨body, hbody, rfl⟩ := has
    have hinside : Token.Titled t (fun n l => ∃ c, t.OwnedBy c i ∧ t.Encloses n c l) body :=
      hbody.titled fun bs ⟨c, hc, hbs⟩ =>
        hbs.mono fun n l hl => ⟨c, hs.mem_children_iff.1 hc, hl⟩
    have hheader := (hinside.nested (i := i)).inside (R := fun n l => t.Encloses n i l) (i := i)
      (.self hkind) (fun n l ⟨c, hc, hl⟩ => .inNamespace hc hkind hl) "\n\x7b\n"
    have hlead : Token.Titled t (fun n l => t.Encloses n i l) [.text "namespace "] :=
      Token.titled_plain rfl
    have htrail : Token.Titled t (fun n l => t.Encloses n i l) [.text "\x7d\n"] :=
      Token.titled_plain rfl
    have hall := (hlead.append hheader).append htrail
    simpa [Token.headed, Token.word] using hall
  · next hother =>
    refine has.titled fun bs ⟨c, hc, hbs⟩ => hbs.mono fun n l hl =>
      .inOther (hs.mem_children_iff.1 hc) (fun h => hother ?_) hl
    rw [hkind] at h
    exact Option.some.inj h

/-- Around a namespace in the code of `i` there are those between it and
`i`, and those around `i`. -/
theorem Encloses.around {names : List String} (h : t.Encloses n i between)
    (hi : t.NamespacesAround i names) : t.NamespacesAround n (between.map t.name ++ names) := by
  induction h generalizing names with
  | self _ => exact hi
  | inNamespace hown hkind _ ih =>
    have hall := ih (.inNamespace hown hkind hi)
    rwa [List.map_append, List.append_assoc]
  | inOther hown hkind _ ih => exact ih (.inOther hown hkind hi)

/-- So it is for each of the namespaces between. -/
theorem Encloses.outer (h : t.Encloses n i (m :: rest)) : t.Encloses m i rest := by
  generalize hl : m :: rest = l at h
  induction h generalizing rest with
  | self _ => cases hl
  | @inNamespace c i between hown hkind _ ih =>
    cases between with
    | nil =>
      obtain ⟨rfl, rfl⟩ := List.cons.inj hl
      exact .self hkind
    | cons m' inner =>
      obtain ⟨rfl, rfl⟩ := List.cons.inj hl
      exact .inNamespace hown hkind (ih rfl)
  | inOther hown hkind _ ih => exact .inOther hown hkind (ih hl)

/-- A climb to the top passes different nodes, so the arena has enough
levels for it. -/
theorem Sound.namespacesAround (hs : t.Sound) (hi : i < t.size) :
    t.NamespacesAround i (t.namespacesAbove t.size i) := by
  have hclimb : ∃ owners : List NodeId, owners.Nodup ∧ (∀ o ∈ owners, TransGen t.OwnedBy i o)
      ∧ ∀ fuel, owners.length ≤ fuel → t.NamespacesAround i (t.namespacesAbove fuel i) := by
    induction i using hs.grounded.transGen.induction with
    | _ i ih =>
      cases hp : t.parent? i with
      | none =>
        refine ⟨[], List.nodup_nil, fun _ h => absurd h List.not_mem_nil, fun fuel _ => ?_⟩
        have hnames : t.namespacesAbove fuel i = [] := by
          cases fuel with
          | zero => rfl
          | succ fuel =>
            unfold namespacesAbove
            rw [hp]
        rw [hnames]
        refine .top fun o ⟨s, ho⟩ => ?_
        rw [hp] at ho
        cases ho
      | some p =>
        have ho : t.OwnedBy i p.1 := ⟨p.2, hp⟩
        obtain ⟨owners, hnodup, hmem, hfuel⟩ := ih p.1
          (Relation.transGen_swap.2 (hs.transGen_of_ownedBy hi ho)) (hs.ownedBy_lt ho)
        refine ⟨p.1 :: owners, List.nodup_cons.2 ⟨fun hin => ?_, hnodup⟩,
          List.forall_mem_cons.2 ⟨.single ho, fun o' ho' => .head ho (hmem o' ho')⟩,
          fun fuel hle => ?_⟩
        · obtain ⟨c, hc, hback⟩ := TransGen.head'_iff.1 (hmem p.1 hin)
          exact hs.not_owner_within hc hback
        · cases fuel with
          | zero => cases hle
          | succ fuel =>
            have habove := hfuel fuel (Nat.le_of_succ_le_succ hle)
            unfold namespacesAbove
            rw [hp]
            dsimp only
            split
            · next hkind => exact .inNamespace ho hkind habove
            · next hkind => exact .inOther ho hkind habove
  obtain ⟨owners, hnodup, hmem, hfuel⟩ := hclimb
  refine hfuel _ (length_le_size hnodup fun o ho => ?_)
  obtain ⟨c, -, hlast⟩ := TransGen.tail'_iff.1 (hmem o ho)
  exact hs.ownedBy_lt hlast

/-- The names around a node are unique. -/
theorem NamespacesAround.unique {names names' : List String} (h : t.NamespacesAround i names)
    (h' : t.NamespacesAround i names') : names = names' := by
  induction h generalizing names' with
  | top hnone =>
    cases h' with
    | top _ => rfl
    | inNamespace hown _ _ => exact absurd hown (hnone _)
    | inOther hown _ _ => exact absurd hown (hnone _)
  | inNamespace hown hkind _ ih =>
    cases h' with
    | top hnone => exact absurd hown (hnone _)
    | inNamespace hown' _ h' =>
      obtain rfl := rightUnique_ownedBy t hown hown'
      rw [ih h']
    | inOther hown' hkind' _ =>
      obtain rfl := rightUnique_ownedBy t hown hown'
      exact absurd hkind hkind'
  | inOther hown hkind _ ih =>
    cases h' with
    | top hnone => exact absurd hown (hnone _)
    | inNamespace hown' hkind' _ =>
      obtain rfl := rightUnique_ownedBy t hown hown'
      exact absurd hkind' hkind
    | inOther hown' _ h' =>
      obtain rfl := rightUnique_ownedBy t hown hown'
      exact ih h'

theorem Encloses.kind (h : t.Encloses n i between) : t.kind? n = some .namespaceDecl := by
  induction h with
  | self hkind => exact hkind
  | inNamespace _ _ _ ih => exact ih
  | inOther _ _ _ ih => exact ih

theorem Encloses.lt_size (h : t.Encloses n i between) : n < t.size := by
  obtain ⟨node, hn, -⟩ := Option.map_eq_some_iff.1 h.kind
  exact lt_size_of_node? hn

/-- The path of a namespace continues that of the one around it. -/
theorem Encloses.namespacePath (hs : t.Sound) (hroot : root < t.size)
    (h : t.Encloses n root between) : t.namespacePath n
      = (t.namespacesAbove t.size root).reverse ++ (between.map t.name).reverse ++ [t.name n] := by
  have habove := (hs.namespacesAround h.lt_size).unique (h.around (hs.namespacesAround hroot))
  unfold Tree.namespacePath
  rw [habove]
  simp

/-- Inside another namespace only the name itself is printed. -/
theorem qualifiedName_inside {name : String} (h : t.namespacePath n = t.namespacePath m ++ [name]) :
    t.qualifiedName (some m) n = name := by
  unfold qualifiedName
  simp [h]

/-- The headers around a namespace, with its own, join to its path. -/
theorem Encloses.joined (hs : t.Sound) (hroot : root < t.size) (h : t.Encloses n root between) :
    ".".intercalate (((t.named none between).map Prod.snd).reverse
        ++ [t.qualifiedName between.head? n])
      = ".".intercalate (t.namespacePath n) := by
  induction between generalizing n with
  | nil => simp [named, qualifiedName]
  | cons m rest ih =>
    have hpath : t.namespacePath n = t.namespacePath m ++ [t.name n] := by
      rw [h.namespacePath hs hroot, h.outer.namespacePath hs hroot]
      simp
    have hhead : rest.head?.or none = rest.head? := by cases rest <;> rfl
    have hm : t.namespacePath m ≠ [] := by simp [Tree.namespacePath]
    rw [List.head?_cons, qualifiedName_inside hpath, named, List.map_cons, List.reverse_cons, hhead,
      String.intercalate_append_of_ne_nil (by simp) (by simp), ih h.outer, hpath,
      String.intercalate_append_of_ne_nil hm (by simp)]

/-- Only what exists has tokens. -/
theorem lt_size_of_tokens {tokens : List Token} (h : t.tokens root = .ok tokens) :
    root < t.size := by
  unfold Tree.tokens at h
  rw [tokensFrom] at h
  obtain ⟨node, hnode, -⟩ := bind_eq_ok_iff.1 h
  unfold Tree.node at hnode
  split at hnode
  · next hn => exact lt_size_of_node? hn
  · cases hnode

/-- Wherever the header of a namespace is printed, the names in the headers
of the namespaces that are open there, outermost first, and the name that
is printed join to the path of the namespace from the top of the arena. -/
theorem header_names (hs : t.Sound) {options : EmitOptions} {text : String}
    (h : t.emit root options = .ok text) :
    ∃ tokens, t.tokens root = .ok tokens
      ∧ ∀ pre n post, tokens = pre ++ .qualifiedName n :: post →
        ∃ (w : Writer) (name : String) (names : List String),
          Writer.consumeAll t options {} pre = .ok w
          ∧ w.namespaces = (Headings.run t {} pre).entered.map Prod.fst
          ∧ name = t.qualifiedName w.namespaces.head? n
          ∧ w.consume t options (.qualifiedName n) = .ok (w.write name)
          ∧ (∃ rest, text = (w.write name).text ++ rest)
          ∧ t.kind? n = some .namespaceDecl ∧ t.NamespacesAround n names
          ∧ ".".intercalate (((Headings.run t {} pre).entered.map Prod.snd).reverse ++ [name])
            = ".".intercalate (names.reverse ++ [t.name n]) := by
  obtain ⟨tokens, htokens, h⟩ := bind_eq_ok_iff.1 h
  obtain ⟨w', hw', htext⟩ := bind_eq_ok_iff.1 h
  obtain rfl := Except.ok.inj htext
  refine ⟨tokens, htokens, ?_⟩
  rintro pre n post rfl
  have hroot := lt_size_of_tokens htokens
  rw [Writer.consumeAll_append] at hw'
  obtain ⟨w, hw, hw'⟩ := bind_eq_ok_iff.1 hw'
  rw [Writer.consumeAll_cons] at hw'
  obtain ⟨w₁, hw₁, hw'⟩ := bind_eq_ok_iff.1 hw'
  obtain ⟨between, hencloses, hentered⟩ := (hs.tokens_titled htokens {}).2 pre n post rfl
  have hnamespaces : w.namespaces = (Headings.run t {} pre).entered.map Prod.fst :=
    Headings.namespaces_consumeAll rfl hw
  have hentered : (Headings.run t {} pre).entered = t.named none between := by
    rw [hentered]
    exact List.append_nil _
  have hcontext : w.namespaces.head? = between.head? := by
    rw [hnamespaces, hentered]
    cases between <;> rfl
  have hwrites : w₁ = w.write (t.qualifiedName w.namespaces.head? n) :=
    (Writer.consume_eq hw₁).trans
      ((Writer.write_eq w _).trans (Writer.writeChars_written w _)).symm
  obtain ⟨rest, hrest⟩ := Writer.written_consumeAll hw'
  refine ⟨w, t.qualifiedName w.namespaces.head? n, t.namespacesAbove t.size n, hw, hnamespaces,
    rfl, hwrites ▸ hw₁, ⟨String.ofList rest.reverse, ?_⟩, hencloses.kind,
    hs.namespacesAround hencloses.lt_size, ?_⟩
  · unfold Writer.text
    rw [← hrest, List.reverse_append, ← hwrites, ← String.ofList_append]
  · rw [hentered, hcontext, hencloses.joined hs hroot, Tree.namespacePath, List.reverse_cons]

/-- Three namespaces in one another. -/
def nestedSpaces : Tree := Tree.built [.namespaceDecl "Peripherals" [] [],
  .namespaceDecl "Renode" [] [0], .namespaceDecl "Antmicro" [] [1]]

/-- The outermost namespace is not written, but its name is. -/
theorem header_names_nestedSpaces :
    nestedSpaces.emit 1 {} = .ok
        "namespace Antmicro.Renode\n\x7b\n    namespace Peripherals\n    \x7b\n    \x7d\n\x7d\n"
      ∧ ∃ w names, Writer.consumeAll nestedSpaces {} {} [.text "namespace ", .qualifiedName 1,
          .text "\n\x7b\n", .enterNamespace 1, .nest 1, .text "namespace "] = .ok w
        ∧ nestedSpaces.qualifiedName w.namespaces.head? 0 = "Peripherals"
        ∧ nestedSpaces.NamespacesAround 0 names
        ∧ ".".intercalate ["Antmicro.Renode", "Peripherals"]
          = ".".intercalate (names.reverse ++ ["Peripherals"]) := by
  have hemit : nestedSpaces.emit 1 {} = .ok
      "namespace Antmicro.Renode\n\x7b\n    namespace Peripherals\n    \x7b\n    \x7d\n\x7d\n" := by
    decide
  have hstream : nestedSpaces.tokens 1 = .ok ([.text "namespace ", .qualifiedName 1,
      .text "\n\x7b\n", .enterNamespace 1, .nest 1, .text "namespace "] ++ .qualifiedName 0 ::
      [.text "\n\x7b\n", .enterNamespace 0, .nest 0, .unnest 0, .exitNamespace, .text "\x7d\n",
        .unnest 1, .exitNamespace, .text "\x7d\n"]) := by
    decide
  have hs : nestedSpaces.Sound := sound_built _
  obtain ⟨tokens, htokens, hall⟩ := header_names hs hemit
  obtain ⟨w, name, names, hw, hspaces, rfl, -, -, -, haround, hjoined⟩ :=
    hall _ _ _ (Except.ok.inj (htokens.symm.trans hstream))
  have hprinted : nestedSpaces.qualifiedName w.namespaces.head? 0 = "Peripherals" := by
    rw [hspaces]
    decide
  have houter : ((Headings.run nestedSpaces {} [.text "namespace ", .qualifiedName 1,
      .text "\n\x7b\n", .enterNamespace 1, .nest 1, .text "namespace "]).entered.map Prod.snd).reverse
        = ["Antmicro.Renode"] := by
    decide
  have hname : nestedSpaces.name 0 = "Peripherals" := by decide
  rw [hprinted, houter, hname] at hjoined
  exact ⟨hemit, w, names, hw, hprinted, haround, hjoined⟩

end Tree

end RegisterMap.Code
