/-
The markers of a token stream are brackets. `Token.track` follows a stream
and keeps what is open; it has no answer where a marker closes something
other than what was opened last. Whatever a node writes leaves what was
open as it was (`tokens_closed`), because texts, bodies and headers do.

What is open says all about a writer that its start does not (`Tracks`):
how far it is indented, in which namespaces and which comments it is, and
how many remarks it holds back. So a writer that has taken the stream of a
node is where it was (`tokens_balanced`).
-/
import RegisterMap.Proofs.Code.Writing
import RegisterMap.Proofs.Code.Composing

namespace RegisterMap.Code

-- ============================================================== brackets

namespace Token

/-- What closes that which the token opens. -/
def closing? : Token → Option Token
  | .nest i => some (.unnest i)
  | .enterNamespace _ => some .exitNamespace
  | .inlineComments => some .restoreComments
  | .commentBegin => some .commentEnd
  | .docBegin => some .docEnd
  | _ => none

/-- The token closes something. -/
def isClosing : Token → Bool
  | .unnest _ | .exitNamespace | .restoreComments | .commentEnd | .docEnd => true
  | _ => false

/-- What is open behind the token, innermost first. Only what was opened
last may be closed, and only by its own end. -/
def track (opened : List Token) (token : Token) : Option (List Token) :=
  if token.closing?.isSome then some (token :: opened)
  else if token.isClosing then
    match opened with
    | [] => none
    | o :: rest => if o.closing? = some token then some rest else none
  else some opened

/-- What is open behind a stream. -/
def trackAll (opened : List Token) (tokens : List Token) : Option (List Token) :=
  tokens.foldlM track opened

/-- The stream leaves open what was open, and closes nothing of it. -/
def Closed (tokens : List Token) : Prop := ∀ opened, trackAll opened tokens = some opened

variable {as bs opened opened' : List Token} {token : Token}

@[simp] theorem trackAll_nil : trackAll opened [] = some opened := rfl

@[simp] theorem trackAll_cons :
    trackAll opened (token :: as) = (track opened token).bind (trackAll · as) :=
  List.foldlM_cons

theorem trackAll_append :
    trackAll opened (as ++ bs) = (trackAll opened as).bind (trackAll · bs) :=
  List.foldlM_append

/-- A token opens, closes or does neither. -/
theorem track_cases (h : track opened token = some opened') :
    (token.closing?.isSome = true ∧ opened' = token :: opened)
      ∨ (∃ o, opened = o :: opened' ∧ o.closing? = some token)
      ∨ token.closing? = none ∧ token.isClosing = false ∧ opened' = opened := by
  unfold track at h
  split at h
  · next hopens => exact .inl ⟨hopens, (Option.some.inj h).symm⟩
  · next hopens =>
    split at h
    · split at h
      · cases h
      · next o rest =>
        split at h
        · next ho => exact .inr (.inl ⟨o, by rw [Option.some.inj h], ho⟩)
        · cases h
    · next hcloses =>
      exact .inr (.inr ⟨Option.not_isSome_iff_eq_none.1 hopens, by simpa using hcloses,
        (Option.some.inj h).symm⟩)

@[simp] theorem closed_nil : Closed [] := fun _ => rfl

theorem closed_text (s : String) : Closed [.text s] := fun _ => rfl

theorem closed_qualifiedName (i : NodeId) : Closed [.qualifiedName i] := fun _ => rfl

theorem Closed.append (ha : Closed as) (hb : Closed bs) : Closed (as ++ bs) := fun opened => by
  rw [trackAll_append, ha opened]
  exact hb opened

/-- A stream between brackets. -/
theorem Closed.bracketed {closing : Token} (h : Closed as) (ht : token.closing? = some closing) :
    Closed (token :: as ++ [closing]) := fun opened => by
  have hopens : track opened token = some (token :: opened) := by
    unfold track
    rw [ht]
    rfl
  have hcloses : track (token :: opened) closing = some opened := by
    cases token <;> simp only [closing?, reduceCtorEq, Option.some.injEq] at ht <;> subst ht <;>
      simp [track, closing?, isClosing]
  rw [List.cons_append, trackAll_cons, hopens, Option.bind_some, trackAll_append, h,
    Option.bind_some, trackAll_cons, hcloses]
  rfl

theorem closed_remarks (notes : Notes) (inline : Bool) : Closed (remarks notes inline) := by
  have hdoc : ∀ s, Closed [.docBegin, .text s, .docEnd] := fun s => (closed_text s).bracketed rfl
  have hcomment : ∀ s, Closed [.commentBegin, .text s, .commentEnd] := fun s =>
    (closed_text s).bracketed rfl
  have hinline : ∀ s, Closed [.inlineComments, .commentBegin, .text s, .commentEnd,
    .restoreComments] := fun s => (hcomment s).bracketed rfl
  unfold remarks
  refine Closed.append ?_ ?_
  · cases notes.doc with
    | none => exact closed_nil
    | some s => exact hdoc s
  · cases notes.comment with
    | none => cases inline <;> exact closed_nil
    | some s =>
      cases inline
      · exact hcomment s
      · exact hinline s

theorem closed_headed {i : NodeId} (h : Closed as) : Closed (headed i as) := by
  have hnested : Closed (.nest i :: as ++ [.unnest i]) := h.bracketed rfl
  have hinside : Closed (.enterNamespace i :: (.nest i :: as ++ [.unnest i])
      ++ [.exitNamespace]) := hnested.bracketed rfl
  have hheader := ((closed_text "namespace ").append (closed_qualifiedName i)).append
    ((closed_text "\n\x7b\n").append (hinside.append (closed_text "\x7d\n")))
  simpa [headed, word] using hheader

theorem Composed.closed {i : NodeId} {kind : Kind} {P : List Token → Prop}
    (h : Composed i kind P as) (hP : ∀ bs, P bs → Closed bs) : Closed as :=
  h.holds closed_nil closed_text Closed.append (fun ha => ha.bracketed rfl) closed_headed hP

end Token

namespace Tree

variable {t : Tree} {root : NodeId} {tokens : List Token}

/-- The markers in the stream of a node are brackets, and the nodes that
are named in it exist. -/
theorem tokens_closed (h : t.tokens root = .ok tokens) :
    Token.Closed tokens ∧ Token.AllKnown t tokens := by
  refine tokens_holds (Q := fun _ as => Token.Closed as ∧ Token.AllKnown t as)
    (fun _ => ⟨Token.closed_nil, Token.allKnown_nil⟩) (fun i n as hn has => ?_) h
  have hbelow : ∀ bs, (∃ c ∈ t.children i, Token.Closed bs ∧ Token.AllKnown t bs) →
      Token.Closed bs ∧ Token.AllKnown t bs := fun bs ⟨_, _, hbs⟩ => hbs
  exact ⟨(Token.closed_remarks _ _).append (has.closed fun bs hbs => (hbelow bs hbs).1),
    Token.allKnown_append.2 ⟨Token.allKnown_remarks _ _,
      has.allKnown (Tree.lt_size_of_node? hn) fun bs hbs => (hbelow bs hbs).2⟩⟩

end Tree

-- =============================================================== writers

namespace Token

/-- The token begins a body that is indented. -/
def indents (t : Tree) : Token → Bool
  | .nest i => ((t.node? i).map (·.notes.indents)).getD false
  | _ => false

/-- The namespace that the token enters. -/
def entered? : Token → Option NodeId
  | .enterNamespace i => some i
  | _ => none

/-- The token begins a remark that is not written. -/
def hides (options : EmitOptions) : Token → Bool
  | .commentBegin => !options.comments
  | .docBegin => !options.docs
  | _ => false

end Token

namespace Writer

variable {t : Tree} {options : EmitOptions} {w w₁ w₂ w' : Writer}
  {opened opened' tokens pre post : List Token} {token : Token}

/-- What the token makes the writer write. -/
def spelled (t : Tree) (options : EmitOptions) (w : Writer) : Token → List Char
  | .text s => if w.suppressed = 0 then s.toList else []
  | .commentBegin => if options.comments then (if w.isInline then "/* " else "// ").toList else []
  | .commentEnd => if options.comments then (if w.isInline then " */ " else "\n").toList else []
  | .docBegin => if options.docs then "/// <summary> ".toList else []
  | .docEnd => if options.docs then " </summary>\n".toList else []
  | .qualifiedName i => (t.qualifiedName w.namespaces.head? i).toList
  | _ => []

/-- What the token takes back is there. -/
def Affords (t : Tree) (options : EmitOptions) (w : Writer) : Token → Prop
  | .unnest i => Token.indents t (.nest i) = true → 0 < w.indent
  | .exitNamespace => w.namespaces ≠ []
  | .restoreComments => w.inline ≠ []
  | .commentEnd => options.comments = false → 0 < w.suppressed
  | .docEnd => options.docs = false → 0 < w.suppressed
  | _ => True

/-- The writer `w'` differs from `w` by what is open, beside its text. -/
structure Tracks (t : Tree) (options : EmitOptions) (w : Writer) (opened : List Token)
    (w' : Writer) : Prop where
  indent : w'.indent = w.indent + opened.countP (Token.indents t)
  namespaces : w'.namespaces = opened.filterMap Token.entered? ++ w.namespaces
  inline : w'.inline = List.replicate (opened.count .inlineComments) true ++ w.inline
  suppressed : w'.suppressed = w.suppressed + opened.countP (Token.hides options)

/-- The writer behind the token, but for what the token writes. -/
def moved (t : Tree) (options : EmitOptions) (w : Writer) : Token → Writer
  | .nest i => { w with indent := w.indent + if Token.indents t (.nest i) then 1 else 0 }
  | .unnest i => { w with indent := w.indent - if Token.indents t (.nest i) then 1 else 0 }
  | .inlineComments => { w with inline := true :: w.inline }
  | .restoreComments => { w with inline := w.inline.tail }
  | .commentBegin => { w with suppressed := w.suppressed + if !options.comments then 1 else 0 }
  | .commentEnd => { w with suppressed := w.suppressed - if !options.comments then 1 else 0 }
  | .docBegin => { w with suppressed := w.suppressed + if !options.docs then 1 else 0 }
  | .docEnd => { w with suppressed := w.suppressed - if !options.docs then 1 else 0 }
  | .enterNamespace i => { w with namespaces := i :: w.namespaces }
  | .exitNamespace => { w with namespaces := w.namespaces.tail }
  | .text _ | .qualifiedName _ => w

theorem remark_eq (w : Writer) (shown : Bool) (mark : String) (n : Nat) :
    (if shown then w.write mark else { w with suppressed := n })
      = { w with
          suppressed := if shown then w.suppressed else n
          written := (w.writeChars (if shown then mark.toList else [])).written } := by
  cases shown
  · rfl
  · exact (write_eq w mark).trans (writeChars_written w mark.toList)

/-- All that a token does. -/
theorem consume_eq (h : w.consume t options token = .ok w') :
    w' = { w.moved t options token with
      written := (w.writeChars (w.spelled t options token)).written } := by
  cases token with
  | text s =>
    obtain rfl := Except.ok.inj h
    unfold spelled moved
    split
    · exact (write_eq w s).trans (writeChars_written w s.toList)
    · rfl
  | nest i | unnest i =>
    obtain ⟨n, hn, h⟩ := bind_eq_ok_iff.1 h
    obtain rfl := Except.ok.inj h
    have hfound : t.node? i = some n := by
      unfold Tree.node at hn
      split at hn
      · next hm => exact Except.ok.inj hn ▸ hm
      · cases hn
    simp only [moved, Token.indents, hfound, Option.map_some, Option.getD_some]
    split <;> rfl
  | commentBegin | commentEnd =>
    obtain rfl := Except.ok.inj h
    refine (remark_eq ..).trans ?_
    cases hshown : options.comments <;> simp [spelled, moved, hshown]
  | docBegin | docEnd =>
    obtain rfl := Except.ok.inj h
    refine (remark_eq ..).trans ?_
    cases hshown : options.docs <;> simp [spelled, moved, hshown]
  | qualifiedName i =>
    obtain ⟨_, -, h⟩ := bind_eq_ok_iff.1 h
    have hwrites : (.ok (w.write (t.qualifiedName w.namespaces.head? i)) : Except Failure Writer)
        = .ok w' := by
      split at h
      · obtain ⟨_, -, h⟩ := bind_eq_ok_iff.1 h
        exact h
      · exact h
    obtain rfl := Except.ok.inj hwrites
    exact (write_eq w _).trans (writeChars_written w _)
  | inlineComments | restoreComments | enterNamespace | exitNamespace =>
    obtain rfl := Except.ok.inj h
    rfl

/-- What has been written stays. -/
theorem written_put (w : Writer) (c : Char) : w.written <:+ (w.put c).written :=
  ((List.suffix_append _ _).trans (List.suffix_cons _ _))

theorem written_writeChars (w : Writer) (cs : List Char) :
    w.written <:+ (w.writeChars cs).written := by
  induction cs generalizing w with
  | nil => exact List.suffix_refl _
  | cons c cs ih => exact (written_put w c).trans (ih (w.put c))

theorem written_consumeAll (h : w.consumeAll t options tokens = .ok w') :
    w.written <:+ w'.written := by
  induction tokens generalizing w with
  | nil =>
    obtain rfl := Except.ok.inj h
    exact List.suffix_refl _
  | cons token rest ih =>
    rw [consumeAll_cons] at h
    obtain ⟨w₁, hw₁, h⟩ := bind_eq_ok_iff.1 h
    refine List.IsSuffix.trans ?_ (ih h)
    rw [consume_eq hw₁]
    exact written_writeChars w _

theorem tracks_refl : Tracks t options w [] w := ⟨rfl, rfl, rfl, rfl⟩

/-- What a token closes is there to be taken back, and behind the token the
writer again differs from its start by what is open. -/
theorem Tracks.step (h : Tracks t options w opened w₁)
    (ht : Token.track opened token = some opened') (hc : w₁.consume t options token = .ok w₂) :
    w₁.Affords t options token ∧ Tracks t options w opened' w₂ := by
  obtain ⟨hindent, hnamespaces, hinline, hsuppressed⟩ := h
  rw [consume_eq hc]
  rcases Token.track_cases ht with ⟨hopens, rfl⟩ | ⟨o, rfl, hcloses⟩ | ⟨hopens, hcloses, rfl⟩
  · cases token with
    | nest | enterNamespace | inlineComments | commentBegin | docBegin =>
      refine ⟨trivial, ?_, ?_, ?_, ?_⟩
      all_goals
        simp [moved, Token.indents, Token.entered?, Token.hides, hindent, hnamespaces, hinline,
          hsuppressed, List.countP_cons, List.filterMap_cons, List.replicate_succ, Nat.add_assoc]
    | _ => cases hopens
  · cases o with
    | nest i =>
      obtain rfl := Option.some.inj hcloses
      rw [List.countP_cons] at hindent
      refine ⟨fun hi => by rw [hindent, if_pos hi]; omega, ?_, hnamespaces, hinline, hsuppressed⟩
      show w₁.indent - (if Token.indents t (.nest i) = true then 1 else 0) = _
      rw [hindent]
      split <;> omega
    | enterNamespace i =>
      obtain rfl := Option.some.inj hcloses
      have hentered : w₁.namespaces = i :: (opened'.filterMap Token.entered? ++ w.namespaces) :=
        hnamespaces
      exact ⟨by simp [Affords, hentered], hindent, congrArg List.tail hentered, hinline,
        hsuppressed⟩
    | inlineComments =>
      obtain rfl := Option.some.inj hcloses
      rw [List.count_cons_self, List.replicate_succ, List.cons_append] at hinline
      exact ⟨by simp [Affords, hinline], hindent, hnamespaces, congrArg List.tail hinline,
        hsuppressed⟩
    | commentBegin | docBegin =>
      obtain rfl := Option.some.inj hcloses
      rw [List.countP_cons] at hsuppressed
      rw [Token.hides] at hsuppressed
      refine ⟨fun hheld => ?_, hindent, hnamespaces, hinline, ?_⟩
      · rw [hsuppressed, hheld]
        exact Nat.succ_pos _
      · show w₁.suppressed - (if _ then 1 else 0) = _
        rw [hsuppressed]
        split <;> omega
    | _ => cases hcloses
  · cases token with
    | text | qualifiedName => exact ⟨trivial, hindent, hnamespaces, hinline, hsuppressed⟩
    | nest | enterNamespace | inlineComments | commentBegin | docBegin => cases hopens
    | _ => cases hcloses

theorem Tracks.run (h : Tracks t options w opened w₁)
    (ht : Token.trackAll opened tokens = some opened')
    (hc : w₁.consumeAll t options tokens = .ok w₂) : Tracks t options w opened' w₂ := by
  induction tokens generalizing opened w₁ with
  | nil =>
    obtain rfl := Option.some.inj ht
    obtain rfl := Except.ok.inj hc
    exact h
  | cons token rest ih =>
    rw [Token.trackAll_cons] at ht
    rw [consumeAll_cons] at hc
    obtain ⟨opened₁, ht₁, ht⟩ := Option.bind_eq_some_iff.1 ht
    obtain ⟨w₃, hw₃, hc⟩ := bind_eq_ok_iff.1 hc
    exact ih (h.step ht₁ hw₃).2 ht hc

/-- One character, with the indentation in front of it. -/
theorem written_put_eq (w : Writer) (c : Char) : (w.put c).written =
    c :: (List.replicate (if w.atLineStart ∧ c ≠ '\n' then indentWidth * w.indent else 0) ' '
      ++ w.written) := by
  simp [put]

/-- `w'` has the text that the token writes at `w`, and in front of the
first character of every line `depth` levels of indentation. -/
def Lays (t : Tree) (options : EmitOptions) (w : Writer) (token : Token) (depth : Nat)
    (w' : Writer) : Prop :=
  ∀ before c after, w.spelled t options token = before ++ c :: after →
    c :: (List.replicate (if (w.writeChars before).atLineStart ∧ c ≠ '\n'
        then indentWidth * depth else 0) ' ' ++ (w.writeChars before).written) <:+ w'.written

theorem lays_of_consume (h : w.consume t options token = .ok w') :
    Lays t options w token w.indent w' := by
  intro before c after hspelled
  rw [consume_eq h]
  have hindent : (w.writeChars before).indent = w.indent := by rw [writeChars_written]
  rw [hspelled, ← hindent, ← written_put_eq, show before ++ c :: after = before ++ [c] ++ after by
    simp, writeChars_append, writeChars_append]
  exact written_writeChars _ after

end Writer

namespace Tree

variable {t : Tree} {root : NodeId} {tokens : List Token}

/-- The markers of a stream are brackets, each closed by its own end, and a
writer that takes the stream has what every token takes back, indents every
line by the bodies it is in, and ends as it began but for the text. -/
theorem tokens_balanced (h : t.tokens root = .ok tokens) :
    Token.trackAll [] tokens = some []
      ∧ ∀ (options : EmitOptions) (w : Writer),
        (w.Inside t → ∃ w', w.consumeAll t options tokens = .ok w')
        ∧ ∀ w' : Writer, w.consumeAll t options tokens = .ok w' →
          (w'.indent = w.indent ∧ w'.namespaces = w.namespaces ∧ w'.inline = w.inline
            ∧ w'.suppressed = w.suppressed)
          ∧ ∀ pre token post, tokens = pre ++ token :: post →
            ∃ opened w₁, Token.trackAll [] pre = some opened
              ∧ w.consumeAll t options pre = .ok w₁ ∧ w₁.Affords t options token
              ∧ w₁.Lays t options token (w.indent + opened.countP (Token.indents t)) w' := by
  obtain ⟨hclosed, hknown⟩ := tokens_closed h
  refine ⟨hclosed [], fun options w => ⟨fun hw => ?_, fun w' hc => ⟨?_, ?_⟩⟩⟩
  · obtain ⟨w', hw', -⟩ := Writer.consumeAll_run hw hknown
    exact ⟨w', hw'⟩
  · obtain ⟨hindent, hnamespaces, hinline, hsuppressed⟩ :=
      Writer.tracks_refl.run (hclosed []) hc
    exact ⟨hindent, hnamespaces, hinline, hsuppressed⟩
  · rintro pre token post rfl
    have ht := hclosed []
    rw [Token.trackAll_append] at ht
    rw [Writer.consumeAll_append] at hc
    obtain ⟨opened, hpre, ht⟩ := Option.bind_eq_some_iff.1 ht
    obtain ⟨w₁, hw₁, hc⟩ := bind_eq_ok_iff.1 hc
    rw [Token.trackAll_cons] at ht
    rw [Writer.consumeAll_cons] at hc
    obtain ⟨opened', htoken, -⟩ := Option.bind_eq_some_iff.1 ht
    obtain ⟨w₂, hw₂, hc⟩ := bind_eq_ok_iff.1 hc
    have htracks := Writer.tracks_refl.run hpre hw₁
    refine ⟨opened, w₁, hpre, hw₁, (htracks.step htoken hw₂).1, ?_⟩
    rw [← htracks.indent]
    exact fun before c after hspelled =>
      (Writer.lays_of_consume hw₂ before c after hspelled).trans (Writer.written_consumeAll hc)

/-- A method that is not indented, in a class with a doc, with a comment on
the value that it returns. -/
def annotatedClass : Tree := Tree.built [.leaf (.snippetExpr "x" .int),
  .annotate 0 fun notes => { notes with comment := some "old\nvalue" }, .returnStmt (some 0),
  .methodDecl "Run" {} [] [1], .annotate 2 fun notes => { notes with indents := false },
  .classDecl "Device" {} [] [] [2] [], .annotate 3 fun notes => { notes with doc := some "One." }]

/-- A writer in the middle of other code is back where it was. -/
theorem tokens_balanced_annotatedClass : ∃ tokens, annotatedClass.tokens 3 = .ok tokens
    ∧ Token.trackAll [] tokens = some []
    ∧ ∃ w' : Writer, Writer.consumeAll annotatedClass { comments := true }
        { written := ['\n'], indent := 2, inline := [true], suppressed := 1 } tokens = .ok w'
      ∧ w'.indent = 2 ∧ w'.inline = [true] ∧ w'.suppressed = 1 := by
  have hok : (annotatedClass.tokens 3).isOk = true := by decide
  cases h : annotatedClass.tokens 3 with
  | error e =>
    rw [h] at hok
    cases hok
  | ok tokens =>
    obtain ⟨hclosed, hruns⟩ := tokens_balanced h
    obtain ⟨hexists, hback⟩ := hruns { comments := true }
      { written := ['\n'], indent := 2, inline := [true], suppressed := 1 }
    obtain ⟨w', hw'⟩ := hexists fun _ hi => absurd hi List.not_mem_nil
    obtain ⟨⟨hindent, -, hinline, hsuppressed⟩, -⟩ := hback w' hw'
    exact ⟨tokens, rfl, hclosed, w', hw', hindent, hinline, hsuppressed⟩

end Tree

end RegisterMap.Code
