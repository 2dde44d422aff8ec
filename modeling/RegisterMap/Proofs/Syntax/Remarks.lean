/-
Comments and docs beside the code. A text that is written with remarks and
one that is written without have the same symbols, if every remark stands
between two symbols and none holds what would end it (`emit_symbols`).

Both writers take the stream of one node at the same time, and the lexers
that read their texts differ in one way only (`Sim`): the one behind a
remark has ended what the other is still reading. The next character of the
code ends that as well, whether or not it is indented, since the code may be
cut there.
-/
import RegisterMap.Proofs.Syntax.Symbols
import RegisterMap.Proofs.Code.Bracketing

namespace RegisterMap.Code

-- =============================================================== writing

namespace Writer

variable {w : Writer} {c : Char} {symbols : List (List Char)}

/-- The lexer that has read what is written. -/
def lexer (w : Writer) : Lexer := Lexer.takeAll {} w.written.reverse

/-- Spaces in front of the next character, unless it is a line feed. -/
def margin (w : Writer) : Nat := if w.atLineStart then indentWidth * w.indent else 0

/-- What one character adds to the text. -/
theorem written_put_reverse : (w.put c).written.reverse
    = w.written.reverse
      ++ (List.replicate (if c = '\n' then 0 else w.margin) ' ' ++ [c]) := by
  unfold margin
  rw [written_put_eq]
  by_cases hc : c = '\n' <;> simp [hc]

theorem lexer_put (hc : c ≠ '\n') :
    (w.put c).lexer = (w.lexer.takeAll (List.replicate w.margin ' ')).take c := by
  unfold lexer
  rw [written_put_reverse, if_neg hc, Lexer.takeAll_append, Lexer.takeAll_append]
  rfl

theorem lexer_newline : (w.put '\n').lexer = w.lexer.take '\n' := by
  unfold lexer
  rw [written_put_reverse, Lexer.takeAll_append]
  rfl

theorem margin_of_not_atLineStart (h : w.atLineStart = false) : w.margin = 0 := by
  unfold margin
  rw [h]
  rfl

theorem lexer_put_inside (hw : w.atLineStart = false) : (w.put c).lexer = w.lexer.take c := by
  by_cases hc : c = '\n'
  · rw [hc]
    exact lexer_newline
  · rw [lexer_put hc, margin_of_not_atLineStart hw]
    rfl

-- =============================================================== remarks

/-- A slash where a comment may begin ends what is being read. -/
theorem lexer_slash (h : w.lexer.reading.extend? '/' = none) :
    (w.put '/').lexer = { w.lexer.flush with reading := .mark ['/'] } := by
  rw [lexer_put (by decide), Lexer.take_behind_spaces _ (fun _ => h) (Reading.extend?_space h),
    Reading.start_slash]

/-- The text of a comment to the end of the line is read over. -/
theorem lexer_line {cs : List Char} (h : w.lexer = ⟨symbols, .lineComment⟩)
    (hw : w.atLineStart = false) (hcs : cs.all (fun c => !isTerminator c) = true) :
    (w.writeChars cs).lexer = ⟨symbols, .lineComment⟩ ∧ (w.writeChars cs).atLineStart = false := by
  induction cs generalizing w with
  | nil => exact ⟨h, hw⟩
  | cons c cs ih =>
    rw [List.all_cons, Bool.and_eq_true, Bool.not_eq_true'] at hcs
    have hc : (c == '\n') = false := by
      refine beq_eq_false_iff_ne.2 fun he => ?_
      rw [he] at hcs
      exact absurd hcs.1 (by decide)
    refine ih ?_ (atLineStart_put.trans hc) hcs.2
    rw [lexer_put_inside hw, h, Lexer.take_of_some (r := .lineComment) (by simp [Reading.extend?, hcs.1])]

theorem takeAll_spaces_block (n : Nat) :
    Lexer.takeAll ⟨symbols, .blockComment false⟩ (List.replicate n ' ')
      = ⟨symbols, .blockComment false⟩ := by
  induction n with
  | zero => rfl
  | succ n ih => exact ih

/-- A character that does not close the comment, indented or not. -/
theorem lexer_put_block {starred : Bool} (h : w.lexer = ⟨symbols, .blockComment starred⟩)
    (hw : w.atLineStart = true → starred = false) (hc : (starred && c == '/') = false) :
    (w.put c).lexer = ⟨symbols, .blockComment (c == '*')⟩ := by
  have htake : ∀ s, (s && c == '/') = false →
      Lexer.take ⟨symbols, .blockComment s⟩ c = ⟨symbols, .blockComment (c == '*')⟩ := fun s hs =>
    Lexer.take_of_some (by simp [Reading.extend?, hs])
  cases hstart : w.atLineStart with
  | false =>
    rw [lexer_put_inside hstart, h]
    exact htake starred hc
  | true =>
    obtain rfl := hw hstart
    by_cases hn : c = '\n'
    · subst hn
      rw [lexer_newline, h]
      exact htake false hc
    · rw [lexer_put hn, h, takeAll_spaces_block]
      exact htake false hc

/-- The text of an enclosed comment is read over, its indented lines too. -/
theorem lexer_block {cs : List Char} {starred : Bool}
    (h : w.lexer = ⟨symbols, .blockComment starred⟩) (hw : w.atLineStart = true → starred = false)
    (hcs : ¬ ['*', '/'] <:+: cs) (hfirst : starred = true → cs.head? ≠ some '/') :
    ∃ starred, (w.writeChars cs).lexer = ⟨symbols, .blockComment starred⟩
      ∧ ((w.writeChars cs).atLineStart = true → starred = false) := by
  induction cs generalizing w starred with
  | nil => exact ⟨starred, h, hw⟩
  | cons c cs ih =>
    have hc : (starred && c == '/') = false := by
      cases starred with
      | false => rfl
      | true => exact beq_eq_false_iff_ne.2 fun he => hfirst rfl (congrArg some he)
    refine ih (lexer_put_block h hw hc) (fun hn => ?_)
      (fun hin => hcs (hin.trans (List.suffix_cons c cs).isInfix)) fun hstar hhead => ?_
    · rw [atLineStart_put, beq_iff_eq] at hn
      subst hn
      rfl
    · obtain ⟨rest, rfl⟩ : ∃ rest, cs = '/' :: rest := by
        cases cs with
        | nil => cases hhead
        | cons d rest => exact ⟨rest, by rw [Option.some.inj hhead]⟩
      rw [beq_iff_eq.1 hstar] at hcs
      exact hcs (List.prefix_append ['*', '/'] rest).isInfix

/-- A comment that ends with its line leaves a gap. -/
theorem lexer_lineRemark {cs : List Char} (h : w.lexer.reading.extend? '/' = none)
    (hcs : cs.all (fun c => !isTerminator c) = true) :
    (w.writeChars ('/' :: '/' :: cs ++ ['\n'])).lexer = w.lexer.flush := by
  have hopened : ((w.put '/').put '/').lexer = ⟨w.lexer.flush.symbols, .lineComment⟩ := by
    rw [lexer_put_inside atLineStart_put, lexer_slash h]
    exact Lexer.take_of_some Reading.extend?_slash_slash
  obtain ⟨hbody, hstart⟩ := lexer_line hopened atLineStart_put hcs
  show ((((w.put '/').put '/').writeChars (cs ++ ['\n'])).lexer) = _
  rw [writeChars_append]
  show ((((w.put '/').put '/').writeChars cs).put '\n').lexer = _
  rw [lexer_newline, hbody]
  rfl

/-- So does one that is enclosed. -/
theorem lexer_blockRemark {cs : List Char} (h : w.lexer.reading.extend? '/' = none)
    (hcs : ¬ ['*', '/'] <:+: cs) :
    (w.writeChars ('/' :: '*' :: ' ' :: cs ++ [' ', '*', '/', ' '])).lexer = w.lexer.flush := by
  have hopened : ((w.put '/').put '*').lexer = ⟨w.lexer.flush.symbols, .blockComment false⟩ := by
    rw [lexer_put_inside atLineStart_put, lexer_slash h]
    exact Lexer.take_of_some Reading.extend?_slash_star
  have hspace : (((w.put '/').put '*').put ' ').lexer
      = ⟨w.lexer.flush.symbols, .blockComment false⟩ := lexer_put_block hopened nofun rfl
  obtain ⟨starred, hbody, hstart⟩ := lexer_block hspace (fun _ => rfl) hcs nofun
  show ((((w.put '/').put '*').put ' ').writeChars (cs ++ [' ', '*', '/', ' '])).lexer = _
  rw [writeChars_append]
  generalize (((w.put '/').put '*').put ' ').writeChars cs = w₁ at hbody hstart
  show ((((w₁.put ' ').put '*').put '/').put ' ').lexer = _
  have hlast : (w₁.put ' ').lexer = ⟨w.lexer.flush.symbols, .blockComment false⟩ :=
    lexer_put_block hbody hstart (by simp)
  rw [lexer_put_inside atLineStart_put, lexer_put_inside atLineStart_put,
    lexer_put_inside atLineStart_put, hlast]
  show w.lexer.flush.take ' ' = _
  rw [Lexer.take_flush, Reading.start_space]
  rfl

/-- The marks around the text of a remark make it a comment. -/
theorem lexer_doc {text : List Char} (h : w.lexer.reading.extend? '/' = none)
    (htext : text.all (fun c => !isTerminator c) = true) :
    (w.writeChars ("/// <summary> ".toList ++ text ++ " </summary>\n".toList)).lexer
      = w.lexer.flush := by
  have hcs : ("/ <summary> ".toList ++ text ++ " </summary>".toList).all
      (fun c => !isTerminator c) = true := by
    rw [List.all_append, List.all_append, htext]
    rfl
  have hmarks : "/// <summary> ".toList ++ text ++ " </summary>\n".toList
      = '/' :: '/' :: ("/ <summary> ".toList ++ text ++ " </summary>".toList) ++ ['\n'] := by
    simp
  rw [hmarks]
  exact lexer_lineRemark h hcs

theorem lexer_comment {text : List Char} (h : w.lexer.reading.extend? '/' = none)
    (htext : text.all (fun c => !isTerminator c) = true) :
    (w.writeChars ("// ".toList ++ text ++ "\n".toList)).lexer = w.lexer.flush := by
  have hcs : (' ' :: text).all (fun c => !isTerminator c) = true := by
    rw [List.all_cons, htext]
    rfl
  exact lexer_lineRemark h hcs

end Writer

-- ========================================================= what is beside

/-- Nothing in a remark ends it: a line, unless the remark is enclosed, or
the end of what encloses it. -/
structure Notes.Contained (inline : Bool) (notes : Notes) : Prop where
  doc : ∀ d ∈ notes.doc, d.toList.all (fun c => !isTerminator c) = true
  comment : ∀ c ∈ notes.comment,
    if inline then ¬ ['*', '/'] <:+: c.toList
    else c.toList.all (fun c => !isTerminator c) = true

instance (inline : Bool) (notes : Notes) : Decidable (notes.Contained inline) :=
  decidable_of_iff ((∀ d ∈ notes.doc, d.toList.all (fun c => !isTerminator c) = true)
      ∧ ∀ c ∈ notes.comment, if inline then ¬ ['*', '/'] <:+: c.toList
        else c.toList.all (fun c => !isTerminator c) = true)
    ⟨fun ⟨doc, comment⟩ => ⟨doc, comment⟩, fun ⟨doc, comment⟩ => ⟨doc, comment⟩⟩

namespace Token

/-- The token is of the code itself. -/
def isCode : Token → Bool
  | .commentBegin | .commentEnd | .inlineComments | .restoreComments | .docBegin | .docEnd => false
  | _ => true

/-- A remark begins. -/
def beginsRemark : Token → Bool
  | .commentBegin | .docBegin => true
  | _ => false

/-- Code with remarks between its tokens, each of which is contained. -/
inductive Annotated : List Token → Prop
  | nil : Annotated []
  | code {token : Token} {rest : List Token} : token.isCode = true → Annotated rest →
    Annotated (token :: rest)
  | doc {s : String} {rest : List Token} : s.toList.all (fun c => !isTerminator c) = true →
    Annotated rest → Annotated (.docBegin :: .text s :: .docEnd :: rest)
  | comment {s : String} {rest : List Token} : s.toList.all (fun c => !isTerminator c) = true →
    Annotated rest → Annotated (.commentBegin :: .text s :: .commentEnd :: rest)
  | inline {s : String} {rest : List Token} : ¬ ['*', '/'] <:+: s.toList → Annotated rest →
    Annotated (.inlineComments :: .commentBegin :: .text s :: .commentEnd :: .restoreComments
      :: rest)

variable {as bs : List Token} {i : NodeId}

theorem Annotated.append (ha : Annotated as) (hb : Annotated bs) : Annotated (as ++ bs) := by
  induction ha with
  | nil => exact hb
  | code h _ ih => exact .code h ih
  | doc h _ ih => exact .doc h ih
  | comment h _ ih => exact .comment h ih
  | inline h _ ih => exact .inline h ih

theorem annotated_remarks {notes : Notes} {inline : Bool} (h : notes.Contained inline) :
    Annotated (remarks notes inline) := by
  unfold remarks
  refine Annotated.append ?_ ?_
  · cases hdoc : notes.doc with
    | none => exact .nil
    | some d => exact .doc (h.doc d hdoc) .nil
  · cases hcomment : notes.comment with
    | none => cases inline <;> exact .nil
    | some c =>
      have hcontained := h.comment c hcomment
      cases inline with
      | false => exact .comment hcontained .nil
      | true => exact .inline hcontained .nil

theorem Annotated.nested (h : Annotated as) : Annotated (.nest i :: as ++ [.unnest i]) :=
  .code rfl (h.append (.code rfl .nil))

theorem Annotated.headed (h : Annotated as) : Annotated (headed i as) := by
  have hbehind : Annotated [.exitNamespace, .text "\x7d\n"] := .code rfl (.code rfl .nil)
  have hheader : Annotated (.text "namespace " :: .qualifiedName i :: .text "\n\x7b\n"
      :: .enterNamespace i :: (.nest i :: as ++ [.unnest i] ++ [.exitNamespace, .text "\x7d\n"])) :=
    .code rfl (.code rfl (.code rfl (.code rfl (h.nested.append hbehind))))
  simpa [Token.headed, word] using hheader

theorem Composed.annotated {kind : Kind} {P : List Token → Prop} (h : Composed i kind P as)
    (hP : ∀ bs, P bs → Annotated bs) : Annotated as :=
  h.holds .nil (fun _ => .code rfl .nil) Annotated.append Annotated.nested Annotated.headed hP

end Token

namespace Tree

variable {t : Tree} {root : NodeId} {tokens : List Token}

/-- Every remark at and below `root` is contained. -/
def RemarksContained (t : Tree) (root : NodeId) : Prop :=
  ∀ i n, t.Within i root → t.node? i = some n →
    n.notes.Contained (n.kind.exprType.isSome || n.kind == .self)

theorem Sound.tokens_annotated (hs : t.Sound) (hcontained : t.RemarksContained root)
    (h : t.tokens root = .ok tokens) : Token.Annotated tokens := by
  refine tokens_holds (Q := fun i as => t.RemarksContained i → Token.Annotated as)
    (fun _ _ => .nil) (fun i n as hn has hi => ?_) h hcontained
  refine (Token.annotated_remarks (hi i n .refl hn)).append (has.annotated fun bs hbs => ?_)
  obtain ⟨c, hc, hbs⟩ := hbs
  exact hbs fun j m hj => hi j m (hj.tail (hs.mem_children_iff.1 hc))

end Tree

-- ============================================================ two writers

/-- No remark is written. -/
def EmitOptions.bare : EmitOptions := { comments := false, docs := false }

/-- Between the two pieces of a text one symbol ends and another begins,
also if a comment is put there. -/
def Between (before after : List Char) : Prop :=
  (Lexer.takeAll {} before).reading.extend? '/' = none
    ∧ ∀ c ∈ after.head?, (Lexer.takeAll {} before).reading.extend? c = none

instance (before after : List Char) : Decidable (Between before after) :=
  decidable_of_iff ((Lexer.takeAll {} before).reading.extend? '/' = none
      ∧ after.head?.bind (Lexer.takeAll {} before).reading.extend? = none)
    (and_congr_right fun _ => Option.bind_eq_none_iff)

namespace Writer

variable {t : Tree} {options : EmitOptions} {u u' v v' : Writer} {text : List Char}
  {as rest : List Token} {token : Token} {c : Char}

/-- Where remarks begin, if none is written: the number of characters that
are there before each. -/
def places (t : Tree) (w : Writer) : List Token → List Nat
  | [] => []
  | token :: rest =>
    (if token.beginsRemark then [w.written.length] else [])
      ++ match w.consume t .bare token with
        | .ok w' => places t w' rest
        | .error _ => []

/-- Beside their texts the writers do not differ, and they are in no
remark. -/
structure Paired (u v : Writer) : Prop where
  indent : v.indent = u.indent
  namespaces : v.namespaces = u.namespaces
  inline : u.inline = [] ∧ v.inline = []
  suppressed : u.suppressed = 0 ∧ v.suppressed = 0

/-- What `u` has written is part of `text`, and `v` has the same symbols:
it reads the same, or it is behind a remark and what `u` reads ends here. -/
inductive Sim (text : List Char) (u v : Writer) : Prop
  | level : v.lexer = u.lexer → v.atLineStart = u.atLineStart → Sim text u v
  | behind : v.lexer = u.lexer.flush →
    Between u.written.reverse (text.drop u.written.length) → Sim text u v

theorem Sim.finish (h : Sim text u v) : v.lexer.finish = u.lexer.finish := by
  cases h with
  | level h _ => rw [h]
  | behind h _ => rw [h, Lexer.finish_flush]

/-- Only what is written matters. -/
theorem Sim.congr (h : Sim text u v) (hu : u'.written = u.written) (hv : v'.written = v.written) :
    Sim text u' v' := by
  cases h with
  | level hlexer hstart =>
    refine .level ?_ ?_
    · unfold lexer
      rw [hu, hv]
      exact hlexer
    · unfold atLineStart
      rw [hu, hv]
      exact hstart
  | behind hlexer hbetween =>
    refine .behind ?_ ?_
    · unfold lexer
      rw [hu, hv]
      exact hlexer
    · rw [hu]
      exact hbetween

/-- The same character brings both writers level. -/
theorem Sim.put (h : Sim text u v) (hindent : v.indent = u.indent)
    (htext : (u.put c).written.reverse <+: text) : Sim text (u.put c) (v.put c) := by
  refine .level ?_ rfl
  cases h with
  | level hlexer hstart =>
    by_cases hc : c = '\n'
    · rw [hc, lexer_newline, lexer_newline, hlexer]
    · rw [lexer_put hc, lexer_put hc, hlexer]
      unfold margin
      rw [hstart, hindent]
  | behind hlexer hbetween =>
    obtain ⟨hslash, hnext⟩ := hbetween
    have hspace := Reading.extend?_space hslash
    obtain ⟨rest, rfl⟩ := htext
    rw [written_put_reverse, List.append_assoc, ← List.length_reverse, List.drop_left] at hnext
    by_cases hc : c = '\n'
    · subst hc
      have hends : u.lexer.reading.extend? '\n' = none := hnext '\n' rfl
      rw [lexer_newline, lexer_newline, hlexer, Lexer.take_flush, Lexer.take_of_none hends]
    · have hfirst : u.margin = 0 → u.lexer.reading.extend? c = none := fun h0 => by
        rw [if_neg hc, h0] at hnext
        exact hnext c rfl
      rw [lexer_put hc, lexer_put hc, hlexer, Lexer.take_behind_spaces _ hfirst hspace,
        Lexer.takeAll_spaces_flush, Lexer.take_flush]

theorem Sim.writeChars {cs : List Char} (h : Sim text u v) (hindent : v.indent = u.indent)
    (htext : (u.writeChars cs).written.reverse <+: text) :
    Sim text (u.writeChars cs) (v.writeChars cs) := by
  induction cs generalizing u v with
  | nil => exact h
  | cons c cs ih =>
    have hput : (u.put c).written.reverse <+: text :=
      (List.reverse_prefix.2 (written_writeChars (u.put c) cs)).trans htext
    exact ih (h.put hindent hput) hindent htext

/-- A token of the code does the same to both writers. -/
theorem Sim.code (h : Sim text u v) (hp : Paired u v) (hcode : token.isCode = true)
    (hu : u.consume t .bare token = .ok u') (hv : v.consume t options token = .ok v')
    (htext : u'.written.reverse <+: text) : Sim text u' v' ∧ Paired u' v' := by
  obtain ⟨hindent, hnamespaces, hinline, hsuppressed⟩ := hp
  have hspelled : v.spelled t options token = u.spelled t .bare token := by
    cases token with
    | commentBegin | commentEnd | inlineComments | restoreComments | docBegin | docEnd =>
      cases hcode
    | text s => simp [spelled, hsuppressed]
    | qualifiedName i => simp [spelled, hnamespaces]
    | _ => rfl
  rw [consume_eq hu] at htext ⊢
  rw [consume_eq hv, hspelled]
  refine ⟨(h.writeChars hindent htext).congr rfl rfl, ?_⟩
  cases token with
  | commentBegin | commentEnd | inlineComments | restoreComments | docBegin | docEnd => cases hcode
  | text | qualifiedName => exact ⟨hindent, hnamespaces, hinline, hsuppressed⟩
  | nest i => exact ⟨congrArg (· + _) hindent, hnamespaces, hinline, hsuppressed⟩
  | unnest i => exact ⟨congrArg (· - _) hindent, hnamespaces, hinline, hsuppressed⟩
  | enterNamespace i => exact ⟨hindent, congrArg (i :: ·) hnamespaces, hinline, hsuppressed⟩
  | exitNamespace => exact ⟨hindent, congrArg List.tail hnamespaces, hinline, hsuppressed⟩

/-- Where a remark has been written, the writer with remarks is behind it. -/
theorem Sim.remark {cs : List Char} (h : Sim text u v)
    (hbetween : Between u.written.reverse (text.drop u.written.length))
    (hcs : v.lexer.reading.extend? '/' = none → (v.writeChars cs).lexer = v.lexer.flush) :
    Sim text u (v.writeChars cs) := by
  cases h with
  | level hlexer _ =>
    have hslash : v.lexer.reading.extend? '/' = none := hlexer ▸ hbetween.1
    exact .behind ((hcs hslash).trans (congrArg Lexer.flush hlexer)) hbetween
  | behind hlexer _ =>
    have hslash : v.lexer.reading.extend? '/' = none := by
      rw [hlexer]
      rfl
    refine .behind ?_ hbetween
    rw [hcs hslash, hlexer, Lexer.flush_flush]

theorem consumeAll_cons_ok (h : u.consume t options token = .ok u') :
    u.consumeAll t options (token :: rest) = u'.consumeAll t options rest := by
  rw [consumeAll_cons, h]
  rfl

/-- Writes the characters or does not. -/
def showing (w : Writer) (shown : Bool) (cs : List Char) : Writer :=
  if shown then w.writeChars cs else w

/-- A remark is written, between its marks, or nothing happens. -/
theorem consumeAll_remark {opening closing : Token} {shown : Bool} {lead trail s : String}
    (hw : u.suppressed = 0)
    (hopening : u.consume t options opening
      = .ok (if shown then u.write lead else { u with suppressed := u.suppressed + 1 }))
    (hclosing : ∀ w : Writer, w.inline = u.inline → w.consume t options closing
      = .ok (if shown then w.write trail else { w with suppressed := w.suppressed - 1 })) :
    u.consumeAll t options (opening :: .text s :: closing :: rest)
      = (u.showing shown (lead.toList ++ s.toList ++ trail.toList)).consumeAll t options rest := by
  rw [consumeAll_cons_ok hopening]
  cases shown with
  | false =>
    have htext : Writer.consume t options { u with suppressed := u.suppressed + 1 } (.text s)
        = .ok { u with suppressed := u.suppressed + 1 } := rfl
    exact (consumeAll_cons_ok htext).trans (consumeAll_cons_ok (hclosing _ rfl))
  | true =>
    have hkept : (u.write lead).suppressed = 0 ∧ (u.write lead).inline = u.inline := by
      rw [write_eq, writeChars_written]
      exact ⟨hw, rfl⟩
    have htext : (u.write lead).consume t options (.text s) = .ok ((u.write lead).write s) :=
      congrArg Except.ok (if_pos hkept.1)
    have hinline : ((u.write lead).write s).inline = u.inline := by
      rw [write_eq, writeChars_written]
      exact hkept.2
    show (u.write lead).consumeAll t options (.text s :: closing :: rest) = _
    rw [consumeAll_cons_ok htext, consumeAll_cons_ok (hclosing _ hinline)]
    show (((u.write lead).write s).write trail).consumeAll t options rest
      = (u.writeChars (lead.toList ++ s.toList ++ trail.toList)).consumeAll t options rest
    rw [write_eq, write_eq, write_eq, writeChars_append, writeChars_append]

/-- The marks around a remark. -/
theorem consumeAll_doc {s : String} (hw : u.suppressed = 0) :
    u.consumeAll t options (.docBegin :: .text s :: .docEnd :: rest)
      = (u.showing options.docs ("/// <summary> ".toList ++ s.toList
          ++ " </summary>\n".toList)).consumeAll t options rest :=
  consumeAll_remark hw rfl fun _ _ => rfl

theorem consumeAll_comment {s : String} (hw : u.suppressed = 0) (hinline : u.inline = []) :
    u.consumeAll t options (.commentBegin :: .text s :: .commentEnd :: rest)
      = (u.showing options.comments ("// ".toList ++ s.toList
          ++ "\n".toList)).consumeAll t options rest := by
  have hmark : ∀ w : Writer, w.inline = u.inline → w.isInline = false := fun w hi => by
    unfold isInline
    rw [hi, hinline]
    rfl
  refine consumeAll_remark hw ?_ fun w hi => ?_
  · show Except.ok (if options.comments then u.write (if u.isInline then "/* " else "// ") else _) = _
    rw [hmark u rfl]
    rfl
  · show Except.ok (if options.comments then w.write (if w.isInline then " */ " else "\n") else _) = _
    rw [hmark w hi]
    rfl

theorem showing_inline (w : Writer) (inline : List Bool) (shown : Bool) (cs : List Char) :
    Writer.showing { w with inline := inline } shown cs
      = { w.showing shown cs with inline := inline } := by
  cases shown with
  | false => rfl
  | true =>
    show Writer.writeChars { w with inline := inline } cs = { w.writeChars cs with inline := inline }
    induction cs generalizing w with
    | nil => rfl
    | cons c cs ih => exact ih (w.put c)

theorem inline_showing (w : Writer) (shown : Bool) (cs : List Char) :
    (w.showing shown cs).inline = w.inline := by
  cases shown with
  | false => rfl
  | true =>
    show (w.writeChars cs).inline = w.inline
    rw [writeChars_written]

theorem consumeAll_inline {s : String} (hw : u.suppressed = 0) :
    u.consumeAll t options (.inlineComments :: .commentBegin :: .text s :: .commentEnd
        :: .restoreComments :: rest)
      = (u.showing options.comments ("/* ".toList ++ s.toList
          ++ " */ ".toList)).consumeAll t options rest := by
  let u₁ : Writer := { u with inline := true :: u.inline }
  have hremark : u₁.consumeAll t options (.commentBegin :: .text s :: .commentEnd
      :: .restoreComments :: rest) = (u₁.showing options.comments ("/* ".toList ++ s.toList
          ++ " */ ".toList)).consumeAll t options (.restoreComments :: rest) := by
    refine consumeAll_remark hw rfl fun w hi => ?_
    have hmark : w.isInline = true := by
      unfold isInline
      rw [hi]
      rfl
    show Except.ok (if options.comments then w.write (if w.isInline then " */ " else "\n") else _) = _
    rw [hmark]
    rfl
  have hopening : u.consume t options .inlineComments = .ok u₁ := rfl
  rw [consumeAll_cons_ok hopening, hremark, showing_inline]
  refine consumeAll_cons_ok (congrArg Except.ok ?_)
  show { u.showing _ _ with inline := u.inline } = u.showing _ _
  rw [← inline_showing u options.comments]

/-- A remark that is not written takes no room. -/
theorem places_doc {s : String} :
    u.places t (.docBegin :: .text s :: .docEnd :: rest) = u.written.length :: u.places t rest :=
  rfl

theorem places_comment {s : String} :
    u.places t (.commentBegin :: .text s :: .commentEnd :: rest)
      = u.written.length :: u.places t rest := rfl

theorem places_inline {s : String} :
    u.places t (.inlineComments :: .commentBegin :: .text s :: .commentEnd :: .restoreComments
      :: rest) = u.written.length :: u.places t rest := rfl

theorem places_code (hcode : token.isCode = true) (hu : u.consume t .bare token = .ok u') :
    u.places t (token :: rest) = u'.places t rest := by
  rw [places, hu]
  cases token <;> first | rfl | cases hcode

/-- A remark, shown or not, leaves the writers as they should be. -/
theorem Sim.showing {shown : Bool} {cs : List Char} (h : Sim text u v) (hp : Paired u v)
    (hbetween : Between u.written.reverse (text.drop u.written.length))
    (hcs : v.lexer.reading.extend? '/' = none → (v.writeChars cs).lexer = v.lexer.flush) :
    Sim text u (v.showing shown cs) ∧ Paired u (v.showing shown cs) := by
  cases shown with
  | false => exact ⟨h, hp⟩
  | true =>
    refine ⟨h.remark hbetween hcs, ?_⟩
    show Paired u (v.writeChars cs)
    rw [writeChars_written]
    exact ⟨hp.indent, hp.namespaces, hp.inline, hp.suppressed⟩

end Writer

namespace Token

open Writer (Paired Sim)

variable {t : Tree} {options : EmitOptions} {u v u' v' : Writer} {text : List Char}
  {as : List Token}

/-- Two writers that take the same stream, one of which writes no remark. -/
theorem Annotated.sim (h : Annotated as) (hs : Sim text u v) (hp : Paired u v)
    (hu : u.consumeAll t .bare as = .ok u') (htext : u'.written.reverse = text)
    (hplaces : ∀ k ∈ u.places t as, Between (text.take k) (text.drop k))
    (hv : v.consumeAll t options as = .ok v') : Sim text u' v' := by
  -- what stands before the place of a remark is what has been written
  have hbefore : ∀ {w : Writer} {rest : List Token} {k : Nat}, w.consumeAll t .bare rest = .ok u' →
      k = w.written.length → Between (text.take k) (text.drop k) →
      Between w.written.reverse (text.drop w.written.length) := by
    rintro w rest _ hw rfl hk
    have hpre : w.written.reverse <+: text :=
      htext ▸ List.reverse_prefix.2 (Writer.written_consumeAll hw)
    rw [← List.length_reverse, ← List.prefix_iff_eq_take.1 hpre] at hk
    rwa [← List.length_reverse]
  induction h generalizing u v with
  | nil =>
    obtain rfl := Except.ok.inj hu
    obtain rfl := Except.ok.inj hv
    exact hs
  | @code token rest hcode _ ih =>
    rw [Writer.consumeAll_cons] at hu hv
    obtain ⟨u₁, hu₁, hu⟩ := bind_eq_ok_iff.1 hu
    obtain ⟨v₁, hv₁, hv⟩ := bind_eq_ok_iff.1 hv
    have hpre : u₁.written.reverse <+: text :=
      htext ▸ List.reverse_prefix.2 (Writer.written_consumeAll hu)
    obtain ⟨hs₁, hp₁⟩ := hs.code hp hcode hu₁ hv₁ hpre
    rw [Writer.places_code hcode hu₁] at hplaces
    exact ih hs₁ hp₁ hu hplaces hv
  | @doc s rest hclosed _ ih =>
    rw [Writer.consumeAll_doc hp.suppressed.1] at hu
    rw [Writer.consumeAll_doc hp.suppressed.2] at hv
    rw [Writer.places_doc, List.forall_mem_cons] at hplaces
    obtain ⟨hs₁, hp₁⟩ := hs.showing hp (hbefore hu rfl hplaces.1) fun hq =>
      Writer.lexer_doc hq hclosed
    exact ih hs₁ hp₁ hu hplaces.2 hv
  | @comment s rest hclosed _ ih =>
    rw [Writer.consumeAll_comment hp.suppressed.1 hp.inline.1] at hu
    rw [Writer.consumeAll_comment hp.suppressed.2 hp.inline.2] at hv
    rw [Writer.places_comment, List.forall_mem_cons] at hplaces
    obtain ⟨hs₁, hp₁⟩ := hs.showing hp (hbefore hu rfl hplaces.1) fun hq =>
      Writer.lexer_comment hq hclosed
    exact ih hs₁ hp₁ hu hplaces.2 hv
  | @inline s rest hclosed _ ih =>
    rw [Writer.consumeAll_inline hp.suppressed.1] at hu
    rw [Writer.consumeAll_inline hp.suppressed.2] at hv
    rw [Writer.places_inline, List.forall_mem_cons] at hplaces
    obtain ⟨hs₁, hp₁⟩ := hs.showing hp (hbefore hu rfl hplaces.1) fun hq =>
      Writer.lexer_blockRemark hq hclosed
    exact ih hs₁ hp₁ hu hplaces.2 hv

end Token

namespace Tree

variable {t : Tree} {root : NodeId}

/-- The places of the remarks in the text that is written without them. -/
def remarkPlaces (t : Tree) (root : NodeId) : List Nat :=
  match t.tokens root with
  | .ok tokens => Writer.places t {} tokens
  | .error _ => []

/-- Without remarks, the text could be cut wherever one would stand. -/
def RemarksApart (t : Tree) (root : NodeId) : Prop :=
  ∀ text, t.emit root .bare = .ok text →
    ∀ k ∈ t.remarkPlaces root, Between (text.toList.take k) (text.toList.drop k)

/-- With remarks or without, the text has the symbols of the code. -/
theorem symbols_bare (hs : t.Sound) (hcontained : t.RemarksContained root)
    (hapart : t.RemarksApart root) {options : EmitOptions} {text bare : String}
    (hbare : t.emit root .bare = .ok bare) (htext : t.emit root options = .ok text) :
    symbols text = symbols bare := by
  have hapart := hapart bare hbare
  obtain ⟨tokens, htokens, hbare⟩ := bind_eq_ok_iff.1 hbare
  obtain ⟨tokens', htokens', htext⟩ := bind_eq_ok_iff.1 htext
  obtain rfl := Except.ok.inj (htokens.symm.trans htokens')
  obtain ⟨u, hu, hbare⟩ := bind_eq_ok_iff.1 hbare
  obtain ⟨v, hv, htext⟩ := bind_eq_ok_iff.1 htext
  obtain rfl := Except.ok.inj hbare
  obtain rfl := Except.ok.inj htext
  have hchars : u.text.toList = u.written.reverse := String.toList_ofList
  have hplaces : t.remarkPlaces root = Writer.places t {} tokens := by
    unfold remarkPlaces
    rw [htokens]
  rw [hchars, hplaces] at hapart
  have hsim := (hs.tokens_annotated hcontained htokens).sim (.level rfl rfl)
    ⟨rfl, rfl, ⟨rfl, rfl⟩, ⟨rfl, rfl⟩⟩ hu rfl hapart hv
  have hread : ∀ w : Writer, symbols w.text = w.lexer.finish := fun w => by
    unfold symbols Writer.lexer Writer.text
    rw [String.toList_ofList]
  rw [hread, hread, hsim.finish]

/-- Remarks make no difference to the symbols of the code: if each stands
between two symbols and holds nothing that would end it, code without holes
has a text for all options and every text has the same symbols. -/
theorem emit_symbols (hs : t.Sound) (hroot : root < t.size)
    (hfree : ∀ j, t.Within j root → t.kind? j ≠ some .hole)
    (hcontained : t.RemarksContained root) (hapart : t.RemarksApart root)
    (options options' : EmitOptions) :
    ∃ text text', t.emit root options = .ok text ∧ t.emit root options' = .ok text'
      ∧ symbols text = symbols text' := by
  obtain ⟨x, rfl, hx, hwithin⟩ := hs.exists_term hroot
  have hshape : x.shape.HoleFree := hx.holeFree_iff.2 fun j hj => hfree j ((hwithin j).1 hj)
  obtain ⟨bare, hbare⟩ := emit_holeFree hx hshape .bare
  obtain ⟨text, htext⟩ := emit_holeFree hx hshape options
  obtain ⟨text', htext'⟩ := emit_holeFree hx hshape options'
  exact ⟨text, text', htext, htext', (symbols_bare hs hcontained hapart hbare htext).trans
    (symbols_bare hs hcontained hapart hbare htext').symm⟩

/-- What holds of every node can be read off an arena. -/
theorem of_mem_nodes {P : Node → Prop} (h : ∀ n ∈ t.nodes.toList, P n) {i : NodeId} {n : Node}
    (hn : t.node? i = some n) : P n :=
  h n (Array.mem_toList_iff.2 (Array.mem_of_getElem? hn))

theorem not_hole_of_nodes (h : ∀ n ∈ t.nodes.toList, n.kind ≠ .hole) (i : NodeId) :
    t.kind? i ≠ some .hole := fun hi => by
  obtain ⟨n, hn, hk⟩ := Option.map_eq_some_iff.1 hi
  exact of_mem_nodes h hn hk

/-- A class with a doc. Its method has a comment on a statement and one on
an expression. -/
def remarkedClass : Tree := Tree.built [.leaf (.snippetExpr "x" .int),
  .annotate 0 fun notes => { notes with comment := some "was\ny" }, .returnStmt (some 0),
  .annotate 1 fun notes => { notes with comment := some "*/ done" }, .methodDecl "Run" {} [] [1],
  .classDecl "Device" {} [] [] [2] [], .annotate 3 fun notes => { notes with doc := some "One." }]

theorem remarkedClass_apart : remarkedClass.RemarksApart 3 := by
  intro text htext
  have hbare : remarkedClass.emit 3 .bare = .ok
      "class Device\n\x7b\n    void Run()\n    \x7b\n        return x;\n    \x7d\n\x7d\n" := by
    decide
  have hplaces : remarkedClass.remarkPlaces 3 = [0, 36, 51] := by decide
  obtain rfl := Except.ok.inj (hbare.symm.trans htext)
  rw [hplaces]
  decide

/-- What closes an enclosed comment does no harm in a comment to the end of
its line, nor does a line feed in an enclosed one. -/
theorem emit_symbols_remarkedClass :
    ∃ text text', remarkedClass.emit 3 { comments := true } = .ok text
      ∧ remarkedClass.emit 3 .bare = .ok text' ∧ symbols text = symbols text' := by
  refine emit_symbols (sound_built _) (by decide)
    (fun j _ => not_hole_of_nodes (by decide) j) (fun i n _ hn => ?_) remarkedClass_apart _ _
  exact of_mem_nodes
    (P := fun n => n.notes.Contained (n.kind.exprType.isSome || n.kind == .self)) (by decide) hn

/-- The options make a difference to the symbols of a text, though every
node is code. -/
def Leaks (t : Tree) (root : NodeId) : Prop :=
  t.Sound ∧ (∀ j, t.Within j root → t.kind? j ≠ some .hole)
    ∧ ∃ options options' text text', t.emit root options = .ok text
      ∧ t.emit root options' = .ok text' ∧ symbols text ≠ symbols text'

/-- Two pieces of one name. A remark would stand between them. -/
def cutName : Tree := Tree.built [.leaf (.snippet "a"), .leaf (.snippet "b"),
  .annotate 1 fun notes => { notes with comment := some "c" }, .methodDecl "Run" {} [] [0, 1]]

/-- A statement with a doc of two lines. -/
def twoLineDoc : Tree := Tree.built [.returnStmt none,
  .annotate 0 fun notes => { notes with doc := some "a\nb();" }]

/-- An expression with a comment that holds what closes it. -/
def closedComment : Tree := Tree.built [.leaf (.snippetExpr "x" .int),
  .annotate 0 fun notes => { notes with comment := some "*/ done" }, .returnStmt (some 0)]

/-- A remark inside a symbol cuts it, and what is behind the end of a remark
becomes code: each tree breaks one of the conditions above. -/
theorem remarks_leak : cutName.Leaks 2 ∧ twoLineDoc.Leaks 0 ∧ closedComment.Leaks 1 := by
  refine ⟨⟨sound_built _, fun j _ => not_hole_of_nodes (by decide) j, ?_⟩,
    ⟨sound_built _, fun j _ => not_hole_of_nodes (by decide) j, ?_⟩,
    ⟨sound_built _, fun j _ => not_hole_of_nodes (by decide) j, ?_⟩⟩
  · exact ⟨{ comments := true }, .bare, "void Run()\n\x7b\n    a// c\n    b\x7d\n",
      "void Run()\n\x7b\n    ab\x7d\n", by decide, by decide, by decide⟩
  · exact ⟨{}, .bare, "/// <summary> a\nb(); </summary>\nreturn;\n", "return;\n",
      by decide, by decide, by decide⟩
  · exact ⟨{ comments := true }, .bare, "return /* */ done */ x;\n", "return x;\n",
      by decide, by decide, by decide⟩

end Tree

end RegisterMap.Code
