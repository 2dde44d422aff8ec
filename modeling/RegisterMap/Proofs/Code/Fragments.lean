/-
How text is cut does not show in what is written. A writer cuts a text
behind its line feeds and decides on the indentation of a piece from what
stands in front of it and from whether it is a line feed alone. Within a
line no other character asks for indentation, so that what is written is
the same as if every character were a piece of its own (`write_eq`), and
characters have nothing left to cut. Two streams of tokens that differ in
where their texts are cut leave the same writer (`recut_unseen`).
-/
import Mathlib.Data.List.SplitBy
import Mathlib.Logic.Relation
import RegisterMap.Code.Render

namespace RegisterMap.Code

-- ============================================================ characters

namespace Writer

/-- Writes one character, behind the indentation if it starts a line. -/
def put (w : Writer) (c : Char) : Writer :=
  let spaces := if w.atLineStart && c != '\n' then indentWidth * w.indent else 0
  { w with written := c :: (List.replicate spaces ' ' ++ w.written) }

def writeChars (w : Writer) (cs : List Char) : Writer := cs.foldl put w

variable {w : Writer} {c : Char} {cs piece : List Char}

@[simp] theorem atLineStart_put : (w.put c).atLineStart = (c == '\n') := rfl

theorem writeChars_append (w : Writer) (a b : List Char) :
    w.writeChars (a ++ b) = (w.writeChars a).writeChars b := by
  simp [writeChars, List.foldl_append]

/-- Writing changes nothing but the text. -/
theorem writeChars_written (w : Writer) (cs : List Char) :
    w.writeChars cs = { w with written := (w.writeChars cs).written } := by
  unfold writeChars
  induction cs generalizing w with
  | nil => rfl
  | cons c cs ih =>
    rw [List.foldl_cons, ih]
    rfl

theorem put_inside (hw : w.atLineStart = false) : w.put c = { w with written := c :: w.written } := by
  unfold put
  rw [hw]
  rfl

-- ================================================================ pieces

/-- A line feed is the last character. -/
def OneLine (cs : List Char) : Prop := cs.IsChain fun c _ => c ≠ '\n'

theorem oneLine_of_mem_pieces {s : String} (h : piece ∈ pieces s) : OneLine piece :=
  (List.isChain_of_mem_splitBy h).imp fun _ _ => bne_iff_ne.1

/-- Behind its first character a line is not indented. -/
theorem writeChars_inside (hw : w.atLineStart = false) (h : OneLine cs) :
    w.writeChars cs = { w with written := cs.reverse ++ w.written } := by
  induction cs generalizing w with
  | nil => rfl
  | cons c cs ih =>
    show (w.put c).writeChars cs = _
    cases cs with
    | nil => exact put_inside hw
    | cons next rest =>
      have hc : c ≠ '\n' := h.rel
      rw [ih (atLineStart_put.trans (beq_false_of_ne hc)) h.of_cons, put_inside hw]
      simp

/-- A piece is written as its characters are: if it is longer than a line
feed, it begins with another character. -/
theorem putPiece_eq (hne : piece ≠ []) (h : OneLine piece) :
    w.putPiece piece = w.writeChars piece := by
  obtain ⟨c, cs, rfl⟩ := List.exists_cons_of_ne_nil hne
  show _ = (w.put c).writeChars cs
  by_cases hc : c = '\n'
  · subst hc
    cases cs with
    | nil => rfl
    | cons next rest => exact absurd rfl h.rel
  · rw [writeChars_inside (atLineStart_put.trans (beq_false_of_ne hc)) h.of_cons]
    have hlonger : c :: cs ≠ ['\n'] := fun he => hc (List.cons.inj he).1
    simp [putPiece, put, hc, hlonger]

theorem write_eq (w : Writer) (s : String) : w.write s = w.writeChars s.toList := by
  calc w.write s
      = (pieces s).foldl writeChars w := List.foldl_ext _ _ _ fun _ piece hpiece =>
        putPiece_eq (List.ne_nil_of_mem_splitBy hpiece) (oneLine_of_mem_pieces hpiece)
    _ = w.writeChars (pieces s).flatten := List.foldl_flatten.symm
    _ = w.writeChars s.toList := by rw [pieces, List.flatten_splitBy]

theorem write_append (w : Writer) (a b : String) : w.write (a ++ b) = (w.write a).write b := by
  rw [write_eq, write_eq, write_eq, String.toList_append, writeChars_append]

theorem suppressed_write (w : Writer) (s : String) : (w.write s).suppressed = w.suppressed := by
  rw [write_eq, writeChars_written]

end Writer

-- =============================================================== streams

/-- The second stream has one text of the first as two. -/
inductive Token.Cut : List Token → List Token → Prop
  | text (before : List Token) (a b : String) (after : List Token) :
    Cut (before ++ .text (a ++ b) :: after) (before ++ .text a :: .text b :: after)

/-- The streams differ in where their texts are cut. -/
def Token.Recut : List Token → List Token → Prop := Relation.EqvGen Token.Cut

namespace Writer

variable {t : Tree} {options : EmitOptions} {tokens tokens' : List Token}

theorem consume_text_append (w : Writer) (a b : String) :
    w.consume t options (.text (a ++ b))
      = w.consume t options (.text a) >>= fun w₁ => w₁.consume t options (.text b) := by
  show Except.ok (if w.suppressed = 0 then w.write (a ++ b) else w)
    = .ok (if (if w.suppressed = 0 then w.write a else w).suppressed = 0 then _ else _)
  by_cases hw : w.suppressed = 0
  · simp only [hw, suppressed_write, write_append, if_true]
  · simp only [hw, if_false]

/-- One cut changes nothing, whatever stands before it. -/
theorem consumeAll_cut (w : Writer) (h : Token.Cut tokens tokens') :
    w.consumeAll t options tokens = w.consumeAll t options tokens' := by
  cases h with
  | text before a b after =>
    rw [consumeAll_append, consumeAll_append]
    congr 1
    funext w₁
    rw [consumeAll_cons, consumeAll_cons, consume_text_append, bind_assoc]
    rfl

/-- A text that is written in two steps is written as in one, and a stream
leaves the same writer, or fails alike, wherever its texts are cut and
joined. -/
theorem recut_unseen (t : Tree) (options : EmitOptions) (w : Writer) :
    (∀ a b : String, (w.write a).write b = w.write (a ++ b))
      ∧ ∀ tokens tokens' : List Token, Token.Recut tokens tokens' →
        w.consumeAll t options tokens = w.consumeAll t options tokens' := by
  refine ⟨fun a b => (w.write_append a b).symm, fun tokens tokens' hrecut => ?_⟩
  induction hrecut with
  | rel _ _ hcut => exact w.consumeAll_cut hcut
  | refl => rfl
  | symm _ _ _ ih => exact ih.symm
  | trans _ _ _ _ _ ih ih' => exact ih.trans ih'

/-- A writer at the start of an indented line. -/
def indentedLine : Writer := { written := ['\n'], indent := 1 }

/-- The blank line stays empty and the one behind it is indented, whether the
text is cut between its two line feeds or in front of both. -/
theorem recut_unseen_blankLine :
    Token.Recut [.text "old:\n", .text "\nnew"] [.text "old:", .text "\n\nnew"]
      ∧ indentedLine.consumeAll {} {} [.text "old:\n", .text "\nnew"]
        = indentedLine.consumeAll {} {} [.text "old:", .text "\n\nnew"]
      ∧ (indentedLine.consumeAll {} {} [.text "old:\n", .text "\nnew"]).map Writer.text
        = .ok "\n    old:\n\n    new" := by
  have hjoin : Token.Cut [.text "old:\n\nnew"] [.text "old:\n", .text "\nnew"] :=
    .text [] "old:\n" "\nnew" []
  have hcut : Token.Cut [.text "old:\n\nnew"] [.text "old:", .text "\n\nnew"] :=
    .text [] "old:" "\n\nnew" []
  have hrecut : Token.Recut [.text "old:\n", .text "\nnew"] [.text "old:", .text "\n\nnew"] :=
    .trans _ _ _ (.symm _ _ (.rel _ _ hjoin)) (.rel _ _ hcut)
  exact ⟨hrecut, (recut_unseen {} {} indentedLine).2 _ _ hrecut, by decide⟩

end Writer

end RegisterMap.Code
