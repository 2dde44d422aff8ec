/-
Text of a token stream. A `Writer` takes tokens one by one. Text is cut
behind each line feed, and a piece that starts a line is preceded by the
indentation in force, unless it is a line feed alone: a blank line stays
empty.
-/
import RegisterMap.Code.Token

namespace RegisterMap.Code

/-- What is written beside the code itself. -/
structure EmitOptions where
  comments : Bool := false
  docs : Bool := true
  deriving DecidableEq, Repr

/-- A text being written. -/
structure Writer where
  /-- What has been written, last character first. -/
  written : List Char := []
  indent : Nat := 0
  /-- The namespaces entered, innermost first. -/
  namespaces : List NodeId := []
  /-- Whether comments are enclosed, innermost answer first. -/
  inline : List Bool := []
  /-- Number of remarks begun that are not written. -/
  suppressed : Nat := 0
  deriving DecidableEq, Repr

namespace Writer

/-- Spaces per level of indentation. -/
def indentWidth : Nat := 4

/-- Nothing stands on the current line, and it is not the first. -/
def atLineStart (w : Writer) : Bool := w.written.head? == some '\n'

/-- Writes a piece of a line. The indentation in force comes first if the
piece starts the line, unless it is a line feed alone. -/
def putPiece (w : Writer) (piece : List Char) : Writer :=
  let spaces := if w.atLineStart && piece != ['\n'] then indentWidth * w.indent else 0
  { w with written := piece.reverse ++ (List.replicate spaces ' ' ++ w.written) }

/-- A text cut behind each of its line feeds. -/
def pieces (s : String) : List (List Char) := s.toList.splitBy fun c _ => c != '\n'

def write (w : Writer) (s : String) : Writer := (pieces s).foldl putPiece w

/-- The text written so far. -/
def text (w : Writer) : String := String.ofList w.written.reverse

/-- Comments are enclosed at this point. -/
def isInline (w : Writer) : Bool := w.inline.head?.getD false

end Writer

namespace Tree

/-- Names of the namespaces above `i`, nearest first, looking at most
`fuel` levels up. -/
def namespacesAbove (t : Tree) : (fuel : Nat) → NodeId → List String
  | 0, _ => []
  | fuel + 1, i =>
    match t.parent? i with
    | none => []
    | some (owner, _) =>
      (if t.kind? owner = some .namespaceDecl then [t.name owner] else [])
        ++ t.namespacesAbove fuel owner

/-- Names of the namespaces from the top down to `i`. -/
def namespacePath (t : Tree) (i : NodeId) : List String :=
  (t.name i :: t.namespacesAbove t.size i).reverse

/-- Dotted name of a namespace, relative to the namespace `context` if it
lies inside that one. -/
def qualifiedName (t : Tree) (context : Option NodeId) (i : NodeId) : String :=
  let path := t.namespacePath i
  let outer := match context with
    | some c => t.namespacePath c
    | none => []
  ".".intercalate <|
    if outer.length < path.length && outer.isPrefixOf path then path.drop outer.length
    else path

end Tree

namespace Writer

/-- A remark begins: its mark is written, or its text is held back. -/
private def beginRemark (w : Writer) (shown : Bool) (mark : String) : Writer :=
  if shown then w.write mark else { w with suppressed := w.suppressed + 1 }

private def endRemark (w : Writer) (shown : Bool) (mark : String) : Writer :=
  if shown then w.write mark else { w with suppressed := w.suppressed - 1 }

/-- Takes one token. Tokens that name a node need it to exist. -/
def consume (t : Tree) (options : EmitOptions) (w : Writer) : Token → Except Failure Writer
  | .text s => .ok (if w.suppressed = 0 then w.write s else w)
  | .nest origin => do
    let n ← t.node origin
    pure (if n.notes.indents then { w with indent := w.indent + 1 } else w)
  | .unnest origin => do
    let n ← t.node origin
    pure (if n.notes.indents then { w with indent := w.indent - 1 } else w)
  | .inlineComments => .ok { w with inline := true :: w.inline }
  | .restoreComments => .ok { w with inline := w.inline.tail }
  | .commentBegin =>
    .ok (w.beginRemark options.comments (if w.isInline then "/* " else "// "))
  | .commentEnd => .ok (w.endRemark options.comments (if w.isInline then " */ " else "\n"))
  | .docBegin => .ok (w.beginRemark options.docs "/// <summary> ")
  | .docEnd => .ok (w.endRemark options.docs " </summary>\n")
  | .qualifiedName id => do
    let _ ← t.node id
    if let some context := w.namespaces.head? then
      let _ ← t.node context
    pure (w.write (t.qualifiedName w.namespaces.head? id))
  | .enterNamespace id => .ok { w with namespaces := id :: w.namespaces }
  | .exitNamespace => .ok { w with namespaces := w.namespaces.tail }

/-- Takes a stream of tokens. -/
def consumeAll (t : Tree) (options : EmitOptions) (w : Writer) (tokens : List Token) :
    Except Failure Writer :=
  tokens.foldlM (consume t options) w

theorem consumeAll_append {t : Tree} {options : EmitOptions} {w : Writer} {pre post : List Token} :
    w.consumeAll t options (pre ++ post)
      = w.consumeAll t options pre >>= fun w₁ => w₁.consumeAll t options post :=
  List.foldlM_append

theorem consumeAll_cons {t : Tree} {options : EmitOptions} {w : Writer} {token : Token}
    {post : List Token} :
    w.consumeAll t options (token :: post)
      = w.consume t options token >>= fun w₁ => w₁.consumeAll t options post :=
  List.foldlM_cons

end Writer

/-- The text of `root` and everything below it. -/
def Tree.emit (t : Tree) (root : NodeId) (options : EmitOptions) : Except Failure String := do
  let tokens ← t.tokens root
  let w ← Writer.consumeAll t options {} tokens
  pure w.text

end RegisterMap.Code
