/-
A code tree as a stream of tokens: pieces of text between markers for
indentation, comments, docs and namespaces. `Tree.tokens` lists the tokens
of one node without its siblings; a hole has none and is an error.
-/
import RegisterMap.Code.Tree
import RegisterMap.Code.Literal

namespace RegisterMap.Code

inductive Token where
  | text (s : String)
  /-- Begin of the indented body of a node. -/
  | nest (origin : NodeId)
  | unnest (origin : NodeId)
  | commentBegin
  | commentEnd
  /-- Comments are enclosed, not ended by the line, until the matching
  `restoreComments`. -/
  | inlineComments
  | restoreComments
  | docBegin
  | docEnd
  /-- Name of a namespace relative to the enclosing one. -/
  | qualifiedName (id : NodeId)
  | enterNamespace (id : NodeId)
  | exitNamespace
  deriving DecidableEq, Repr

namespace Token

/-- A piece of text alone. -/
def word (s : String) : List Token := [.text s]

/-- The doc and the comment of a node. A comment on an expression is an
inline comment. -/
def remarks (notes : Notes) (inline : Bool) : List Token :=
  let doc :=
    match notes.doc with
    | some doc => [.docBegin, .text doc, .docEnd]
    | none => []
  let comment :=
    match notes.comment with
    | some comment => [.commentBegin, .text comment, .commentEnd]
    | none => []
  let comment :=
    if inline && notes.comment.isSome then .inlineComments :: comment ++ [.restoreComments]
    else comment
  doc ++ comment

/-- The parts one after the other with `sep` between them. -/
def separated (sep : String) (parts : List (List Token)) : List Token :=
  (parts.intersperse [.text sep]).flatten

/-- A body in braces, on lines of its own. -/
def block (owner : NodeId) (body : List Token) : List Token :=
  .text "\n\x7b\n" :: .nest owner :: body ++ [.unnest owner, .text "\x7d\n"]

/-- One accessor of a property. In a property on a single line no accessor
has a body. -/
def accessor (owner : NodeId) (keyword : String) (shape : Accessor) (multiline : Bool)
    (body : List Token) : List Token :=
  match shape, multiline with
  | .absent, _ => []
  | .auto, true => [.text (keyword ++ ";\n")]
  | .auto, false => [.text (" " ++ keyword ++ ";")]
  | .body, _ => .text keyword :: block owner body

end Token

/-- The head of a method, up to its parameters. -/
def MethodSig.lead (sig : MethodSig) (name : String) : String :=
  let returns :=
    if sig.ctor then ""
    else match sig.returns with
      | some type => type.text ++ " "
      | none => "void "
  Access.lead sig.access ++ sig.modifiers.lead ++ returns ++ name ++ "("

/-- The head of a property, with its opening brace. -/
def PropertySig.lead (sig : PropertySig) (name : String) : String :=
  Access.lead sig.access ++ sig.modifiers.lead ++ sig.type.text ++ " " ++ name ++ " \x7b"

/-- The head of a class, with the types it derives from. -/
def ClassSig.lead (sig : ClassSig) (name : String) : String :=
  let bases := sig.derives.map fun (access, type) => Access.lead access ++ type.text
  Access.lead sig.access ++ sig.modifiers.lead ++ (if sig.isStruct then "struct " else "class ")
    ++ name ++ (if bases.isEmpty then "" else " : " ++ ", ".intercalate bases)

/-- The members of a class in the order of writing, and what stands
between those of one kind. -/
def classSections : List (Slot × String) :=
  [(.fields, ""), (.properties, "\n"), (.methods, "\n"), (.classes, "\n")]

namespace Tree

open Token (word)

/-- Tokens of the kind of `i`, given the tokens of the chain in a slot. -/
def kindTokens (t : Tree) (i : NodeId) (n : Node)
    (chain : (sep : String) → Slot → Except Failure (List Token)) :
    Except Failure (List Token) := do
  let has (slot : Slot) : Bool := (n.heads slot).isSome
  let one (slot : Slot) : Except Failure (List Token) := chain "" slot
  match n.kind with
  | .hole =>
    let owner := match t.parent? i with
      | some (owner, _) => owner
      | none => i
    .error (.link (.unfilledHole (t.describe owner)))
  | .snippet code | .snippetExpr code _ => return word code
  | .intLit value type hex => return word (Literal.integer value type hex)
  | .boolLit value => return word (if value then "true" else "false")
  | .stringLit value => return word (Literal.string value)
  | .varRef decl _ => return word (t.name decl)
  | .self => return word "this"
  | .binary op _ => return .flatten [← one .lhs, word s!" {op.symbol} ", ← one .rhs]
  | .cond _ =>
    return .flatten [← one .condition, word " ? ", ← one .consequent, word " : ",
      ← one .alternative]
  | .cast type => return .flatten [word s!"({type.text})", ← one .expr]
  | .paren _ => return .flatten [word "(", ← one .expr, word ")"]
  | .assign _ => return .flatten [← one .lhs, word " = ", ← one .rhs]
  | .index _ => return .flatten [← one .object, word "[", ← one .index, word "]"]
  | .member name _ => return .flatten [← one .object, word ".", word name]
  | .call method _ =>
    let receiver ← if has .receiver then
        pure (.flatten [← one .receiver, word "."])
      else pure []
    return .flatten [receiver, word method, word "(", ← chain ", " .args, word ")"]
  | .newObject type =>
    return .flatten [word s!"new {type.text}(", ← chain ", " .args, word ")"]
  | .newArray element =>
    return .flatten [word s!"new {element.text}[", ← one .count, word "]"]
  | .arg name out =>
    let name := match name with
      | some name => word s!"{name}: "
      | none => []
    return .flatten [name, if out then word "out " else [], ← one .value]
  | .variableDecl type access =>
    let init ← if has .init then pure (.flatten [word " = ", ← one .init]) else pure []
    return .flatten
      [word s!"{Access.lead access}{type.text} {t.name i}", init, word ";\n"]
  | .paramDecl type out =>
    let init ← if has .init then pure (.flatten [word " = ", ← one .init]) else pure []
    return .flatten [if out then word "out " else [], word s!"{type.text} {t.name i}", init]
  | .exprStmt => return .flatten [← one .expr, word ";\n"]
  | .returnStmt =>
    if has .expr then return .flatten [word "return ", ← one .expr, word ";\n"]
    else return word "return;\n"
  | .throwStmt => return .flatten [word "throw ", ← one .expr, word ";\n"]
  | .branch =>
    let condition ← one .condition
    let consequent ← one .consequent
    let alternative ← if has .alternative then
        pure (.flatten [word "else", Token.block i (← one .alternative)])
      else pure []
    return .flatten
      [word "if(", condition, word ")", Token.block i consequent, alternative]
  | .methodDecl sig =>
    let params ← chain ", " .params
    let body ← if sig.bodied then pure (Token.block i (← one .body)) else pure (word ";\n")
    return .flatten [word (sig.lead (t.name i)), params, word ")", body]
  | .propertyDecl sig =>
    let multiline := sig.get == .body || sig.set == .body
    let get ← if sig.get == .body then one .get else pure []
    let set ← if sig.set == .body then one .set else pure []
    let accessors := .flatten
      [Token.accessor i "get" sig.get multiline get, Token.accessor i "set" sig.set multiline set]
    let body :=
      if multiline then
        .flatten [word "\n", [.nest i], accessors, [.unnest i], word "\x7d\n"]
      else .flatten [accessors, word " \x7d\n"]
    return .flatten [word (sig.lead (t.name i)), body]
  | .classDecl sig =>
    let sections ← (classSections.filter fun (slot, _) => has slot).mapM
      fun (slot, sep) => chain sep slot
    return .flatten [word (sig.lead (t.name i)), word "\n\x7b\n", [.nest i],
      Token.separated "\n" sections, [.unnest i], word "\x7d\n"]
  | .namespaceDecl =>
    let classes ← chain "\n" .classes
    let namespaces ← chain "\n" .namespaces
    let gap := if has .classes && has .namespaces then word "\n" else []
    return .flatten [word "namespace ", [.qualifiedName i], word "\n\x7b\n",
      [.enterNamespace i, .nest i], classes, gap, namespaces,
      [.unnest i, .exitNamespace], word "\x7d\n"]

/-- Tokens of at most `fuel` levels of the tree at and below `i`. -/
def tokensFrom (t : Tree) : (fuel : Nat) → NodeId → Except Failure (List Token)
  | 0, _ => .ok []
  | fuel + 1, i => do
    let n ← t.node i
    let inline := n.kind.exprType.isSome || n.kind == .self
    let tokens ← t.kindTokens i n fun sep slot => do
      return Token.separated sep (← (t.chain (n.heads slot)).mapM (t.tokensFrom fuel))
    pure (Token.remarks n.notes inline ++ tokens)

/-- Tokens of `i` without its trailing siblings. -/
def tokens (t : Tree) (i : NodeId) : Except Failure (List Token) := t.tokensFrom (t.size + 1) i

end Tree

end RegisterMap.Code
