/-
The code of a sketch. What planting builds is a function of the sketch
(`Sketch.code`), of the types of the declarations it refers to and of the
code of the stock it takes (`Sketch.uses`). A sketch fits where its
operands are expressions and its references are declarations
(`Sketch.Fits`); planting checks nothing else.
-/
import Mathlib.Algebra.Group.Nat.Defs
import RegisterMap.Proofs.Code.Gathering
import RegisterMap.Code.Sketch

namespace RegisterMap.Code

-- ================================================================= code

namespace Shape

/-- A node without children. -/
def leaf (kind : Kind) : Shape := .node () kind {} []

/-- A node over chains. -/
def above (kind : Kind) (slots : List (List Shape)) : Shape := .node () kind {} slots

end Shape

namespace Term

variable {α : Type}

/-- Type of the expression a chain starts with. -/
def typeOf? (chain : List (Term α)) : Option TypeRef := chain.head?.bind (·.kind.exprType)

def typeOf (chain : List (Term α)) : TypeRef := (typeOf? chain).getD .int

theorem typeOf?_shape (chain : List (Term α)) : typeOf? (chain.map shape) = typeOf? chain := by
  cases chain with
  | nil => rfl
  | cons x rest => exact congrArg Kind.exprType (kind_shape x)

end Term

open Term (typeOf typeOf?)

/-- The result type of an operation whose left operand has a type. -/
def Operator.typeOver (op : Operator) (type : TypeRef) : TypeRef :=
  if op.isPredicate then .bool
  else if op.isShift && type.width.any (· < 32) then .int
  else type

/-- The type of a literal with or without the suffixes for unsigned and
long. -/
def literalType (unsigned long : Bool) : TypeRef :=
  match unsigned, long with
  | false, false => .int
  | false, true => .long
  | true, false => .uint
  | true, true => .ulong

def Kind.isArg : Kind → Bool
  | .arg .. => true
  | _ => false

/-- A plain expression becomes a positional argument. -/
def asArgument (chain : List Shape) : List Shape :=
  if chain.head?.any (·.kind.isArg) then chain else [Shape.above (.arg none false) [chain]]

/-- Notes with the remarks of a sketch. -/
def remarked (doc comment : Option String) (indents : Option Bool) (notes : Notes) : Notes :=
  { notes with
    doc := doc <|> notes.doc
    comment := comment <|> notes.comment
    indents := indents.getD notes.indents }

namespace Sketch

section Code

variable (types : NodeId → TypeRef) (stock : NodeId → List Shape)

mutual

/-- The code of a sketch: one node, or the chain of the stock it stands
for. -/
def code : Sketch → List Shape
  | .node id => stock id
  | .hole => [.leaf .hole]
  | .snippet text => [.leaf (.snippet text)]
  | .snippetExpr text type => [.leaf (.snippetExpr text type)]
  | .int value => [.leaf (.intLit value (literalType false (2 ^ 31 ≤ value)) false)]
  | .long value => [.leaf (.intLit value .long false)]
  | .mask value => [.leaf (.intLit value (literalType true (2 ^ 32 ≤ value)) true)]
  | .literal value unsigned wide hex =>
    [.leaf (.intLit value (literalType unsigned wide) hex)]
  | .bool value => [.leaf (.boolLit value)]
  | .string value => [.leaf (.stringLit value)]
  | .self => [.leaf .self]
  | .reference (.node decl) => [.leaf (.varRef decl (types decl))]
  | .reference _ => []
  | .binary op lhs rhs =>
    [.above (.binary op (op.typeOver (typeOf lhs.code))) [lhs.code, rhs.code]]
  | .cond condition consequent alternative =>
    [.above (.cond (typeOf consequent.code))
      [condition.code, consequent.code, alternative.code]]
  | .cast type expr => [.above (.cast type) [expr.code]]
  | .paren expr => [.above (.paren (typeOf expr.code)) [expr.code]]
  | .assign lhs rhs => [.above (.assign (typeOf lhs.code)) [lhs.code, rhs.code]]
  | .index object position type => [.above (.index type) [object.code, position.code]]
  | .member object name type => [.above (.member name type) [object.code]]
  | .arg value name out => [.above (.arg name out) [value.code]]
  | .call callee receiver args type =>
    [.above (.call callee type)
      [codeOption receiver, ((codeList args).map asArgument).flatten]]
  | .newObject type args =>
    [.above (.newObject type) [((codeList args).map asArgument).flatten]]
  | .newArray element count => [.above (.newArray element) [count.code]]
  | .variable name type init access =>
    [(Shape.above (.variableDecl type access) [codeOption init]).remark (Tree.titled name)]
  | .param name type =>
    [(Shape.above (.paramDecl type false) [[]]).remark (Tree.titled name)]
  | .stmt expr => [.above .exprStmt [expr.code]]
  | .ret expr => [.above .returnStmt [codeOption expr]]
  | .throw expr => [.above .throwStmt [expr.code]]
  | .branch condition consequent alternative =>
    [.above .branch
      [condition.code, (codeList consequent).flatten, (codeList alternative).flatten]]
  | .method name sig params body =>
    [(Shape.above (.methodDecl sig) [(codeList params).flatten, (codeList body).flatten]).remark
      (Tree.titled name)]
  | .property name sig get set =>
    [(Shape.above (.propertyDecl sig) [(codeList get).flatten, (codeList set).flatten]).remark
      (Tree.titled name)]
  | .classDecl name sig fields properties methods classes =>
    [(Shape.above (.classDecl sig)
      [(codeList fields).flatten, (codeList properties).flatten, (codeList methods).flatten,
        (codeList classes).flatten]).remark (Tree.titled name)]
  | .namespaceDecl name classes namespaces =>
    [(Shape.above .namespaceDecl
      [(codeList classes).flatten, (codeList namespaces).flatten]).remark (Tree.titled name)]
  | .raw kind _ => [.leaf kind]
  | .noted body doc comment indents =>
    match body.code with
    | [] => []
    | x :: rest => x.remark (remarked doc comment indents) :: rest

def codeOption : Option Sketch → List Shape
  | none => []
  | some s => s.code

def codeList : List Sketch → List (List Shape)
  | [] => []
  | s :: rest => s.code :: codeList rest

end

end Code

-- ============================================================== fitting

mutual

/-- The nodes of the stock a sketch takes, in the order of planting. -/
def uses : Sketch → List NodeId
  | .node id => [id]
  | .hole | .snippet .. | .snippetExpr .. | .int .. | .long .. | .mask .. | .literal ..
  | .bool .. | .string .. | .self | .reference .. | .param .. | .raw .. => []
  | .binary _ lhs rhs | .assign lhs rhs | .index lhs rhs _ => lhs.uses ++ rhs.uses
  | .cond condition consequent alternative =>
    condition.uses ++ consequent.uses ++ alternative.uses
  | .cast _ expr | .paren expr | .member expr _ _ | .arg expr _ _ | .newArray _ expr
  | .stmt expr | .throw expr | .noted expr _ _ _ => expr.uses
  | .call _ receiver args _ => usesOption receiver ++ usesList args
  | .newObject _ args => usesList args
  | .variable _ _ init _ => usesOption init
  | .ret expr => usesOption expr
  | .branch condition consequent alternative =>
    condition.uses ++ usesList consequent ++ usesList alternative
  | .method _ _ first second | .property _ _ first second
  | .namespaceDecl _ first second => usesList first ++ usesList second
  | .classDecl _ _ fields properties methods classes =>
    usesList fields ++ usesList properties ++ usesList methods ++ usesList classes

def usesOption : Option Sketch → List NodeId
  | none => []
  | some s => s.uses

def usesList : List Sketch → List NodeId
  | [] => []
  | s :: rest => s.uses ++ usesList rest

end

section Fits

variable (types : NodeId → TypeRef) (stock : NodeId → List Shape)

/-- The code of the sketch is an expression. -/
def IsExpr (s : Sketch) : Prop := (typeOf? (s.code types stock)).isSome

mutual

/-- A sketch that can be planted where the declarations `known` stand:
operands are expressions, and what is referred to is declared. -/
def Fits (known : NodeId → Prop) : Sketch → Prop
  | .node _ | .hole | .snippet .. | .snippetExpr .. | .int .. | .long .. | .mask ..
  | .literal .. | .bool .. | .string .. | .self | .param .. => True
  | .reference (.node decl) => known decl
  | .reference _ | .raw .. => False
  | .binary op lhs rhs =>
    Fits known lhs ∧ Fits known rhs ∧ IsExpr types stock lhs ∧ IsExpr types stock rhs
      ∧ (op.isShift → (typeOf (lhs.code types stock)).width.isSome)
  | .cond condition consequent alternative =>
    (Fits known condition ∧ Fits known consequent ∧ Fits known alternative)
      ∧ IsExpr types stock condition ∧ IsExpr types stock consequent
      ∧ IsExpr types stock alternative
  | .cast _ expr | .paren expr => Fits known expr ∧ IsExpr types stock expr
  | .assign lhs rhs => Fits known lhs ∧ Fits known rhs ∧ IsExpr types stock lhs
  | .index lhs rhs _ => Fits known lhs ∧ Fits known rhs
  | .member expr _ _ | .arg expr _ _ | .newArray _ expr | .stmt expr | .throw expr
  | .noted expr _ _ _ => Fits known expr
  | .call _ receiver args _ => FitsOption known receiver ∧ FitsList known args
  | .newObject _ args => FitsList known args
  | .variable _ _ init _ => FitsOption known init
  | .ret expr => FitsOption known expr
  | .branch condition consequent alternative =>
    Fits known condition ∧ FitsList known consequent ∧ FitsList known alternative
  | .method _ _ first second | .property _ _ first second
  | .namespaceDecl _ first second => FitsList known first ∧ FitsList known second
  | .classDecl _ _ fields properties methods classes =>
    FitsList known fields ∧ FitsList known properties ∧ FitsList known methods
      ∧ FitsList known classes

def FitsOption (known : NodeId → Prop) : Option Sketch → Prop
  | none => True
  | some s => Fits known s

def FitsList (known : NodeId → Prop) : List Sketch → Prop
  | [] => True
  | s :: rest => Fits known s ∧ FitsList known rest

end

end Fits

end Sketch

end RegisterMap.Code
