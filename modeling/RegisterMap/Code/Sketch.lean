/-
Code as a plain term. A sketch says what to build, with nodes that already
stand in the tree where it refers to them; `plant` builds it, children
before parents and from left to right.
-/
import RegisterMap.Code.Build

namespace RegisterMap.Code

-- Powers stay the core ones under any import.
attribute [local instance (high)] instPowNat

/-- A term of code to be built. -/
inductive Sketch where
  /-- A node that stands in the tree already. -/
  | node (id : NodeId)
  | hole
  | snippet (code : String)
  | snippetExpr (code : String) (type : TypeRef)
  /-- A decimal `int`, or a `long` where the value needs one. -/
  | int (value : Nat)
  /-- A decimal `long`. -/
  | long (value : Nat)
  /-- A hexadecimal `uint`, or a `ulong` where the value needs one. -/
  | mask (value : Nat)
  | literal (value : Nat) (unsigned long hex : Bool)
  | bool (value : Bool)
  | string (value : String)
  | self
  | reference (decl : Sketch)
  | binary (op : Operator) (lhs rhs : Sketch)
  | cond (condition consequent alternative : Sketch)
  | cast (type : TypeRef) (expr : Sketch)
  | paren (expr : Sketch)
  | assign (lhs rhs : Sketch)
  | index (object position : Sketch) (type : TypeRef)
  | member (object : Sketch) (name : String) (type : TypeRef)
  | arg (value : Sketch) (name : Option String) (out : Bool)
  | call (callee : String) (receiver : Option Sketch) (args : List Sketch)
      (type : Option TypeRef)
  | newObject (type : TypeRef) (args : List Sketch)
  | newArray (element : TypeRef) (count : Sketch)
  | variable (name : String) (type : TypeRef) (init : Option Sketch) (access : Option Access)
  | param (name : String) (type : TypeRef)
  | stmt (expr : Sketch)
  | ret (expr : Option Sketch)
  | throw (expr : Sketch)
  | branch (condition : Sketch) (consequent alternative : List Sketch)
  | method (name : String) (sig : MethodSig) (params body : List Sketch)
  | property (name : String) (sig : PropertySig) (get set : List Sketch)
  | classDecl (name : String) (sig : ClassSig)
      (fields properties methods classes : List Sketch)
  | namespaceDecl (name : String) (classes namespaces : List Sketch)
  /-- A node of any kind with the chains given for its slots. -/
  | raw (kind : Kind) (links : List (Slot × Option NodeId))
  /-- The node of `body` with remarks; what is not given stays as it is. -/
  | noted (body : Sketch) (doc comment : Option String) (indents : Option Bool)

namespace Sketch

/-- A node with a doc comment. -/
def documented (body : Sketch) (doc : String) : Sketch := .noted body (some doc) none none

/-- Use of a variable or parameter that stands in the tree. -/
def use (decl : NodeId) : Sketch := .reference (.node decl)

mutual

/-- Builds a sketch and returns its node. -/
def plant : Sketch → Edit NodeId
  | .node id => pure id
  | .hole => Edit.leaf .hole
  | .snippet code => Edit.leaf (.snippet code)
  | .snippetExpr code type => Edit.leaf (.snippetExpr code type)
  | .int value => Edit.literal value false (2 ^ (31 : Nat) ≤ value) false
  | .long value => Edit.literal value false true false
  | .mask value => Edit.literal value true (2 ^ (32 : Nat) ≤ value) true
  | .literal value unsigned wide hex => Edit.literal value unsigned wide hex
  | .bool value => Edit.leaf (.boolLit value)
  | .string value => Edit.leaf (.stringLit value)
  | .self => Edit.leaf .self
  | .reference decl => do Edit.reference (← plant decl)
  | .binary op lhs rhs => do
    let lhs ← plant lhs
    let rhs ← plant rhs
    Edit.binary op lhs rhs
  | .cond condition consequent alternative => do
    let condition ← plant condition
    let consequent ← plant consequent
    let alternative ← plant alternative
    Edit.cond condition consequent alternative
  | .cast type expr => do Edit.cast type (← plant expr)
  | .paren expr => do Edit.paren (← plant expr)
  | .assign lhs rhs => do
    let lhs ← plant lhs
    let rhs ← plant rhs
    Edit.assign lhs rhs
  | .index object position type => do
    let object ← plant object
    let position ← plant position
    Edit.index object position type
  | .member object name type => do Edit.member (← plant object) name type
  | .arg value name out => do Edit.arg (← plant value) name out
  | .call callee receiver args type => do
    let receiver ← plantOption receiver
    let args ← plantList args
    Edit.call callee receiver args type
  | .newObject type args => do Edit.newObject type (← plantList args)
  | .newArray element count => do Edit.newArray element (← plant count)
  | .variable name type init access => do
    Edit.variableDecl name type (← plantOption init) access
  | .param name type => Edit.paramDecl name type
  | .stmt expr => do Edit.exprStmt (← plant expr)
  | .ret expr => do Edit.returnStmt (← plantOption expr)
  | .throw expr => do Edit.throwStmt (← plant expr)
  | .branch condition consequent alternative => do
    let condition ← plant condition
    let consequent ← plantList consequent
    let alternative ← plantList alternative
    Edit.branch condition consequent alternative
  | .method name sig params body => do
    let params ← plantList params
    let body ← plantList body
    Edit.methodDecl name sig params body
  | .property name sig get set => do
    let get ← plantList get
    let set ← plantList set
    Edit.propertyDecl name sig get set
  | .classDecl name sig fields properties methods classes => do
    let fields ← plantList fields
    let properties ← plantList properties
    let methods ← plantList methods
    let classes ← plantList classes
    Edit.classDecl name sig fields properties methods classes
  | .namespaceDecl name classes namespaces => do
    let classes ← plantList classes
    let namespaces ← plantList namespaces
    Edit.namespaceDecl name classes namespaces
  | .raw kind links => Edit.add kind links
  | .noted body doc comment indents => do
    let id ← plant body
    if doc.isSome || comment.isSome || indents.isSome then
      Edit.annotate id fun notes =>
        { notes with
          doc := doc <|> notes.doc
          comment := comment <|> notes.comment
          indents := indents.getD notes.indents }
    pure id

def plantOption : Option Sketch → Edit (Option NodeId)
  | none => pure none
  | some s => return some (← plant s)

def plantList : List Sketch → Edit (List NodeId)
  | [] => pure []
  | s :: rest => do
    let id ← plant s
    return id :: (← plantList rest)

end

end Sketch

end RegisterMap.Code
