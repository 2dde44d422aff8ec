/-
What a node of the code tree is. A kind carries everything about a node
but its links: the slots it has are listed by `Kind.slots`, and the tree
records which chain hangs in each of them.
-/
import RegisterMap.Code.Slot
import RegisterMap.Code.Type
import RegisterMap.Code.Operator

namespace RegisterMap.Code

/-- Shape of one accessor of a property. -/
inductive Accessor where
  | absent
  /-- Declared without a body. -/
  | auto
  | body
  deriving DecidableEq, Repr

/-- What a method is declared with, apart from its name, parameters and
body. A method that is not `bodied` is a declaration only. -/
structure MethodSig where
  bodied : Bool := true
  ctor : Bool := false
  returns : Option TypeRef := none
  access : Option Access := none
  modifiers : Modifiers := {}
  deriving DecidableEq, Repr

/-- What a property is declared with, apart from its name and bodies. -/
structure PropertySig where
  type : TypeRef
  get : Accessor := .absent
  set : Accessor := .absent
  access : Option Access := none
  modifiers : Modifiers := {}
  deriving DecidableEq, Repr

/-- What a class is declared with, apart from its name and members. -/
structure ClassSig where
  derives : List (Option Access × TypeRef) := []
  access : Option Access := none
  modifiers : Modifiers := {}
  isStruct : Bool := false
  deriving DecidableEq, Repr

/-- What a node is. -/
inductive Kind where
  /-- Holds a position open while a subtree is being moved. -/
  | hole
  /-- Code written as it stands. -/
  | snippet (code : String)
  /-- An expression written as it stands. -/
  | snippetExpr (code : String) (type : TypeRef)
  | intLit (value : Nat) (type : TypeRef) (hex : Bool)
  | boolLit (value : Bool)
  | stringLit (value : String)
  /-- Use of a variable or parameter; written as the declaration's name. -/
  | varRef (decl : NodeId) (type : TypeRef)
  /-- The object a method runs on. -/
  | self
  | binary (op : Operator) (type : TypeRef)
  | cond (type : TypeRef)
  | cast (type : TypeRef)
  | paren (type : TypeRef)
  | assign (type : TypeRef)
  | index (type : TypeRef)
  | member (name : String) (type : TypeRef)
  | call (method : String) (type : Option TypeRef)
  | newObject (type : TypeRef)
  | newArray (element : TypeRef)
  /-- Argument of a call. -/
  | arg (name : Option String) (out : Bool)
  | variableDecl (type : TypeRef) (access : Option Access)
  | paramDecl (type : TypeRef) (out : Bool)
  | exprStmt
  | returnStmt
  | throwStmt
  | branch
  | methodDecl (sig : MethodSig)
  | propertyDecl (sig : PropertySig)
  | classDecl (sig : ClassSig)
  | namespaceDecl
  deriving DecidableEq, Repr

namespace Kind

/-- The name a kind has in messages. -/
def label : Kind → String
  | .hole => "Hole"
  | .snippet .. => "HardCode"
  | .snippetExpr .. => "HardExpr"
  | .intLit .. => "IntLit"
  | .boolLit .. => "BoolLit"
  | .stringLit .. => "StringLit"
  | .varRef .. => "VarRef"
  | .self => "This"
  | .binary .. => "Binary"
  | .cond .. => "Cond"
  | .cast .. => "Cast"
  | .paren .. => "Paren"
  | .assign .. => "Assign"
  | .index .. => "Index"
  | .member .. => "Member"
  | .call .. => "Call"
  | .newObject .. => "New"
  | .newArray .. => "NewArray"
  | .arg .. => "Arg"
  | .variableDecl .. => "VariableDecl"
  | .paramDecl .. => "ArgDecl"
  | .exprStmt => "StmtExpr"
  | .returnStmt => "Return"
  | .throwStmt => "Throw"
  | .branch => "If"
  | .methodDecl .. => "Method"
  | .propertyDecl .. => "Property"
  | .classDecl .. => "Class"
  | .namespaceDecl => "Namespace"

/-- The slots of a kind, in child order. -/
def slots : Kind → List Slot
  | .hole | .snippet .. | .snippetExpr .. | .intLit .. | .boolLit .. | .stringLit ..
  | .varRef .. | .self => []
  | .binary .. | .assign .. => [.lhs, .rhs]
  | .cond .. | .branch => [.condition, .consequent, .alternative]
  | .cast .. | .paren .. | .exprStmt | .returnStmt | .throwStmt => [.expr]
  | .index .. => [.object, .index]
  | .member .. => [.object]
  | .call .. => [.receiver, .args]
  | .newObject .. => [.args]
  | .newArray .. => [.count]
  | .arg .. => [.value]
  | .variableDecl .. | .paramDecl .. => [.init]
  | .methodDecl .. => [.params, .body]
  | .propertyDecl .. => [.get, .set]
  | .classDecl .. => [.fields, .properties, .methods, .classes]
  | .namespaceDecl => [.classes, .namespaces]

/-- Result type of an expression, nothing for every other kind. A call
need not have a result. -/
def exprType : Kind → Option TypeRef
  | .snippetExpr _ type | .intLit _ type _ | .varRef _ type | .binary _ type | .cond type
  | .cast type | .paren type | .assign type | .index type | .member _ type
  | .newObject type => some type
  | .boolLit _ => some .bool
  | .stringLit _ => some .string
  | .call _ type => type
  | .newArray element => some (.array element)
  | _ => none

/-- Binary operators and the conditional. -/
def isOperator : Kind → Bool
  | .binary .. | .cond .. => true
  | _ => false

/-- Binding strength of a node; only operators bind weaker than an atom. -/
def tier : Kind → Nat
  | .binary op _ => op.tier
  | .cond _ => condTier
  | _ => atomTier

/-- Value of an integer literal. -/
def intValue? : Kind → Option Nat
  | .intLit value .. => some value
  | _ => none

theorem nodup_slots (k : Kind) : k.slots.Nodup := by
  cases k <;> simp [slots]

end Kind

end RegisterMap.Code
