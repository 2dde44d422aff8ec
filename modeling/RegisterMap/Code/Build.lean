/-
Constructors of nodes. A node is built after its children and claims the
chains it is given: each has to be unlinked, and no chain may fill two
slots. Expressions are typed as they are built; the type of an operation
is that of its left operand, except that predicates are `bool` and that
shifts of narrow operands are `int`.
-/
import RegisterMap.Code.Link

namespace RegisterMap.Code

namespace Tree

/-- The chains in `slots` may be claimed by a new node: all of them are
unlinked and no two are the same. -/
def claimable (t : Tree) (heads : Heads) : (slots : List Slot) → (claimed : List NodeId) →
    Except Failure Unit
  | [], _ => .ok ()
  | slot :: rest, claimed =>
    match heads slot with
    | none => t.claimable heads rest claimed
    | some child => do
      t.requireUnlinked child
      if claimed.contains child then .error (.link (.alreadyLinked (t.describe child)))
      else t.claimable heads rest (child :: claimed)

/-- A node of this kind may be added with these children. -/
def addable (t : Tree) (kind : Kind) (heads : Heads) : Except Failure Unit := do
  t.claimable heads kind.slots []
  match kind with
  | .varRef decl _ => t.require decl
  | _ => .ok ()

/-- Adds a node that claims the chains in its slots. -/
def adopt (t : Tree) (kind : Kind) (heads : Heads) : NodeId × Tree :=
  let (id, t) := t.push { kind, heads := heads.restrict kind.slots }
  (id, kind.slots.foldl
    (fun t slot =>
      match heads slot with
      | some child => t.setPlace child (.slot id slot)
      | none => t)
    t)

/-- Type of a node that has to be an expression. -/
def operandType (t : Tree) (i : NodeId) : Except Failure TypeRef := do
  t.require i
  match t.exprType? i with
  | some type => .ok type
  | none => .error (.link (.notAnExpression (t.describe i)))

/-- Type of a binary operation. -/
def binaryType (t : Tree) (op : Operator) (lhs rhs : NodeId) : Except Failure TypeRef := do
  let type ← t.operandType lhs
  let _ ← t.operandType rhs
  if op.isPredicate then .ok .bool
  else if op.isShift then
    match type.width with
    | none => .error (.link (.invalidOperand op.symbol (t.describe lhs) type.text))
    | some width => .ok (if width < 32 then .int else type)
  else .ok type

/-- Type of a declared variable or parameter. -/
def declaredType (t : Tree) (decl : NodeId) : Except Failure TypeRef := do
  t.require decl
  match t.kind? decl with
  | some (.variableDecl type _) | some (.paramDecl type _) => .ok type
  | _ => .error (.link (.notADeclaration (t.describe decl)))

end Tree

namespace Edit

-- ============================================================== general

/-- Adds a node whose kind may depend on the nodes it refers to. -/
def make (kind : Tree → Except Failure Kind) (links : List (Slot × Option NodeId)) :
    Edit NodeId :=
  guarded
    (fun t => do
      let kind ← kind t
      t.addable kind (Heads.ofList links)
      pure kind)
    fun kind t => t.adopt kind (Heads.ofList links)

/-- Adds a node of a given kind. -/
def add (kind : Kind) (links : List (Slot × Option NodeId)) : Edit NodeId :=
  make (fun _ => .ok kind) links

/-- Adds a node without children. -/
def leaf (kind : Kind) : Edit NodeId :=
  guarded (fun _ => .ok ()) fun _ t => t.push { kind }

def setName (i : NodeId) (name : String) : Edit Unit :=
  annotate i fun notes => { notes with name := some name }

/-- Gives a new node its name. -/
def named (name : String) (build : Edit NodeId) : Edit NodeId := do
  let i ← build
  setName i name
  pure i

-- ========================================================== expressions

/-- An integer literal of type `int`, `long`, `uint` or `ulong`. -/
def literal (value : Nat) (unsigned long hex : Bool) : Edit NodeId :=
  let type : TypeRef :=
    match unsigned, long with
    | false, false => .int
    | false, true => .long
    | true, false => .uint
    | true, true => .ulong
  leaf (.intLit value type hex)

/-- Use of a variable or parameter. -/
def reference (decl : NodeId) : Edit NodeId :=
  make (fun t => return .varRef decl (← t.declaredType decl)) []

def binary (op : Operator) (lhs rhs : NodeId) : Edit NodeId :=
  make (fun t => return .binary op (← t.binaryType op lhs rhs))
    [(.lhs, some lhs), (.rhs, some rhs)]

/-- A conditional; it has the type of its first alternative. -/
def cond (condition consequent alternative : NodeId) : Edit NodeId :=
  make
    (fun t => do
      let _ ← t.operandType condition
      let type ← t.operandType consequent
      let _ ← t.operandType alternative
      pure (.cond type))
    [(.condition, some condition), (.consequent, some consequent),
      (.alternative, some alternative)]

def cast (type : TypeRef) (expr : NodeId) : Edit NodeId :=
  make
    (fun t => do
      let _ ← t.operandType expr
      pure (.cast type))
    [(.expr, some expr)]

def paren (expr : NodeId) : Edit NodeId :=
  make (fun t => return .paren (← t.operandType expr)) [(.expr, some expr)]

def assign (lhs rhs : NodeId) : Edit NodeId :=
  make (fun t => return .assign (← t.operandType lhs)) [(.lhs, some lhs), (.rhs, some rhs)]

/-- An element of type `type`. -/
def index (object index : NodeId) (type : TypeRef) : Edit NodeId :=
  add (.index type) [(.object, some object), (.index, some index)]

def member (object : NodeId) (name : String) (type : TypeRef) : Edit NodeId :=
  add (.member name type) [(.object, some object)]

/-- An argument, by name or position. -/
def arg (value : NodeId) (name : Option String) (out : Bool) : Edit NodeId :=
  add (.arg name out) [(.value, some value)]

/-- The argument list of a call; a plain expression becomes a positional
argument. -/
def arguments (values : List NodeId) : Edit (Option NodeId) := do
  let args ← values.mapM fun value => do
    match (← read (·.node value)).kind with
    | .arg .. => pure value
    | _ => arg value none false
  join args

def call (method : String) (receiver : Option NodeId) (args : List NodeId)
    (type : Option TypeRef) : Edit NodeId := do
  let args ← arguments args
  add (.call method type) [(.receiver, receiver), (.args, args)]

def newObject (type : TypeRef) (args : List NodeId) : Edit NodeId := do
  let args ← arguments args
  add (.newObject type) [(.args, args)]

def newArray (element : TypeRef) (count : NodeId) : Edit NodeId :=
  add (.newArray element) [(.count, some count)]

-- =========================================================== statements

def variableDecl (name : String) (type : TypeRef) (init : Option NodeId)
    (access : Option Access) : Edit NodeId :=
  named name (add (.variableDecl type access) [(.init, init)])

/-- A parameter of a method. -/
def paramDecl (name : String) (type : TypeRef) : Edit NodeId :=
  named name (leaf (.paramDecl type false))

def exprStmt (expr : NodeId) : Edit NodeId := add .exprStmt [(.expr, some expr)]

def returnStmt (expr : Option NodeId) : Edit NodeId := add .returnStmt [(.expr, expr)]

def throwStmt (expr : NodeId) : Edit NodeId := add .throwStmt [(.expr, some expr)]

def branch (condition : NodeId) (consequent alternative : List NodeId) : Edit NodeId := do
  let consequent ← join consequent
  let alternative ← join alternative
  add .branch
    [(.condition, some condition), (.consequent, consequent), (.alternative, alternative)]

-- ========================================================= declarations

def methodDecl (name : String) (sig : MethodSig) (params body : List NodeId) :
    Edit NodeId := do
  let params ← join params
  let body ← join body
  named name (add (.methodDecl sig) [(.params, params), (.body, body)])

def propertyDecl (name : String) (sig : PropertySig) (get set : List NodeId) :
    Edit NodeId := do
  let get ← join get
  let set ← join set
  named name (add (.propertyDecl sig) [(.get, get), (.set, set)])

def classDecl (name : String) (sig : ClassSig) (fields properties methods classes : List NodeId) :
    Edit NodeId := do
  let fields ← join fields
  let properties ← join properties
  let methods ← join methods
  let classes ← join classes
  named name <| add (.classDecl sig)
    [(.fields, fields), (.properties, properties), (.methods, methods), (.classes, classes)]

def namespaceDecl (name : String) (classes namespaces : List NodeId) : Edit NodeId := do
  let classes ← join classes
  let namespaces ← join namespaces
  named name (add .namespaceDecl [(.classes, classes), (.namespaces, namespaces)])

end Edit

end RegisterMap.Code
