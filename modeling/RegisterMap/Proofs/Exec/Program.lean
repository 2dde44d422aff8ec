/-
Programs: a class with the classes inside it. An object answers with the
methods and properties of its class. What the code of a method may ask of
other objects is nested one level deeper than the method itself; the
levels are counted down, and code that needs more of them than it is given
fails.
-/
import RegisterMap.Proofs.Exec.Meaning

namespace RegisterMap.Exec

open Code

-- ======================================================== declarations

/-- The name of a declaration. -/
def nameOf (x : Shape) : String := x.notes.name.getD ""

/-- The chain in a slot. -/
def part (x : Shape) (slot : Slot) : List Shape :=
  ((x.kind.slots.zip x.slots).lookup slot).getD []

/-- The first declaration of a name. -/
def find (name : String) (c : List Shape) : Option Shape := c.find? (nameOf · = name)

def isCtor (x : Shape) : Bool :=
  match x.kind with
  | .methodDecl sig => sig.ctor
  | _ => false

/-- The variables that parameters become. -/
def bindParams : List Shape → List Operand → Except Fault Variables
  | [], [] => .ok []
  | p :: params, o :: args =>
    match p.kind with
    | .paramDecl type false => do
      let value ← o.value.settle type o.constant
      return ⟨nameOf p, type, value⟩ :: (← bindParams params args)
    | _ => .error .illTyped
  | _, _ => .error .illTyped

-- ============================================================== bodies

/-- Runs a body with its parameters. A body with a result has to return
one. -/
def runBody (ctx : Context) (body : List Meaning) (params : Variables) (heap : Heap) :
    Except Fault (Value × Heap) :=
  match execList ctx body { heap, locals := params } with
  | .error e => .error e
  | .ok (.returned v, s) => .ok (v, s.heap)
  | .ok (.next, s) => if ctx.returns.isNone then .ok (.nothing, s.heap) else .error .illTyped

/-- Runs a method. One that is only declared does nothing. -/
def runMethod (ctx : Context) (m : Shape) (args : List Operand) (heap : Heap) :
    Except Fault (Value × Heap) :=
  match m.kind with
  | .methodDecl sig => do
    let params ← bindParams (part m .params) args
    if sig.bodied then
      runBody { ctx with returns := sig.returns } ((part m .body).map meaning) params heap
    else return (.nothing, heap)
  | _ => .error .illTyped

/-- Reads a property. -/
def runGet (ctx : Context) (property : Shape) (heap : Heap) : Except Fault (Value × Heap) :=
  match property.kind with
  | .propertyDecl sig =>
    if sig.get = .body then
      runBody { ctx with returns := some sig.type } ((part property .get).map meaning) [] heap
    else .error .unmodelled
  | _ => .error .illTyped

/-- Writes a property. The value is a parameter of the body. -/
def runSet (ctx : Context) (property : Shape) (o : Operand) (heap : Heap) :
    Except Fault (Value × Heap) :=
  match property.kind with
  | .propertyDecl sig =>
    if sig.set = .body then do
      let value ← o.value.settle sig.type o.constant
      runBody { ctx with returns := none } ((part property .set).map meaning)
        [⟨"value", sig.type, value⟩] heap
    else .error .unmodelled
  | _ => .error .illTyped

-- ============================================================ programs

/-- A program: its outermost class and the names in it. -/
structure Program where
  names : NodeId → String
  root : Shape

namespace Program

variable (p : Program)

/-- The class with the given enclosing classes, innermost name first. -/
def resolve : List String → Option Shape
  | [] => none
  | [name] => if nameOf p.root = name then some p.root else none
  | name :: outer => do find name (part (← resolve outer) .classes)

/-- The class that a name stands for, as seen from inside a class. -/
def locate (name : String) : List String → List String
  | [] => [name]
  | own :: outer =>
    match (p.resolve (own :: outer)).bind fun c => find name (part c .classes) with
    | some _ => name :: own :: outer
    | none => locate name outer

/-- The context of the methods of an object. -/
def context (service : Service) (object : Ref) (path : List String) : Context where
  names := p.names
  service := service
  self := object
  path := path

/-- An object answers a request. -/
def serve (service : Service) (object : Ref) (request : Request) (heap : Heap) :
    Except Fault (Value × Heap) :=
  match heap[object]? with
  | some (.object path _) =>
    let ctx := p.context service object path
    match p.resolve path, request with
    | none, _ => .error .illTyped
    | some c, .method name args =>
      match find name ((part c .methods).filter (!isCtor ·)) with
      | some m => runMethod ctx m args heap
      | none => .error (.unknownName name)
    | some c, .get name =>
      match find name (part c .properties) with
      | some property => runGet ctx property heap
      | none => .error (.unknownName name)
    | some c, .set name o =>
      match find name (part c .properties) with
      | some property => runSet ctx property o heap
      | none => .error (.unknownName name)
  | _ => .error .illTyped

/-- The fields of a new object. -/
def freshFields (c : Shape) : Variables :=
  (part c .fields).filterMap fun x =>
    match x.kind with
    | .variableDecl type _ => some ⟨nameOf x, type, Value.default type⟩
    | _ => none

/-- Creates an object and runs its constructor. Fields that are declared
with a value are not modelled. -/
def create (service : Service) (path : List String) (name : String) (args : List Operand)
    (heap : Heap) : Except Fault (Value × Heap) :=
  let path := p.locate name path
  match p.resolve path with
  | none => .ok (.foreign name, heap)
  | some c =>
    if (part c .fields).any fun x => !(part x .init).isEmpty then .error .unmodelled
    else
      let object := heap.length
      let heap := heap ++ [.object path (freshFields c)]
      match (part c .methods).find? isCtor with
      | some m => do
        let (_, heap) ← runMethod (p.context service object path) m args heap
        return (.ref object, heap)
      | none => if args.isEmpty then .ok (.ref object, heap) else .error .illTyped

/-- What the code of a program may ask for, to a depth of nested calls. -/
def service : (depth : Nat) → Service
  | 0 =>
    { serve := fun _ _ _ => .error .tooDeep
      create := fun _ _ _ _ => .error .tooDeep }
  | depth + 1 =>
    { serve := p.serve (service depth)
      create := p.create (service depth) }

end Program

end RegisterMap.Exec
