/-
What generated code means. Every node of the code has a `Meaning`, made
from the meanings of what is in its slots and nothing else, so code with
the same parts under other parentheses means the same. Expressions have a
value, some of them can be assigned to, and statements are executed.

Operands are evaluated from left to right. Names stand for local
variables first and for fields of the object second; what the code asks
of other objects goes through a `Service`. A `fence` limits the elements
of arrays that may be touched.
-/
import RegisterMap.Proofs.Code.Term
import RegisterMap.Proofs.Exec.Store

namespace RegisterMap.Exec

open Code

/-- A value, and whether it is a constant of the code. -/
structure Operand where
  value : Value
  constant : Bool := false
  deriving DecidableEq, Repr

/-- What an object may be asked for. -/
inductive Request where
  | method (name : String) (args : List Operand)
  | get (property : String)
  | set (property : String) (value : Operand)
  deriving DecidableEq, Repr

/-- What a program does for the code of one of its methods. -/
structure Service where
  serve : Ref → Request → Heap → Except Fault (Value × Heap)
  /-- A new object of the class of a name, as seen from a class. -/
  create : List String → String → List Operand → Heap → Except Fault (Value × Heap)

/-- Where code runs. -/
structure Context where
  /-- The names of declarations. -/
  names : NodeId → String
  service : Service
  /-- The elements of arrays that may be touched. -/
  fence : Ref → Nat → Bool := fun _ _ => true
  /-- The object whose method runs. -/
  self : Ref
  /-- The classes the code is in, innermost first. -/
  path : List String := []
  /-- Type of the result. -/
  returns : Option TypeRef := none

-- ============================================================= targets

/-- What can be read and assigned to. -/
inductive Target where
  | variable (name : String)
  | element (array : Ref) (index : Int)
  | member (object : Ref) (name : String)
  deriving DecidableEq, Repr

namespace Target

/-- The value a target has. -/
def load (ctx : Context) : Target → Run Value
  | .variable name => fun s =>
    match s.lookup ctx.self name with
    | some v => .ok (v.value, s)
    | none => .error (.unknownName name)
  | .element array index => fun s =>
    match s.heap[array]? with
    | some (.bytes b) =>
      if 0 ≤ index ∧ index < b.size ∧ ctx.fence array index.toNat then
        .ok (.int .byte (b.get index.toNat).toNat, s)
      else .error .indexOutOfRange
    | _ => .error .illTyped
  | .member object name => fun s =>
    match s.heap[object]? with
    | some (.bytes b) =>
      if name = "Length" then .ok (.int .int b.size, s) else .error .illTyped
    | some (.object _ fields) =>
      match fields.get? name with
      | some v => .ok (v.value, s)
      | none => Run.onHeap (ctx.service.serve object (.get name)) s
    | none => .error .illTyped

/-- A field of an object takes a value. -/
def storeField (object : Ref) (name : String) (o : Operand) (otherwise : Run Value) :
    Run Value :=
  fun s =>
    match s.heap[object]? with
    | some (.object path fields) =>
      match fields.get? name with
      | some v => do
        let value ← o.value.settle v.type o.constant
        let cell := Cell.object path (fields.put name value)
        return (value, { s with heap := s.heap.set object cell })
      | none => otherwise s
    | _ => .error .illTyped

/-- A target takes a value. The result is the value as it was stored. -/
def store (ctx : Context) (o : Operand) : Target → Run Value
  | .variable name => fun s =>
    match s.locals.get? name with
    | some v => do
      let value ← o.value.settle v.type o.constant
      return (value, { s with locals := s.locals.put name value })
    | none => storeField ctx.self name o (Run.fail (.unknownName name)) s
  | .element array index => fun s =>
    match s.heap[array]? with
    | some (.bytes b) =>
      if 0 ≤ index ∧ index < b.size ∧ ctx.fence array index.toNat then
        match o.value.settle .byte o.constant with
        | .ok (.int type n) =>
          let cell := Cell.bytes (b.set index.toNat (.ofInt 8 n))
          .ok (.int type n, { s with heap := s.heap.set array cell })
        | .ok _ => .error .illTyped
        | .error e => .error e
      else .error .indexOutOfRange
    | _ => .error .illTyped
  | .member object name =>
    storeField object name o do
      let _ ← Run.onHeap (ctx.service.serve object (.set name o))
      return o.value

end Target

-- ============================================================ meanings

/-- Whether execution goes on behind a statement. -/
inductive Flow where
  | next
  | returned (value : Value)
  deriving DecidableEq, Repr

/-- What a node of code does. Whatever it cannot do fails. -/
structure Meaning where
  constant : Bool := false
  value : Context → Run Value := fun _ => Run.fail .illTyped
  target : Context → Run Target := fun _ => Run.fail .illTyped
  exec : Context → Run Flow := fun _ => Run.fail .illTyped

namespace Meaning

/-- A constant of the code. -/
def literal (v : Value) : Meaning where
  constant := true
  value := fun _ => pure v

def expr (value : Context → Run Value) : Meaning where
  value := value

/-- An expression that can be assigned to. -/
def place (target : Context → Run Target) : Meaning where
  target := target
  value := fun ctx => do (← target ctx).load ctx

def statement (exec : Context → Run Flow) : Meaning where
  exec := exec

variable (m : Meaning) (ctx : Context)

def operand : Run Operand := do return { value := ← m.value ctx, constant := m.constant }

def bool : Run Bool := do
  match ← m.value ctx with
  | .bool b => pure b
  | _ => Run.fail .illTyped

def int : Run Int := do
  match ← m.value ctx with
  | .int _ n => pure n
  | _ => Run.fail .illTyped

def ref : Run Ref := do
  match ← m.value ctx with
  | .ref r => pure r
  | .null => Run.fail .nullReference
  | _ => Run.fail .illTyped

end Meaning

/-- Statements one after the other, up to the first that returns. -/
def execList (ctx : Context) : List Meaning → Run Flow
  | [] => pure .next
  | m :: rest => do
    match ← m.exec ctx with
    | .next => execList ctx rest
    | .returned v => pure (.returned v)

def operands (ctx : Context) : List Meaning → Run (List Operand)
  | [] => pure []
  | m :: rest => do
    let o ← m.operand ctx
    return o :: (← operands ctx rest)

-- ========================================================== operations

/-- An operation on two values. -/
def operate (op : Operator) (l r : Operand) : Except Fault Value :=
  match l.value, r.value with
  | .int p a, .int q b =>
    if op.isShift then
      if q.widensTo .int then .ok (.int p.promoted (op.shift p.promoted a b))
      else .error .illTyped
    else
      let left := if l.constant then p.adapted q a else p
      let right := if r.constant then q.adapted p b else q
      match left.common right with
      | none => .error .illTyped
      | some type =>
        match op.compare a b with
        | some c => .ok (.bool c)
        | none =>
          match op.arith type a b with
          | some n => .ok (.int type n)
          | none => .error .divideByZero
  | .bool a, .bool b =>
    match op.combine a b with
    | some c => .ok (.bool c)
    | none => .error .illTyped
  | _, _ => .error .illTyped

/-- The value of a binary operation. The logical connectives leave their
right operand alone where the left one decides. -/
def binaryValue (op : Operator) (l r : Meaning) (ctx : Context) : Run Value :=
  match op with
  | .land => do
    if ← l.bool ctx then return .bool (← r.bool ctx)
    else return .bool false
  | .lor => do
    if ← l.bool ctx then return .bool true
    else return .bool (← r.bool ctx)
  | op => do
    let a ← l.operand ctx
    let b ← r.operand ctx
    Run.ofExcept (operate op a b)

/-- An explicit conversion; what does not fit is cut off. -/
def convert (type : TypeRef) : Value → Except Fault Value
  | .int _ n =>
    match type with
    | .primitive p => if p.isInteger then .ok (.int p (p.wrap n)) else .error .illTyped
    | _ => .error .illTyped
  | .bool b => if type = .bool then .ok (.bool b) else .error .illTyped
  | _ => .error .unmodelled

/-- A new array of zero bytes. -/
def allocate (n : Int) : Run Value := fun s =>
  if 0 ≤ n then
    if h : n.toNat < 2 ^ 31 then
      .ok (.ref s.heap.length, { s with heap := s.heap ++ [.bytes (Bytes.zero n.toNat h)] })
    else .error .outOfMemory
  else .error .outOfMemory

/-- Part of an array is set to zero. -/
def clearArray : List Operand → Run Value
  | [⟨.ref r, _⟩, ⟨.int _ start, _⟩, ⟨.int _ count, _⟩] => fun s =>
    match s.heap[r]? with
    | some (.bytes b) =>
      if 0 ≤ start ∧ 0 ≤ count ∧ start + count ≤ b.size then
        let cleared := (List.range count.toNat).foldl (fun b i => b.set (start.toNat + i) 0) b
        .ok (.nothing, { s with heap := s.heap.set r (.bytes cleared) })
      else .error .indexOutOfRange
    | _ => .error .illTyped
  | _ => Run.fail .illTyped

/-- A call. Without a receiver it is one of the object's own methods, or
the method of the library that clears an array. -/
def callValue (name : String) (receiver args : List Meaning) (ctx : Context) : Run Value :=
  match receiver with
  | [] => do
    let args ← operands ctx args
    if name = "System.Array.Clear" then clearArray args
    else Run.onHeap (ctx.service.serve ctx.self (.method name args))
  | [m] => do
    let r ← m.ref ctx
    let args ← operands ctx args
    Run.onHeap (ctx.service.serve r (.method name args))
  | _ => Run.fail .illTyped

/-- The value that a variable of a type is declared with. -/
def initial (type : TypeRef) (init : List Meaning) (ctx : Context) : Run Value :=
  match init with
  | [] => pure (Value.default type)
  | [m] => do
    let o ← m.operand ctx
    Run.ofExcept (o.value.settle type o.constant)
  | _ => Run.fail .illTyped

/-- A variable is declared. -/
def declare (name : String) (type : TypeRef) (init : List Meaning) (ctx : Context) : Run Flow := do
  let value ← initial type init ctx
  modify fun s => { s with locals := ⟨name, type, value⟩ :: s.locals }
  return .next

/-- The method ends, with a result of the type it has to have. -/
def giveBack (value : List Meaning) (ctx : Context) : Run Flow :=
  match value, ctx.returns with
  | [], none => pure (.returned .nothing)
  | [m], some type => do
    let o ← m.operand ctx
    return .returned (← Run.ofExcept (o.value.settle type o.constant))
  | _, _ => Run.fail .illTyped

-- =========================================================== the nodes

/-- The meaning of a node from the meanings of what is in its slots. -/
def nodeMeaning (kind : Kind) (notes : Notes) (slots : List (List Meaning)) : Meaning :=
  match kind, slots with
  | .intLit value (.primitive p) _, _ =>
    if p.holds value then .literal (.int p value) else {}
  | .boolLit value, _ => .literal (.bool value)
  | .varRef decl _, _ => .place fun ctx => pure (.variable (ctx.names decl))
  | .self, _ => .expr fun ctx => pure (.ref ctx.self)
  | .binary op _, [[l], [r]] => .expr (binaryValue op l r)
  | .cond type, [[c], [a], [b]] => .expr fun ctx => do
    let chosen := if ← c.bool ctx then a else b
    let o ← chosen.operand ctx
    Run.ofExcept (o.value.settle type o.constant)
  | .cast type, [[m]] => .expr fun ctx => do Run.ofExcept (convert type (← m.value ctx))
  | .paren _, [[m]] => m
  | .assign _, [[l], [r]] => .expr fun ctx => do
    let target ← l.target ctx
    let o ← r.operand ctx
    target.store ctx o
  | .index _, [[array], [index]] => .place fun ctx => do
    let r ← array.ref ctx
    return .element r (← index.int ctx)
  | .member name _, [[object]] => .place fun ctx => do return .member (← object.ref ctx) name
  | .call name _, [receiver, args] => .expr (callValue name receiver args)
  | .newObject (.named name), [args] => .expr fun ctx => do
    let args ← operands ctx args
    Run.onHeap (ctx.service.create ctx.path name args)
  | .newArray (.primitive .byte), [[count]] => .expr fun ctx => do allocate (← count.int ctx)
  | .arg none false, [[m]] => m
  | .variableDecl type _, [init] => .statement (declare (notes.name.getD "") type init)
  | .exprStmt, [[m]] => .statement fun ctx => do
    let _ ← m.value ctx
    return .next
  | .returnStmt, [value] => .statement (giveBack value)
  | .throwStmt, [[m]] => .statement fun ctx => do
    let _ ← m.value ctx
    Run.fail .thrown
  | .branch, [[c], yes, no] => .statement fun ctx => do
    if ← c.bool ctx then execList ctx yes else execList ctx no
  | _, _ => {}

/-- The meaning of code. -/
def meaning : Shape → Meaning := Term.fold fun _ kind notes slots => nodeMeaning kind notes slots

theorem meaning_node (kind : Kind) (notes : Notes) (slots : List (List Shape)) :
    meaning (.node () kind notes slots) = nodeMeaning kind notes (slots.map (List.map meaning)) :=
  Term.fold_node ..

end RegisterMap.Exec
