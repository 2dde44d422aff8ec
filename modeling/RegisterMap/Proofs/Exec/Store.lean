/-
What generated code works on. Objects and byte arrays live in a heap and
are known by number; the variables of a method and the fields of an
object have a name and a type, and an assignment converts to that type.
Byte arrays have fewer than 2^31 elements.

A run is an action on the heap and the variables that may fail. A failure
ends it: a broken rule of the language, an exception, or the end of what
is modelled here.
-/
import RegisterMap.Proofs.Exec.Number
import RegisterMap.Code.Slot

namespace RegisterMap.Exec

open Code

-- ============================================================== values

abbrev Byte := BitVec 8

/-- Number of an object or array in the heap. -/
abbrev Ref := Nat

inductive Value where
  | int (type : Primitive) (n : Int)
  | bool (b : Bool)
  | ref (r : Ref)
  | null
  /-- An object of a class that the program does not define. -/
  | foreign (type : String)
  /-- The result of a method without one. -/
  | nothing
  deriving DecidableEq, Repr

/-- What ends a run early. -/
inductive Fault where
  | illTyped
  | unknownName (name : String)
  | nullReference
  | indexOutOfRange
  | divideByZero
  | thrown
  | outOfMemory
  | tooDeep
  /-- Beyond what is modelled. -/
  | unmodelled
  deriving DecidableEq, Repr

namespace Value

/-- The value that a variable of a type starts with. -/
def default : TypeRef → Value
  | .primitive .bool => .bool false
  | .primitive .string => .null
  | .primitive p => .int p 0
  | _ => .null

/-- A value converted to the type of the variable, parameter or result
that takes it. Numbers keep their value; a constant of type `int` or
`long` may also become any type it fits in. -/
def settle (type : TypeRef) (constant : Bool) : Value → Except Fault Value
  | .int p n =>
    match type with
    | .primitive q =>
      if p.widensTo q then .ok (.int q n)
      else if constant && q.isInteger && q.holds n && (p = .int || p = .long && q = .ulong) then
        .ok (.int q n)
      else .error .illTyped
    | _ => .error .illTyped
  | .bool b => if type = .bool then .ok (.bool b) else .error .illTyped
  | .nothing => .error .illTyped
  | v =>
    match type with
    | .primitive _ => .error .illTyped
    | _ => .ok v

/-- The value is one of a built-in type. -/
def isOf (type : TypeRef) : Value → Bool
  | .int p n => type = .primitive p && p.isInteger && p.holds n
  | .bool _ => type = .bool
  | _ => false

/-- A value as a number: a truth value is one or zero. -/
def number : Value → Nat
  | .int _ n => n.toNat
  | .bool b => b.toNat
  | _ => 0

end Value

-- ============================================================ variables

/-- A local variable, a parameter or a field. -/
structure Variable where
  name : String
  type : TypeRef
  value : Value
  deriving DecidableEq, Repr

/-- The variables of a method, or the fields of an object. -/
abbrev Variables := List Variable

namespace Variables

def get? (vs : Variables) (name : String) : Option Variable := vs.find? (·.name = name)

/-- The first variable of a name takes a value. -/
def put (vs : Variables) (name : String) (value : Value) : Variables :=
  match vs with
  | [] => []
  | v :: rest => if v.name = name then { v with value } :: rest else v :: put rest name value

end Variables

-- ================================================================= heap

/-- A byte array. -/
structure Bytes where
  data : List Byte
  bounded : data.length < 2 ^ 31
  deriving DecidableEq, Repr

namespace Bytes

def size (b : Bytes) : Nat := b.data.length

/-- The element at an index within the array. -/
def get (b : Bytes) (i : Nat) : Byte := b.data.getD i 0

def set (b : Bytes) (i : Nat) (v : Byte) : Bytes where
  data := b.data.set i v
  bounded := by
    rw [List.length_set]
    exact b.bounded

/-- `size` zero bytes. -/
def zero (size : Nat) (h : size < 2 ^ 31) : Bytes where
  data := List.replicate size 0
  bounded := by rwa [List.length_replicate]

/-- Bit `j` of an array, counted from the low end of its first byte. -/
def bit (b : Bytes) (j : Nat) : Bool := (b.get (j / 8)).getLsbD (j % 8)

@[simp] theorem size_set (b : Bytes) (i : Nat) (v : Byte) : (b.set i v).size = b.size :=
  List.length_set ..

theorem get_set (b : Bytes) {i : Nat} (h : i < b.size) (v : Byte) (j : Nat) :
    (b.set i v).get j = if i = j then v else b.get j := by
  unfold get set
  rw [List.getD_eq_getElem?_getD, List.getD_eq_getElem?_getD, List.getElem?_set]
  split
  · next he =>
    subst he
    have h' : i < b.data.length := h
    rw [if_pos h']
    rfl
  · rfl

/-- Consecutive elements are replaced, from `start` on. -/
def fill (b : Bytes) (start : Nat) (f : Nat → Byte) : (count : Nat) → Bytes
  | 0 => b
  | count + 1 => (b.fill start f count).set (start + count) (f count)

@[simp] theorem size_fill (b : Bytes) (start : Nat) (f : Nat → Byte) (count : Nat) :
    (b.fill start f count).size = b.size := by
  induction count with
  | zero => rfl
  | succ count ih => rw [fill, size_set, ih]

theorem get_fill (b : Bytes) (start : Nat) (f : Nat → Byte) {count : Nat}
    (h : start + count ≤ b.size) (j : Nat) :
    (b.fill start f count).get j
      = if start ≤ j ∧ j < start + count then f (j - start) else b.get j := by
  induction count with
  | zero => rw [fill, if_neg (by omega)]
  | succ count ih =>
    rw [fill, get_set _ (by rw [size_fill]; omega), ih (by omega)]
    by_cases hj : start + count = j
    · rw [if_pos hj, if_pos (by omega), ← hj]
      congr 1
      omega
    · rw [if_neg hj]
      exact if_congr (by omega) rfl rfl

end Bytes

inductive Cell where
  | bytes (b : Bytes)
  /-- An object, with the names of the classes its own class is in,
  innermost first, its own included. -/
  | object (path : List String) (fields : Variables)
  deriving DecidableEq, Repr

abbrev Heap := List Cell

/-- The fields of an object. -/
def Heap.fields (heap : Heap) (object : Ref) : Variables :=
  match heap[object]? with
  | some (.object _ fields) => fields
  | _ => []

-- ================================================================= runs

/-- What a method works on. -/
structure Store where
  heap : Heap
  locals : Variables := []

/-- What a name stands for in a method of an object: a local variable, or
else a field. -/
def Store.lookup (s : Store) (self : Ref) (name : String) : Option Variable :=
  (s.locals.get? name).or ((s.heap.fields self).get? name)

/-- An action on a store with a result or a failure. -/
abbrev Run := StateT Store (Except Fault)

namespace Run

variable {α β : Type}

def fail (fault : Fault) : Run α := fun _ => .error fault

/-- A result that was found without the store. -/
def ofExcept (result : Except Fault α) : Run α := fun s => result.map fun a => (a, s)

/-- An action on the heap alone. -/
def onHeap (act : Heap → Except Fault (α × Heap)) : Run α := fun s =>
  (act s.heap).map fun (a, heap) => (a, { s with heap })

theorem bind_run {act : Run α} {f : α → Run β} {a : α} {s s' : Store}
    (h : act s = .ok (a, s')) : (act >>= f) s = f a s' := by
  show (act s >>= fun p => f p.1 p.2) = _
  rw [h]
  rfl

theorem bind_error {act : Run α} {f : α → Run β} {e : Fault} {s : Store} (h : act s = .error e) :
    (act >>= f) s = .error e := by
  show (act s >>= fun p => f p.1 p.2) = _
  rw [h]
  rfl

theorem pure_run (a : α) (s : Store) : (pure a : Run α) s = .ok (a, s) := rfl

end Run

end RegisterMap.Exec
