/-
Reading the value of JSON text, as far as the text makes sense. The lists
and records entered and not left form a stack; every token either fits
what is expected on top of it or breaks the text, and then the value is
put together from what the stack holds.

Of the record at the top only some members are wanted. The others are
passed over: they have to be well formed, but may nest to any depth and
hold numbers and strings that stand for nothing.
-/
import RegisterMap.Description.Decode
import RegisterMap.Description.Json.Token

namespace RegisterMap.Description.Json

/-- A list or record entered and not left, with its items last one first.
In a record a name may wait for its value. -/
inductive Frame where
  | list (items : List Value)
  | record (members : List (String × Value)) (pending : Option String)
  deriving Repr

/-- What may come next. -/
inductive Expected where
  | value
  /-- The first item of a list, or its end. -/
  | itemOrEnd
  /-- The first name of a record, or its end. -/
  | nameOrEnd
  | name
  | colon
  /-- A comma, or the end of the list or record. -/
  | separator
  /-- Nothing: the value is complete. -/
  | finish
  /-- Nothing: the text makes no sense. -/
  | failed
  deriving DecidableEq, Repr

/-- The state of reading. -/
structure State where
  stack : List Frame := []
  expected : Expected := .value
  /-- The value, once it is complete. -/
  result : Value := .broken
  deriving Repr

/-- Lists and records may nest so deep. -/
def depthLimit : Nat := 127

namespace State

def fail (s : State) : State := { s with expected := .failed }

/-- Tells whether the innermost value is part of a member that is passed
over. -/
def passesOver (wanted : List String) (s : State) : Bool :=
  match s.stack.getLast? with
  | some (.record _ (some name)) => !wanted.contains name
  | _ => false

/-- Puts a value where one is expected. -/
def put (s : State) (v : Value) : State :=
  match s.stack with
  | [] => { s with expected := .finish, result := v }
  | .list items :: rest => { s with stack := .list (v :: items) :: rest, expected := .separator }
  | .record members (some name) :: rest =>
    { s with stack := .record ((name, v) :: members) none :: rest, expected := .separator }
  | .record _ none :: _ => s.fail

/-- Enters a list or record. -/
def enter (wanted : List String) (s : State) (frame : Frame) (expected : Expected) : State :=
  if s.stack.length < depthLimit || s.passesOver wanted then
    { s with stack := frame :: s.stack, expected }
  else s.fail

/-- Starts or completes a value. -/
def value (wanted : List String) (s : State) (token : Token) : State :=
  let atom (v : Option Value) : State :=
    match v with
    | some v => s.put v
    | none => if s.passesOver wanted then s.put .null else s.fail
  match token with
  | .openBracket => s.enter wanted (.list []) .itemOrEnd
  | .openBrace => s.enter wanted (.record [] none) .nameOrEnd
  | .null => atom (some .null)
  | .bool b => atom (some (.bool b))
  | .number v => atom v
  | .string text => atom (text.map .text)
  | _ => s.fail

/-- Leaves the innermost list. -/
def leaveList (s : State) : State :=
  match s.stack with
  | .list items :: rest => { s with stack := rest }.put (.list items.reverse true)
  | _ => s.fail

/-- Leaves the innermost record. -/
def leaveRecord (s : State) : State :=
  match s.stack with
  | .record members none :: rest =>
    { s with stack := rest }.put (.record members.reverse true)
  | _ => s.fail

/-- Takes the name of a member. -/
def name (wanted : List String) (s : State) (token : Token) : State :=
  match token, s.stack with
  | .string text, .record members none :: rest =>
    let named (name : String) : State :=
      { s with stack := .record members (some name) :: rest, expected := .colon }
    match text with
    | some name => named name
    | none => if s.passesOver wanted then named "" else s.fail
  | _, _ => s.fail

/-- Goes on behind a comma. -/
def next (s : State) : State :=
  match s.stack with
  | .list _ :: _ => { s with expected := .value }
  | .record .. :: _ => { s with expected := .name }
  | [] => s.fail

/-- Takes one token. -/
def take (wanted : List String) (s : State) (token : Token) : State :=
  match s.expected, token with
  | .value, token => s.value wanted token
  | .itemOrEnd, .closeBracket => s.leaveList
  | .itemOrEnd, token => s.value wanted token
  | .nameOrEnd, .closeBrace => s.leaveRecord
  | .nameOrEnd, token | .name, token => s.name wanted token
  | .colon, .colon => { s with expected := .value }
  | .separator, .comma => s.next
  | .separator, .closeBracket => s.leaveList
  | .separator, .closeBrace => s.leaveRecord
  | _, _ => s.fail

/-- The value of an unfinished stack, innermost frame first. -/
def collapse : Option Value → List Frame → Value
  | inner, [] => inner.getD .broken
  | inner, .list items :: rest =>
    collapse (some (.list (inner.toList.reverse ++ items).reverse false)) rest
  | _, .record members none :: rest =>
    collapse (some (.record members.reverse false)) rest
  | inner, .record members (some name) :: rest =>
    collapse (some (.record ((name, inner.getD .broken) :: members).reverse false)) rest

end State

/-- Reads tokens until the text breaks, or goes on behind its value. -/
def takeAll (wanted : List String) : State → List Token → State
  | s, [] => s
  | s, token :: rest =>
    let s := s.take wanted token
    if s.expected = .failed then s else takeAll wanted s rest

/-- The value of a text, and whether the text ends with it. -/
def read (wanted : List String) (text : String) : Value × Bool :=
  let s := takeAll wanted {} (tokens text)
  match s.stack, s.expected with
  | [], .finish => (s.result, true)
  | [], .failed => (s.result, false)
  | stack, _ => (State.collapse none stack, false)

end RegisterMap.Description.Json

namespace RegisterMap.Description

/-- Reads a description from JSON text. Numbers without a sign may tell the
types of components below the topmost ones. -/
def Design.ofJson (text : String) : Decoded Design := do
  let (v, complete) := Json.read Shape.groupNode.members text
  let design ← Design.decode .indexedBelow v
  if complete then return design else throw .malformed

end RegisterMap.Description
