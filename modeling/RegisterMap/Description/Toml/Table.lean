/-
The tables of a TOML document, and the rules by which headers and dotted
keys define them. A table that a header or a key creates on its way to
another one is implied, and may be defined later by a header of its own;
one that dotted keys create belongs to those keys.
-/
import RegisterMap.Description.Value

namespace RegisterMap.Description.Toml

/-- What a key stands for. -/
inductive Entry where
  | value (v : Value)
  /-- A table, which may be implied and may belong to dotted keys. -/
  | table (implied dotted : Bool) (entries : List (String × Entry))
  /-- Tables that headers in double brackets add one by one. -/
  | tables (elements : List (List (String × Entry)))
  deriving Repr

structure Table where
  implied : Bool := false
  dotted : Bool := false
  entries : List (String × Entry) := []
  deriving Repr

namespace Table

def entry (t : Table) : Entry := .table t.implied t.dotted t.entries

def find? (t : Table) (key : String) : Option Entry := t.entries.lookup key

/-- Replaces what a key stands for, or adds the key at the end. -/
def put (t : Table) (key : String) (e : Entry) : Table :=
  let entries :=
    if (t.find? key).isSome then
      t.entries.map fun old => if old.1 = key then (key, e) else old
    else t.entries ++ [(key, e)]
  { t with entries }

/-- Changes the table that a path leads to, and creates what is missing on
the way. A path of dotted keys only leads through implied tables; a path
through added tables leads to the last of them. -/
def alter (dotted : Bool) (act : Table → Option Table) : List String → Table → Option Table
  | [], t => act t
  | key :: path, t => do
    match t.find? key with
    | none =>
      let inner ← alter dotted act path { implied := true, dotted }
      return t.put key inner.entry
    | some (.value _) => none
    | some (.table implied wasDotted entries) =>
      if dotted && !implied then none
      else
        let inner ← alter dotted act path { implied, dotted := wasDotted, entries }
        return t.put key inner.entry
    | some (.tables elements) =>
      let last ← elements.getLast?
      let inner ← alter dotted act path { entries := last }
      return t.put key (.tables (elements.dropLast ++ [inner.entries]))

/-- Defines a key, given with the dotted keys before it. Nothing is defined
twice, and only dotted keys add to the tables they create. -/
def define (path : List String) (key : String) (v : Value) (t : Table) : Option Table :=
  t.alter true (fun inner =>
    if inner.dotted == path.isEmpty || (inner.find? key).isSome then none
    else some (inner.put key (.value v))) path

/-- Defines the table of a header. -/
def openTable (path : List String) (key : String) (t : Table) : Option Table :=
  t.alter false (fun parent =>
    match parent.find? key with
    | none => some (parent.put key (.table false false []))
    | some (.table true false entries) => some (parent.put key (.table false false entries))
    | some _ => none) path

/-- Adds the table of a header in double brackets. -/
def addTable (path : List String) (key : String) (t : Table) : Option Table :=
  t.alter false (fun parent =>
    match parent.find? key with
    | none => some (parent.put key (.tables [[]]))
    | some (.tables elements) => some (parent.put key (.tables (elements ++ [[]])))
    | some _ => none) path

end Table

namespace Entry

mutual

/-- The value of an entry. -/
def toValue : Entry → Value
  | .value v => v
  | .table _ _ entries => .record (members entries) true
  | .tables elements => .list (records elements) true

def members : List (String × Entry) → List (String × Value)
  | [] => []
  | (key, e) :: rest => (key, toValue e) :: members rest

def records : List (List (String × Entry)) → List Value
  | [] => []
  | entries :: rest => .record (members entries) true :: records rest

end

end Entry

/-- The value of a table. -/
def Table.toValue (t : Table) : Value := t.entry.toValue

end RegisterMap.Description.Toml
