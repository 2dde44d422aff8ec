/-
Loading a description from a file. The file is read first; the extension
of its name then tells the format.
-/
import RegisterMap.Description.Json.Reader
import RegisterMap.Description.Toml.Reader
import RegisterMap.Text.Blank

namespace RegisterMap.Description

/-- Why a file gives no description. -/
inductive LoadError where
  | unreadable (path : String)
  | unsupported (path : String)
  | unparsable (path : String) (problem : Problem)
  deriving DecidableEq, Repr

def LoadError.message : LoadError → String
  | .unreadable path => "Failed to read " ++ path
  | .unsupported path =>
    s!"Unsupported description format: {path} (expected .toml or .json)"
  | .unparsable path _ => "Failed to parse " ++ path

-- ============================================================ file names

/-- The last name in a path. A path that ends by going up has none. -/
def fileName? (path : String) : Option (List Char) := do
  let pieces := (Text.splitAt '/' path.toList).filter fun piece => piece ≠ [] ∧ piece ≠ ['.']
  let last ← pieces.getLast?
  if last = ['.', '.'] then none else some last

/-- What stands behind the last dot of a file name. A dot in front of the
whole name does not count. -/
def extension? (path : String) : Option String := do
  let pieces := Text.splitAt '.' (← fileName? path)
  match pieces with
  | [] | [_] | [[], _] => none
  | _ => pieces.getLast?.map String.ofList

-- =============================================================== formats

/-- How a description is written. -/
inductive Format where
  | toml
  | json
  deriving DecidableEq, Repr

namespace Format

def ofPath? (path : String) : Option Format :=
  match extension? path with
  | some "toml" => some .toml
  | some "json" => some .json
  | _ => none

/-- Reads a description in a format. -/
def read : Format → String → Decoded Design
  | .toml => Design.ofToml
  | .json => Design.ofJson

end Format

/-- Loads a description. `contents` is what could be read from the file. -/
def Design.load (path : String) (contents : Option String) : Except LoadError Design :=
  match contents with
  | none => .error (.unreadable path)
  | some text =>
    match Format.ofPath? path with
    | none => .error (.unsupported path)
    | some format => (format.read text).mapError (.unparsable path)

end RegisterMap.Description
