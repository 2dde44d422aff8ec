/-
A directory of text files, and running the command in it. Paths lead down
from the directory; they may go up again, but not out of it. The one file
outside is the null device.
-/
import RegisterMap.Command.Run

namespace RegisterMap.Command

/-- The files of a directory by their paths; directories are those that
files lie in. -/
structure Directory where
  files : List (List String × String)

namespace Directory

/-- The names in a path. -/
def names (path : String) : List String :=
  (Text.splitAt '/' path.toList).map String.ofList

/-- The directory with the files of given paths and contents. -/
def ofFiles (files : List (String × String)) : Directory :=
  { files := files.map fun (path, text) => (names path, text) }

/-- A directory lies at a path. -/
def hasDirectory (d : Directory) (path : List String) : Bool :=
  path.isEmpty || d.files.any fun (file, _) => path.length < file.length && path.isPrefixOf file

/-- Where a path leads from `base`. Every name but the last is that of a
directory, and the last one is that of a file. -/
def locate (d : Directory) (base : List String) : List String → Option (List String)
  | [] => none
  | [last] => if last = "" ∨ last = "." ∨ last = ".." then none else some (base ++ [last])
  | "" :: rest | "." :: rest => d.locate base rest
  | ".." :: rest => if base.isEmpty then none else d.locate base.dropLast rest
  | name :: rest =>
    let next := base ++ [name]
    if d.hasDirectory next then d.locate next rest else none

/-- The most bytes that a name in a path may have. -/
def longestName : Nat := 255

/-- The most bytes that a path may have. -/
def longestPath : Nat := 4095

/-- The path and the names in it are not too long. -/
def isUsable (path : String) : Bool :=
  path.utf8ByteSize ≤ longestPath && (names path).all (·.utf8ByteSize ≤ longestName)

/-- Where a path leads; one that starts at the root leads out. -/
def locate? (d : Directory) (path : String) : Option (List String) :=
  if path.startsWith "/" || !isUsable path then none else d.locate [] (names path)

/-- The device that holds no text and takes any. -/
def nullDevice : String := "/dev/null"

/-- The text of a file. -/
def read? (d : Directory) (path : String) : Option String := do
  if path = nullDevice then return ""
  d.files.lookup (← d.locate? path)

/-- The directory with a file written. -/
def write? (d : Directory) (path text : String) : Option Directory := do
  if path = nullDevice then return d
  let file ← d.locate? path
  if d.hasDirectory file then none
  else return { files := (file, text) :: d.files.filter (·.1 != file) }

end Directory

/-- How a run ended: the failure, if there was one, and what the directory
holds then. -/
structure Outcome where
  exitCode : Nat
  error : Option RunError := none
  directory : Directory

/-- Runs a command line in a directory. -/
def runIn (d : Directory) (arguments : List String) : Outcome :=
  match Options.ofArguments arguments with
  | .error stop => { exitCode := stop.exitCode, directory := d }
  | .ok options =>
    match (options.source (d.read? options.input)).1 with
    | .error e => { exitCode := e.exitCode, error := some e, directory := d }
    | .ok code =>
      match d.write? options.output code with
      | some d => { exitCode := 0, directory := d }
      | none =>
        let e := RunError.write options.output
        { exitCode := e.exitCode, error := some e, directory := d }

end RegisterMap.Command
