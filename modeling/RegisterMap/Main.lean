/-
The command line program.
-/
import RegisterMap.Command.Run

namespace RegisterMap.Command

/-- What the program says about itself. -/
def usage : String :=
  "Usage: " ++ commandName ++ " FILE -o FILE [--name NAME] [--namespace NAMESPACE]\n" ++
    "    [--root-namespace NAMESPACE] [--all-public] [-v]\n"

/-- The text of a file, if it can be read. -/
def readText (path : String) : IO (Option String) := do
  try
    return some (← IO.FS.readFile path)
  catch _ => return none

/-- Writes a file; the result tells whether that went well. -/
def writeText (path text : String) : IO Bool := do
  try
    IO.FS.writeFile path text
    return true
  catch _ => return false

/-- Prints the records that matter at the chosen level. -/
def printJournal (verbose : Bool) (journal : Journal) : IO Unit :=
  for record in journal do
    if verbose || record.level != .debug then IO.println record.line

/-- Ends with a message on the error stream. -/
def failWith (e : RunError) : IO UInt32 := do
  IO.eprintln e.message
  return e.exitCode.toUInt32

def runOptions (options : Options) : IO UInt32 := do
  let (result, journal) := options.source (← readText options.input)
  printJournal options.verbose journal
  match result with
  | .error e => failWith e
  | .ok code =>
    if ← writeText options.output code then
      printJournal options.verbose #[options.written]
      return 0
    else failWith (.write options.output)

/-- Runs the program; the result is its exit code. -/
def runProgram (arguments : List String) : IO UInt32 := do
  match Options.ofArguments arguments with
  | .ok options => runOptions options
  | .error stop =>
    match stop with
    | .misuse reason => IO.eprintln ("error: " ++ reason ++ "\n" ++ usage)
    | .help | .version => IO.println usage
    return stop.exitCode.toUInt32

end RegisterMap.Command

def main (arguments : List String) : IO UInt32 := RegisterMap.Command.runProgram arguments
