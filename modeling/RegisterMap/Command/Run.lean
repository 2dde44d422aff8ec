/-
Running the command: the description is loaded, the source file of its
peripheral is generated and written. Nothing is written unless all before
it succeeds.
-/
import RegisterMap.Command.Arguments
import RegisterMap.Description.Load
import RegisterMap.Peripheral.Source

namespace RegisterMap.Command

open Description

/-- Why the command fails. -/
inductive RunError where
  | load (error : LoadError)
  | generate (path : String) (failure : Failure)
  | write (path : String)
  deriving DecidableEq, Repr

namespace RunError

def message : RunError → String
  | .load error => error.message
  | .generate path failure =>
    s!"Failed to generate a peripheral from {path}: {failure.message}"
  | .write path => "Failed to write " ++ path

/-- A number that left its range ends the program in another way than
every other failure. -/
def exitCode : RunError → Nat
  | .generate _ (.fault _) => 101
  | _ => 1

end RunError

/-- Exit code of a command line that does not run the command. -/
def Stop.exitCode : Stop → Nat
  | .help | .version => 0
  | .misuse _ => 2

namespace Options

/-- How the peripheral is to be generated. -/
def config (o : Options) : Peripheral.Config where
  name := o.name
  inner := o.inner
  outer := Peripheral.splitPath o.outer
  allPublic := o.allPublic

/-- The source file for what could be read from the input, and the journal
of the steps. -/
def source (o : Options) (contents : Option String) : Except RunError String × Journal :=
  let start : LogRecord := ⟨.info, "Generating Renode peripheral from " ++ o.input⟩
  match Design.load o.input contents with
  | .error e => (.error (.load e), #[start])
  | .ok design =>
    match (design.source o.config).outcome with
    | (result, journal) => (result.mapError (.generate o.input), #[start] ++ journal)

/-- The last record of a run that wrote its output. -/
def written (o : Options) : LogRecord := ⟨.info, "Output written to: " ++ o.output⟩

end Options

end RegisterMap.Command
