/-
The command line. Arguments are taken one after the other, and what goes
wrong or asks for information first decides. Options may be given before
or after the file; two dashes end them.
-/
namespace RegisterMap.Command

/-- What is to be generated. -/
structure Options where
  input : String
  output : String
  /-- Name of the class, where it is not made from the description. -/
  name : Option String := none
  inner : String := ""
  outer : String := "Antmicro.Renode.Peripherals"
  allPublic : Bool := false
  verbose : Bool := false
  deriving DecidableEq, Repr

/-- Why nothing is to be generated. -/
inductive Stop where
  /-- Help was asked for. -/
  | help
  /-- The version was asked for. -/
  | version
  /-- The command line is wrong. -/
  | misuse (reason : String)
  deriving DecidableEq, Repr

def misuse {α : Type} (reason : String) : Except Stop α := .error (.misuse reason)

-- =========================================================== one argument

/-- How an argument looks. -/
inductive Shape where
  /-- Two dashes alone. -/
  | dashes
  /-- A name behind two dashes, and a value that is attached to it. -/
  | long (name : String) (value : Option String)
  /-- Letters behind a dash. -/
  | letters (letters : List Char)
  | plain (text : String)
  deriving DecidableEq, Repr

/-- How an argument looks. A dash alone is plain. -/
def Shape.of (argument : String) : Shape :=
  match argument.toList with
  | ['-', '-'] => .dashes
  | '-' :: '-' :: rest =>
    match rest.span (· != '=') with
    | (name, _ :: value) => .long (String.ofList name) (some (String.ofList value))
    | (name, []) => .long (String.ofList name) none
  | '-' :: c :: rest => .letters (c :: rest)
  | _ => .plain argument

-- ======================================================= generate command

/-- An option with a value. -/
inductive Setting where
  | output
  | name
  | inner
  | outer
  deriving DecidableEq, Repr

def Setting.ofName? : String → Option Setting
  | "output" => some .output
  | "name" => some .name
  | "namespace" => some .inner
  | "root-namespace" => some .outer
  | _ => none

/-- The arguments of the command taken so far. -/
structure Taken where
  input : Option String := none
  output : Option String := none
  name : Option String := none
  inner : Option String := none
  outer : Option String := none
  allPublic : Bool := false
  verbose : Bool := false
  /-- An option whose value has to come next. -/
  waiting : Option Setting := none
  deriving DecidableEq, Repr

namespace Taken

/-- Something that may be given once. -/
def once {α : Type} (old : Option α) (new : α) : Except Stop (Option α) :=
  match old with
  | some _ => misuse "an argument is given twice"
  | none => .ok (some new)

/-- A path; it may not be empty. -/
def path (old : Option String) (new : String) : Except Stop (Option String) :=
  if new.isEmpty then misuse "a path is empty" else once old new

/-- Gives an option its value. -/
def set (t : Taken) (setting : Setting) (value : String) : Except Stop Taken := do
  let t := { t with waiting := none }
  match setting with
  | .output => return { t with output := ← path t.output value }
  | .name => return { t with name := ← once t.name value }
  | .inner => return { t with inner := ← once t.inner value }
  | .outer => return { t with outer := ← once t.outer value }

/-- Takes the file, or the value an option waits for. -/
def plain (t : Taken) (text : String) : Except Stop Taken := do
  match t.waiting with
  | some setting => t.set setting text
  | none => return { t with input := ← path t.input text }

/-- An option is waiting for a value that does not come. -/
def requireSettled (t : Taken) : Except Stop Unit :=
  if t.waiting.isSome then misuse "an option has no value" else .ok ()

def setVerbose (t : Taken) : Except Stop Taken :=
  if t.verbose then misuse "an argument is given twice" else .ok { t with verbose := true }

def setAllPublic (t : Taken) : Except Stop Taken :=
  if t.allPublic then misuse "an argument is given twice" else .ok { t with allPublic := true }

def long (t : Taken) (name : String) (value : Option String) : Except Stop Taken := do
  t.requireSettled
  match Setting.ofName? name, name, value with
  | some setting, _, some value => t.set setting value
  | some setting, _, none => return { t with waiting := some setting }
  | none, "verbose", none => t.setVerbose
  | none, "all-public", none => t.setAllPublic
  | none, "help", none => throw .help
  | none, _, _ => misuse "an argument is not known"

/-- A value attached to a letter; an equals sign may stand between them. -/
def attached : List Char → String
  | '=' :: value => String.ofList value
  | value => String.ofList value

def letters (t : Taken) : List Char → Except Stop Taken
  | [] => .ok t
  | 'v' :: rest => do (← t.setVerbose).letters rest
  | 'h' :: _ => throw .help
  | ['o'] => .ok { t with waiting := some .output }
  | 'o' :: value => t.set .output (attached value)
  | _ => misuse "an argument is not known"

/-- Takes all arguments in turn; behind two dashes they are all plain. -/
def takeAll (t : Taken) : List String → Except Stop Taken
  | [] => do
    t.requireSettled
    return t
  | argument :: rest =>
    match Shape.of argument with
    | .dashes => do
      t.requireSettled
      rest.foldlM plain t
    | .long name value => do (← t.long name value).takeAll rest
    | .letters letters => do
      t.requireSettled
      (← t.letters letters).takeAll rest
    | .plain text => do (← t.plain text).takeAll rest

/-- The file and the output have to be given. -/
def finish (t : Taken) : Except Stop Options :=
  match t.input, t.output with
  | some input, some output =>
    let defaults : Options := { input, output }
    .ok
      { input, output
        name := t.name
        inner := t.inner.getD defaults.inner
        outer := t.outer.getD defaults.outer
        allPublic := t.allPublic
        verbose := t.verbose }
  | _, _ => misuse "a required argument is missing"

end Taken

/-- The name of the command. -/
def commandName : String := "rdl-gen-renode"

/-- The arguments behind the name of the command. -/
def ofCommandArguments (arguments : List String) : Except Stop Options := do
  (← Taken.takeAll {} arguments).finish

-- ============================================================== top level

/-- What may follow a request for help: the name of a command. -/
def ofHelpArguments : List String → Except Stop Options
  | [] => throw .help
  | [name] =>
    if name = commandName ∨ name = "help" then throw .help
    else misuse "a command is not known"
  | _ => misuse "a command is not known"

/-- Letters before the command. The result tells whether one of them asks
for every step to be logged. -/
def topLetters (verbose : Bool) : List Char → Except Stop Bool
  | [] => .ok verbose
  | 'v' :: rest =>
    if verbose then misuse "an argument is given twice" else topLetters true rest
  | 'h' :: _ => throw .help
  | 'V' :: _ => throw .version
  | _ => misuse "an argument is not known"

/-- What a command line asks for. `verbose` tells whether logging of every
step has been asked for. -/
def ofArguments (verbose : Bool) : List String → Except Stop Options
  | [] => misuse "a command is missing"
  | argument :: rest =>
    if argument = commandName then do
      let options ← ofCommandArguments rest
      return { options with verbose := verbose || options.verbose }
    else if argument = "help" then ofHelpArguments rest
    else
      match Shape.of argument with
      | .long "verbose" none =>
        if verbose then misuse "an argument is given twice" else ofArguments true rest
      | .long "help" none => throw .help
      | .long "version" none => throw .version
      | .letters letters => do ofArguments (← topLetters verbose letters) rest
      | _ => misuse "an argument is not known"

/-- What a command line asks for. -/
def Options.ofArguments (arguments : List String) : Except Stop Options :=
  Command.ofArguments false arguments

end RegisterMap.Command
