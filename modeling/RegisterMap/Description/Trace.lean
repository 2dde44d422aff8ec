/-
Recording a walk. The recorder notes every node that is entered or left,
skips what lies below nodes of given names and ends the walk at nodes of
others.
-/
import RegisterMap.Description.Walk
import RegisterMap.Text.Numeral

namespace RegisterMap.Description

/-- An event of a walk. -/
inductive Event where
  | enterGroup (kind : GroupKind) (name : String) (address : Nat)
  | exitGroup (kind : GroupKind) (name : String)
  | enterRegister (name : String) (address : Nat)
  | exitRegister (name : String)
  | enterField (name : String) (high low : Nat)
  | exitField (name : String)
  deriving DecidableEq, Repr

def Event.text : Event → String
  | .enterGroup kind name address => s!"{kind.keyword} {name} {Text.hex address}"
  | .exitGroup kind name => s!"/{kind.keyword} {name}"
  | .enterRegister name address => s!"reg {name} {Text.hex address}"
  | .exitRegister name => "/reg " ++ name
  | .enterField name high low => s!"field {name} [{high}:{low}]"
  | .exitField name => "/field " ++ name

/-- The events so far, last one first. -/
abbrev Events := List Event

/-- Notes an event, then ends the walk if `fail` names it. -/
def noteEvent (fail : List String) (name : String) (e : Event) : Listening Events Unit :=
  fun events =>
    (if fail.contains name then .error (.stopped ("stopped at " ++ name)) else .ok (),
      e :: events)

/-- The recorder. Leaving a node is named with a slash in front. -/
def recorder (skip fail : List String) : Listener Events :=
  let visit (name : String) (e : Event) : Listening Events Visit := do
    noteEvent fail name e
    return if skip.contains name then .skip else .descend
  { enterGroup := fun kind name address => visit name (.enterGroup kind name address)
    exitGroup := fun kind name => noteEvent fail ("/" ++ name) (.exitGroup kind name)
    enterRegister := fun node address => visit node.name (.enterRegister node.name address)
    exitRegister := fun node => noteEvent fail ("/" ++ node.name) (.exitRegister node.name)
    enterField := fun node =>
      noteEvent fail node.name (.enterField node.name node.high node.low)
    exitField := fun node => noteEvent fail ("/" ++ node.name) (.exitField node.name) }

/-- The result of a recorded walk and its events in order. -/
def Design.events (d : Design) (skip fail : List String) : Except Failure Unit × List Event :=
  let (result, events) := (recorder skip fail).design d []
  (result, events.reverse)

end RegisterMap.Description
