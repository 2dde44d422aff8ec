/-
Why a value is no description.
-/
import RegisterMap.Text.Ticked

namespace RegisterMap.Description

open Text (ticked)

inductive Problem where
  /-- The text makes no sense at this point. -/
  | malformed
  | missingField (name : String)
  | duplicateField (name : String)
  | unknownVariant (name : String) (choices : List String)
  /-- A value of one kind stands where another one is expected. -/
  | invalidType (found expected : String)
  /-- A value of the expected kind is not one of those allowed. -/
  | invalidValue (found expected : String)
  | invalidLength (length : Nat) (expected : String)
  deriving DecidableEq, Repr

namespace Problem

/-- What is wrong, in words; a malformed text has none. -/
def message? : Problem → Option String
  | .malformed => none
  | .missingField name => some s!"missing field {ticked name}"
  | .duplicateField name => some s!"duplicate field {ticked name}"
  | .unknownVariant name choices =>
    let listed := ", ".intercalate (choices.map ticked)
    some s!"unknown variant {ticked name}, expected one of {listed}"
  | .invalidType found expected => some s!"invalid type: {found}, expected {expected}"
  | .invalidValue found expected => some s!"invalid value: {found}, expected {expected}"
  | .invalidLength length expected => some s!"invalid length {length}, expected {expected}"

end Problem

end RegisterMap.Description
