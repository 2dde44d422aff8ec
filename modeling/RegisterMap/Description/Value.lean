/-
The values a description is written in, as far as a text could be read. A
text that stops making sense still has a value: the items read so far in
lists and records that are not closed, and a broken value where one was
expected. So what is wrong with the part before the break is known too.
-/
import RegisterMap.Text.Quoted
import RegisterMap.Text.Ticked

namespace RegisterMap.Description

/-- A value read from a text. -/
inductive Value where
  | null
  | bool (value : Bool)
  | integer (value : Int)
  /-- A number that is no integer, as it is shown in messages. -/
  | floating (shown : String)
  | text (value : String)
  | list (items : List Value) (closed : Bool)
  | record (members : List (String × Value)) (closed : Bool)
  /-- No value could be read. -/
  | broken
  deriving Repr

namespace Value

/-- What messages say a value is; nothing for a broken one. -/
def shown? : Value → Option String
  | .null => some "null"
  | .bool value => some ("boolean " ++ Text.ticked (toString value))
  | .integer value => some ("integer " ++ Text.ticked (toString value))
  | .floating shown => some ("floating point " ++ Text.ticked shown)
  | .text value => some ("string " ++ Text.quoted value)
  | .list .. => some "sequence"
  | .record .. => some "map"
  | .broken => none

mutual

/-- The text made sense to the end of the value. -/
def isWhole : Value → Bool
  | .list items closed => closed && allWhole items
  | .record members closed => closed && membersWhole members
  | .broken => false
  | _ => true

def allWhole : List Value → Bool
  | [] => true
  | v :: rest => v.isWhole && allWhole rest

def membersWhole : List (String × Value) → Bool
  | [] => true
  | (_, v) :: rest => v.isWhole && membersWhole rest

end

end Value

end RegisterMap.Description
