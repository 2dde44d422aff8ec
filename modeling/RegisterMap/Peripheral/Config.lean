/-
How a peripheral is to be generated: the name of its class, the namespace
it goes into and the accessibility of its members.
-/
import RegisterMap.Text.Blank
import RegisterMap.Text.Names

namespace RegisterMap.Peripheral

/-- The names in a dotted path. Blanks around a name and empty names do
not count. -/
def splitPath (path : String) : List String :=
  let names := (Text.splitAt '.' path.toList).map Text.trim
  (names.filter (!·.isEmpty)).map String.ofList

structure Config where
  /-- Name of the class; made from the name of the description if absent. -/
  name : Option String := none
  /-- Dotted namespace below the outer one, possibly empty. -/
  inner : String := ""
  /-- The outer namespace, outermost name first. -/
  outer : List String := ["Antmicro", "Renode", "Peripherals"]
  /-- Every declaration is made public. -/
  allPublic : Bool := false
  deriving DecidableEq, Repr

namespace Config

/-- Name of the class for a description called `name`. -/
def className (c : Config) (name : String) : String := c.name.getD (Text.pascalCase name)

/-- The whole namespace, outermost name first. -/
def path (c : Config) : List String := c.outer ++ splitPath c.inner

end Config

end RegisterMap.Peripheral
