/-
The forms of method that the generated classes are made of.
-/
import RegisterMap.Code.Sketch

namespace RegisterMap.Peripheral

open Code

/-- A public method without a result. -/
def publicMethod (name : String) (params body : List Sketch) : Sketch :=
  .method name { access := some .pub } params body

/-- A public method with a double word as its result. -/
def publicReader (name : String) (params body : List Sketch) : Sketch :=
  .method name { returns := some .uint, access := some .pub } params body

/-- A public constructor. -/
def constructor (name : String) (params body : List Sketch) : Sketch :=
  .method name { ctor := true, access := some .pub } params body

/-- Calls a method of the same object, without arguments. -/
def invoke (name : String) : Sketch := .stmt (.call name none [] none)

end RegisterMap.Peripheral
