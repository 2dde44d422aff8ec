/-
Public accessibility for every declaration of a class: its fields,
properties, methods and nested classes. Partial methods and methods that
name the interface they implement keep their implicit accessibility, and
bodies are not entered.
-/
import RegisterMap.Code.Visit

namespace RegisterMap.Code

/-- A kind after it has been made public. `qualified` tells that the name
of the declaration contains a dot. -/
def Kind.published (qualified : Bool) : Kind → Kind
  | .variableDecl type _ => .variableDecl type (some .pub)
  | .methodDecl sig =>
    if qualified || sig.modifiers.isPartial then .methodDecl sig
    else .methodDecl { sig with access := some .pub }
  | .propertyDecl sig => .propertyDecl { sig with access := some .pub }
  | .classDecl sig => .classDecl { sig with access := some .pub }
  | kind => kind

namespace Edit

/-- Makes one declaration public. -/
def publishHere (i : NodeId) : Edit Unit :=
  change (fun t => return ((← t.node i).kind, (t.name i).contains '.'))
    fun (kind, qualified) t => t.setKind i (kind.published qualified)

/-- Publishes declarations; only classes are entered. -/
def publisher : Visitor Edit
  | .variable | .invokable => some fun _ i => publishHere i
  | .classRole => some fun walk i => do
    publishHere i
    walk i
  | _ => none

/-- Makes the declarations at and below `i` public. -/
def publish (i : NodeId) : Edit Unit := publisher.visit i

end Edit

end RegisterMap.Code
