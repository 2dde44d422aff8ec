/-
A code tree in the making, with the journal of what was done to it, and
the rewriting every finished tree goes through before it is written out.
-/
import RegisterMap.Code.Reduce
import RegisterMap.Code.Parenthesize
import RegisterMap.Code.Publish
import RegisterMap.Reporting

namespace RegisterMap.Code

structure Draft where
  tree : Tree := {}
  journal : Journal := #[]

/-- An action on a draft with a result or a failure. -/
abbrev Drafting := ExceptT Failure (StateM Draft)

namespace Drafting

/-- An edit changes the tree of a draft and leaves its journal alone. -/
def ofEdit {α : Type} (edit : Edit α) : Drafting α := fun draft =>
  match draft with
  | ⟨tree, journal⟩ =>
    match edit tree with
    | (result, tree) => (result, ⟨tree, journal⟩)

instance : MonadLift Edit Drafting := ⟨ofEdit⟩

/-- Adds a record to the journal. -/
def note (level : Level) (text : String) : Drafting Unit := fun draft =>
  (.ok (), { draft with journal := draft.journal.push ⟨level, text⟩ })

/-- Starts from an empty tree and leaves the finished one with the result.
The journal goes on. -/
def fresh {α : Type} (act : Drafting α) : Reporting (α × Tree) := fun journal =>
  match act { journal } with
  | (.ok result, draft) => (.ok (result, draft.tree), draft.journal)
  | (.error e, draft) => (.error e, draft.journal)

/-- The description of a node. -/
def describe (i : NodeId) : Drafting String :=
  ofEdit (Edit.read fun t => .ok (t.describe i))

/-- Removes the operations without effect, then adds the parentheses that
precedence calls for and, if asked to, makes every declaration public. -/
def rewrite (root : NodeId) (allPublic : Bool) : Drafting Unit := do
  note .debug s!"Eliminating null operations under {← describe root}"
  ofEdit (Edit.reduce root)
  note .debug s!"Ordering operators under {← describe root}"
  ofEdit (Edit.parenthesize root)
  if allPublic then
    note .debug s!"Making all declarations public under {← describe root}"
    ofEdit (Edit.publish root)

end Drafting

end RegisterMap.Code
