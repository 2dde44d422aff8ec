/-
Actions that keep a journal of what they do. The journal survives a
failure: it holds every record up to the point where the action stopped.
-/
import RegisterMap.Failure
import RegisterMap.Journal

namespace RegisterMap

/-- An action with a result or a failure, and a journal. -/
abbrev Reporting := ExceptT Failure (StateM Journal)

namespace Reporting

/-- Adds a record to the journal. -/
def note (level : Level) (text : String) : Reporting Unit := fun journal =>
  (.ok (), journal.push ⟨level, text⟩)

/-- A computation that reports nothing. -/
def quiet {α : Type} (result : Except Failure α) : Reporting α := fun journal =>
  (result, journal)

/-- The result of an action and its whole journal. -/
def outcome {α : Type} (act : Reporting α) : Except Failure α × Journal := act #[]

end Reporting

end RegisterMap
