/-
Edits of a code tree that may fail. An edit keeps the tree it leaves
behind whether it succeeds or not, because an edit made of several steps
may have changed the tree before a later step failed.

A single step is `guarded`: its checks read the tree first, and nothing is
changed unless they all pass.
-/
import RegisterMap.Code.Tree

namespace RegisterMap.Code

/-- An action on a code tree with a result or a failure. -/
abbrev Edit := ExceptT Failure (StateM Tree)

namespace Edit

/-- Checks first, then changes the tree; the tree is unchanged if the
check fails. -/
def guarded {α β : Type} (check : Tree → Except Failure α) (act : α → Tree → β × Tree) :
    Edit β := fun t =>
  match check t with
  | .error e => (.error e, t)
  | .ok a =>
    match act a t with
    | (b, t') => (.ok b, t')

/-- Looks something up without changing the tree. -/
def read {α : Type} (look : Tree → Except Failure α) : Edit α :=
  guarded look fun a t => (a, t)

/-- Goes on with a result that was found without the tree. -/
def check {α : Type} (result : Except Failure α) : Edit α := read fun _ => result

/-- A guarded change without a result. -/
def change {α : Type} (check : Tree → Except Failure α) (act : α → Tree → Tree) : Edit Unit :=
  guarded check fun a t => ((), act a t)

theorem guarded_of_error {α β : Type} {check : Tree → Except Failure α}
    {act : α → Tree → β × Tree} {t : Tree} {e : Failure} (h : check t = .error e) :
    guarded check act t = (.error e, t) := by
  simp [guarded, h]

theorem guarded_of_ok {α β : Type} {check : Tree → Except Failure α}
    {act : α → Tree → β × Tree} {t : Tree} {a : α} (h : check t = .ok a) :
    guarded check act t = (.ok (act a t).1, (act a t).2) := by
  simp [guarded, h]

/-- A guarded edit that fails has not changed the tree. -/
theorem guarded_unchanged {α β : Type} {check : Tree → Except Failure α}
    {act : α → Tree → β × Tree} {t : Tree} {e : Failure}
    (h : (guarded check act t).1 = .error e) : (guarded check act t).2 = t := by
  cases hc : check t with
  | error e' => simp [guarded_of_error hc]
  | ok a => simp [guarded_of_ok hc] at h

end Edit

end RegisterMap.Code
