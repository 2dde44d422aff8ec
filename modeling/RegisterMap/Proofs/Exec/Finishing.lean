/-
What the rewriting of finished code does to its meaning. Parentheses are
transparent (`meaning_parenthesized`). What is left is the removal of
operations without effect, so the meaning of a chain of finished code is
that of the reduced chain (`denote`).
-/
import RegisterMap.Proofs.Code.Publishing
import RegisterMap.Proofs.Exec.Meaning

namespace RegisterMap.Exec

open Code Term

-- ========================================================= parentheses

theorem meaning_wrapIf (p : Kind → Bool) (x : Shape) : meaning (x.wrapIf p) = meaning x := by
  unfold wrapIf
  split
  · rw [meaning_node]
    rfl
  · rfl

theorem meaning_wrapHead (p : Kind → Bool) (c : List Shape) :
    (wrapHead p c).map meaning = c.map meaning := by
  cases c with
  | nil => rfl
  | cons x rest =>
    show meaning (x.wrapIf p) :: rest.map meaning = _
    rw [meaning_wrapIf]
    rfl

theorem meaning_parenTop (kind : Kind) (slots : List (List Shape)) :
    (parenTop kind slots).map (List.map meaning) = slots.map (List.map meaning) := by
  have hloose : (slots.map fun c => c.map (wrapIf (Edit.isLooser kind))).map (List.map meaning)
      = slots.map (List.map meaning) := by
    rw [List.map_map]
    refine List.map_congr_left fun c _ => ?_
    show (c.map _).map meaning = _
    rw [List.map_map]
    exact List.map_congr_left fun x _ => meaning_wrapIf _ x
  unfold parenTop
  dsimp only
  split
  · next l r h =>
    rw [h] at hloose
    rw [← hloose]
    show [l.map meaning, (wrapHead _ r).map meaning] = _
    rw [meaning_wrapHead]
    rfl
  · next c rest h =>
    rw [h] at hloose
    rw [← hloose]
    show (wrapHead _ c).map meaning :: rest.map (List.map meaning) = _
    rw [meaning_wrapHead]
    rfl
  · rw [List.map_map]
    exact List.map_congr_left fun c _ => meaning_wrapHead _ c
  · rfl

/-- Parentheses do not change what code means. -/
theorem meaning_parenthesized (x : Shape) : meaning x.parenthesized = meaning x := by
  induction x using Term.ind with
  | node tag kind notes slots ih =>
    rw [parenthesized_node, meaning_node, meaning_parenTop, meaning_node, List.map_map]
    congr 1
    refine List.map_congr_left fun c hc => ?_
    show (c.map parenthesized).map meaning = _
    rw [List.map_map]
    exact List.map_congr_left fun y hy => ih c hc y hy

-- ============================================================ finished

/-- What a chain means once operations without effect are removed. -/
def denote (c : List Shape) : List Meaning := (c.flatMap reduced).map meaning

theorem denote_append (c d : List Shape) : denote (c ++ d) = denote c ++ denote d := by
  unfold denote
  rw [List.flatMap_append, List.map_append]

/-- A node that is no operation means what its parts do after reduction. -/
theorem denote_node {kind : Kind} (h : kind.isBinary = false) (notes : Notes)
    (slots : List (List Shape)) :
    denote [.node () kind notes slots] = [nodeMeaning kind notes (slots.map denote)] := by
  unfold denote
  rw [List.flatMap_singleton, reduced_node,
    reduceTop_of_ne fun op type he => by rw [he] at h; cases h]
  rw [List.map_singleton, meaning_node, List.map_map]
  rfl

end RegisterMap.Exec
