/-
A cursor over a chain of siblings. The successor is read before the
current node is handed out, so the node may be replaced, cut or detached
while the cursor is in use.
-/
import RegisterMap.Code.Link

namespace RegisterMap.Code

/-- The rest of a chain, as it was when its first node was reached. -/
structure Cursor where
  next : Option NodeId

namespace Cursor

/-- The current node and the cursor behind it. -/
def step (c : Cursor) : Edit (Option (NodeId × Cursor)) :=
  match c.next with
  | none => pure none
  | some i => Edit.read fun t => return some (i, ⟨(← t.node i).next⟩)

/-- Hands out at most `fuel` nodes, acting on each, and lists them. -/
def runFrom (act : NodeId → Edit Unit) : (fuel : Nat) → Cursor → Edit (List NodeId)
  | 0, _ => pure []
  | fuel + 1, c => do
    match ← c.step with
    | none => pure []
    | some (i, rest) =>
      act i
      return i :: (← runFrom act fuel rest)

end Cursor

/-- Acts on every node of the chain that starts at `head`, and lists the
nodes in the order in which they were handed out. -/
def Edit.forSiblings (head : Option NodeId) (act : NodeId → Edit Unit) : Edit (List NodeId) := do
  let size ← read fun t => .ok t.size
  Cursor.runFrom act (size + 1) ⟨head⟩

end RegisterMap.Code
