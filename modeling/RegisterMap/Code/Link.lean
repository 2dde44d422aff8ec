/-
Operations on the links of a code tree. Seen as lists of siblings they
are splices: `replace` turns `pre ++ [n] ++ post` into
`pre ++ chain ++ post`, `insertAfter` into `pre ++ [n] ++ chain ++ post`,
`cut` into `pre ++ post`, and `detach` takes `[n] ++ post` away. They
check the links they touch before they change any; only `cut` takes the
siblings after the node off before they replace it.
-/
import RegisterMap.Code.Edit

namespace RegisterMap.Code

namespace Tree

-- ============================================================== checks

def require (t : Tree) (i : NodeId) : Except Failure Unit :=
  if i < t.size then .ok () else .error (.link (.unknownNode i))

/-- The node exists and is linked nowhere. -/
def requireUnlinked (t : Tree) (i : NodeId) : Except Failure Unit := do
  t.require i
  match t.place i with
  | .root => .ok ()
  | _ => .error (.link (.alreadyLinked (t.describe i)))

/-- The node exists and is linked somewhere. -/
def requireLinked (t : Tree) (i : NodeId) : Except Failure Unit := do
  t.require i
  match t.place i with
  | .root => .error (.link (.notLinked (t.describe i)))
  | _ => .ok ()

/-- The chain headed by `head` may be linked at `anchor`. -/
def requireAcyclic (t : Tree) (anchor head : NodeId) : Except Failure Unit :=
  if t.wouldCycle anchor head then .error (.link (.cycle (t.describe head))) else .ok ()

/-- Head of the chain in a slot the node has to have. -/
def slotHead (t : Tree) (owner : NodeId) (slot : Slot) : Except Failure (Option NodeId) := do
  let n ← t.node owner
  if slot ∈ n.kind.slots then .ok (n.heads slot)
  else .error (.link (.invalidSlot (t.describe owner) slot))

-- ============================================================= changes

/-- Makes whatever holds the place `p` hold `head` instead. -/
def hold (t : Tree) (p : Place) (head : Option NodeId) : Tree :=
  match p with
  | .root => t
  | .slot owner slot => t.setHead owner slot head
  | .after previous => t.setNext previous head

/-- Takes `i` with its trailing siblings out of its place. -/
def unlink (t : Tree) (i : NodeId) : Tree :=
  (t.hold (t.place i) none).setPlace i .root

/-- Lets `tail` follow the chain headed by `head`. -/
def followWith (t : Tree) (head : NodeId) (tail : Option NodeId) : Tree :=
  match tail with
  | none => t
  | some tail =>
    let last := t.last head
    (t.setNext last (some tail)).setPlace tail (.after last)

/-- Puts the chain of `other` where `i` is; the siblings after `i` follow
the chain. -/
def splice (t : Tree) (i other : NodeId) : Tree :=
  let place := t.place i
  let tail := t.next? i
  let t := ((t.hold place (some other)).setPlace other place).setPlace i .root
  (t.setNext i none).followWith other tail

/-- Links the chain of `other` right after `i`; the siblings after `i`
follow the chain. -/
def linkAfter (t : Tree) (i other : NodeId) : Tree :=
  let t := t.followWith other (t.next? i)
  (t.setNext i (some other)).setPlace other (.after i)

/-- Ends the chain at `i`; what followed, from `tail` on, is linked
nowhere. -/
def endAt (t : Tree) (i tail : NodeId) : Tree := (t.setNext i none).setPlace tail .root

/-- Hangs the chain of `i` into a slot. -/
def hang (t : Tree) (owner : NodeId) (slot : Slot) (i : NodeId) : Tree :=
  (t.setHead owner slot (some i)).setPlace i (.slot owner slot)

end Tree

namespace Edit

-- ========================================================== operations

/-- Takes `i` together with its trailing siblings from wherever it is
linked. -/
def detach (i : NodeId) : Edit Unit :=
  change (fun t => t.requireLinked i) fun _ t => t.unlink i

/-- Puts the unlinked chain `other` where `i` is, and leaves `i` alone and
unlinked. -/
def replace (i other : NodeId) : Edit Unit :=
  change
    (fun t => do
      t.requireLinked i
      t.requireUnlinked other
      t.requireAcyclic i other)
    fun _ t => t.splice i other

/-- Takes `i` alone out of its chain; its successor takes its place. -/
def cut (i : NodeId) : Edit Unit := do
  let tail ← read fun t => do
    t.require i
    pure (t.next? i)
  match tail with
  | none => detach i
  | some tail =>
    change (fun _ => .ok ()) fun _ t => t.endAt i tail
    match ← read (fun t => .ok (t.place i)) with
    | .root => pure ()
    | _ => replace i tail

/-- Links the unlinked chain `other` right after `i`. A successor of `i`
is an error unless `insert` is set; then it follows the chain. -/
def insertAfter (i other : NodeId) (insert : Bool) : Edit Unit :=
  change
    (fun t => do
      t.require i
      t.requireUnlinked other
      t.requireAcyclic i other
      if (t.next? i).isSome && !insert then
        .error (.link (.hasSuccessor (t.describe i)))
      else .ok ())
    fun _ t => t.linkAfter i other

/-- Tail of the chain that starts at a node that has to exist. -/
def lastOf (i : NodeId) : Edit NodeId :=
  read fun t => do
    let _ ← t.node i
    pure (t.last i)

/-- Links the unlinked chain `other` after the tail of the chain that
starts at `i`. -/
def extend (i other : NodeId) : Edit Unit := do
  insertAfter (← lastOf i) other false

/-- Links unlinked chains one after the other behind a tail. -/
def joinAfter (tail : NodeId) : List NodeId → Edit Unit
  | [] => pure ()
  | i :: rest => do
    insertAfter tail i false
    joinAfter (← lastOf i) rest

/-- Concatenates unlinked chains and returns the head of the result. -/
def join : List NodeId → Edit (Option NodeId)
  | [] => pure none
  | i :: rest => do
    joinAfter (← lastOf i) rest
    pure (some i)

/-- Hangs an unlinked chain into an empty slot. -/
def fill (owner : NodeId) (slot : Slot) (i : NodeId) : Edit Unit :=
  change
    (fun t => do
      t.require owner
      t.requireUnlinked i
      match ← t.slotHead owner slot with
      | some _ => .error (.link (.slotOccupied (t.describe owner) slot))
      | none => t.requireAcyclic owner i)
    fun _ t => t.hang owner slot i

/-- Adds a chain to the one a slot holds, or fills the slot. -/
def pushInto (owner : NodeId) (slot : Slot) (i : NodeId) : Edit Unit := do
  match ← read (·.slotHead owner slot) with
  | none => fill owner slot i
  | some head => extend head i

/-- Changes what a node carries beside its kind. -/
def annotate (i : NodeId) (f : Notes → Notes) : Edit Unit :=
  change (·.node i) fun _ t => t.setNotes i f

end Edit

end RegisterMap.Code
