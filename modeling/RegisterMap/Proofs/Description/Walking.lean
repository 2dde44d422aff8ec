/-
What a listener is told on a walk. A listener that takes down every call
and its answer (`Listener.logged`) is told of the marks of a whole tour,
less those below the nodes it skips and those after its first failure
(`Reports`); a component is walked the way its tour is put together, from
the marks of the node itself and the tours of its children
(`component_walks`).

Which nodes that enters and leaves, in which order and with which addresses,
is then read off the turns of the marks (`Follows.pruned`).
-/
import RegisterMap.Proofs.Description.Touring
import RegisterMap.Proofs.Register.Scanning

namespace RegisterMap.Description

-- ================================================================ calls

/-- A call of a listener, with what it is told. -/
inductive Call where
  | enterGroup (kind : GroupKind) (name : String) (address : Nat)
  | exitGroup (kind : GroupKind) (name : String)
  | enterRegister (node : RegisterNode) (address : Nat)
  | exitRegister (node : RegisterNode)
  | enterField (node : FieldNode)
  | exitField (node : FieldNode)
  deriving DecidableEq, Repr

/-- How a listener is told that an item is entered. A component is entered
with the sum of the offsets down to it as its address. -/
def Item.entering : Item → Call
  | .component ⟨above, .group kind name offset children⟩ =>
    .enterGroup kind name (Node.mk above (.group kind name offset children)).address
  | .component ⟨above, .register node⟩ =>
    .enterRegister node (Node.mk above (.register node)).address
  | .field node => .enterField node

def Item.leaving : Item → Call
  | .component ⟨_, .group kind name _ _⟩ => .exitGroup kind name
  | .component ⟨_, .register node⟩ => .exitRegister node
  | .field node => .exitField node

/-- How a listener is told of a mark. -/
def Design.call? (d : Design) : Mark → Option Call
  | .enter p => (d.item? p).map Item.entering
  | .leave p => (d.item? p).map Item.leaving

def Visit.answer : Visit → Answer
  | .descend => .proceed
  | .skip => .skip

/-- Calls and their answers, in order. -/
abbrev Log := List (Call × Answer)

/-- A call is answered as before, and taken down with its answer. -/
def noted {σ α : Type} (call : Call) (answer : α → Answer) (act : Listening σ α) :
    Listening (σ × Log) α := fun (s, log) =>
  match act s with
  | (.ok a, s') => (.ok a, (s', log ++ [(call, answer a)]))
  | (.error e, s') => (.error e, (s', log ++ [(call, .failed e)]))

section Noted

variable {σ α : Type} {act : Listening σ α} {s s' : σ}

theorem noted_ok {a : α} (h : act s = (.ok a, s')) (call : Call) (answer : α → Answer) (log : Log) :
    noted call answer act (s, log) = (.ok a, (s', log ++ [(call, answer a)])) := by
  unfold noted
  simp only [h]

theorem noted_error {e : Failure} (h : act s = (.error e, s')) (call : Call) (answer : α → Answer)
    (log : Log) : noted call answer act (s, log) = (.error e, (s', log ++ [(call, .failed e)])) := by
  unfold noted
  simp only [h]

end Noted

namespace Listener

variable {σ : Type}

/-- The listener with a log of all calls. -/
def logged (l : Listener σ) : Listener (σ × Log) where
  enterGroup kind name address :=
    noted (.enterGroup kind name address) Visit.answer (l.enterGroup kind name address)
  exitGroup kind name := noted (.exitGroup kind name) (fun _ => .proceed) (l.exitGroup kind name)
  enterRegister node address :=
    noted (.enterRegister node address) Visit.answer (l.enterRegister node address)
  exitRegister node := noted (.exitRegister node) (fun _ => .proceed) (l.exitRegister node)
  enterField node := noted (.enterField node) (fun _ => .proceed) (l.enterField node)
  exitField node := noted (.exitField node) (fun _ => .proceed) (l.exitField node)

end Listener

/-- An entry of the log is the call that tells of the mark, with the answer
to it. -/
def Design.Tells (d : Design) (entry : Call × Answer) (s : Step) : Prop :=
  d.call? s.mark = some entry.1 ∧ entry.2 = s.answer

-- ============================================================== reports

/-- The second action does what the first one does, and takes down what is
told of the marks passed on the way. -/
def Reports {σ : Type} (d : Design) (act : Listening σ Unit) (logging : Listening (σ × Log) Unit)
    (marks : List Mark) : Prop :=
  ∀ s log, ∃ entries steps r s', act s = (r, s') ∧ logging (s, log) = (r, (s', log ++ entries))
    ∧ List.Forall₂ d.Tells entries steps ∧ Follows marks steps r

namespace Reports

variable {σ : Type} {d : Design} {act act' : Listening σ Unit}
  {logging logging' : Listening (σ × Log) Unit} {marks marks' : List Mark}

theorem nil : Reports d (pure () : Listening σ Unit) (pure ()) [] := fun s log =>
  ⟨[], [], .ok (), s, rfl, by rw [List.append_nil]; rfl, .nil, .done⟩

/-- What is told of one mark is the answer to it. -/
theorem call {m : Mark} {call : Call} (hcall : d.call? m = some call) (act : Listening σ Unit) :
    Reports d act (noted call (fun _ => .proceed) act) [m] := by
  intro s log
  cases hrun : act s with
  | mk r s' =>
    cases r with
    | ok a =>
      exact ⟨_, [⟨m, .proceed⟩], .ok a, s', rfl, noted_ok hrun call _ log,
        .cons ⟨hcall, rfl⟩ .nil, .told .done⟩
    | error e =>
      exact ⟨_, [⟨m, .failed e⟩], .error e, s', rfl, noted_error hrun call _ log,
        .cons ⟨hcall, rfl⟩ .nil, .failed m [] e⟩

theorem seq (h : Reports d act logging marks) (h' : Reports d act' logging' marks') :
    Reports d (act >>= fun _ => act') (logging >>= fun _ => logging') (marks ++ marks') := by
  intro s log
  obtain ⟨entries, steps, r, s₁, hact, hlog, htells, hfollows⟩ := h s log
  cases r with
  | error e =>
    exact ⟨entries, steps, .error e, s₁, run_bind_error hact, run_bind_error hlog, htells,
      hfollows.append_error marks'⟩
  | ok a =>
    obtain ⟨entries', steps', r', s₂, hact', hlog', htells', hfollows'⟩ := h' s₁ (log ++ entries)
    refine ⟨entries ++ entries', steps ++ steps', r', s₂, (run_bind hact).trans hact', ?_,
      List.rel_append htells htells', hfollows.append hfollows'⟩
    rw [run_bind hlog, hlog', List.append_assoc]

/-- A node is entered, then, if the listener goes on, what is in it is
reported, and in any case the node is left. -/
theorem around {p : Position} {entering leaving : Call} (henter : d.call? (.enter p) = some entering)
    (hleave : d.call? (.leave p) = some leaving) (hinside : Inside p marks)
    (h : Reports d act logging marks) (enter : Listening σ Visit) (leave : Listening σ Unit) :
    Reports d
      (do match ← enter with
          | .descend => act
          | .skip => pure ()
          leave)
      (do match ← noted entering Visit.answer enter with
          | .descend => logging
          | .skip => pure ()
          noted leaving (fun _ => .proceed) leave)
      (.enter p :: (marks ++ [.leave p])) := by
  intro s log
  have hend := Reports.call hleave leave
  cases hrun : enter s with
  | mk r s₁ =>
    cases r with
    | error e =>
      exact ⟨_, _, .error e, s₁, run_bind_error hrun,
        run_bind_error (noted_error hrun entering Visit.answer log),
        .cons ⟨henter, rfl⟩ .nil, .failed (.enter p) _ e⟩
    | ok visit =>
      have hnoted := noted_ok hrun entering Visit.answer log
      cases visit with
      | descend =>
        obtain ⟨entries, steps, r, s₂, hact, hlog, htells, hfollows⟩ :=
          (h.seq hend) s₁ (log ++ [(entering, .proceed)])
        refine ⟨(entering, .proceed) :: entries, ⟨.enter p, .proceed⟩ :: steps, r, s₂,
          (run_bind hrun).trans hact, ?_, .cons ⟨henter, rfl⟩ htells, .told hfollows⟩
        rw [List.append_cons]
        exact (run_bind hnoted).trans hlog
      | skip =>
        obtain ⟨entries, steps, r, s₂, hact, hlog, htells, hfollows⟩ :=
          hend s₁ (log ++ [(entering, .skip)])
        refine ⟨(entering, .skip) :: entries, ⟨.enter p, .skip⟩ :: steps, r, s₂,
          (run_bind hrun).trans hact, ?_, .cons ⟨henter, rfl⟩ htells, .skipped hinside hfollows⟩
        rw [List.append_cons]
        exact (run_bind hnoted).trans hlog

end Reports

-- =============================================================== walking

section Walking

variable {σ : Type} {d : Design} (l : Listener σ)

theorem fields_report (fields : List FieldNode) {p : Position} {k : Nat}
    (hitems : ∀ j f, fields[j]? = some f → d.item? (p ++ [k + j]) = some (.field f)) :
    Reports d (l.fields fields) (l.logged.fields fields)
      (Tour.row p k (fields.map fun _ => Tour.around [])) := by
  induction fields generalizing k with
  | nil => exact Reports.nil
  | cons f fields ih =>
    have hitem : d.item? (p ++ [k]) = some (.field f) := hitems 0 f rfl
    have henter : d.call? (.enter (p ++ [k])) = some (.enterField f) :=
      congrArg (Option.map Item.entering) hitem
    have hleave : d.call? (.leave (p ++ [k])) = some (.exitField f) :=
      congrArg (Option.map Item.leaving) hitem
    have hrest := ih (k := k + 1) fun j f' hf' => by
      rw [Nat.add_right_comm]
      exact hitems (j + 1) f' hf'
    exact (Reports.call henter (l.enterField f)).seq
      ((Reports.call hleave (l.exitField f)).seq hrest)

/-- The walk of a component at a position is reported by its tour. -/
def Walks (l : Listener σ) (d : Design) (p : Position) (n : Node) : Prop :=
  Reports d (l.component n.component n.address) (l.logged.component n.component n.address)
    (n.component.tour p)

/-- The walk of the components of a group is, where the first of them is
number `k` in the group. -/
def WalksAll (l : Listener σ) (d : Design) (p : Position) (k : Nat) (above : List Group)
    (cs : List Component) : Prop :=
  Reports d (l.components cs (Group.base above)) (l.logged.components cs (Group.base above))
    (Tour.row p k (Component.tours cs))

theorem register_walks {p : Position} {above : List Group} {node : RegisterNode}
    (hitem : d.item? p = some (.component ⟨above, .register node⟩)) :
    Walks l d p ⟨above, .register node⟩ := by
  have hfields := fields_report (d := d) l node.fields (p := p) (k := 0)
    fun j f hf => by
      rw [Nat.zero_add, Design.item?_child hitem]
      show (node.fields.map Item.field)[j]? = _
      rw [List.getElem?_map, hf]
      rfl
  exact hfields.around (congrArg (Option.map Item.entering) hitem)
    (congrArg (Option.map Item.leaving) hitem) (row_inside (fields_tours node.fields) p 0)
    (l.enterRegister node _) (l.exitRegister node)

/-- The children of a group lie at its address and on. -/
theorem group_walks {p : Position} {above : List Group} {kind : GroupKind} {name : String}
    {offset : Nat} {children : List Component}
    (hitem : d.item? p = some (.component ⟨above, .group kind name offset children⟩))
    (hchildren : (∀ j c, children[j]? = some c → d.item? (p ++ [0 + j])
        = some (.component ⟨above ++ [⟨kind, name, offset⟩], c⟩)) →
      WalksAll l d p 0 (above ++ [⟨kind, name, offset⟩]) children) :
    Walks l d p ⟨above, .group kind name offset children⟩ := by
  have hbase : Group.base (above ++ [⟨kind, name, offset⟩])
      = (Node.mk above (.group kind name offset children)).address := by
    simp [Node.address, Group.base, Component.offset]
  have hinside := hchildren fun j c hc => by
    rw [Nat.zero_add, Design.item?_child hitem]
    show (children.map fun c => Item.component ⟨above ++ [⟨kind, name, offset⟩], c⟩)[j]? = _
    rw [List.getElem?_map, hc]
    rfl
  unfold WalksAll at hinside
  rw [hbase] at hinside
  have htours := Component.areTours (above ++ [⟨kind, name, offset⟩]) children
  exact hinside.around (congrArg (Option.map Item.entering) hitem)
    (congrArg (Option.map Item.leaving) hitem) (row_inside htours p 0)
    (l.enterGroup kind name _) (l.exitGroup kind name)

mutual

/-- A component is walked the way its tour goes around it. -/
theorem component_walks {p : Position} {above : List Group} : (c : Component) →
    d.item? p = some (.component ⟨above, c⟩) → (∀ n ∈ c.nodes above, n.address < 2 ^ 64) →
    Walks l d p ⟨above, c⟩
  | .register node, hitem, _ => register_walks l hitem
  | .group kind name offset children, hitem, hfits =>
    group_walks l hitem fun hitems => components_walk children hitems fun n hn =>
      hfits n (by
        unfold Component.nodes
        exact List.mem_cons_of_mem _ hn)

theorem components_walk {p : Position} {k : Nat} {above : List Group} : (cs : List Component) →
    (∀ j c, cs[j]? = some c → d.item? (p ++ [k + j]) = some (.component ⟨above, c⟩)) →
    (∀ n ∈ Component.nodesIn above cs, n.address < 2 ^ 64) → WalksAll l d p k above cs
  | [], _, _ => Reports.nil
  | c :: rest, hitems, hfits => by
    unfold Component.nodesIn at hfits
    have hfirst := component_walks (p := p ++ [k]) c (hitems 0 c rfl) fun n hn =>
      hfits n (List.mem_append_left _ hn)
    have hrest := components_walk (p := p) (k := k + 1) rest
      (fun j c' hc' => by
        rw [Nat.add_right_comm]
        exact hitems (j + 1) c' hc')
      fun n hn => hfits n (List.mem_append_right _ hn)
    have hlocated : (Node.mk above c).address < 2 ^ 64 :=
      hfits _ (List.mem_append_left _ (Component.mem_nodes above c))
    -- the address is told first, which takes nothing down
    intro s log
    obtain ⟨entries, steps, r, s', hact, hlog, htells, hfollows⟩ := (hfirst.seq hrest) s log
    exact ⟨entries, steps, r, s', (run_bind (Scan.locate_run hlocated s)).trans hact,
      (run_bind (Scan.locate_run hlocated (s, log))).trans hlog, htells, hfollows⟩

end

end Walking

-- ============================================================ the outcome

/-- What a listener is told of a description, and how it ends. -/
structure Pruned (d : Design) (steps : List Step) (r : Except Failure Unit) : Prop where
  /-- The listener is told of nodes of the description. -/
  placed : ∀ s ∈ steps, (d.item? s.mark.position).isSome
  /-- Nodes are entered in pre-order, none of them twice. -/
  preorder : (steps.filterMap (·.mark.entered?)).Pairwise (· < ·)
  /-- Each node is entered in its parent, and the innermost open one is
  left. Unless something failed, none stays open. -/
  nested : ∃ opened, unwind [] (steps.map (·.mark)) = some opened ∧ (r = .ok () → opened = [])
  /-- A node is entered if and only if all nodes above it were entered and
  had it go on, and nothing failed before its turn. -/
  entered_iff : ∀ p, (d.item? p).isSome → (.enter p ∈ steps.map (·.mark) ↔
    (∀ q, Above q p → ⟨.enter q, .proceed⟩ ∈ steps)
      ∧ ∀ s ∈ steps, s.Failed → ¬ s.mark.Before (.enter p))
  /-- A node is left if and only if it was entered without failing, skipped
  or not, and nothing failed before its turn. -/
  left_iff : ∀ p, .leave p ∈ steps.map (·.mark) ↔
    (⟨.enter p, .proceed⟩ ∈ steps ∨ ⟨.enter p, .skip⟩ ∈ steps)
      ∧ ∀ s ∈ steps, s.Failed → ¬ s.mark.Before (.leave p)
  /-- A node is left once, after all there is to it and below it, and before
  anything at its later siblings. -/
  left_between : ∀ before p answer after, steps = before ++ ⟨.leave p, answer⟩ :: after →
    (∀ s ∈ before, s.mark ≠ .leave p)
      ∧ (∀ s ∈ before, ∀ q j k, p = q ++ [j] → j < k → ¬ q ++ [k] <+: s.mark.position)
      ∧ ∀ s ∈ after, ¬ p <+: s.mark.position
  ended : Ended steps r

section Outcome

variable {d : Design} {steps : List Step} {r : Except Failure Unit}

theorem Design.isTour (d : Design) : IsTour (.component ⟨[], d.root⟩) d.root.tour :=
  Component.isTour [] d.root

/-- The whole tour of a description passes all there is. -/
theorem Design.mem_tour_iff {m : Mark} : m ∈ d.root.tour [] ↔ (d.item? m.position).isSome := by
  rw [d.isTour.mem_iff]
  exact ⟨fun ⟨r, hr, hsome⟩ => hr ▸ hsome, fun hsome => ⟨_, rfl, hsome⟩⟩

namespace Follows

variable (h : Follows (d.root.tour []) steps r)

include h

theorem ordered : (steps.map (·.mark)).Pairwise Mark.Before :=
  (d.isTour.ordered []).sublist h.sublist

theorem entered_iff {p : Position} (hp : (d.item? p).isSome) : .enter p ∈ steps.map (·.mark) ↔
    (∀ q, Above q p → ⟨.enter q, .proceed⟩ ∈ steps)
      ∧ ∀ s ∈ steps, s.Failed → ¬ s.mark.Before (.enter p) := by
  have hin : Mark.enter p ∈ d.root.tour [] := Design.mem_tour_iff.2 hp
  rw [h.told_iff (d.isTour.ordered []) hin]
  refine and_congr_left' (forall₂_congr fun q hq => ?_)
  exact imp_iff_right (Design.mem_tour_iff.2 (Design.item?_of_above hq hp))

theorem left_iff (p : Position) : .leave p ∈ steps.map (·.mark) ↔
    (⟨.enter p, .proceed⟩ ∈ steps ∨ ⟨.enter p, .skip⟩ ∈ steps)
      ∧ ∀ s ∈ steps, s.Failed → ¬ s.mark.Before (.leave p) := by
  have hordered := d.isTour.ordered []
  have htold : ∀ {m : Mark}, m ∈ d.root.tour [] →
      (m ∈ steps.map (·.mark) ↔ Awaits (d.root.tour []) steps m) := h.told_iff hordered
  have hleave : Mark.leave p ∈ d.root.tour [] ↔ Mark.enter p ∈ d.root.tour [] := by
    rw [Design.mem_tour_iff, Design.mem_tour_iff]
    rfl
  constructor
  · intro hin
    have hp := hleave.1 (h.sublist.subset hin)
    obtain ⟨habove, hturn⟩ := (htold (hleave.2 hp)).1 hin
    have henter : Awaits (d.root.tour []) steps (.enter p) := ⟨habove, fun s hs hfail hbefore =>
      hturn s hs hfail (hbefore.trans (Mark.enter_before_leave p))⟩
    obtain ⟨⟨m, answer⟩, hs, hm⟩ := List.mem_map.1 ((htold hp).2 henter)
    obtain rfl : m = .enter p := hm
    cases answer with
    | proceed => exact ⟨Or.inl hs, hturn⟩
    | skip => exact ⟨Or.inr hs, hturn⟩
    | failed e => exact absurd (Mark.enter_before_leave p) (hturn _ hs ⟨e, rfl⟩)
  · rintro ⟨hentered, hturn⟩
    have hin : Mark.enter p ∈ steps.map (·.mark) :=
      hentered.elim (fun hs => List.mem_map_of_mem hs) fun hs => List.mem_map_of_mem hs
    have hp := h.sublist.subset hin
    exact (htold (hleave.2 hp)).2 ⟨((htold hp).1 hin).1, hturn⟩

theorem left_between {before after : List Step} {p : Position} {answer : Answer}
    (hsteps : steps = before ++ ⟨.leave p, answer⟩ :: after) :
    (∀ s ∈ before, s.mark ≠ .leave p)
      ∧ (∀ s ∈ before, ∀ q j k, p = q ++ [j] → j < k → ¬ q ++ [k] <+: s.mark.position)
      ∧ ∀ s ∈ after, ¬ p <+: s.mark.position := by
  have hordered := h.ordered
  rw [hsteps, List.pairwise_map, List.pairwise_append, List.pairwise_cons] at hordered
  obtain ⟨-, ⟨hafter, -⟩, hcross⟩ := hordered
  have hbefore : ∀ s ∈ before, s.mark.Before (.leave p) := fun s hs =>
    hcross s hs _ (List.mem_cons_self ..)
  refine ⟨fun s hs he => ?_, fun s hs q j k hp hjk hpre => ?_, fun s hs hpre => ?_⟩
  · exact Mark.Before.irrefl _ (he ▸ hbefore s hs)
  · obtain ⟨rest, hrest⟩ := hpre
    exact (hbefore s hs).asymm (Mark.before_sibling (m := .leave p) hjk hp
      (hrest.symm.trans (List.append_assoc ..)))
  · exact Mark.not_leave_before hpre (hafter s hs)

theorem preorder : (steps.filterMap (·.mark.entered?)).Pairwise (· < ·) := by
  have hordered := List.pairwise_map.1 h.ordered
  refine List.pairwise_filterMap.2 (hordered.imp fun {s s'} hbefore p hp q hq => ?_)
  rw [Mark.eq_enter_of_entered? hp, Mark.eq_enter_of_entered? hq] at hbefore
  exact Mark.enter_before_iff.1 hbefore

theorem pruned : Pruned d steps r where
  placed _ hs := Design.mem_tour_iff.1 (h.mark_mem hs)
  preorder := h.preorder
  nested := h.unwind_told (d.isTour.nested [] [] rfl)
  entered_iff _ hp := h.entered_iff hp
  left_iff := h.left_iff
  left_between _ _ _ _ hsteps := h.left_between hsteps
  ended := h.ended

end Follows

end Outcome

/-- Whatever a listener answers, on a description whose addresses are words
it is told of the nodes in pre-order, each with the sum of the offsets down
to it: it enters what lies below no node that was skipped, leaves what it
entered, and is told nothing after a failure, which the walk ends with. -/
theorem walk_pruned {σ : Type} (l : Listener σ) (d : Design)
    (hfits : ∀ n ∈ d.nodes, n.address < 2 ^ 64) (s : σ) :
    ∃ entries steps, l.logged.design d (s, [])
        = ((l.design d s).1, ((l.design d s).2, entries))
      ∧ List.Forall₂ d.Tells entries steps ∧ Pruned d steps (l.design d s).1 := by
  have hwalk : Reports d (l.design d) (l.logged.design d) (d.root.tour []) := by
    have haddress : (Node.mk [] d.root).address = d.offset := Nat.zero_add _
    have hroot : Walks l d [] ⟨[], d.root⟩ :=
      group_walks l rfl fun hitems => components_walk l d.children hitems hfits
    unfold Walks at hroot
    rw [haddress] at hroot
    exact hroot
  obtain ⟨entries, steps, r, s', hact, hlog, htells, hfollows⟩ := hwalk s []
  rw [hact]
  exact ⟨entries, steps, hlog, htells, hfollows.pruned⟩

/-- Skips register files, and fails for the second register it enters. -/
def single : Listener Nat where
  enterGroup kind _ _ := pure (if kind = .registerFile then .skip else .descend)
  enterRegister _ _ := fun n => (if n = 0 then .ok .descend else .error (.stopped "full"), n + 1)

/-- A register file that is skipped is left all the same. After the failure
the map around it is not. -/
theorem walk_pruned_failure :
    let control : RegisterNode :=
      { name := "ctrl", offset := 0x10, fields := [{ name := "enable", lsb := 0, msb := 0 }] }
    let status : RegisterNode := { name := "status", offset := 0x80 }
    let d : Design :=
      { name := "uart", offset := 0x1000,
        children := [.register control, .group .registerFile "dma" 0x40 [.register status],
          .register status] }
    (∀ n ∈ d.nodes, n.address < 2 ^ 64) ∧ ∃ steps, Pruned d steps (.error (.stopped "full"))
      ∧ List.Forall₂ d.Tells
        [(.enterGroup .addressMap "uart" 0x1000, .proceed),
          (.enterRegister control 0x1010, .proceed),
          (.enterField { name := "enable", lsb := 0, msb := 0 }, .proceed),
          (.exitField { name := "enable", lsb := 0, msb := 0 }, .proceed),
          (.exitRegister control, .proceed),
          (.enterGroup .registerFile "dma" 0x1040, .skip),
          (.exitGroup .registerFile "dma", .proceed),
          (.enterRegister status 0x1080, .failed (.stopped "full"))] steps := by
  intro control status d
  have hfits : ∀ n ∈ d.nodes, n.address < 2 ^ 64 := by decide
  obtain ⟨entries, steps, hrun, htells, hpruned⟩ := walk_pruned single d hfits 0
  have hlog : entries = _ := (congrArg (fun run => run.2.2) hrun).symm
  rw [hlog] at htells
  exact ⟨hfits, steps, hpruned, htells⟩

end RegisterMap.Description
