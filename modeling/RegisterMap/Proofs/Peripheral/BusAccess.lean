/-
Runs of accesses. One access to a peripheral with all its members goes to
the one mount its offset is routed to, stays inside the buffer of that
mount and leaves all others alone, or else changes nothing
(`PeripheralCode.dispatches`); the peripheral has all its members
afterwards, so by induction every run from a new peripheral goes the same
way. This is said of every assembled peripheral (`assemble_dispatch`).
-/
import RegisterMap.Proofs.Peripheral.Assembled
import RegisterMap.Proofs.Peripheral.Dispatching
import RegisterMap.Proofs.Peripheral.Starting

namespace RegisterMap

open Code Exec Peripheral

-- ================================================================ runs

/-- A peripheral answers accesses one after the other. -/
def Exec.Program.perform (p : Program) (depth : Nat) (root : Ref) :
    List BusAccess → Heap → Except Fault (List Value × Heap)
  | [], heap => .ok ([], heap)
  | access :: rest, heap => do
    let (v, heap) ← p.serve (p.service depth) root access.request heap
    let (vs, heap) ← perform p depth root rest heap
    return (v :: vs, heap)

theorem Exec.Program.perform_cons {p : Program} {depth : Nat} {root : Ref} {access : BusAccess}
    {rest : List BusAccess} {heap heap₁ heap₂ : Heap} {v : Value} {vs : List Value}
    (h : p.serve (p.service depth) root access.request heap = .ok (v, heap₁))
    (hrest : p.perform depth root rest heap₁ = .ok (vs, heap₂)) :
    p.perform depth root (access :: rest) heap = .ok (v :: vs, heap₂) := by
  unfold Program.perform
  rw [h]
  show (p.perform depth root rest heap₁ >>= fun q => Except.ok (v :: q.1, q.2)) = _
  rw [hrest]
  rfl

namespace Peripheral

variable {p : Program} {root : Ref} {heap : Heap} {inventory : Inventory} {m : Mount}
  {access : BusAccess} {depth : Nat} {t : Tree} {x : Shape} {allPublic : Bool} {name : String}

-- ============================================================= accesses

/-- An access to a peripheral is an access to the mount `m`. -/
structure PassedOn (p : Program) (inventory : Inventory) (depth : Nat) (root : Ref) (heap : Heap)
    (access : BusAccess) (m : Mount) (v : Value) (heap' : Heap) : Prop where
  /-- The peripheral answers as its member does, which is asked at the
  place of the access in the mount. -/
  answered : p.serve (p.service (depth + 1)) root access.request heap = .ok (v, heap')
  asked : p.serve (p.service depth) (inventory.objectOf root m) (m.request access) heap
    = .ok (v, heap')
  answers : access.Answers v
  /-- Only four bytes inside the buffer of the mount can have changed. -/
  inside : ∃ bytes bytes', heap[inventory.bufferOf root m]? = some (.bytes bytes)
    ∧ bytes.size = m.bufferSize ∧ m.start access.offset + 3 < bytes.size
    ∧ heap' = heap.set (inventory.bufferOf root m) (.bytes bytes')
    ∧ bytes.Confined (m.start access.offset) bytes'
  others : ∀ m' ∈ inventory.mounts, m' ≠ m →
    heap'[inventory.bufferOf root m']? = heap[inventory.bufferOf root m']?

/-- What a peripheral does with an access. -/
structure Dispatches (p : Program) (inventory : Inventory) (depth : Nat) (root : Ref) (heap : Heap)
    (access : BusAccess) : Prop where
  routed : ∀ m, inventory.Routes access.offset m →
    ∃ v heap', PassedOn p inventory depth root heap access m v heap'
  single : ∀ m m', inventory.Routes access.offset m → inventory.Routes access.offset m' → m' = m
  unmapped : (∀ m, ¬inventory.Routes access.offset m) →
    p.serve (p.service (depth + 1)) root access.request heap = .ok (access.unmapped, heap)

namespace PeripheralCode

variable (h : PeripheralCode t inventory name x) (hs : inventory.Sound)
  (hroot : p.root = x.finished allPublic) (hnames : ∀ d, d < t.size → p.names d = t.name d)
  (ha : Alive inventory name heap root)

include h hs hroot hnames ha

/-- An access goes to the mount it is routed to. -/
theorem passedOn (depth : Nat) (hvalid : access.Valid)
    (hroute : inventory.Routes access.offset m) :
    ∃ v heap', PassedOn p inventory depth root heap access m v heap'
      ∧ Alive inventory name heap' root := by
  have hm : m ∈ inventory.mounts := List.mem_of_find?_eq_some (hs.routes_iff.1 hroute)
  obtain ⟨y, hcode, hpath, -⟩ := h.resolve_member hs hroot hm
  have hheld := ha.held m hm
  obtain ⟨bytes, hbytes, hsize⟩ := hheld.buffer
  obtain ⟨v, bytes', hserve, hanswers, hconfined⟩ := hcode.serves hpath hnames (p.service depth)
    (hheld.keeps hbytes) hsize hvalid hroute.covers
  exact ⟨v, _, ⟨h.routed_serves hs hroot hnames ha hroute hserve hanswers, hserve, hanswers,
    ⟨bytes, bytes', hbytes, hsize, hsize ▸ Mount.start_lt hroute.covers, rfl, hconfined⟩,
    fun m' _ hne => List.getElem?_set_ne (Inventory.bufferOf_ne hm hne.symm)⟩,
    ha.set hbytes hconfined.size_eq⟩

/-- A peripheral with all its members passes accesses on. -/
theorem dispatches (depth : Nat) (hvalid : access.Valid) :
    Dispatches p inventory depth root heap access where
  routed := fun m hroute => by
    obtain ⟨v, heap', hpassed, -⟩ := h.passedOn hs hroot hnames ha depth hvalid hroute
    exact ⟨v, heap', hpassed⟩
  single := fun m m' hm hm' =>
    Option.some.inj ((hs.routes_iff.1 hm').symm.trans (hs.routes_iff.1 hm))
  unmapped := h.unmapped_serves hs hroot hnames ha depth

/-- An access is answered, and the members stay in place. -/
theorem access_keeps (depth : Nat) (hvalid : access.Valid) :
    ∃ v heap', p.serve (p.service (depth + 1)) root access.request heap = .ok (v, heap')
      ∧ Alive inventory name heap' root := by
  by_cases hroute : ∃ m, inventory.Routes access.offset m
  · obtain ⟨m, hm⟩ := hroute
    obtain ⟨v, heap', hpassed, halive⟩ := h.passedOn hs hroot hnames ha depth hvalid hm
    exact ⟨v, heap', hpassed.answered, halive⟩
  · exact ⟨_, heap, h.unmapped_serves hs hroot hnames ha depth (not_exists.1 hroute), ha⟩

omit ha in
/-- A run of accesses is answered, and the members stay in place. -/
theorem perform_keeps (depth : Nat) (accesses : List BusAccess)
    (hvalid : ∀ access ∈ accesses, access.Valid) (ha : Alive inventory name heap root) :
    ∃ results heap', p.perform (depth + 1) root accesses heap = .ok (results, heap')
      ∧ Alive inventory name heap' root := by
  induction accesses generalizing heap with
  | nil => exact ⟨[], heap, rfl, ha⟩
  | cons access rest ih =>
    obtain ⟨v, heap₁, hserve, halive⟩ :=
      h.access_keeps hs hroot hnames ha depth (hvalid access (List.mem_cons_self ..))
    obtain ⟨vs, heap₂, hrest, hdone⟩ := ih (fun a hm => hvalid a (List.mem_cons_of_mem _ hm)) halive
    exact ⟨v :: vs, heap₂, Program.perform_cons hserve hrest, hdone⟩

end PeripheralCode

/-- The peripheral of every sound inventory can be built and created, and
whatever accesses it has answered before, the next one goes to the first
array that covers its offset, or else to the register at it, or else
nowhere. -/
theorem assemble_dispatch (inventory : Inventory) (c : Config) (d : Draft)
    (linked : d.tree.Mutual) (housed : c.path ≠ []) (sound : inventory.Sound) :
    ∃ assembly d' peripheral, assemble inventory c d = (.ok assembly, d')
      ∧ Houses peripheral c.path (d'.tree.shape assembly.root)
      ∧ ∀ (p : Program), p = { names := d'.tree.name, root := peripheral } →
        ∀ (depth : Nat) (before : Heap), ∃ heap,
          p.create (p.service (depth + 2)) [] (c.className inventory.name) [] before
            = .ok (.ref before.length, heap)
          ∧ ∀ accesses : List BusAccess, (∀ access ∈ accesses, access.Valid) →
            ∃ results heap',
              p.perform (depth + 1) before.length accesses heap = .ok (results, heap')
              ∧ ∀ access : BusAccess, access.Valid →
                Dispatches p inventory depth before.length heap' access := by
  obtain ⟨assembly, d', t, x, hrun, hcode, hhouses, hkept⟩ :=
    assemble_run linked sound.buildable.sized c housed
  refine ⟨assembly, d', _, hrun, hhouses, fun p hp depth before => ?_⟩
  have hroot : p.root = x.finished c.allPublic := by rw [hp]
  have hnames : ∀ j, j < t.size → p.names j = t.name j := fun j hj => by
    rw [hp]
    exact hkept j hj
  obtain ⟨heap, hcreate, halive⟩ := hcode.create_run sound hroot hnames depth before
  refine ⟨heap, hcreate, fun accesses hvalid => ?_⟩
  obtain ⟨results, heap', hperform, hdone⟩ :=
    hcode.perform_keeps sound hroot hnames depth accesses hvalid halive
  exact ⟨results, heap', hperform, fun access hv =>
    hcode.dispatches sound hroot hnames hdone depth hv⟩

/-- A table of two elements at the start of a peripheral, and a register
behind it. -/
def tableAndControl : Inventory where
  name := "timer"
  arrays := [{
    name := "table"
    register := { name := "entry", fields := [{ name := "tag", low := 8, high := 19 }] }
    count := 2 }]
  registers := [{ name := "control", address := 8 }]

theorem tableAndControl_sound : tableAndControl.Sound where
  members := by decide
  addresses := by decide
  mounts := by
    intro m hm
    rcases List.mem_cons.1 hm with rfl | hm
    · exact ⟨by unfold Register.Proper; decide, by decide, by decide, by decide⟩
    · rw [List.mem_singleton.1 hm]
      exact ⟨by unfold Register.Proper; decide, by decide, by decide⟩

/-- After a write to the last bytes of the table and a read of the
register, a read in the table goes to the table, and one behind the
register to nothing. -/
theorem assemble_dispatch_tableAndControl :
    ∃ assembly d' peripheral heap, assemble tableAndControl {} {} = (.ok assembly, d')
      ∧ (⟨d'.tree.name, peripheral⟩ : Program).create
          ((⟨d'.tree.name, peripheral⟩ : Program).service 2) [] "Timer" [] []
        = .ok (.ref 0, heap)
      ∧ ∃ results heap', (⟨d'.tree.name, peripheral⟩ : Program).perform 1 0
          [.write 7 0x12345678, .read 8] heap = .ok (results, heap')
        ∧ (∃ m v heap'', PassedOn ⟨d'.tree.name, peripheral⟩ tableAndControl 0 0 heap' (.read 5) m v
          heap'')
        ∧ (⟨d'.tree.name, peripheral⟩ : Program).serve
            ((⟨d'.tree.name, peripheral⟩ : Program).service 1) 0
            (.method "IDoubleWordPeripheral.ReadDoubleWord" [⟨.int .long (9 : Nat), false⟩]) heap'
          = .ok (.int .uint 0, heap') := by
  obtain ⟨assembly, d', peripheral, hrun, -, hall⟩ :=
    assemble_dispatch tableAndControl {} {} Tree.mutual_empty (by decide) tableAndControl_sound
  obtain ⟨heap, hcreate, haccess⟩ := hall _ rfl 0 []
  obtain ⟨results, heap', hperform, hnext⟩ := haccess [.write 7 0x12345678, .read 8] (by decide)
  have htable : tableAndControl.Routes 5 (.array {
      name := "table"
      register := { name := "entry", fields := [{ name := "tag", low := 8, high := 19 }] }
      count := 2 }) := ⟨by decide, [], [], rfl, nofun⟩
  have hbehind : ∀ m, ¬tableAndControl.Routes 9 m :=
    tableAndControl_sound.not_routes_iff.2 (by decide)
  exact ⟨assembly, d', peripheral, heap, hrun, hcreate, results, heap', hperform,
    ⟨_, (hnext (.read 5) (by decide)).routed _ htable⟩, (hnext (.read 9) (by decide)).unmapped hbehind⟩

end Peripheral

end RegisterMap
