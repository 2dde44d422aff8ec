/-
The scan of a description collects its places (`Inventory.scan_outcome`).
Between two nodes a scan stands among the groups around it: the names they
lend, the number of address maps and the memory among them are all it
remembers of its way (`Scan.At`). Entering a group and leaving it again
restores this, so what a component adds to the inventory depends on the
groups around it only, and on the number of arrays already met where one
of them is a memory (`component_run`, by induction on the tree). A node
that is refused ends the scan (`component_stops`), and nothing else does.
-/
import RegisterMap.Proofs.Description.Sites
import RegisterMap.Proofs.Register.Masks
import RegisterMap.Proofs.Sequences

namespace RegisterMap

open Description

-- ========================================================== reset tables

namespace ResetTable

variable {table table' : ResetTable}

theorem insert_insert (table : ResetTable) (type : String) (v w : Nat) :
    (table.insert type v).insert type w = table.insert type w := by
  simp [insert, erase, List.filter_filter]

/-- Records the reset value of a register under the name of its type. -/
def record (table : ResetTable) (r : Register) : Except Failure ResetTable := do
  return table.insert r.typeName (← r.resetValue)

theorem record_eq {r : Register} {value : Nat} (h : r.resetValue = .ok value) :
    table.record r = .ok (table.insert r.typeName value) := by
  unfold record
  rw [h]
  rfl

theorem record_eq_ok {r : Register} (h : table.record r = .ok table') :
    ∃ value, r.resetValue = .ok value ∧ table' = table.insert r.typeName value := by
  obtain ⟨value, hvalue, hrest⟩ := bind_eq_ok_iff.1 h
  exact ⟨value, hvalue, (Except.ok.inj hrest).symm⟩

/-- Registers whose types have names of their own are found by them. -/
theorem find?_recorded {registers : List Register}
    (h : registers.foldlM record table = .ok table')
    (hnames : (registers.map (·.typeName)).Nodup) (type : String) (value : Nat) :
    table'.find? type = some value
      ↔ (∃ r ∈ registers, r.typeName = type ∧ r.resetValue = .ok value)
        ∨ (type ∉ registers.map (·.typeName) ∧ table.find? type = some value) := by
  induction registers generalizing table with
  | nil =>
    obtain rfl := Except.ok.inj h
    simp
  | cons r rest ih =>
    rw [List.foldlM_cons] at h
    obtain ⟨table₁, hrecord, hfold⟩ := bind_eq_ok_iff.1 h
    obtain ⟨own, hown, rfl⟩ := record_eq_ok hrecord
    obtain ⟨hnew, hrest⟩ := List.nodup_cons.1 hnames
    rw [ih hfold hrest]
    by_cases htype : type = r.typeName
    · subst htype
      have hmissing : ∀ r' ∈ rest, r'.typeName ≠ r.typeName := by
        intro r' hr' hsame
        exact hnew (List.mem_map.2 ⟨r', hr', hsame⟩)
      simp only [find?_insert_same, Option.some.injEq, List.mem_cons, List.map_cons, true_or,
        not_true_eq_false, false_and, or_false]
      constructor
      · rintro (⟨r', hr', hsame, -⟩ | ⟨-, rfl⟩)
        · exact absurd hsame (hmissing r' hr')
        · exact ⟨r, Or.inl rfl, rfl, hown⟩
      · rintro ⟨r', rfl | hr', hsame, hvalue⟩
        · exact Or.inr ⟨hnew, Except.ok.inj (hown.symm.trans hvalue)⟩
        · exact absurd hsame (hmissing r' hr')
    · rw [find?_insert_of_ne htype]
      simp [htype, Ne.symm htype]

end ResetTable

namespace RegisterArray

/-- The array with more fields behind those of its register. -/
def joined (a : RegisterArray) (fields : List Field) : RegisterArray :=
  { a with register := a.register.joined fields }

theorem joined_nil (a : RegisterArray) : a.joined [] = a := by simp [joined, Register.joined_nil]

theorem joined_joined (a : RegisterArray) (fields more : List Field) :
    (a.joined fields).joined more = a.joined (fields ++ more) := by
  simp [joined, Register.joined_joined]

end RegisterArray

namespace Scan

variable {s s' s₁ s₂ : Scan} {above : List Group} {sites more : List Site}

-- =================================================== where a scan stands

/-- The scan stands between two nodes, among the groups `above`. -/
structure At (s : Scan) (above : List Group) : Prop where
  /-- The top group is an address map. -/
  top : above.head?.map (·.kind) = some .addressMap
  groups : s.groups = Group.lent above
  depth : s.depth = above.countP (·.kind == .addressMap)
  memory : s.memory = Group.memory? above
  holder : s.holder = none

theorem At.ne_nil (h : s.At above) : above ≠ [] := by
  rintro rfl
  exact absurd h.top (by simp)

/-- The top address map is one of those around. -/
theorem At.depth_pos (h : s.At above) : 0 < s.depth := by
  rw [h.depth]
  cases above with
  | nil => exact absurd rfl h.ne_nil
  | cons top rest =>
    have htop : top.kind = .addressMap := by simpa using h.top
    simp [htop]

theorem lent_concat {g : Group} (h : above ≠ []) :
    Group.lent (above ++ [g])
      = Group.lent above ++ if g.kind = .memory then [] else [g.name] := by
  unfold Group.lent
  rw [List.tail_append_of_ne_nil h, List.filter_append, List.map_append]
  by_cases hk : g.kind = .memory <;> simp [hk]

theorem memory?_concat {g : Group} :
    Group.memory? (above ++ [g])
      = (Group.memory? above).or (if g.kind = .memory then some g.name else none) := by
  unfold Group.memory?
  rw [List.find?_append]
  by_cases hk : g.kind = .memory <;> simp [hk]

theorem base_concat {g : Group} : Group.base (above ++ [g]) = Group.base above + g.offset := by
  simp [Group.base]

theorem head?_concat {g : Group} (h : above ≠ []) : (above ++ [g]).head? = above.head? := by
  cases above with
  | nil => exact absurd rfl h
  | cons top rest => rfl

/-- A scan enters a group, unless this is a memory inside another one. -/
theorem enterGroup_run (h : s.At above) (kind : GroupKind) (name : String) (offset address : Nat)
    (hmem : kind = .memory → Group.memory? above = none) :
    ∃ s₁, enterGroup kind name address s = (.ok .descend, s₁)
      ∧ s₁.At (above ++ [⟨kind, name, offset⟩]) ∧ s₁.inventory = s.inventory
      ∧ s₁.arrays = if kind = .memory then 0 else s.arrays := by
  have hne := h.ne_nil
  cases kind with
  | addressMap =>
    refine ⟨s.enterMap name, rfl, ⟨?_, ?_, ?_, ?_, h.holder⟩, rfl, rfl⟩
    · rw [head?_concat hne, h.top]
    · have hpos := h.depth_pos
      simp [enterMap, hpos, h.groups, lent_concat hne]
    · simp [enterMap, h.depth, List.countP_append]
    · simp [enterMap, h.memory, memory?_concat]
  | registerFile =>
    refine ⟨{ s with groups := s.groups ++ [name] }, rfl, ⟨?_, ?_, ?_, ?_, h.holder⟩, rfl, rfl⟩
    · rw [head?_concat hne, h.top]
    · simp [h.groups, lent_concat hne]
    · simp [h.depth, List.countP_append]
    · simp [h.memory, memory?_concat]
  | memory =>
    have hnone : s.memory = none := h.memory.trans (hmem rfl)
    refine ⟨s.enterMemory name address, ?_, ⟨?_, ?_, ?_, ?_, h.holder⟩, rfl, rfl⟩
    · simp [enterGroup, step, memoryAllowed, hnone]
    · rw [head?_concat hne, h.top]
    · simp [enterMemory, note, h.groups, lent_concat hne]
    · simp [enterMemory, note, h.depth, List.countP_append]
    · simp [enterMemory, note, hmem rfl, memory?_concat]

/-- Leaving a group, a scan stands again where it stood before. -/
theorem exitGroup_run {kind : GroupKind} {name : String} {offset : Nat} (hs : s.At above)
    (hmem : kind = .memory → Group.memory? above = none)
    (h : s'.At (above ++ [⟨kind, name, offset⟩])) :
    ∃ s₂, exitGroup kind name s' = (.ok (), s₂) ∧ s₂.At above ∧ s₂.inventory = s'.inventory
      ∧ s₂.arrays = s'.arrays := by
  have hne := hs.ne_nil
  cases kind with
  | addressMap =>
    have hdepth : s'.depth = s.depth + 1 := by simp [h.depth, hs.depth, List.countP_append]
    have hgroups : s'.groups = Group.lent above ++ [name] := by simp [h.groups, lent_concat hne]
    refine ⟨s'.exitMap, rfl, ⟨hs.top, ?_, ?_, ?_, h.holder⟩, rfl, rfl⟩
    · have hpos := hs.depth_pos
      simp [exitMap, hdepth, hpos, hgroups]
    · simp [exitMap, hdepth, hs.depth]
    · simp [exitMap, h.memory, memory?_concat]
  | registerFile =>
    refine ⟨{ s' with groups := s'.groups.dropLast }, rfl, ⟨hs.top, ?_, ?_, ?_, h.holder⟩, rfl, rfl⟩
    · simp [h.groups, lent_concat hne]
    · simp [h.depth, List.countP_append]
    · simp [h.memory, memory?_concat]
  | memory =>
    refine ⟨{ s' with memory := none }, rfl, ⟨hs.top, ?_, ?_, ?_, h.holder⟩, rfl, rfl⟩
    · simp [h.groups, lent_concat hne]
    · simp [h.depth, List.countP_append]
    · simp [hmem rfl]

-- ====================================================== what is collected

/-- From `s` to `s'` the scan has collected the given places. -/
structure Gathers (s : Scan) (sites : List Site) (s' : Scan) : Prop where
  name : s'.inventory.name = s.inventory.name
  registers : s'.inventory.registers
    = s.inventory.registers ++ (sites.filter (·.isAlone)).map (·.register)
  arrays : s'.inventory.arrays
    = s.inventory.arrays ++ (sites.filter (!·.isAlone)).map (·.array)
  resets : ((sites.filter (·.isAlone)).map (·.register)).foldlM ResetTable.record s.inventory.resets
    = .ok s'.inventory.resets
  count : s.memory.isSome → s'.arrays = s.arrays + sites.length

theorem Gathers.refl (s : Scan) : s.Gathers [] s where
  name := rfl
  registers := (List.append_nil _).symm
  arrays := (List.append_nil _).symm
  resets := rfl
  count := fun _ => rfl

theorem Gathers.append (h : s.Gathers sites s₁) (hmem : s₁.memory = s.memory)
    (hmore : s₁.Gathers more s₂) : s.Gathers (sites ++ more) s₂ where
  name := hmore.name.trans h.name
  registers := by simp [hmore.registers, h.registers]
  arrays := by simp [hmore.arrays, h.arrays]
  resets := by
    rw [List.filter_append, List.map_append, List.foldlM_append, h.resets]
    exact hmore.resets
  count := by
    intro hsome
    rw [hmore.count (hmem ▸ hsome), h.count hsome, List.length_append, Nat.add_assoc]

/-- The numbers that the next places get. -/
def seat (s : Scan) (sites : List Site) : List Site :=
  if s.memory.isSome then Site.numbered s.arrays sites else sites

theorem seat_append (h : s.Gathers (s.seat sites) s₁) (hmem : s₁.memory = s.memory) :
    s.seat (sites ++ more) = s.seat sites ++ s₁.seat more := by
  by_cases hsome : s.memory.isSome
  · have hcount := h.count hsome
    simp only [seat, hsome, if_true, Site.numbered_length] at hcount
    simp only [seat, hmem, hsome, if_true, hcount, Site.numbered_append]
  · simp only [seat, hmem, hsome]
    rfl

-- ================================================================ fields

/-- The scan with other registers and reset values. -/
def withRegisters (s : Scan) (registers : List Register) (resets : ResetTable) : Scan :=
  { s with inventory := { s.inventory with registers, resets } }

/-- The scan with other arrays. -/
def withArrays (s : Scan) (arrays : List RegisterArray) (journal : Journal) : Scan :=
  { s with inventory := { s.inventory with arrays }, journal }

theorem fields_cons (node : FieldNode) (rest : List FieldNode)
    (h : enterField node s = (.ok (), s₁)) :
    listener.fields (node :: rest) s = listener.fields rest s₁ :=
  run_bind h

section Fields

variable {before : List Register} {table : ResetTable} {r : Register} {value : Nat}

/-- A field joins the register met last. -/
theorem enterField_register {node : FieldNode} (hm : node.field.Measured)
    (hholder : s.holder = some .register) (hregisters : s.inventory.registers = before ++ [r])
    (hresets : s.inventory.resets = table.insert r.typeName value)
    (hvalue : r.resetValue = .ok value) :
    ∃ value', (r.joined [node.field]).resetValue = .ok value'
      ∧ enterField node s = (.ok (), s.withRegisters (before ++ [r.joined [node.field]])
          (table.insert r.typeName value')) := by
  obtain ⟨part, hpart, hbits⟩ := hm.resetMask_run
  refine ⟨value ||| part, Register.resetValue_concat hvalue hpart, ?_⟩
  have hresetOf : s.inventory.resetOf r = value := by
    simp [Inventory.resetOf, hresets]
  have hlast : modifyLast (fun r => { r with fields := r.fields ++ [node.field] })
      (before ++ [r]) = before ++ [r.joined [node.field]] := modifyLast_concat ..
  by_cases hzero : node.field.reset = 0
  · have hnone : part = 0 := by
      refine Nat.eq_of_testBit_eq fun j => ?_
      simp [hbits, Field.resets, hzero]
    simp [enterField, FieldNode.ofNode_eq_field, step, fieldAllowed, hholder, hregisters, hzero,
      addRegisterField, hlast, withRegisters, hresets, hnone]
  · simp [enterField, FieldNode.ofNode_eq_field, step, fieldAllowed, hholder, hregisters, hzero,
      addRegisterField, hlast, withRegisters, hresets, hresetOf, hpart, ResetTable.insert_insert,
      bind, Except.bind, pure, Except.pure]

/-- The fields of a register of its own join it, and its reset value
grows with them. -/
theorem registerFields_run {fields : List FieldNode}
    (hm : ∀ f ∈ fields, f.field.Measured)
    (hholder : s.holder = some .register) (hregisters : s.inventory.registers = before ++ [r])
    (hresets : s.inventory.resets = table.insert r.typeName value)
    (hvalue : r.resetValue = .ok value) :
    ∃ value', (r.joined (fields.map FieldNode.field)).resetValue = .ok value'
      ∧ listener.fields fields s = (.ok (), s.withRegisters
          (before ++ [r.joined (fields.map FieldNode.field)]) (table.insert r.typeName value')) := by
  induction fields generalizing s r value with
  | nil =>
    refine ⟨value, by rwa [List.map_nil, Register.joined_nil], ?_⟩
    rw [List.map_nil, Register.joined_nil, ← hresets, ← hregisters]
    rfl
  | cons node rest ih =>
    obtain ⟨value₁, hvalue₁, hrun⟩ := enterField_register (hm node (List.mem_cons_self ..)) hholder
      hregisters hresets hvalue
    obtain ⟨value', hvalue', hrest⟩ := ih (fun f hf => hm f (List.mem_cons_of_mem _ hf))
      (s := s.withRegisters (before ++ [r.joined [node.field]])
        (table.insert r.typeName value₁)) (r := r.joined [node.field]) hholder rfl rfl hvalue₁
    rw [Register.joined_joined] at hvalue' hrest
    exact ⟨value', hvalue', (fields_cons node rest hrun).trans hrest⟩

end Fields

section ArrayFields

variable {before : List RegisterArray} {a : RegisterArray}

/-- A field joins the elements of the array met last. -/
theorem enterField_array (node : FieldNode) (hholder : s.holder = some .array)
    (harrays : s.inventory.arrays = before ++ [a]) :
    ∃ journal, enterField node s
      = (.ok (), s.withArrays (before ++ [a.joined [node.field]]) journal) := by
  have hallowed : fieldAllowed node.field s = .ok (.array, 0) := by
    simp [fieldAllowed, hholder, harrays]
  have hlast : modifyLast (fun a => { a with register := { a.register with
      fields := a.register.fields ++ [node.field] } }) (before ++ [a])
      = before ++ [a.joined [node.field]] := modifyLast_concat ..
  refine ⟨(addArrayField node.field s).journal, ?_⟩
  unfold enterField step
  rw [FieldNode.ofNode_eq_field, hallowed]
  by_cases hzero : node.field.reset = 0 <;>
    simp [addArrayField, hzero, withArrays, note, harrays, hlast]

/-- The fields of a register in an array join its elements. -/
theorem arrayFields_run (fields : List FieldNode) (hholder : s.holder = some .array)
    (harrays : s.inventory.arrays = before ++ [a]) :
    ∃ journal, listener.fields fields s
      = (.ok (), s.withArrays (before ++ [a.joined (fields.map FieldNode.field)]) journal) := by
  induction fields generalizing s a with
  | nil =>
    refine ⟨s.journal, ?_⟩
    rw [List.map_nil, RegisterArray.joined_nil, ← harrays]
    rfl
  | cons node rest ih =>
    obtain ⟨journal₁, hrun⟩ := enterField_array node hholder harrays
    obtain ⟨journal, hrest⟩ := ih (s := s.withArrays (before ++ [a.joined [node.field]])
      journal₁) hholder rfl
    rw [RegisterArray.joined_joined] at hrest
    exact ⟨journal, (fields_cons node rest hrun).trans hrest⟩

end ArrayFields

-- ============================================================= registers

/-- The register of a site, before its fields are met. -/
def bare (site : Site) : Register := { site.register with fields := [] }

/-- The place that is met next at a register. -/
def next (s : Scan) (above : List Group) (node : RegisterNode) : Site where
  above := above
  node := node
  rank := if s.memory.isSome then s.arrays else 0

theorem seat_singleton (s : Scan) (above : List Group) (node : RegisterNode) :
    s.seat [{ above, node }] = [s.next above node] := by
  by_cases hsome : s.memory.isSome <;> simp [seat, next, hsome, Site.numbered]

theorem exitRegister_run (node : RegisterNode) (s : Scan) :
    exitRegister node s = (.ok (), { s with holder := none }) := rfl

theorem addNode_alone (hs : s.At above) {node : RegisterNode}
    (halone : (s.next above node).isAlone = true) :
    s.addNode node (Group.base above + node.offset) = addRegister (bare (s.next above node)) s := by
  have hif : ((Group.memory? above).isNone && node.dimensions.isEmpty) = true := halone
  unfold addNode
  rw [hs.memory, hs.groups, if_pos hif]
  rfl

theorem addNode_array (hs : s.At above) {node : RegisterNode}
    (halone : (s.next above node).isAlone = false) :
    s.addNode node (Group.base above + node.offset)
      = addArray { (s.next above node).array with register := bare (s.next above node) } s := by
  have hname : s.arrayName node = (s.next above node).arrayName := by
    unfold arrayName Site.arrayName next
    rw [hs.memory]
    cases Group.memory? above <;> rfl
  have hif : ((Group.memory? above).isNone && node.dimensions.isEmpty) = false := halone
  unfold addNode
  rw [hname, hs.memory, hs.groups, hif]
  rfl

/-- A register of at most one dimension is collected, on its own or as an
array. -/
theorem register_run (hs : s.At above) {node : RegisterNode}
    (hm : ∀ f ∈ node.fields, f.field.Measured) (hdim : ¬1 < node.dimensions.length) :
    ∃ s', listener.register node (Group.base above + node.offset) s = (.ok (), s') ∧ s'.At above
      ∧ s.Gathers (s.seat [{ above, node }]) s' := by
  have hentered : enterRegister node (Group.base above + node.offset) s
      = (.ok .descend, s.addNode node (Group.base above + node.offset)) := by
    simp [enterRegister, step, dimensionsAllowed, hdim]
  rw [seat_singleton]
  unfold Listener.register
  cases halone : (s.next above node).isAlone with
  | true =>
    rw [addNode_alone hs halone] at hentered
    obtain ⟨value, hvalue, hfields⟩ := registerFields_run
      (s := addRegister (bare (s.next above node)) s) hm rfl rfl rfl rfl
    refine ⟨_, (run_bind hentered).trans ((run_bind hfields).trans (exitRegister_run node _)),
      ⟨hs.top, hs.groups, hs.depth, hs.memory, rfl⟩, ⟨rfl, ?_, ?_, ?_, ?_⟩⟩
    · rw [List.filter_cons_of_pos halone]
      rfl
    · rw [List.filter_cons_of_neg (by simp [halone])]
      exact (List.append_nil _).symm
    · rw [List.filter_cons_of_pos halone]
      have hrecord : ResetTable.record s.inventory.resets (s.next above node).register
          = .ok (s.inventory.resets.insert (bare (s.next above node)).typeName value) :=
        ResetTable.record_eq hvalue
      simp [hrecord, withRegisters]
    · intro hsome
      have hnone : ((Group.memory? above).isNone && node.dimensions.isEmpty) = true := halone
      rw [hs.memory] at hsome
      rw [Option.isNone_eq_false_iff.2 hsome] at hnone
      exact absurd hnone Bool.false_ne_true
  | false =>
    rw [addNode_array hs halone] at hentered
    obtain ⟨journal, hfields⟩ := arrayFields_run (s := addArray _ s) node.fields rfl rfl
    refine ⟨_, (run_bind hentered).trans ((run_bind hfields).trans (exitRegister_run node _)),
      ⟨hs.top, hs.groups, hs.depth, hs.memory, rfl⟩, ⟨rfl, ?_, ?_, ?_, ?_⟩⟩
    · rw [List.filter_cons_of_neg (by simp [halone])]
      exact (List.append_nil _).symm
    · rw [List.filter_cons_of_pos (by simp [halone])]
      rfl
    · rw [List.filter_cons_of_neg (by simp [halone])]
      rfl
    · intro hsome
      exact if_pos hsome

-- ============================================================= the tree

/-- What keeps a component in range: its address is a word, and the widths
of its fields can be told. -/
structure Plain (n : Node) : Prop where
  located : n.address < 2 ^ 64
  measured : ∀ node, n.component = .register node → ∀ f ∈ node.fields, f.field.Measured

theorem locate_run {σ : Type} {base : Nat} {c : Component} (h : base + c.offset < 2 ^ 64) (s : σ) :
    Listener.locate base c s = (.ok (base + c.offset), s) := by
  unfold Listener.locate
  rw [Word.add_eq_ok_iff.2 ⟨h, rfl⟩]

theorem sites_group {kind : GroupKind} (h : kind ≠ .memory) (name : String) (offset : Nat)
    (children : List Component) : Component.sites above (.group kind name offset children)
      = Component.sitesIn (above ++ [⟨kind, name, offset⟩]) children := by
  cases kind with
  | memory => exact absurd rfl h
  | addressMap => rfl
  | registerFile => rfl

/-- What is collected between entering a group and leaving it is collected
of the group. -/
theorem Gathers.group {kind : GroupKind} {name : String} {offset : Nat} {children : List Component}
    (hs : s.At above) (hs₁ : s₁.At (above ++ [⟨kind, name, offset⟩]))
    (hmem : kind = .memory → Group.memory? above = none)
    (hinventory : s₁.inventory = s.inventory)
    (harrays : s₁.arrays = if kind = .memory then 0 else s.arrays)
    (h : s₁.Gathers (s₁.seat (Component.sitesIn (above ++ [⟨kind, name, offset⟩]) children)) s₂)
    (hinventory' : s'.inventory = s₂.inventory) (harrays' : s'.arrays = s₂.arrays) :
    s.Gathers (s.seat (Component.sites above (.group kind name offset children))) s' := by
  have hcollected : s.seat (Component.sites above (.group kind name offset children))
      = s₁.seat (Component.sitesIn (above ++ [⟨kind, name, offset⟩]) children) := by
    unfold seat
    rw [hs.memory, hs₁.memory, memory?_concat, harrays]
    by_cases hk : kind = .memory
    · subst hk
      simp [hmem rfl, Component.sites]
    · simp [hk, sites_group hk]
  rw [hcollected]
  refine ⟨?_, ?_, ?_, ?_, fun hsome => ?_⟩
  · rw [hinventory', h.name, hinventory]
  · rw [hinventory', h.registers, hinventory]
  · rw [hinventory', h.arrays, hinventory]
  · rw [hinventory', ← hinventory, h.resets]
  · -- a memory stands in no other one, so this group is none
    rw [hs.memory] at hsome
    have hk : kind ≠ .memory := by
      intro hk
      simp [hmem hk] at hsome
    rw [harrays', h.count (by simp [hs₁.memory, memory?_concat, hk, hsome]), harrays, if_neg hk]

mutual

/-- A component is collected where nothing in it is refused. -/
theorem component_run : (c : Component) → {s : Scan} → {above : List Group} → s.At above →
    (∀ n ∈ c.nodes above, Plain n ∧ ¬n.Refused) →
    ∃ s', listener.component c (Group.base above + c.offset) s = (.ok (), s') ∧ s'.At above
      ∧ s.Gathers (s.seat (c.sites above)) s'
  | .register node, s, above, hs, hn => by
    obtain ⟨hplain, hallowed⟩ := hn _ (List.mem_singleton_self _)
    exact register_run hs (hplain.measured node rfl) hallowed
  | .group kind name offset children, s, above, hs, hn => by
    have hself := (hn _ (List.mem_cons_self ..)).2
    have hmem : kind = .memory → Group.memory? above = none := by
      intro hk
      by_contra hsome
      exact hself ⟨hk, Option.isSome_iff_ne_none.2 hsome⟩
    obtain ⟨s₁, henter, hs₁, hinventory₁, harrays₁⟩ :=
      enterGroup_run hs kind name offset (Group.base above + offset) hmem
    obtain ⟨s₂, hinner, hs₂, hgathers⟩ := components_run children hs₁
      fun n hin => hn n (List.mem_cons_of_mem _ hin)
    obtain ⟨s₃, hexit, hs₃, hinventory₃, harrays₃⟩ := exitGroup_run hs hmem hs₂
    rw [base_concat] at hinner
    exact ⟨s₃, (run_bind henter).trans ((run_bind hinner).trans hexit), hs₃,
      hgathers.group hs hs₁ hmem hinventory₁ harrays₁ hinventory₃ harrays₃⟩

/-- Components are collected one after the other. -/
theorem components_run : (cs : List Component) → {s : Scan} → {above : List Group} →
    s.At above → (∀ n ∈ Component.nodesIn above cs, Plain n ∧ ¬n.Refused) →
    ∃ s', listener.components cs (Group.base above) s = (.ok (), s') ∧ s'.At above
      ∧ s.Gathers (s.seat (Component.sitesIn above cs)) s'
  | [], s, above, hs, _ => by
    refine ⟨s, rfl, hs, ?_⟩
    have hnothing : s.seat (Component.sitesIn above []) = [] := by
      simp [seat, Component.sitesIn, Site.numbered]
    rw [hnothing]
    exact .refl s
  | c :: rest, s, above, hs, hn => by
    have hc : ∀ n ∈ c.nodes above, Plain n ∧ ¬n.Refused := fun n hin =>
      hn n (List.mem_append_left _ hin)
    obtain ⟨s₁, hfirst, hs₁, hgathers₁⟩ := component_run c hs hc
    obtain ⟨s₂, hrest, hs₂, hgathers₂⟩ := components_run rest hs₁ fun n hin =>
      hn n (List.mem_append_right _ hin)
    have hmemory : s₁.memory = s.memory := hs₁.memory.trans hs.memory.symm
    have hlocated := (hc _ (Component.mem_nodes above c)).1.located
    refine ⟨s₂, (run_bind (locate_run hlocated s)).trans ((run_bind hfirst).trans hrest), hs₂, ?_⟩
    unfold Component.sitesIn
    rw [seat_append hgathers₁ hmemory]
    exact hgathers₁.append hmemory hgathers₂

end

-- ============================================================== refusals

mutual

/-- A component ends the scan where something in it is refused. -/
theorem component_stops : (c : Component) → {s : Scan} → {above : List Group} → s.At above →
    (∀ n ∈ c.nodes above, Plain n) → (∃ n ∈ c.nodes above, n.Refused) →
    Stops (listener.component c (Group.base above + c.offset)) s fun _ => True
  | .register node, s, above, hs, hplain, hrefused => by
    obtain ⟨n, hn, hrefused⟩ := hrefused
    obtain rfl := List.mem_singleton.1 hn
    have hmany : 1 < node.dimensions.length := hrefused
    refine Stops.bind ?_ _
    refine ⟨.refused (.arrayDimensions node.name node.dimensions.length), ?_, trivial⟩
    simp [listener, enterRegister, step, dimensionsAllowed, hmany]
  | .group kind name offset children, s, above, hs, hplain, hrefused => by
    by_cases hself : Node.Refused ⟨above, .group kind name offset children⟩
    · obtain ⟨rfl, hsome⟩ := hself
      obtain ⟨outer, houter⟩ := Option.isSome_iff_exists.1 hsome
      refine Stops.bind ?_ _
      refine ⟨.refused (.nestedMemory name outer), ?_, trivial⟩
      simp [listener, enterGroup, step, memoryAllowed, hs.memory, houter]
    · have hmem : kind = .memory → Group.memory? above = none := by
        intro hk
        by_contra hsome
        exact hself ⟨hk, Option.isSome_iff_ne_none.2 hsome⟩
      obtain ⟨s₁, henter, hs₁, -, -⟩ :=
        enterGroup_run hs kind name offset (Group.base above + offset) hmem
      obtain ⟨n, hn, hrefused⟩ := hrefused
      have hin : n ∈ Component.nodesIn (above ++ [⟨kind, name, offset⟩]) children := by
        rcases List.mem_cons.1 hn with rfl | hin
        · exact absurd hrefused hself
        · exact hin
      have hinner := components_stops children hs₁
        (fun n hin => hplain n (List.mem_cons_of_mem _ hin)) ⟨n, hin, hrefused⟩
      rw [base_concat] at hinner
      exact stops_after henter (hinner.bind _)

/-- The first of several components in which something is refused ends the
scan. -/
theorem components_stops : (cs : List Component) → {s : Scan} → {above : List Group} →
    s.At above → (∀ n ∈ Component.nodesIn above cs, Plain n) →
    (∃ n ∈ Component.nodesIn above cs, n.Refused) →
    Stops (listener.components cs (Group.base above)) s fun _ => True
  | [], s, above, _, _, hrefused => by
    obtain ⟨n, hn, -⟩ := hrefused
    cases hn
  | c :: rest, s, above, hs, hplain, hrefused => by
    have hc : ∀ n ∈ c.nodes above, Plain n := fun n hin => hplain n (List.mem_append_left _ hin)
    have hrest : ∀ n ∈ Component.nodesIn above rest, Plain n := fun n hin =>
      hplain n (List.mem_append_right _ hin)
    have hlocate := locate_run (hc _ (Component.mem_nodes above c)).located s
    refine stops_after hlocate ?_
    by_cases hfirst : ∃ n ∈ c.nodes above, n.Refused
    · exact (component_stops c hs hc hfirst).bind _
    · obtain ⟨s₁, hrun, hs₁, -⟩ := component_run c hs fun n hin =>
        ⟨hc n hin, fun hn => hfirst ⟨n, hin, hn⟩⟩
      obtain ⟨n, hn, hrefused⟩ := hrefused
      have hin : n ∈ Component.nodesIn above rest := by
        rcases List.mem_append.1 hn with hin | hin
        · exact absurd ⟨n, hin, hrefused⟩ hfirst
        · exact hin
      exact stops_after hrun (components_stops rest hs₁ hrest ⟨n, hin, hrefused⟩)

end

end Scan

-- ============================================================ the result

namespace Inventory

/-- The inventory has what the description places: the registers of their
own, every other register as an array, and, where the types of the
registers have names of their own, the reset value of each of them under
that name and nothing else. A reset value is made of the bits that a field
resets to one, as far as a mask reaches. -/
structure Collects (inventory : Inventory) (d : Design) : Prop where
  name : inventory.name = d.name
  registers : inventory.registers = (d.sites.filter (·.isAlone)).map (·.register)
  arrays : inventory.arrays = (d.sites.filter (!·.isAlone)).map (·.array)
  resets : (inventory.registers.map (·.typeName)).Nodup → ∀ type value,
    inventory.resets.find? type = some value
      ↔ ∃ r ∈ inventory.registers, r.typeName = type ∧ r.resetValue = .ok value
  values : ∀ r ∈ inventory.registers, ∃ value, r.resetValue = .ok value
    ∧ ∀ j < maskBits, value.testBit j = r.fields.any (·.resets j)

variable {d : Design}

/-- The components of a description are in range where its addresses are
words and the widths of its fields can be told. -/
theorem plain_nodes (haddress : ∀ n ∈ d.nodes, n.address < 2 ^ 64)
    (hfields : ∀ s ∈ d.sites, ∀ f ∈ s.node.fields, f.high - f.low < 2 ^ 32 - 1) :
    ∀ n ∈ d.nodes, Scan.Plain n := by
  intro n hn
  refine ⟨haddress n hn, fun node hnode f hf => ⟨f.low_le_high, ?_⟩⟩
  have hregister : n ∈ d.nodes.filter (·.isRegister) := by
    refine List.mem_filter.2 ⟨hn, ?_⟩
    unfold Node.isRegister
    rw [hnode]
  have hsite : n ∈ d.sites.map Site.toNode := by
    rw [show d.sites.map Site.toNode = _ from Component.sitesIn_nodes ..]
    exact hregister
  obtain ⟨site, hin, rfl⟩ := List.mem_map.1 hsite
  obtain rfl := Component.register.inj hnode
  exact hfields site hin f hf

/-- The fields of the registers are of a width that can be told. -/
theorem measured_register (hfields : ∀ s ∈ d.sites, ∀ f ∈ s.node.fields, f.high - f.low < 2 ^ 32 - 1)
    {s : Site} (hs : s ∈ d.sites) : s.register.Measured := by
  intro f hf
  obtain ⟨node, hnode, rfl⟩ := List.mem_map.1 hf
  exact ⟨node.low_le_high, hfields s hs node hnode⟩

/-- A scan that has entered the top node. -/
def begun (d : Design) (journal : Journal) : Scan :=
  { Scan.start d.name with journal }.enterMap d.name

theorem begun_at (d : Design) (journal : Journal) : (begun d journal).At [d.top] where
  top := rfl
  groups := rfl
  depth := rfl
  memory := rfl
  holder := rfl

theorem enter_run (d : Design) (journal : Journal) :
    Scan.enterGroup .addressMap d.name d.offset { Scan.start d.name with journal }
      = (.ok .descend, begun d journal) := rfl

/-- The walk of a scan, and what it leaves. -/
def collect (d : Design) : Reporting Inventory := fun journal =>
  match Scan.listener.design d { Scan.start d.name with journal } with
  | (.ok (), s) => (.ok s.inventory, s.journal)
  | (.error e, s) => (.error e, s.journal)

/-- The components below the top node decide what is collected. -/
theorem scan_run {journal : Journal} {s : Scan}
    (h : Scan.listener.components d.children (Group.base [d.top]) (begun d journal) = (.ok (), s)) :
    (scan d journal).1 = .ok s.inventory := by
  have hbase : Group.base [d.top] = d.offset := Nat.add_zero _
  rw [hbase] at h
  have hdesign : Scan.listener.design d { Scan.start d.name with journal } = (.ok (), s.exitMap) :=
    (run_bind (enter_run d journal)).trans (run_bind h)
  have hcollect : collect d journal = (.ok s.inventory, s.journal) := by
    unfold collect
    rw [hdesign]
    rfl
  exact congrArg Prod.fst (run_bind hcollect)

/-- Where the walk below the top node ends, the scan does. -/
theorem scan_stops {journal : Journal}
    (h : Stops (Scan.listener.components d.children (Group.base [d.top])) (begun d journal)
      fun _ => True) :
    ∃ e, (scan d journal).1 = .error e := by
  have hbase : Group.base [d.top] = d.offset := Nat.add_zero _
  rw [hbase] at h
  have hdesign : Stops (Scan.listener.design d) { Scan.start d.name with journal } fun _ => True :=
    stops_after (enter_run d journal) (h.bind _)
  obtain ⟨e, he, -⟩ := hdesign
  obtain ⟨s, hs⟩ : ∃ s, Scan.listener.design d { Scan.start d.name with journal } = (.error e, s) :=
    ⟨_, Prod.ext he rfl⟩
  have hcollect : collect d journal = (.error e, s.journal) := by
    unfold collect
    rw [hs]
  exact ⟨e, congrArg Prod.fst (run_bind_error hcollect)⟩

/-- The scan of a description, all of whose addresses are words and none of
whose fields is too wide to tell its width, is refused just where a memory
lies in another one or a register has several dimensions; otherwise it
collects the places of the description. -/
theorem scan_outcome (d : Design) (journal : Journal)
    (haddress : ∀ n ∈ d.nodes, n.address < 2 ^ 64)
    (hfields : ∀ s ∈ d.sites, ∀ f ∈ s.node.fields, f.high - f.low < 2 ^ 32 - 1) :
    ((∃ e, (scan d journal).1 = .error e) ↔ ∃ n ∈ d.nodes, n.Refused)
      ∧ ((¬∃ n ∈ d.nodes, n.Refused) →
        ∃ inventory, (scan d journal).1 = .ok inventory ∧ inventory.Collects d) := by
  have hplain := plain_nodes haddress hfields
  have hstart := begun_at d journal
  have hcollects : (¬∃ n ∈ d.nodes, n.Refused) →
      ∃ inventory, (scan d journal).1 = .ok inventory ∧ inventory.Collects d := by
    intro hallowed
    obtain ⟨s, hrun, -, hgathers⟩ := Scan.components_run d.children hstart fun n hn =>
      ⟨hplain n hn, fun hrefused => hallowed ⟨n, hn, hrefused⟩⟩
    have hregisters : s.inventory.registers = (d.sites.filter (·.isAlone)).map (·.register) :=
      hgathers.registers
    have hresets : s.inventory.registers.foldlM ResetTable.record [] = .ok s.inventory.resets := by
      rw [hregisters]
      exact hgathers.resets
    refine ⟨s.inventory, scan_run hrun, hgathers.name, hregisters, hgathers.arrays, ?_, ?_⟩
    · intro hnames type value
      rw [ResetTable.find?_recorded hresets hnames]
      simp [ResetTable.find?]
    · intro r hr
      rw [hregisters] at hr
      obtain ⟨site, hsite, rfl⟩ := List.mem_map.1 hr
      obtain ⟨value, hvalue, hbits⟩ :=
        (measured_register hfields (List.mem_filter.1 hsite).1).resetValue_run
      refine ⟨value, hvalue, fun j hj => ?_⟩
      rw [hbits, decide_eq_true hj, Bool.true_and]
  refine ⟨⟨fun herror => ?_, fun hrefused => ?_⟩, hcollects⟩
  · by_contra hallowed
    obtain ⟨inventory, hok, -⟩ := hcollects hallowed
    obtain ⟨e, he⟩ := herror
    rw [he] at hok
    cases hok
  · exact scan_stops (Scan.components_stops d.children hstart hplain hrefused)

/-- A register, a file with an array and a register, and in the file a
memory with a nested map. -/
def bankWithMemory : Design where
  name := "dev"
  offset := 0x100
  children := [
    .register {
      name := "ctl", fields := [{ name := "en", lsb := 6, msb := 4, access := .r, reset := 1 }] },
    .group .registerFile "bank" 16 [
      .register { name := "lut", dimensions := [4], stride? := some 8 },
      .register { name := "st", offset := 32 },
      .group .memory "ram" 64 [
        .register { name := "head" },
        .group .addressMap "sub" 8 [.register { name := "tail", width := 16 }]]]]

theorem scan_outcome_bankWithMemory :
    (∀ n ∈ bankWithMemory.nodes, n.address < 2 ^ 64)
      ∧ (∀ s ∈ bankWithMemory.sites, ∀ f ∈ s.node.fields, f.high - f.low < 2 ^ 32 - 1)
      ∧ (¬∃ n ∈ bankWithMemory.nodes, n.Refused)
      ∧ ∃ inventory, (scan bankWithMemory #[]).1 = .ok inventory
        ∧ inventory.registers.map (fun r => (r.path, r.address, r.fields))
          = [("ctl", 0x100, [{ name := "en", low := 4, high := 6, writable := false, reset := 1 }]),
            ("bank.st", 0x130, [])]
        ∧ inventory.arrays.map (fun a => (a.groups, a.name, a.address, a.count, a.stride))
          = [(["bank"], "lut", 0x110, 4, 8), (["bank"], "ram", 0x150, 1, 4),
            (["bank", "sub"], "ram_tail", 0x158, 1, 2)]
        ∧ inventory.resets.find? "CtlType" = some 16 := by
  have haddress : ∀ n ∈ bankWithMemory.nodes, n.address < 2 ^ 64 := by decide
  have hfields : ∀ s ∈ bankWithMemory.sites, ∀ f ∈ s.node.fields, f.high - f.low < 2 ^ 32 - 1 := by
    decide
  have hallowed : ¬∃ n ∈ bankWithMemory.nodes, n.Refused := by decide
  obtain ⟨inventory, hrun, h⟩ := (scan_outcome bankWithMemory #[] haddress hfields).2 hallowed
  refine ⟨haddress, hfields, hallowed, inventory, hrun, ?_, ?_, ?_⟩
  · rw [h.registers]
    decide
  · rw [h.arrays]
    decide
  · have hresets := h.resets
    rw [h.registers] at hresets
    exact (hresets (by decide) "CtlType" 16).2 (by decide)

end Inventory

end RegisterMap
