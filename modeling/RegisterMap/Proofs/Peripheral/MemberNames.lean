/-
The names that are declared in the class of a peripheral. They come from
four sources: the members, the two methods the user may give a body, the
methods of the interfaces, and the classes of the members
(`declaredNames`). A name made from a description has no dot in it, and
that of a class ends like none of the methods, so a clash is one of a
member with a method of the user or with the class of a member
(`assemble_memberNames`). Nothing else is asked of the inventory than that
it has been assembled: what its classes are made of could then be computed
(`sized_of_assemble`).
-/
import RegisterMap.Proofs.Peripheral.Assembled
import RegisterMap.Proofs.Peripheral.Members
import RegisterMap.Proofs.Register.Identifiers

namespace RegisterMap

-- =============================================================== names

namespace Text

theorem dot_not_mem_pascalCase (name : String) : '.' ∉ (pascalCase name).toList := by
  have hletters := break_not_mem_joinWords (b := '.') (by decide) true name.toList
  rw [toList_pascalCase]
  split
  · exact List.not_mem_cons_of_ne_of_not_mem (by decide) hletters
  · exact hletters

theorem not_mem_intercalate {α : Type} {a : α} {sep : List α} {parts : List (List α)}
    (hsep : a ∉ sep) (hparts : ∀ l ∈ parts, a ∉ l) : a ∉ sep.intercalate parts := by
  induction parts with
  | nil => exact List.not_mem_nil
  | cons l rest ih =>
    obtain ⟨hl, hrest⟩ := List.forall_mem_cons.1 hparts
    cases rest with
    | nil => simpa using hl
    | cons l' rest =>
      rw [List.intercalate_cons_cons]
      simp [hl, hsep, ih hrest]

/-- No identifier for a name in groups has a dot. -/
theorem dot_not_mem_pascalPath (groups : List String) (name : String) :
    '.' ∉ (pascalPath groups name).toList := by
  unfold pascalPath
  rw [String.toList_intercalate]
  refine not_mem_intercalate (by decide) fun l hl => ?_
  simp only [List.mem_map] at hl
  obtain ⟨_, ⟨word, -, rfl⟩, rfl⟩ := hl
  exact dot_not_mem_pascalCase word

end Text

-- ============================================================== success

namespace Peripheral

open Code Exec

variable {a : RegisterArray} {r : Register} {f : Field} {b : Buffer} {t t' : Tree} {i : NodeId}
  {inventory : Inventory} {c : Config}

/-- A draft whose tree was edited has an edited tree. -/
theorem ofEdit_eq_ok {α : Type} {edit : Edit α} {d d' : Draft} {result : α}
    (h : Drafting.ofEdit edit d = (.ok result, d')) : edit d.tree = (.ok result, d'.tree) := by
  obtain ⟨hresult, rfl⟩ := Prod.mk.inj h
  exact Prod.ext hresult rfl

theorem check_eq_ok {α : Type} {result : Except Failure α} {value : α}
    (h : Edit.check result t = (.ok value, t')) : result = .ok value ∧ t' = t := by
  cases result with
  | error e => cases h
  | ok value' =>
    cases h
    exact ⟨rfl, rfl⟩

/-- There is a type for the values of fields of one to 64 bits only. -/
theorem proper_of_storageType {type : TypeRef} (h : storageType f = .ok type) : f.Proper := by
  obtain ⟨width, hwidth, hrest⟩ := bind_eq_ok_iff.1 h
  obtain ⟨span, hspan, hsum⟩ := bind_eq_ok_iff.1 hwidth
  obtain ⟨hordered, rfl⟩ := Word.sub_eq_ok_iff.1 hspan
  obtain ⟨-, rfl⟩ := Word.add_eq_ok_iff.1 hsum
  refine ⟨hordered, ?_⟩
  by_contra hwide
  rw [if_neg (by omega), if_neg (by omega), if_neg (by omega), if_neg (by omega),
    if_neg (by omega)] at hrest
  cases hrest

theorem proper_of_fieldProperties {fields : List Field} {nodes : List NodeId}
    (h : fieldProperties b fields t = (.ok nodes, t')) : ∀ f ∈ fields, f.Proper := by
  intro f hf
  obtain ⟨t₁, i, t₂, hproperty⟩ := exists_of_run_mapM h f hf
  obtain ⟨type, t₃, htype, -⟩ := exists_of_run_bind hproperty
  exact proper_of_storageType (check_eq_ok htype).1

theorem sized_of_containerClass (h : containerClass a t = (.ok i, t')) : a.Sized := by
  obtain ⟨element, t₁, helement, h⟩ := exists_of_run_bind h
  obtain ⟨memory, t₂, -, h⟩ := exists_of_run_bind h
  obtain ⟨size, t₃, hsize, h⟩ := exists_of_run_bind h
  obtain ⟨index, t₄, -, h⟩ := exists_of_run_bind h
  obtain ⟨bufferSize, t₅, hbuffer, h⟩ := exists_of_run_bind h
  obtain ⟨read, t₆, -, h⟩ := exists_of_run_bind h
  obtain ⟨write, t₇, -, h⟩ := exists_of_run_bind h
  obtain ⟨bytes, t₈, hbytes, -⟩ := exists_of_run_bind h
  refine ⟨?_, ?_, bytes, (check_eq_ok hbytes).1⟩
  · obtain ⟨start, t₁, -, helement⟩ := exists_of_run_bind helement
    obtain ⟨memory, t₂, -, helement⟩ := exists_of_run_bind helement
    obtain ⟨properties, t₃, hproperties, -⟩ := exists_of_run_bind helement
    exact proper_of_fieldProperties hproperties
  · obtain ⟨size', hsize', hsum⟩ := bind_eq_ok_iff.1 (check_eq_ok hbuffer).1
    obtain ⟨-, rfl⟩ := Word.mul_eq_ok_iff.1 hsize'
    exact (Word.add_eq_ok_iff.1 hsum).1

theorem proper_of_holderClass {reset : Nat} (h : holderClass r reset t = (.ok i, t')) :
    r.Proper := by
  obtain ⟨memory, t₁, -, h⟩ := exists_of_run_bind h
  obtain ⟨properties, t₂, hproperties, -⟩ := exists_of_run_bind h
  exact proper_of_fieldProperties hproperties

theorem proper_of_registerClass {reset : Nat} {d d' : Draft}
    (h : registerClass r reset d = (.ok i, d')) : r.Proper := by
  unfold registerClass at h
  by_cases hwide : 32 < r.width
  · rw [if_pos hwide] at h
    obtain ⟨_, d₁, -, h⟩ := exists_of_run_bind h
    exact proper_of_holderClass (ofEdit_eq_ok h)
  · rw [if_neg hwide] at h
    exact proper_of_holderClass (ofEdit_eq_ok h)

/-- What the classes of a peripheral are made of has been computed where
there is a peripheral. -/
theorem sized_of_peripheralClass {d d' : Draft} (h : peripheralClass inventory c d = (.ok i, d')) :
    inventory.Sized := by
  obtain ⟨arrays, d₁, harrays, h⟩ := exists_of_run_bind h
  obtain ⟨registers, d₂, hregisters, -⟩ := exists_of_run_bind h
  refine ⟨fun a ha => ?_, fun r hr => ?_⟩
  · obtain ⟨t₁, member, t₂, hmember⟩ := exists_of_run_mapM (ofEdit_eq_ok harrays) a ha
    obtain ⟨holder, t₃, hholder, -⟩ := exists_of_run_bind hmember
    exact sized_of_containerClass hholder
  · obtain ⟨d₁, member, d₂, hmember⟩ := exists_of_run_mapM hregisters r hr
    obtain ⟨holder, d₃, hholder, -⟩ := exists_of_run_bind hmember
    exact proper_of_registerClass hholder

/-- A peripheral that is assembled has a namespace, and classes whose parts
could be computed. -/
theorem sized_of_assemble {assembly : Assembly} {d d' : Draft}
    (h : assemble inventory c d = (.ok assembly, d')) : c.path ≠ [] ∧ inventory.Sized := by
  unfold assemble at h
  cases hlast : c.path.getLast? with
  | none =>
    rw [hlast] at h
    cases h
  | some innermost =>
    rw [hlast] at h
    obtain ⟨peripheral, d₁, hclass, -⟩ := exists_of_run_bind h
    refine ⟨fun hnone => ?_, sized_of_peripheralClass hclass⟩
    rw [hnone] at hlast
    cases hlast

-- =============================================================== members

/-- The names declared in a class: those of its fields, of its methods but
the constructors, and of the classes inside it. -/
def memberNames (x : Shape) : List String :=
  (part x .fields).map nameOf ++ ((part x .methods).filter (!isCtor ·)).map nameOf
    ++ (part x .classes).map nameOf

/-- What is declared in the class of a peripheral. -/
def declaredNames (inventory : Inventory) : List String :=
  inventory.mounts.map Mount.memberName ++ methodNames ++ inventory.mounts.map Mount.typeName

theorem nameOf_all_finished (allPublic : Bool) (xs : List Shape) :
    (xs.map (Term.finished allPublic)).map nameOf = xs.map nameOf := by
  rw [List.map_map]
  exact List.map_congr_left fun x _ => nameOf_finished x

/-- The rewriting leaves the names of the members alone. -/
theorem PeripheralCode.memberNames_finished {x : Shape} {name : String}
    (h : PeripheralCode t inventory name x) (allPublic : Bool) :
    memberNames (x.finished allPublic) = declaredNames inventory := by
  unfold memberNames declaredNames
  rw [h.answers.part_eq h.fields_isOperator, h.answers.part_eq h.methods_isOperator,
    h.answers.part_eq h.classes_isOperator, filter_isCtor_finished, nameOf_all_finished,
    nameOf_all_finished, nameOf_all_finished, h.fields_named, h.methods_named, h.classes_named]

/-- The names that are declared in an assembled peripheral. -/
theorem declared_of_assemble {assembly : Assembly} {d d' : Draft} (linked : d.tree.Mutual)
    (h : assemble inventory c d = (.ok assembly, d')) :
    ∃ peripheral, Houses peripheral c.path (d'.tree.shape assembly.root)
      ∧ memberNames peripheral = declaredNames inventory := by
  obtain ⟨housed, sized⟩ := sized_of_assemble h
  obtain ⟨assembly', d'', t, x, hrun, hcode, hhouses, -⟩ := assemble_run linked sized c housed
  obtain ⟨hassembly, rfl⟩ := Prod.mk.inj (h.symm.trans hrun)
  obtain rfl := Except.ok.inj hassembly
  exact ⟨_, hhouses, hcode.memberNames_finished c.allPublic⟩

-- =============================================================== clashes

theorem dot_not_mem_memberName (m : Mount) : '.' ∉ m.memberName.toList := by
  cases m with
  | array a => exact Text.dot_not_mem_pascalPath _ _
  | register r => exact Text.dot_not_mem_pascalPath _ _

/-- A member is called like no method but those the user may give a
body. -/
theorem memberName_mem_methodNames (m : Mount) :
    m.memberName ∈ methodNames ↔ m.memberName = "Init" ∨ m.memberName = "Reset" := by
  have hdot : ∀ name : String, '.' ∈ name.toList → m.memberName ≠ name := by
    rintro _ hmem rfl
    exact dot_not_mem_memberName m hmem
  unfold methodNames
  simp only [List.mem_cons, List.not_mem_nil, or_false, hdot "IPeripheral.Reset" (by decide),
    hdot "IDoubleWordPeripheral.ReadDoubleWord" (by decide),
    hdot "IDoubleWordPeripheral.WriteDoubleWord" (by decide)]

/-- A class is called like no method: its name ends in an `e`. -/
theorem typeName_not_mem_methodNames (m : Mount) : m.typeName ∉ methodNames := by
  intro hmem
  have hlast : ∀ name ∈ methodNames, name.toList.getLast? ≠ some 'e' := by decide
  apply hlast _ hmem
  rw [m.typeName_eq, String.toList_append, List.getLast?_append]
  rfl

/-- Where the members are told apart, so are all declared names, unless a
member is called like a method or like the class of a member. -/
theorem nodup_declaredNames_iff (hnames : (inventory.mounts.map Mount.memberName).Nodup) :
    (declaredNames inventory).Nodup
      ↔ (∀ m ∈ inventory.mounts, m.memberName ≠ "Init" ∧ m.memberName ≠ "Reset")
        ∧ ∀ m ∈ inventory.mounts, ∀ m' ∈ inventory.mounts, m.memberName ≠ m'.typeName := by
  have hmethods : methodNames.Nodup := by decide
  have htypes := Inventory.types_nodup hnames
  have hmethod : List.Disjoint (inventory.mounts.map Mount.memberName) methodNames
      ↔ ∀ m ∈ inventory.mounts, m.memberName ≠ "Init" ∧ m.memberName ≠ "Reset" := by
    rw [List.disjoint_left, List.forall_mem_map]
    exact forall₂_congr fun m _ => by rw [memberName_mem_methodNames, not_or]
  have htype : List.Disjoint methodNames (inventory.mounts.map Mount.typeName) := by
    rw [List.disjoint_right, List.forall_mem_map]
    exact fun m _ => typeName_not_mem_methodNames m
  have hclash : List.Disjoint (inventory.mounts.map Mount.memberName)
        (inventory.mounts.map Mount.typeName)
      ↔ ∀ m ∈ inventory.mounts, ∀ m' ∈ inventory.mounts, m.memberName ≠ m'.typeName := by
    rw [List.disjoint_left, List.forall_mem_map]
    refine forall₂_congr fun m _ => ?_
    simp only [List.mem_map, not_exists, not_and]
    exact forall₂_congr fun m' _ => ne_comm
  unfold declaredNames
  rw [List.nodup_append', List.nodup_append', List.disjoint_append_left, hmethod, hclash]
  simp only [hnames, hmethods, htypes, htype, true_and, and_true]

/-- Where the members of a peripheral that is assembled have different
names, everything declared in its class has, if and only if no member is
called like a method of the user or like the class of a member. -/
theorem assemble_memberNames {assembly : Assembly} {d d' : Draft} (linked : d.tree.Mutual)
    (hrun : assemble inventory c d = (.ok assembly, d'))
    (hnames : (inventory.mounts.map Mount.memberName).Nodup) :
    ∃ peripheral, Houses peripheral c.path (d'.tree.shape assembly.root)
      ∧ ((memberNames peripheral).Nodup
        ↔ (∀ m ∈ inventory.mounts, m.memberName ≠ "Init" ∧ m.memberName ≠ "Reset")
          ∧ ∀ m ∈ inventory.mounts, ∀ m' ∈ inventory.mounts, m.memberName ≠ m'.typeName) := by
  obtain ⟨peripheral, hhouses, hdeclared⟩ := declared_of_assemble linked hrun
  refine ⟨peripheral, hhouses, ?_⟩
  rw [hdeclared]
  exact nodup_declaredNames_iff hnames

/-- A register next to an array. -/
def controlAndSamples : Inventory where
  name := "adc"
  arrays := [{
    name := "samples"
    register := { name := "sample", fields := [{ name := "level", low := 0, high := 11 }] }
    count := 4 }]
  registers := [{
    name := "control"
    address := 16
    fields := [{ name := "start", low := 0, high := 0 }] }]

theorem controlAndSamples_sized : controlAndSamples.Sized where
  arrays := by
    intro a ha
    rw [List.mem_singleton.1 ha]
    exact RegisterArray.Addressable.sized ⟨by unfold Register.Proper; decide, by decide⟩
  registers := by
    intro r hr
    rw [List.mem_singleton.1 hr]
    unfold Register.Proper
    decide

/-- All names in the class are different. -/
theorem assemble_memberNames_controlAndSamples :
    ∃ assembly d' peripheral, assemble controlAndSamples {} {} = (.ok assembly, d')
      ∧ Houses peripheral ["Antmicro", "Renode", "Peripherals"] (d'.tree.shape assembly.root)
      ∧ (memberNames peripheral).Nodup := by
  obtain ⟨assembly, d', -, -, hrun, -⟩ :=
    assemble_run (d := {}) Tree.mutual_empty controlAndSamples_sized {} (by decide)
  obtain ⟨peripheral, hhouses, hiff⟩ := assemble_memberNames Tree.mutual_empty hrun (by decide)
  exact ⟨assembly, d', peripheral, hrun, hhouses, hiff.2 (by decide)⟩

/-- One register, with the name of a method. -/
def onlyReset : Inventory where
  name := "dev"
  registers := [{ name := "reset", fields := [{ name := "go", low := 0, high := 0 }] }]

theorem onlyReset_sized : onlyReset.Sized where
  arrays := nofun
  registers := by
    intro r hr
    rw [List.mem_singleton.1 hr]
    unfold Register.Proper
    decide

/-- A peripheral can be assembled although a member and a method of its
class have the same name. -/
theorem assemble_onlyReset_clash :
    ∃ assembly d' peripheral, assemble onlyReset { inner := "Dev" } {} = (.ok assembly, d')
      ∧ (onlyReset.mounts.map Mount.memberName).Nodup
      ∧ (∀ m ∈ onlyReset.mounts,
          m.memberName ≠ ({ inner := "Dev" } : Config).className onlyReset.name)
      ∧ Houses peripheral ["Antmicro", "Renode", "Peripherals", "Dev"] (d'.tree.shape assembly.root)
      ∧ ¬(memberNames peripheral).Nodup := by
  obtain ⟨assembly, d', -, -, hrun, -⟩ :=
    assemble_run (d := {}) Tree.mutual_empty onlyReset_sized { inner := "Dev" } (by decide)
  obtain ⟨peripheral, hhouses, hdeclared⟩ := declared_of_assemble Tree.mutual_empty hrun
  refine ⟨assembly, d', peripheral, hrun, by decide, by decide, hhouses, ?_⟩
  rw [hdeclared]
  decide

end Peripheral

end RegisterMap
