/-
Fields that are too wide. A class with such a field cannot be built, and
neither can a peripheral that needs the class: the action stops at the
first of these fields (`peripheralClass_stops`). What comes before it has
classes that are built, so nothing else goes wrong, and the reason that is
given is a field of the inventory (`Field.TooWide`).
-/
import RegisterMap.Proofs.Peripheral.PeripheralCode

namespace RegisterMap

open Code

/-- An edit of the tree of a draft stops where the edit does. -/
theorem ofEdit_stops {α : Type} {e : Edit α} {t : Tree} {journal : Journal}
    {reason : Failure → Prop} (h : Stops e t reason) :
    Stops (Drafting.ofEdit e) ⟨t, journal⟩ reason := h

-- =============================================================== fields

namespace Field

variable {f : Field} {fields fields' : List Field} {e : Failure}

/-- One of the fields is given as too wide, with its width. -/
def TooWide (fields : List Field) (e : Failure) : Prop :=
  ∃ f ∈ fields, 64 < f.high - f.low + 1
    ∧ e = .refused (.fieldTooWide f.name (f.high - f.low + 1))

theorem TooWide.mono (h : ∀ f ∈ fields, f ∈ fields') (he : TooWide fields e) :
    TooWide fields' e := by
  obtain ⟨f, hf, hwide, rfl⟩ := he
  exact ⟨f, h f hf, hwide, rfl⟩

theorem Measured.wide (h : f.Measured) (hf : ¬f.Proper) : 64 < f.high - f.low + 1 :=
  Nat.lt_of_not_le fun hle => hf ⟨h.ordered, hle⟩

theorem exists_improper {r : Register} (h : ¬r.Proper) : ∃ f ∈ r.fields, ¬f.Proper := by
  simpa [Register.Proper] using h

end Field

namespace Peripheral

variable {t : Tree} {b : Buffer} {f : Field} {a : RegisterArray} {r : Register}
  {inventory : Inventory}

theorem storageType_wide (h : f.Measured) (hwide : 64 < f.high - f.low + 1) :
    storageType f = .error (.refused (.fieldTooWide f.name (f.high - f.low + 1))) := by
  have hbounded := h.bounded
  unfold storageType
  rw [Field.width_of_le h.ordered (by omega)]
  dsimp only [bind, Except.bind]
  rw [if_neg (by omega), if_neg (by omega), if_neg (by omega), if_neg (by omega), if_neg (by omega)]
  rfl

theorem fieldProperty_stops (h : f.Measured) (hf : ¬f.Proper) :
    Stops (fieldProperty b f) t (Field.TooWide [f]) := by
  have hwide := h.wide hf
  have htype : Stops (Edit.check (storageType f)) t (Field.TooWide [f]) := by
    rw [storageType_wide h hwide]
    exact ⟨_, rfl, f, List.mem_singleton_self f, hwide, rfl⟩
  exact htype.bind _

/-- The fields up to the first one that is too wide have their properties. -/
theorem fieldProperties_stops (hm : t.Mutual) (hb : b.Known t.Known)
    (h : ∀ f ∈ r.fields, f.Measured) (hr : ¬r.Proper) :
    Stops (fieldProperties b r.fields) t (Field.TooWide r.fields) :=
  mapM_stops (P := Field.Proper) (K := fun t => t.Mutual ∧ b.Known t.Known)
    (fun f _ hf t ⟨hm, hb⟩ => by
      obtain ⟨_, t', x, -, hrun, hy, -⟩ := fieldProperty_run hm hb hf
      exact ⟨x.tag, t', hrun, hy.stock.linked, hb.keep hy⟩)
    (fun f hmem hf t _ => (fieldProperty_stops (h f hmem) hf).imp fun _ =>
      Field.TooWide.mono (List.forall_mem_singleton.2 hmem))
    (Field.exists_improper hr) ⟨hm, hb⟩

-- =============================================================== classes

theorem elementClass_stops (hm : t.Mutual) (h : ∀ f ∈ a.register.fields, f.Measured)
    (ha : ¬a.register.Proper) : Stops (elementClass a) t (Field.TooWide a.register.fields) := by
  obtain ⟨_, t₁, start, hstart, hy₁, hd₁, -⟩ := Sketch.plant_variable hm "spanBegin" .long
    (some .priv) (rfl : Sketch.usesOption none = []) fun _ => trivial
  obtain ⟨t₂, mem, hmem, hy₂, hd₂, -⟩ := memoryDecl_run hy₁.stock.linked
  have hknown : Buffer.Known t₂.Known { memory := mem.tag, start := some start.tag } :=
    ⟨hd₂.known, fun d hd => Option.some.inj hd ▸ (hd₁.keep hy₂).known⟩
  exact stops_after hstart (stops_after hmem
    ((fieldProperties_stops hy₂.stock.linked hknown h ha).bind _))

theorem arrayMember_stops (hm : t.Mutual) (h : ∀ f ∈ a.register.fields, f.Measured)
    (ha : ¬a.register.Proper) : Stops (arrayMember a) t (Field.TooWide a.register.fields) :=
  ((elementClass_stops hm h ha).bind _).bind _

theorem holderClass_stops (hm : t.Mutual) (h : ∀ f ∈ r.fields, f.Measured) (hr : ¬r.Proper)
    (reset : Nat) : Stops (holderClass r reset) t (Field.TooWide r.fields) := by
  obtain ⟨t₁, mem, hmem, hy₁, hd₁, -⟩ := memoryDecl_run hm
  have hknown : Buffer.Known t₁.Known { memory := mem.tag } :=
    ⟨hd₁.known, fun _ hs => nomatch hs⟩
  exact stops_after hmem ((fieldProperties_stops hy₁.stock.linked hknown h hr).bind _)

theorem registerMember_stops {d : Draft} (hm : d.tree.Mutual) (h : ∀ f ∈ r.fields, f.Measured)
    (hr : ¬r.Proper) (reset : Nat) :
    Stops (registerMember r reset) d (Field.TooWide r.fields) := by
  refine Stops.bind ?_ _
  unfold registerClass
  have hclass : ∀ journal, Stops (Drafting.ofEdit (holderClass r reset)) ⟨d.tree, journal⟩
      (Field.TooWide r.fields) := fun _ => ofEdit_stops (holderClass_stops hm h hr reset)
  dsimp only
  split
  · exact stops_after (Drafting.note_run ..) (hclass _)
  · exact hclass d.journal

end Peripheral

-- =========================================================== inventories

namespace Inventory

variable {inventory : Inventory}

/-- All fields, in the order in which their properties are built. -/
def fields (inventory : Inventory) : List Field :=
  inventory.arrays.flatMap (·.register.fields) ++ inventory.registers.flatMap (·.fields)

/-- The width of every field can be told, and the end of every array is an
address, with room for a mask behind it. -/
structure Measured (inventory : Inventory) : Prop where
  fields : ∀ f ∈ inventory.fields, f.Measured
  arrays : ∀ a ∈ inventory.arrays, a.count * a.stride + 16 < 2 ^ 64

instance (inventory : Inventory) : Decidable inventory.Measured :=
  decidable_of_iff ((∀ f ∈ inventory.fields, f.Measured)
      ∧ ∀ a ∈ inventory.arrays, a.count * a.stride + 16 < 2 ^ 64)
    ⟨fun h => ⟨h.1, h.2⟩, fun h => ⟨h.1, h.2⟩⟩

theorem mem_fields_array {a : RegisterArray} (ha : a ∈ inventory.arrays) {f : Field}
    (hf : f ∈ a.register.fields) : f ∈ inventory.fields :=
  List.mem_append_left _ (List.mem_flatMap.2 ⟨a, ha, hf⟩)

theorem mem_fields_register {r : Register} (hr : r ∈ inventory.registers) {f : Field}
    (hf : f ∈ r.fields) : f ∈ inventory.fields :=
  List.mem_append_right _ (List.mem_flatMap.2 ⟨r, hr, hf⟩)

theorem Measured.addressable (h : inventory.Measured) {a : RegisterArray}
    (ha : a ∈ inventory.arrays) (hr : a.register.Proper) : a.Addressable :=
  ⟨hr, h.arrays a ha⟩

/-- Without a field that is too wide everything can be built. -/
theorem Measured.buildable (h : inventory.Measured)
    (hall : ∀ f ∈ inventory.fields, f.high - f.low + 1 ≤ 64) : inventory.Buildable where
  arrays := fun _ ha => h.addressable ha fun f hf =>
    have hmem := mem_fields_array ha hf
    ⟨(h.fields f hmem).ordered, hall f hmem⟩
  registers := fun _ hr f hf =>
    have hmem := mem_fields_register hr hf
    ⟨(h.fields f hmem).ordered, hall f hmem⟩

end Inventory

namespace Peripheral

variable {inventory : Inventory}

/-- With one, the class of the peripheral cannot be built: the class of an
array is missing, or that of a register. -/
theorem peripheralClass_stops {d : Draft} (hm : d.tree.Mutual) (h : inventory.Measured)
    (hwide : ∃ f ∈ inventory.fields, 64 < f.high - f.low + 1) (c : Config) :
    Stops (peripheralClass inventory c) d (Field.TooWide inventory.fields) := by
  have harray : ∀ a ∈ inventory.arrays, ¬a.register.Proper → ∀ t : Tree, t.Mutual →
      Stops (arrayMember a) t (Field.TooWide inventory.fields) := fun a ha hbad t hm =>
    (arrayMember_stops hm (fun f hf => h.fields f (Inventory.mem_fields_array ha hf)) hbad).imp
      fun _ => Field.TooWide.mono fun _ => Inventory.mem_fields_array ha
  have hregister : ∀ r ∈ inventory.registers, ¬r.Proper → ∀ d : Draft, d.tree.Mutual →
      Stops (registerMember r (inventory.resetOf r)) d (Field.TooWide inventory.fields) :=
    fun r hr hbad d hm => (registerMember_stops hm
      (fun f hf => h.fields f (Inventory.mem_fields_register hr hf)) hbad _).imp
      fun _ => Field.TooWide.mono fun _ => Inventory.mem_fields_register hr
  by_cases hall : ∀ a ∈ inventory.arrays, a.register.Proper
  · obtain ⟨t₁, bs, harrays, hy₁, -⟩ := arrayMembers_run inventory hm inventory.arrays
      fun a ha => (h.addressable ha (hall a ha)).sized
    refine stops_after (Drafting.ofEdit_run harrays) (Stops.bind (mapM_stops (P := Register.Proper)
      (K := fun d : Draft => d.tree.Mutual) (fun r _ hr d hm => ?_) hregister ?_
      hy₁.stock.linked) _)
    · obtain ⟨t', b, journal, hrun, hy, -⟩ := registerMember_run inventory hm hr d.journal
      exact ⟨_, _, hrun, hy.stock.linked⟩
    · -- the field that is too wide is not one of an array
      obtain ⟨f, hf, hwide⟩ := hwide
      rcases List.mem_append.1 hf with hf | hf
      · obtain ⟨a, ha, hf⟩ := List.mem_flatMap.1 hf
        have := (hall a ha f hf).narrow
        omega
      · obtain ⟨r, hr, hf⟩ := List.mem_flatMap.1 hf
        exact ⟨r, hr, fun hproper => by have := (hproper f hf).narrow; omega⟩
  · have hbad : ∃ a ∈ inventory.arrays, ¬a.register.Proper := by simpa using hall
    refine Stops.bind (ofEdit_stops (mapM_stops (P := fun a => a.register.Proper)
      (K := Tree.Mutual) (fun a ha hr t hm => ?_) harray hbad hm)) _
    obtain ⟨t', b, hrun, hy, -⟩ := arrayMember_run inventory hm (h.addressable ha hr).sized
    exact ⟨_, t', hrun, hy.stock.linked⟩

end Peripheral

end RegisterMap
