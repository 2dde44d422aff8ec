/-
What the table of reset values says after a merge. The table goes by the
names of types, and every single merge of a fold replaces the entries of
its two sides by one for its result, which the next merge replaces in
turn. So the names that pass through the folds of an address (`passing`)
have no entry once it is done, whatever register they had stood for. A
register that comes out has its reset value recorded if its name passes
through no such fold at the wrong time (`Displaced`), and none otherwise
(`Inventory.merge_resets`).
-/
import RegisterMap.Proofs.Register.Merging

namespace RegisterMap

namespace Register

/-- The name of the type of `first` and `others` merged. -/
def mergedTypeName (first : Register) (others : List Register) : String :=
  Text.pascalPath first.groups ("_".intercalate ((first :: others).map (·.name))) ++ "Type"

/-- The names of types that are replaced while registers are merged: those
of the registers after the first one, and those of the first ones taken
together, from the first one alone up to all but the last. -/
def passing : (parts : List Register) → List String
  | [] => []
  | first :: others =>
    others.map (·.typeName)
      ++ (List.range others.length).map fun k => mergedTypeName first (others.take k)

variable {a b m : Register} {others : List Register} {type : String}

theorem passing_alone (r : Register) : passing [r] = [] := rfl

/-- Merging two registers lets the names of both pass, and then whatever
passes while the result is merged with the others. -/
theorem mem_passing_cons (h : a.merge b = .ok m) :
    type ∈ passing (a :: b :: others)
      ↔ type = a.typeName ∨ type = b.typeName ∨ type ∈ passing (m :: others) := by
  have hlater : ∀ l, mergedTypeName a (b :: l) = mergedTypeName m l := by
    intro l
    obtain ⟨fields, -, rfl⟩ := merge_eq_ok h
    rfl
  have hfirst : mergedTypeName a [] = a.typeName := rfl
  simp only [passing, List.length_cons, List.range_succ_eq_map, List.map_cons, List.map_map,
    List.mem_append, List.mem_cons, List.take_zero, hfirst, Function.comp_def,
    List.take_succ_cons, hlater]
  tauto

end Register

namespace Inventory

variable {a merged : Register} {others : List Register} {table table' : ResetTable} {type : String}

/-- Folding the registers of an address leaves no entry for what passes,
but one for the result. -/
theorem Folds.find? (h : Folds a table others merged table') {value : Nat}
    (hvalue : merged.resetValue = .ok value) (hmore : others ≠ []) (type : String) :
    table'.find? type = if type = merged.typeName then some value
      else if type ∈ Register.passing (a :: others) then none else table.find? type := by
  induction h with
  | done a table => exact absurd rfl hmore
  | @more a b m merged table table' others own hmerge hown hrest ih =>
    have hinserted : ∀ type, type ≠ m.typeName →
        (((table.erase a.typeName).erase b.typeName).insert m.typeName own).find? type
          = if type = a.typeName ∨ type = b.typeName then none else table.find? type := by
      intro type hm
      rw [ResetTable.find?_insert_of_ne hm]
      by_cases hb : type = b.typeName
      · simp [hb]
      · rw [ResetTable.find?_erase_of_ne hb]
        by_cases ha : type = a.typeName
        · simp [ha]
        · simp [ResetTable.find?_erase_of_ne ha, ha, hb]
    simp only [Register.mem_passing_cons hmerge]
    cases others with
    | nil =>
      cases hrest
      obtain rfl := Except.ok.inj (hown.symm.trans hvalue)
      by_cases hm : type = m.typeName
      · simp [hm]
      · simp [hm, hinserted type hm, Register.passing_alone]
    | cons c others =>
      rw [ih hvalue (List.cons_ne_nil _ _)]
      by_cases hout : type = merged.typeName
      · simp [hout]
      · rw [if_neg hout, if_neg hout]
        by_cases hpass : type ∈ Register.passing (m :: c :: others)
        · simp [hpass]
        · have hm : type ≠ m.typeName := by
            rintro rfl
            refine hpass ?_
            unfold Register.passing
            refine List.mem_append_right _ (List.mem_map.2 ⟨0, by simp, rfl⟩)
          simp [hpass, hinserted type hm]

/-- The reset value of what several registers are merged into is known. -/
theorem Folds.resetValue_run (h : Folds a table others merged table') (hmore : others ≠ []) :
    ∃ value, merged.resetValue = .ok value := by
  induction h with
  | done a table => exact absurd rfl hmore
  | @more a b m merged table table' others own hmerge hown hrest ih =>
    cases others with
    | nil =>
      cases hrest
      exact ⟨own, hown⟩
    | cons c others => exact ih (List.cons_ne_nil _ _)

variable {inputs outputs : List Register} {addresses : List Nat} {groups : List Cohabitants}
  {r : Register}

/-- An entry that no merged register has the name of is gone once the name
passes, and is kept otherwise. -/
theorem FoldsEach.find? (h : FoldsEach table groups outputs table')
    (hgroups : List.Forall₂ (Houses inputs) addresses groups)
    (type : String)
    (halone : ∀ q ∈ outputs, q.typeName = type → residents inputs q.address = [q]) :
    table'.find? type
      = if ∃ q ∈ outputs, type ∈ Register.passing (residents inputs q.address) then none
        else table.find? type := by
  induction h generalizing addresses with
  | done table => simp
  | @more first merged others outputs groups table table₁ table' hfolds _ ih =>
    cases hgroups with
    | @cons address _ addresses _ hhere hgroups =>
      obtain ⟨hhead, halone⟩ := List.forall_mem_cons.1 halone
      have hparts : residents inputs merged.address = first :: others := by
        rw [hfolds.heading.2.2.1, hhere.address_eq]
        exact hhere.symm
      have hfirst : table₁.find? type = if type ∈ Register.passing (first :: others) then none
          else table.find? type := by
        cases others with
        | nil =>
          cases hfolds
          rfl
        | cons b others =>
          obtain ⟨value, hvalue⟩ := hfolds.resetValue_run (List.cons_ne_nil _ _)
          have hother : type ≠ merged.typeName := by
            rintro rfl
            rw [hparts] at hhead
            cases hhead rfl
          rw [hfolds.find? hvalue (List.cons_ne_nil _ _), if_neg hother]
      rw [ih hgroups halone, hfirst]
      by_cases hrest : ∃ q ∈ outputs, type ∈ Register.passing (residents inputs q.address)
      · simp [hrest]
      · by_cases hpass : type ∈ Register.passing (first :: others) <;>
          simp [hparts, hpass, hrest]

/-- The entry of a merged register is gone once its name passes in a later
fold. -/
theorem FoldsEach.find?_merged (h : FoldsEach table groups outputs table')
    (hgroups : List.Forall₂ (Houses inputs) addresses groups)
    (hnames : (outputs.map (·.typeName)).Nodup) (hr : r ∈ outputs)
    (hmerged : residents inputs r.address ≠ [r]) :
    ∃ value, r.resetValue = .ok value
      ∧ table'.find? r.typeName
        = if ∃ q ∈ outputs, r.typeName ∈ Register.passing (residents inputs q.address)
            ∧ [r, q].Sublist outputs then none else some value := by
  induction h generalizing addresses with
  | done table => cases hr
  | @more first merged others outputs groups table table₁ table' hfolds hrest ih =>
    cases hgroups with
    | @cons address _ addresses _ hhere hgroups =>
      obtain ⟨hnew, hnames⟩ := List.nodup_cons.1 hnames
      rcases List.mem_cons.1 hr with rfl | hlater
      · have hmore : others ≠ [] := by
          rintro rfl
          cases hfolds
          refine hmerged ?_
          rw [hhere.address_eq]
          exact hhere.symm
        obtain ⟨value, hvalue⟩ := hfolds.resetValue_run hmore
        have hlast := hrest.find? hgroups r.typeName fun q hq hsame =>
          absurd (List.mem_map.2 ⟨q, hq, hsame⟩) hnew
        rw [hfolds.find? hvalue hmore, if_pos rfl] at hlast
        refine ⟨value, hvalue, hlast.trans (if_congr ⟨?_, ?_⟩ rfl rfl)⟩
        · rintro ⟨q, hq, hpass⟩
          exact ⟨q, List.mem_cons_of_mem _ hq, hpass,
            List.cons_sublist_cons.2 (List.singleton_sublist.2 hq)⟩
        · rintro ⟨q, -, hpass, hsub⟩
          exact ⟨q, List.singleton_sublist.1 (List.cons_sublist_cons.1 hsub), hpass⟩
      · have hother : r ≠ merged := by
          rintro rfl
          exact hnew (List.mem_map_of_mem hlater)
        obtain ⟨value, hvalue, hlast⟩ := ih hgroups hnames hlater
        refine ⟨value, hvalue, hlast.trans (if_congr ⟨?_, ?_⟩ rfl rfl)⟩
        · rintro ⟨q, hq, hpass, hsub⟩
          exact ⟨q, List.mem_cons_of_mem _ hq, hpass, hsub.cons _⟩
        · rintro ⟨q, -, hpass, hsub⟩
          rcases List.sublist_cons_iff.1 hsub with hsub | ⟨l, hl, -⟩
          · exact ⟨q, hsub.subset (by simp), hpass, hsub⟩
          · exact absurd (List.cons.inj hl).1 hother

/-- The name of the type of `r` passes in the fold of another address: at
any time where `r` is alone at its address, after its own fold where it is
merged. -/
def Displaced (inputs outputs : List Register) (r : Register) : Prop :=
  ∃ q ∈ outputs, r.typeName ∈ Register.passing (inputs.filter (·.address == q.address))
    ∧ (inputs.filter (·.address == r.address) = [r] ∨ [r, q].Sublist outputs)

instance (inputs outputs : List Register) (r : Register) : Decidable (Displaced inputs outputs r) := by
  unfold Displaced
  exact inferInstance

/-- Where the reset values of all registers are recorded and those that
come out of a merge have types with names of their own, a register has its
reset value recorded after the merge, unless it is displaced; then it has
none. -/
theorem merge_resets {inventory out : Inventory} {journal : Journal}
    (hresets : ∀ r ∈ inventory.registers, ∃ value, r.resetValue = .ok value
      ∧ inventory.resets.find? r.typeName = some value)
    (h : (inventory.merge journal).1 = .ok out)
    (hnames : (out.registers.map (·.typeName)).Nodup) :
    ∀ r ∈ out.registers, ∃ value, r.resetValue = .ok value
      ∧ (¬Displaced inventory.registers out.registers r → out.resetOf r = value)
      ∧ (Displaced inventory.registers out.registers r → out.resetOf r = 0) := by
  intro r hr
  have hfolds := foldsEach_of_merge h
  have hgroups := byAddress_houses inventory.registers
  suffices hfind : ∃ value, r.resetValue = .ok value ∧ out.resets.find? r.typeName
      = if Displaced inventory.registers out.registers r then none else some value by
    obtain ⟨value, hvalue, hfind⟩ := hfind
    refine ⟨value, hvalue, fun hkept => ?_, fun hgone => ?_⟩
    · simp [resetOf, hfind, hkept]
    · simp [resetOf, hfind, hgone]
  by_cases halone : residents inventory.registers r.address = [r]
  · have hin : r ∈ residents inventory.registers r.address := halone ▸ List.mem_singleton_self r
    obtain ⟨value, hvalue, hrecorded⟩ := hresets r (List.mem_filter.1 hin).1
    have hlast := hfolds.find? hgroups r.typeName fun q hq hsame => by
      rw [List.inj_on_of_nodup_map hnames hq hr hsame]
      exact halone
    rw [hrecorded] at hlast
    refine ⟨value, hvalue, hlast.trans (if_congr ⟨?_, ?_⟩ rfl rfl)⟩
    · rintro ⟨q, hq, hpass⟩
      exact ⟨q, hq, hpass, Or.inl halone⟩
    · rintro ⟨q, hq, hpass, -⟩
      exact ⟨q, hq, hpass⟩
  · obtain ⟨value, hvalue, hlast⟩ := hfolds.find?_merged hgroups hnames hr halone
    refine ⟨value, hvalue, hlast.trans (if_congr ⟨?_, ?_⟩ rfl rfl)⟩
    · rintro ⟨q, hq, hpass, hsub⟩
      exact ⟨q, hq, hpass, Or.inr hsub⟩
    · rintro ⟨q, hq, hpass, hsub⟩
      exact ⟨q, hq, hpass, hsub.resolve_left halone⟩

/-- Three registers of one address, the first two of which are called
together like a register elsewhere. -/
def namesake : Inventory where
  name := "dev"
  registers := [
    { name := "a", fields := [{ name := "x", low := 0, high := 0, reset := 1 }] },
    { name := "b", fields := [{ name := "y", low := 1, high := 1 }] },
    { name := "c", fields := [{ name := "z", low := 2, high := 2 }] },
    { name := "a_b", address := 4, fields := [{ name := "w", low := 0, high := 7, reset := 5 }] }]
  resets := [("AType", 1), ("BType", 0), ("CType", 0), ("ABType", 5)]

/-- What merging makes of it: the register called like the first two has no
reset value any more. -/
def namesakeMerged : Inventory where
  name := "dev"
  registers := [
    { name := "a_b_c", fields := [{ name := "x", low := 0, high := 0, reset := 1 },
      { name := "y", low := 1, high := 1 }, { name := "z", low := 2, high := 2 }] },
    { name := "a_b", address := 4, fields := [{ name := "w", low := 0, high := 7, reset := 5 }] }]
  resets := [("ABCType", 1)]

theorem namesake_recorded : ∀ r ∈ namesake.registers, ∃ value, r.resetValue = .ok value
    ∧ namesake.resets.find? r.typeName = some value := by
  intro r hr
  simp only [namesake, List.mem_cons, List.not_mem_nil, or_false] at hr
  rcases hr with rfl | rfl | rfl | rfl
  · exact ⟨1, by decide, by decide⟩
  · exact ⟨0, by decide, by decide⟩
  · exact ⟨0, by decide, by decide⟩
  · exact ⟨5, by decide, by decide⟩

theorem namesake_merges : (namesake.merge #[]).1 = .ok namesakeMerged := by
  have hfolds : FoldsEach namesake.resets (byAddress namesake.registers)
      namesakeMerged.registers namesakeMerged.resets :=
    .more (.more (Register.merge_of_sorted rfl (by decide)) rfl
      (.more (Register.merge_of_sorted rfl (by decide)) rfl (.done ..)))
      (.more (.done ..) (.done ..))
  exact merge_of_foldsEach hfolds #[]

theorem merge_resets_namesake :
    (namesakeMerged.registers.map (·.typeName)).Nodup
      ∧ ∀ r ∈ namesakeMerged.registers, ∃ value, r.resetValue = .ok value
        ∧ namesakeMerged.resetOf r = if r.name = "a_b" then 0 else value := by
  have hnames : (namesakeMerged.registers.map (·.typeName)).Nodup := by decide
  refine ⟨hnames, fun r hr => ?_⟩
  obtain ⟨value, hvalue, hkept, hgone⟩ :=
    merge_resets namesake_recorded namesake_merges hnames r hr
  refine ⟨value, hvalue, ?_⟩
  simp only [namesakeMerged, List.mem_cons, List.not_mem_nil, or_false] at hr
  rcases hr with rfl | rfl
  · exact hkept (by decide)
  · exact hgone (by decide)

/-- The reset value of a register that is not merged itself can be lost. -/
theorem merge_forgets : ¬∀ (inventory out : Inventory) (journal : Journal),
    (inventory.registers.map (·.typeName)).Nodup →
    (∀ r ∈ inventory.registers, ∃ value, r.resetValue = .ok value
      ∧ inventory.resets.find? r.typeName = some value) →
    (inventory.merge journal).1 = .ok out → (out.registers.map (·.typeName)).Nodup →
    ∀ r ∈ out.registers, r.resetValue = .ok (out.resetOf r) := by
  intro h
  have hlost := h namesake namesakeMerged #[] (by decide) namesake_recorded namesake_merges
    (by decide) _ (List.mem_cons_of_mem _ (List.mem_singleton_self _))
  exact absurd hlost (by decide)

end Inventory

end RegisterMap
