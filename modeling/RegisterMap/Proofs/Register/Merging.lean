/-
What merging makes of an inventory (`Inventory.merge_outcome`). The
registers are first sorted out by address (`byAddress_houses`), then those
of one address are folded into the first of them. A run of that fold is
told as a relation that has one constructor for no register left and one
for one register more (`Folds`); what a merged register has in common with
its parts is proved by induction on it, from what one merge does.
-/
import Mathlib.Data.List.Forall2
import Mathlib.Data.List.Induction
import Mathlib.Data.List.Nodup
import RegisterMap.Proofs.Register.Pairing

namespace RegisterMap

-- ============================================================ by address

theorem eraseDups_concat {α : Type} [BEq α] [LawfulBEq α] [DecidableEq α] (l : List α) (a : α) :
    (l ++ [a]).eraseDups = if a ∈ l.eraseDups then l.eraseDups else l.eraseDups ++ [a] := by
  rw [List.eraseDups_append]
  by_cases ha : a ∈ l <;> simp [List.removeAll, List.mem_eraseDups, List.eraseDups_cons, ha]

theorem nodup_eraseDups {α : Type} [BEq α] [LawfulBEq α] [DecidableEq α] (l : List α) :
    l.eraseDups.Nodup := by
  induction l using List.reverseRecOn with
  | nil => exact List.nodup_nil
  | append_singleton l a ih =>
    rw [eraseDups_concat]
    by_cases ha : a ∈ l.eraseDups
    · rwa [if_pos ha]
    · rw [if_neg ha]
      refine List.nodup_append.2 ⟨ih, List.nodup_singleton a, fun b hb c hc hbc => ha ?_⟩
      rwa [← List.mem_singleton.1 hc, ← hbc]

namespace Inventory

variable {registers : List Register} {address : Nat} {addresses : List Nat} {r : Register}
  {groups : List Cohabitants}

/-- The registers at an address, in order. -/
def residents (registers : List Register) (address : Nat) : List Register :=
  registers.filter (·.address == address)

/-- The group has the registers of the address. -/
def Houses (registers : List Register) (address : Nat) (group : Cohabitants) : Prop :=
  group.1 :: group.2 = residents registers address

theorem residents_concat :
    residents (registers ++ [r]) address
      = residents registers address ++ if r.address = address then [r] else [] := by
  unfold residents
  rw [List.filter_append]
  by_cases h : r.address = address <;> simp [h]

theorem Houses.address_eq {group : Cohabitants} (h : Houses registers address group) :
    group.1.address = address := by
  have hfirst : group.1 ∈ residents registers address := h ▸ List.mem_cons_self ..
  simpa using (List.mem_filter.1 hfirst).2

/-- A register elsewhere leaves a group as it is. -/
theorem Houses.elsewhere {group : Cohabitants} (h : Houses registers address group)
    (hr : r.address ≠ address) : Houses (registers ++ [r]) address group := by
  unfold Houses
  rw [residents_concat, if_neg hr, List.append_nil]
  exact h

theorem houses_elsewhere (h : List.Forall₂ (Houses registers) addresses groups)
    (hr : r.address ∉ addresses) : List.Forall₂ (Houses (registers ++ [r])) addresses groups := by
  induction h with
  | nil => exact .nil
  | cons hgroup _ ih =>
    obtain ⟨hhere, hrest⟩ := not_or.1 fun h => hr (List.mem_cons.2 h)
    exact .cons (hgroup.elsewhere hhere) (ih hrest)

/-- One more register joins the group of its address, or starts one. -/
theorem settle_houses (h : List.Forall₂ (Houses registers) addresses groups)
    (hnodup : addresses.Nodup) (hnew : r.address ∉ addresses → residents registers r.address = []) :
    List.Forall₂ (Houses (registers ++ [r]))
      (if r.address ∈ addresses then addresses else addresses ++ [r.address]) (settle groups r) := by
  induction h with
  | nil =>
    refine .cons ?_ .nil
    unfold Houses
    rw [residents_concat, hnew List.not_mem_nil, if_pos rfl]
    rfl
  | @cons address group addresses groups hgroup hrest ih =>
    obtain ⟨hfresh, hnodup⟩ := List.nodup_cons.1 hnodup
    have haddress := hgroup.address_eq
    by_cases hsame : r.address = address
    · have hin : r.address ∈ address :: addresses := hsame ▸ List.mem_cons_self ..
      rw [if_pos hin]
      unfold settle
      rw [if_pos (haddress.trans hsame.symm)]
      refine .cons ?_ (houses_elsewhere hrest (hsame ▸ hfresh))
      unfold Houses
      rw [residents_concat, if_pos hsame, ← hgroup]
      rfl
    · have hsettle : settle (group :: groups) r = group :: settle groups r :=
        if_neg fun h => hsame (h.symm.trans haddress)
      have hlists : (if r.address ∈ address :: addresses then address :: addresses
            else address :: addresses ++ [r.address])
          = address :: if r.address ∈ addresses then addresses else addresses ++ [r.address] := by
        by_cases hin : r.address ∈ addresses <;> simp [hin, hsame]
      rw [hsettle, hlists]
      refine .cons (hgroup.elsewhere hsame) (ih hnodup fun hout => hnew ?_)
      simp [hsame, hout]

/-- The groups are those of the addresses, in the order in which these
appear. -/
theorem byAddress_houses (registers : List Register) :
    List.Forall₂ (Houses registers) (registers.map (·.address)).eraseDups (byAddress registers) := by
  induction registers using List.reverseRecOn with
  | nil => exact .nil
  | append_singleton registers r ih =>
    have hrun : byAddress (registers ++ [r]) = settle (byAddress registers) r := by
      unfold byAddress
      rw [List.foldl_append]
      rfl
    rw [hrun, List.map_append, List.map_singleton, eraseDups_concat]
    refine settle_houses ih (nodup_eraseDups _) fun hout => ?_
    refine List.filter_eq_nil_iff.2 fun k hk hsame => hout ?_
    rw [List.mem_eraseDups, ← beq_iff_eq.1 hsame]
    exact List.mem_map_of_mem hk

end Inventory

-- ============================================================= one merge

namespace Register

variable {a b m : Register}

/-- The fields of two registers are folded together and put in order. -/
theorem merge_eq_ok (h : a.merge b = .ok m) :
    ∃ fields, b.fields.foldlM (addField a b) a.fields = .ok fields
      ∧ m = {
        name := a.name ++ "_" ++ b.name
        groups := a.groups
        address := a.address
        width := max a.width b.width
        fields := fields.mergeSort fun f g => f.low ≤ g.low } := by
  obtain ⟨fields, hfields, hm⟩ := bind_eq_ok_iff.1 h
  exact ⟨fields, hfields, (Except.ok.inj hm).symm⟩

/-- The fields folded together, in another order, are those of the merge. -/
theorem merge_fields (h : a.merge b = .ok m) :
    ∃ fields, b.fields.foldlM (addField a b) a.fields = .ok fields ∧ fields.Perm m.fields := by
  obtain ⟨fields, hfields, rfl⟩ := merge_eq_ok h
  exact ⟨fields, hfields, (List.mergeSort_perm ..).symm⟩

/-- Fields that are folded together in order stay as they are. -/
theorem merge_of_sorted {fields : List Field}
    (h : b.fields.foldlM (addField a b) a.fields = .ok fields)
    (hsorted : fields.Pairwise fun f g => f.low ≤ g.low) : a.merge b = .ok {
      name := a.name ++ "_" ++ b.name
      groups := a.groups
      address := a.address
      width := max a.width b.width
      fields } := by
  refine bind_eq_ok_iff.2 ⟨fields, h, ?_⟩
  rw [List.mergeSort_of_pairwise (hsorted.imp fun hle => decide_eq_true hle)]
  rfl

theorem merge_sorted (h : a.merge b = .ok m) : m.fields.Pairwise fun f g => f.low ≤ g.low := by
  obtain ⟨fields, -, rfl⟩ := merge_eq_ok h
  have hsorted : (fields.mergeSort fun f g => f.low ≤ g.low).Pairwise
      fun f g => decide (f.low ≤ g.low) = true := List.pairwise_mergeSort
    (fun f g k hfg hgk => by
      simp only [decide_eq_true_eq] at hfg hgk ⊢
      exact Nat.le_trans hfg hgk)
    (fun f g => by
      simp only [Bool.or_eq_true, decide_eq_true_eq]
      exact Nat.le_total ..) fields
  exact hsorted.imp fun hfg => by simpa using hfg

theorem merge_any {p : Field → Bool} (hp : Field.Shared p) (h : a.merge b = .ok m) :
    m.fields.any p = (a.fields.any p || b.fields.any p) := by
  obtain ⟨fields, hfields, hperm⟩ := merge_fields h
  rw [← hperm.any_eq, addFields_any hp hfields]

theorem merge_apart (h : a.merge b = .ok m) (ha : Apart a.fields) : Apart m.fields := by
  obtain ⟨fields, hfields, hperm⟩ := merge_fields h
  exact (addFields_apart hfields ha).perm hperm

theorem merge_measured (h : a.merge b = .ok m) (ha : a.Measured) (hb : b.Measured) :
    m.Measured := by
  obtain ⟨fields, hfields, hperm⟩ := merge_fields h
  intro f hf
  exact addFields_measured hfields ha hb f (hperm.mem_iff.2 hf)

theorem merge_accounted {first added : List Field} (h : a.merge b = .ok m) (hb : b.Measured)
    (ha : Accounted a.fields first added) : Accounted m.fields first (added ++ b.fields) := by
  obtain ⟨fields, hfields, hperm⟩ := merge_fields h
  exact (addFields_accounted hfields hb ha).perm hperm

end Register

-- ============================================================== one group

namespace Inventory

/-- Registers `others` are merged into `a` one after the other. Each merge
records the reset value of its result in place of those of its two sides. -/
inductive Folds : Register → ResetTable → List Register → Register → ResetTable → Prop where
  | done (a : Register) (table : ResetTable) : Folds a table [] a table
  | more {a b m merged : Register} {table table' : ResetTable} {others : List Register}
      {value : Nat} (hmerge : a.merge b = .ok m) (hvalue : m.resetValue = .ok value)
      (h : Folds m (((table.erase a.typeName).erase b.typeName).insert m.typeName value) others
        merged table') :
      Folds a table (b :: others) merged table'

variable {a merged : Register} {others : List Register} {table table' : ResetTable}
  {journal journal' : Journal}

/-- A run that merges the registers of one address folds them. -/
theorem folds_of_run
    (h : others.foldlM mergeTwo (a, table) journal = (.ok (merged, table'), journal')) :
    Folds a table others merged table' := by
  induction others generalizing a table journal with
  | nil =>
    cases h
    exact .done ..
  | cons b others ih =>
    rw [List.foldlM_cons] at h
    obtain ⟨state, journal₁, htwo, hrest⟩ := exists_of_run_bind h
    obtain ⟨m, _, hmerge, htwo⟩ := exists_of_run_bind htwo
    obtain ⟨value, _, hvalue, htwo⟩ := exists_of_run_bind htwo
    cases htwo
    exact .more (Prod.ext_iff.1 hmerge).1 (Prod.ext_iff.1 hvalue).1 (ih hrest)

/-- Registers that can be folded are merged by a run. -/
theorem run_of_folds (h : Folds a table others merged table') (journal : Journal) :
    ∃ journal', others.foldlM mergeTwo (a, table) journal = (.ok (merged, table'), journal') := by
  induction h generalizing journal with
  | done a table => exact ⟨journal, rfl⟩
  | @more a b m merged table table' others value hmerge hvalue _ ih =>
    have hquiet : Reporting.quiet (a.merge b) journal = (.ok m, journal) := by rw [hmerge]; rfl
    have hrecord : Reporting.quiet m.resetValue journal = (.ok value, journal) := by
      rw [hvalue]
      rfl
    have htwo : ∃ journal₁, mergeTwo (a, table) b journal
        = (.ok (m, ((table.erase a.typeName).erase b.typeName).insert m.typeName value),
          journal₁) := by
      unfold mergeTwo
      exact ⟨_, (run_bind hquiet).trans ((run_bind hrecord).trans rfl)⟩
    obtain ⟨journal₁, htwo⟩ := htwo
    rw [List.foldlM_cons, run_bind htwo]
    exact ih journal₁

namespace Folds

variable (h : Folds a table others merged table')

include h

/-- The name of the merged register is made of all names; it keeps the
groups and the address of the first one and has the largest width. -/
theorem heading :
    merged.name = "_".intercalate ((a :: others).map (·.name)) ∧ merged.groups = a.groups
      ∧ merged.address = a.address
      ∧ some merged.width = ((a :: others).map (·.width)).max? := by
  induction h with
  | done a table => exact ⟨rfl, rfl, rfl, rfl⟩
  | more hmerge _ _ ih =>
    obtain ⟨fields, -, rfl⟩ := Register.merge_eq_ok hmerge
    exact ih

theorem measured (ha : a.Measured) (hothers : ∀ r ∈ others, r.Measured) : merged.Measured := by
  induction h with
  | done a table => exact ha
  | more hmerge _ _ ih =>
    obtain ⟨hb, hothers⟩ := List.forall_mem_cons.1 hothers
    exact ih (Register.merge_measured hmerge ha hb) hothers

theorem apart (ha : Register.Apart a.fields) : Register.Apart merged.fields := by
  induction h with
  | done a table => exact ha
  | more hmerge _ _ ih => exact ih (Register.merge_apart hmerge ha)

theorem sorted (ha : others = [] → a.fields.Pairwise fun f g => f.low ≤ g.low) :
    merged.fields.Pairwise fun f g => f.low ≤ g.low := by
  induction h with
  | done a table => exact ha rfl
  | more hmerge _ _ ih => exact ih fun _ => Register.merge_sorted hmerge

theorem any_fields {p : Field → Bool} (hp : Field.Shared p) :
    merged.fields.any p = (a :: others).any fun r => r.fields.any p := by
  induction h with
  | done a table => simp
  | more hmerge _ _ ih =>
    rw [ih, List.any_cons, Register.merge_any hp hmerge, Bool.or_assoc]
    rfl

theorem accounted {first added : List Field} (hothers : ∀ r ∈ others, r.Measured)
    (ha : Register.Accounted a.fields first added) :
    Register.Accounted merged.fields first (added ++ others.flatMap (·.fields)) := by
  induction h generalizing added with
  | done a table => simpa using ha
  | @more a b m merged table table' others value hmerge _ _ ih =>
    obtain ⟨hb, hothers⟩ := List.forall_mem_cons.1 hothers
    rw [List.flatMap_cons, ← List.append_assoc]
    exact ih hothers (Register.merge_accounted hmerge hb ha)

end Folds

end Inventory

-- =========================================================== the outcome

namespace Register

/-- What one register gives, several others give together. -/
def Unites (mask : Register → Except Failure Nat) (parts : List Register) (whole : Register) :
    Prop :=
  ∃ masks, parts.mapM mask = .ok masks ∧ mask whole = .ok (union masks)

/-- The register is made of several at one address, `first` and `others`. -/
structure Combines (merged first : Register) (others : List Register) : Prop where
  name : merged.name = "_".intercalate ((first :: others).map (·.name))
  groups : merged.groups = first.groups
  address : merged.address = first.address
  width : some merged.width = ((first :: others).map (·.width)).max?
  sorted : merged.fields.Pairwise fun f g => f.low ≤ g.low
  readable : Unites readableMask (first :: others) merged
  writable : Unites writableMask (first :: others) merged
  readEffects : ∀ effect, Unites (·.readEffectMask effect) (first :: others) merged
  writeEffects : ∀ effect, Unites (·.writeEffectMask effect) (first :: others) merged
  resets : ∃ masks, (contributors first.fields (others.flatMap (·.fields))).mapM Field.resetMask
      = .ok masks ∧ merged.resetValue = .ok (union masks)

end Register

namespace Inventory

variable {a merged : Register} {others : List Register} {table table' : ResetTable}

/-- The bits that pairs share are those of all registers together. -/
theorem Folds.unites (h : Folds a table others merged table')
    (hm : ∀ r ∈ a :: others, r.Measured) {select : Field → Bool} (hs : Field.Shared select) :
    Register.Unites (·.maskOf select) (a :: others) merged := by
  obtain ⟨ha, hothers⟩ := List.forall_mem_cons.1 hm
  obtain ⟨mask, hmask, hbits⟩ := (h.measured ha hothers).maskOf_run select
  obtain ⟨masks, hmasks, hunion⟩ := Register.union_run fun r hr => (hm r hr).maskOf_run select
  refine ⟨masks, hmasks, hmask.trans (congrArg _ (Nat.eq_of_testBit_eq fun j => ?_))⟩
  rw [hbits, hunion, h.any_fields (hs.covers j)]

/-- Only what a field has been taken in for is missing from the reset
value. -/
theorem Folds.resets (h : Folds a table others merged table')
    (hm : ∀ r ∈ a :: others, r.Measured) :
    ∃ masks, (Register.contributors a.fields (others.flatMap (·.fields))).mapM Field.resetMask
        = .ok masks ∧ merged.resetValue = .ok (Register.union masks) := by
  obtain ⟨ha, hothers⟩ := List.forall_mem_cons.1 hm
  have haccounted := h.accounted hothers (Register.accounted_start a.fields)
  rw [List.nil_append] at haccounted
  have hmeasured : ∀ f ∈ Register.contributors a.fields (others.flatMap (·.fields)), f.Measured := by
    intro f hf
    rcases List.mem_append.1 hf with hf | hf
    · exact ha f (List.mem_filter.1 hf).1
    · obtain ⟨r, hr, hf⟩ := List.mem_flatMap.1 (List.mem_filter.1 hf).1
      exact hothers r hr f hf
  obtain ⟨masks, hmasks, hunion⟩ := Register.union_run fun f hf => (hmeasured f hf).resetMask_run
  obtain ⟨value, hvalue, hbits⟩ := (h.measured ha hothers).resetValue_run
  refine ⟨masks, hmasks, hvalue.trans (congrArg _ (Nat.eq_of_testBit_eq fun j => ?_))⟩
  rw [hbits, hunion, haccounted.resets]

/-- A merged register is made of those of its address. -/
theorem Folds.combines (h : Folds a table others merged table')
    (hm : ∀ r ∈ a :: others, r.Measured) (hmore : others ≠ []) : merged.Combines a others where
  name := h.heading.1
  groups := h.heading.2.1
  address := h.heading.2.2.1
  width := h.heading.2.2.2
  sorted := h.sorted fun hnone => absurd hnone hmore
  readable := h.unites hm Field.shared_readable
  writable := h.unites hm Field.shared_plainWritable
  readEffects := fun effect => h.unites hm (Field.shared_readEffect effect)
  writeEffects := fun effect => h.unites hm (Field.shared_writeEffect effect)
  resets := h.resets hm

/-- The groups of an inventory are folded one after the other. -/
inductive FoldsEach : ResetTable → List Cohabitants → List Register → ResetTable → Prop where
  | done (table : ResetTable) : FoldsEach table [] [] table
  | more {first merged : Register} {others registers : List Register} {groups : List Cohabitants}
      {table table₁ table' : ResetTable} (h : Folds first table others merged table₁)
      (hrest : FoldsEach table₁ groups registers table') :
      FoldsEach table ((first, others) :: groups) (merged :: registers) table'

theorem foldsEach_of_run {groups : List Cohabitants} {registers : List Register}
    {journal journal' : Journal}
    (h : mergeEach table groups journal = (.ok (registers, table'), journal')) :
    FoldsEach table groups registers table' := by
  induction groups generalizing table registers journal with
  | nil =>
    cases h
    exact .done _
  | cons group groups ih =>
    obtain ⟨⟨merged, table₁⟩, journal₁, hfold, hrest⟩ := exists_of_run_bind h
    obtain ⟨⟨registers, table₂⟩, journal₂, heach, hresult⟩ := exists_of_run_bind hrest
    cases hresult
    exact .more (folds_of_run hfold) (ih heach)

/-- A merge that succeeds has folded the registers of each address. -/
theorem foldsEach_of_merge {inventory out : Inventory} {journal : Journal}
    (h : (inventory.merge journal).1 = .ok out) :
    FoldsEach inventory.resets (byAddress inventory.registers) out.registers out.resets := by
  have hrun : inventory.merge journal = (.ok out, (inventory.merge journal).2) := Prod.ext h rfl
  obtain ⟨⟨registers, table⟩, journal₁, heach, hresult⟩ := exists_of_run_bind hrun
  cases hresult
  exact foldsEach_of_run heach

/-- A merge succeeds where the registers of each address can be folded. -/
theorem merge_of_foldsEach {inventory : Inventory} {registers : List Register}
    (h : FoldsEach inventory.resets (byAddress inventory.registers) registers table')
    (journal : Journal) :
    (inventory.merge journal).1 = .ok { inventory with registers, resets := table' } := by
  have heach : ∃ journal', mergeEach inventory.resets (byAddress inventory.registers) journal
      = (.ok (registers, table'), journal') := by
    generalize inventory.resets = table, byAddress inventory.registers = groups at h
    induction h generalizing journal with
    | done => exact ⟨journal, rfl⟩
    | more hfolds _ ih =>
      obtain ⟨journal₁, hrun⟩ := run_of_folds hfolds journal
      obtain ⟨journal₂, heach⟩ := ih journal₁
      exact ⟨journal₂, (run_bind hrun).trans ((run_bind heach).trans rfl)⟩
  obtain ⟨journal', heach⟩ := heach
  exact congrArg Prod.fst (run_bind heach)

/-- Every register that comes out is folded from the registers of its
address. -/
theorem FoldsEach.folded {groups : List Cohabitants} {inputs outputs : List Register}
    {addresses : List Nat} (h : FoldsEach table groups outputs table')
    (hgroups : List.Forall₂ (Houses inputs) addresses groups) :
    outputs.map (·.address) = addresses ∧ ∀ r ∈ outputs, ∃ first others before after,
      first :: others = residents inputs r.address ∧ Folds first before others r after := by
  induction h generalizing addresses with
  | done table =>
    cases hgroups
    exact ⟨rfl, fun r hr => nomatch hr⟩
  | @more first merged others outputs groups table table₁ table' hfolds _ ih =>
    cases hgroups with
    | @cons address _ addresses _ hhere hgroups =>
      obtain ⟨haddresses, hrest⟩ := ih hgroups
      have haddress : merged.address = address := hfolds.heading.2.2.1.trans hhere.address_eq
      refine ⟨by rw [List.map_cons, haddresses, haddress], fun r hr => ?_⟩
      rcases List.mem_cons.1 hr with rfl | hr
      · exact ⟨first, others, _, _, haddress ▸ hhere, hfolds⟩
      · exact hrest r hr

/-- Merging leaves one register for every address, in the order in which
the addresses appear. A register alone at its address stays as it is, one
that is made of several combines them. Where the fields of no register
share bits, those of no merged one do. -/
theorem merge_outcome {inventory out : Inventory} {journal : Journal}
    (hm : ∀ r ∈ inventory.registers, r.Measured) (h : (inventory.merge journal).1 = .ok out) :
    out.registers.map (·.address) = (inventory.registers.map (·.address)).eraseDups
      ∧ (out.registers.map (·.address)).Nodup
      ∧ (∀ r ∈ out.registers, ∃ first others,
        inventory.registers.filter (·.address == r.address) = first :: others
          ∧ (others = [] → r = first) ∧ (others ≠ [] → r.Combines first others))
      ∧ ((∀ r ∈ inventory.registers, Register.Apart r.fields) →
        ∀ r ∈ out.registers, Register.Apart r.fields) := by
  obtain ⟨haddresses, hfolded⟩ :=
    (foldsEach_of_merge h).folded (byAddress_houses inventory.registers)
  refine ⟨haddresses, haddresses ▸ nodup_eraseDups _, fun r hr => ?_, fun hapart r hr => ?_⟩
  · obtain ⟨first, others, before, after, hparts, hfolds⟩ := hfolded r hr
    refine ⟨first, others, hparts.symm, ?_, fun hmore => ?_⟩
    · rintro rfl
      cases hfolds
      rfl
    · refine hfolds.combines (fun k hk => hm k ?_) hmore
      rw [hparts] at hk
      exact (List.mem_filter.1 hk).1
  · obtain ⟨first, others, before, after, hparts, hfolds⟩ := hfolded r hr
    refine hfolds.apart (hapart first ?_)
    have hfirst : first ∈ residents inventory.registers r.address := hparts ▸ List.mem_cons_self ..
    exact (List.mem_filter.1 hfirst).1

/-- A read-only field, the command written at its bits, and a register
elsewhere. -/
def statusAndCommand : Inventory where
  name := "dev"
  registers := [
    { name := "st", address := 4, width := 16, fields := [
      { name := "lo", low := 0, high := 3, writable := false, reset := 5, onRead := some .rclr }] },
    { name := "ctl", fields := [{ name := "en", low := 0, high := 0 }] },
    { name := "cmd", address := 4, fields := [
      { name := "hi", low := 8, high := 15, reset := 7 },
      { name := "go", low := 0, high := 3, readable := false, reset := 3 }] }]

theorem merge_outcome_statusAndCommand :
    (∀ r ∈ statusAndCommand.registers, r.Measured)
      ∧ ∃ out, (statusAndCommand.merge #[]).1 = .ok out ∧ out.registers.map (·.address) = [4, 0]
        ∧ ∀ r ∈ out.registers, r.address = 4 → r.name = "st_cmd" ∧ r.width = 32
          ∧ r.writableMask = .ok 0xff0f ∧ r.resetValue = .ok 0x705 := by
  have hm : ∀ r ∈ statusAndCommand.registers, r.Measured := by decide
  have hfolds : ∃ registers table, FoldsEach statusAndCommand.resets
      (byAddress statusAndCommand.registers) registers table :=
    ⟨_, _, .more (.more (Register.merge_of_sorted rfl (by decide)) rfl (.done ..))
      (.more (.done ..) (.done ..))⟩
  obtain ⟨registers, table, hfolds⟩ := hfolds
  have hrun := merge_of_foldsEach hfolds #[]
  obtain ⟨haddresses, -, hmade, -⟩ := merge_outcome hm hrun
  refine ⟨hm, _, hrun, haddresses.trans (by decide), fun r hr haddress => ?_⟩
  obtain ⟨first, others, hparts, -, hcombines⟩ := hmade r hr
  rw [haddress] at hparts
  cases hparts
  have h := hcombines (by decide)
  obtain ⟨masks, hmasks, hwritable⟩ := h.writable
  obtain ⟨parts, hparts, hresets⟩ := h.resets
  cases hmasks
  cases hparts
  exact ⟨h.name.trans (by decide), Option.some.inj h.width, hwritable, hresets⟩

end Inventory

end RegisterMap
