/-
The bits of the masks of a register. A mask of a field has the bits the
field covers, its part of the reset value those of them that reset to
one, and what several fields give together the bits that one of them
gives (`union_run`). Nothing of this is refused where the width of every
field can be told; for access through properties a field has one to 64
bits.
-/
import Mathlib.Data.Nat.Bitwise
import RegisterMap.Register.Basic

namespace RegisterMap

namespace Field

/-- The width of the field can be told. -/
structure Measured (f : Field) : Prop where
  ordered : f.low ≤ f.high
  bounded : f.high - f.low < 2 ^ 32 - 1

instance (f : Field) : Decidable f.Measured :=
  decidable_of_iff (f.low ≤ f.high ∧ f.high - f.low < 2 ^ 32 - 1)
    ⟨fun h => ⟨h.1, h.2⟩, fun h => ⟨h.1, h.2⟩⟩

/-- A field of one to 64 bits. -/
structure Proper (f : Field) : Prop where
  ordered : f.low ≤ f.high
  narrow : f.high - f.low < 64

instance (f : Field) : Decidable f.Proper :=
  decidable_of_iff (f.low ≤ f.high ∧ f.high - f.low < 64)
    ⟨fun h => ⟨h.1, h.2⟩, fun h => ⟨h.1, h.2⟩⟩

/-- The bit belongs to the field. -/
def covers (f : Field) (j : Nat) : Bool := f.low ≤ j && j ≤ f.high

/-- The bit belongs to the field and resets to one. -/
def resets (f : Field) (j : Nat) : Bool := f.covers j && f.reset.testBit (j - f.low)

variable {f g : Field}

theorem Proper.measured (h : f.Proper) : f.Measured := by
  have hnarrow := h.narrow
  exact ⟨h.ordered, by omega⟩

theorem Measured.width_eq (h : f.Measured) : f.width = .ok (f.high - f.low + 1) := by
  have hbounded := h.bounded
  exact width_of_le h.ordered (by omega)

theorem Proper.width_eq (h : f.Proper) : f.width = .ok (f.high - f.low + 1) :=
  h.measured.width_eq

theorem testBit_placed (value position : Nat) (j : Nat) :
    (placed value position).testBit j
      = (decide (j < maskBits) && (decide (position ≤ j) && value.testBit (j - position))) := by
  rw [placed_eq, Nat.testBit_mod_two_pow, Nat.testBit_shiftLeft]

theorem Measured.valueMask_eq (h : f.Measured) :
    f.valueMask = .ok (2 ^ min (f.high - f.low + 1) maskBits - 1) := by
  unfold valueMask
  rw [h.width_eq]
  rfl

/-- The mask of a field has the bits of the field. -/
theorem Measured.mask_run (h : f.Measured) :
    ∃ m, f.mask = .ok m ∧ ∀ j, m.testBit j = (decide (j < maskBits) && f.covers j) := by
  have hordered := h.ordered
  refine ⟨placed (2 ^ min (f.high - f.low + 1) maskBits - 1) f.low, ?_, fun j => ?_⟩
  · unfold mask
    rw [h.valueMask_eq]
    rfl
  · rw [testBit_placed, Nat.testBit_two_pow_sub_one]
    unfold covers
    by_cases hj : j < maskBits
    · simp only [hj, decide_true, Bool.true_and, ← Bool.decide_and]
      exact decide_eq_decide.2 (by omega)
    · simp [hj]

/-- The part of the reset value has the bits that reset to one. -/
theorem Measured.resetMask_run (h : f.Measured) :
    ∃ m, f.resetMask = .ok m ∧ ∀ j, m.testBit j = (decide (j < maskBits) && f.resets j) := by
  have hordered := h.ordered
  refine ⟨placed (f.reset &&& (2 ^ min (f.high - f.low + 1) maskBits - 1)) f.low, ?_, fun j => ?_⟩
  · unfold resetMask
    rw [h.valueMask_eq]
    rfl
  · rw [testBit_placed, Nat.testBit_and, Nat.testBit_two_pow_sub_one]
    unfold resets covers
    by_cases hj : j < maskBits
    · cases f.reset.testBit (j - f.low)
      · simp
      · simp only [hj, decide_true, Bool.true_and, Bool.and_true, ← Bool.decide_and]
        exact decide_eq_decide.2 (by omega)
    · simp [hj]

/-- Two fields that do not overlap have no bit in common. -/
theorem overlaps_of_covers {j : Nat} (hf : f.covers j = true) (hg : g.covers j = true) :
    f.overlaps g = true := by
  unfold covers at hf hg
  unfold overlaps
  simp only [Bool.and_eq_true, decide_eq_true_eq] at hf hg ⊢
  exact ⟨Nat.le_trans hf.1 hg.2, Nat.le_trans hg.1 hf.2⟩

end Field

namespace Register

/-- Every field has one to 64 bits. -/
def Proper (r : Register) : Prop := ∀ f ∈ r.fields, f.Proper

/-- The width of every field can be told. -/
def Measured (r : Register) : Prop := ∀ f ∈ r.fields, f.Measured

instance (r : Register) : Decidable r.Measured :=
  inferInstanceAs (Decidable (∀ f ∈ r.fields, f.Measured))

theorem Proper.measured {r : Register} (h : r.Proper) : r.Measured := fun f hf =>
  (h f hf).measured

theorem testBit_union (masks : List Nat) (j : Nat) :
    (union masks).testBit j = masks.any (·.testBit j) := by
  have hfold : ∀ n, (masks.foldl (· ||| ·) n).testBit j
      = (n.testBit j || masks.any (·.testBit j)) := by
    induction masks with
    | nil => exact fun n => (Bool.or_false _).symm
    | cons m masks ih =>
      intro n
      rw [List.foldl_cons, ih, Nat.testBit_or, List.any_cons, Bool.or_assoc]
  unfold union
  rw [hfold, Nat.zero_testBit, Bool.false_or]

/-- Several parts give the bits that one of them gives. -/
theorem union_run {α : Type} {read : α → Except Failure Nat} {bit : α → Nat → Bool} {parts : List α}
    (h : ∀ a ∈ parts, ∃ m, read a = .ok m
      ∧ ∀ j, m.testBit j = (decide (j < maskBits) && bit a j)) :
    ∃ masks, parts.mapM read = .ok masks
      ∧ ∀ j, (union masks).testBit j = (decide (j < maskBits) && parts.any (bit · j)) := by
  suffices hany : ∃ masks, parts.mapM read = .ok masks
      ∧ ∀ j, masks.any (·.testBit j) = (decide (j < maskBits) && parts.any (bit · j)) by
    obtain ⟨masks, hrun, hbits⟩ := hany
    exact ⟨masks, hrun, fun j => (testBit_union masks j).trans (hbits j)⟩
  induction parts with
  | nil => exact ⟨[], rfl, fun j => (Bool.and_false _).symm⟩
  | cons a parts ih =>
    obtain ⟨m, hm, hbits⟩ := h a (List.mem_cons_self ..)
    obtain ⟨masks, hmasks, hany⟩ := ih fun b hb => h b (List.mem_cons_of_mem _ hb)
    refine ⟨m :: masks, ?_, fun j => ?_⟩
    · rw [List.mapM_cons, hm, hmasks]
      rfl
    · rw [List.any_cons, List.any_cons, hbits, hany, Bool.and_or_distrib_left]

variable {r : Register}

/-- A mask of a register has the bits of the selected fields. -/
theorem Measured.maskOf_run (h : r.Measured) (select : Field → Bool) :
    ∃ m, r.maskOf select = .ok m ∧ ∀ j, m.testBit j
      = (decide (j < maskBits) && r.fields.any fun f => select f && f.covers j) := by
  obtain ⟨masks, hmasks, hbits⟩ := union_run fun f (hf : f ∈ r.fields.filter select) =>
    (h f (List.mem_filter.1 hf).1).mask_run
  refine ⟨union masks, ?_, fun j => ?_⟩
  · unfold maskOf
    rw [hmasks]
    rfl
  · rw [hbits, List.any_filter]

/-- The reset value of a register has the bits that reset to one. -/
theorem Measured.resetValue_run (h : r.Measured) :
    ∃ value, r.resetValue = .ok value
      ∧ ∀ j, value.testBit j = (decide (j < maskBits) && r.fields.any (·.resets j)) := by
  obtain ⟨masks, hmasks, hbits⟩ := union_run fun f hf => (h f hf).resetMask_run
  refine ⟨union masks, ?_, hbits⟩
  unfold resetValue
  rw [hmasks]
  rfl

/-- The register with more fields behind its own. -/
def joined (r : Register) (fields : List Field) : Register := { r with fields := r.fields ++ fields }

theorem joined_nil (r : Register) : r.joined [] = r := by simp [joined]

theorem joined_joined (fields more : List Field) :
    (r.joined fields).joined more = r.joined (fields ++ more) := by
  simp [joined]

/-- One more field adds its part to the reset value. -/
theorem resetValue_concat {f : Field} {value part : Nat} (hvalue : r.resetValue = .ok value)
    (hpart : f.resetMask = .ok part) :
    (r.joined [f]).resetValue = .ok (value ||| part) := by
  unfold joined
  unfold resetValue at hvalue ⊢
  cases hparts : r.fields.mapM Field.resetMask with
  | error e =>
    rw [hparts] at hvalue
    cases hvalue
  | ok parts =>
    rw [hparts] at hvalue
    obtain rfl := Except.ok.inj hvalue
    simp only [List.mapM_append, hparts, List.mapM_cons, hpart]
    simp [union, bind, Except.bind, pure, Except.pure, List.foldl_append]

theorem maskOf_run (h : r.Proper) (select : Field → Bool) :
    ∃ m, r.maskOf select = .ok m
      ∧ ∀ j < maskBits, m.testBit j = r.fields.any fun f => select f && f.covers j := by
  obtain ⟨m, hm, hbits⟩ := h.measured.maskOf_run select
  refine ⟨m, hm, fun j hj => ?_⟩
  rw [hbits, decide_eq_true hj, Bool.true_and]

end Register

end RegisterMap
