/-
The bits of a field in the bytes it touches. Bit `j` of the value of a
field lies at bit `shift + j`, counted from the low end of the first byte;
`Layout.byteMask` selects exactly the positions of a byte that belong to
the field. Reading collects the selected bits of every byte
(`Layout.gathered`), writing replaces them (`Layout.replaced`).
-/
import Mathlib.Data.Nat.Bitwise
import RegisterMap.Peripheral.Layout

namespace RegisterMap.Peripheral

namespace Layout

variable {l : Layout} {i j n : Nat}

-- ================================================================ masks

/-- Position `j` of byte `i` belongs to the field. -/
def Covers (l : Layout) (i j : Nat) : Prop := l.shift ≤ 8 * i + j ∧ 8 * i + j < l.shift + l.width

instance (l : Layout) (i j : Nat) : Decidable (l.Covers i j) :=
  inferInstanceAs (Decidable (_ ∧ _))

theorem valueMask_eq (h : l.width ≤ 64) : l.valueMask = 2 ^ l.width - 1 := by
  unfold valueMask Word.ones
  rw [Nat.min_eq_left h]

theorem testBit_byteMask (h : l.width ≤ 64) (i : Nat) {j : Nat} (hj : j < 8) :
    (l.byteMask i).testBit j = decide (l.Covers i j) := by
  unfold byteMask Word.byteAt Covers
  rw [show 256 = 2 ^ 8 from rfl, Nat.testBit_mod_two_pow, decide_eq_true hj, Bool.true_and,
    Nat.testBit_shiftRight, Nat.testBit_shiftLeft, valueMask_eq h, Nat.testBit_two_pow_sub_one]
  by_cases hs : l.shift ≤ 8 * i + j
  · rw [decide_eq_true hs, Bool.true_and]
    refine decide_eq_decide.2 ⟨fun hlt => ⟨hs, by omega⟩, fun hlt => by omega⟩
  · rw [decide_eq_false hs, Bool.false_and]
    exact (decide_eq_false fun hc => hs hc.1).symm

/-- The complement of a mask in a byte. -/
theorem testBit_complement {m : Nat} (hm : m < 256) {j : Nat} (hj : j < 8) :
    (0xff - m).testBit j = !m.testBit j := by
  have heq : 0xff - m = 2 ^ 8 - (m + 1) := by omega
  rw [heq, Nat.testBit_two_pow_sub_succ hm, decide_eq_true hj, Bool.true_and]

-- ============================================================== reading

/-- What byte `i`, of value `b`, gives to the value of the field. -/
def partRead (l : Layout) (i b : Nat) : Nat :=
  if i = 0 then (b &&& l.byteMask i) >>> l.byteShift i else (b &&& l.byteMask i) <<< l.byteShift i

theorem testBit_partRead (h : l.width ≤ 64) (hs : l.shift < 8) (i b j : Nat) :
    (l.partRead i b).testBit j
      = (decide (8 * i ≤ l.shift + j ∧ l.shift + j < 8 * (i + 1) ∧ j < l.width)
        && b.testBit (l.shift + j - 8 * i)) := by
  have hmask : ∀ k, (b &&& l.byteMask i).testBit k
      = (b.testBit k && decide (k < 8 ∧ l.Covers i k)) := by
    intro k
    rw [Nat.testBit_and]
    by_cases hk : k < 8
    · rw [testBit_byteMask h i hk]
      simp only [hk, true_and]
    · have hzero : (l.byteMask i).testBit k = false :=
        Nat.testBit_lt_two_pow (Nat.lt_of_lt_of_le (l.byteMask_lt i)
          (Nat.pow_le_pow_right (by decide : 2 > 0) (Nat.le_of_not_lt hk)))
      simp only [hzero, hk, false_and, decide_false]
  unfold partRead
  split
  · next h0 =>
    subst h0
    rw [Nat.testBit_shiftRight, hmask]
    have hshift : l.byteShift 0 + j = l.shift + j - 8 * 0 := rfl
    rw [hshift, Bool.and_comm]
    congr 1
    refine decide_eq_decide.2 ?_
    unfold Covers
    omega
  · next h0 =>
    have hshift : l.byteShift i = 8 * i - l.shift := by
      unfold byteShift
      rw [if_neg h0]
      omega
    rw [Nat.testBit_shiftLeft, hmask, hshift]
    by_cases hj : 8 * i ≤ l.shift + j
    · have hidx : j - (8 * i - l.shift) = l.shift + j - 8 * i := by omega
      rw [hidx, decide_eq_true (by omega : 8 * i - l.shift ≤ j), Bool.true_and, Bool.and_comm]
      congr 1
      refine decide_eq_decide.2 ?_
      unfold Covers
      omega
    · rw [decide_eq_false (by omega : ¬8 * i - l.shift ≤ j), Bool.false_and,
        decide_eq_false fun hc => hj hc.1, Bool.false_and]

/-- The value gathered from the first `n` bytes. -/
def gathered (l : Layout) (byte : Nat → Nat) : (n : Nat) → Nat
  | 0 => 0
  | n + 1 => l.gathered byte n ||| l.partRead n (byte n)

theorem testBit_gathered (h : l.width ≤ 64) (hs : l.shift < 8) (byte : Nat → Nat) (n j : Nat) :
    (l.gathered byte n).testBit j
      = (decide (j < l.width ∧ l.shift + j < 8 * n)
        && (byte ((l.shift + j) / 8)).testBit ((l.shift + j) % 8)) := by
  induction n with
  | zero =>
    rw [gathered, Nat.zero_testBit, decide_eq_false (by omega), Bool.false_and]
  | succ n ih =>
    rw [gathered, Nat.testBit_or, ih, testBit_partRead h hs]
    by_cases hlt : l.shift + j < 8 * n
    · have hout : ¬(8 * n ≤ l.shift + j ∧ l.shift + j < 8 * (n + 1) ∧ j < l.width) := by omega
      rw [decide_eq_false hout, Bool.false_and, Bool.or_false]
      congr 1
      exact decide_eq_decide.2 (by omega)
    · have hout : ¬(j < l.width ∧ l.shift + j < 8 * n) := by omega
      rw [decide_eq_false hout, Bool.false_and, Bool.false_or]
      by_cases hin : l.shift + j < 8 * (n + 1)
      · have hdiv : (l.shift + j) / 8 = n := by omega
        have hmod : (l.shift + j) % 8 = l.shift + j - 8 * n := by omega
        rw [hdiv, hmod]
        congr 1
        exact decide_eq_decide.2 (by omega)
      · rw [decide_eq_false (by omega), decide_eq_false (by omega), Bool.false_and, Bool.false_and]

theorem partRead_lt (h : l.width ≤ 64) (hs : l.shift < 8) (i b : Nat) :
    l.partRead i b < 2 ^ l.width := by
  refine Nat.lt_pow_two_of_testBit _ fun j hj => ?_
  rw [testBit_partRead h hs, decide_eq_false (by omega), Bool.false_and]

theorem gathered_lt (h : l.width ≤ 64) (hs : l.shift < 8) (byte : Nat → Nat) (n : Nat) :
    l.gathered byte n < 2 ^ l.width := by
  refine Nat.lt_pow_two_of_testBit _ fun j hj => ?_
  rw [testBit_gathered h hs, decide_eq_false (by omega), Bool.false_and]

-- ============================================================== writing

/-- A byte of value `b` with the bits of the field replaced by `bits`. -/
def replaced (l : Layout) (i b bits : Nat) : Nat := (b &&& (0xff - l.byteMask i)) ||| bits

/-- The bits that a value gives to byte `i`. -/
def partWritten (l : Layout) (i value : Nat) : Nat :=
  if i = 0 then (value &&& l.valueMask) <<< l.byteShift i
  else (value &&& l.valueMask) >>> l.byteShift i

theorem testBit_partWritten (h : l.width ≤ 64) (hs : l.shift < 8) (i value : Nat) {j : Nat}
    (hj : j < 8) :
    (l.partWritten i value).testBit j
      = (decide (l.Covers i j) && value.testBit (8 * i + j - l.shift)) := by
  have hmask : ∀ k, (value &&& l.valueMask).testBit k
      = (decide (k < l.width) && value.testBit k) := by
    intro k
    rw [Nat.testBit_and, valueMask_eq h, Nat.testBit_two_pow_sub_one, Bool.and_comm]
  unfold partWritten
  split
  · next h0 =>
    subst h0
    have hshift : l.byteShift 0 = l.shift := rfl
    rw [Nat.testBit_shiftLeft, hmask, hshift]
    have hidx : 8 * 0 + j - l.shift = j - l.shift := by omega
    rw [hidx, ← Bool.and_assoc]
    congr 1
    rw [← Bool.decide_and]
    refine decide_eq_decide.2 ?_
    unfold Covers
    omega
  · next h0 =>
    have hshift : l.byteShift i = 8 * i - l.shift := by
      unfold byteShift
      rw [if_neg h0]
      omega
    have hidx : 8 * i - l.shift + j = 8 * i + j - l.shift := by omega
    rw [Nat.testBit_shiftRight, hmask, hshift, hidx]
    congr 1
    refine decide_eq_decide.2 ?_
    unfold Covers
    omega

/-- Where the new bits agree with those of a value, the byte has the bits
of the value at the positions of the field and its own elsewhere. -/
theorem testBit_replaced (h : l.width ≤ 64) (hs : l.shift < 8) {i b bits value : Nat}
    (hbits : ∀ j < 8, bits.testBit j = (l.partWritten i value).testBit j) {j : Nat} (hj : j < 8) :
    (l.replaced i b bits).testBit j
      = if l.Covers i j then value.testBit (8 * i + j - l.shift) else b.testBit j := by
  unfold replaced
  rw [Nat.testBit_or, Nat.testBit_and, hbits j hj, testBit_complement (l.byteMask_lt i) hj,
    testBit_byteMask h i hj, testBit_partWritten h hs i value hj]
  by_cases hc : l.Covers i j <;> simp [hc]

end Layout

end RegisterMap.Peripheral
