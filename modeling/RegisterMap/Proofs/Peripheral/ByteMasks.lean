/-
The two computations of the bits of a field. A register masks a field in
one word of 128 bits, a property byte by byte. Put back to their places,
the masks of the bytes are the mask of the register
(`Layout.union_byteMasks`), each of them has a bit
(`Layout.byteMask_pos`), and what the bytes of a placed value give
together is the value (`Layout.union_partRead`). The distances the bits of
a byte move are below the width of the type in which they are shifted.

All of this is seen bit by bit: bit `j` of a field lies in byte
`(shift + j) / 8` from its first one, at position `(shift + j) % 8` there.
-/
import RegisterMap.Proofs.Peripheral.DoubleWord
import RegisterMap.Proofs.Peripheral.Property

namespace RegisterMap.Peripheral

open Code

variable {f : Field} {i n : Nat}

namespace Layout

variable {l : Layout}

-- ================================================================ masks

/-- A mask put back to the place of its byte has no bit outside of it. -/
theorem testBit_byteMask_shiftLeft (h : l.width ≤ 64) (i b j : Nat) :
    (l.byteMask i <<< (8 * b)).testBit j = decide (j / 8 = b ∧ l.Covers i (j % 8)) := by
  have hmask : (BitVec.ofNat 8 (l.byteMask i)).toNat = l.byteMask i := by
    rw [BitVec.toNat_ofNat, Nat.mod_eq_of_lt (l.byteMask_lt i)]
  have hbits := Exec.Bytes.testBit_shifted (BitVec.ofNat 8 (l.byteMask i)) b j
  rwa [hmask, BitVec.getLsbD_ofNat, decide_eq_true (Nat.mod_lt j (by decide)), Bool.true_and,
    testBit_byteMask h i (Nat.mod_lt j (by decide)), ← Bool.decide_and] at hbits

/-- The bits of a field in its bytes are those from its lowest to its
highest one. -/
theorem exists_covers (hordered : f.low ≤ f.high) (j : Nat) :
    (∃ i < (Layout.of f).bytes, j / 8 = (Layout.of f).firstByte + i
      ∧ (Layout.of f).Covers i (j % 8)) ↔ f.low ≤ j ∧ j ≤ f.high := by
  unfold Covers Layout.of Word.bytesFor
  constructor
  · rintro ⟨i, hi, hbyte, hcovers⟩
    dsimp only at hi hbyte hcovers
    omega
  · rintro ⟨hlow, hhigh⟩
    refine ⟨j / 8 - f.low / 8, ?_, ?_, ?_⟩ <;> dsimp only <;> omega

/-- The masks of the bytes, each at the place of its byte, are the mask of
the register. -/
theorem union_byteMasks (hf : f.Proper) (hreach : f.high < maskBits) :
    f.mask = .ok (Register.union ((List.range (Layout.of f).bytes).map fun i =>
      (Layout.of f).byteMask i <<< (8 * ((Layout.of f).firstByte + i)))) := by
  obtain ⟨m, hm, hbits⟩ := hf.measured.mask_run
  rw [hm]
  refine congrArg Except.ok (Nat.eq_of_testBit_eq fun j => ?_)
  rw [hbits, Register.testBit_union, List.any_map, Bool.eq_iff_iff, List.any_eq_true]
  simp only [Function.comp_apply, List.mem_range,
    testBit_byteMask_shiftLeft (sound_of hf).width_le, decide_eq_true_eq,
    exists_covers hf.ordered]
  unfold Field.covers
  simp only [Bool.and_eq_true, decide_eq_true_eq]
  omega

/-- Every byte of a field has a bit of it. -/
theorem byteMask_pos (hf : f.Proper) (hi : i < (Layout.of f).bytes) :
    0 < (Layout.of f).byteMask i := by
  have hl := sound_of hf
  have hordered := hf.ordered
  -- its lowest bit in the byte
  obtain ⟨j, hj, hcovers⟩ : ∃ j < 8, (Layout.of f).Covers i j := by
    refine ⟨if i = 0 then f.low % 8 else 0, ?_, ?_⟩
    · split <;> omega
    · unfold Layout.of Word.bytesFor at hi
      unfold Covers Layout.of
      dsimp only at hi ⊢
      split <;> omega
  refine Nat.pos_of_ne_zero fun hzero => ?_
  have hbit := testBit_byteMask hl.width_le i hj
  rw [hzero, Nat.zero_testBit, decide_eq_true hcovers] at hbit
  cases hbit

-- =============================================================== values

/-- Gathering the bytes one after the other takes their parts together. -/
theorem gathered_eq_union (byte : Nat → Nat) (n : Nat) :
    l.gathered byte n = Register.union ((List.range n).map fun i => l.partRead i (byte i)) := by
  unfold Register.union
  induction n with
  | zero => rfl
  | succ n ih =>
    rw [gathered, ih, List.range_succ, List.map_append, List.foldl_append]
    rfl

/-- The parts that the bytes of a placed value have in it are the value. -/
theorem union_partRead (hf : f.Proper) {v : Nat} (hv : v ≤ (Layout.of f).valueMask) :
    Register.union ((List.range (Layout.of f).bytes).map fun i =>
      (Layout.of f).partRead i (Word.byteAt (v <<< f.low) ((Layout.of f).firstByte + i))) = v := by
  have hl := sound_of hf
  rw [← gathered_eq_union]
  refine Nat.eq_of_testBit_eq fun j => ?_
  rw [testBit_gathered hl.width_le hl.shift_lt, testBit_byteAt _ _ (Nat.mod_lt _ (by decide)),
    Nat.testBit_shiftLeft]
  have hplace : 8 * ((Layout.of f).firstByte + ((Layout.of f).shift + j) / 8)
      + ((Layout.of f).shift + j) % 8 = f.low + j := by
    unfold Layout.of
    dsimp only
    omega
  rw [hplace, decide_eq_true (Nat.le_add_right ..), Bool.true_and, Nat.add_sub_cancel_left]
  by_cases hj : j < (Layout.of f).width
  · have hin : (Layout.of f).shift + j < 8 * (Layout.of f).bytes := by
      rw [hl.bytes_eq]
      unfold Word.bytesFor
      omega
    rw [decide_eq_true ⟨hj, hin⟩, Bool.true_and]
  · have hlt : v < 2 ^ (Layout.of f).width := by
      rw [valueMask_eq hl.width_le] at hv
      have := Nat.two_pow_pos (Layout.of f).width
      omega
    rw [decide_eq_false fun hc => hj hc.1, Bool.false_and]
    exact (Nat.testBit_lt_two_pow
      (Nat.lt_of_lt_of_le hlt (Nat.pow_le_pow_right (by decide) (Nat.le_of_not_lt hj)))).symm

-- =============================================================== shifts

/-- The bits of a byte move by less than the width of the type in which
they are shifted. -/
theorem byteShift_lt_bits {p : Primitive} (hl : l.Sound) (h : Holds l (.primitive p))
    (hi : i < l.bytes) : l.byteShift i < p.promoted.bits := by
  obtain ⟨hfirst, hwidth⟩ : 8 ≤ p.promoted.bits ∧ l.width ≤ p.promoted.bits := by
    cases h with
    | flag hw => exact ⟨by decide, hw ▸ by decide⟩
    | bits hp hw => exact ⟨(storable hp).bits_pos, Nat.le_trans hw (storable hp).bits_le⟩
  by_cases h0 : i = 0
  · rw [h0]
    exact Nat.lt_of_lt_of_le hl.shift_lt hfirst
  · exact Nat.lt_of_lt_of_le (hl.byteShift_lt hi h0) hwidth

end Layout

/-- The values of a field are shifted in 32 bits, or in 64 if they may
need more. -/
theorem Holds.promoted_bits {l : Layout} {p : Primitive} (h : Holds l (.primitive p)) :
    p.promoted.bits = if p = .ulong then 64 else 32 := by
  cases h with
  | flag => rfl
  | bits hp =>
    have hall : ∀ p ∈ storageTypes, p.promoted.bits = if p = .ulong then 64 else 32 := by decide
    exact hall p hp

-- ================================================================ both

/-- The masks of a field and its layout are two views of the same bits.
`p` is the type of its values. -/
theorem fieldMasks_agree (f : Field) (hf : f.Proper) (hreach : f.high < maskBits) :
    ∃ l p m, Layout.ofField f = .ok l ∧ storageType f = .ok (.primitive p)
      ∧ f.valueMask = .ok l.valueMask ∧ f.mask = .ok m
      ∧ Register.union ((List.range l.bytes).map fun i =>
          l.byteMask i <<< (8 * (l.firstByte + i))) = m
      ∧ (∀ i < l.bytes, l.byteMask i ≠ 0 ∧ l.byteMask i ≤ 0xff)
      ∧ (∀ v ≤ l.valueMask, Register.union ((List.range l.bytes).map fun i =>
          l.partRead i (Word.byteAt (v <<< f.low) (l.firstByte + i))) = v)
      ∧ p.promoted.bits = (if p = .ulong then 64 else 32)
      ∧ ∀ i < l.bytes, l.byteShift i < p.promoted.bits := by
  have hl := sound_of hf
  obtain ⟨type, htype, hholds⟩ := storageType_run hf
  obtain ⟨p, rfl⟩ : ∃ p, type = .primitive p := by
    cases hholds with
    | flag => exact ⟨_, rfl⟩
    | bits => exact ⟨_, rfl⟩
  have hvalue : f.valueMask = .ok (Layout.of f).valueMask := by
    have hwidth : min (f.high - f.low + 1) maskBits = (Layout.of f).width :=
      Nat.min_eq_left (Nat.le_trans hl.width_le (by decide))
    rw [hf.measured.valueMask_eq, Layout.valueMask_eq hl.width_le, hwidth]
  exact ⟨Layout.of f, p, _, ofField_eq hf, htype, hvalue, Layout.union_byteMasks hf hreach, rfl,
    fun i hi => ⟨Nat.ne_of_gt (Layout.byteMask_pos hf hi),
      Nat.le_of_lt_succ (Layout.byteMask_lt _ i)⟩,
    fun v hv => Layout.union_partRead hf hv, hholds.promoted_bits,
    fun i hi => Layout.byteShift_lt_bits hl hholds hi⟩

/-- A field of 64 bits in nine bytes. -/
theorem fieldMasks_agree_nineBytes :
    let l : Layout := { width := 64, firstByte := 0, shift := 5, bytes := 9 }
    Field.mask { name := "count", low := 5, high := 68 }
        = .ok (Register.union ((List.range 9).map fun i => l.byteMask i <<< (8 * (0 + i))))
      ∧ (∀ i < 9, l.byteMask i ≠ 0)
      ∧ (∀ v ≤ l.valueMask, Register.union ((List.range 9).map fun i =>
          l.partRead i (Word.byteAt (v <<< 5) (0 + i))) = v)
      ∧ ∀ i < 9, l.byteShift i < 64 := by
  obtain ⟨l, p, m, hl, hp, -, hm, hunion, hmasks, hvalues, -, hshifts⟩ :=
    fieldMasks_agree { name := "count", low := 5, high := 68 } ⟨by decide, by decide⟩ (by decide)
  obtain rfl : { width := 64, firstByte := 0, shift := 5, bytes := 9 } = l := Except.ok.inj hl
  obtain rfl : Primitive.ulong = p := TypeRef.primitive.inj (Except.ok.inj hp)
  exact ⟨hm.trans (congrArg Except.ok hunion.symm), fun i hi => (hmasks i hi).1, hvalues, hshifts⟩

end RegisterMap.Peripheral
