/-
Types that hold the same numbers. A type holds a range of numbers
(`holds_iff`), and the type two numbers are brought to holds whatever
either of their types does (`common_widens`). Where the operands are held
by two types, the bitwise operations give the same number in both of them
(`arith_bitwise`), and so do shifts to the right if the types are of one
width (`shift_agrees`): every type is a window on patterns of 65 bits, of
which it shows the numbers it holds (`wide_ofBits`).
-/
import RegisterMap.Proofs.Exec.Number

namespace RegisterMap.Code

namespace Primitive

variable {p q : Primitive} {a b n : Int}

-- ============================================================== ranges

/-- The least number of a type. -/
def low (p : Primitive) : Int := if p.isUnsigned then 0 else -2 ^ (p.bits - 1)

theorem holds_iff (hp : p.isInteger = true) : p.holds n = true ↔ p.low ≤ n ∧ n < p.limit := by
  unfold holds wrap ofBits toBits low limit
  rw [beq_iff_eq, BitVec.toInt_ofInt, BitVec.toNat_ofInt]
  cases p with
  | bool | string => cases hp
  | byte | ushort | uint | ulong =>
    simp only [isUnsigned, bits, width, Option.getD_some, if_true]
    omega
  | sbyte | short | int | long =>
    simp only [isUnsigned, bits, width, Option.getD_some, Bool.false_eq_true, if_false]
    unfold Int.bmod
    dsimp only
    split <;> omega

/-- A pattern is that of the number it stands for. -/
theorem toBits_ofBits (p : Primitive) (v : BitVec p.bits) : p.toBits (p.ofBits v) = v := by
  unfold toBits ofBits
  split
  · rw [BitVec.ofInt_natCast, BitVec.ofNat_toNat, BitVec.setWidth_eq]
  · exact BitVec.ofInt_toInt

theorem holds_ofBits (p : Primitive) (v : BitVec p.bits) : p.holds (p.ofBits v) = true := by
  unfold holds wrap
  rw [toBits_ofBits]
  exact beq_self_eq_true _

theorem wrap_of_holds (h : p.holds n = true) : p.wrap n = n := beq_iff_eq.1 h

theorem isInteger_of_widensTo (h : p.widensTo q = true) :
    p.isInteger = true ∧ q.isInteger = true := by
  unfold widensTo at h
  rw [Bool.and_eq_true_iff, Bool.and_eq_true_iff] at h
  exact h.1

theorem holds_of_widensTo (h : p.widensTo q = true) (hn : p.holds n = true) :
    q.holds n = true := by
  obtain ⟨hp, hq⟩ := isInteger_of_widensTo h
  have hlow : q.low ≤ p.low := by cases p <;> cases q <;> first | decide | cases h
  have hlimit : p.limit ≤ q.limit := by cases p <;> cases q <;> first | decide | cases h
  rw [holds_iff hp] at hn
  rw [holds_iff hq]
  omega

theorem widensTo_promoted (hp : p.isInteger = true) : p.widensTo p.promoted = true := by
  cases p <;> first | rfl | cases hp

/-- Both operands of an operation go into the type it is carried out in. -/
theorem common_widens {t : Primitive} (h : p.common q = some t) (hp : p.isInteger = true)
    (hq : q.isInteger = true) : p.widensTo t = true ∧ q.widensTo t = true := by
  have hall : ((p.common q).all fun t => p.widensTo t && q.widensTo t) = true := by
    cases p <;> cases q <;> first | decide | (cases hp; done) | cases hq
  rw [h] at hall
  exact Bool.and_eq_true_iff.1 hall

-- ===================================================== a common window

/-- A number in a pattern with room for the numbers of every type. -/
def wide (n : Int) : BitVec 65 := BitVec.ofInt 65 n

/-- A pattern of a type in the wide one. -/
def extended (p : Primitive) (v : BitVec p.bits) : BitVec 65 :=
  if p.isUnsigned then v.setWidth 65 else v.signExtend 65

theorem bits_le (p : Primitive) : p.bits ≤ 65 := by cases p <;> decide

theorem wide_ofBits (p : Primitive) (v : BitVec p.bits) : wide (p.ofBits v) = p.extended v := by
  unfold wide ofBits extended
  split
  · rw [BitVec.ofInt_natCast, BitVec.ofNat_toNat]
  · rw [← BitVec.toInt_signExtend_of_le p.bits_le, BitVec.ofInt_toInt]

theorem wide_eq (h : p.holds n = true) : p.extended (p.toBits n) = wide n := by
  rw [← wide_ofBits]
  exact congrArg wide (wrap_of_holds h)

/-- Numbers of integer types are told apart by their wide patterns. -/
theorem eq_of_wide (hp : p.isInteger = true) (hq : q.isInteger = true) (ha : p.holds a = true)
    (hb : q.holds b = true) (h : wide a = wide b) : a = b := by
  have hrange : ∀ {p : Primitive} {n : Int}, p.isInteger = true → p.holds n = true →
      (wide n).toInt = n := by
    intro p n hp hn
    have hlow : -2 ^ 63 ≤ p.low := by cases p <;> decide
    have hlimit : p.limit ≤ 2 ^ 64 := by cases p <;> decide
    rw [holds_iff hp] at hn
    unfold wide
    rw [BitVec.toInt_ofInt]
    exact Int.bmod_eq_of_le_mul_two (by omega) (by omega)
  rw [← hrange hp ha, h, hrange hq hb]

end Primitive

namespace Operator

open Primitive

variable {op : Operator} {p q : Primitive} {a b n : Int}

/-- Operations on the bits of both operands. -/
def isBitwise : Operator → Bool
  | .and | .or | .xor => true
  | _ => false

theorem holds_arith (h : op.arith p a b = some n) : p.holds n = true := by
  unfold arith at h
  split at h
  case h_4 =>
    split at h
    · cases h
    · next hc =>
      injection h with h
      rw [← h]
      simpa using (not_or.1 hc).2
  case h_8 => cases h
  all_goals
    injection h with h
    rw [← h]
    exact holds_ofBits ..

theorem holds_shift (op : Operator) (p : Primitive) (a b : Int) :
    p.holds (op.shift p a b) = true := by
  unfold shift
  dsimp only
  split <;> exact holds_ofBits ..

/-- A bitwise operation on the wide patterns. -/
theorem wide_arith (hop : op.isBitwise = true) (ha : p.holds a = true) (hb : p.holds b = true) :
    ∃ n, op.arith p a b = some n ∧ wide n = match op with
      | .and => wide a &&& wide b
      | .or => wide a ||| wide b
      | _ => wide a ^^^ wide b := by
  rw [← wide_eq ha, ← wide_eq hb]
  cases op with
  | and =>
    refine ⟨_, rfl, (wide_ofBits ..).trans ?_⟩
    unfold extended
    split
    · exact BitVec.setWidth_and
    · exact BitVec.signExtend_and
  | or =>
    refine ⟨_, rfl, (wide_ofBits ..).trans ?_⟩
    unfold extended
    split
    · exact BitVec.setWidth_or
    · exact BitVec.signExtend_or
  | xor =>
    refine ⟨_, rfl, (wide_ofBits ..).trans ?_⟩
    unfold extended
    split
    · exact BitVec.setWidth_xor
    · exact BitVec.signExtend_xor
  | _ => cases hop

/-- Bitwise operations do not tell types apart that hold the operands. -/
theorem arith_bitwise (hop : op.isBitwise = true) (hp : p.isInteger = true)
    (hq : q.isInteger = true) (ha : p.holds a = true) (hb : p.holds b = true)
    (ha' : q.holds a = true) (hb' : q.holds b = true) : op.arith p a b = op.arith q a b := by
  obtain ⟨m, hm, hwm⟩ := wide_arith hop ha hb
  obtain ⟨n, hn, hwn⟩ := wide_arith hop ha' hb'
  rw [hm, hn, eq_of_wide hp hq (holds_arith hm) (holds_arith hn) (hwm.trans hwn.symm)]

-- =============================================================== shifts

/-- Only the low bits of a count matter. -/
theorem shift_count (op : Operator) (hp : p.bits ≠ 0) (a c : Int) :
    op.shift p a c = op.shift p a ((c % p.bits).toNat : Int) := by
  have hcount : (c % p.bits).toNat % (p.bits : Int) = c % p.bits := by
    rw [Int.toNat_of_nonneg (Int.emod_nonneg c (by omega)), Int.emod_emod_of_dvd _ dvd_rfl]
  unfold shift
  rw [hcount]

theorem shift_ushr {k m : Nat} (hk : k < p.bits) (h : m < p.limit) :
    ushr.shift p m k = ((m >>> k : Nat) : Int) := by
  have hle := Nat.lt_of_lt_of_le h p.limit_le
  have hlt : m >>> k < p.limit := Nat.lt_of_le_of_lt (Nat.shiftRight_le ..) h
  unfold shift
  rw [count_eq hk, toBits_natCast]
  dsimp only
  rw [ofNat_shiftRight hle, ofBits_ofNat hlt]

/-- Shifts to the right do not tell types of one width apart that hold the
number. -/
theorem shift_agrees (hop : op = .shr ∨ op = .ushr) (hp : p.isInteger = true)
    (hq : q.isInteger = true) (hbits : p.bits = q.bits) (ha : p.holds a = true)
    (ha' : q.holds a = true) (c : Int) : op.shift p a c = op.shift q a c := by
  by_cases hu : p.isUnsigned = q.isUnsigned
  · have hpq : p = q := by
      cases p <;> cases q <;> first
        | rfl
        | (cases hp; done)
        | (cases hq; done)
        | (cases hu; done)
        | cases hbits
    rw [hpq]
  · -- one of the types is unsigned, so the number is natural
    have h0 : 0 ≤ a := by
      rw [holds_iff hp] at ha
      rw [holds_iff hq] at ha'
      unfold low at ha ha'
      cases hpu : p.isUnsigned with
      | true => rw [hpu] at ha; exact ha.1
      | false =>
        cases hqu : q.isUnsigned with
        | true => rw [hqu] at ha'; exact ha'.1
        | false => exact absurd (hpu.trans hqu.symm) hu
    obtain ⟨m, rfl⟩ := Int.eq_ofNat_of_zero_le h0
    have hm : m < p.limit := Int.ofNat_lt.1 ((holds_iff hp).1 ha).2
    have hm' : m < q.limit := Int.ofNat_lt.1 ((holds_iff hq).1 ha').2
    have hpos : p.bits ≠ 0 := by cases p <;> first | decide | cases hp
    have hlt : (c % p.bits).toNat < p.bits := by
      have := Int.emod_lt_of_pos c (Int.ofNat_lt.2 (Nat.pos_of_ne_zero hpos))
      omega
    have hp' := shift_count op hpos (m : Int) c
    have hq' := shift_count op (hbits ▸ hpos : q.bits ≠ 0) (m : Int) c
    rw [← hbits] at hq'
    rw [hp', hq']
    rcases hop with rfl | rfl
    · rw [shift_shr hlt hm, shift_shr (hbits ▸ hlt) hm']
    · rw [shift_ushr hlt hm, shift_ushr (hbits ▸ hlt) hm']

end Operator

end RegisterMap.Code
