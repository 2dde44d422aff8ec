/-
Integers of the generated language. A number of a type stands for a
pattern of bits of the type's width, read as unsigned or in two's
complement; arithmetic works on the patterns and so wraps around.
Operands are promoted to a common type first, at least an `int`, and only
the low bits of a shift count matter.

The second half is what every later argument uses: operations on numbers
that are natural and small enough for their type are those of the natural
numbers.
-/
import Mathlib.Data.Int.Bitwise
import Mathlib.Tactic.IntervalCases
import RegisterMap.Code.Type
import RegisterMap.Code.Operator

namespace RegisterMap.Code

namespace Primitive

def isInteger : Primitive → Bool
  | .bool | .string => false
  | _ => true

/-- Width in bits of an integer type. -/
def bits (p : Primitive) : Nat := p.width.getD 0

/-- The number a pattern of bits stands for. -/
def ofBits (p : Primitive) (v : BitVec p.bits) : Int :=
  if p.isUnsigned then v.toNat else v.toInt

/-- The pattern of a number. -/
def toBits (p : Primitive) (n : Int) : BitVec p.bits := BitVec.ofInt p.bits n

/-- The number of the type with the same low bits. -/
def wrap (p : Primitive) (n : Int) : Int := p.ofBits (p.toBits n)

/-- The number is one of the type. -/
def holds (p : Primitive) (n : Int) : Bool := p.wrap n == n

/-- Every number of the first type is one of the second. -/
def widensTo (p q : Primitive) : Bool :=
  p.isInteger && q.isInteger &&
    match p.isUnsigned, q.isUnsigned with
    | true, false => p.bits < q.bits
    | false, true => false
    | _, _ => p.bits ≤ q.bits

/-- The type an operation on one number is carried out in. -/
def promoted : Primitive → Primitive
  | .uint => .uint
  | .long => .long
  | .ulong => .ulong
  | _ => .int

/-- The type an operation on two numbers is carried out in. A `ulong` goes
with unsigned numbers only. -/
def common (p q : Primitive) : Option Primitive :=
  let unsigned := p.isUnsigned && q.isUnsigned
  if p = .ulong ∨ q = .ulong then if unsigned then some .ulong else none
  else if p = .long ∨ q = .long then some .long
  else if p = .uint ∨ q = .uint then some (if unsigned then .uint else .long)
  else some .int

/-- The type a constant takes next to a number of another type: a constant
that is not negative may become unsigned. -/
def adapted (p q : Primitive) (n : Int) : Primitive :=
  if 0 ≤ n ∧ (p = .int ∧ q = .uint ∨ (p = .int ∨ p = .long) ∧ q = .ulong) then q else p

end Primitive

namespace Operator

/-- Arithmetic in one type; nothing where there is no result. -/
def arith (op : Operator) (p : Primitive) (a b : Int) : Option Int :=
  match op with
  | .add => some (p.wrap (a + b))
  | .sub => some (p.wrap (a - b))
  | .mul => some (p.wrap (a * b))
  | .div => if b = 0 ∨ !p.holds (a.tdiv b) then none else some (a.tdiv b)
  | .and => some (p.ofBits (p.toBits a &&& p.toBits b))
  | .or => some (p.ofBits (p.toBits a ||| p.toBits b))
  | .xor => some (p.ofBits (p.toBits a ^^^ p.toBits b))
  | _ => none

/-- A shift in one type. -/
def shift (op : Operator) (p : Primitive) (a count : Int) : Int :=
  let n := (count % p.bits).toNat
  match op with
  | .shl => p.ofBits (p.toBits a <<< n)
  | .shr => p.ofBits (if p.isUnsigned then p.toBits a >>> n else (p.toBits a).sshiftRight n)
  | _ => p.ofBits (p.toBits a >>> n)

/-- A comparison of two numbers. -/
def compare (op : Operator) (a b : Int) : Option Bool :=
  match op with
  | .lt => some (a < b)
  | .gt => some (b < a)
  | .lte => some (a ≤ b)
  | .gte => some (b ≤ a)
  | .eq => some (a == b)
  | .neq => some (a != b)
  | _ => none

/-- An operation on two truth values that are both known. -/
def combine (op : Operator) (a b : Bool) : Option Bool :=
  match op with
  | .and => some (a && b)
  | .or => some (a || b)
  | .xor | .neq => some (a ^^ b)
  | .eq => some (a == b)
  | _ => none

end Operator

-- ===================================================== natural numbers

namespace Primitive

variable {p : Primitive} {m n : Nat}

/-- The natural numbers of a type lie below this one. -/
def limit (p : Primitive) : Nat := if p.isUnsigned then 2 ^ p.bits else 2 ^ (p.bits - 1)

theorem limit_le (p : Primitive) : p.limit ≤ 2 ^ p.bits := by
  unfold limit
  split
  · exact Nat.le_refl _
  · exact Nat.pow_le_pow_right (by decide) (Nat.sub_le ..)

/-- The limit is a power of two. -/
theorem exists_limit_eq (p : Primitive) : ∃ k, p.limit = 2 ^ k := by
  unfold limit
  split
  · exact ⟨_, rfl⟩
  · exact ⟨_, rfl⟩

theorem toBits_natCast (p : Primitive) (n : Nat) : p.toBits n = BitVec.ofNat p.bits n :=
  BitVec.ofInt_natCast ..

theorem ofBits_ofNat (h : n < p.limit) : p.ofBits (BitVec.ofNat p.bits n) = n := by
  have hle := Nat.lt_of_lt_of_le h p.limit_le
  unfold ofBits
  split
  · rw [BitVec.toNat_ofNat, Nat.mod_eq_of_lt hle]
  · next hs =>
    unfold limit at h
    rw [if_neg hs] at h
    rw [BitVec.toInt_eq_toNat_of_lt, BitVec.toNat_ofNat, Nat.mod_eq_of_lt hle]
    rw [BitVec.toNat_ofNat, Nat.mod_eq_of_lt hle]
    have hpow : 2 * 2 ^ (p.bits - 1) ≤ 2 ^ p.bits ∨ p.bits = 0 := by
      cases p.bits with
      | zero => exact Or.inr rfl
      | succ k => exact Or.inl (by rw [Nat.pow_succ]; simp; omega)
    rcases hpow with hpow | hpow
    · omega
    · rw [hpow] at h ⊢
      simp at h ⊢
      omega

theorem wrap_natCast (h : n < p.limit) : p.wrap n = n := by
  unfold wrap
  rw [toBits_natCast, ofBits_ofNat h]

theorem holds_natCast (h : n < p.limit) : p.holds n = true := by
  unfold holds
  rw [wrap_natCast h]
  exact beq_self_eq_true _

/-- A number is cut off at the width of an unsigned type. -/
theorem wrap_unsigned (h : p.isUnsigned = true) (n : Nat) : p.wrap n = (n % 2 ^ p.bits : Nat) := by
  unfold wrap ofBits
  rw [if_pos h, toBits_natCast, BitVec.toNat_ofNat]

end Primitive

namespace Operator

open Primitive

variable {p : Primitive} {m n k : Nat}

theorem arith_add (h : m + n < p.limit) : add.arith p m n = some ((m + n : Nat) : Int) := by
  unfold arith
  rw [← Int.natCast_add, wrap_natCast h]

theorem arith_sub (hle : n ≤ m) (h : m < p.limit) :
    sub.arith p m n = some ((m - n : Nat) : Int) := by
  unfold arith
  rw [← Int.natCast_sub hle, wrap_natCast (Nat.lt_of_le_of_lt (Nat.sub_le ..) h)]

theorem arith_mul (h : m * n < p.limit) : mul.arith p m n = some ((m * n : Nat) : Int) := by
  unfold arith
  rw [← Int.natCast_mul, wrap_natCast h]

theorem arith_and (h : m < p.limit ∨ n < p.limit) :
    and.arith p m n = some ((m &&& n : Nat) : Int) := by
  have hlt : m &&& n < p.limit := by
    rcases h with h | h
    · exact Nat.lt_of_le_of_lt Nat.and_le_left h
    · exact Nat.lt_of_le_of_lt Nat.and_le_right h
  unfold arith
  rw [toBits_natCast, toBits_natCast, ← BitVec.ofNat_and, ofBits_ofNat hlt]

/-- On the natural numbers of every type the operation is the function,
which gives numbers of the type again. -/
def Computes (op : Operator) (f : Nat → Nat → Nat) : Prop :=
  ∀ (p : Primitive) (m n : Nat), m < p.limit → n < p.limit →
    op.arith p m n = some ((f m n : Nat) : Int) ∧ f m n < p.limit

theorem computes_and : and.Computes (· &&& ·) := fun _ _ _ hm _ =>
  ⟨arith_and (Or.inl hm), Nat.lt_of_le_of_lt Nat.and_le_left hm⟩

theorem computes_or : or.Computes (· ||| ·) := by
  intro p m n hm hn
  obtain ⟨k, hk⟩ := p.exists_limit_eq
  have hlt : m ||| n < p.limit := by
    rw [hk] at hm hn ⊢
    exact Nat.or_lt_two_pow hm hn
  refine ⟨?_, hlt⟩
  unfold arith
  rw [toBits_natCast, toBits_natCast, ← BitVec.ofNat_or, ofBits_ofNat hlt]

theorem computes_xor : xor.Computes (· ^^^ ·) := by
  intro p m n hm hn
  obtain ⟨k, hk⟩ := p.exists_limit_eq
  have hlt : m ^^^ n < p.limit := by
    rw [hk] at hm hn ⊢
    exact Nat.xor_lt_two_pow hm hn
  refine ⟨?_, hlt⟩
  unfold arith
  rw [toBits_natCast, toBits_natCast, ← BitVec.ofNat_xor, ofBits_ofNat hlt]

theorem count_eq (h : k < p.bits) : ((k : Int) % p.bits).toNat = k := by
  rw [Int.emod_eq_of_lt (Int.natCast_nonneg k) (Int.ofNat_lt.2 h)]
  rfl

theorem ofNat_shiftRight {w : Nat} (h : m < 2 ^ w) (k : Nat) :
    BitVec.ofNat w m >>> k = BitVec.ofNat w (m >>> k) := by
  apply BitVec.eq_of_toNat_eq
  rw [BitVec.toNat_ushiftRight, BitVec.toNat_ofNat, BitVec.toNat_ofNat, Nat.mod_eq_of_lt h,
    Nat.mod_eq_of_lt (Nat.lt_of_le_of_lt (Nat.shiftRight_le ..) h)]

theorem shift_shr (hk : k < p.bits) (h : m < p.limit) :
    shr.shift p m k = ((m >>> k : Nat) : Int) := by
  have hle := Nat.lt_of_lt_of_le h p.limit_le
  have hlt : m >>> k < p.limit := Nat.lt_of_le_of_lt (Nat.shiftRight_le ..) h
  have hright := ofNat_shiftRight hle k
  unfold shift
  rw [count_eq hk, toBits_natCast]
  dsimp only
  split
  · rw [hright, ofBits_ofNat hlt]
  · next hs =>
    have hmsb : (BitVec.ofNat p.bits m).msb = false := by
      have := ofBits_ofNat h
      unfold ofBits at this
      rw [if_neg hs] at this
      rw [BitVec.msb_eq_toInt, this]
      simp
    rw [BitVec.sshiftRight_eq_of_msb_false hmsb, hright, ofBits_ofNat hlt]

theorem shift_shl (hk : k < p.bits) (h : m <<< k < p.limit) :
    shl.shift p m k = ((m <<< k : Nat) : Int) := by
  have hleft : BitVec.ofNat p.bits m <<< k = BitVec.ofNat p.bits (m <<< k) := by
    apply BitVec.eq_of_toNat_eq
    rw [BitVec.toNat_shiftLeft, BitVec.toNat_ofNat, BitVec.toNat_ofNat, Nat.shiftLeft_eq,
      Nat.shiftLeft_eq, Nat.mod_mul_mod]
  unfold shift
  rw [count_eq hk, toBits_natCast]
  dsimp only
  rw [hleft, ofBits_ofNat h]

/-- Bits shifted out of an unsigned number are lost. -/
theorem shift_shl_unsigned (hu : p.isUnsigned = true) (hk : k < p.bits) (m : Nat) :
    shl.shift p m k = ((m <<< k % 2 ^ p.bits : Nat) : Int) := by
  unfold shift
  rw [count_eq hk, toBits_natCast]
  dsimp only
  unfold ofBits
  rw [if_pos hu, BitVec.toNat_shiftLeft, BitVec.toNat_ofNat, Nat.shiftLeft_eq, Nat.shiftLeft_eq,
    Nat.mod_mul_mod]

end Operator

end RegisterMap.Code
