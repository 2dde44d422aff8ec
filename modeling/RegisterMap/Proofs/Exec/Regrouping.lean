/-
Regrouping an operation whose grouping is said to make no difference. In
`a + (b + c)` the inner sum is carried out in the type of `b` and `c`, in
`(a + b) + c` in that of `a` and `b`, and either may be narrower than the
type of the whole. A sum or product that leaves such a type wraps around
in it, and then the two groupings differ; the type of the whole itself may
be another one, or may not exist.

`Sense.regroups` is the condition under which the groupings agree: bits
and truth values may be grouped in any way, sums and products if the whole
is carried out in one type on both sides and every inner operation is as
wide as that or never leaves its own type (`Operator.isExact`). It is
sufficient for any operands, and necessary where the operands take all the
values of their types (`regrouped_value_iff`).

Sufficiency goes through the exact result: an inner operation that wraps
around at the width of the whole, or does not wrap around at all, is
exact as far as the whole can tell (`wrap_exact_wrap`). Necessity is a
matter of the greatest values, next to an operand that changes nothing
(`isExposed_of_isInteger`).
-/
import Mathlib.Data.Int.ModEq
import RegisterMap.Proofs.Exec.Sense
import RegisterMap.Proofs.Syntax.Parentheses

namespace RegisterMap.Code

namespace Primitive

variable {p q : Primitive} {m n : Int}

-- =========================================================== wraparound

theorem wrap_congr (h : m ≡ n [ZMOD 2 ^ p.bits]) : p.wrap m = p.wrap n := by
  have hbits : p.toBits m = p.toBits n := by
    apply BitVec.eq_of_toNat_eq
    unfold toBits
    rw [BitVec.toNat_ofInt, BitVec.toNat_ofInt]
    exact congrArg Int.toNat (by exact_mod_cast h)
  unfold wrap
  rw [hbits]

/-- What is cut off is beyond the width of the type. -/
theorem wrap_modEq (p : Primitive) (n : Int) : p.wrap n ≡ n [ZMOD 2 ^ p.bits] := by
  unfold wrap ofBits toBits
  split
  · rw [BitVec.toNat_ofInt, Int.toNat_of_nonneg (Int.emod_nonneg _ (by positivity))]
    exact_mod_cast Int.mod_modEq n _
  · rw [BitVec.toInt_ofInt]
    exact_mod_cast Int.bmod_emod

/-- The greatest number of a type. -/
def high (p : Primitive) : Int := p.limit - 1

theorem le_high (hp : p.isInteger = true) (h : p.holds n = true) : p.low ≤ n ∧ n ≤ p.high := by
  obtain ⟨hlow, hlimit⟩ := (holds_iff hp).1 h
  exact ⟨hlow, Int.le_sub_one_of_lt hlimit⟩

theorem holds_high (p : Primitive) : p.holds p.high = true := by
  cases p <;> decide

end Primitive

end RegisterMap.Code

namespace RegisterMap.Exec

open Code

namespace Known

variable {k : Known} {n : Int}

/-- The least number the expression may have. -/
def least (k : Known) : Int :=
  match k.constant with
  | some (.number n) => n
  | _ => k.type.low

/-- The greatest number the expression may have. -/
def greatest (k : Known) : Int :=
  match k.constant with
  | some (.number n) => n
  | _ => k.type.high

theorem between_of_admits (h : k.admits (.number n)) : k.least ≤ n ∧ n ≤ k.greatest := by
  obtain ⟨hint, hholds, hconst⟩ := admits_number.1 h
  unfold least greatest
  split
  · next m hm =>
    injection hconst _ hm with hnm
    exact ⟨Int.le_of_eq hnm.symm, Int.le_of_eq hnm⟩
  · exact Primitive.le_high hint hholds

end Known

end RegisterMap.Exec

namespace RegisterMap.Code.Operator

open Exec (Known Scalar Sense)

variable {op : Operator} {l r : Known} {t inner outer : Primitive} {m n x : Int}

-- ======================================================== exact results

/-- A sum or a product. -/
def isArithmetic : Operator → Bool
  | .add | .mul => true
  | _ => false

/-- The sum or product of two numbers of no type. -/
def exact (op : Operator) (m n : Int) : Int := if op = .mul then m * n else m + n

theorem arith_exact (hop : op.isArithmetic = true) (t : Primitive) (m n : Int) :
    op.arith t m n = some (t.wrap (op.exact m n)) := by
  cases op <;> first | rfl | cases hop

theorem exact_assoc (op : Operator) (x m n : Int) :
    op.exact (op.exact x m) n = op.exact x (op.exact m n) := by
  unfold exact
  split
  · exact Int.mul_assoc x m n
  · exact Int.add_assoc x m n

theorem exact_comm (op : Operator) (m n : Int) : op.exact m n = op.exact n m := by
  unfold exact
  split
  · exact Int.mul_comm m n
  · exact Int.add_comm m n

theorem exact_modEq {k : Int} (op : Operator) (x : Int) (h : m ≡ n [ZMOD k]) :
    op.exact x m ≡ op.exact x n [ZMOD k] := by
  unfold exact
  split
  · exact h.mul_left x
  · exact h.add_left x

/-- Between two numbers on one side the results lie between those of the
two. -/
theorem exact_between {a b : Int} (op : Operator) (ha : a ≤ m) (hb : m ≤ b) (n : Int) :
    min (op.exact a n) (op.exact b n) ≤ op.exact m n
      ∧ op.exact m n ≤ max (op.exact a n) (op.exact b n) := by
  unfold exact
  split
  · rcases Int.le_total 0 n with hn | hn
    · exact ⟨min_le_of_left_le (Int.mul_le_mul_of_nonneg_right ha hn),
        le_max_of_le_right (Int.mul_le_mul_of_nonneg_right hb hn)⟩
    · exact ⟨min_le_of_right_le (Int.mul_le_mul_of_nonpos_right hb hn),
        le_max_of_le_left (Int.mul_le_mul_of_nonpos_right ha hn)⟩
  · omega

/-- The type holds the results at both ends of both operands, so it holds
all of them. -/
def isExact (op : Operator) (t : Primitive) (l r : Known) : Bool :=
  t.holds (op.exact l.least r.least) && t.holds (op.exact l.least r.greatest)
    && t.holds (op.exact l.greatest r.least) && t.holds (op.exact l.greatest r.greatest)

theorem holds_exact_between {a b : Int} (ht : t.isInteger = true) (ha : a ≤ m) (hb : m ≤ b)
    (hleft : t.holds (op.exact a n) = true) (hright : t.holds (op.exact b n) = true) :
    t.holds (op.exact m n) = true := by
  obtain ⟨hmin, hmax⟩ := op.exact_between ha hb n
  rw [Primitive.holds_iff ht] at hleft hright ⊢
  omega

theorem holds_exact (ht : t.isInteger = true) (h : op.isExact t l r = true)
    (hm : l.admits (.number m)) (hn : r.admits (.number n)) :
    t.holds (op.exact m n) = true := by
  obtain ⟨hlm, hmg⟩ := Known.between_of_admits hm
  obtain ⟨hln, hng⟩ := Known.between_of_admits hn
  simp only [isExact, Bool.and_eq_true] at h
  obtain ⟨⟨⟨hll, hlg⟩, hgl⟩, hgg⟩ := h
  -- first along the left operand, then along the right one
  have hleast := holds_exact_between ht hlm hmg hll hgl
  have hgreatest := holds_exact_between ht hlm hmg hlg hgg
  rw [op.exact_comm] at hleast hgreatest ⊢
  exact holds_exact_between ht hln hng hleast hgreatest

/-- The whole cannot tell the inner operation from the exact one. -/
def isFine (op : Operator) (inner outer : Primitive) (l r : Known) : Bool :=
  inner.bits = outer.bits || op.isExact inner l r

theorem wrap_exact_wrap (ht : inner.isInteger = true) (h : op.isFine inner outer l r = true)
    (hm : l.admits (.number m)) (hn : r.admits (.number n)) (x : Int) :
    outer.wrap (op.exact x (inner.wrap (op.exact m n)))
      = outer.wrap (op.exact x (op.exact m n)) := by
  rcases Bool.or_eq_true_iff.1 h with hbits | hexact
  · have hmod := inner.wrap_modEq (op.exact m n)
    rw [of_decide_eq_true hbits] at hmod
    exact Primitive.wrap_congr (op.exact_modEq x hmod)
  · rw [Primitive.wrap_of_holds (holds_exact ht hexact hm hn)]

end RegisterMap.Code.Operator

namespace RegisterMap.Code.Operator

open Exec (Known Scalar Sense)

variable {op : Operator} {t t' s s' : Primitive} {m n k i j : Int}

-- ============================================================ groupings

/-- The operation on patterns. -/
def patterns (op : Operator) (v w : BitVec 65) : BitVec 65 :=
  match op with
  | .and => v &&& w
  | .or => v ||| w
  | _ => v ^^^ w

theorem patterns_assoc (op : Operator) (u v w : BitVec 65) :
    op.patterns (op.patterns u v) w = op.patterns u (op.patterns v w) := by
  cases op <;> first
    | exact BitVec.and_assoc ..
    | exact BitVec.or_assoc ..
    | exact BitVec.xor_assoc ..

theorem wide_of_arith (hop : op.isBitwise = true) (hm : t.holds m = true) (hn : t.holds n = true)
    (h : op.arith t m n = some i) :
    Primitive.wide i = op.patterns (Primitive.wide m) (Primitive.wide n) := by
  obtain ⟨i', hi, hwide⟩ := wide_arith hop hm hn
  obtain rfl := Option.some.inj (h.symm.trans hi)
  exact hwide.trans (by cases op <;> rfl)

/-- Operations on bits may be grouped in any way, in whatever types they
are carried out. -/
theorem bitwise_assoc (hop : op.isBitwise = true) (ht' : t'.isInteger = true)
    (hs' : s'.isInteger = true) (hn : t.holds n = true) (hk : t.holds k = true)
    (hm : t'.holds m = true) (hi : t'.holds i = true) (hm' : s.holds m = true)
    (hn' : s.holds n = true) (hj : s'.holds j = true) (hk' : s'.holds k = true)
    (hni : op.arith t n k = some i) (hmj : op.arith s m n = some j) :
    op.arith s' j k = op.arith t' m i := by
  obtain ⟨right, hright, -⟩ := wide_arith hop hm hi
  obtain ⟨left, hleft, -⟩ := wide_arith hop hj hk'
  rw [hright, hleft]
  refine congrArg some (Primitive.eq_of_wide hs' ht' (holds_arith hleft) (holds_arith hright) ?_)
  rw [wide_of_arith hop hj hk' hleft, wide_of_arith hop hm hi hright,
    wide_of_arith hop hn hk hni, wide_of_arith hop hm' hn' hmj, patterns_assoc]

/-- Truth values may be grouped in any way, and the same operands are left
alone. -/
theorem truth_assoc (op : Operator) (t : Primitive) (x y z : Option Bool) :
    op.evaluate t (op.evaluate t (x.map .truth) (y.map .truth)) (z.map .truth)
      = op.evaluate t (x.map .truth) (op.evaluate t (y.map .truth) (z.map .truth)) := by
  rcases x with _ | x <;> rcases y with _ | y <;> rcases z with _ | z
  all_goals first
    | rfl
    | (cases op <;> cases x <;> rfl)
    | (cases op <;> cases x <;> cases y <;> rfl)
    | (cases op <;> cases x <;> cases y <;> cases z <;> rfl)

/-- Both operands of an operation are numbers, or both are truth values. -/
theorem carrier?_cases {l r : Known} (h : op.carrier? l r = some t) :
    l.type.isInteger = true ∧ r.type.isInteger = true
      ∨ l.type = .bool ∧ r.type = .bool ∧ t = .bool := by
  cases hl : l.type.isInteger with
  | false => exact Or.inr (carrier?_truth h (Or.inl hl))
  | true =>
    cases hr : r.type.isInteger with
    | false => exact Or.inr (carrier?_truth h (Or.inr hr))
    | true => exact Or.inl ⟨rfl, rfl⟩

theorem evaluate_number (op : Operator) (t : Primitive) (m : Int) (y : Option Scalar) :
    op.evaluate t (some (.number m)) y = y.bind (op.run t (.number m)) := by
  cases op <;> rfl

end RegisterMap.Code.Operator

namespace RegisterMap.Exec

open Code

namespace Sense

variable {op : Operator} {a b c bc ab left right l r s : Sense} {leaves : Leaves} {m n k : Int}

/-- The operation grouped to the right, inner one first. -/
def toRight (op : Operator) (a b c : Sense) : Option (Sense × Sense) := do
  let inner ← binary op b c
  let whole ← binary op a inner
  return (inner, whole)

/-- The operation grouped to the left, inner one first. -/
def toLeft (op : Operator) (a b c : Sense) : Option (Sense × Sense) := do
  let inner ← binary op a b
  let whole ← binary op inner c
  return (inner, whole)

/-- The operation may be grouped to the left instead of to the right. -/
def regroups (op : Operator) (a b c : Sense) : Bool :=
  match toRight op a b c, toLeft op a b c with
  | some (bc, right), some (ab, left) =>
    op.isBitwise || right.known.type = .bool
      || right.known.type = left.known.type
        && op.isFine bc.known.type right.known.type b.known c.known
        && op.isFine ab.known.type left.known.type a.known b.known
  | _, _ => false

theorem toRight_eq_some_iff :
    toRight op a b c = some (bc, right)
      ↔ binary op b c = some bc ∧ binary op a bc = some right := by
  simp [toRight, Option.bind_eq_some_iff]

theorem toLeft_eq_some_iff :
    toLeft op a b c = some (ab, left)
      ↔ binary op a b = some ab ∧ binary op ab c = some left := by
  simp [toLeft, Option.bind_eq_some_iff]

theorem regroups_eq (hright : toRight op a b c = some (bc, right))
    (hleft : toLeft op a b c = some (ab, left)) : regroups op a b c
      = (op.isBitwise || right.known.type = .bool
        || right.known.type = left.known.type
          && op.isFine bc.known.type right.known.type b.known c.known
          && op.isFine ab.known.type left.known.type a.known b.known) := by
  unfold regroups
  rw [hright, hleft]

/-- What an associative operation evaluates to. It is carried out in the
type of its result. -/
theorem value_binary (hop : op.isAssociative = true) (h : binary op l r = some s) :
    op.carrier? l.known r.known = some s.known.type
      ∧ ∀ leaves, s.value leaves = op.evaluate s.known.type (l.value leaves) (r.value leaves) := by
  obtain ⟨t, o, ht, -, rfl⟩ := binary_eq h
  have htype : op.resultType t = t := by
    unfold Operator.resultType
    split
    · next hpred =>
      -- the connectives are carried out on truth values
      have hland : op = .land ∨ op = .lor := by
        cases op <;> first | exact Or.inl rfl | exact Or.inr rfl | (cases hpred; done) | cases hop
      unfold Operator.carrier? at ht
      have hshift : op.isShift = false := by rcases hland with rfl | rfl <;> rfl
      rw [hshift, if_neg Bool.false_ne_true, if_pos hland] at ht
      split at ht
      · cases ht
      · split at ht
        · exact Option.some.inj ht
        · cases ht
    · rfl
  refine ⟨ht.trans (congrArg some htype.symm), fun leaves => ?_⟩
  show op.evaluate t _ _ = op.evaluate (op.resultType t) _ _
  rw [htype]

/-- An operation at work on two numbers. -/
structure Works (op : Operator) (s : Sense) (leaves : Leaves) (m n k : Int) : Prop where
  isInteger : s.known.type.isInteger = true
  left : s.known.type.holds m = true
  right : s.known.type.holds n = true
  arith : op.arith s.known.type m n = some k
  value : s.value leaves = some (.number k)

theorem Works.exact (h : Works op s leaves m n k) (hop : op.isArithmetic = true) :
    k = s.known.type.wrap (op.exact m n) :=
  (Option.some.inj ((Operator.arith_exact hop ..).symm.trans h.arith)).symm

theorem numeric_of_carrier? {x y : Known} {t : Primitive} (hop : op.isAssociative = true)
    (h : op.carrier? x y = some t) (hx : x.type.isInteger = true) (hy : y.type.isInteger = true) :
    op.isArithmetic = true ∨ op.isBitwise = true := by
  rw [Operator.carrier?_number hx hy] at h
  cases op <;> first
    | exact Or.inl rfl
    | exact Or.inr rfl
    | (cases hop; done)
    | cases h

theorem run_arith (hop : op.isArithmetic = true ∨ op.isBitwise = true) (t : Primitive) (m n : Int) :
    op.run t (.number m) (.number n) = (op.arith t m n).map .number := by
  cases op <;> first | rfl | (rcases hop with hop | hop <;> cases hop)

/-- An associative operation on numbers has a result. -/
theorem exists_works (hop : op.isAssociative = true) (h : binary op l r = some s) (hl : l.Admits)
    (hr : r.Admits) (hm : l.value leaves = some (.number m))
    (hn : r.value leaves = some (.number n)) : ∃ k, Works op s leaves m n k := by
  obtain ⟨ht, hvalue⟩ := value_binary hop h
  have hm' := hl leaves _ hm
  have hn' := hr leaves _ hn
  have hnumeric := numeric_of_carrier? hop ht (Known.isInteger_of_admits hm')
    (Known.isInteger_of_admits hn')
  have hshift : op.isShift = false := by cases op <;> first | rfl | cases hop
  obtain ⟨hint, hleft, hright⟩ := Operator.takes_of_carrier? ht hm' hn'
  obtain ⟨k, hk⟩ : ∃ k, op.arith s.known.type m n = some k := by
    rcases hnumeric with harith | hbits
    · exact ⟨_, Operator.arith_exact harith ..⟩
    · obtain ⟨k, hk, -⟩ := Operator.wide_arith hbits hleft (hright hshift)
      exact ⟨k, hk⟩
  refine ⟨k, hint, hleft, hright hshift, hk, ?_⟩
  rw [hvalue, hm, hn, Operator.evaluate_number]
  exact (run_arith hnumeric ..).trans (congrArg _ hk)

theorem exists_number (hs : s.Admits) (h : s.known.type.isInteger = true) (leaves : Leaves) :
    ∃ x : Option Int, s.value leaves = x.map .number := by
  cases hv : s.value leaves with
  | none => exact ⟨none, rfl⟩
  | some v =>
    cases v with
    | number n => exact ⟨some n, rfl⟩
    | truth b =>
      rw [Known.type_of_admits (hs leaves _ hv)] at h
      cases h

theorem exists_truth (hs : s.Admits) (h : s.known.type = .bool) (leaves : Leaves) :
    ∃ x : Option Bool, s.value leaves = x.map .truth := by
  cases hv : s.value leaves with
  | none => exact ⟨none, rfl⟩
  | some v =>
    cases v with
    | truth b => exact ⟨some b, rfl⟩
    | number n =>
      have hint := Known.isInteger_of_admits (hs leaves _ hv)
      rw [h] at hint
      cases hint

/-- Three numbers give the same either way, if the operation may be
regrouped. -/
theorem number_regrouped (hop : op.isAssociative = true) (ha : a.Admits) (hb : b.Admits)
    (hc : c.Admits) (hright : toRight op a b c = some (bc, right))
    (hleft : toLeft op a b c = some (ab, left)) (h : regroups op a b c = true)
    (hm : a.value leaves = some (.number m)) (hn : b.value leaves = some (.number n))
    (hk : c.value leaves = some (.number k)) : left.value leaves = right.value leaves := by
  rw [regroups_eq hright hleft] at h
  obtain ⟨hbc, hright⟩ := toRight_eq_some_iff.1 hright
  obtain ⟨hab, hleft⟩ := toLeft_eq_some_iff.1 hleft
  obtain ⟨i, hi⟩ := exists_works hop hbc hb hc hn hk
  obtain ⟨j, hj⟩ := exists_works hop hab ha hb hm hn
  obtain ⟨u, hu⟩ := exists_works hop hright ha (admits_binary hbc hb hc) hm hi.value
  obtain ⟨v, hv⟩ := exists_works hop hleft (admits_binary hab ha hb) hc hj.value hk
  rw [hu.value, hv.value]
  congr 2
  have hnumeric : op.isArithmetic = true ∨ op.isBitwise = true :=
    numeric_of_carrier? hop (value_binary hop hab).1 (Known.isInteger_of_admits (ha leaves _ hm))
      (Known.isInteger_of_admits (hb leaves _ hn))
  rcases hnumeric with harith | hbits
  · have hbits : op.isBitwise = false := by cases op <;> first | rfl | cases harith
    have hbool : right.known.type ≠ .bool := fun hbool => by
      have hint := hu.isInteger
      rw [hbool] at hint
      cases hint
    rw [hbits, decide_eq_false hbool, Bool.false_or, Bool.false_or, Bool.and_eq_true,
      Bool.and_eq_true, decide_eq_true_eq] at h
    obtain ⟨⟨htype, hfineRight⟩, hfineLeft⟩ := h
    calc v = left.known.type.wrap (op.exact k (ab.known.type.wrap (op.exact m n))) := by
          rw [hv.exact harith, hj.exact harith, Operator.exact_comm]
      _ = left.known.type.wrap (op.exact k (op.exact m n)) :=
          Operator.wrap_exact_wrap hj.isInteger hfineLeft (ha leaves _ hm) (hb leaves _ hn) k
      _ = right.known.type.wrap (op.exact m (op.exact n k)) := by
          rw [htype, Operator.exact_comm, Operator.exact_assoc]
      _ = right.known.type.wrap (op.exact m (bc.known.type.wrap (op.exact n k))) :=
          (Operator.wrap_exact_wrap hi.isInteger hfineRight (hb leaves _ hn)
            (hc leaves _ hk) m).symm
      _ = u := by rw [hu.exact harith, hi.exact harith]
  · have hassoc := Operator.bitwise_assoc hbits hu.isInteger hv.isInteger hi.left hi.right hu.left
      hu.right hj.left hj.right hv.left hv.right hi.arith hj.arith
    rw [hv.arith, hu.arith] at hassoc
    exact Option.some.inj hassoc

/-- The groupings give the same, if the operation may be regrouped. -/
theorem value_regrouped (hop : op.isAssociative = true) (ha : a.Admits) (hb : b.Admits)
    (hc : c.Admits) (hright : toRight op a b c = some (bc, right))
    (hleft : toLeft op a b c = some (ab, left)) (h : regroups op a b c = true)
    (leaves : Leaves) : left.value leaves = right.value leaves := by
  obtain ⟨hbc, hwhole⟩ := toRight_eq_some_iff.1 hright
  obtain ⟨hab, hwhole'⟩ := toLeft_eq_some_iff.1 hleft
  obtain ⟨hti, hi⟩ := value_binary hop hbc
  obtain ⟨htj, hj⟩ := value_binary hop hab
  obtain ⟨htu, hu⟩ := value_binary hop hwhole
  obtain ⟨htv, hv⟩ := value_binary hop hwhole'
  rcases Operator.carrier?_cases htj with ⟨hat, hbt⟩ | ⟨hat, hbt, hjt⟩
  · have hct : c.known.type.isInteger = true := by
      rcases Operator.carrier?_cases hti with ⟨-, hct⟩ | ⟨hbool, -, -⟩
      · exact hct
      · rw [hbool] at hbt
        cases hbt
    obtain ⟨x, hx⟩ := exists_number ha hat leaves
    obtain ⟨y, hy⟩ := exists_number hb hbt leaves
    obtain ⟨z, hz⟩ := exists_number hc hct leaves
    rcases x with _ | m
    · rw [hv, hj, hu, hx]
      rfl
    rcases y with _ | n
    · rw [hv, hj, hu, hi, hx, hy, Option.map_some, Operator.evaluate_number,
        Operator.evaluate_number]
      rfl
    rcases z with _ | k
    · obtain ⟨j, hj⟩ := exists_works hop hab ha hb hx hy
      rw [hv, hj.value, hu, hi, hx, hy, hz, Option.map_some, Option.map_some,
        Operator.evaluate_number, Operator.evaluate_number, Operator.evaluate_number]
      rfl
    exact number_regrouped hop ha hb hc hright hleft h hx hy hz
  · have hcases : c.known.type = .bool ∧ bc.known.type = .bool := by
      rcases Operator.carrier?_cases hti with ⟨hint, -⟩ | ⟨-, hct, hit⟩
      · rw [hbt] at hint
        cases hint
      · exact ⟨hct, hit⟩
    obtain ⟨x, hx⟩ := exists_truth ha hat leaves
    obtain ⟨y, hy⟩ := exists_truth hb hbt leaves
    obtain ⟨z, hz⟩ := exists_truth hc hcases.1 leaves
    have hut : right.known.type = .bool := by
      rcases Operator.carrier?_cases htu with ⟨hint, -⟩ | ⟨-, -, hut⟩
      · rw [hat] at hint
        cases hint
      · exact hut
    have hvt : left.known.type = .bool := by
      rcases Operator.carrier?_cases htv with ⟨hint, -⟩ | ⟨-, -, hvt⟩
      · rw [hjt] at hint
        cases hint
      · exact hvt
    rw [hv, hj, hu, hi, hx, hy, hz, hut, hvt, hjt, hcases.2]
    exact op.truth_assoc .bool x y z

end Sense

end RegisterMap.Exec

namespace RegisterMap.Code.Operator

open Exec (Known)

variable {op : Operator} {p q r inner inner' outer outer' : Primitive}

-- ========================================================= greatest values

/-- The number that changes nothing. -/
def neutral (op : Operator) : Int := if op = .mul then 1 else 0

/-- Grouped to the right. -/
def rightResult (op : Operator) (inner outer : Primitive) (x y z : Int) : Int :=
  outer.wrap (op.exact x (inner.wrap (op.exact y z)))

/-- Grouped to the left. -/
def leftResult (op : Operator) (inner outer : Primitive) (x y z : Int) : Int :=
  outer.wrap (op.exact (inner.wrap (op.exact x y)) z)

/-- The greatest values of two operands next to one that changes nothing. -/
def probes (op : Operator) (p q r : Primitive) : List (Int × Int × Int) :=
  [(op.neutral, q.high, r.high), (p.high, q.high, op.neutral)]

/-- Where the operation may not be regrouped, a probe tells. -/
def isExposed (op : Operator) (p q r : Primitive) : Bool :=
  match q.common r, p.common q with
  | some inner, some inner' =>
    match p.common inner, inner'.common r with
    | some outer, some outer' =>
      outer = outer' && op.isFine inner outer ⟨q, none⟩ ⟨r, none⟩
          && op.isFine inner' outer' ⟨p, none⟩ ⟨q, none⟩
        || (op.probes p q r).any fun (x, y, z) =>
          op.leftResult inner' outer' x y z != op.rightResult inner outer x y z
    | _, _ => true
  | _, _ => true

theorem isExposed_of_isInteger : ∀ op ∈ [add, mul], ∀ p ∈ Primitive.all.filter Primitive.isInteger,
    ∀ q ∈ Primitive.all.filter Primitive.isInteger, ∀ r ∈ Primitive.all.filter Primitive.isInteger,
      op.isExposed p q r = true := by
  decide +kernel

theorem mem_integers (hp : p.isInteger = true) : p ∈ Primitive.all.filter Primitive.isInteger :=
  List.mem_filter.2 ⟨by cases p <;> decide, hp⟩

theorem exists_apart (hop : op.isArithmetic = true) (hp : p.isInteger = true)
    (hq : q.isInteger = true) (hr : r.isInteger = true) (hinner : q.common r = some inner)
    (houter : p.common inner = some outer) (hinner' : p.common q = some inner')
    (houter' : inner'.common r = some outer')
    (h : (outer = outer' && op.isFine inner outer ⟨q, none⟩ ⟨r, none⟩
      && op.isFine inner' outer' ⟨p, none⟩ ⟨q, none⟩) = false) :
    ∃ x y z, p.holds x = true ∧ q.holds y = true ∧ r.holds z = true
      ∧ op.leftResult inner' outer' x y z ≠ op.rightResult inner outer x y z := by
  have hop' : op ∈ [add, mul] := by cases op <;> first | decide | cases hop
  have hneutral : ∀ {p : Primitive}, p.isInteger = true → p.holds op.neutral = true := by
    intro p hp
    cases p <;> cases op <;> first | decide | (cases hop; done) | cases hp
  have hall := isExposed_of_isInteger op hop' p (mem_integers hp) q (mem_integers hq) r
    (mem_integers hr)
  unfold isExposed at hall
  simp only [hinner, hinner', houter, houter', h, Bool.false_or] at hall
  obtain ⟨⟨x, y, z⟩, hmem, hne⟩ := List.any_eq_true.1 hall
  refine ⟨x, y, z, ?_, ?_, ?_, bne_iff_ne.1 hne⟩
  all_goals
    simp only [probes, List.mem_cons, Prod.mk.injEq, List.not_mem_nil, or_false] at hmem
    obtain ⟨rfl, rfl, rfl⟩ | ⟨rfl, rfl, rfl⟩ := hmem
    all_goals first | exact Primitive.holds_high _ | exact hneutral ‹_›

end RegisterMap.Code.Operator

namespace RegisterMap.Exec

open Code

namespace Sense

variable {op : Operator} {a b c bc ab left right l r s : Sense} {leaves : Leaves} {m n k : Int}
  {u v w : Scalar}

/-- The operands take all values of their types, each whatever the others
are. -/
def Free (a b c : Sense) : Prop :=
  ∀ u v w : Scalar, u.isOf a.known.type = true → v.isOf b.known.type = true →
    w.isOf c.known.type = true →
      ∃ leaves, a.value leaves = some u ∧ b.value leaves = some v ∧ c.value leaves = some w

/-- Operands that have values leave an associative operation with one. -/
theorem exists_value (hop : op.isAssociative = true) (h : binary op l r = some s) (hl : l.Admits)
    (hr : r.Admits) (hu : l.value leaves = some u) (hv : r.value leaves = some v) :
    ∃ w, s.value leaves = some w := by
  obtain ⟨ht, hvalue⟩ := value_binary hop h
  rcases Operator.carrier?_cases ht with ⟨hlt, hrt⟩ | ⟨hlt, hrt, -⟩
  · obtain ⟨_ | m, hm⟩ := exists_number hl hlt leaves
    · cases hu.symm.trans hm
    obtain ⟨_ | n, hn⟩ := exists_number hr hrt leaves
    · cases hv.symm.trans hn
    obtain ⟨k, hk⟩ := exists_works hop h hl hr hm hn
    exact ⟨_, hk.value⟩
  · obtain ⟨_ | x, hx⟩ := exists_truth hl hlt leaves
    · cases hu.symm.trans hx
    obtain ⟨_ | y, hy⟩ := exists_truth hr hrt leaves
    · cases hv.symm.trans hy
    have hconnect : (op.connect true true).isSome = true := by
      unfold Operator.carrier? at ht
      rw [hlt, hrt] at ht
      by_contra hnone
      rw [if_neg (by decide), if_neg (fun hc => hnone hc.2.2)] at ht
      cases ht
    rw [hvalue, hx, hy]
    cases op <;> cases x <;> cases y <;> first | exact ⟨_, rfl⟩ | cases hconnect

/-- Two values of a type. -/
theorem exists_ne {p : Primitive} (hp : p.isInteger = true ∨ p = .bool) :
    ∃ u v : Scalar, u.isOf p = true ∧ v.isOf p = true ∧ u ≠ v := by
  rcases hp with hp | rfl
  · refine ⟨.number 0, .number 1, ?_, ?_, by decide⟩ <;>
      (cases p <;> first | decide | cases hp)
  · exact ⟨.truth false, .truth true, rfl, rfl, by decide⟩

theorem constant_eq_none (hs : s.Admits) (hne : u ≠ v) (hu : ∃ leaves, s.value leaves = some u)
    (hv : ∃ leaves, s.value leaves = some v) : s.known.constant = none := by
  obtain ⟨_, hu⟩ := hu
  obtain ⟨_, hv⟩ := hv
  cases hc : s.known.constant with
  | none => rfl
  | some c => exact absurd (((hs _ _ hu).2 c hc).trans ((hs _ _ hv).2 c hc).symm) hne

/-- No free operand is a constant. -/
theorem Free.constants (h : Free a b c) (ha : a.Admits) (hb : b.Admits) (hc : c.Admits)
    (hat : a.known.type.isInteger = true ∨ a.known.type = .bool)
    (hbt : b.known.type.isInteger = true ∨ b.known.type = .bool)
    (hct : c.known.type.isInteger = true ∨ c.known.type = .bool) :
    a.known.constant = none ∧ b.known.constant = none ∧ c.known.constant = none := by
  obtain ⟨u, u', hu, hu', hune⟩ := exists_ne hat
  obtain ⟨v, v', hv, hv', hvne⟩ := exists_ne hbt
  obtain ⟨w, w', hw, hw', hwne⟩ := exists_ne hct
  obtain ⟨_, hau, hbv, hcw⟩ := h u v w hu hv hw
  obtain ⟨_, hau', hbv', hcw'⟩ := h u' v' w' hu' hv' hw'
  exact ⟨constant_eq_none ha hune ⟨_, hau⟩ ⟨_, hau'⟩, constant_eq_none hb hvne ⟨_, hbv⟩ ⟨_, hbv'⟩,
    constant_eq_none hc hwne ⟨_, hcw⟩ ⟨_, hcw'⟩⟩

/-- The type and the value of a sum or product of numbers that are no
constants. -/
theorem binary_variables {p q : Primitive} (hop : op.isArithmetic = true)
    (hl : l.known = ⟨p, none⟩) (hr : r.known = ⟨q, none⟩) (hp : p.isInteger = true)
    (hq : q.isInteger = true) (h : binary op l r = some s) :
    p.common q = some s.known.type ∧ s.known = ⟨s.known.type, none⟩
      ∧ s.known.type.isInteger = true := by
  obtain ⟨t, o, ht, ho, rfl⟩ := binary_eq h
  rw [hl, hr] at ht ho
  obtain rfl := Option.some.inj ho
  rw [Operator.carrier?_number hp hq] at ht
  have hcommon : p.common q = some t := by cases op <;> first | exact ht | cases hop
  have htype : op.resultType t = t := by cases op <;> first | rfl | cases hop
  dsimp only
  rw [htype]
  exact ⟨hcommon, rfl,
    (Primitive.isInteger_of_widensTo (Primitive.common_widens hcommon hp hq).1).2⟩

/-- Numbers of any values tell the groupings of a sum or product apart. -/
theorem exists_differing (hop : op.isArithmetic = true) (ha : a.Admits) (hb : b.Admits)
    (hc : c.Admits) (hat : a.known.type.isInteger = true) (hbt : b.known.type.isInteger = true)
    (hct : c.known.type.isInteger = true) (hright : toRight op a b c = some (bc, right))
    (hleft : toLeft op a b c = some (ab, left)) (hfree : Free a b c)
    (h : regroups op a b c = false) : ∃ leaves, left.value leaves ≠ right.value leaves := by
  have hassoc : op.isAssociative = true := by cases op <;> first | rfl | cases hop
  rw [regroups_eq hright hleft] at h
  obtain ⟨hbc, hright⟩ := toRight_eq_some_iff.1 hright
  obtain ⟨hab, hleft⟩ := toLeft_eq_some_iff.1 hleft
  obtain ⟨hca, hcb, hcc⟩ := hfree.constants ha hb hc (.inl hat) (.inl hbt) (.inl hct)
  have hka : a.known = ⟨a.known.type, none⟩ := hca ▸ rfl
  have hkb : b.known = ⟨b.known.type, none⟩ := hcb ▸ rfl
  have hkc : c.known = ⟨c.known.type, none⟩ := hcc ▸ rfl
  obtain ⟨hinner, hkbc, hbct⟩ := binary_variables hop hkb hkc hbt hct hbc
  obtain ⟨hinner', hkab, habt⟩ := binary_variables hop hka hkb hat hbt hab
  obtain ⟨houter, -, -⟩ := binary_variables hop hka hkbc hat hbct hright
  obtain ⟨houter', -, -⟩ := binary_variables hop hkab hkc habt hct hleft
  rw [hka, hkb, hkc] at h
  obtain ⟨x, y, z, hx, hy, hz, hne⟩ := Operator.exists_apart hop hat hbt hct hinner houter hinner'
    houter' (Bool.or_eq_false_iff.1 h).2
  have isOf_number : ∀ {p : Primitive} {n : Int}, p.isInteger = true → p.holds n = true →
      (Scalar.number n).isOf p = true := fun hp hn => Bool.and_eq_true_iff.2 ⟨hp, hn⟩
  obtain ⟨leaves, hax, hby, hcz⟩ := hfree _ _ _ (isOf_number hat hx) (isOf_number hbt hy)
    (isOf_number hct hz)
  obtain ⟨i, hi⟩ := exists_works hassoc hbc hb hc hby hcz
  obtain ⟨j, hj⟩ := exists_works hassoc hab ha hb hax hby
  obtain ⟨u, hu⟩ := exists_works hassoc hright ha (admits_binary hbc hb hc) hax hi.value
  obtain ⟨v, hv⟩ := exists_works hassoc hleft (admits_binary hab ha hb) hc hj.value hcz
  refine ⟨leaves, fun hsame => hne ?_⟩
  unfold Operator.leftResult Operator.rightResult
  rw [hv.value, hu.value] at hsame
  injection hsame with hsame
  injection hsame with hsame
  rw [← hj.exact hop, ← hv.exact hop, ← hi.exact hop, ← hu.exact hop, hsame]

/-- Free operands tell the groupings apart, if the operation may not be
regrouped. -/
theorem regroups_of_free (hop : op.isAssociative = true) (ha : a.Admits) (hb : b.Admits)
    (hc : c.Admits) (hright : toRight op a b c = some (bc, right)) (hfree : Free a b c)
    (h : ∀ leaves, ((toLeft op a b c).bind fun s => s.2.value leaves) = right.value leaves) :
    regroups op a b c = true := by
  obtain ⟨hbc, hwhole⟩ := toRight_eq_some_iff.1 hright
  have htypes := Operator.carrier?_cases (value_binary hop hbc).1
  have hat : a.known.type.isInteger = true ∨ a.known.type = .bool :=
    (Operator.carrier?_cases (value_binary hop hwhole).1).imp And.left And.left
  have hbt := htypes.imp And.left And.left
  have hct : c.known.type.isInteger = true ∨ c.known.type = .bool :=
    htypes.imp And.right fun h => h.2.1
  cases hleft : toLeft op a b c with
  | none =>
    -- one grouping has a value and the other has no meaning
    obtain ⟨u, -, hu, -⟩ := exists_ne hat
    obtain ⟨v, -, hv, -⟩ := exists_ne hbt
    obtain ⟨w, -, hw, -⟩ := exists_ne hct
    obtain ⟨leaves, hau, hbv, hcw⟩ := hfree u v w hu hv hw
    obtain ⟨i, hi⟩ := exists_value hop hbc hb hc hbv hcw
    obtain ⟨k, hk⟩ := exists_value hop hwhole ha (admits_binary hbc hb hc) hau hi
    have hsame := h leaves
    rw [hleft, hk] at hsame
    cases hsame
  | some pair =>
    obtain ⟨ab, left⟩ := pair
    obtain ⟨hab, hwhole'⟩ := toLeft_eq_some_iff.1 hleft
    rw [regroups_eq hright hleft]
    rcases hat with hat | hat
    · have hbt : b.known.type.isInteger = true := by
        rcases Operator.carrier?_cases (value_binary hop hab).1 with ⟨-, hbt⟩ | ⟨hbool, -, -⟩
        · exact hbt
        · rw [hbool] at hat
          cases hat
      have hct : c.known.type.isInteger = true := by
        rcases htypes with ⟨-, hct⟩ | ⟨hbool, -, -⟩
        · exact hct
        · rw [hbool] at hbt
          cases hbt
      rcases numeric_of_carrier? hop (value_binary hop hbc).1 hbt hct with harith | hbits
      · rw [← regroups_eq hright hleft]
        by_contra hno
        obtain ⟨leaves, hne⟩ := exists_differing harith ha hb hc hat hbt hct hright hleft hfree
          (Bool.eq_false_iff.2 hno)
        have hsame := h leaves
        rw [hleft] at hsame
        exact hne hsame
      · rw [hbits, Bool.true_or, Bool.true_or]
    · have hbool : right.known.type = .bool := by
        rcases Operator.carrier?_cases (value_binary hop hwhole).1 with ⟨hint, -⟩ | ⟨-, -, hbool⟩
        · rw [hat] at hint
          cases hint
        · exact hbool
      rw [decide_eq_true hbool, Bool.or_true, Bool.true_or]

end Sense

end RegisterMap.Exec
namespace RegisterMap.Exec

open Code

/-- An operation as code, whatever type it is taken to have. -/
def applied (op : Operator) (type : TypeRef) (l r : Shape) : Shape :=
  .above (.binary op type) [[l], [r]]

variable {op : Operator} {x y z : Shape} {a b c : Sense} {inner inner' outer outer' : TypeRef}

theorem sense_applied (op : Operator) (type : TypeRef) (x y : Shape) :
    sense (applied op type x y)
      = (sense x).bind fun a => (sense y).bind fun b => Sense.binary op a b := by
  refine (sense_node ..).trans ?_
  show nodeSense _ [[sense x], [sense y]] = _
  cases sense x <;> cases sense y <;> rfl

theorem sense_right (hx : sense x = some a) (hy : sense y = some b) (hz : sense z = some c) :
    sense (applied op outer x (applied op inner y z))
      = (Sense.toRight op a b c).map Prod.snd := by
  unfold Sense.toRight
  rw [sense_applied, sense_applied, hx, hy, hz]
  simp [Option.map_bind]

theorem sense_left (hx : sense x = some a) (hy : sense y = some b) (hz : sense z = some c) :
    sense (applied op outer (applied op inner x y) z) = (Sense.toLeft op a b c).map Prod.snd := by
  unfold Sense.toLeft
  rw [sense_applied, sense_applied, hx, hy, hz]
  simp [Option.map_bind]

/-- The operands of an associative operator that is grouped to the right
and has a meaning. Grouped to the left it has the same value if it may be
regrouped, and only then if the operands are free to have any value. -/
theorem regrouped_value_iff (hop : op.isAssociative = true) (hx : sense x = some a)
    (hy : sense y = some b) (hz : sense z = some c)
    (hmeans : (sense (applied op outer x (applied op inner y z))).isSome = true) :
    (Sense.regroups op a b c = true → ∀ leaves,
        evaluate leaves (applied op outer' (applied op inner' x y) z)
          = evaluate leaves (applied op outer x (applied op inner y z)))
      ∧ (Sense.Free a b c →
        (∀ leaves, evaluate leaves (applied op outer' (applied op inner' x y) z)
          = evaluate leaves (applied op outer x (applied op inner y z))) →
        Sense.regroups op a b c = true) := by
  have ha := sense_admits hx
  have hb := sense_admits hy
  have hc := sense_admits hz
  rw [sense_right hx hy hz] at hmeans
  simp only [evaluate, sense_right hx hy hz, sense_left hx hy hz, Option.bind_map]
  cases hright : Sense.toRight op a b c with
  | none =>
    rw [hright] at hmeans
    cases hmeans
  | some pair =>
    obtain ⟨bc, right⟩ := pair
    refine ⟨fun h leaves => ?_, fun hfree h => Sense.regroups_of_free hop ha hb hc hright hfree h⟩
    cases hleft : Sense.toLeft op a b c with
    | none =>
      unfold Sense.regroups at h
      rw [hright, hleft] at h
      cases h
    | some pair =>
      obtain ⟨ab, left⟩ := pair
      exact Sense.value_regrouped hop ha hb hc hright hleft h leaves

-- ============================================================ variables

/-- A variable. -/
def operand (name : String) (p : Primitive) : Shape := .leaf (.snippetExpr name (.primitive p))

/-- What a variable stands for. -/
def Sense.ofOperand (name : String) (p : Primitive) : Sense :=
  ⟨⟨p, none⟩, fun leaves => some (leaves.value (.snippetExpr name (.primitive p)))⟩

theorem sense_operand {p : Primitive} (hp : p ≠ .string) (name : String) :
    sense (operand name p) = some (.ofOperand name p) := by
  refine sense_of_leaf ?_ {} []
  exact if_neg hp

/-- Variables take any values. -/
theorem free_operands {l m n : String} (hlm : l ≠ m) (hln : l ≠ n) (hmn : m ≠ n)
    (p q r : Primitive) : Sense.Free (.ofOperand l p) (.ofOperand m q) (.ofOperand n r) := by
  intro u v w hu hv hw
  have only : ∀ {name : String} {p p' : Primitive} {v : Scalar}, v.isOf p = true →
      (Kind.snippetExpr name (.primitive p)).exprType = some (.primitive p') →
        v.isOf p' = true := by
    intro name p p' v hv hp
    injection hp with hp
    injection hp with hp
    exact hp ▸ hv
  refine ⟨((Leaves.zero.set (.snippetExpr l (.primitive p)) u fun _ h _ => only hu h).set
    (.snippetExpr m (.primitive q)) v fun _ h _ => only hv h).set
    (.snippetExpr n (.primitive r)) w fun _ h _ => only hw h, ?_, ?_, ?_⟩
  · simp [Sense.ofOperand, Leaves.set, hlm, hln]
  · simp [Sense.ofOperand, Leaves.set, hmn]
  · simp [Sense.ofOperand, Leaves.set]

/-- Bytes may be regrouped next to an `int`; an `int` may not next to a
`long`. -/
theorem regrouped_value_iff_variables :
    (∀ leaves, evaluate leaves
        (applied .add .int (applied .add .int (operand "a" .byte) (operand "b" .byte))
          (operand "c" .int))
      = evaluate leaves
        (applied .add .int (operand "a" .byte)
          (applied .add .int (operand "b" .byte) (operand "c" .int))))
    ∧ ¬ ∀ leaves, evaluate leaves
        (applied .add .long (applied .add .int (operand "a" .int) (operand "b" .int))
          (operand "c" .long))
      = evaluate leaves
        (applied .add .int (operand "a" .int)
          (applied .add .int (operand "b" .int) (operand "c" .long))) := by
  have named : ∀ name {p : Primitive}, p ≠ .string →
      sense (operand name p) = some (.ofOperand name p) := fun name _ hp => sense_operand hp name
  constructor
  · exact (regrouped_value_iff rfl (named "a" (by decide)) (named "b" (by decide))
      (named "c" (by decide)) (by decide)).1 (by decide)
  · intro h
    have hregroups := (regrouped_value_iff rfl (named "a" (by decide)) (named "b" (by decide))
      (named "c" (by decide)) (by decide)).2
      (free_operands (by decide) (by decide) (by decide) .int .int .long) h
    exact absurd hregroups (by decide)

/-- `a + (b + c)`, built without parentheses from two variables of type
`int` and one of type `long`. -/
def mixedSum : Sketch :=
  .binary .add (.snippetExpr "a" .int)
    (.binary .add (.snippetExpr "b" .int) (.snippetExpr "c" .long))

/-- The numbers one and the greatest `int`. -/
def greatInts : Leaves :=
  (Leaves.zero.set (.snippetExpr "a" .int) (.number 1) fun p hp _ => by
    obtain rfl : Primitive.int = p := by injection hp with hp; injection hp
    rfl).set (.snippetExpr "b" .int) (.number (2 ^ 31 - 1)) fun p hp _ => by
      obtain rfl : Primitive.int = p := by injection hp with hp; injection hp
      rfl

/-- The text of the sum is that of the sum grouped to the left, whose inner
sum leaves the type it is carried out in. -/
theorem mixedSum_differs : ∃ (t t' : Tree) (x : Planted), mixedSum.plant {} = (.ok x.tag, t)
    ∧ x.shape = applied .add .int (operand "a" .int)
        (applied .add .int (operand "b" .int) (operand "c" .long))
    ∧ Edit.parenthesize x.tag t = (.ok (), t') ∧ t'.emit x.tag {} = .ok "a + b + c"
    ∧ (∀ d, Expression.Reads "a + b + c" d
        ↔ d = .binary .add (.binary .add (.atom "a") (.atom "b")) (.atom "c"))
    ∧ evaluate greatInts x.shape = some (.number (2 ^ 31))
    ∧ evaluate greatInts (applied .add .int (applied .add .int (operand "a" .int)
        (operand "b" .int)) (operand "c" .long)) = some (.number (-2 ^ 31)) := by
  have hfits : mixedSum.Fits (fun _ => .int) (fun _ => []) fun _ => False := by
    simp [mixedSum, Sketch.Fits, Sketch.IsExpr, Sketch.code, Term.typeOf, Term.typeOf?,
      Shape.leaf, Shape.above, Kind.exprType, Operator.isShift]
  obtain ⟨t, x, hplant, hstands, hshape⟩ := Sketch.stands_alone mixedSum rfl hfits rfl
  have hdenotes : x.shape.Denotes t.name ({} : EmitOptions).Omits
      (.binary .add (.atom "a") (.binary .add (.atom "b") (.atom "c"))) := by
    rw [hshape]
    exact .binary omits_plain (.atom omits_plain rfl)
      (.binary omits_plain (.atom omits_plain rfl) (.atom omits_plain rfl))
  have hlegible : (Expression.binary .add (.atom "a")
      (.binary .add (.atom "b") (.atom "c"))).Legible := by decide
  obtain ⟨t', hrun, hemit⟩ := parenthesize_emits hstands hdenotes hlegible
  refine ⟨t, t', x, hplant, hshape, hrun, hemit, fun d => ?_, hshape ▸ by decide, by decide⟩
  have hreads : ∀ d, Expression.Reads "a + b + c" d ↔ Derives condTier _ d := fun d =>
    (Expression.legible_ordered hlegible).reads_iff (by decide)
  have hleft : Derives condTier [.atom "a", .operator .add, .atom "b", .operator .add, .atom "c"]
      (.binary .add (.binary .add (.atom "a") (.atom "b")) (.atom "c")) := by
    have leaf : ∀ text, Derives (Operator.add.tier + 1) [.atom text] (.atom text) := fun text =>
      .loosen (by decide) (.atom text)
    have first : Derives Operator.add.tier [.atom "a"] (.atom "a") :=
      .loosen (by decide) (.atom "a")
    have inner := Derives.binary .add first (leaf "b")
    have whole := Derives.binary .add inner (leaf "c")
    exact .loosen (by decide) whole
  obtain ⟨g, -, hunique, -⟩ := (Expression.binary .add (.atom "a")
    (.binary .add (.atom "b") (.atom "c"))).spells_ordered
  constructor
  · intro hd
    rw [hunique d ((hreads d).1 hd), hunique _ hleft]
  · rintro rfl
    exact (hreads _).2 hleft

end RegisterMap.Exec
