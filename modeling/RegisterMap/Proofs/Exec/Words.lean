/-
Expressions that are double words, and are taken to be. Operations on them
are those on natural numbers below 2^32; a mask of a byte may be left out
where the expression it is applied to is taken to be a byte, and then only
the low byte of the value is known.
-/
import RegisterMap.Proofs.Exec.Counting

namespace RegisterMap.Exec

open Code Term

variable {ctx : Context} {s : Store} {c cl cr : List Shape} {m n k : Nat}

/-- The code is a double word, and is taken to be one. -/
def GivesWord (ctx : Context) (s : Store) (c : List Shape) (n : Nat) : Prop :=
  Gives ctx s c (.uint, none) (.int .uint n) ∧ n < 2 ^ 32

/-- A shift by a literal count. -/
theorem GivesWord.shift {op : Operator} (hop : op.isShift = true) {f : Nat → Nat → Nat}
    (hf : ∀ n, f n 0 = n) (h : GivesWord ctx s c n) (hk : k < 32)
    (hsh : op.shift .uint n k = (f n k : Nat) ∧ f n k < 2 ^ 32) :
    GivesWord ctx s [.above (.binary op .uint)
      [c, [.leaf (.intLit k (literalType false (2 ^ 31 ≤ k)) false)]]] (f n k) := by
  have hint : Gives ctx s [.leaf (.intLit k (literalType false (2 ^ 31 ≤ k)) false)] _ _ :=
    gives_int false (Nat.lt_trans hk (by decide))
  have hsurv : survives op (.uint, none) (.int, some k) = if k = 0 then some true else none := by
    cases op with
    | shl | shr | ushr =>
      unfold survives
      simp only [Option.some.injEq]
    | _ => cases hop
  by_cases h0 : k = 0
  · rw [if_pos h0] at hsurv
    have hleft := h.1.left .uint hint hsurv
    subst h0
    rw [hf]
    exact ⟨hleft, h.2⟩
  · rw [if_neg h0] at hsurv
    have hland : op ≠ .land := by
      rintro rfl
      cases hop
    have hlor : op ≠ .lor := by
      rintro rfl
      cases hop
    refine ⟨?_, hsh.2⟩
    rw [← hsh.1]
    exact h.1.binary .uint hint hsurv hland hlor (operate_shift hop rfl)

theorem GivesWord.shl (h : GivesWord ctx s c n) (hk : k < 32) (hn : n <<< k < 2 ^ 32) :
    GivesWord ctx s [.above (.binary .shl .uint)
      [c, [.leaf (.intLit k (literalType false (2 ^ 31 ≤ k)) false)]]] (n <<< k) :=
  h.shift rfl (f := fun n k => n <<< k) (fun _ => Nat.shiftLeft_zero) hk
    ⟨Operator.shift_shl (p := .uint) hk hn, hn⟩

theorem GivesWord.shr (h : GivesWord ctx s c n) (hk : k < 32) :
    GivesWord ctx s [.above (.binary .shr .uint)
      [c, [.leaf (.intLit k (literalType false (2 ^ 31 ≤ k)) false)]]] (n >>> k) :=
  h.shift rfl (f := fun n k => n >>> k) (fun _ => Nat.shiftRight_zero) hk
    ⟨Operator.shift_shr (p := .uint) hk h.2, Nat.lt_of_le_of_lt (Nat.shiftRight_le ..) h.2⟩

theorem GivesWord.or (hl : GivesWord ctx s cl m) (hr : GivesWord ctx s cr n) :
    GivesWord ctx s [.above (.binary .or .uint) [cl, cr]] (m ||| n) := by
  obtain ⟨hval, hlt⟩ := Operator.computes_or .uint m n hl.2 hr.2
  exact ⟨hl.1.binary .uint hr.1 rfl Operator.noConfusion Operator.noConfusion
    (operate_arith (fun hc => nomatch hc) (fun hc => nomatch hc) rfl rfl rfl hval), hlt⟩

/-- Every bit of the low byte is inverted. -/
theorem GivesWord.xor_mask (h : GivesWord ctx s c n) (hk : k < 2 ^ 32) (h0 : k ≠ 0) :
    GivesWord ctx s [.above (.binary .xor .uint)
      [c, [.leaf (.intLit k (literalType true (2 ^ 32 ≤ k)) true)]]] (n ^^^ k) := by
  have hlit : Gives ctx s [.leaf (.intLit k .uint true)] (.uint, some k) (.int .uint k) :=
    gives_literal true hk
  have hsurv : survives .xor (.uint, none) (.uint, some k) = none := by
    unfold survives
    simp [h0]
  obtain ⟨hval, hlt⟩ := Operator.computes_xor .uint n k h.2 hk
  rw [literalType_mask, maskType_of_lt hk]
  exact ⟨h.1.binary .uint hlit hsurv Operator.noConfusion Operator.noConfusion
    (operate_arith (fun hc => nomatch hc) (fun _ => stays_of_unsigned .uint (Or.inl rfl)) rfl rfl
      rfl hval), hlt⟩

/-- A mask of a byte, on an expression that is taken to be a byte or a
double word; the low byte has the bits that the mask selects. -/
theorem gives_maskedLow {st : TypeRef} (hst : st = .byte ∨ st = .uint)
    (h : Gives ctx s c (st, none) (.int .uint n)) (hn : n < 2 ^ 32) (hk : k < 256) (h0 : k ≠ 0)
    (type : TypeRef) :
    ∃ n', Counts ctx s [.above (.binary .and type)
        [c, [.leaf (.intLit k (literalType true (2 ^ 32 ≤ k)) true)]]] [.uint] n'
      ∧ ∀ j < 8, n'.testBit j = (k.testBit j && n.testBit j) := by
  have htype := maskType_of_lt (Nat.lt_trans hk (by decide : 256 < 2 ^ 32))
  rcases gives_masked (q := .uint) type true h hn (Nat.lt_trans hk (by decide)) (by rw [htype]; rfl)
    (Nat.le_refl _) with ⟨-, hones, hg⟩ | ⟨hzero, -⟩ | ⟨-, hg⟩
  · refine ⟨n, counts_plain hg hn, fun j hj => ?_⟩
    have hbit : k.testBit j = true := by
      rcases hst with rfl | rfl
      · rw [show k = 2 ^ 8 - 1 from (Option.some.inj hones).symm, Nat.testBit_two_pow_sub_one]
        exact decide_eq_true hj
      · rw [show k = 2 ^ 32 - 1 from (Option.some.inj hones).symm, Nat.testBit_two_pow_sub_one]
        exact decide_eq_true (by omega)
    rw [hbit, Bool.true_and]
  · exact absurd hzero h0
  · refine ⟨n &&& k, counts_plain hg (Nat.lt_of_le_of_lt Nat.and_le_left hn), fun j _ => ?_⟩
    rw [Nat.testBit_and, Bool.and_comm]

end RegisterMap.Exec
