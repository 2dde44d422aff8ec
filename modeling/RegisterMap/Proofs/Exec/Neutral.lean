/-
The removal of operations without effect and the values of expressions.
An operation that is removed gives the value of the operand that is left
(`run_surviving`); what may change is its type, and with it the type in
which an operation above is carried out, and a mask may have cut off what
the expression below it had beyond the bits of the type it is taken to
have. So the value is kept (`sense_reduced`) under two conditions on the
code (`isFaithful`): a mask goes only from an expression that is held by
it, and the operations that stay are carried out in types that make no
difference to them. `byteSum` shows what happens without the first one.

The induction is on the expression. What carries it is that every operand
has the same value in its reduced form, and that the types on both sides
hold it.
-/
import RegisterMap.Proofs.Exec.Sense
import RegisterMap.Proofs.Code.Settling

namespace RegisterMap.Code.Operator

open Exec (Known Scalar)

variable {op : Operator} {t t' : Primitive} {a b : Scalar} {m n : Int}

/-- The result of the operation is the same in both types, if they hold
the operands. -/
def isIndifferent (op : Operator) (t t' : Primitive) : Bool :=
  t = t' || op.isBitwise || op.isPredicate
    || (op = .shr || op = .ushr) && t.bits = t'.bits

theorem run_indifferent (h : op.isIndifferent t t' = true) (ht : op.takes t a b)
    (ht' : op.takes t' a b) : op.run t a b = op.run t' a b := by
  cases a with
  | truth a =>
    cases b with
    | truth b => rfl
    | number n => exact ht.elim
  | number m =>
    cases b with
    | truth b => exact ht.elim
    | number n =>
      obtain ⟨hint, hm, hn⟩ := ht
      obtain ⟨hint', hm', hn'⟩ := ht'
      rw [run_number, run_number]
      unfold isIndifferent at h
      rw [Bool.or_eq_true_iff, Bool.or_eq_true_iff, Bool.or_eq_true_iff] at h
      rcases h with ((h | h) | h) | h
      · rw [of_decide_eq_true h]
      · have hshift : op.isShift = false := by cases op <;> first | rfl | cases h
        rw [arith_bitwise h hint hint' hm (hn hshift) hm' (hn' hshift), hshift]
        rfl
      · cases op <;> first | rfl | cases h
      · obtain ⟨hop, hbits⟩ := Bool.and_eq_true_iff.1 h
        have hop' : op = .shr ∨ op = .ushr := by simpa using hop
        rw [shift_agrees hop' hint hint' (of_decide_eq_true hbits) hm hm']
        rcases hop' with rfl | rfl <;> rfl

-- ======================================================= neutral operands

theorem run_zero_right (hop : op ∈ [or, xor, add, sub, shl, shr, ushr])
    (ht : op.takes t a (.number 0)) : op.run t a (.number 0) = some a := by
  cases a with
  | truth a => exact ht.elim
  | number m =>
    obtain ⟨-, hm, -⟩ := ht
    have hw : t.ofBits (t.toBits m) = m := Primitive.wrap_of_holds hm
    have hz : t.toBits 0 = 0#t.bits := Primitive.toBits_natCast t 0
    simp only [List.mem_cons, List.not_mem_nil, or_false] at hop
    rw [run_number]
    rcases hop with rfl | rfl | rfl | rfl | rfl | rfl | rfl
    · simp [isShift, compare, arith, hz, hw]
    · simp [isShift, compare, arith, hz, hw]
    · simp [isShift, compare, arith, Primitive.wrap_of_holds hm]
    · simp [isShift, compare, arith, Primitive.wrap_of_holds hm]
    · simp [isShift, shift, hw]
    · simp [isShift, shift, hw]
    · simp [isShift, shift, hw]

theorem run_zero_left (hop : op ∈ [or, xor, add]) (ht : op.takes t (.number 0) b) :
    op.run t (.number 0) b = some b := by
  cases b with
  | truth b => exact ht.elim
  | number n =>
    obtain ⟨-, -, hn⟩ := ht
    have hz : t.toBits 0 = 0#t.bits := Primitive.toBits_natCast t 0
    simp only [List.mem_cons, List.not_mem_nil, or_false] at hop
    rw [run_number]
    rcases hop with rfl | rfl | rfl
    · have hw : t.ofBits (t.toBits n) = n := Primitive.wrap_of_holds (hn rfl)
      simp [isShift, compare, arith, hz, hw]
    · have hw : t.ofBits (t.toBits n) = n := Primitive.wrap_of_holds (hn rfl)
      simp [isShift, compare, arith, hz, hw]
    · simp [isShift, compare, arith, Primitive.wrap_of_holds (hn rfl)]

theorem run_and_comm (t : Primitive) (a b : Scalar) : and.run t a b = and.run t b a := by
  cases a with
  | number m =>
    cases b with
    | number n =>
      rw [run_number, run_number]
      simp [isShift, compare, arith, BitVec.and_comm]
    | truth b => rfl
  | truth a =>
    cases b with
    | number n => rfl
    | truth b =>
      rw [run_truth, run_truth]
      simp [connect, combine, Bool.and_comm]

theorem run_and_zero (ht : and.takes t a (.number 0)) :
    and.run t a (.number 0) = some (.number 0) := by
  cases a with
  | truth a => exact ht.elim
  | number m =>
    have hz : t.toBits 0 = 0#t.bits := Primitive.toBits_natCast t 0
    have hw : t.ofBits (0#t.bits) = 0 := by
      rw [← hz]
      exact Primitive.wrap_of_holds (ht.2.2 rfl)
    rw [run_number]
    simp [isShift, compare, arith, hz, hw]

/-- A mask of all bits keeps the numbers below it. -/
theorem run_and_mask {w k : Nat} (hk : k < 2 ^ w) (ht : and.takes t (.number k)
      (.number (2 ^ w - 1 : Nat))) :
    and.run t (.number k) (.number (2 ^ w - 1 : Nat)) = some (.number k) := by
  obtain ⟨hint, hm, -⟩ := ht
  have hlt : k < t.limit := Int.ofNat_lt.1 ((Primitive.holds_iff hint).1 hm).2
  have hand : k &&& (2 ^ w - 1) = k := by
    rw [Nat.and_two_pow_sub_one_eq_mod, Nat.mod_eq_of_lt hk]
  rw [run_number, arith_and (Or.inl hlt), hand]
  rfl

end RegisterMap.Code.Operator

namespace RegisterMap.Exec

open Code Term

-- ============================================================ conditions

/-- No value of the expression has bits beyond the mask. -/
def Known.within (k : Known) (mask : Nat) : Bool :=
  match k.constant with
  | some (.number n) => 0 ≤ n && n ≤ mask
  | _ => k.type.isUnsigned && 2 ^ k.type.bits ≤ mask + 1

/-- The operand that an operation is reduced to has the value of the
operation: it is no longer masked only if the mask holds it. -/
def spares (op : Operator) (kept other : Shape) : Bool :=
  op != .and || kept.kind.intValue? == some 0 ||
    match other.kind.intValue?, sense kept with
    | some mask, some s => s.known.within mask
    | _, _ => false

/-- The type an operation on two expressions is carried out in. -/
def carrierOf (op : Operator) (l r : Shape) : Option Primitive := do
  op.carrier? (← sense l).known (← sense r).known

/-- An operation on `l` and `r` has the value of what becomes of it once
these have become `l'` and `r'`. -/
def keepsValue (op : Operator) (l r l' r' : Shape) : Bool :=
  match op.surviving? l'.kind r'.kind with
  | some true => spares op l' r'
  | some false => spares op r' l'
  | none =>
    match carrierOf op l r, carrierOf op l' r' with
    | some t, some t' => op.isIndifferent t t'
    | _, _ => false

/-- The reduced expression is one the compiler accepts, and the operation at
the top keeps its value. -/
def isFaithfulHere (x : Shape) : Bool :=
  (match x.reduced with
    | [y] => (sense y).isSome
    | _ => false)
  && match x.kind, x.slots with
    | .binary op _, [[l], [r]] =>
      match l.reduced, r.reduced with
      | [l'], [r'] => keepsValue op l r l' r'
      | _, _ => false
    | _, _ => true

/-- The reduction keeps the value of the expression and of all in it. -/
def isFaithful (x : Shape) : Bool := x.all isFaithfulHere

-- ========================================================== one operation

variable {op : Operator} {t : Primitive} {a b v : Scalar} {x l r l' r' : Shape} {s : Sense}

/-- A literal has its value, whatever the type. -/
theorem value_of_intValue? (hs : sense x = some s) {n : Nat} (hn : x.kind.intValue? = some n)
    (leaves : Leaves) : s.value leaves = some (.number n) := by
  cases x with
  | node tag kind notes slots =>
    cases kind with
    | intLit value type hex =>
      obtain rfl := Option.some.inj hn
      rcases sense_cases hs with hleaf | ⟨-, _, _, _, _, hcomp⟩
      · obtain ⟨p, -, rfl⟩ := Option.map_eq_some_iff.1 hleaf
        rfl
      · cases hcomp
    | _ => cases hn

theorem exists_of_fits {k : Kind} {mask : Nat} (h : k.fits mask = true) :
    ∃ w, mask = 2 ^ w - 1 := by
  unfold Kind.fits at h
  obtain ⟨type, -, hones⟩ := Option.bind_eq_some_iff.1 (beq_iff_eq.1 h)
  obtain ⟨w, -, rfl⟩ := Option.map_eq_some_iff.1 hones
  exact ⟨w, rfl⟩

theorem Known.le_of_within {k : Known} {mask : Nat} {n : Int} (h : k.within mask = true)
    (hv : k.admits (.number n)) : ∃ m : Nat, n = m ∧ m ≤ mask := by
  obtain ⟨hint, hholds, hconst⟩ := Known.admits_number.1 hv
  have hrange : 0 ≤ n ∧ n ≤ mask := by
    unfold within at h
    split at h
    · next m hm =>
      injection hconst _ hm with hnm
      subst hnm
      obtain ⟨h0, hle⟩ := Bool.and_eq_true_iff.1 h
      exact ⟨of_decide_eq_true h0, of_decide_eq_true hle⟩
    · obtain ⟨hu, hle⟩ := Bool.and_eq_true_iff.1 h
      have hle := of_decide_eq_true hle
      rw [Primitive.holds_iff hint] at hholds
      unfold Primitive.low Primitive.limit at hholds
      rw [if_pos hu, if_pos hu] at hholds
      exact ⟨hholds.1, by omega⟩
  obtain ⟨m, rfl⟩ := Int.eq_ofNat_of_zero_le hrange.1
  exact ⟨m, rfl, Int.ofNat_le.1 hrange.2⟩

/-- A mask that holds an expression leaves its value as it is. -/
theorem run_spared {mask : Nat} {kept other : Shape} (h : spares .and kept other = true)
    (h0 : kept.kind.intValue? ≠ some 0) (hmask : other.kind.intValue? = some mask)
    (hfits : kept.kind.fits mask = true) (hs : sense kept = some s) (ha : s.known.admits a)
    (ht : Operator.and.takes t a (.number mask)) :
    Operator.and.run t a (.number mask) = some a := by
  unfold spares at h
  rw [hmask, hs, beq_eq_false_iff_ne.2 h0] at h
  have hwithin : s.known.within mask = true := h
  cases a with
  | truth b => exact ht.elim
  | number n =>
    obtain ⟨m, rfl, hle⟩ := Known.le_of_within hwithin ha
    obtain ⟨w, rfl⟩ := exists_of_fits hfits
    exact Operator.run_and_mask (Nat.lt_of_le_sub_one (Nat.two_pow_pos w) hle) ht

/-- An operation that is reduced has the value of the operand that is left. -/
theorem run_surviving {sl sr : Sense} {left : Bool}
    (h : op.surviving? l.kind r.kind = some left)
    (hspare : spares op (if left then l else r) (if left then r else l) = true)
    (hl : sense l = some sl) (hr : sense r = some sr) (ha : sl.known.admits a)
    (hb : sr.known.admits b) (hla : ∀ n : Nat, l.kind.intValue? = some n → a = .number n)
    (hrb : ∀ n : Nat, r.kind.intValue? = some n → b = .number n) (ht : op.takes t a b) :
    op.run t a b = some (if left then a else b) := by
  have hright : ∀ op ∈ [Operator.or, .xor, .add, .sub, .shl, .shr, .ushr], op.takes t a b →
      r.kind.intValue? = some 0 → op.run t a b = some a := by
    intro op hop ht h0
    obtain rfl := hrb 0 h0
    exact Operator.run_zero_right hop ht
  have hleft : ∀ op ∈ [Operator.or, .xor, .add], op.takes t a b → l.kind.intValue? = some 0 →
      op.run t a b = some b := by
    intro op hop ht h0
    obtain rfl := hla 0 h0
    exact Operator.run_zero_left hop ht
  unfold Operator.surviving? at h
  cases op with
  | or | xor | add =>
    dsimp only at h
    split at h
    · next h0 =>
      obtain rfl := Option.some.inj h
      exact hleft _ (by simp) ht h0
    · split at h
      · next h0 =>
        obtain rfl := Option.some.inj h
        exact hright _ (by simp) ht h0
      · cases h
  | shl | shr | ushr | sub =>
    dsimp only at h
    split at h
    · next h0 =>
      obtain rfl := Option.some.inj h
      exact hright _ (by simp) ht h0
    · cases h
  | and =>
    have hswap : Operator.and.takes t b a := by
      cases a <;> cases b <;> first | exact ht | exact ⟨ht.1, ht.2.2 rfl, fun _ => ht.2.1⟩
    dsimp only at h
    split at h
    · next h0 =>
      obtain rfl := Option.some.inj h
      obtain rfl := hla 0 h0
      rw [Operator.run_and_comm]
      exact Operator.run_and_zero hswap
    · next hl0 =>
      split at h
      · next h0 =>
        obtain rfl := Option.some.inj h
        obtain rfl := hrb 0 h0
        exact Operator.run_and_zero ht
      · next hr0 =>
        split at h
        · next hany =>
          obtain rfl := Option.some.inj h
          obtain ⟨mask, hmask, hfits⟩ := (Option.any_eq_true ..).1 hany
          obtain rfl := hla mask hmask
          rw [Operator.run_and_comm]
          exact run_spared hspare hr0 hmask hfits hr hb hswap
        · split at h
          · next hany =>
            obtain rfl := Option.some.inj h
            obtain ⟨mask, hmask, hfits⟩ := (Option.any_eq_true ..).1 hany
            obtain rfl := hrb mask hmask
            exact run_spared hspare hl0 hmask hfits hl ha ht
          · cases h
  | _ => cases h

-- ======================================================== expressions

/-- Whatever value there was is still there. -/
def Keeps (s s' : Sense) : Prop := ∀ leaves v, s.value leaves = some v → s'.value leaves = some v

/-- The reduced expression has the value of the expression. -/
def Reduces (x : Shape) (s : Sense) : Prop :=
  ∃ y s', x.reduced = [y] ∧ sense y = some s' ∧ Keeps s s'

/-- An operation between operands that keep their values keeps its own, if
it is carried out in a type that makes no difference. -/
theorem keeps_binary {sl sr sl' sr' s' : Sense} (hs : Sense.binary op sl sr = some s)
    (hs' : Sense.binary op sl' sr' = some s') (hl : Keeps sl sl') (hr : Keeps sr sr')
    (hal : sl.Admits) (har : sr.Admits) (hal' : sl'.Admits) (har' : sr'.Admits)
    (h : ∀ t t', op.carrier? sl.known sr.known = some t →
      op.carrier? sl'.known sr'.known = some t' → op.isIndifferent t t' = true) : Keeps s s' := by
  obtain ⟨t, o, ht, -, rfl⟩ := Sense.binary_eq hs
  obtain ⟨t', o', ht', -, rfl⟩ := Sense.binary_eq hs'
  intro leaves v hv
  obtain ⟨a, ha, hcases⟩ := Operator.evaluate_cases hv
  have ha' := hl leaves a ha
  show op.evaluate t' (sl'.value leaves) (sr'.value leaves) = some v
  unfold Operator.evaluate
  rw [ha', Option.bind_some]
  rcases hcases with ⟨hd, rfl⟩ | ⟨hd, b, hb, hrun⟩
  · rw [hd, if_pos rfl]
  · have hb' := hr leaves b hb
    rw [hd, if_neg Bool.false_ne_true, hb', Option.bind_some, ← hrun]
    exact (Operator.run_indifferent (h t t' ht ht')
      (Operator.takes_of_carrier? ht (hal leaves a ha) (har leaves b hb))
      (Operator.takes_of_carrier? ht' (hal' leaves a ha') (har' leaves b hb'))).symm

theorem keeps_cond {sc sa sb sc' sa' sb' s' : Sense} (hs : Sense.cond sc sa sb = some s)
    (hs' : Sense.cond sc' sa' sb' = some s') (hc : Keeps sc sc') (ha : Keeps sa sa')
    (hb : Keeps sb sb') : Keeps s s' := by
  obtain ⟨-, t, -, rfl⟩ := Sense.cond_eq hs
  obtain ⟨-, t', -, rfl⟩ := Sense.cond_eq hs'
  intro leaves v hv
  obtain ⟨c, hcv, hv⟩ := Option.bind_eq_some_iff.1 hv
  refine Option.bind_eq_some_iff.2 ⟨c, hc leaves c hcv, ?_⟩
  unfold Sense.choose at hv ⊢
  split at hv
  · split at hv
    · next hyes =>
      rw [if_pos hyes]
      exact ha leaves v hv
    · next hno =>
      rw [if_neg hno]
      exact hb leaves v hv
  · cases hv

theorem keeps_cast {p : Primitive} {sx sx' s' : Sense} (hs : Sense.cast p sx = some s)
    (hs' : Sense.cast p sx' = some s') (hx : Keeps sx sx') : Keeps s s' := by
  unfold Sense.cast at hs hs'
  split at hs
  · split at hs'
    · obtain rfl := Option.some.inj hs
      obtain rfl := Option.some.inj hs'
      intro leaves v hv
      obtain ⟨w, hw, rfl⟩ := Option.map_eq_some_iff.1 hv
      exact Option.map_eq_some_iff.2 ⟨w, hx leaves w hw, rfl⟩
    · cases hs'
  · cases hs

/-- An operation that is reduced keeps its value in the operand that is
left. -/
theorem keeps_surviving {sl sr sl' sr' : Sense} {left : Bool}
    (hs : Sense.binary op sl sr = some s) (hl : sense l' = some sl') (hr : sense r' = some sr')
    (hkl : Keeps sl sl') (hkr : Keeps sr sr') (hal : sl.Admits) (har : sr.Admits)
    (h : op.surviving? l'.kind r'.kind = some left)
    (hspare : spares op (if left then l' else r') (if left then r' else l') = true) :
    Keeps s (if left then sl' else sr') := by
  obtain ⟨t, o, ht, -, rfl⟩ := Sense.binary_eq hs
  intro leaves v hv
  obtain ⟨a, ha, hcases⟩ := Operator.evaluate_cases hv
  have ha' := hkl leaves a ha
  rcases hcases with ⟨hd, -⟩ | ⟨-, b, hb, hrun⟩
  · rcases (Operator.truth_of_decides hd).1 with rfl | rfl <;> cases h
  · have hb' := hkr leaves b hb
    have hval := run_surviving h hspare hl hr (sense_admits hl leaves a ha')
      (sense_admits hr leaves b hb')
      (fun n hn => Option.some.inj (ha'.symm.trans (value_of_intValue? hl hn leaves)))
      (fun n hn => Option.some.inj (hb'.symm.trans (value_of_intValue? hr hn leaves)))
      (Operator.takes_of_carrier? ht (hal leaves a ha) (har leaves b hb))
    obtain rfl := Option.some.inj (hrun.symm.trans hval)
    cases left with
    | true => exact ha'
    | false => exact hb'

theorem carrierOf_eq {sl sr : Sense} (hl : sense l = some sl) (hr : sense r = some sr) :
    carrierOf op l r = op.carrier? sl.known sr.known := by
  unfold carrierOf
  rw [hl, hr]
  rfl

theorem exists_pair {xs : List Shape} {sl sr : Sense} (h : xs.map sense = [sl, sr].map some) :
    ∃ l r, xs = [l, r] ∧ sense l = some sl ∧ sense r = some sr := by
  obtain ⟨l, xs, rfl, hl, h⟩ := List.map_eq_cons_iff.1 h
  obtain ⟨r, rfl, hr⟩ := List.map_eq_singleton_iff.1 h
  exact ⟨l, r, rfl, hl, hr⟩

/-- Operands that are reduced one by one. -/
theorem operands_reduced {xs : List Shape} {ss : List Sense}
    (ih : ∀ x ∈ xs, ∀ s, sense x = some s → Reduces x s) (h : xs.map sense = ss.map some) :
    ∃ (xs' : List Shape) (ss' : List Sense),
      (xs.map fun x => [x]).map (fun c => c.flatMap reduced) = xs'.map (fun x => [x])
        ∧ xs'.map sense = ss'.map some ∧ List.Forall₂ Keeps ss ss' := by
  induction xs generalizing ss with
  | nil =>
    obtain rfl : ss = [] := List.map_eq_nil_iff.1 h.symm
    exact ⟨[], [], rfl, rfl, .nil⟩
  | cons x xs ihl =>
    obtain ⟨s, ss, rfl, hx, hrest⟩ := List.map_eq_cons_iff.1 h.symm
    obtain ⟨y, s', hy, hs', hkeep⟩ := ih x (List.mem_cons_self ..) s hx.symm
    obtain ⟨xs', ss', hxs', hss', hkeeps⟩ :=
      ihl (fun z hz => ih z (List.mem_cons_of_mem _ hz)) hrest.symm
    refine ⟨y :: xs', s' :: ss', ?_, ?_, .cons hkeep hkeeps⟩
    · rw [List.map_cons, List.map_cons, hxs', List.flatMap_singleton, hy]
      rfl
    · rw [List.map_cons, List.map_cons, hs', hss']

/-- What is no operation has the values it had if its operands have them. -/
theorem keeps_composed {kind : Kind} {ss ss' : List Sense} {s' : Sense}
    (hbin : ∀ op type, kind ≠ .binary op type) (hs : composed kind ss = some s)
    (hs' : composed kind ss' = some s') (h : List.Forall₂ Keeps ss ss') : Keeps s s' := by
  unfold composed at hs
  split at hs
  · next op type _ _ => exact absurd rfl (hbin op type)
  · cases h with
    | cons hc h =>
      cases h with
      | cons ha h =>
        cases h with
        | cons hb h =>
          cases h
          exact keeps_cond hs hs' hc ha hb
  · cases h with
    | cons hx h =>
      cases h
      exact keeps_cast hs hs' hx
  · cases h with
    | cons hx h =>
      cases h
      obtain rfl := Option.some.inj hs
      obtain rfl := Option.some.inj hs'
      exact hx
  · cases hs

/-- An operation between reduced operands has its value, be it reduced
itself or not. -/
theorem keeps_reduceTop {type : TypeRef} {notes : Notes} {sl sr sl' sr' s' : Sense} {y : Shape}
    (hs : Sense.binary op sl sr = some s) (hl : sense l = some sl) (hr : sense r = some sr)
    (hl' : sense l' = some sl') (hr' : sense r' = some sr') (hkl : Keeps sl sl')
    (hkr : Keeps sr sr') (hkeep : keepsValue op l r l' r' = true)
    (hy : reduceTop (.binary op type) notes [[l'], [r']] = [y]) (hs' : sense y = some s') :
    Keeps s s' := by
  have hal := sense_admits hl
  have har := sense_admits hr
  unfold keepsValue at hkeep
  unfold reduceTop at hy
  dsimp only at hy
  split at hkeep
  · next hsurv =>
    rw [hsurv] at hy
    obtain rfl := List.singleton_inj.1 hy
    obtain rfl := Option.some.inj (hl'.symm.trans hs')
    exact keeps_surviving hs hl' hr' hkl hkr hal har hsurv hkeep
  · next hsurv =>
    rw [hsurv] at hy
    obtain rfl := List.singleton_inj.1 hy
    obtain rfl := Option.some.inj (hr'.symm.trans hs')
    exact keeps_surviving hs hl' hr' hkl hkr hal har hsurv hkeep
  · next hsurv =>
    rw [hsurv] at hy
    obtain rfl := List.singleton_inj.1 hy
    have hpair : [l', r'].map sense = [sl', sr'].map some := by
      rw [List.map_cons, List.map_singleton, hl', hr']
      rfl
    have hleaf : leafSense (.binary op type) = none := rfl
    have hbinary : Sense.binary op sl' sr' = some s' :=
      (sense_composed hleaf hpair notes).symm.trans hs'
    refine keeps_binary hs hbinary hkl hkr hal har (sense_admits hl') (sense_admits hr')
      fun t t' ht ht' => ?_
    rwa [carrierOf_eq hl hr, carrierOf_eq hl' hr', ht, ht'] at hkeep

/-- The reduction keeps the values of an expression it is faithful to. -/
theorem sense_reduced {x : Shape} (h : isFaithful x = true) {s : Sense} (hs : sense x = some s) :
    Reduces x s := by
  induction x using Term.ind generalizing s with
  | node tag kind notes slots ih =>
    unfold isFaithful at h
    rw [all_node, Bool.and_eq_true_iff] at h
    obtain ⟨hhere, hbelow⟩ := h
    have ih' : ∀ x, [x] ∈ slots → ∀ s, sense x = some s → Reduces x s := fun x hx s hs =>
      ih _ hx x (List.mem_singleton_self x)
        (List.all_eq_true.1 (List.all_eq_true.1 hbelow _ hx) x (List.mem_singleton_self x)) hs
    obtain ⟨haccepted, htop⟩ := Bool.and_eq_true_iff.1 hhere
    obtain ⟨y, hy, s', hs'⟩ : ∃ y, (Term.node () kind notes slots).reduced = [y]
        ∧ ∃ s', sense y = some s' := by
      split at haccepted
      · next y hy => exact ⟨y, hy, Option.isSome_iff_exists.1 haccepted⟩
      · cases haccepted
    refine ⟨y, s', hy, hs', ?_⟩
    rw [reduced_node] at hy
    rcases sense_cases hs with hleaf | ⟨hleaf, xs, ss, rfl, hxs, hcomp⟩
    · have hbin : ∀ op type, kind ≠ .binary op type := by
        rintro op type rfl
        cases hleaf
      rw [reduceTop_of_ne hbin, List.singleton_inj] at hy
      rw [← hy, sense_of_leaf hleaf] at hs'
      obtain rfl := Option.some.inj hs'
      exact fun _ _ hv => hv
    · cases hbin : kind.isBinary with
      | false =>
        have hne : ∀ op type, kind ≠ .binary op type := by
          rintro op type rfl
          cases hbin
        obtain ⟨xs', ss', hxs', hss', hkeeps⟩ :=
          operands_reduced (fun x hx => ih' x (List.mem_map_of_mem hx)) hxs
        rw [reduceTop_of_ne hne, List.singleton_inj] at hy
        rw [← hy, hxs', sense_composed hleaf hss'] at hs'
        exact keeps_composed hne hcomp hs' hkeeps
      | true =>
        unfold composed at hcomp
        split at hcomp
        · next op type sl sr =>
          obtain ⟨l, r, rfl, hl, hr⟩ := exists_pair hxs
          obtain ⟨l', sl', hl', hsl', hkl⟩ := ih' l (by simp) sl hl
          obtain ⟨r', sr', hr', hsr', hkr⟩ := ih' r (by simp) sr hr
          have hkeep : keepsValue op l r l' r' = true := by
            simpa only [kind_node, slots_node, List.map_cons, List.map_nil, hl', hr'] using htop
          simp only [List.map_cons, List.map_nil, List.flatMap_singleton, hl', hr'] at hy
          exact keeps_reduceTop hcomp hl hr hsl' hsr' hkl hkr hkeep hy hs'
        · cases hbin
        · cases hbin
        · cases hbin
        · cases hcomp

theorem exists_of_isFaithful (h : isFaithful x = true) : ∃ y, x.reduced = [y] := by
  cases x with
  | node tag kind notes slots =>
    unfold isFaithful at h
    rw [all_node, Bool.and_eq_true_iff] at h
    have haccepted := (Bool.and_eq_true_iff.1 h.1).1
    split at haccepted
    · next y hy => exact ⟨y, hy⟩
    · cases haccepted

/-- The value of the reduced expression is that of the expression. -/
theorem evaluate_reduced {y : Shape} (h : isFaithful x = true) (hy : x.reduced = [y])
    {leaves : Leaves} (hv : evaluate leaves x = some v) : evaluate leaves y = some v := by
  obtain ⟨s, hs, hsv⟩ := Option.bind_eq_some_iff.1 hv
  obtain ⟨y', s', hy', hs', hkeep⟩ := sense_reduced h hs
  obtain rfl := List.singleton_inj.1 (hy.symm.trans hy')
  exact Option.bind_eq_some_iff.2 ⟨s', hs', hkeep leaves v hsv⟩

end RegisterMap.Exec

namespace RegisterMap.Code.Edit

open Exec

/-- The reduction below a node that is no operation puts one expression for
another into a slot that has one expression, and the new one has whatever
value the old one has, if the reduction is faithful to it. -/
theorem reduce_keeps_value {t : Tree} {root e : NodeId} {s : Slot} (hs : t.Sound)
    (hbin : ∀ op type, t.kind? root ≠ some (.binary op type)) (he : t.head root s = some e)
    (halone : t.next? e = none) (h : isFaithful (t.shape e) = true) :
    ∃ t' e', reduce root t = (.ok (), t') ∧ t'.head root s = some e' ∧ t'.next? e' = none
      ∧ ∀ leaves v, evaluate leaves (t.shape e) = some v →
        evaluate leaves (t'.shape e') = some v := by
  have hroot : root < t.size := by
    obtain ⟨n, hn, -⟩ := Option.bind_eq_some_iff.1 he
    exact Tree.lt_size_of_node? hn
  obtain ⟨x, rfl, hx, -⟩ := hs.exists_term hroot
  cases x with
  | node id kind notes slots =>
    have hlen : slots.length = kind.slots.length := (Tree.holdsChain_singleton.1 hx.holds).1
    have hnode := hx.holds.node?_eq
    -- the chain in the slot is the expression alone
    have hslot : s ∈ (kind.slots.zip slots).map Prod.fst := by
      rw [List.map_fst_zip (Nat.le_of_eq hlen.symm)]
      exact hs.slot_mem hnode he
    obtain ⟨⟨s, c⟩, hc, rfl⟩ := List.mem_map.1 hslot
    have hhead := hx.holds.head_eq hc
    rw [he] at hhead
    cases c with
    | nil => cases hhead
    | cons z zs =>
      obtain rfl : e = z.tag := Option.some.inj hhead
      have hold := Tree.holdsChain_cons.1 (hx.inSlot hc (List.cons_ne_nil z zs)).holds
      obtain rfl : zs = [] := by
        have hnext := hold.1.next?_eq
        rw [halone] at hnext
        cases zs with
        | nil => rfl
        | cons w ws => cases hnext
      have hz := hx.inSlot hc (List.cons_ne_nil z [])
      rw [Tree.shape_of_holds hz.holds (by simpa using hz.nodup)] at h ⊢
      obtain ⟨y, hy⟩ := exists_of_isFaithful h
      -- the pass has nothing to do at the root itself
      obtain ⟨t₁, slots₁, -, hcode, hswap, hreduce⟩ := reduce_top hx
      have hs₁ := hswap.stands hx (List.cons_ne_nil _ _) fun j hj =>
        Or.inl (by rwa [List.flatMap_singleton])
      have hheir : t₁.heir? id = none := by
        refine Tree.heir?_eq_none hs₁ ?_
        rw [Term.shape_node]
        exact Term.heirless_of_not_binary (Kind.isBinary_eq_false fun op type hk =>
          hbin op type (hx.holds.kind?_eq.trans (congrArg some hk)))
      rw [reduceHere_eq hs₁, hheir] at hreduce
      have hcode' : (s, [y]) ∈ kind.slots.zip (slots₁.map (List.map Term.shape)) := by
        rw [hcode, List.zip_map_right]
        refine List.mem_map.2 ⟨(s, [z]), hc, ?_⟩
        rw [Prod.map_apply, List.map_singleton, List.flatMap_singleton, hy]
        rfl
      rw [List.zip_map_right] at hcode'
      obtain ⟨⟨_, c₁⟩, hc₁, hpair⟩ := List.mem_map.1 hcode'
      injection hpair with hslot₁ hshape
      obtain rfl := hslot₁
      obtain ⟨w, rfl, rfl⟩ := List.map_eq_singleton_iff.1 hshape
      have hw := hs₁.inSlot hc₁ (List.cons_ne_nil w [])
      refine ⟨t₁, w.tag, hreduce, hs₁.holds.head_eq hc₁, hw.holds.next?_eq, fun leaves v hv => ?_⟩
      rw [Tree.shape_of_holds hw.holds (by simpa using hw.nodup)]
      exact evaluate_reduced h hy hv

/-- The code `return (u | 0) + (b & 0xffU);` as it is built, with `u` a
double word and `b` a byte. -/
def nullAndMask : Tree := Tree.built [.leaf (.snippetExpr "u" .uint), .literal 0 false false false,
  .binary .or 0 1, .leaf (.snippetExpr "b" .byte), .literal 255 true false true, .binary .and 3 4,
  .binary .add 2 5, .returnStmt (some 6)]

/-- What is left is `u + b`. -/
theorem reduce_keeps_value_nullAndMask :
    isFaithful (nullAndMask.shape 6) = true
      ∧ ∃ t' e', reduce 7 nullAndMask = (.ok (), t') ∧ t'.head 7 .expr = some e'
        ∧ t'.children e' = [0, 3]
        ∧ ∀ leaves v, evaluate leaves (nullAndMask.shape 6) = some v →
          evaluate leaves (t'.shape e') = some v := by
  have hs : nullAndMask.Sound := Tree.sound_built _
  have hkind : nullAndMask.kind? 7 = some .returnStmt := by decide
  have hbin : ∀ op type, nullAndMask.kind? 7 ≠ some (.binary op type) := fun op type h => by
    cases hkind.symm.trans h
  have hfaithful : isFaithful (nullAndMask.shape 6) = true := by decide
  obtain ⟨t', e', hrun, he', -, hkeep⟩ :=
    reduce_keeps_value (s := .expr) hs hbin (by decide) (by decide) hfaithful
  refine ⟨hfaithful, t', e', hrun, he', ?_, hkeep⟩
  have ht : (reduce 7 nullAndMask).2 = t' := by rw [hrun]
  have hhead : (reduce 7 nullAndMask).2.head 7 .expr = some 6 := by decide
  rw [ht, he'] at hhead
  obtain rfl := Option.some.inj hhead
  rw [← ht]
  decide

/-- The code `return a + b & 255;` as it is built, with bytes `a` and `b`. -/
def byteSum : Tree := Tree.built [.leaf (.snippetExpr "a" .byte), .leaf (.snippetExpr "b" .byte),
  .binary .add 0 1, .literal 255 false false false, .binary .and 2 3, .returnStmt (some 4)]

/-- The bytes 200 and 100. -/
def largeBytes : Leaves :=
  (Leaves.zero.set (.snippetExpr "a" .byte) (.number 200) fun p hp _ => by
    obtain rfl : Primitive.byte = p := by injection hp with hp; injection hp
    rfl).set (.snippetExpr "b" .byte) (.number 100) fun p hp _ => by
      obtain rfl : Primitive.byte = p := by injection hp with hp; injection hp
      rfl

/-- The sum of two bytes is no byte, yet its mask is removed. -/
theorem byteSum_unmasked :
    byteSum.Sound ∧ byteSum.head 5 .expr = some 4 ∧ byteSum.next? 4 = none
      ∧ evaluate largeBytes (byteSum.shape 4) = some (.number 44)
      ∧ ∃ t', reduce 5 byteSum = (.ok (), t') ∧ t'.head 5 .expr = some 2
        ∧ evaluate largeBytes (t'.shape 2) = some (.number 300) :=
  ⟨Tree.sound_built _, by decide, by decide, by decide, (reduce 5 byteSum).2, by rfl, by decide,
    by decide⟩

end RegisterMap.Code.Edit
