/-
Values of pure expressions. An expression has a sense if its types can be
made out before it is evaluated; its value then depends on the values of
its leaves alone. What is known beforehand is a type and, of a constant,
the value (`Known`): constants count, because a constant that is not
negative may go with an unsigned number where a variable may not.

The main fact is that evaluation keeps to what is known (`sense_admits`):
every value is one of its type, and a constant has the value it was known
to have. The type an operation is carried out in holds its operands
(`takes_of_carrier?`).
-/
import RegisterMap.Proofs.Code.Term
import RegisterMap.Proofs.Exec.Agreement

namespace RegisterMap.Exec

open Code

/-- A value of a pure expression. -/
inductive Scalar where
  | number (n : Int)
  | truth (b : Bool)
  deriving DecidableEq, Repr

/-- What is known of an expression before it is evaluated. -/
structure Known where
  type : Primitive
  constant : Option Scalar := none
  deriving DecidableEq, Repr

namespace Scalar

/-- The value is one of the type. -/
def isOf (p : Primitive) : Scalar → Bool
  | .number n => p.isInteger && p.holds n
  | .truth _ => p = .bool

/-- An explicit conversion; what does not fit is cut off. -/
def cast (p : Primitive) : Scalar → Scalar
  | .number n => .number (p.wrap n)
  | .truth b => .truth b

end Scalar

/-- The values of the leaves: one for each variable or piece of code, of
its type. -/
structure Leaves where
  value : Kind → Scalar
  fits : ∀ kind p, kind.exprType = some (.primitive p) → p ≠ .string → (value kind).isOf p

namespace Leaves

/-- Every leaf is zero or false. -/
def zero : Leaves where
  value kind := if kind.exprType = some .bool then .truth false else .number 0
  fits kind p hp hstring := by
    rw [hp]
    cases p <;> first | rfl | exact absurd rfl hstring

/-- One leaf has another value. -/
def set (leaves : Leaves) (leaf : Kind) (v : Scalar)
    (h : ∀ p, leaf.exprType = some (.primitive p) → p ≠ .string → v.isOf p) : Leaves where
  value kind := if kind = leaf then v else leaves.value kind
  fits kind p hp hstring := by
    split
    · next hk => exact h p (hk ▸ hp) hstring
    · exact leaves.fits kind p hp hstring

end Leaves

-- ========================================================== operations

namespace Known

/-- The value keeps to what is known. -/
def admits (k : Known) (v : Scalar) : Prop := v.isOf k.type ∧ ∀ c, k.constant = some c → v = c

/-- The type the expression takes next to a number of another type. -/
def adapted (k : Known) (q : Primitive) : Primitive :=
  match k.constant with
  | some (.number n) => k.type.adapted q n
  | _ => k.type

/-- An implicit conversion leads from the expression to the type. -/
def convertsTo (k : Known) (q : Primitive) : Bool :=
  k.type.widensTo q ||
    match k.constant with
    | some (.number n) =>
      q.isInteger && q.holds n && (k.type = .int || k.type = .long && q = .ulong)
    | _ => false

/-- The type of a conditional with the two expressions. -/
def joined (a b : Known) : Option Primitive :=
  if a.type = b.type then some a.type
  else
    match a.convertsTo b.type, b.convertsTo a.type with
    | true, false => some b.type
    | false, true => some a.type
    | true, true => some (if a.type.widensTo b.type then b.type else a.type)
    | false, false => none

end Known

end RegisterMap.Exec

namespace RegisterMap.Code.Operator

open Exec (Known Scalar)

/-- An operation on two truth values. -/
def connect (op : Operator) (a b : Bool) : Option Bool :=
  match op with
  | .land => some (a && b)
  | .lor => some (a || b)
  | op => op.combine a b

/-- The type an operation is carried out in. -/
def carrier? (op : Operator) (l r : Known) : Option Primitive :=
  if l.type.isInteger && r.type.isInteger then
    if op.isShift then
      if r.type.widensTo .int then some l.type.promoted else none
    else if op = .land ∨ op = .lor then none
    else (l.adapted r.type).common (r.adapted l.type)
  else if l.type = .bool ∧ r.type = .bool ∧ (op.connect true true).isSome then some .bool
  else none

/-- The type of the result of an operation that is carried out in `t`. -/
def resultType (op : Operator) (t : Primitive) : Primitive := if op.isPredicate then .bool else t

/-- The operation on two values, carried out in a type. -/
def run (op : Operator) (t : Primitive) : Scalar → Scalar → Option Scalar
  | .number a, .number b =>
    if op.isShift then some (.number (op.shift t a b))
    else
      match op.compare a b with
      | some c => some (.truth c)
      | none => (op.arith t a b).map .number
  | .truth a, .truth b => (op.connect a b).map .truth
  | _, _ => none

/-- The left operand decides alone. -/
def decides : Operator → Scalar → Bool
  | .land, .truth b => !b
  | .lor, .truth b => b
  | _, _ => false

/-- The operation on operands that need not have a value. The right one is
left alone where the left one decides. -/
def evaluate (op : Operator) (t : Primitive) (a b : Option Scalar) : Option Scalar :=
  a.bind fun a => if op.decides a then some a else b.bind (op.run t a)

/-- The type can carry out the operation on the values. -/
def takes (op : Operator) (t : Primitive) : Scalar → Scalar → Prop
  | .number a, .number b =>
    t.isInteger = true ∧ t.holds a = true ∧ (op.isShift = false → t.holds b = true)
  | .truth _, .truth _ => t = .bool
  | _, _ => False

end RegisterMap.Code.Operator

namespace RegisterMap.Exec

open Code

-- =============================================================== senses

/-- The sense of an expression: what is known of it, and what it evaluates
to, if it has a value. -/
structure Sense where
  known : Known
  value : Leaves → Option Scalar

namespace Sense

def constant (p : Primitive) (v : Scalar) : Sense := ⟨⟨p, some v⟩, fun _ => some v⟩

/-- The type of a literal: the first that its suffix allows and that holds
its value. -/
def literalType (type : TypeRef) (value : Nat) : Option Primitive :=
  let candidates : List Primitive :=
    match type.isUnsigned, type.isLong with
    | false, false => [.int, .uint, .long, .ulong]
    | false, true => [.long, .ulong]
    | true, false => [.uint, .ulong]
    | true, true => [.ulong]
  candidates.find? fun p => p.holds value

def literal (type : TypeRef) (value : Nat) : Option Sense :=
  (literalType type value).map fun p => constant p (.number value)

/-- A leaf of a type. -/
def leaf (kind : Kind) (p : Primitive) : Option Sense :=
  if p = .string then none else some ⟨⟨p, none⟩, fun leaves => some (leaves.value kind)⟩

/-- An operation on two constants is one. If it has no value, it is
rejected. -/
def folded (op : Operator) (t : Primitive) (a b : Option Scalar) : Option (Option Scalar) :=
  match a, b with
  | some a, some b => (op.run t a b).map some
  | _, _ => some none

def binary (op : Operator) (l r : Sense) : Option Sense := do
  let t ← op.carrier? l.known r.known
  let constant ← folded op t l.known.constant r.known.constant
  return ⟨⟨op.resultType t, constant⟩, fun leaves => op.evaluate t (l.value leaves) (r.value leaves)⟩

def choose : Scalar → Option Scalar → Option Scalar → Option Scalar
  | .truth b, yes, no => if b then yes else no
  | _, _, _ => none

/-- A conditional of three constants is one. -/
def chosen (c a b : Option Scalar) : Option Scalar :=
  match c, a, b with
  | some c, some a, some b => choose c (some a) (some b)
  | _, _, _ => none

def cond (c a b : Sense) : Option Sense := do
  guard (c.known.type = .bool)
  let t ← a.known.joined b.known
  return ⟨⟨t, chosen c.known.constant a.known.constant b.known.constant⟩, fun leaves =>
    (c.value leaves).bind fun c => choose c (a.value leaves) (b.value leaves)⟩

def cast (p : Primitive) (x : Sense) : Option Sense :=
  if p.isInteger && x.known.type.isInteger || p = .bool && x.known.type = .bool then
    some ⟨⟨p, x.known.constant.map (Scalar.cast p)⟩, fun leaves =>
      (x.value leaves).map (Scalar.cast p)⟩
  else none

end Sense

/-- The sense of a node without operands. -/
def leafSense (kind : Kind) : Option Sense :=
  match kind with
  | .intLit value type _ => Sense.literal type value
  | .boolLit b => some (.constant .bool (.truth b))
  | .snippetExpr _ (.primitive p) | .varRef _ (.primitive p) => Sense.leaf kind p
  | _ => none

/-- The sense of a node from those of its operands. -/
def composed : Kind → List Sense → Option Sense
  | .binary op _, [l, r] => Sense.binary op l r
  | .cond _, [c, a, b] => Sense.cond c a b
  | .cast (.primitive p), [x] => Sense.cast p x
  | .paren _, [x] => some x
  | _, _ => none

/-- The one node in each slot, if it has a sense. -/
def operandSenses : List (List (Option Sense)) → Option (List Sense)
  | [] => some []
  | [some s] :: rest => (operandSenses rest).map (s :: ·)
  | _ => none

def nodeSense (kind : Kind) (slots : List (List (Option Sense))) : Option Sense :=
  (leafSense kind).or ((operandSenses slots).bind (composed kind))

/-- The sense of an expression, if it has one. -/
def sense : Shape → Option Sense := Term.fold fun _ kind _ slots => nodeSense kind slots

theorem sense_node (kind : Kind) (notes : Notes) (slots : List (List Shape)) :
    sense (.node () kind notes slots) = nodeSense kind (slots.map (List.map sense)) :=
  Term.fold_node ..

theorem exists_of_operandSenses {slots : List (List Shape)} {ss : List Sense}
    (h : operandSenses (slots.map (List.map sense)) = some ss) :
    ∃ xs : List Shape, slots = xs.map (fun x => [x]) ∧ xs.map sense = ss.map some := by
  induction slots generalizing ss with
  | nil =>
    obtain rfl : [] = ss := Option.some.inj h
    exact ⟨[], rfl, rfl⟩
  | cons c slots ih =>
    rcases c with _ | ⟨x, _ | ⟨y, c⟩⟩
    · cases h
    · cases hx : sense x with
      | none =>
        rw [List.map_cons, List.map_singleton, hx] at h
        cases h
      | some s =>
        rw [List.map_cons, List.map_singleton, hx] at h
        obtain ⟨ss', hss, rfl⟩ := Option.map_eq_some_iff.1 h
        obtain ⟨xs, rfl, hxs⟩ := ih hss
        exact ⟨x :: xs, rfl, by rw [List.map_cons, List.map_cons, hx, hxs]⟩
    · rw [List.map_cons, List.map_cons, List.map_cons] at h
      cases hx : sense x with
      | none => rw [hx] at h; cases h
      | some s => rw [hx] at h; cases h

theorem operandSenses_eq {xs : List Shape} {ss : List Sense} (h : xs.map sense = ss.map some) :
    operandSenses ((xs.map fun x => [x]).map (List.map sense)) = some ss := by
  induction xs generalizing ss with
  | nil =>
    obtain rfl : ss = [] := List.map_eq_nil_iff.1 h.symm
    rfl
  | cons x xs ih =>
    obtain ⟨s, ss, rfl, hx, hxs⟩ := List.map_eq_cons_iff.1 h.symm
    rw [List.map_cons, List.map_cons, List.map_singleton, ← hx, operandSenses, ih hxs.symm]
    rfl

/-- An expression is a leaf or has operands with a sense, one in each slot. -/
theorem sense_cases {kind : Kind} {notes : Notes} {slots : List (List Shape)} {s : Sense}
    (h : sense (.node () kind notes slots) = some s) :
    leafSense kind = some s ∨ leafSense kind = none ∧ ∃ (xs : List Shape) (ss : List Sense),
      slots = xs.map (fun x => [x]) ∧ xs.map sense = ss.map some ∧ composed kind ss = some s := by
  rw [sense_node] at h
  unfold nodeSense at h
  rcases Option.or_eq_some_iff.1 h with hleaf | ⟨hleaf, h⟩
  · exact Or.inl hleaf
  · obtain ⟨ss, hss, hs⟩ := Option.bind_eq_some_iff.1 h
    obtain ⟨xs, rfl, hxs⟩ := exists_of_operandSenses hss
    exact Or.inr ⟨hleaf, xs, ss, rfl, hxs, hs⟩

theorem sense_of_leaf {kind : Kind} {s : Sense} (h : leafSense kind = some s) (notes : Notes)
    (slots : List (List Shape)) : sense (.node () kind notes slots) = some s := by
  rw [sense_node]
  unfold nodeSense
  rw [h]
  rfl

theorem sense_composed {kind : Kind} (hleaf : leafSense kind = none) {xs : List Shape}
    {ss : List Sense} (h : xs.map sense = ss.map some) (notes : Notes) :
    sense (.node () kind notes (xs.map fun x => [x])) = composed kind ss := by
  rw [sense_node]
  unfold nodeSense
  rw [hleaf, operandSenses_eq h]
  rfl

/-- The value of an expression. -/
def evaluate (leaves : Leaves) (x : Shape) : Option Scalar :=
  (sense x).bind fun s => s.value leaves

-- ============================================================ soundness

namespace Known

variable {k l r : Known} {p q t : Primitive} {n : Int} {v : Scalar}

theorem admits_number : k.admits (.number n) ↔ k.type.isInteger = true ∧ k.type.holds n = true
    ∧ ∀ c, k.constant = some c → .number n = c := by
  unfold admits Scalar.isOf
  rw [Bool.and_eq_true_iff, and_assoc]

theorem isInteger_of_admits (h : k.admits (.number n)) : k.type.isInteger = true :=
  (admits_number.1 h).1

theorem type_of_admits {b : Bool} (h : k.admits (.truth b)) : k.type = .bool :=
  of_decide_eq_true h.1

/-- A constant is held by the type it takes. -/
theorem holds_adapted (h : k.admits (.number n)) (q : Primitive) (hq : q.isInteger = true) :
    (k.adapted q).isInteger = true ∧ (k.adapted q).holds n = true := by
  obtain ⟨hint, hholds, hconst⟩ := admits_number.1 h
  unfold adapted
  split
  · next m hc =>
    injection hconst _ hc with hnm
    subst hnm
    unfold Primitive.adapted
    split
    · next hcond =>
      refine ⟨hq, (Primitive.holds_iff hq).2 ?_⟩
      obtain ⟨h0, hcases⟩ := hcond
      rw [Primitive.holds_iff hint] at hholds
      have hlow : q.low = 0 := by
        rcases hcases with ⟨-, rfl⟩ | ⟨-, rfl⟩ <;> rfl
      have hlimit : k.type.limit ≤ q.limit := by
        rcases hcases with ⟨hk, rfl⟩ | ⟨hk | hk, rfl⟩ <;> rw [hk] <;> decide
      omega
    · exact ⟨hint, hholds⟩
  · exact ⟨hint, hholds⟩

theorem isOf_of_convertsTo (h : k.convertsTo p = true) (hv : k.admits v) : v.isOf p = true := by
  cases v with
  | number n =>
    obtain ⟨hint, hholds, hconst⟩ := admits_number.1 hv
    rcases Bool.or_eq_true_iff.1 h with hw | hc
    · exact Bool.and_eq_true_iff.2
        ⟨(Primitive.isInteger_of_widensTo hw).2, Primitive.holds_of_widensTo hw hholds⟩
    · split at hc
      · next m hm =>
        injection hconst _ hm with hnm
        subst hnm
        exact (Bool.and_eq_true_iff.1 hc).1
      · cases hc
  | truth b =>
    rcases Bool.or_eq_true_iff.1 h with hw | hc
    · have hint := (Primitive.isInteger_of_widensTo hw).1
      rw [type_of_admits hv] at hint
      cases hint
    · split at hc
      · next m hm => cases hv.2 _ hm
      · cases hc

/-- The type of a conditional has the values of both expressions. -/
theorem isOf_joined (h : l.joined r = some t) (hv : l.admits v ∨ r.admits v) :
    v.isOf t = true := by
  unfold joined at h
  split at h
  · next he =>
    injection h with h
    subst h
    rcases hv with hv | hv
    · exact hv.1
    · exact he ▸ hv.1
  · split at h
    · next hl hr =>
      injection h with h
      subst h
      exact hv.elim (isOf_of_convertsTo hl) And.left
    · next hl hr =>
      injection h with h
      subst h
      exact hv.elim And.left (isOf_of_convertsTo hr)
    · next hl hr =>
      injection h with h
      subst h
      split
      · exact hv.elim (isOf_of_convertsTo hl) And.left
      · exact hv.elim And.left (isOf_of_convertsTo hr)
    · cases h

end Known

end RegisterMap.Exec

namespace RegisterMap.Code.Operator

open Exec (Known Scalar)

variable {op : Operator} {l r : Known} {t : Primitive} {a b v : Scalar}

theorem carrier?_number (hl : l.type.isInteger = true) (hr : r.type.isInteger = true) :
    op.carrier? l r
      = if op.isShift then if r.type.widensTo .int then some l.type.promoted else none
        else if op = .land ∨ op = .lor then none
        else (l.adapted r.type).common (r.adapted l.type) := by
  unfold carrier?
  rw [hl, hr]
  rfl

/-- One operand that is no number makes a truth value of both. -/
theorem carrier?_truth (h : op.carrier? l r = some t)
    (hn : l.type.isInteger = false ∨ r.type.isInteger = false) :
    l.type = .bool ∧ r.type = .bool ∧ t = .bool := by
  have hno : (l.type.isInteger && r.type.isInteger) = false := by
    rcases hn with hn | hn
    · rw [hn, Bool.false_and]
    · rw [hn, Bool.and_false]
  unfold carrier? at h
  rw [hno, if_neg Bool.false_ne_true] at h
  split at h
  · next hc => exact ⟨hc.1, hc.2.1, (Option.some.inj h).symm⟩
  · cases h

/-- An operation is carried out in a type that holds its operands. -/
theorem takes_of_carrier? (h : op.carrier? l r = some t) (ha : l.admits a) (hb : r.admits b) :
    op.takes t a b := by
  have htruth : ∀ {k : Known} {c : Bool}, k.admits (.truth c) → k.type.isInteger = false :=
    fun hk => by rw [Known.type_of_admits hk]; rfl
  cases a with
  | number m =>
    have hl := Known.isInteger_of_admits ha
    cases b with
    | number n =>
      have hr := Known.isInteger_of_admits hb
      rw [carrier?_number hl hr] at h
      unfold takes
      split at h
      · next hshift =>
        split at h
        · obtain rfl := Option.some.inj h
          have hw := Primitive.widensTo_promoted hl
          refine ⟨(Primitive.isInteger_of_widensTo hw).2,
            Primitive.holds_of_widensTo hw (Known.admits_number.1 ha).2.1, fun hno => ?_⟩
          rw [hshift] at hno
          cases hno
        · cases h
      · split at h
        · cases h
        · obtain ⟨hal, hm⟩ := Known.holds_adapted ha r.type hr
          obtain ⟨har, hn⟩ := Known.holds_adapted hb l.type hl
          obtain ⟨hwl, hwr⟩ := Primitive.common_widens h hal har
          exact ⟨(Primitive.isInteger_of_widensTo hwl).2, Primitive.holds_of_widensTo hwl hm,
            fun _ => Primitive.holds_of_widensTo hwr hn⟩
    | truth b =>
      obtain ⟨hbool, -⟩ := carrier?_truth h (Or.inr (htruth hb))
      rw [hbool] at hl
      cases hl
  | truth a =>
    obtain ⟨-, hbool, rfl⟩ := carrier?_truth h (Or.inl (htruth ha))
    cases b with
    | number n =>
      have hr := Known.isInteger_of_admits hb
      rw [hbool] at hr
      cases hr
    | truth b => rfl

theorem run_number (op : Operator) (t : Primitive) (m n : Int) :
    op.run t (.number m) (.number n)
      = if op.isShift then some (.number (op.shift t m n))
        else match op.compare m n with
          | some c => some (.truth c)
          | none => (op.arith t m n).map .number := rfl

theorem run_truth (op : Operator) (t : Primitive) (a b : Bool) :
    op.run t (.truth a) (.truth b) = (op.connect a b).map .truth := rfl

theorem isPredicate_of_compare {m n : Int} {c : Bool} (h : op.compare m n = some c) :
    op.isPredicate = true := by
  cases op <;> first | rfl | cases h

theorem not_predicate_of_arith {p : Primitive} {m n k : Int} (h : op.arith p m n = some k) :
    op.isPredicate = false := by
  cases op <;> first | rfl | cases h

/-- The result of an operation is of the type it is known to have. -/
theorem isOf_run (ht : op.takes t a b) (h : op.run t a b = some v) :
    v.isOf (op.resultType t) = true := by
  cases a with
  | number m =>
    cases b with
    | number n =>
      obtain ⟨hint, -, -⟩ := ht
      rw [run_number] at h
      unfold resultType
      split at h
      · next hshift =>
        injection h with h
        subst h
        have hno : op.isPredicate = false := by cases op <;> first | rfl | cases hshift
        rw [hno]
        exact Bool.and_eq_true_iff.2 ⟨hint, holds_shift ..⟩
      · split at h
        · next c hc =>
          injection h with h
          subst h
          rw [isPredicate_of_compare hc]
          rfl
        · obtain ⟨k, hk, rfl⟩ := Option.map_eq_some_iff.1 h
          rw [not_predicate_of_arith hk]
          exact Bool.and_eq_true_iff.2 ⟨hint, holds_arith hk⟩
    | truth b => exact ht.elim
  | truth a =>
    cases b with
    | number n => exact ht.elim
    | truth b =>
      obtain rfl : t = .bool := ht
      rw [run_truth] at h
      obtain ⟨c, -, rfl⟩ := Option.map_eq_some_iff.1 h
      unfold resultType
      split <;> rfl

theorem evaluate_cases {x y : Option Scalar} (h : op.evaluate t x y = some v) :
    ∃ a, x = some a ∧ (op.decides a = true ∧ v = a
      ∨ op.decides a = false ∧ ∃ b, y = some b ∧ op.run t a b = some v) := by
  obtain ⟨a, rfl, hv⟩ := Option.bind_eq_some_iff.1 h
  refine ⟨a, rfl, ?_⟩
  cases hd : op.decides a with
  | true =>
    rw [hd, if_pos rfl] at hv
    exact Or.inl ⟨rfl, (Option.some.inj hv).symm⟩
  | false =>
    rw [hd, if_neg Bool.false_ne_true] at hv
    exact Or.inr ⟨rfl, Option.bind_eq_some_iff.1 hv⟩

theorem truth_of_decides (h : op.decides a = true) : (op = .land ∨ op = .lor) ∧ ∃ b, a = .truth b := by
  cases a with
  | number n => cases op <;> cases h
  | truth b =>
    refine ⟨?_, b, rfl⟩
    cases op <;> first | exact Or.inl rfl | exact Or.inr rfl | cases h

/-- Where the left operand decides, the right one does not matter. -/
theorem run_of_decides (h : op.decides a = true) (hr : op.run t a b = some v) : v = a := by
  obtain ⟨hop, c, rfl⟩ := truth_of_decides h
  cases b with
  | number n => cases hr
  | truth b =>
    obtain ⟨d, hd, rfl⟩ := Option.map_eq_some_iff.1 hr
    rcases hop with rfl | rfl
    · obtain rfl : c = false := by simpa [decides] using h
      injection hd with hd
      rw [← hd]
      rfl
    · obtain rfl : c = true := h
      injection hd with hd
      rw [← hd]
      rfl

end RegisterMap.Code.Operator

namespace RegisterMap.Exec

open Code

namespace Sense

variable {l r c a b x s : Sense} {leaves : Leaves} {v : Scalar}

/-- Evaluation keeps to what is known. -/
def Admits (s : Sense) : Prop := ∀ leaves v, s.value leaves = some v → s.known.admits v

theorem admits_constant {p : Primitive} (h : v.isOf p = true) : (constant p v).Admits := by
  intro leaves w hw
  injection hw with hw
  subst hw
  exact ⟨h, fun c hc => Option.some.inj hc⟩

theorem admits_literal {type : TypeRef} {value : Nat} (h : literal type value = some s) :
    s.Admits := by
  obtain ⟨p, hp, rfl⟩ := Option.map_eq_some_iff.1 h
  have hholds : p.holds value = true := by
    have := List.find?_some hp
    exact this
  refine admits_constant (Bool.and_eq_true_iff.2 ⟨?_, hholds⟩)
  have hmem := List.mem_of_find?_eq_some hp
  cases p with
  | bool | string => split at hmem <;> simp at hmem
  | _ => rfl

theorem admits_leaf {kind : Kind} {p : Primitive} (hk : kind.exprType = some (.primitive p))
    (h : leaf kind p = some s) : s.Admits := by
  unfold leaf at h
  split at h
  · cases h
  · next hp =>
    injection h with h
    subst h
    intro leaves v hv
    injection hv with hv
    subst hv
    exact ⟨leaves.fits kind p hk hp, nofun⟩

theorem folded_cases {op : Operator} {t : Primitive} {a b : Option Scalar} {o : Option Scalar}
    (h : folded op t a b = some o) {c : Scalar} (hc : o = some c) :
    ∃ a' b', a = some a' ∧ b = some b' ∧ op.run t a' b' = some c := by
  subst hc
  unfold folded at h
  split at h
  · next a' b' =>
    obtain ⟨d, hd, he⟩ := Option.map_eq_some_iff.1 h
    exact ⟨a', b', rfl, rfl, hd.trans he⟩
  · cases h

theorem binary_eq {op : Operator} (h : binary op l r = some s) :
    ∃ t o, op.carrier? l.known r.known = some t
      ∧ folded op t l.known.constant r.known.constant = some o
      ∧ s = ⟨⟨op.resultType t, o⟩, fun leaves =>
        op.evaluate t (l.value leaves) (r.value leaves)⟩ := by
  obtain ⟨t, ht, h⟩ := Option.bind_eq_some_iff.1 h
  obtain ⟨o, ho, h⟩ := Option.bind_eq_some_iff.1 h
  exact ⟨t, o, ht, ho, (Option.some.inj h).symm⟩

theorem admits_binary {op : Operator} (h : binary op l r = some s) (hl : l.Admits)
    (hr : r.Admits) : s.Admits := by
  obtain ⟨t, o, ht, ho, rfl⟩ := binary_eq h
  intro leaves v hv
  obtain ⟨a, ha, hcases⟩ := Operator.evaluate_cases hv
  have hla := hl leaves a ha
  rcases hcases with ⟨hd, rfl⟩ | ⟨-, b, hb, hrun⟩
  · refine ⟨?_, fun c hc => ?_⟩
    · obtain ⟨hop, b, rfl⟩ := Operator.truth_of_decides hd
      rcases hop with rfl | rfl <;> rfl
    · obtain ⟨a', b', ha', -, hrun⟩ := folded_cases ho hc
      rw [hla.2 a' ha'] at hd ⊢
      exact (Operator.run_of_decides hd hrun).symm
  · have hrb := hr leaves b hb
    refine ⟨Operator.isOf_run (Operator.takes_of_carrier? ht hla hrb) hrun, fun c hc => ?_⟩
    obtain ⟨a', b', ha', hb', hrun'⟩ := folded_cases ho hc
    rw [hla.2 a' ha', hrb.2 b' hb', hrun'] at hrun
    exact (Option.some.inj hrun).symm

theorem cond_eq (h : cond c a b = some s) :
    c.known.type = .bool ∧ ∃ t, a.known.joined b.known = some t
      ∧ s = ⟨⟨t, chosen c.known.constant a.known.constant b.known.constant⟩, fun leaves =>
        (c.value leaves).bind fun c => choose c (a.value leaves) (b.value leaves)⟩ := by
  unfold cond at h
  by_cases hc : c.known.type = .bool
  · rw [guard, if_pos hc] at h
    obtain ⟨_, _, h⟩ := Option.bind_eq_some_iff.1 h
    obtain ⟨t, ht, h⟩ := Option.bind_eq_some_iff.1 h
    exact ⟨hc, t, ht, (Option.some.inj h).symm⟩
  · rw [guard, if_neg hc] at h
    cases h

theorem admits_cond (h : cond c a b = some s) (hc : c.Admits) (ha : a.Admits) (hb : b.Admits) :
    s.Admits := by
  obtain ⟨-, t, ht, rfl⟩ := cond_eq h
  intro leaves v hv
  obtain ⟨cv, hcv, hv⟩ := Option.bind_eq_some_iff.1 hv
  have hadmits : a.known.admits v ∨ b.known.admits v := by
    unfold choose at hv
    split at hv
    · split at hv
      · exact Or.inl (ha leaves v hv)
      · exact Or.inr (hb leaves v hv)
    · cases hv
  refine ⟨Known.isOf_joined ht hadmits, fun d hd => ?_⟩
  -- the constants are the values, so the same one is chosen
  dsimp only at hd
  unfold chosen at hd
  split at hd
  · next c' a' b' hc' ha' hb' =>
    rw [(hc leaves cv hcv).2 c' hc'] at hv
    unfold choose at hv hd
    split at hv
    · split at hv
      · next hyes =>
        dsimp only at hd
        rw [if_pos hyes] at hd
        exact ((ha leaves v hv).2 a' ha').trans (Option.some.inj hd)
      · next hno =>
        dsimp only at hd
        rw [if_neg hno] at hd
        exact ((hb leaves v hv).2 b' hb').trans (Option.some.inj hd)
    · cases hv
  · cases hd

theorem admits_cast {p : Primitive} (h : cast p x = some s) (hx : x.Admits) : s.Admits := by
  unfold cast at h
  split at h
  · next hcond =>
    injection h with h
    subst h
    intro leaves v hv
    obtain ⟨w, hw, rfl⟩ := Option.map_eq_some_iff.1 hv
    have hadmits := hx leaves w hw
    refine ⟨?_, fun c hc => ?_⟩
    · rcases Bool.or_eq_true_iff.1 hcond with hc | hc
      · obtain ⟨hp, hint⟩ := Bool.and_eq_true_iff.1 hc
        cases w with
        | number n => exact Bool.and_eq_true_iff.2 ⟨hp, Primitive.holds_ofBits ..⟩
        | truth b => rw [Known.type_of_admits hadmits] at hint; cases hint
      · obtain ⟨hp, hbool⟩ := Bool.and_eq_true_iff.1 hc
        obtain rfl := of_decide_eq_true hp
        cases w with
        | number n =>
          have hint := Known.isInteger_of_admits hadmits
          rw [of_decide_eq_true hbool] at hint
          cases hint
        | truth b => rfl
    · obtain ⟨c', hc', rfl⟩ := Option.map_eq_some_iff.1 hc
      rw [hadmits.2 c' hc']
  · cases h

end Sense

theorem admits_leafSense {kind : Kind} {s : Sense} (h : leafSense kind = some s) : s.Admits := by
  unfold leafSense at h
  split at h
  · exact Sense.admits_literal h
  · obtain rfl := Option.some.inj h
    exact Sense.admits_constant rfl
  · exact Sense.admits_leaf rfl h
  · exact Sense.admits_leaf rfl h
  · cases h

theorem admits_composed {kind : Kind} {ss : List Sense} {s : Sense} (hss : ∀ s ∈ ss, s.Admits)
    (h : composed kind ss = some s) : s.Admits := by
  unfold composed at h
  split at h
  · exact Sense.admits_binary h (hss _ (by simp)) (hss _ (by simp))
  · exact Sense.admits_cond h (hss _ (by simp)) (hss _ (by simp)) (hss _ (by simp))
  · exact Sense.admits_cast h (hss _ (by simp))
  · obtain rfl := Option.some.inj h
    exact hss _ (by simp)
  · cases h

/-- Every expression evaluates to what is known of it. -/
theorem sense_admits {x : Shape} {s : Sense} (h : sense x = some s) : s.Admits := by
  induction x using Term.ind generalizing s with
  | node tag kind notes slots ih =>
    rcases sense_cases h with hleaf | ⟨-, xs, ss, rfl, hxs, hs⟩
    · exact admits_leafSense hleaf
    · refine admits_composed (fun s hmem => ?_) hs
      have hsome : some s ∈ xs.map sense := hxs ▸ List.mem_map_of_mem hmem
      obtain ⟨x, hx, hsx⟩ := List.mem_map.1 hsome
      exact ih [x] (List.mem_map_of_mem hx) x (List.mem_singleton_self x) hsx

end RegisterMap.Exec
