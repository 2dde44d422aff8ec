/-
The grammar of expressions with accesses and calls. A phrase is a tree of
it; it is `Proper` if every operand binds as strong as its position asks
for. Accesses, calls and creations bind stronger than a cast, a cast
stronger than every operator. What a row of marks spells is the proper
phrase that has these marks.

There is at most one (`Proper.unique`): a reader that keeps what waits for
an operand on a stack gets every proper phrase back from its marks. An
access takes the operand in hand at once, before anything on the stack
can; so what stands left of a dot is read as the receiver no further than
to the operator before it.
-/
import RegisterMap.Code.Operator

namespace RegisterMap.Code

/-- A phrase is an operand, or the arguments between two parentheses. -/
inductive Part where
  | operand
  | arguments
  deriving DecidableEq, Repr

/-- What is called, where it is no method of an object. -/
inductive Callee where
  | function (name : String)
  | creation (type : String)
  deriving DecidableEq, Repr

/-- An expression with its accesses and calls. What these stand between is
opaque here: a word is its text, a type its name. -/
inductive Phrase : Part → Type where
  | word (text : String) : Phrase .operand
  | binary (op : Operator) (lhs rhs : Phrase .operand) : Phrase .operand
  | cond (condition consequent alternative : Phrase .operand) : Phrase .operand
  | cast (type : String) (inner : Phrase .operand) : Phrase .operand
  | paren (inner : Phrase .operand) : Phrase .operand
  | member (object : Phrase .operand) (name : String) : Phrase .operand
  | item (object index : Phrase .operand) : Phrase .operand
  | array (type : String) (count : Phrase .operand) : Phrase .operand
  | call (callee : Callee) (args : Phrase .arguments) : Phrase .operand
  /-- The call of a method of an object. -/
  | send (object : Phrase .operand) (name : String) (args : Phrase .arguments) : Phrase .operand
  | none : Phrase .arguments
  | more (init : Phrase .arguments) (label : Option String) (out : Bool)
    (value : Phrase .operand) : Phrase .arguments

/-- Binding strength of the creation of an array, which cannot be indexed
as it stands. -/
def arrayTier : Nat := atomTier + 1

/-- Binding strength of what can be indexed. -/
def primaryTier : Nat := arrayTier + 1

/-- The units of the grammar. A call includes the parenthesis that opens
it. -/
inductive Mark where
  | word (text : String)
  | operator (op : Operator)
  | question
  | colon
  | comma
  | out
  | opening
  | closing
  | bracket
  | unbracket
  /-- A type in parentheses in front of an operand. -/
  | castTo (type : String)
  | dot (name : String)
  | array (type : String)
  | call (callee : Callee)
  | send (name : String)
  deriving DecidableEq, Repr

namespace Phrase

variable {s : Part}

/-- Binding strength of the outermost node. -/
def tier : Phrase s → Nat
  | .binary op _ _ => op.tier
  | .cond _ _ _ => condTier
  | .cast _ _ => atomTier
  | .array _ _ => arrayTier
  | _ => primaryTier

/-- The phrase without its parentheses. -/
def bare {s : Part} : Phrase s → Phrase s
  | .word text => .word text
  | .binary op l r => .binary op l.bare r.bare
  | .cond c a b => .cond c.bare a.bare b.bare
  | .cast type e => .cast type e.bare
  | .paren e => e.bare
  | .member e name => .member e.bare name
  | .item e i => .item e.bare i.bare
  | .array type n => .array type n.bare
  | .call callee args => .call callee args.bare
  | .send e name args => .send e.bare name args.bare
  | .none => .none
  | .more init label out e => .more init.bare label out e.bare

/-- The phrases differ in the grouping of runs of one associative
operator. -/
inductive Regroups : {s : Part} → Phrase s → Phrase s → Prop
  | refl {s : Part} (e : Phrase s) : Regroups e e
  | symm {s : Part} {d e : Phrase s} : Regroups d e → Regroups e d
  | trans {s : Part} {d e f : Phrase s} : Regroups d e → Regroups e f → Regroups d f
  | regroup {op} (a b c) : op.isAssociative = true →
    Regroups (.binary op (.binary op a b) c) (.binary op a (.binary op b c))
  | binary (op) {l l' r r'} : Regroups l l' → Regroups r r' →
    Regroups (.binary op l r) (.binary op l' r')
  | cond {c c' a a' b b'} : Regroups c c' → Regroups a a' → Regroups b b' →
    Regroups (.cond c a b) (.cond c' a' b')
  | cast (type) {e e'} : Regroups e e' → Regroups (.cast type e) (.cast type e')
  | member (name) {e e'} : Regroups e e' → Regroups (.member e name) (.member e' name)
  | item {e e' i i'} : Regroups e e' → Regroups i i' → Regroups (.item e i) (.item e' i')
  | array (type) {n n'} : Regroups n n' → Regroups (.array type n) (.array type n')
  | call (callee) {a a'} : Regroups a a' → Regroups (.call callee a) (.call callee a')
  | send (name) {e e' a a'} : Regroups e e' → Regroups a a' →
    Regroups (.send e name a) (.send e' name a')
  | more (label out) {i i' e e'} : Regroups i i' → Regroups e e' →
    Regroups (.more i label out e) (.more i' label out e')

/-- What stands between these arguments and another one. -/
def comma : Phrase .arguments → List Mark
  | .none => []
  | .more .. => [.comma]

/-- What stands in front of the value of an argument. -/
def lead (label : Option String) (out : Bool) : List Mark :=
  (label.elim [] fun name => [.word name, .colon]) ++ if out then [.out] else []

/-- The marks of a phrase as it stands. -/
def marks {s : Part} : Phrase s → List Mark
  | .word text => [.word text]
  | .binary op l r => l.marks ++ .operator op :: r.marks
  | .cond c a b => c.marks ++ .question :: (a.marks ++ .colon :: b.marks)
  | .cast type e => .castTo type :: e.marks
  | .paren e => .opening :: (e.marks ++ [.closing])
  | .member e name => e.marks ++ [.dot name]
  | .item e i => e.marks ++ .bracket :: (i.marks ++ [.unbracket])
  | .array type n => .array type :: (n.marks ++ [.unbracket])
  | .call callee args => .call callee :: (args.marks ++ [.closing])
  | .send e name args => e.marks ++ .send name :: (args.marks ++ [.closing])
  | .none => []
  | .more init label out e => init.marks ++ (init.comma ++ (lead label out ++ e.marks))

def commaChars : Phrase .arguments → List Char
  | .none => []
  | .more .. => [',', ' ']

def leadChars (label : Option String) (out : Bool) : List Char :=
  (label.elim [] fun name => name.toList ++ [':', ' ']) ++ if out then ['o', 'u', 't', ' '] else []

def calleeChars : Callee → List Char
  | .function name => name.toList
  | .creation type => 'n' :: 'e' :: 'w' :: ' ' :: type.toList

/-- A phrase as it is written. -/
def chars {s : Part} : Phrase s → List Char
  | .word text => text.toList
  | .binary op l r => l.chars ++ ' ' :: (op.symbol.toList ++ ' ' :: r.chars)
  | .cond c a b => c.chars ++ ' ' :: '?' :: ' ' :: (a.chars ++ ' ' :: ':' :: ' ' :: b.chars)
  | .cast type e => '(' :: (type.toList ++ ')' :: e.chars)
  | .paren e => '(' :: (e.chars ++ [')'])
  | .member e name => e.chars ++ '.' :: name.toList
  | .item e i => e.chars ++ '[' :: (i.chars ++ [']'])
  | .array type n => 'n' :: 'e' :: 'w' :: ' ' :: (type.toList ++ '[' :: (n.chars ++ [']']))
  | .call callee args => calleeChars callee ++ '(' :: (args.chars ++ [')'])
  | .send e name args => e.chars ++ '.' :: (name.toList ++ '(' :: (args.chars ++ [')']))
  | .none => []
  | .more init label out e => init.chars ++ (init.commaChars ++ (leadChars label out ++ e.chars))

/-- The phrase obeys the grammar: binary operators group to the left, the
conditional to the right, a cast applies to a single operand, and an
access to what is no operation. -/
def Proper {s : Part} : Phrase s → Prop
  | .word _ | .none => True
  | .binary op l r => l.Proper ∧ r.Proper ∧ op.tier ≤ l.tier ∧ op.tier < r.tier
  | .cond c a b => c.Proper ∧ a.Proper ∧ b.Proper ∧ condTier < c.tier
  | .cast _ e => e.Proper ∧ atomTier ≤ e.tier
  | .paren e => e.Proper
  | .member e _ => e.Proper ∧ arrayTier ≤ e.tier
  | .item e i => e.Proper ∧ i.Proper ∧ primaryTier ≤ e.tier
  | .array _ n => n.Proper
  | .call _ args => args.Proper
  | .send e _ args => e.Proper ∧ args.Proper ∧ arrayTier ≤ e.tier
  | .more init _ _ e => init.Proper ∧ e.Proper

theorem condTier_le_tier (e : Phrase s) : condTier ≤ e.tier := by
  cases e with
  | binary op l r => exact Nat.le_of_lt op.condTier_lt_tier
  | cond c a b => exact Nat.le_refl _
  | _ => exact Nat.le_of_ble_eq_true rfl

-- ============================================================ the reader

/-- What waits for an operand. -/
inductive Pending where
  | left (lhs : Phrase .operand) (op : Operator)
  | castTo (type : String)
  /-- A condition whose consequent is being read. -/
  | test (condition : Phrase .operand)
  | choice (condition consequent : Phrase .operand)
  | group
  /-- A bracket, with what the operand in it makes. -/
  | square (whole : Phrase .operand → Phrase .operand)
  /-- A call among its arguments: what these make, those before, and what
  has been said of the one that is being read. -/
  | round (whole : Phrase .arguments → Phrase .operand) (init : Phrase .arguments)
    (label : Option String) (out : Bool)

namespace Pending

/-- How strong the operand that is waited for is bound. A test and all
that is open wait for a mark of their own. -/
def tier : Pending → Nat
  | .left _ op => op.tier
  | .castTo _ => atomTier
  | .choice .. => condTier
  | _ => 0

/-- The operation with its last operand. What waits for a mark is never
filled, since no strength is as low as its own. -/
def fill : Pending → Phrase .operand → Phrase .operand
  | .left l op, e => .binary op l e
  | .castTo type, e => .cast type e
  | .choice c a, e => .cond c a e
  | _, e => e

/-- An operand is taken by all that binds it at least as strong as what
comes behind it. -/
def settle (j : Nat) : List Pending → Phrase .operand → Phrase .operand × List Pending
  | [], e => (e, [])
  | f :: stack, e => if j ≤ f.tier then settle j stack (f.fill e) else (e, f :: stack)

/-- A colon ends a consequent, or the label of an argument. -/
def colon? : Phrase .operand × List Pending → Option (List Pending)
  | (a, .test c :: stack) => some (.choice c a :: stack)
  | (.word name, .round whole init .none false :: stack) =>
    some (.round whole init (some name) false :: stack)
  | _ => .none

/-- A comma ends an argument. -/
def comma? : Phrase .operand × List Pending → Option (List Pending)
  | (e, .round whole init label out :: stack) =>
    some (.round whole (.more init label out e) .none false :: stack)
  | _ => .none

/-- A closing parenthesis ends a group or a call. -/
def close? : Phrase .operand × List Pending → Option (Phrase .operand × List Pending)
  | (e, .group :: stack) => some (.paren e, stack)
  | (e, .round whole init label out :: stack) => some (whole (.more init label out e), stack)
  | _ => .none

def unbracket? : Phrase .operand × List Pending → Option (Phrase .operand × List Pending)
  | (e, .square whole :: stack) => some (whole e, stack)
  | _ => .none

def out? : List Pending → Option (List Pending)
  | .round whole init label false :: stack => some (.round whole init label true :: stack)
  | _ => .none

/-- A closing parenthesis ends a call that has no arguments. -/
def empty? : List Pending → Option (Phrase .operand × List Pending)
  | .round whole .none .none false :: stack => some (whole .none, stack)
  | _ => .none

theorem settle_fill {j : Nat} {f : Pending} (h : j ≤ f.tier) (stack : List Pending)
    (e : Phrase .operand) : settle j (f :: stack) e = settle j stack (f.fill e) := if_pos h

theorem settle_of_lt {j : Nat} {stack : List Pending} (h : ∀ f ∈ stack.head?, f.tier < j)
    (e : Phrase .operand) : settle j stack e = (e, stack) := by
  cases stack with
  | nil => rfl
  | cons f stack => exact if_neg (Nat.not_le_of_lt (h f rfl))

theorem tier_lt_arrayTier (f : Pending) : f.tier < arrayTier := by
  cases f with
  | left l op => exact Nat.lt_succ_of_lt op.tier_lt_atomTier
  | _ => exact Nat.le_of_ble_eq_true rfl

end Pending

open Pending (settle)

/-- Reads marks behind a stack of what is waiting, with an operand in hand
or waiting for one. -/
def parse : List Pending → Option (Phrase .operand) → List Mark → Option (Phrase .operand)
  | stack, .none, .word text :: ms => parse stack (some (.word text)) ms
  | stack, .none, .castTo type :: ms => parse (.castTo type :: stack) .none ms
  | stack, .none, .opening :: ms => parse (.group :: stack) .none ms
  | stack, .none, .array type :: ms => parse (.square (.array type) :: stack) .none ms
  | stack, .none, .call callee :: ms =>
    parse (.round (.call callee) .none .none false :: stack) .none ms
  | stack, .none, .out :: ms => (Pending.out? stack).bind fun stack => parse stack .none ms
  | stack, .none, .closing :: ms =>
    (Pending.empty? stack).bind fun (e, stack) => parse stack (some e) ms
  | stack, some e, .dot name :: ms => parse stack (some (.member e name)) ms
  | stack, some e, .bracket :: ms => parse (.square (.item e) :: stack) .none ms
  | stack, some e, .send name :: ms =>
    parse (.round (.send e name) .none .none false :: stack) .none ms
  | stack, some e, .operator op :: ms =>
    let (l, stack) := settle op.tier stack e
    parse (.left l op :: stack) .none ms
  | stack, some e, .question :: ms =>
    let (c, stack) := settle (condTier + 1) stack e
    parse (.test c :: stack) .none ms
  | stack, some e, .colon :: ms =>
    (Pending.colon? (settle condTier stack e)).bind fun stack => parse stack .none ms
  | stack, some e, .comma :: ms =>
    (Pending.comma? (settle condTier stack e)).bind fun stack => parse stack .none ms
  | stack, some e, .closing :: ms =>
    (Pending.close? (settle condTier stack e)).bind fun (e, stack) => parse stack (some e) ms
  | stack, some e, .unbracket :: ms =>
    (Pending.unbracket? (settle condTier stack e)).bind fun (e, stack) => parse stack (some e) ms
  | stack, some e, [] =>
    match settle condTier stack e with
    | (e, []) => some e
    | _ => .none
  | _, _, _ => .none

/-- What is on top does not take what binds as strong as `k` before it is
complete. -/
def Waits (k : Nat) (stack : List Pending) : Prop :=
  k < atomTier → ∀ f ∈ stack.head?, f.tier < max k (condTier + 1)

theorem Waits.settle_eq {k j : Nat} {stack : List Pending} (h : Waits k stack)
    (hk : k < atomTier) (hj : max k (condTier + 1) ≤ j) (e : Phrase .operand) :
    settle j stack e = (e, stack) :=
  Pending.settle_of_lt (fun f hf => Nat.lt_of_lt_of_le (h hk f hf) hj) e

theorem waits_cons {k : Nat} {f : Pending} (h : f.tier < max k (condTier + 1))
    (stack : List Pending) : Waits k (f :: stack) := by
  rintro - g ⟨⟩
  exact h

theorem waits_open {f : Pending} (h : f.tier = 0) (k : Nat) (stack : List Pending) :
    Waits k (f :: stack) :=
  waits_cons (by rw [h]; exact Nat.lt_of_lt_of_le (Nat.succ_pos _) (Nat.le_max_right ..)) stack

theorem waits_mono {j k : Nat} {stack : List Pending} (hjk : j ≤ k) (h : Waits j stack) :
    Waits k stack := fun hk f hf => by
  have := h (Nat.lt_of_le_of_lt hjk hk) f hf
  omega

theorem waits_tight {k : Nat} (h : atomTier ≤ k) (stack : List Pending) : Waits k stack :=
  fun hk => absurd hk (Nat.not_lt_of_le h)

/-- Reading the marks of an operand comes to the same as having it in
hand, for all that binds no stronger. Reading arguments brings the call
from none to these. -/
def Runs : {s : Part} → Phrase s → Prop
  | .operand, p => ∀ stack, Waits p.tier stack → ∃ stack' e,
    (∀ rest, parse stack .none (p.marks ++ rest) = parse stack' (some e) rest)
      ∧ ∀ j ≤ p.tier, settle j stack' e = settle j stack p
  | .arguments, a => ∀ whole stack,
    (∀ rest, parse (.round whole .none .none false :: stack) .none (a.marks ++ (a.comma ++ rest))
      = parse (.round whole a .none false :: stack) .none rest)
      ∧ ∀ rest, parse (.round whole .none .none false :: stack) .none (a.marks ++ .closing :: rest)
        = parse stack (some (whole a)) rest

variable {e : Phrase .operand} {stack : List Pending}

/-- Between marks that are open, an operand is read as a whole. -/
theorem Runs.inside (h : e.Runs) {f : Pending} (hf : f.tier = 0) (stack : List Pending) :
    ∃ stack' d, (∀ rest, parse (f :: stack) .none (e.marks ++ rest) = parse stack' (some d) rest)
      ∧ settle condTier stack' d = (e, f :: stack) := by
  obtain ⟨stack', d, hread, hsettle⟩ := h (f :: stack) (waits_open hf _ _)
  refine ⟨stack', d, hread, (hsettle _ e.condTier_le_tier).trans ?_⟩
  exact if_neg (by rw [hf]; decide)

/-- What an access applies to is in hand once it is read. -/
theorem Runs.object (h : e.Runs) (he : arrayTier ≤ e.tier) (stack : List Pending)
    (rest : List Mark) : parse stack .none (e.marks ++ rest) = parse stack (some e) rest := by
  obtain ⟨stack', d, hread, hsettle⟩ :=
    h stack (waits_tight (Nat.le_trans (Nat.le_succ _) he) stack)
  have hsame : settle arrayTier stack' d = settle arrayTier stack e := hsettle _ he
  rw [Pending.settle_of_lt fun f _ => f.tier_lt_arrayTier,
    Pending.settle_of_lt fun f _ => f.tier_lt_arrayTier] at hsame
  injection hsame with hd hstack
  rw [hread, hd, hstack]

/-- An operand that is in hand once it is read. -/
theorem runs_of_parse
    (h : ∀ stack rest, parse stack .none (e.marks ++ rest) = parse stack (some e) rest) :
    e.Runs := fun stack _ => ⟨stack, e, h stack, fun _ _ => rfl⟩

theorem parse_lead (label : Option String) (out : Bool)
    (whole : Phrase .arguments → Phrase .operand) (init : Phrase .arguments)
    (stack : List Pending) (rest : List Mark) :
    parse (.round whole init .none false :: stack) .none (lead label out ++ rest)
      = parse (.round whole init label out :: stack) .none rest := by
  cases label <;> cases out <;> rfl

/-- The reader finds every proper phrase. -/
theorem Proper.runs {p : Phrase s} (h : p.Proper) : p.Runs := by
  induction p with
  | word text => exact runs_of_parse fun _ _ => rfl
  | binary op l r ihl ihr =>
    obtain ⟨hl, hr, hle, hlt⟩ := h
    intro stack hw
    have hop := op.condTier_lt_tier
    obtain ⟨st₁, d₁, hread₁, hsettle₁⟩ := ihl hl stack (waits_mono hle hw)
    have htop : settle op.tier st₁ d₁ = (l, stack) :=
      (hsettle₁ _ hle).trans
        (hw.settle_eq op.tier_lt_atomTier (Nat.max_le.2 ⟨Nat.le_refl _, hop⟩) l)
    have hbelow : (Pending.left l op).tier < max r.tier (condTier + 1) :=
      Nat.lt_of_lt_of_le hlt (Nat.le_max_left ..)
    obtain ⟨st₂, d₂, hread₂, hsettle₂⟩ := ihr hr (.left l op :: stack) (waits_cons hbelow _)
    refine ⟨st₂, d₂, fun rest => ?_, fun j hj => ?_⟩
    · rw [marks, List.append_assoc, hread₁, List.cons_append, parse, htop, ← hread₂]
    · rw [hsettle₂ j (Nat.le_trans hj (Nat.le_of_lt hlt)), Pending.settle_fill hj]
      rfl
  | cond c a b ihc iha ihb =>
    obtain ⟨hc, ha, hb, hlt⟩ := h
    intro stack hw
    obtain ⟨st₁, d₁, hread₁, hsettle₁⟩ := ihc hc stack (waits_mono (Nat.le_of_lt hlt) hw)
    have htop : settle (condTier + 1) st₁ d₁ = (c, stack) :=
      (hsettle₁ _ hlt).trans (hw.settle_eq (show condTier < atomTier by decide)
        (Nat.max_le.2 ⟨Nat.le_succ _, Nat.le_refl _⟩) c)
    obtain ⟨st₂, d₂, hread₂, hcolon⟩ := (iha ha).inside (f := .test c) rfl stack
    have hbelow : (Pending.choice c a).tier < max b.tier (condTier + 1) :=
      Nat.lt_of_lt_of_le (Nat.lt_succ_self _) (Nat.le_max_right ..)
    obtain ⟨st₃, d₃, hread₃, hsettle₃⟩ := ihb hb (.choice c a :: stack) (waits_cons hbelow _)
    refine ⟨st₃, d₃, fun rest => ?_, fun j hj => ?_⟩
    · rw [marks, List.append_assoc, hread₁, List.cons_append, parse, htop]
      show parse (.test c :: stack) .none ((a.marks ++ .colon :: b.marks) ++ rest) = _
      rw [List.append_assoc, hread₂, List.cons_append, parse, hcolon]
      exact hread₃ rest
    · rw [hsettle₃ j (Nat.le_trans hj b.condTier_le_tier), Pending.settle_fill hj]
      rfl
  | cast type e ih =>
    obtain ⟨he, hle⟩ := h
    intro stack hw
    obtain ⟨st, d, hread, hsettle⟩ := ih he (.castTo type :: stack) (waits_tight hle _)
    refine ⟨st, d, fun rest => ?_, fun j hj => ?_⟩
    · rw [marks, List.cons_append, parse, hread]
    · rw [hsettle j (Nat.le_trans hj hle), Pending.settle_fill hj]
      rfl
  | paren e ih =>
    refine runs_of_parse fun stack rest => ?_
    obtain ⟨st, d, hread, hclose⟩ := (ih h).inside (f := .group) rfl stack
    rw [marks, List.cons_append, List.append_assoc, parse, hread, List.singleton_append, parse,
      hclose]
    rfl
  | member e name ih =>
    refine runs_of_parse fun stack rest => ?_
    rw [marks, List.append_assoc, (ih h.1).object h.2]
    rfl
  | item e i ihe ihi =>
    obtain ⟨he, hi, hle⟩ := h
    refine runs_of_parse fun stack rest => ?_
    obtain ⟨st, d, hread, hclose⟩ := (ihi hi).inside (f := .square (.item e)) rfl stack
    rw [marks, List.append_assoc, (ihe he).object (Nat.le_of_succ_le hle), List.cons_append, parse,
      List.append_assoc, hread, List.singleton_append, parse, hclose]
    rfl
  | array type n ih =>
    refine runs_of_parse fun stack rest => ?_
    obtain ⟨st, d, hread, hclose⟩ := (ih h).inside (f := .square (.array type)) rfl stack
    rw [marks, List.cons_append, parse, List.append_assoc, hread, List.singleton_append, parse,
      hclose]
    rfl
  | call callee args ih =>
    refine runs_of_parse fun stack rest => ?_
    rw [marks, List.cons_append, parse, List.append_assoc, List.singleton_append]
    exact (ih h (.call callee) stack).2 rest
  | send e name args ihe iha =>
    obtain ⟨he, ha, hle⟩ := h
    refine runs_of_parse fun stack rest => ?_
    rw [marks, List.append_assoc, (ihe he).object hle, List.cons_append, parse, List.append_assoc,
      List.singleton_append]
    exact (iha ha (.send e name) stack).2 rest
  | none => exact fun whole stack => ⟨fun rest => rfl, fun rest => rfl⟩
  | more init label out e ihi ihe =>
    intro whole stack
    obtain ⟨st, d, hread, hend⟩ := (ihe h.2).inside (f := .round whole init label out) rfl stack
    have hvalue : ∀ rest, parse (.round whole .none .none false :: stack) .none
        ((more init label out e).marks ++ rest) = parse st (some d) rest := fun rest => by
      rw [marks, List.append_assoc, List.append_assoc, (ihi h.1 whole stack).1,
        List.append_assoc, parse_lead, hread]
    refine ⟨fun rest => ?_, fun rest => ?_⟩
    · rw [hvalue, comma, List.singleton_append, parse, hend]
      rfl
    · rw [hvalue, parse, hend]
      rfl

/-- The reader finds what is spelled. -/
theorem Proper.parse_marks (h : e.Proper) : parse [] .none e.marks = some e := by
  obtain ⟨st, d, hread, hsettle⟩ := h.runs [] fun _ _ hf => nomatch hf
  have hend := hsettle _ e.condTier_le_tier
  rw [← List.append_nil e.marks, hread, parse, hend]
  rfl

/-- Marks are those of at most one proper phrase. -/
theorem Proper.unique {d : Phrase .operand} (hd : d.Proper) (he : e.Proper)
    (h : d.marks = e.marks) : d = e :=
  Option.some_inj.1 (hd.parse_marks.symm.trans (h ▸ he.parse_marks))

end Phrase

end RegisterMap.Code
