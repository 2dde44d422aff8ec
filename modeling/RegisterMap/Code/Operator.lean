/-
Binary operators: their spelling, the tier they bind at and which of them
may be regrouped freely. Higher tiers bind tighter; the conditional sits
below every binary operator and an atom above all of them.
-/
namespace RegisterMap.Code

/-- A binary operator. -/
inductive Operator where
  | add | sub | mul | div | shl | shr | ushr | lt | gt | lte | gte | eq | neq
  | and | xor | or | land | lor
  deriving DecidableEq, Repr

namespace Operator

/-- Every operator, in declaration order. -/
def all : List Operator :=
  [.add, .sub, .mul, .div, .shl, .shr, .ushr, .lt, .gt, .lte, .gte, .eq, .neq,
    .and, .xor, .or, .land, .lor]

def symbol : Operator → String
  | .add => "+"
  | .sub => "-"
  | .mul => "*"
  | .div => "/"
  | .shl => "<<"
  | .shr => ">>"
  | .ushr => ">>>"
  | .lt => "<"
  | .gt => ">"
  | .lte => "<="
  | .gte => ">="
  | .eq => "=="
  | .neq => "!="
  | .and => "&"
  | .xor => "^"
  | .or => "|"
  | .land => "&&"
  | .lor => "||"

/-- The operator a symbol spells. -/
def ofSymbol? (symbol : String) : Option Operator :=
  all.find? fun op => op.symbol == symbol

def isShift : Operator → Bool
  | .shl | .shr | .ushr => true
  | _ => false

/-- Comparisons and logical connectives, whose result is a `bool`. -/
def isPredicate : Operator → Bool
  | .lt | .gt | .lte | .gte | .eq | .neq | .land | .lor => true
  | _ => false

/-- Grouping to the right gives the same value as grouping to the left. -/
def isAssociative : Operator → Bool
  | .add | .mul | .and | .xor | .or | .land | .lor => true
  | _ => false

/-- Binding strength. -/
def tier : Operator → Nat
  | .mul | .div => 13
  | .add | .sub => 12
  | .shl | .shr | .ushr => 11
  | .lt | .gt | .lte | .gte => 10
  | .eq | .neq => 9
  | .and => 8
  | .xor => 7
  | .or => 6
  | .land => 5
  | .lor => 4

end Operator

/-- Binding strength of the conditional. -/
def condTier : Nat := 2

/-- Binding strength of whatever is no operator. -/
def atomTier : Nat := 18

theorem Operator.ofSymbol?_symbol (op : Operator) : ofSymbol? op.symbol = some op := by
  cases op <;> rfl

theorem Operator.condTier_lt_tier (op : Operator) : condTier < op.tier := by
  cases op <;> decide

theorem Operator.tier_lt_atomTier (op : Operator) : op.tier < atomTier := by
  cases op <;> decide

end RegisterMap.Code
