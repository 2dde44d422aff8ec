/-
Everything one peripheral is made from: its registers, its register
arrays, and the reset value of each register by the name of its type.
-/
import RegisterMap.Register.Array

namespace RegisterMap

/-- Reset values by type name; the first entry of a name counts. -/
abbrev ResetTable := List (String × Nat)

namespace ResetTable

def find? (table : ResetTable) (type : String) : Option Nat := List.lookup type table

/-- Without the value of `type`. -/
def erase (table : ResetTable) (type : String) : ResetTable := table.filter (·.1 != type)

/-- With `value` as the only value of `type`. -/
def insert (table : ResetTable) (type : String) (value : Nat) : ResetTable :=
  (type, value) :: table.erase type

@[simp] theorem find?_erase_same (table : ResetTable) (type : String) :
    (table.erase type).find? type = none := by
  refine List.lookup_eq_none_iff.2 fun entry member => ?_
  have : entry.1 ≠ type := by simpa using (List.mem_filter.1 member).2
  simpa using this.symm

theorem find?_erase_of_ne {table : ResetTable} {type other : String} (h : other ≠ type) :
    (table.erase type).find? other = table.find? other := by
  induction table with
  | nil => rfl
  | cons entry rest ih =>
    obtain ⟨name, value⟩ := entry
    simp only [find?, erase] at ih ⊢
    by_cases hn : name = type
    · subst hn
      have : (other == name) = false := by simp [h]
      simp [List.lookup_cons, this, ih]
    · by_cases ho : other = name <;> simp [List.lookup_cons, hn, ih]

@[simp] theorem find?_insert_same (table : ResetTable) (type : String) (value : Nat) :
    (table.insert type value).find? type = some value := by
  simp [find?, insert]

theorem find?_insert_of_ne {table : ResetTable} {type other : String} {value : Nat}
    (h : other ≠ type) : (table.insert type value).find? other = table.find? other := by
  have : (other == type) = false := by simp [h]
  rw [← @find?_erase_of_ne table type other h]
  simp [find?, insert, List.lookup_cons, this]

end ResetTable

structure Inventory where
  name : String
  registers : List Register := []
  arrays : List RegisterArray := []
  resets : ResetTable := []
  deriving DecidableEq, Repr

/-- The recorded reset value of a register, zero if there is none. -/
def Inventory.resetOf (inventory : Inventory) (r : Register) : Nat :=
  (inventory.resets.find? r.typeName).getD 0

/-- The inventory with the reset value of every register as its fields
declare it. -/
def Inventory.withDeclaredResets (inventory : Inventory) : Except Failure Inventory := do
  let resets ← inventory.registers.foldlM
    (fun (table : ResetTable) r => return table.insert r.typeName (← r.resetValue)) []
  return { inventory with resets }

end RegisterMap
