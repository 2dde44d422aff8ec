/-
The members of a peripheral by what they hold. A mount is an array or a
register; an access goes to the first array that covers its offset, or
else to the register at it (`Inventory.Routes`). In a sound inventory,
whose names and register addresses are told apart, that is the first
mount that covers the offset, and no other one (`routes_iff`).
-/
import Mathlib.Data.List.Nodup
import RegisterMap.Proofs.Register.Resets
import RegisterMap.Register.Inventory

namespace RegisterMap

-- =============================================================== names

namespace Text

/-- A word of an identifier does not begin with a small letter. -/
theorem toUpper_ne (c : Char) {l : Char} (hl : 'a' ≤ l ∧ l ≤ 'z') : c.toUpper ≠ l := by
  intro he
  subst he
  unfold Char.toUpper at hl
  split at hl
  · next h =>
    have hlow := UInt32.le_iff_toNat_le.1 hl.1
    have hc := UInt32.le_iff_toNat_le.1 h.1
    have hz := UInt32.le_iff_toNat_le.1 h.2
    simp only [UInt32.toNat_add] at hlow
    have hshift : ('A'.val - 'a'.val).toNat = 2 ^ 32 - 32 := by decide
    have ha : 'a'.val.toNat = 97 := by decide
    have hz' : 'z'.val.toNat = 122 := by decide
    omega
  · next h => exact h hl

theorem head?_joinWords (name : List Char) {l : Char} (hl : 'a' ≤ l ∧ l ≤ 'z') :
    (joinWords true name).head? ≠ some l := by
  induction name with
  | nil => exact nofun
  | cons c rest ih =>
    unfold joinWords
    split
    · exact ih
    · exact fun he => toUpper_ne c hl (Option.some.inj he)

def startsWithDigit (cs : List Char) : Bool := cs.head?.any Char.isDigit

theorem toList_pascalCase (name : String) : (pascalCase name).toList
    = if startsWithDigit (joinWords true name.toList) then '_' :: joinWords true name.toList
      else joinWords true name.toList := by
  unfold pascalCase
  cases joinWords true name.toList with
  | nil => rfl
  | cons c rest => exact String.toList_ofList

theorem head?_pascalCase (name : String) {l : Char} (hl : 'a' ≤ l ∧ l ≤ 'z') :
    (pascalCase name).toList.head? ≠ some l := by
  rw [toList_pascalCase]
  split
  · exact fun he => absurd (Option.some.inj he ▸ hl) (by decide)
  · exact head?_joinWords name.toList hl

/-- No identifier for a name in groups begins with a small letter. -/
theorem head?_pascalPath (groups : List String) (name : String) {l : Char}
    (hl : 'a' ≤ l ∧ l ≤ 'z') : (pascalPath groups name).toList.head? ≠ some l := by
  unfold pascalPath
  rw [String.toList_intercalate]
  cases groups with
  | nil => simpa using head?_pascalCase name hl
  | cons g rest =>
    obtain ⟨word, words, hwords⟩ : ∃ word words,
        ((rest ++ [name]).map pascalCase).map String.toList = word :: words := by
      cases rest <;> exact ⟨_, _, rfl⟩
    rw [List.cons_append, List.map_cons, List.map_cons, hwords, List.intercalate_cons_cons]
    have hg := head?_pascalCase g hl
    cases hcase : (pascalCase g).toList with
    | nil => exact fun he => absurd (Option.some.inj he ▸ hl) (by decide)
    | cons c cs =>
      rw [hcase] at hg
      exact hg

end Text

-- ============================================================== mounts

/-- What a member of a peripheral holds. -/
inductive Mount where
  | array (a : RegisterArray)
  | register (r : Register)
  deriving DecidableEq, Repr

namespace Mount

def memberName : Mount → String
  | .array a => a.memberName
  | .register r => r.memberName

def typeName : Mount → String
  | .array a => a.typeName
  | .register r => r.typeName

/-- Bytes of the buffer behind the mount. -/
def bufferSize : Mount → Nat
  | .array a => a.count * a.stride + 3
  | .register r => r.bufferSize

/-- The mount answers at the offset. -/
def covers (offset : Nat) : Mount → Bool
  | .array a => a.address ≤ offset && offset < a.address + a.count * a.stride
  | .register r => offset == r.address

/-- The byte of the buffer that an access at an offset starts at. -/
def start (offset : Nat) : Mount → Nat
  | .array a => offset - a.address
  | .register _ => 0

/-- The mount can be built, and its addresses are those of a `long`. -/
def Sound : Mount → Prop
  | .array a => a.register.Proper ∧ Word.bytesFor a.register.width ≤ a.stride
    ∧ a.address + a.count * a.stride < 2 ^ 63 ∧ a.count * a.stride + 3 < 2 ^ 31
  | .register r => r.Proper ∧ r.address < 2 ^ 63 ∧ r.bufferSize < 2 ^ 31

theorem typeName_eq (m : Mount) : m.typeName = m.memberName ++ "Type" := by
  cases m <;> rfl

/-- No member has the name of a parameter. -/
theorem memberName_ne (m : Mount) : m.memberName ≠ "offset" ∧ m.memberName ≠ "value" := by
  have hne : ∀ groups name word l, word.toList.head? = some l → 'a' ≤ l ∧ l ≤ 'z' →
      Text.pascalPath groups name ≠ word :=
    fun groups name word l hw hl he => Text.head?_pascalPath groups name hl (he ▸ hw)
  cases m with
  | array a => exact ⟨hne _ _ _ 'o' rfl (by decide), hne _ _ _ 'v' rfl (by decide)⟩
  | register r => exact ⟨hne _ _ _ 'o' rfl (by decide), hne _ _ _ 'v' rfl (by decide)⟩

theorem Sound.array {a : RegisterArray} (h : (Mount.array a).Sound) : a.Sound :=
  ⟨h.1, h.2.2.2, Or.inr h.2.1⟩

/-- An access starts three bytes before the end of the buffer at the
latest. -/
theorem start_lt {m : Mount} {offset : Nat} (h : m.covers offset = true) :
    m.start offset + 3 < m.bufferSize := by
  cases m with
  | array a =>
    have := Bool.and_eq_true_iff.1 h
    simp only [decide_eq_true_eq] at this
    show offset - a.address + 3 < a.count * a.stride + 3
    omega
  | register r =>
    show 3 < max (Word.bytesFor r.width) 4
    omega

end Mount

-- ============================================================= routing

namespace Inventory

variable {inventory : Inventory} {offset : Nat} {m : Mount}

/-- All mounts, in the order in which an access tries them. -/
def mounts (inventory : Inventory) : List Mount :=
  inventory.arrays.map .array ++ inventory.registers.map .register

/-- Members and register addresses are told apart, and every mount can be
built. -/
structure Sound (inventory : Inventory) : Prop where
  members : (inventory.mounts.map Mount.memberName).Nodup
  addresses : (inventory.registers.map (·.address)).Nodup
  mounts : ∀ m ∈ inventory.mounts, m.Sound

/-- Every register and every array has a class that can be built. -/
structure Buildable (inventory : Inventory) : Prop where
  arrays : ∀ a ∈ inventory.arrays, a.Addressable
  registers : ∀ r ∈ inventory.registers, r.Proper

/-- What the classes of the registers and arrays are made of can be
computed. -/
structure Sized (inventory : Inventory) : Prop where
  arrays : ∀ a ∈ inventory.arrays, a.Sized
  registers : ∀ r ∈ inventory.registers, r.Proper

theorem Buildable.sized (h : inventory.Buildable) : inventory.Sized where
  arrays := fun a ha => (h.arrays a ha).sized
  registers := h.registers

theorem Sound.buildable (h : inventory.Sound) : inventory.Buildable where
  arrays := fun _ ha =>
    (h.mounts _ (List.mem_append_left _ (List.mem_map_of_mem ha))).array.addressable
  registers := fun _ hr => (h.mounts _ (List.mem_append_right _ (List.mem_map_of_mem hr))).1

/-- An access at an offset goes to the first array that covers it; where
there is none, it goes to the register at that address. -/
def Routes (inventory : Inventory) (offset : Nat) : Mount → Prop
  | .array a => (Mount.array a).covers offset = true ∧ ∃ before after,
    inventory.arrays = before ++ a :: after ∧ ∀ b ∈ before, (Mount.array b).covers offset = false
  | .register r => r ∈ inventory.registers ∧ r.address = offset
    ∧ ∀ a ∈ inventory.arrays, (Mount.array a).covers offset = false

theorem find?_arrays (offset : Nat) :
    (inventory.arrays.map Mount.array).find? (·.covers offset)
      = (inventory.arrays.find? fun a => (Mount.array a).covers offset).map Mount.array :=
  List.find?_map ..

theorem find?_registers (offset : Nat) :
    (inventory.registers.map Mount.register).find? (·.covers offset)
      = (inventory.registers.find? (offset == ·.address)).map Mount.register :=
  List.find?_map ..

/-- Where an access goes is where it is covered first. -/
theorem Sound.routes_iff (h : inventory.Sound) :
    inventory.Routes offset m ↔ inventory.mounts.find? (·.covers offset) = some m := by
  unfold Inventory.mounts
  rw [List.find?_append, find?_arrays, find?_registers]
  cases ha : inventory.arrays.find? fun a => (Mount.array a).covers offset with
  | some a =>
    rw [Option.map_some, Option.some_or]
    obtain ⟨hcovers, before, after, hsplit, hbefore⟩ := List.find?_eq_some_iff_append.1 ha
    have hmem : a ∈ inventory.arrays := hsplit ▸ List.mem_append_right _ (List.mem_cons_self ..)
    cases m with
    | register r =>
      refine ⟨fun ⟨_, _, hnone⟩ => ?_, nofun⟩
      rw [hnone a hmem] at hcovers
      cases hcovers
    | array b =>
      refine ⟨fun ⟨hb, before', after', hsplit', hbefore'⟩ => ?_, fun he => ?_⟩
      · have hfind : inventory.arrays.find? (fun a => (Mount.array a).covers offset) = some b :=
          List.find?_eq_some_iff_append.2 ⟨hb, before', after', hsplit',
            fun c hc => by rw [hbefore' c hc]; rfl⟩
        rw [Option.some.inj (ha.symm.trans hfind)]
      · obtain rfl := Mount.array.inj (Option.some.inj he)
        exact ⟨hcovers, before, after, hsplit, fun b hb => by simpa using hbefore b hb⟩
  | none =>
    have hnone : ∀ a ∈ inventory.arrays, (Mount.array a).covers offset = false := fun a hmem => by
      simpa using List.find?_eq_none.1 ha a hmem
    rw [Option.map_none, Option.none_or, Option.map_eq_some_iff]
    cases m with
    | array a =>
      refine ⟨fun ⟨hcovers, before, after, hsplit, _⟩ => ?_, fun ⟨_, _, he⟩ => nomatch he⟩
      rw [hnone a (hsplit ▸ List.mem_append_right _ (List.mem_cons_self ..))] at hcovers
      cases hcovers
    | register r =>
      constructor
      · rintro ⟨hmem, rfl, -⟩
        obtain ⟨r', hr'⟩ : ∃ r', inventory.registers.find? (r.address == ·.address) = some r' :=
          Option.isSome_iff_exists.1 (List.find?_isSome.2 ⟨r, hmem, beq_self_eq_true r.address⟩)
        -- there is one register at an address
        have haddress := List.find?_some (p := fun q : Register => r.address == q.address) hr'
        obtain rfl := List.inj_on_of_nodup_map h.addresses (List.mem_of_find?_eq_some hr') hmem
          (beq_iff_eq.1 haddress).symm
        exact ⟨r', hr', rfl⟩
      · rintro ⟨r', hr', he⟩
        obtain rfl := Mount.register.inj he
        have haddress := List.find?_some (p := fun q : Register => offset == q.address) hr'
        exact ⟨List.mem_of_find?_eq_some hr', (beq_iff_eq.1 haddress).symm, hnone⟩

theorem Sound.not_routes_iff (h : inventory.Sound) :
    (∀ m, ¬inventory.Routes offset m) ↔ inventory.mounts.find? (·.covers offset) = none := by
  rw [Option.eq_none_iff_forall_ne_some]
  exact forall_congr' fun m => not_congr h.routes_iff

theorem Routes.covers (h : inventory.Routes offset m) : m.covers offset = true := by
  cases m with
  | array a => exact h.1
  | register r => exact beq_iff_eq.2 h.2.1.symm

/-- Where the members are told apart, their classes are as well. -/
theorem types_nodup (h : (inventory.mounts.map Mount.memberName).Nodup) :
    (inventory.mounts.map Mount.typeName).Nodup := by
  have hmap : inventory.mounts.map Mount.typeName
      = (inventory.mounts.map Mount.memberName).map (· ++ "Type") := by
    rw [List.map_map]
    exact List.map_congr_left fun m _ => m.typeName_eq
  rw [hmap]
  exact h.map fun _ _ he => (String.append_left_inj _).1 he

theorem Sound.types (h : inventory.Sound) : (inventory.mounts.map Mount.typeName).Nodup :=
  types_nodup h.members

end Inventory

end RegisterMap
