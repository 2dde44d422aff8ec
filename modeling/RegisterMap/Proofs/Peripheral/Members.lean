/-
The members of a peripheral when it runs. Every mount has an object of its
own class and a buffer behind it (`Held`); the object answers an access
that the mount covers, and only the four bytes at which the access starts
can change (`MountCode.serves`). Accesses keep all members in place
(`Alive.set`).
-/
import RegisterMap.Proofs.Peripheral.Creating
import RegisterMap.Proofs.Peripheral.PeripheralCode

namespace RegisterMap

open Code Exec Peripheral

-- ============================================================= accesses

/-- An access over the bus, with an offset in the peripheral. -/
inductive BusAccess where
  | read (offset : Nat)
  | write (offset value : Nat)
  deriving DecidableEq, Repr

namespace BusAccess

def offset : BusAccess → Nat
  | .read offset => offset
  | .write offset _ => offset

/-- The offset is one of a `long`, and the value one of a `uint`. -/
def Valid : BusAccess → Prop
  | .read offset => offset < 2 ^ 63
  | .write offset value => offset < 2 ^ 63 ∧ value < 2 ^ 32

instance : (access : BusAccess) → Decidable access.Valid
  | .read _ => inferInstanceAs (Decidable (_ < _))
  | .write .. => inferInstanceAs (Decidable (_ ∧ _))

/-- What the peripheral is asked. -/
def request : BusAccess → Request
  | .read offset => .method "IDoubleWordPeripheral.ReadDoubleWord" [⟨.int .long offset, false⟩]
  | .write offset value => .method "IDoubleWordPeripheral.WriteDoubleWord"
    [⟨.int .long offset, false⟩, ⟨.int .uint value, false⟩]

/-- The result where nothing is mapped. -/
def unmapped : BusAccess → Value
  | .read _ => .int .uint 0
  | .write .. => .nothing

/-- The result is a double word for a read, and nothing for a write. -/
def Answers : BusAccess → Value → Prop
  | .read _, v => ∃ n : Nat, v = .int .uint n
  | .write .., v => v = .nothing

end BusAccess

namespace Mount

/-- Where in the mount an access with an offset goes, as far as the mount
is told. -/
def arguments (offset : Nat) : Mount → List Operand
  | .array a => [⟨.int .long (offset - a.address : Nat), false⟩]
  | .register _ => []

/-- What the object of a mount is asked. -/
def request (m : Mount) : BusAccess → Request
  | .read offset => .method m.readName (m.arguments offset)
  | .write offset value => .method m.writeName (m.arguments offset ++ [⟨.int .uint value, false⟩])

end Mount

/-- Only the double word from a byte on has changed. -/
structure Exec.Bytes.Confined (start : Nat) (bytes bytes' : Bytes) : Prop where
  size_eq : bytes'.size = bytes.size
  bit_eq : ∀ j, ¬(8 * start ≤ j ∧ j < 8 * start + 32) → bytes'.bit j = bytes.bit j

theorem Exec.Bytes.Confined.refl (start : Nat) (bytes : Bytes) : bytes.Confined start bytes :=
  ⟨rfl, fun _ _ => rfl⟩

namespace Peripheral

variable {p : Program} {service : Service} {object r root : Ref} {path : List String} {heap : Heap}
  {bytes : Bytes} {t : Tree} {inventory : Inventory} {m : Mount} {x y : Shape} {allPublic : Bool}
  {name : String} {access : BusAccess}

-- ============================================================== classes

theorem MountCode.name_eq (h : MountCode t inventory m x) : nameOf x = m.typeName := by
  cases m with
  | array a =>
    obtain ⟨memory, hcode⟩ := h
    exact hcode.name_eq
  | register r =>
    obtain ⟨memory, hcode⟩ := h
    exact hcode.name_eq

theorem MountCode.isOperator (h : MountCode t inventory m x) : x.kind.isOperator = false := by
  cases m with
  | array a =>
    obtain ⟨memory, hcode⟩ := h
    rw [hcode.kind_eq]
    rfl
  | register r =>
    obtain ⟨memory, hcode⟩ := h
    rw [hcode.kind_eq]
    rfl

section Serving

variable (h : MountCode t inventory m x) (hpath : p.resolve path = some (x.finished allPublic))
  (hnames : ∀ d, d < t.size → p.names d = t.name d)

include h hpath hnames

/-- The object of a mount answers an access that the mount covers. -/
theorem MountCode.serves (service : Service) (hk : Keeps heap object path r bytes)
    (hsize : bytes.size = m.bufferSize) (hvalid : access.Valid) (hcovers : m.covers access.offset = true) :
    ∃ v bytes', p.serve service object (m.request access) heap = .ok (v, heap.set r (.bytes bytes'))
      ∧ access.Answers v ∧ bytes.Confined (m.start access.offset) bytes' := by
  have hstart := Mount.start_lt hcovers
  rw [← hsize] at hstart
  cases m with
  | array a =>
    obtain ⟨memory, hcode⟩ := h
    cases access with
    | read offset =>
      refine ⟨_, bytes, ?_, ⟨bytes.word (offset - a.address), rfl⟩, .refl ..⟩
      rw [set_same hk.array]
      exact hcode.read_at hpath hnames hk hstart false
    | write offset value =>
      exact ⟨_, _, hcode.write_at hpath hnames hk hstart hvalid.2 false false, rfl,
        Bytes.size_setWord .., fun j hj => (Bytes.bit_setWord hstart value j).trans (if_neg hj)⟩
  | register r =>
    obtain ⟨memory, hcode⟩ := h
    have hword : 4 ≤ bytes.size := hsize ▸ Nat.le_max_right ..
    cases access with
    | read offset =>
      obtain ⟨masks, -, bytes', hserve, hsize', hbits⟩ := hcode.read_serves hpath hnames hk hword
      exact ⟨_, bytes', hserve, ⟨_, rfl⟩, hsize', fun j hj => (hbits j).trans (if_neg fun hlt =>
        hj ⟨Nat.zero_le _, Nat.lt_of_lt_of_le hlt (Nat.le_add_left ..)⟩)⟩
    | write offset value =>
      obtain ⟨masks, -, bytes', hserve, hsize', hbits⟩ :=
        hcode.write_serves hpath hnames hk hword hvalid.2 false
      exact ⟨_, bytes', hserve, rfl, hsize', fun j hj => (hbits j).trans (if_neg fun hlt =>
        hj ⟨Nat.zero_le _, Nat.lt_of_lt_of_le hlt (Nat.le_add_left ..)⟩)⟩

/-- An object is created for a mount. -/
theorem MountCode.create_run (depth : Nat) (heap : Heap) {outer : List String} (hm : m.Sound)
    (hlocate : p.locate m.typeName outer = path) :
    ∃ fresh : Bytes, fresh.size = m.bufferSize
      ∧ p.create (p.service (depth + 1)) outer m.typeName [] heap
        = .ok (.ref heap.length, heap ++ [ownerCell path (heap.length + 1), .bytes fresh]) := by
  cases m with
  | array a =>
    obtain ⟨memory, hcode⟩ := h
    exact hcode.create_run hm.array hlocate hpath hnames
  | register r =>
    obtain ⟨memory, hcode⟩ := h
    exact hcode.create_run hlocate hpath hnames hm.2.2

end Serving

-- ================================================================ names

/-- What the methods of every peripheral are called, but the constructor. -/
def methodNames : List String :=
  ["Init", "Reset", "IPeripheral.Reset", "IDoubleWordPeripheral.ReadDoubleWord",
    "IDoubleWordPeripheral.WriteDoubleWord"]

namespace PeripheralCode

variable (h : PeripheralCode t inventory name x)

include h

theorem fields_named : (part x .fields).map nameOf = inventory.mounts.map Mount.memberName :=
  map_nameOf_eq h.fields FieldDecl.name_eq

theorem classes_named : (part x .classes).map nameOf = inventory.mounts.map Mount.typeName :=
  map_nameOf_eq h.classes MountCode.name_eq

theorem fields_isOperator : ∀ y ∈ part x .fields, y.kind.isOperator = false :=
  forall_of_partner h.fields FieldDecl.isOperator

theorem classes_isOperator : ∀ y ∈ part x .classes, y.kind.isOperator = false :=
  forall_of_partner h.classes MountCode.isOperator

theorem constructing : ∃ construct rest, part x .methods = construct :: rest
    ∧ Constructing construct rest ∧ rest.map nameOf = methodNames := by
  obtain ⟨sites, construct, init, renew, reset, read, write, -, -, hall, hconstruct, hinit, hrenew,
    hreset, ⟨_, -, hread⟩, ⟨_, _, -, -, hwrite⟩⟩ := h.methods
  refine ⟨construct, _, hall, ⟨⟨_, hconstruct.kind_eq, rfl⟩, ?_⟩, ?_⟩
  · simp only [List.forall_mem_cons]
    exact ⟨⟨_, hinit.kind_eq, rfl⟩, ⟨_, hrenew.kind_eq, rfl⟩, ⟨_, hreset.kind_eq, rfl⟩,
      ⟨_, hread.kind_eq, rfl⟩, ⟨_, hwrite.kind_eq, rfl⟩, nofun⟩
  · simp only [List.map_cons, List.map_nil]
    rw [hinit.name_eq, hrenew.name_eq, hreset.name_eq, hread.name_eq, hwrite.name_eq]
    rfl

theorem methods_isOperator : ∀ y ∈ part x .methods, y.kind.isOperator = false := by
  obtain ⟨_, _, hall, hc, -⟩ := h.constructing
  exact hall ▸ hc.isOperator

theorem methods_named : ((part x .methods).filter (!isCtor ·)).map nameOf = methodNames := by
  obtain ⟨_, _, hall, hc, hnames⟩ := h.constructing
  rw [hall, hc.filter_eq, hnames]

-- ============================================================ resolving

theorem answers : Answers x := by
  refine ⟨h.isClass, h.methods_isOperator, ?_⟩
  rw [h.methods_named]
  decide

/-- The class is the outermost one of the program. -/
theorem resolve_name (hroot : p.root = x.finished allPublic) :
    p.resolve [name] = some (x.finished allPublic) := by
  rw [resolve_root (by rw [hroot, nameOf_finished, h.name_eq]), hroot]

/-- The class of a mount is found from the methods of the peripheral. -/
theorem resolve_member (hs : inventory.Sound) (hroot : p.root = x.finished allPublic)
    (hm : m ∈ inventory.mounts) :
    ∃ y, MountCode t inventory m y ∧ p.resolve [m.typeName, name] = some (y.finished allPublic)
      ∧ p.locate m.typeName [name] = [m.typeName, name] := by
  have hpath := h.resolve_name hroot
  have hclasses := h.classes
  obtain ⟨i, hi, rfl⟩ := List.mem_iff_getElem.1 hm
  have hi' : i < (part x .classes).length := hclasses.length_eq ▸ hi
  have hcode : MountCode t inventory inventory.mounts[i] (part x .classes)[i] :=
    hclasses.get hi hi'
  have hresolve := resolve_inner h.answers hpath (List.cons_ne_nil _ _) h.classes_isOperator
    (h.classes_named ▸ hs.types) (List.getElem_mem hi')
  rw [hcode.name_eq] at hresolve
  exact ⟨_, hcode, hresolve, locate_inner hpath (List.cons_ne_nil _ _) hresolve⟩

end PeripheralCode

end Peripheral

-- ============================================================== members

namespace Inventory

/-- The object of a mount, counted from the one of the peripheral. -/
def objectOf (inventory : Inventory) (root : Ref) (m : Mount) : Ref :=
  root + 1 + 2 * inventory.mounts.idxOf m

/-- The buffer of a mount, behind its object. -/
def bufferOf (inventory : Inventory) (root : Ref) (m : Mount) : Ref :=
  inventory.objectOf root m + 1

variable {inventory : Inventory} {root : Ref} {m m' : Mount}

theorem lt_objectOf : root < inventory.objectOf root m :=
  Nat.lt_of_lt_of_le (Nat.lt_succ_self root) (Nat.le_add_right ..)

theorem lt_bufferOf : root < inventory.bufferOf root m := Nat.lt_succ_of_lt lt_objectOf

theorem bufferOf_ne (hm : m ∈ inventory.mounts) (h : m ≠ m') :
    inventory.bufferOf root m ≠ inventory.bufferOf root m' := by
  intro he
  have hdouble : 2 * inventory.mounts.idxOf m = 2 * inventory.mounts.idxOf m' :=
    Nat.add_left_cancel (Nat.succ.inj he)
  exact h ((List.idxOf_inj hm).1 (Nat.eq_of_mul_eq_mul_left (by decide) hdouble))

end Inventory

namespace Peripheral

variable {heap : Heap} {root : Ref} {inventory : Inventory} {m : Mount} {name : String}
  {bytes bytes' : Bytes}

/-- The member of a mount is in place. -/
structure Held (inventory : Inventory) (name : String) (heap : Heap) (root : Ref) (m : Mount) :
    Prop where
  field : ((heap.fields root).get? m.memberName).map (·.value)
    = some (.ref (inventory.objectOf root m))
  object : heap[inventory.objectOf root m]?
    = some (ownerCell [m.typeName, name] (inventory.bufferOf root m))
  buffer : ∃ bytes, heap[inventory.bufferOf root m]? = some (.bytes bytes)
    ∧ bytes.size = m.bufferSize

/-- A peripheral with all its members. -/
structure Alive (inventory : Inventory) (name : String) (heap : Heap) (root : Ref) : Prop where
  isObject : ∃ fields, heap[root]? = some (.object [name] fields)
  held : ∀ m ∈ inventory.mounts, Held inventory name heap root m

theorem Held.keeps (h : Held inventory name heap root m)
    (hb : heap[inventory.bufferOf root m]? = some (.bytes bytes)) :
    Keeps heap (inventory.objectOf root m) [m.typeName, name] (inventory.bufferOf root m) bytes where
  isObject := ⟨_, h.object⟩
  memory := by
    unfold Heap.fields
    rw [h.object]
    rfl
  array := hb

/-- An object stays as it is where an array changes. -/
theorem getElem?_set_object {r object : Ref} {path : List String} {fields : Variables}
    (hb : heap[r]? = some (.bytes bytes)) (ho : heap[object]? = some (.object path fields)) :
    (heap.set r (.bytes bytes'))[object]? = some (.object path fields) := by
  have hne : r ≠ object := fun he => by
    rw [he, ho] at hb
    cases hb
  rw [List.getElem?_set_ne hne, ho]

/-- A buffer changes its content, but not its size. -/
theorem Alive.set {r : Ref} (h : Alive inventory name heap root)
    (hb : heap[r]? = some (.bytes bytes)) (hsize : bytes'.size = bytes.size) :
    Alive inventory name (heap.set r (.bytes bytes')) root := by
  obtain ⟨fields, hobj⟩ := h.isObject
  refine ⟨⟨fields, getElem?_set_object hb hobj⟩, fun m hm => ?_⟩
  obtain ⟨hfield, hobject, own, hown, hsize'⟩ := h.held m hm
  refine ⟨?_, getElem?_set_object hb hobject, ?_⟩
  · rw [fields_set_bytes hb]
    exact hfield
  · by_cases he : r = inventory.bufferOf root m
    · subst he
      obtain rfl := Cell.bytes.inj (Option.some.inj (hb.symm.trans hown))
      exact ⟨bytes', getElem?_set_bytes hb bytes', hsize.trans hsize'⟩
    · exact ⟨own, by rw [List.getElem?_set_ne he, hown], hsize'⟩

end Peripheral

end RegisterMap
