/-
The state of a buffer after a reset. Creating an object resets it, so the
same is said of a new object and of one that is reset, whatever its buffer
holds before.

A holder stores every byte of the reset value of its register. The bits
are then those that the fields reset to one, as far as a mask reaches, and
each field reads as its own part of them (`registerClass_starts`). Bits
from 128 on are in no mask, so what a field declares for them is lost
(`wideRegister_starts_at_zero`).

A container clears its buffer and stores the bytes that are not zero. The
value of a byte is a function of its place in its element, so it does not
matter how the stores follow each other (`containerClass_starts`).
-/
import RegisterMap.Proofs.Peripheral.ArrayAccess
import RegisterMap.Proofs.Register.Pairing

namespace RegisterMap.Peripheral

open Code Exec

variable {p : Program} {service : Service} {object m : Ref} {heap : Heap} {bytes : Bytes} {t : Tree}
  {r : Register} {reset : Nat} {memory : NodeId} {x : Shape} {allPublic : Bool}

-- =============================================================== holders

/-- The bits of a value whose bytes are stored. -/
theorem bit_stored_bytesOf (b : Bytes) (value j : Nat) :
    (b.stored (bytesOf value b.size)).bit j = (decide (j < 8 * b.size) && value.testBit j) := by
  have hplaces : ∀ q ∈ bytesOf value b.size, q.1 < b.size ∧ q.2 = Word.byteAt value q.1 := by
    intro q hq
    obtain ⟨i, hi, rfl⟩ := List.mem_map.1 hq
    exact ⟨List.mem_range.1 hi, rfl⟩
  have hmem : j / 8 ∈ (bytesOf value b.size).map Prod.fst ↔ j < 8 * b.size := by
    simp only [bytesOf, List.map_map, List.mem_map, List.mem_range, Function.comp_apply,
      exists_eq_right]
    omega
  unfold Bytes.bit
  rw [Bytes.get_stored (Word.byteAt value) b hplaces]
  by_cases hj : j < 8 * b.size
  · rw [if_pos (hmem.2 hj), decide_eq_true hj, Bool.true_and, BitVec.getLsbD_ofNat,
      decide_eq_true (Nat.mod_lt j (by decide)), Bool.true_and,
      testBit_byteAt value _ (Nat.mod_lt j (by decide)), Nat.div_add_mod]
  · have houtside : b.get (j / 8) = 0 := List.getD_eq_default _ _ (by unfold Bytes.size at hj; omega)
    rw [if_neg fun h => hj (hmem.1 h), decide_eq_false hj, Bool.false_and, houtside]
    exact BitVec.getLsbD_zero

/-- The buffer of an object of a register is as a reset leaves it. -/
structure AtReset (p : Program) (r : Register) (holder : Shape) (object : Ref) (heap : Heap)
    (bytes : Bytes) : Prop where
  size : bytes.size = r.bufferSize
  /-- The property of a field reads as the reset value that is declared for
  the field, restricted to its bits and to those that a mask has. -/
  fields : ∀ f y, (f, y) ∈ r.fields.zip (part holder .properties) → ∀ service,
    ∃ type v, Holds (Layout.of f) type
      ∧ runGet (p.context service object [r.typeName]) y heap = .ok (v, heap) ∧ v.isOf type = true
      ∧ v.number = f.reset % 2 ^ min (f.high - f.low + 1) (maskBits - f.low)
  /-- A bit outside all fields is zero. -/
  others : ∀ j, (∀ f ∈ r.fields, f.covers j = false) → bytes.bit j = false

/-- Fields that share no bit reset their own bits only. -/
theorem any_resets (hapart : Register.Apart r.fields) {f : Field} (hf : f ∈ r.fields) {j : Nat}
    (hj : f.covers j = true) : r.fields.any (·.resets j) = f.reset.testBit (j - f.low) := by
  have : Std.Symm fun f g : Field => f.overlaps g = false :=
    ⟨fun f g h => (Field.overlaps_comm g f).trans h⟩
  have hothers : ∀ g ∈ r.fields, g.resets j = true → g = f := by
    intro g hg hresets
    by_contra hne
    have hclear := hapart.forall hg hf hne
    rw [Field.overlaps_of_covers (Bool.and_eq_true_iff.1 hresets).1 hj] at hclear
    cases hclear
  have hself : f.resets j = f.reset.testBit (j - f.low) := by
    unfold Field.resets
    rw [hj, Bool.true_and]
  rw [← hself]
  cases hbit : f.resets j with
  | true => exact List.any_eq_true.2 ⟨f, hf, hbit⟩
  | false =>
    refine List.any_eq_false.2 fun g hg hresets => ?_
    rw [hothers g hg hresets, hbit] at hresets
    cases hresets

/-- The bits of a buffer in which the reset value is stored. -/
theorem bit_stored_reset (h : r.Measured) (hreset : r.resetValue = .ok reset) (b : Bytes) (j : Nat) :
    (b.stored (bytesOf reset b.size)).bit j
      = (decide (j < 8 * b.size ∧ j < maskBits) && r.fields.any (·.resets j)) := by
  obtain ⟨value, hvalue, hbits⟩ := h.resetValue_run
  obtain rfl := Except.ok.inj (hvalue.symm.trans hreset)
  rw [bit_stored_bytesOf, hbits, ← Bool.and_assoc, Bool.decide_and]

/-- Among the bits that the fields reset to one, those of a field in the
buffer are those of its own reset value, as far as a mask reaches. -/
theorem fieldBits_reset (hapart : Register.Apart r.fields) {f : Field} (hf : f ∈ r.fields)
    (hordered : f.low ≤ f.high) (hinside : f.high < r.width) {size : Nat}
    (hsize : r.bufferSize ≤ size) (j : Nat) :
    (decide (j < f.high - f.low + 1)
        && (decide (f.low + j < 8 * size ∧ f.low + j < maskBits)
          && r.fields.any (·.resets (f.low + j))))
      = (f.reset % 2 ^ min (f.high - f.low + 1) (maskBits - f.low)).testBit j := by
  have hbuffer : r.width ≤ 8 * size := by
    have hle : Word.bytesFor r.width ≤ r.bufferSize := Nat.le_max_left ..
    unfold Word.bytesFor at hle
    omega
  rw [Nat.testBit_mod_two_pow]
  by_cases hj : j < f.high - f.low + 1
  · have hcovers : f.covers (f.low + j) = true := by
      unfold Field.covers
      rw [decide_eq_true (Nat.le_add_right ..), decide_eq_true (by omega)]
      rfl
    rw [any_resets hapart hf hcovers, Nat.add_sub_cancel_left, decide_eq_true hj, Bool.true_and]
    congr 1
    exact decide_eq_decide.2 (by omega)
  · have hout : ¬j < min (f.high - f.low + 1) (maskBits - f.low) := by omega
    rw [decide_eq_false hj, decide_eq_false hout, Bool.false_and, Bool.false_and]

namespace HolderCode

variable (h : HolderCode t r reset memory x)

include h

/-- The properties of the finished class, with the code of each. -/
theorem properties_finished :
    part (x.finished allPublic) .properties = (part x .properties).map (Term.finished allPublic) :=
  h.answers.part_eq fun y hy => by
    obtain ⟨i, hi, rfl⟩ := List.mem_iff_getElem.1 hy
    obtain ⟨type, hfield⟩ := h.properties.get (i := i) (h.properties.length_eq ▸ hi) hi
    exact hfield.kind_eq ▸ rfl

theorem properties_named :
    (part (x.finished allPublic) .properties).map nameOf = r.fields.map Field.propertyName := by
  rw [h.properties_finished, List.map_map]
  refine List.ext_getElem (by simpa using h.properties.length_eq.symm) fun i hi hi' => ?_
  simp only [List.length_map] at hi hi'
  obtain ⟨type, hfield⟩ := h.properties.get (i := i) hi' hi
  rw [List.getElem_map, List.getElem_map, Function.comp_apply, nameOf_finished]
  exact hfield.name_eq

/-- The property of a field reads the bits of the field. -/
theorem field_reads (proper : r.Proper) {path : List String}
    (hnames : ∀ d, d < t.size → p.names d = t.name d) (hk : Keeps heap object path m bytes)
    (hsize : bytes.size = r.bufferSize) (service : Service) {f : Field} {y : Shape}
    (hfy : (f, y) ∈ r.fields.zip (part (x.finished allPublic) .properties))
    (hinside : f.high < r.width) :
    ∃ type v, Holds (Layout.of f) type
      ∧ runGet (p.context service object path) y heap = .ok (v, heap) ∧ v.isOf type = true
      ∧ ∀ j, v.number.testBit j
        = (decide (j < f.high - f.low + 1) && bytes.bit (f.low + j)) := by
  rw [h.properties_finished, List.zip_map_right] at hfy
  obtain ⟨⟨f', z⟩, hz, he⟩ := List.mem_map.1 hfy
  obtain ⟨rfl, rfl⟩ := Prod.mk.inj he
  obtain ⟨type, hcode⟩ := (List.forall₂_iff_zip.1 h.properties).2 hz
  have hname : p.names memory = "memory" :=
    (hnames memory h.declares.lt_size).trans h.declares.name_eq
  have hwindow : Window (p.context service object path) { heap } { memory } m bytes 0 :=
    hk.window rfl hname rfl
  have hreach : Reach (p.context service object path) f' m bytes 0 := fun i _ hi => by
    have hbuffer : Word.bytesFor r.width ≤ r.bufferSize := Nat.le_max_left ..
    have hwidth : f'.high < r.width := hinside
    unfold Word.bytesFor at hbuffer
    exact ⟨by omega, rfl⟩
  have hapart : Buffer.Apart (p.context service object path).names { memory } := by
    refine ⟨?_, nofun⟩
    show p.names memory ≠ _ ∧ p.names memory ≠ _
    rw [hname]
    decide
  obtain ⟨v, hget, hv, hbits⟩ :=
    (hcode.bitAccess (proper f' (List.of_mem_zip hz).1) hwindow hreach hnames hapart).get
  rw [Nat.mul_zero, Nat.zero_add] at hbits
  exact ⟨type, v, hcode.holds, hget, hv, hbits⟩

/-- A buffer that holds the reset value is as a reset leaves it. -/
theorem atReset (proper : r.Proper) (hapart : Register.Apart r.fields)
    (hinside : ∀ f ∈ r.fields, f.high < r.width) (hreset : r.resetValue = .ok reset)
    (hnames : ∀ d, d < t.size → p.names d = t.name d)
    (hk : Keeps heap object [r.typeName] m (bytes.stored (bytesOf reset r.bufferSize)))
    (hsize : bytes.size = r.bufferSize) :
    AtReset p r (x.finished allPublic) object heap
      (bytes.stored (bytesOf reset r.bufferSize)) := by
  rw [← hsize] at hk ⊢
  have hbits := bit_stored_reset proper.measured hreset bytes
  refine ⟨by rw [Bytes.size_stored, hsize], fun f y hfy service => ?_, fun j hj => ?_⟩
  · have hf := (List.of_mem_zip hfy).1
    obtain ⟨type, v, hholds, hget, hv, hnumber⟩ := h.field_reads proper hnames hk
      (by rw [Bytes.size_stored, hsize]) service hfy (hinside f hf)
    refine ⟨type, v, hholds, hget, hv, Nat.eq_of_testBit_eq fun j => ?_⟩
    rw [hnumber, hbits, fieldBits_reset hapart hf (proper f hf).ordered (hinside f hf) hsize.ge]
  · have hnone : r.fields.any (·.resets j) = false := List.any_eq_false.2 fun f hf hresets => by
      have hcovers := (Bool.and_eq_true_iff.1 hresets).1
      rw [hj f hf] at hcovers
      cases hcovers
    rw [hbits, hnone, Bool.and_false]

end HolderCode

/-- The buffer of a register whose width is a word fits an array. -/
theorem bufferSize_lt (h : r.width < 2 ^ 32) : r.bufferSize < 2 ^ 31 := by
  unfold Register.bufferSize Word.bytesFor
  omega

/-- An object of the class of a register starts with its fields as they are
declared to reset, as far as a mask reaches, and is so again after a reset,
whatever its buffer holds. -/
theorem registerClass_starts (r : Register) (allPublic : Bool) (d : Draft)
    (linked : d.tree.Mutual) (proper : r.Proper) (disjoint : Register.Apart r.fields)
    (inside : ∀ f ∈ r.fields, f.high < r.width) (word : r.width < 2 ^ 32) :
    ∃ reset holder d' holderClass, r.resetValue = .ok reset
      ∧ finishedHolder r reset allPublic d = (.ok holder, d')
      ∧ (programOf d'.tree holder).resolve [r.typeName] = some holderClass
      ∧ (part holderClass .properties).map nameOf = r.fields.map Field.propertyName
      ∧ (∀ (depth : Nat) (heap : Heap), ∃ bytes : Bytes,
        (programOf d'.tree holder).create ((programOf d'.tree holder).service (depth + 1)) []
            r.typeName [] heap
          = .ok (.ref heap.length,
            heap ++ [ownerCell [r.typeName] (heap.length + 1), .bytes bytes])
        ∧ AtReset (programOf d'.tree holder) r holderClass heap.length
          (heap ++ [ownerCell [r.typeName] (heap.length + 1), .bytes bytes]) bytes)
      ∧ ∀ (service : Service) (object m : Ref) (heap : Heap) (bytes : Bytes),
        Keeps heap object [r.typeName] m bytes → bytes.size = r.bufferSize →
        ∃ bytes', (programOf d'.tree holder).serve service object (.method "Reset" []) heap
            = .ok (.nothing, heap.set m (.bytes bytes'))
          ∧ AtReset (programOf d'.tree holder) r holderClass object (heap.set m (.bytes bytes'))
            bytes' := by
  obtain ⟨reset, hreset, -⟩ := proper.measured.resetValue_run
  obtain ⟨holder, d', t, memory, x, hfinished, hcode, hpath, hnames⟩ :=
    finishedHolder_run linked proper reset allPublic
  refine ⟨reset, holder, d', x.finished allPublic, hreset, hfinished, hpath,
    hcode.properties_named, fun depth heap => ?_, fun service object m heap bytes hkeeps hsize => ?_⟩
  · have hlocate : (programOf d'.tree holder).locate r.typeName [] = [r.typeName] := rfl
    exact ⟨_, hcode.create_eq hlocate hpath hnames (bufferSize_lt word),
      hcode.atReset proper disjoint inside hreset hnames (keeps_new ..) (Bytes.size_zero ..)⟩
  · exact ⟨_, hcode.reset_serves hpath hnames hkeeps hsize,
      hcode.atReset proper disjoint inside hreset hnames (hkeeps.set _) hsize⟩

/-- A register with a field below the end of a mask and one across it. -/
def keyRegister : Register where
  name := "key"
  width := 136
  fields := [{ name := "mode", low := 4, high := 7, reset := 9 },
    { name := "tag", low := 124, high := 135, reset := 0xabc }]

/-- Of the second field four bits start as they are declared. -/
theorem registerClass_starts_keyRegister :
    ∃ reset holder d', finishedHolder keyRegister reset true {} = (.ok holder, d')
      ∧ ∃ bytes mode tag v w, (programOf d'.tree holder).create
          ((programOf d'.tree holder).service 1) [] "KeyType" [] []
        = .ok (.ref 0, [ownerCell ["KeyType"] 1, .bytes bytes])
      ∧ runGet ((programOf d'.tree holder).context ((programOf d'.tree holder).service 0) 0
          ["KeyType"]) mode [ownerCell ["KeyType"] 1, .bytes bytes]
        = .ok (v, [ownerCell ["KeyType"] 1, .bytes bytes]) ∧ v.number = 9
      ∧ runGet ((programOf d'.tree holder).context ((programOf d'.tree holder).service 0) 0
          ["KeyType"]) tag [ownerCell ["KeyType"] 1, .bytes bytes]
        = .ok (w, [ownerCell ["KeyType"] 1, .bytes bytes]) ∧ w.number = 0xc
      ∧ bytes.bit 3 = false := by
  obtain ⟨reset, holder, d', holderClass, -, hfinished, -, hnames, hcreate, -⟩ :=
    registerClass_starts keyRegister true {} Tree.mutual_empty
      (by unfold Register.Proper; decide) (by decide) (by decide) (by decide)
  obtain ⟨bytes, hrun, hstart⟩ := hcreate 0 []
  obtain ⟨mode, tag, hparts⟩ := List.length_eq_two.1
    (show (part holderClass .properties).length = 2 by
      simpa [keyRegister] using congrArg List.length hnames)
  obtain ⟨-, v, -, hv, -, hmode⟩ := hstart.fields _ mode
    (by rw [hparts]; exact List.mem_cons_self ..) ((programOf d'.tree holder).service 0)
  obtain ⟨-, w, -, hw, -, htag⟩ := hstart.fields _ tag
    (by rw [hparts]; exact List.mem_cons_of_mem _ (List.mem_cons_self ..))
    ((programOf d'.tree holder).service 0)
  exact ⟨reset, holder, d', hfinished, bytes, mode, tag, v, w, hrun, hv, hmode, hw, htag,
    hstart.others 3 (by decide)⟩

/-- A register with a field behind the end of a mask. -/
def wideRegister : Register where
  name := "wide"
  width := 136
  fields := [{ name := "f", low := 128, high := 135, reset := 5 }]

/-- The field does not start as it is declared. -/
theorem wideRegister_starts_at_zero :
    (wideRegister.Proper ∧ Register.Apart wideRegister.fields
        ∧ (∀ f ∈ wideRegister.fields, f.high < wideRegister.width) ∧ wideRegister.width < 2 ^ 32)
      ∧ ∃ reset holder d' holderClass bytes, wideRegister.resetValue = .ok reset
        ∧ finishedHolder wideRegister reset true {} = (.ok holder, d')
        ∧ (programOf d'.tree holder).resolve [wideRegister.typeName] = some holderClass
        ∧ (programOf d'.tree holder).create ((programOf d'.tree holder).service 1) []
            wideRegister.typeName [] []
          = .ok (.ref 0, [ownerCell [wideRegister.typeName] 1, .bytes bytes])
        ∧ ∃ f y v, (f, y) ∈ wideRegister.fields.zip (part holderClass .properties)
          ∧ runGet ((programOf d'.tree holder).context ((programOf d'.tree holder).service 0) 0
              [wideRegister.typeName]) y [ownerCell [wideRegister.typeName] 1, .bytes bytes]
            = .ok (v, [ownerCell [wideRegister.typeName] 1, .bytes bytes])
          ∧ v.number = 0 ∧ f.reset % 2 ^ (f.high - f.low + 1) = 5 := by
  have proper : wideRegister.Proper := by
    unfold Register.Proper
    decide
  have disjoint : Register.Apart wideRegister.fields := by decide
  have inside : ∀ f ∈ wideRegister.fields, f.high < wideRegister.width := by decide
  have word : wideRegister.width < 2 ^ 32 := by decide
  obtain ⟨reset, hreset, -⟩ := proper.measured.resetValue_run
  obtain ⟨holder, d', t, memory, x, hfinished, hcode, hpath, hnames⟩ :=
    finishedHolder_run (d := {}) Tree.mutual_empty proper reset true
  have hlocate : (programOf d'.tree holder).locate wideRegister.typeName []
      = [wideRegister.typeName] := rfl
  have hsize : wideRegister.bufferSize < 2 ^ 31 := by decide
  have hcreate : (programOf d'.tree holder).create ((programOf d'.tree holder).service 1) [] _ [] []
      = _ := hcode.create_eq hlocate hpath hnames hsize
  have hstart : AtReset (programOf d'.tree holder) wideRegister (x.finished true) _ _ _ :=
    hcode.atReset proper disjoint inside hreset hnames
      (keeps_new [] [wideRegister.typeName] _) (Bytes.size_zero _ hsize)
  obtain ⟨y, hy⟩ := List.length_eq_one_iff.1
    (show (part (x.finished true) .properties).length = 1 by
      rw [hcode.properties_finished, List.length_map, ← hcode.properties.length_eq]
      rfl)
  have hmem : ({ name := "f", low := 128, high := 135, reset := 5 }, y)
      ∈ wideRegister.fields.zip (part (x.finished true) .properties) := by
    rw [hy]
    exact List.mem_cons_self ..
  obtain ⟨-, v, -, hget, -, hnumber⟩ :=
    hstart.fields _ y hmem ((programOf d'.tree holder).service 0)
  exact ⟨⟨proper, disjoint, inside, word⟩, reset, holder, d', _, _, hreset, hfinished, hpath, hcreate,
    _, y, v, hmem, hget, hnumber, by decide⟩

-- ============================================================ containers

variable {a : RegisterArray}

/-- The buffer of an array is as a reset leaves it: every element has the
bytes of the reset value of the template, all other bytes are zero. -/
structure ElementsAtReset (a : RegisterArray) (reset : Nat) (bytes : Bytes) : Prop where
  size : bytes.size = a.count * a.stride + 3
  element : ∀ k < a.count, ∀ i < Word.bytesFor a.register.width,
    bytes.get (k * a.stride + i) = BitVec.ofNat 8 (Word.byteAt reset i)
  others : ∀ n, (∀ k < a.count, ∀ i < Word.bytesFor a.register.width, n ≠ k * a.stride + i) →
    bytes.get n = 0

/-- The bytes that are stored are those of the reset value that are not
zero, in every element. -/
theorem mem_resetBytes (ha : a.Addressable) (hreset : a.register.resetValue = .ok reset)
    {l : List (Nat × Nat)} (hl : a.resetBytes = .ok l) (q : Nat × Nat) :
    q ∈ l ↔ ∃ k < a.count, ∃ i < min (Word.bytesFor a.register.width) (maskBits / 8),
      Word.byteAt reset i ≠ 0 ∧ q = (k * a.stride + i, Word.byteAt reset i) := by
  obtain ⟨template, htemplate, hbytes⟩ := ha.resetBytes_eq
  obtain rfl := Except.ok.inj (hbytes.symm.trans hl)
  unfold RegisterArray.template at htemplate
  rw [hreset] at htemplate
  obtain rfl := Except.ok.inj htemplate
  simp only [RegisterArray.copies, List.mem_flatMap, List.mem_range'_1, List.mem_map,
    List.mem_filter, List.mem_range, bne_iff_ne]
  constructor
  · rintro ⟨k, ⟨-, hk⟩, -, ⟨⟨i, hi, rfl⟩, hne⟩, rfl⟩
    exact ⟨k, by omega, i, hi, hne, rfl⟩
  · rintro ⟨k, hk, i, hi, hne, rfl⟩
    exact ⟨k, ⟨Nat.zero_le k, by omega⟩, _, ⟨⟨i, hi, rfl⟩, hne⟩, rfl⟩

/-- A place in an element tells the byte of the template. -/
theorem place_mod_stride (fits : Word.bytesFor a.register.width ≤ a.stride) (k : Nat) {i : Nat}
    (hi : i < Word.bytesFor a.register.width) : (k * a.stride + i) % a.stride = i := by
  rw [Nat.mul_comm, Nat.mul_add_mod, Nat.mod_eq_of_lt (Nat.lt_of_lt_of_le hi fits)]

/-- A byte of a buffer that is cleared before the bytes are stored, by its
place in its element. -/
theorem get_stored_resetBytes (ha : a.Sound) (fits : Word.bytesFor a.register.width ≤ a.stride)
    (hreset : a.register.resetValue = .ok reset) {l : List (Nat × Nat)}
    (hl : a.resetBytes = .ok l) (hsize : bytes.size = a.count * a.stride + 3) (n : Nat) :
    (bytes.cleared.stored l).get n
      = if n ∈ l.map Prod.fst then BitVec.ofNat 8 (Word.byteAt reset (n % a.stride)) else 0 := by
  have hstored : ∀ q ∈ l, q.1 < bytes.cleared.size
      ∧ q.2 = Word.byteAt reset (q.1 % a.stride) := by
    intro q hq
    obtain ⟨l', hl', hin⟩ := ha.resetBytes_run
    obtain rfl := Except.ok.inj (hl.symm.trans hl')
    have hlt := (hin q hq).1
    obtain ⟨k, -, i, hi, -, rfl⟩ := (mem_resetBytes ha.addressable hreset hl q).1 hq
    refine ⟨by rw [Bytes.size_cleared]; omega, ?_⟩
    rw [place_mod_stride fits k (Nat.lt_of_lt_of_le hi (Nat.min_le_left ..))]
  rw [Bytes.get_stored (fun n => Word.byteAt reset (n % a.stride)) bytes.cleared hstored,
    Bytes.get_cleared]

/-- A buffer that is cleared before the bytes are stored is as a reset
leaves it. -/
theorem elementsAtReset (ha : a.Sound) (narrow : a.register.width ≤ maskBits)
    (fits : Word.bytesFor a.register.width ≤ a.stride) (hreset : a.register.resetValue = .ok reset)
    {l : List (Nat × Nat)} (hl : a.resetBytes = .ok l)
    (hsize : bytes.size = a.count * a.stride + 3) :
    ElementsAtReset a reset (bytes.cleared.stored l) := by
  have hmem := mem_resetBytes ha.addressable hreset hl
  have hget := get_stored_resetBytes ha fits hreset hl hsize
  have hwhole : min (Word.bytesFor a.register.width) (maskBits / 8)
      = Word.bytesFor a.register.width := by
    refine Nat.min_eq_left ?_
    unfold Word.bytesFor maskBits at *
    omega
  rw [hwhole] at hmem
  refine ⟨by rw [Bytes.size_stored, Bytes.size_cleared, hsize], fun k hk i hi => ?_,
    fun n hn => ?_⟩
  · rw [hget, place_mod_stride fits k hi]
    by_cases hzero : Word.byteAt reset i = 0
    · rw [hzero]
      exact ite_self _
    · have hhere : k * a.stride + i ∈ l.map Prod.fst :=
        List.mem_map.2 ⟨_, (hmem _).2 ⟨k, hk, i, hi, hzero, rfl⟩, rfl⟩
      rw [if_pos hhere]
  · have hnone : n ∉ l.map Prod.fst := fun h => by
      obtain ⟨q, hq, rfl⟩ := List.mem_map.1 h
      obtain ⟨k, hk, i, hi, -, rfl⟩ := (hmem q).1 hq
      exact hn k hk i hi rfl
    rw [hget, if_neg hnone]

/-- An object of the class of a register array starts with the reset value
of the template in every element and zero everywhere else, and is so again
after a reset, whatever its buffer holds. -/
theorem containerClass_starts (a : RegisterArray) (allPublic : Bool) (d : Draft)
    (linked : d.tree.Mutual) (proper : a.register.Proper) (narrow : a.register.width ≤ 128)
    (fits : Word.bytesFor a.register.width ≤ a.stride) (small : a.count * a.stride + 3 < 2 ^ 31) :
    ∃ reset l container d', a.register.resetValue = .ok reset
      ∧ a.resetBytes = .ok l ∧ (∀ q ∈ l, q.1 < a.count * a.stride)
      ∧ finishedContainer a allPublic d = (.ok container, d')
      ∧ (∀ (depth : Nat) (heap : Heap), ∃ bytes : Bytes,
        (programOf d'.tree container).create ((programOf d'.tree container).service (depth + 1)) []
            a.typeName [] heap
          = .ok (.ref heap.length,
            heap ++ [ownerCell [a.typeName] (heap.length + 1), .bytes bytes])
        ∧ ElementsAtReset a reset bytes)
      ∧ ∀ (service : Service) (object m : Ref) (heap : Heap) (bytes : Bytes),
        Keeps heap object [a.typeName] m bytes → bytes.size = a.count * a.stride + 3 →
        ∃ bytes', (programOf d'.tree container).serve service object (.method "Reset" []) heap
            = .ok (.nothing, heap.set m (.bytes bytes'))
          ∧ ElementsAtReset a reset bytes' := by
  have sound : a.Sound := ⟨proper, small, Or.inr fits⟩
  obtain ⟨reset, hreset, -⟩ := proper.measured.resetValue_run
  obtain ⟨l, hl, hin⟩ := sound.resetBytes_run
  obtain ⟨container, d', t, memory, x, hfinished, hcode, hroot, hnames⟩ :=
    finishedContainer_run linked sound allPublic
  have hpath : (programOf d'.tree container).resolve [a.typeName] = some (x.finished allPublic) := by
    rw [resolve_root (by rw [hroot, nameOf_finished, hcode.name_eq]), hroot]
  refine ⟨reset, l, container, d', hreset, hl, fun q hq => (hin q hq).1, hfinished,
    fun depth heap => ?_, fun service object m heap bytes hkeeps hsize => ?_⟩
  · have hlocate : (programOf d'.tree container).locate a.typeName [] = [a.typeName] := rfl
    obtain ⟨l', hl', hcreate⟩ := hcode.create_eq sound hlocate hpath hnames
    exact ⟨_, hcreate, elementsAtReset sound narrow fits hreset hl' (Bytes.size_zero ..)⟩
  · obtain ⟨l', hl', hserve⟩ := hcode.reset_serves service sound hpath hnames hkeeps hsize
    exact ⟨_, hserve, elementsAtReset sound narrow fits hreset hl' hsize⟩

/-- Two elements of two bytes, three bytes apart; the low byte of the
template is zero. -/
def tagTable : RegisterArray where
  name := "table"
  register :=
    { name := "entry", width := 16, fields := [{ name := "tag", low := 8, high := 15, reset := 7 }] }
  count := 2
  stride := 3

theorem containerClass_starts_twoElements :
    ∃ container d', finishedContainer tagTable true {} = (.ok container, d')
      ∧ ∃ bytes, (programOf d'.tree container).create ((programOf d'.tree container).service 1) []
          "TableType" [] []
        = .ok (.ref 0, [ownerCell ["TableType"] 1, .bytes bytes])
      ∧ bytes.size = 9 ∧ bytes.get 0 = 0 ∧ bytes.get 1 = 7 ∧ bytes.get 2 = 0 ∧ bytes.get 4 = 7
      ∧ bytes.get 8 = 0 := by
  obtain ⟨reset, l, container, d', hreset, -, -, hfinished, hcreate, -⟩ :=
    containerClass_starts tagTable true {} Tree.mutual_empty (by unfold Register.Proper; decide)
      (by decide) (by decide) (by decide)
  obtain ⟨bytes, hrun, hstart⟩ := hcreate 0 []
  obtain rfl : reset = 0x700 := Except.ok.inj (hreset.symm.trans (by decide))
  have hslack : ∀ n, (∀ k < 2, ∀ i < 2, n ≠ k * 3 + i) → bytes.get n = 0 := hstart.others
  exact ⟨container, d', hfinished, bytes, hrun, hstart.size, hstart.element 0 (by decide) 0 (by decide),
    hstart.element 0 (by decide) 1 (by decide), hslack 2 (by decide),
    hstart.element 1 (by decide) 1 (by decide), hslack 8 (by decide)⟩

end RegisterMap.Peripheral
