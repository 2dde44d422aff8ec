/-
Access to a field through its property. Reading gives the number that the
bits of the field hold, writing replaces exactly these bits, and neither
touches an element of the array in which the field has no bit. This is
what a caller sees of the bodies (`BitAccess`), for the finished code of
every field of one to 64 bits (`fieldProperty_exact`).
-/
import RegisterMap.Proofs.Peripheral.Property

namespace RegisterMap.Code.Primitive

/-- The numbers of an unsigned type are natural numbers below its limit. -/
theorem exists_of_holds {p : Primitive} (hu : p.isUnsigned = true) {n : Int}
    (h : p.holds n = true) : ∃ v : Nat, n = v ∧ v < p.limit := by
  have hn : p.wrap n = n := eq_of_beq h
  unfold wrap ofBits at hn
  rw [if_pos hu] at hn
  refine ⟨(p.toBits n).toNat, hn.symm, ?_⟩
  unfold limit
  rw [if_pos hu]
  exact (p.toBits n).isLt

end RegisterMap.Code.Primitive

namespace RegisterMap.Peripheral

open Code Exec

/-- A property gives access to `width` bits of an array from `start` on. -/
structure BitAccess (ctx : Context) (property : Shape) (type : TypeRef) (heap : Heap) (r : Ref)
    (bytes : Bytes) (start width : Nat) : Prop where
  /-- Reading gives the number the bits hold and changes nothing. -/
  get : ∃ v, runGet ctx property heap = .ok (v, heap) ∧ v.isOf type = true
    ∧ ∀ j, v.number.testBit j = (decide (j < width) && bytes.bit (start + j))
  /-- Writing gives the bits those of the value and changes nothing else. -/
  set : ∀ o : Operand, o.value.isOf type = true →
    ∃ bytes', runSet ctx property o heap = .ok (.nothing, heap.set r (.bytes bytes'))
      ∧ bytes'.size = bytes.size
      ∧ ∀ k, bytes'.bit k = if start ≤ k ∧ k < start + width then o.value.number.testBit (k - start)
        else bytes.bit k

variable {ctx : Context} {t : Tree} {b : Buffer} {f : Field} {type : TypeRef} {x : Shape}
  {heap : Heap} {r : Ref} {bytes : Bytes} {span : Nat} {allPublic : Bool}

/-- The bytes of the field can be touched. -/
def Reach (ctx : Context) (f : Field) (r : Ref) (bytes : Bytes) (span : Nat) : Prop :=
  ∀ i, f.low / 8 ≤ i → i ≤ f.high / 8 → span + i < bytes.size ∧ ctx.fence r (span + i) = true

theorem inReach_of (hf : f.Proper) (h : Reach ctx f r bytes span) :
    (Layout.of f).InReach ctx r bytes span := by
  intro i hi
  have hordered := hf.ordered
  have hbytes : (Layout.of f).bytes = (f.low % 8 + (f.high - f.low + 1) + 7) / 8 := rfl
  rw [hbytes] at hi
  refine h (f.low / 8 + i) (Nat.le_add_right ..) ?_
  omega

/-- A window is one whatever the result of the code is. -/
theorem Window.returns {s : Store} (h : Window ctx s b r bytes span) (type : Option TypeRef) :
    Window { ctx with returns := type } s b r bytes span :=
  ⟨h.memory, h.start, h.origin, h.array⟩

/-- A number with one bit at most is zero unless it is set. -/
theorem ne_zero_eq_testBit {n k : Nat} (h : ∀ j, j ≠ k → n.testBit j = false) :
    (n != 0) = n.testBit k := by
  by_cases hn : n = 0
  · rw [hn, Nat.zero_testBit]
    rfl
  · obtain ⟨j, hj⟩ := Nat.exists_testBit_of_ne_zero hn
    have hjk : j = k := Classical.byContradiction fun hne => by
      rw [h j hne] at hj
      cases hj
    rw [← hjk, hj]
    exact bne_iff_ne.2 hn

/-- The names of a buffer and those of the variables of a property. -/
structure Buffer.Apart (names : NodeId → String) (b : Buffer) : Prop where
  memory : names b.memory ≠ "temp" ∧ names b.memory ≠ "value"
  start : ∀ d, b.start = some d → names d ≠ "temp" ∧ names d ≠ "value"

/-- Position of the lowest bit in the array. -/
theorem start_eq (f : Field) (span : Nat) :
    8 * (span + (Layout.of f).firstByte) + (Layout.of f).shift = 8 * span + f.low := by
  show 8 * (span + f.low / 8) + f.low % 8 = _
  omega

/-- Whether a field of one bit is set. -/
theorem flag_eq (hf : f.Proper) (hw : (Layout.of f).width = 1) (bytes : Bytes) (span : Nat) :
    ((Layout.of f).byteOf bytes span 0 &&& (Layout.of f).byteMask 0 != 0)
      = bytes.bit (8 * span + f.low) := by
  have hl := sound_of hf
  have hshift := hl.shift_lt
  have hcovers : ∀ j, (Layout.of f).Covers 0 j ↔ j = (Layout.of f).shift := fun j => by
    unfold Layout.Covers
    omega
  have hone : ∀ j, j ≠ (Layout.of f).shift →
      ((Layout.of f).byteOf bytes span 0 &&& (Layout.of f).byteMask 0).testBit j = false := by
    intro j hj
    rw [Nat.testBit_and]
    by_cases hj8 : j < 8
    · rw [Layout.testBit_byteMask hl.width_le 0 hj8,
        decide_eq_false fun hc => hj ((hcovers j).1 hc), Bool.and_false]
    · have hlt : (Layout.of f).byteMask 0 < 2 ^ j := Nat.lt_of_lt_of_le
        ((Layout.of f).byteMask_lt 0)
        (Nat.pow_le_pow_right (by decide : 2 > 0) (Nat.le_of_not_lt hj8))
      rw [Nat.testBit_lt_two_pow hlt, Bool.and_false]
  rw [ne_zero_eq_testBit hone, Nat.testBit_and, Layout.testBit_byteMask hl.width_le 0 hshift,
    decide_eq_true ((hcovers _).2 rfl), Bool.and_true, ← start_eq]
  unfold Layout.byteOf Bytes.bit
  rw [show (8 * (span + (Layout.of f).firstByte) + (Layout.of f).shift) / 8
      = span + ((Layout.of f).firstByte + 0) by omega,
    show (8 * (span + (Layout.of f).firstByte) + (Layout.of f).shift) % 8
      = (Layout.of f).shift by omega]
  rfl

theorem testBit_toNat (flag : Bool) (j : Nat) : flag.toNat.testBit j = (decide (j < 1) && flag) := by
  by_cases hj : j = 0
  · rw [hj]
    cases flag <;> rfl
  · rw [decide_eq_false (by omega), Bool.false_and]
    exact Nat.testBit_lt_two_pow (Nat.lt_of_le_of_lt (Bool.toNat_le _) (Nat.one_lt_two_pow hj))

theorem ne_bool_of_storage {p : Primitive} (hp : p ∈ storageTypes) : TypeRef.primitive p ≠ .bool := by
  have hall : ∀ p ∈ storageTypes, TypeRef.primitive p ≠ .bool := by decide
  exact hall p hp

/-- The values of a type that holds a field. -/
theorem value_cases {l : Layout} {v : Value} (hh : Holds l type) (hv : v.isOf type = true) :
    (type = .bool ∧ l.width = 1 ∧ ∃ flag, v = .bool flag)
      ∨ ∃ p n, type = .primitive p ∧ p ∈ storageTypes ∧ l.width ≤ p.bits ∧ n < p.limit
        ∧ v = .int p (n : Nat) := by
  cases hh with
  | flag hw =>
    cases v with
    | bool flag => exact Or.inl ⟨rfl, hw, flag, rfl⟩
    | int p n =>
      unfold Value.isOf at hv
      simp only [Bool.and_eq_true, decide_eq_true_eq] at hv
      rw [← TypeRef.primitive.inj hv.1.1] at hv
      exact absurd hv.1.2 (by decide)
    | _ => cases hv
  | @bits p hp hw =>
    cases v with
    | int q n =>
      unfold Value.isOf at hv
      simp only [Bool.and_eq_true, decide_eq_true_eq] at hv
      obtain ⟨⟨hq, -⟩, hholds⟩ := hv
      obtain rfl := TypeRef.primitive.inj hq
      have hu : p.isUnsigned = true := by
        have hall : ∀ p ∈ storageTypes, p.isUnsigned = true := by decide
        exact hall p hp
      obtain ⟨n, rfl, hlim⟩ := Primitive.exists_of_holds hu hholds
      exact Or.inr ⟨p, n, rfl, hp, hw, hlim, rfl⟩
    | bool flag => exact absurd (of_decide_eq_true hv) (ne_bool_of_storage hp)
    | _ => cases hv

/-- A value of the type stays what it is. -/
theorem settle_of_isOf {l : Layout} {v : Value} (hh : Holds l type) (hv : v.isOf type = true)
    (constant : Bool) : v.settle type constant = .ok v := by
  rcases value_cases hh hv with ⟨rfl, -, flag, rfl⟩ | ⟨p, n, rfl, hp, -, -, rfl⟩
  · rfl
  · exact (storable hp).settle _ _

/-- A value as the new value of a field. -/
theorem newValue_run {l : Layout} {types : NodeId → TypeRef} (stock : NodeId → List Shape)
    {value : NodeId} {v : Value} (hl : l.Sound) (hh : Holds l type) (htype : types value = type)
    (hv : v.isOf type = true) :
    ∃ ps, l.Suits type ps ∧ ∀ ctx s, Sees ctx s value v →
      Counts ctx s ((l.newValue type value).code types stock) ps (v.number &&& l.valueMask) := by
  rcases value_cases hh hv with ⟨rfl, hw, flag, rfl⟩ | ⟨p, n, rfl, hp, hw, hlim, rfl⟩
  · exact ⟨_, Layout.suits_flag hw, fun ctx s hs => Layout.newFlag_counts types stock hw hs⟩
  · exact ⟨_, Layout.suits_bits hp hw,
      fun ctx s hs => Layout.newValue_counts types stock hl hp hw htype hs hlim⟩

namespace FieldCode

variable (h : FieldCode t b f type x) (hf : f.Proper)
  (hwindow : Window ctx { heap } b r bytes span) (hreach : Reach ctx f r bytes span)
  (hnames : ∀ d, d < t.size → ctx.names d = t.name d) (hapart : b.Apart ctx.names)

include h hf hwindow hreach hnames hapart

/-- The body that reads returns what the bits hold. -/
theorem get_returns (hret : ctx.returns = some type) :
    ∃ v s', Returns ctx (part x .get) { heap } v s' ∧ s'.heap = heap ∧ v.isOf type = true
      ∧ ∀ j, v.number.testBit j
        = (decide (j < f.high - f.low + 1) && bytes.bit (8 * span + f.low + j)) := by
  have hl := sound_of hf
  have hin := inReach_of hf hreach
  obtain ⟨types, stock, hget⟩ := h.get
  cases h.holds with
  | flag hw =>
    rw [if_pos rfl] at hget
    rw [hget]
    refine ⟨_, _, Layout.testBody_returns types stock hl hwindow hin hret, rfl, rfl, fun j => ?_⟩
    have hwidth : f.high - f.low + 1 = 1 := hw
    rw [flag_eq hf hw, hwidth]
    refine (testBit_toNat _ j).trans ?_
    by_cases hj : j < 1
    · rw [Nat.lt_one_iff.1 hj]
      rfl
    · rw [decide_eq_false hj]
      rfl
  | @bits p hp hw =>
    have hst := storable hp
    rw [if_neg (ne_bool_of_storage hp)] at hget
    obtain ⟨temp, htemp, hstock, hcode⟩ := hget
    rw [hcode]
    have hname : ctx.names temp = "temp" := (hnames temp htemp.lt_size).trans htemp.name_eq
    obtain ⟨s', hreturns, hheap⟩ := Layout.readBody_returns types stock hl hp hw hstock hname
      hapart.memory.1 (fun d hd => (hapart.start d hd).1) hwindow hin hret
    refine ⟨_, s', hreturns, hheap, ?_, fun j => ?_⟩
    · have hlim : (Layout.of f).gathered ((Layout.of f).byteOf bytes span) (Layout.of f).bytes
          < p.limit := by
        rw [hst.limit_eq]
        exact Nat.lt_of_lt_of_le (Layout.gathered_lt hl.width_le hl.shift_lt _ _)
          (Nat.pow_le_pow_right (by decide) hw)
      unfold Value.isOf
      simp [hst.isInteger, Primitive.holds_natCast hlim]
    · rw [← start_eq]
      exact Layout.testBit_read hl bytes span j

/-- The body that writes stores the bits of the value. -/
theorem set_runs {v : Value} (hv : v.isOf type = true) :
    ∃ bytes', Runs ctx (part x .set) { heap, locals := [⟨"value", type, v⟩] }
        { heap := heap.set r (.bytes bytes'), locals := [⟨"value", type, v⟩] }
      ∧ bytes'.size = bytes.size
      ∧ ∀ k, bytes'.bit k
        = if 8 * span + f.low ≤ k ∧ k < 8 * span + f.low + (f.high - f.low + 1)
          then v.number.testBit (k - (8 * span + f.low)) else bytes.bit k := by
  have hl := sound_of hf
  have hin := inReach_of hf hreach
  obtain ⟨types, stock, value, hd, htype, hset⟩ := h.set
  have hname : ctx.names value = "value" := (hnames value hd.lt_size).trans hd.name_eq
  have hlocals := hwindow.declare (x := ⟨"value", type, v⟩) hapart.memory.2.symm
    fun d hd => (hapart.start d hd).2.symm
  have hsees : ∀ heap, Sees ctx { heap, locals := [⟨"value", type, v⟩] } value v := fun heap => by
    refine sees_local (x := ⟨"value", type, v⟩) ?_
    unfold Variables.get?
    rw [List.find?_cons_of_pos (by simpa using hname.symm)]
  obtain ⟨ps, hsuits, hcounts⟩ := newValue_run stock hl h.holds htype hv
  refine ⟨(Layout.of f).written bytes span v.number (Layout.of f).bytes, ?_,
    Bytes.size_fill .., fun k => ?_⟩
  · rw [hset]
    exact Layout.writeBody_runs types stock hl hsuits hin hlocals fun heap => hcounts _ _ (hsees heap)
  · rw [Layout.bit_written hl (fun i hi => (hin i hi).1), start_eq]
    rfl

/-- The property of a field gives access to its bits. -/
theorem bitAccess :
    BitAccess ctx (x.finished allPublic) type heap r bytes (8 * span + f.low)
      (f.high - f.low + 1) where
  get := by
    obtain ⟨v, s', hret, hheap, hv, hbits⟩ := h.get_returns hf (hwindow.returns (some type)) hreach
      hnames hapart rfl
    refine ⟨v, ?_, hv, hbits⟩
    rw [runGet_finished h.kind_eq rfl]
    exact (runBody_returns hret).trans (by rw [hheap])
  set := fun o ho => by
    obtain ⟨bytes', hruns, hsize, hbits⟩ := h.set_runs hf (hwindow.returns none) hreach
      hnames hapart ho
    refine ⟨bytes', ?_, hsize, hbits⟩
    rw [runSet_finished h.kind_eq rfl (settle_of_isOf h.holds ho o.constant)]
    exact runBody_runs hruns rfl

end FieldCode

/-- The property of a field, rewritten. -/
def finishedProperty (b : Buffer) (f : Field) (allPublic : Bool) : Drafting NodeId :=
  Drafting.finish (Drafting.ofEdit (fieldProperty b f)) allPublic

/-- The property of a field is built and finished without failing, and it
gives access to the bits of the field, wherever the names in it stand for
an array that has these bits. -/
theorem fieldProperty_exact (b : Buffer) (f : Field) (allPublic : Bool) (d : Draft)
    (linked : d.tree.Mutual) (known : b.Known d.tree.Known) (apart : b.Apart d.tree.name)
    (proper : f.Proper) :
    ∃ property type d', finishedProperty b f allPublic d = (.ok property, d')
      ∧ storageType f = .ok type ∧ (∀ j < d.tree.size, d'.tree.name j = d.tree.name j)
      ∧ ∀ (ctx : Context) (heap : Heap) (r : Ref) (bytes : Bytes) (span : Nat),
        ctx.names = d'.tree.name → Window ctx { heap } b r bytes span →
        Reach ctx f r bytes span →
        BitAccess ctx (d'.tree.shape property) type heap r bytes (8 * span + f.low)
          (f.high - f.low + 1) := by
  obtain ⟨type, t₁, x, htype, hplant, hy, hcode⟩ := fieldProperty_run linked known proper
  have hop : x.shape.kind.isOperator = false := by
    rw [hcode.kind_eq]
    rfl
  obtain ⟨d', hrun, hread, hkept⟩ := Drafting.finish_run (d := d)
    (Drafting.ofEdit_run hplant) hy hop allPublic
  have hkeep : ∀ j < d.tree.size, d'.tree.name j = d.tree.name j := fun j hj => by
    rw [hkept j (Nat.lt_of_lt_of_le hj hy.grows), hy.names j hj]
  refine ⟨x.tag, type, d', hrun, htype, hkeep, fun ctx heap r bytes span hnames hwindow hreach => ?_⟩
  have hlt : ∀ j, d.tree.Known j → j < d.tree.size :=
    fun j ⟨_, hj⟩ => (Sketch.declaredType_eq hj).1
  have hapart : b.Apart ctx.names := by
    rw [hnames]
    constructor
    · rw [hkeep _ (hlt _ known.memory)]
      exact apart.memory
    · intro s hs
      rw [hkeep _ (hlt _ (known.start s hs))]
      exact apart.start s hs
  rw [hread]
  exact hcode.bitAccess proper hwindow hreach (fun j hj => by rw [hnames, hkept j hj]) hapart

/-- A field in two bytes, in the buffer of an empty class. -/
theorem fieldProperty_exact_twoBytes :
    ∃ property d',
      finishedProperty { memory := 0 } { name := "mode", low := 5, high := 12 } true
        { tree := (memoryDecl.plant ({} : Tree)).2 } = (.ok property, d')
      ∧ BitAccess
        { names := d'.tree.name
          service := Program.service { names := d'.tree.name, root := .leaf .hole } 0
          self := 0 }
        (d'.tree.shape property) .byte
        [.object ["R"] [⟨"memory", bytesType, .ref 1⟩], .bytes ⟨[0xe0, 0x1f], by decide⟩] 1
        ⟨[0xe0, 0x1f], by decide⟩ 5 8 := by
  obtain ⟨stock, t, x, hrun, hy, hd, -⟩ := Sketch.plant_variable Tree.mutual_empty "memory" bytesType
    (some .priv) (rfl : Sketch.usesOption none = []) fun _ => trivial
  have htree : (memoryDecl.plant ({} : Tree)).2 = t := congrArg Prod.snd hrun
  have htag : x.tag = 0 := by
    have := congrArg Prod.fst hrun
    exact (Except.ok.inj this).symm
  rw [htag] at hd
  rw [htree]
  obtain ⟨property, type, d', hfinished, htype, hnames, haccess⟩ :=
    fieldProperty_exact { memory := 0 } { name := "mode", low := 5, high := 12 } true { tree := t }
      hy.stock.linked ⟨hd.known, fun _ hs => nomatch hs⟩
      ⟨by rw [show Draft.tree { tree := t } = t from rfl, hd.name_eq]; decide, fun _ hs => nomatch hs⟩
      ⟨by decide, by decide⟩
  have hbyte : type = .byte := (Except.ok.inj htype).symm
  have hname : d'.tree.name 0 = "memory" := (hnames 0 hd.lt_size).trans hd.name_eq
  refine ⟨property, d', hfinished, ?_⟩
  rw [hbyte] at haccess
  refine haccess _ _ 1 _ 0 rfl ⟨?_, fun _ hs => (nomatch hs), fun _ => rfl, rfl⟩
    fun i hlow hhigh => ?_
  · refine sees_field (x := ⟨"memory", bytesType, .ref 1⟩) rfl ?_
    show Variables.get? [⟨"memory", bytesType, .ref 1⟩] (d'.tree.name 0) = _
    rw [hname]
    rfl
  · exact ⟨Nat.lt_of_le_of_lt (by simpa using hhigh) (by decide : 1 < 2), rfl⟩

end RegisterMap.Peripheral
