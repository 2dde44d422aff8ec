/-
The bodies of a field's property, run. The body that reads gathers the
field byte by byte in a variable (`getter_returns`), the body that writes
replaces its bits byte by byte in the buffer (`setter_runs`). What types
the expressions in between have depends on the width and the position of
the field; `Suits` is all that is needed of them.
-/
import RegisterMap.Proofs.Code.Growing
import RegisterMap.Proofs.Peripheral.Window
import RegisterMap.Proofs.Peripheral.Placement
import RegisterMap.Peripheral.Accessor

namespace RegisterMap.Peripheral

open Code Exec

-- =============================================================== types

/-- The types of values of several bits. -/
def storageTypes : List Primitive := [.byte, .ushort, .uint, .ulong]

/-- The types a value may have on its way to the bytes of a field. -/
def passingTypes : List Primitive := [.byte, .ushort, .int, .uint, .ulong]

/-- What is used of the type of a value of several bits. -/
structure Storable (p : Primitive) : Prop where
  isInteger : p.isInteger = true
  limit_eq : p.limit = 2 ^ p.bits
  byte_le : 256 ≤ p.limit
  limit_le : p.limit ≤ p.promoted.limit
  bits_le : p.bits ≤ p.promoted.bits
  bits_pos : 8 ≤ p.promoted.bits
  meet : Meet [p] [p, p.promoted] [p, p.promoted]
  widens : p.widensTo p = true

theorem storable {p : Primitive} (hp : p ∈ storageTypes) : Storable p := by
  simp only [storageTypes, List.mem_cons, List.not_mem_nil, or_false] at hp
  rcases hp with rfl | rfl | rfl | rfl <;> constructor <;> decide

/-- A number of the type is stored as it is. -/
theorem Storable.settle {p : Primitive} (hp : Storable p) (n : Int) (constant : Bool) :
    (Value.int p n).settle (.primitive p) constant = .ok (.int p n) := by
  unfold Value.settle
  dsimp only
  rw [if_pos hp.widens]

/-- A variable of the type starts from a zero without a suffix. -/
theorem Storable.settle_zero {p : Primitive} (hp : p ∈ storageTypes) :
    (Value.int .int 0).settle (.primitive p) true = .ok (.int p 0) := by
  simp only [storageTypes, List.mem_cons, List.not_mem_nil, or_false] at hp
  rcases hp with rfl | rfl | rfl | rfl <;> decide

namespace Layout

variable {l : Layout} {ctx : Context} {s : Store} {b : Buffer} {r : Ref} {bytes : Bytes}
  {span i n : Nat} {p : Primitive} (types : NodeId → TypeRef) (stock : NodeId → List Shape)

/-- What is used of a layout. -/
structure Sound (l : Layout) : Prop where
  width_pos : 0 < l.width
  width_le : l.width ≤ 64
  shift_lt : l.shift < 8
  bytes_eq : l.bytes = Word.bytesFor (l.shift + l.width)

theorem Sound.byteShift_lt (hl : l.Sound) (hi : i < l.bytes) (h0 : i ≠ 0) :
    l.byteShift i < l.width := by
  have hb := hl.bytes_eq
  have hs := hl.shift_lt
  unfold Word.bytesFor at hb
  unfold byteShift
  rw [if_neg h0]
  omega

-- ============================================================== reading

/-- The bytes of the field hold numbers. -/
def byteOf (l : Layout) (bytes : Bytes) (span i : Nat) : Nat :=
  (bytes.get (span + (l.firstByte + i))).toNat

/-- The bytes of the field can be touched. -/
def InReach (l : Layout) (ctx : Context) (r : Ref) (bytes : Bytes) (span : Nat) : Prop :=
  ∀ i < l.bytes, span + (l.firstByte + i) < bytes.size
    ∧ ctx.fence r (span + (l.firstByte + i)) = true

/-- What byte `i` gives to the value. -/
theorem bitsRead_counts (hl : l.Sound) (hp : p ∈ storageTypes) (hw : l.width ≤ p.bits)
    (h : Window ctx s b r bytes span) (hi : i < l.bytes) (hin : l.InReach ctx r bytes span) :
    Counts ctx s ((l.bitsRead b (.primitive p) i).code types stock) [p, p.promoted]
      (l.partRead i (l.byteOf bytes span i)) := by
  have hmasked : Counts ctx s _ _ (l.byteOf bytes span i &&& l.byteMask i) :=
    h.masked_counts types stock (hin i hi).1 (hin i hi).2 (l.byteMask_lt i)
  have hst := storable hp
  generalize l.byteOf bytes span i = byte at hmasked ⊢
  have hlt : byte &&& l.byteMask i < p.limit :=
    Nat.lt_of_le_of_lt Nat.and_le_right (Nat.lt_of_lt_of_le (l.byteMask_lt i) hst.byte_le)
  have hcast := hmasked.cast hst.isInteger hlt
  have hpart := partRead_lt hl.width_le hl.shift_lt i byte
  have hwidth : 2 ^ l.width ≤ p.limit := by
    rw [hst.limit_eq]
    exact Nat.pow_le_pow_right (by decide) hw
  unfold bitsRead
  by_cases h0 : i = 0
  · have hshift : l.byteShift i < 8 := by
      rw [h0]
      exact hl.shift_lt
    rw [if_pos h0]
    have hread : l.partRead i byte = (byte &&& l.byteMask i) >>> l.byteShift i := if_pos h0
    rw [hread]
    refine hcast.shr (Nat.lt_trans hshift (by decide)) fun q hq => ?_
    rw [List.mem_singleton.1 hq]
    exact ⟨by simp, by simp, Nat.lt_of_lt_of_le hshift hst.bits_pos, hst.limit_le⟩
  · rw [if_neg h0]
    have hread : l.partRead i byte = (byte &&& l.byteMask i) <<< l.byteShift i := if_neg h0
    rw [hread] at hpart ⊢
    have hshift := hl.byteShift_lt hi h0
    refine hcast.shl ?_ fun q hq => ?_
    · exact Nat.lt_of_lt_of_le hshift (Nat.le_trans hl.width_le (by decide))
    · rw [List.mem_singleton.1 hq]
      exact ⟨by simp, by simp, Nat.lt_of_lt_of_le hshift (Nat.le_trans hw hst.bits_le),
        Nat.lt_of_lt_of_le hpart (Nat.le_trans hwidth hst.limit_le)⟩

/-- The store while a value is gathered. -/
def gathering (ctx : Context) (temp : NodeId) (p : Primitive) (heap : Heap) (n : Nat) : Store where
  heap := heap
  locals := [⟨ctx.names temp, .primitive p, .int p n⟩]

theorem gathering_local (ctx : Context) (p : Primitive) (temp : NodeId) (heap : Heap) (n : Nat) :
    (gathering ctx temp p heap n).locals.get? (ctx.names temp)
      = some ⟨ctx.names temp, .primitive p, .int p n⟩ := by
  unfold gathering Variables.get?
  rw [List.find?_cons_of_pos (by simp)]

theorem gather_runs (hl : l.Sound) (hp : p ∈ storageTypes) (hw : l.width ≤ p.bits)
    {temp : NodeId} {heap : Heap} (hn : n < 2 ^ l.width)
    (h : Window ctx (gathering ctx temp p heap n) b r bytes span) (hi : i < l.bytes)
    (hin : l.InReach ctx r bytes span) :
    Runs ctx ((l.gather b (.primitive p) temp i).code types stock) (gathering ctx temp p heap n)
      (gathering ctx temp p heap (n ||| l.partRead i (l.byteOf bytes span i))) := by
  have hst := storable hp
  have hwidth : 2 ^ l.width ≤ p.limit := by
    rw [hst.limit_eq]
    exact Nat.pow_le_pow_right (by decide) hw
  have hlocal := gathering_local ctx p temp heap n
  have huse := counts_plain (gives_use (types temp) (sees_local hlocal))
    (Nat.lt_of_lt_of_le hn hwidth)
  have hread := bitsRead_counts types stock hl hp hw h hi hin
  have hor := Nat.or_lt_two_pow hn (partRead_lt hl.width_le hl.shift_lt i (l.byteOf bytes span i))
  have hcast : Counts ctx _ ((Sketch.cast (.primitive p)
      (.binary .or (.use temp) (l.bitsRead b (.primitive p) i))).code types stock) [p] _ :=
    (huse.or hread hst.meet).cast hst.isInteger (Nat.lt_of_lt_of_le hor hwidth)
  obtain ⟨f, q, hg, hq, -, -⟩ := hcast
  rw [List.mem_singleton.1 hq] at hg
  have hruns : Runs ctx ((l.gather b (.primitive p) temp i).code types stock) _ _ :=
    runs_assign_local hlocal hg (hst.settle _ _)
  have hput : Variables.put (gathering ctx temp p heap n).locals (ctx.names temp)
      (.int p (n ||| l.partRead i (l.byteOf bytes span i) : Nat))
      = [⟨ctx.names temp, .primitive p, .int p (n ||| l.partRead i (l.byteOf bytes span i) : Nat)⟩] :=
    if_pos rfl
  rw [hput] at hruns
  exact hruns

/-- The body that reads a field of several bits returns its value. -/
theorem readBody_returns (hl : l.Sound) (hp : p ∈ storageTypes) (hw : l.width ≤ p.bits)
    {temp : NodeId} {heap : Heap}
    (hstock : stock temp = (tempDecl (.primitive p)).code types stock)
    (htemp : ctx.names temp = "temp") (hmem : ctx.names b.memory ≠ "temp")
    (hstart : ∀ d, b.start = some d → ctx.names d ≠ "temp")
    (h : Window ctx { heap } b r bytes span) (hin : l.InReach ctx r bytes span)
    (hret : ctx.returns = some (.primitive p)) :
    ∃ s', Returns ctx (Sketch.codeList types stock (l.readBody b (.primitive p) temp)).flatten
        { heap } (.int p (l.gathered (l.byteOf bytes span) l.bytes : Nat)) s'
      ∧ s'.heap = heap := by
  have hst := storable hp
  have hwindow : ∀ n, Window ctx (gathering ctx temp p heap n) b r bytes span := fun n =>
    h.declare (x := ⟨ctx.names temp, .primitive p, .int p n⟩)
      (show ctx.names temp ≠ _ by rw [htemp]; exact hmem.symm)
      fun d hd => show ctx.names temp ≠ _ by rw [htemp]; exact (hstart d hd).symm
  have hdecl : Runs ctx (stock temp) { heap } (gathering ctx temp p heap 0) := by
    rw [hstock]
    have hzero : Gives ctx { heap } ((Sketch.int 0).code types stock) _ _ :=
      gives_int false (by decide)
    unfold gathering
    rw [htemp]
    exact runs_declare rfl hzero (Storable.settle_zero hp)
  have hloop := runs_range (fun i => (l.gather b (.primitive p) temp i).code types stock)
    (fun i => gathering ctx temp p heap (l.gathered (l.byteOf bytes span) i)) l.bytes
    fun i hi => gather_runs types stock hl hp hw (gathered_lt hl.width_le hl.shift_lt _ i)
      (hwindow _) hi hin
  have hlast : Returns ctx ((Sketch.ret (some (.use temp))).code types stock)
      (gathering ctx temp p heap (l.gathered (l.byteOf bytes span) l.bytes))
      (.int p (l.gathered (l.byteOf bytes span) l.bytes : Nat))
      (gathering ctx temp p heap (l.gathered (l.byteOf bytes span) l.bytes)) := by
    have hlocal := gathering_local ctx p temp heap (l.gathered (l.byteOf bytes span) l.bytes)
    exact returns_value hret (gives_use (types temp) (sees_local hlocal)) (hst.settle _ _)
  refine ⟨gathering ctx temp p heap (l.gathered (l.byteOf bytes span) l.bytes), ?_, rfl⟩
  have hcode : (Sketch.codeList types stock (l.readBody b (.primitive p) temp)).flatten
      = stock temp ++ ((List.range l.bytes).flatMap
        (fun i => (l.gather b (.primitive p) temp i).code types stock)
        ++ (Sketch.ret (some (.use temp))).code types stock) := by
    rw [Sketch.codeList_eq]
    unfold readBody indices
    rw [List.map_append, List.map_cons, List.map_map, List.flatten_append, List.flatten_cons,
      List.append_assoc, List.flatMap_def]
    simp [Sketch.code, Function.comp_def]
  rw [hcode]
  exact hdecl.returns (hloop.returns hlast)

/-- The body that reads a field of one bit returns whether it is set. -/
theorem testBody_returns (hl : l.Sound) (h : Window ctx s b r bytes span)
    (hin : l.InReach ctx r bytes span) (hret : ctx.returns = some .bool) :
    Returns ctx (Sketch.codeList types stock (l.testBody b)).flatten s
      (.bool (l.byteOf bytes span 0 &&& l.byteMask 0 != 0)) s := by
  have hpos : 0 < l.bytes := by
    have := hl.bytes_eq
    have := hl.width_pos
    unfold Word.bytesFor at *
    omega
  have hmasked := h.masked_counts types stock (hin 0 hpos).1 (hin 0 hpos).2 (l.byteMask_lt 0)
  have htest := hmasked.neq_zero (Operator.neq.typeOver .byte) false (by decide)
  exact returns_value hret htest rfl

-- ============================================================== writing

/-- What is used of the types of a value that is to be written. -/
structure Suits (l : Layout) (type : TypeRef) (ps : List Primitive) : Prop where
  passing : ∀ p ∈ ps, p ∈ passingTypes ∧ p.promoted ∈ passingTypes
  room : ∀ p ∈ ps, p.limit ≤ p.promoted.limit ∧ 2 ^ l.width ≤ p.promoted.limit
  narrow : l.needsWidening type = true → l.width ≤ 32
  wide : l.needsWidening type = false → 0 < l.shift → ∀ p ∈ ps, p = .uint ∨ p = .ulong

/-- What the new value gives to byte `i`. -/
theorem bitsWritten_counts {type : TypeRef} {ps : List Primitive} {value : NodeId} {v : Nat}
    (hl : l.Sound) (hi : i < l.bytes) (hs : l.Suits type ps)
    (h : Counts ctx s ((l.newValue type value).code types stock) ps (v &&& l.valueMask)) :
    ∃ bits, Counts ctx s ((l.bitsWritten type value i).code types stock) passingTypes bits
      ∧ ∀ j < 8, bits.testBit j = (l.partWritten i v).testBit j := by
  have hnew : v &&& l.valueMask < 2 ^ l.width := by
    refine Nat.lt_of_le_of_lt Nat.and_le_right ?_
    rw [valueMask_eq hl.width_le]
    exact Nat.sub_lt (Nat.two_pow_pos _) Nat.one_pos
  have hroom : ∀ p ∈ ps, l.width ≤ p.promoted.bits := fun p hp =>
    (Nat.pow_le_pow_iff_right (by decide)).1 (Nat.le_trans (hs.room p hp).2 (Primitive.limit_le _))
  unfold bitsWritten
  by_cases h0 : i = 0
  · have hshift : l.byteShift 0 = l.shift := rfl
    have hlow : ∀ n', n' % 2 ^ 32 = (v &&& l.valueMask) <<< l.shift % 2 ^ 32 →
        ∀ j < 8, n'.testBit j = (l.partWritten i v).testBit j := by
      intro n' hn' j hj
      have hbit := congrArg (·.testBit j) hn'
      simp only [Nat.testBit_mod_two_pow] at hbit
      rw [decide_eq_true (by omega : j < 32), Bool.true_and, Bool.true_and] at hbit
      rw [hbit]
      unfold partWritten
      rw [if_pos h0, h0, hshift]
    have h32 := Nat.lt_of_lt_of_le hl.shift_lt (by decide : 8 ≤ 32)
    rw [if_pos h0, hshift]
    cases hwide : l.needsWidening type with
    | true =>
      have hlim : v &&& l.valueMask < Primitive.limit .uint :=
        Nat.lt_of_lt_of_le hnew (Nat.pow_le_pow_right (by decide) (hs.narrow hwide))
      obtain ⟨n', hc, hn'⟩ := (h.cast rfl hlim).shl_unsigned h32 (fun p hp =>
        Or.inl (List.mem_singleton.1 hp))
      exact ⟨n', hc.mono fun p hp => by rw [List.mem_singleton.1 hp]; decide, hlow n' hn'⟩
    | false =>
      by_cases hs0 : l.shift = 0
      · refine ⟨(v &&& l.valueMask) <<< l.shift, h.shl (Nat.lt_trans h32 (by decide)) ?_,
          hlow _ rfl⟩
        intro p hp
        rw [hs0, Nat.shiftLeft_zero]
        have hbits := Nat.lt_of_lt_of_le hl.width_pos (hroom p hp)
        exact ⟨(hs.passing p hp).1, (hs.passing p hp).2, hbits,
          Nat.lt_of_lt_of_le hnew (hs.room p hp).2⟩
      · obtain ⟨n', hc, hn'⟩ := h.shl_unsigned h32 (hs.wide hwide (Nat.pos_of_ne_zero hs0))
        exact ⟨n', hc.mono fun p hp => (hs.passing p hp).1, hlow n' hn'⟩
  · rw [if_neg h0]
    have hshift := hl.byteShift_lt hi h0
    refine ⟨(v &&& l.valueMask) >>> l.byteShift i, h.shr ?_ ?_, fun j _ => ?_⟩
    · exact Nat.lt_of_lt_of_le hshift (Nat.le_trans hl.width_le (by decide))
    · intro p hp
      exact ⟨(hs.passing p hp).1, (hs.passing p hp).2,
        Nat.lt_of_lt_of_le hshift (hroom p hp), (hs.room p hp).1⟩
    · unfold partWritten
      rw [if_neg h0]

/-- Byte `i` after a value is written. -/
def byteWritten (l : Layout) (bytes : Bytes) (span v i : Nat) : Byte :=
  BitVec.ofNat 8 (l.replaced i (l.byteOf bytes span i) (l.partWritten i v))

/-- The bytes after a value is written to the first `count` bytes of the
field. -/
def written (l : Layout) (bytes : Bytes) (span v count : Nat) : Bytes :=
  bytes.fill (span + l.firstByte) (l.byteWritten bytes span v) count

theorem scatter_runs {type : TypeRef} {ps : List Primitive} {value : NodeId} {v : Nat}
    (hl : l.Sound) (hs : l.Suits type ps) (hi : i < l.bytes) (hin : l.InReach ctx r bytes span)
    (h : Window ctx s b r (l.written bytes span v i) span)
    (hv : Counts ctx s ((l.newValue type value).code types stock) ps (v &&& l.valueMask)) :
    Runs ctx ((l.scatter b type value i).code types stock) s { s with
      heap := s.heap.set r (.bytes (l.written bytes span v (i + 1))) } := by
  obtain ⟨hsize, hfence⟩ := hin i hi
  have hsize' : span + (l.firstByte + i) < (l.written bytes span v i).size := by
    unfold written
    rw [Bytes.size_fill]
    exact hsize
  have hold : (l.written bytes span v i).get (span + (l.firstByte + i))
      = bytes.get (span + (l.firstByte + i)) := by
    unfold written
    rw [Bytes.get_fill _ _ _ (by omega), if_neg (by omega)]
  obtain ⟨bits, hbits, hagree⟩ := bitsWritten_counts types stock hl hi hs hv
  have hlow : 0xff - l.byteMask i < 256 := by omega
  have hkept := h.masked_counts types stock hsize' hfence hlow
  have hor : Counts ctx s ((Sketch.binary .or
      (masked (b.byteAt (l.firstByte + i)) (0xff - l.byteMask i))
      (l.bitsWritten type value i)).code types stock) (.long :: passingTypes) _ :=
    hkept.or hbits (by decide)
  obtain ⟨f, p, hg, -⟩ := hor
  have hruns := h.storeLow_runs types stock hsize' hfence hg
  have hbyte : BitVec.ofNat 8 (((l.written bytes span v i).get (span + (l.firstByte + i))).toNat
      &&& (0xff - l.byteMask i) ||| bits) = l.byteWritten bytes span v i := by
    apply BitVec.eq_of_getLsbD_eq
    intro j hj
    unfold byteWritten byteOf
    rw [hold, BitVec.getLsbD_ofNat, BitVec.getLsbD_ofNat]
    congr 1
    unfold replaced
    rw [Nat.testBit_or, Nat.testBit_or, hagree j hj]
  rw [hbyte, ← Nat.add_assoc] at hruns
  exact hruns

/-- The body that writes a field stores its bytes. -/
theorem writeBody_runs {type : TypeRef} {ps : List Primitive} {value : NodeId} {v : Nat}
    (hl : l.Sound) (hs : l.Suits type ps) (hin : l.InReach ctx r bytes span)
    (h : Window ctx s b r bytes span)
    (hv : ∀ heap, Counts ctx { s with heap } ((l.newValue type value).code types stock) ps
      (v &&& l.valueMask)) :
    Runs ctx (Sketch.codeList types stock (l.writeBody b type value)).flatten s { s with
      heap := s.heap.set r (.bytes (l.written bytes span v l.bytes)) } := by
  have hcode : (Sketch.codeList types stock (l.writeBody b type value)).flatten
      = (List.range l.bytes).flatMap fun i => (l.scatter b type value i).code types stock := by
    rw [Sketch.codeList_eq]
    unfold writeBody indices
    rw [List.map_map, List.flatMap_def]
    rfl
  have hstart : s = { s with heap := s.heap.set r (.bytes (l.written bytes span v 0)) } := by
    have hsame : s.heap.set r (.bytes (l.written bytes span v 0)) = s.heap := set_same h.array
    rw [hsame]
  rw [hcode]
  have hloop := runs_range (fun i => (l.scatter b type value i).code types stock)
    (fun i => { s with heap := s.heap.set r (.bytes (l.written bytes span v i)) }) l.bytes
    fun i hi => by
      have hstep := scatter_runs types stock hl hs hi hin (h.set (l.written bytes span v i)) (hv _)
      dsimp only at hstep
      rwa [List.set_set] at hstep
  rwa [← hstart] at hloop

-- ========================================================= new values

/-- The types of the new value of several bits. -/
def newTypes (p : Primitive) : List Primitive := [p, if p = .ulong then .ulong else .uint]

theorem newTypes_pass {q : Primitive} (hp : p ∈ storageTypes) (hq : q ∈ newTypes p) :
    q ∈ passingTypes ∧ q.promoted ∈ passingTypes ∧ q.limit ≤ q.promoted.limit
      ∧ 2 ^ p.bits ≤ q.promoted.limit := by
  have hall : ∀ p ∈ storageTypes, ∀ q ∈ newTypes p, q ∈ passingTypes ∧ q.promoted ∈ passingTypes
      ∧ q.limit ≤ q.promoted.limit ∧ 2 ^ p.bits ≤ q.promoted.limit := by decide
  exact hall p hp q hq

theorem suits_bits (hp : p ∈ storageTypes) (hw : l.width ≤ p.bits) :
    l.Suits (.primitive p) (newTypes p) where
  passing := fun q hq => ⟨(newTypes_pass hp hq).1, (newTypes_pass hp hq).2.1⟩
  room := fun q hq => by
    obtain ⟨-, -, hlim, hbits⟩ := newTypes_pass hp hq
    exact ⟨hlim, Nat.le_trans (Nat.pow_le_pow_right (by decide) hw) hbits⟩
  narrow := fun hwide => by
    simp only [storageTypes, List.mem_cons, List.not_mem_nil, or_false] at hp
    rcases hp with rfl | rfl | rfl | rfl
    · exact Nat.le_trans hw (by decide)
    · exact Nat.le_trans hw (by decide)
    · exact hw
    · simp [needsWidening] at hwide
  wide := fun hwide hshift => by
    simp only [storageTypes, List.mem_cons, List.not_mem_nil, or_false] at hp
    rcases hp with rfl | rfl | rfl | rfl
    · simp [needsWidening, hshift] at hwide
    · simp [needsWidening, hshift] at hwide
    · decide
    · decide

theorem narrow_common (hp : p ∈ storageTypes) (hlong : p ≠ .ulong) :
    p.bits ≤ 32 ∧ p.common .uint = some .uint ∧ p.limit ≤ Primitive.limit .uint := by
  have hall : ∀ p ∈ storageTypes, p ≠ .ulong →
      p.bits ≤ 32 ∧ p.common .uint = some .uint ∧ p.limit ≤ Primitive.limit .uint := by decide
  exact hall p hp hlong

/-- The new value of a field of several bits. -/
theorem newValue_counts (hl : l.Sound) (hp : p ∈ storageTypes) (hw : l.width ≤ p.bits)
    {value : NodeId} {v : Nat} (htype : types value = .primitive p)
    (h : Sees ctx s value (.int p v)) (hv : v < p.limit) :
    Counts ctx s ((l.newValue (.primitive p) value).code types stock) (newTypes p)
      (v &&& l.valueMask) := by
  have hmask : l.valueMask = 2 ^ l.width - 1 := valueMask_eq hl.width_le
  have hlt : l.valueMask < 2 ^ l.width := by
    rw [hmask]
    exact Nat.sub_lt (Nat.two_pow_pos _) Nat.one_pos
  have hne : l.valueMask ≠ 0 := by
    have := Nat.one_lt_two_pow (Nat.ne_of_gt hl.width_pos)
    omega
  have hst := storable hp
  have hbool : TypeRef.primitive p ≠ .bool := by
    rintro he
    rw [TypeRef.primitive.inj he] at hst
    exact absurd hst.isInteger (by decide)
  have huse : Gives ctx s ((Sketch.use value).code types stock) (.primitive p, none) (.int p v) := by
    have := gives_use (types value) h
    rw [htype] at this
    show Gives ctx s [.leaf (.varRef value (types value))] _ _
    rw [htype]
    exact this
  have hcommon : p.common (maskType l.valueMask)
      = some (if p = .ulong then .ulong else .uint) ∧ p.limit
        ≤ (if p = .ulong then Primitive.ulong else .uint).limit := by
    by_cases hlong : p = .ulong
    · subst hlong
      unfold maskType
      split <;> decide
    · obtain ⟨hbits, hcommon, hlim⟩ := narrow_common hp hlong
      have h32 : l.valueMask < 2 ^ 32 :=
        Nat.lt_of_lt_of_le hlt (Nat.pow_le_pow_right (by decide) (Nat.le_trans hw hbits))
      rw [maskType_of_lt h32, if_neg hlong]
      exact ⟨hcommon, hlim⟩
  unfold newValue
  rw [if_neg hbool]
  refine counts_masked huse hv (Nat.lt_of_lt_of_le hlt (Nat.pow_le_pow_right (by decide) hl.width_le))
    hcommon.1 hcommon.2 (fun hall => ?_) ⟨by simp [newTypes], by simp [newTypes]⟩
    fun h0 => absurd h0 hne
  have hones : l.valueMask = 2 ^ p.bits - 1 := by
    have hbits : ∀ p ∈ storageTypes, (TypeRef.primitive p).allOnes = some (2 ^ p.bits - 1) := by
      decide
    exact (Option.some.inj ((hbits p hp).symm.trans hall)).symm
  rw [hones]
  exact Nat.and_two_pow_sub_one_of_lt_two_pow (Nat.lt_of_lt_of_le hv p.limit_le)

theorem suits_flag (hw : l.width = 1) : l.Suits .bool [.uint] where
  passing := by decide
  room := fun q hq => by
    rw [List.mem_singleton.1 hq, hw]
    decide
  narrow := fun _ => by
    rw [hw]
    decide
  wide := fun _ _ q hq => Or.inl (List.mem_singleton.1 hq)

/-- The new value of a field of one bit. -/
theorem newFlag_counts (hw : l.width = 1) {value : NodeId} {flag : Bool}
    (h : Sees ctx s value (.bool flag)) :
    Counts ctx s ((l.newValue .bool value).code types stock) [.uint]
      (flag.toNat &&& l.valueMask) := by
  have hmask : l.valueMask = 1 := by
    rw [valueMask_eq (by omega), hw]
    rfl
  have hlit : ∀ n < 2, Gives ctx s ((Sketch.literal n true false false).code types stock)
      (.uint, some n) (.int .uint n) := fun n hn =>
    gives_literal false (Nat.lt_of_lt_of_le hn (by decide))
  have hcond : Gives ctx s ((l.newValue .bool value).code types stock) (.uint, none)
      (.int .uint (flag.toNat : Nat)) :=
    gives_cond (gives_use (types value) h) (hlit 1 (by decide)) (hlit 0 (by decide))
      (fun hb => by rw [hb]; rfl) (fun hb => by rw [hb]; rfl)
  have hand : flag.toNat &&& l.valueMask = flag.toNat := by
    rw [hmask]
    cases flag <;> rfl
  rw [hand]
  exact counts_plain hcond (Nat.lt_of_le_of_lt (Bool.toNat_le flag) (by decide))

-- ================================================================= bits

/-- The value read has the bits of the field. -/
theorem testBit_read (hl : l.Sound) (bytes : Bytes) (span j : Nat) :
    (l.gathered (l.byteOf bytes span) l.bytes).testBit j
      = (decide (j < l.width) && bytes.bit (8 * (span + l.firstByte) + l.shift + j)) := by
  have hreach : j < l.width → l.shift + j < 8 * l.bytes := fun hj => by
    rw [hl.bytes_eq]
    unfold Word.bytesFor
    omega
  rw [testBit_gathered hl.width_le hl.shift_lt]
  unfold byteOf Bytes.bit
  rw [show span + (l.firstByte + (l.shift + j) / 8)
      = (8 * (span + l.firstByte) + l.shift + j) / 8 by omega,
    show (l.shift + j) % 8 = (8 * (span + l.firstByte) + l.shift + j) % 8 by omega]
  congr 1
  exact decide_eq_decide.2 ⟨fun h => h.1, fun h => ⟨h, hreach h⟩⟩

/-- The bytes written have the bits of the value where the field lies, and
their own everywhere else. -/
theorem bit_written (hl : l.Sound) {bytes : Bytes} {span : Nat}
    (hin : ∀ i < l.bytes, span + (l.firstByte + i) < bytes.size) (v k : Nat) :
    (l.written bytes span v l.bytes).bit k
      = if 8 * (span + l.firstByte) + l.shift ≤ k
          ∧ k < 8 * (span + l.firstByte) + l.shift + l.width
        then v.testBit (k - (8 * (span + l.firstByte) + l.shift)) else bytes.bit k := by
  have hwidth := hl.width_pos
  have hcount : l.bytes = (l.shift + l.width + 7) / 8 := hl.bytes_eq
  have hsize : span + l.firstByte + l.bytes ≤ bytes.size := by
    have := hin (l.bytes - 1) (by omega)
    omega
  unfold Bytes.bit written
  rw [Bytes.get_fill _ _ _ hsize]
  by_cases hk : span + l.firstByte ≤ k / 8 ∧ k / 8 < span + l.firstByte + l.bytes
  · rw [if_pos hk]
    unfold byteWritten
    have hmod : k % 8 < 8 := Nat.mod_lt _ (by decide)
    rw [BitVec.getLsbD_ofNat, decide_eq_true hmod, Bool.true_and,
      testBit_replaced hl.width_le hl.shift_lt (fun _ _ => rfl) hmod]
    have hback : 8 * (k / 8 - (span + l.firstByte)) + k % 8 = k - 8 * (span + l.firstByte) := by
      omega
    refine if_congr ?_ ?_ ?_
    · unfold Covers
      omega
    · rw [hback]
      congr 1
      omega
    · unfold byteOf
      rw [show span + (l.firstByte + (k / 8 - (span + l.firstByte))) = k / 8 by omega]
      rfl
  · rw [if_neg hk, if_neg (by omega)]

end Layout

end RegisterMap.Peripheral
