/-
Access of software to a register through its object. A write updates the
bits of the writable fields as their effects demand, and a read gives the
bits of the readable fields and changes those that react to it. Both are
said of the finished class of every register whose fields have one to 64
bits, for every content of the buffer (`registerClass_write`,
`registerClass_read`).
-/
import Mathlib.Data.List.Pairwise
import RegisterMap.Proofs.Peripheral.HolderCode

namespace RegisterMap.Peripheral

open Code Exec

variable {p : Program} {service : Service} {ctx : Context} {object a : Ref} {path : List String}
  {heap : Heap} {bytes : Bytes} {t : Tree} {r : Register} {reset : Nat} {memory : NodeId}
  {x : Shape} {allPublic : Bool}

-- ============================================================== objects

/-- An object keeps its bytes in the array `a`. -/
structure Keeps (heap : Heap) (object : Ref) (path : List String) (a : Ref) (bytes : Bytes) :
    Prop where
  isObject : ∃ fields, heap[object]? = some (.object path fields)
  memory : ((heap.fields object).get? "memory").map (·.value) = some (.ref a)
  array : heap[a]? = some (.bytes bytes)

namespace Keeps

/-- The array has changed. -/
theorem set (h : Keeps heap object path a bytes) (bytes' : Bytes) :
    Keeps (heap.set a (.bytes bytes')) object path a bytes' := by
  obtain ⟨fields, hobj⟩ := h.isObject
  have hne : a ≠ object := fun he => by
    have harray := h.array
    rw [he, hobj] at harray
    cases harray
  refine ⟨⟨fields, ?_⟩, ?_, getElem?_set_bytes h.array bytes'⟩
  · rw [List.getElem?_set_ne hne, hobj]
  · rw [fields_set_bytes h.array]
    exact h.memory

/-- Code on the buffer finds the array. -/
theorem window (h : Keeps heap object path a bytes) (hself : ctx.self = object)
    (hname : ctx.names memory = "memory") {locals : Variables}
    (hlocals : locals.get? "memory" = none) :
    Window ctx { heap, locals } { memory } a bytes 0 where
  memory := by
    obtain ⟨x, hx, hv⟩ := Option.map_eq_some_iff.1 h.memory
    rw [← hv]
    exact sees_field (by rw [hname]; exact hlocals) (by rw [hname, hself]; exact hx)
  start := fun _ hs => nomatch hs
  origin := fun _ => rfl
  array := h.array

theorem whole (h : Keeps heap object path a bytes) (hself : ctx.self = object)
    (hname : ctx.names memory = "memory") {locals : Variables}
    (hlocals : locals.get? "memory" = none) (hsize : 4 ≤ bytes.size)
    (hfence : ∀ i < 4, ctx.fence a i = true) : Whole ctx { heap, locals } { memory } a bytes :=
  ⟨h.window hself hname hlocals, hsize, hfence⟩

end Keeps

-- ============================================================= requests

namespace HolderCode

variable (h : HolderCode t r reset memory x)

include h

theorem answers : Answers x := by
  obtain ⟨construct, reset', read, write, hall, hconstruct, hreset, ⟨m, -, hread⟩, m', -, hwrite⟩ :=
    h.methods
  have hc : Constructing construct [reset', read, write] := by
    refine ⟨⟨_, hconstruct.kind_eq, rfl⟩, ?_⟩
    simp only [List.forall_mem_cons]
    exact ⟨⟨_, hreset.kind_eq, rfl⟩, ⟨_, hread.kind_eq, rfl⟩, ⟨_, hwrite.kind_eq, rfl⟩, nofun⟩
  refine hc.answers ⟨_, h.kind_eq⟩ hall ?_
  rw [List.map_cons, List.map_cons, List.map_singleton, hreset.name_eq, hread.name_eq,
    hwrite.name_eq]
  decide

variable (hpath : p.resolve path = some (x.finished allPublic))
  (hnames : ∀ d, d < t.size → p.names d = t.name d) (hk : Keeps heap object path a bytes)
  (hsize : 4 ≤ bytes.size)

include hpath hnames hk hsize

/-- The object answers a write. -/
theorem write_serves {v : Nat} (hv : v < 2 ^ 32) (constant : Bool) :
    ∃ m : WriteMasks, m.Of r ∧ ∃ bytes',
      p.serve service object (.method "Write" [⟨.int .uint v, constant⟩]) heap
        = .ok (.nothing, heap.set a (.bytes bytes'))
      ∧ bytes'.size = bytes.size
      ∧ ∀ k, bytes'.bit k = if k < 32 then afterWrite m v k (bytes.bit k) else bytes.bit k := by
  obtain ⟨construct, reset', read, write, hall, -, -, -, m, hm, hwrite⟩ := h.methods
  obtain ⟨fields, hobj⟩ := hk.isObject
  obtain ⟨types, stock, value, hd, htype, hparams, hbody⟩ := hwrite.body
  have hname : p.names memory = "memory" :=
    (hnames memory h.declares.lt_size).trans h.declares.name_eq
  have hvalue : p.names value = "value" := (hnames value hd.lt_size).trans hd.name_eq
  have hmem : write ∈ part x .methods := by
    rw [hall]
    simp
  have hserve : p.serve service object (.method (nameOf write) [⟨.int .uint v, constant⟩]) heap = _ :=
    h.answers.serve_method hobj hpath hmem (by unfold isCtor; rw [hwrite.kind_eq]; rfl) _
  rw [hwrite.name_eq] at hserve
  have hbind : bindParams (part write .params) [⟨.int .uint v, constant⟩]
      = .ok [⟨"value", .uint, .int .uint v⟩] := by
    rw [hparams]
    rfl
  have hps : ∀ q ∈ part write .params, q.kind.isOperator = false := by
    rw [hparams]
    intro q hq
    rw [List.mem_singleton.1 hq]
    rfl
  rw [runMethod_finished hwrite.kind_eq rfl hps hbind] at hserve
  have hwhole : Whole { p.context service object path with returns := none }
      { heap, locals := [⟨"value", .uint, .int .uint v⟩] } { memory } a bytes :=
    hk.whole rfl hname rfl hsize fun _ _ => rfl
  have hsees : Sees { p.context service object path with returns := none }
      { heap, locals := [⟨"value", .uint, .int .uint v⟩] } value (.int .uint v) := by
    refine sees_local (x := ⟨"value", .uint, .int .uint v⟩) ?_
    show Variables.get? [⟨"value", .uint, .int .uint v⟩] (p.names value) = _
    rw [hvalue]
    rfl
  obtain ⟨bytes', hruns, hsize', hbits⟩ := updateBytes_runs stock m ⟨hwhole, htype, hsees, hv⟩
  rw [← hbody] at hruns
  exact ⟨m, hm, bytes', hserve.trans (runBody_runs hruns rfl), hsize', hbits⟩

/-- The object answers a read. -/
theorem read_serves :
    ∃ m : ReadMasks, m.Of r ∧ ∃ bytes',
      p.serve service object (.method "Read" []) heap
        = .ok (.int .uint (bytes.word 0 &&& m.readable % 2 ^ 32 : Nat), heap.set a (.bytes bytes'))
      ∧ bytes'.size = bytes.size
      ∧ ∀ k, bytes'.bit k = if k < 32 then afterRead m k (bytes.bit k) else bytes.bit k := by
  obtain ⟨construct, reset', read, write, hall, -, -, ⟨m, hm, hread⟩, -⟩ := h.methods
  obtain ⟨fields, hobj⟩ := hk.isObject
  have hname : p.names memory = "memory" :=
    (hnames memory h.declares.lt_size).trans h.declares.name_eq
  have hmem : read ∈ part x .methods := by
    rw [hall]
    simp
  have hserve : p.serve service object (.method (nameOf read) []) heap = _ :=
    h.answers.serve_method hobj hpath hmem (by unfold isCtor; rw [hread.kind_eq]; rfl) []
  rw [hread.name_eq] at hserve
  have hbind : bindParams (part read .params) [] = .ok [] := by
    rw [hread.params]
    rfl
  have hps : ∀ q ∈ part read .params, q.kind.isOperator = false := by
    rw [hread.params]
    exact fun q hq => nomatch hq
  rw [runMethod_finished hread.kind_eq rfl hps hbind] at hserve
  have hwhole : Whole { p.context service object path with returns := some .uint } { heap }
      { memory } a bytes :=
    hk.whole rfl hname rfl hsize fun _ _ => rfl
  obtain ⟨types, stock, hbody⟩ := hread.body
  refine ⟨m, hm, ?_⟩
  by_cases h0 : m.changed % 2 ^ 32 = 0
  · rw [if_pos h0] at hbody
    have hreturns := plainRead_returns types stock (m := m) hwhole rfl
    rw [← hbody] at hreturns
    refine ⟨bytes, ?_, rfl, fun k => ?_⟩
    · rw [set_same hk.array]
      exact hserve.trans (runBody_returns hreturns)
    · by_cases hk32 : k < 32
      · rw [if_pos hk32, afterRead_of_unchanged h0 hk32]
      · rw [if_neg hk32]
  · rw [if_neg h0] at hbody
    obtain ⟨result, types', stock', hd, hstock, hcode⟩ := hbody
    have hresult : p.names result = "result" := (hnames result hd.lt_size).trans hd.name_eq
    obtain ⟨bytes', hreturns, hsize', hbits⟩ := reactingRead_returns types stock hwhole rfl hstock
      hresult (by rw [show Context.names _ _ = p.names memory from rfl, hname]; decide) rfl
    rw [← hcode] at hreturns
    exact ⟨bytes', hserve.trans (runBody_returns hreturns), hsize', hbits⟩

end HolderCode

-- ============================================================= finished

/-- The class of a register, rewritten. -/
def finishedHolder (r : Register) (reset : Nat) (allPublic : Bool) : Drafting NodeId :=
  Drafting.finish (registerClass r reset) allPublic

/-- The program that consists of one class of a tree. -/
def programOf (t : Tree) (root : NodeId) : Program := { names := t.name, root := t.shape root }

/-- The class of a register is built and finished. -/
theorem finishedHolder_run {d : Draft} (linked : d.tree.Mutual) (proper : r.Proper) (reset : Nat)
    (allPublic : Bool) :
    ∃ holder d' t memory x, finishedHolder r reset allPublic d = (.ok holder, d')
      ∧ HolderCode t r reset memory x
      ∧ (programOf d'.tree holder).resolve [r.typeName] = some (x.finished allPublic)
      ∧ ∀ j < t.size, (programOf d'.tree holder).names j = t.name j := by
  obtain ⟨t', x, memory, journal', hrun, hy, hcode⟩ :=
    registerClass_run linked proper reset d.journal
  obtain ⟨d', hfinish, hread, hkept⟩ := Drafting.finish_run hrun hy
    (by rw [hcode.kind_eq]; rfl) allPublic
  refine ⟨x.tag, d', t', memory, x.shape, hfinish, hcode, ?_, hkept⟩
  rw [resolve_root (p := programOf d'.tree x.tag), programOf, hread]
  rw [programOf, hread, nameOf_finished, hcode.name_eq]

/-- A write of software updates the low double word of a register bit by
bit: a bit of a writable field as the effect of the field demands, no
other bit at all. -/
theorem registerClass_write (r : Register) (reset : Nat) (allPublic : Bool) (d : Draft)
    (linked : d.tree.Mutual) (proper : r.Proper)
    (disjoint : r.fields.Pairwise fun f g => f.writable → g.writable → f.overlaps g = false) :
    ∃ holder d', finishedHolder r reset allPublic d = (.ok holder, d')
      ∧ ∀ (service : Service) (object a : Ref) (heap : Heap) (bytes : Bytes) (v : Nat)
        (constant : Bool), Keeps heap object [r.typeName] a bytes → bytes.size = r.bufferSize →
        v < 2 ^ 32 →
        ∃ bytes', (programOf d'.tree holder).serve service object
            (.method "Write" [⟨.int .uint v, constant⟩]) heap
              = .ok (.nothing, heap.set a (.bytes bytes'))
          ∧ bytes'.size = bytes.size
          ∧ (∀ f ∈ r.fields, f.writable → ∀ j < 32, f.covers j →
            bytes'.bit j = bitAfter f.onWrite (bytes.bit j) (v.testBit j))
          ∧ ∀ j, (32 ≤ j ∨ ∀ f ∈ r.fields, f.writable → f.covers j = false) →
            bytes'.bit j = bytes.bit j := by
  obtain ⟨holder, d', t, memory, x, hfinished, hcode, hpath, hnames⟩ :=
    finishedHolder_run linked proper reset allPublic
  refine ⟨holder, d', hfinished, fun service object a heap bytes v constant hkeeps hsize hv => ?_⟩
  have hword : 4 ≤ bytes.size := hsize ▸ Nat.le_max_right ..
  obtain ⟨m, hm, bytes', hserve, hsize', hbits⟩ :=
    hcode.write_serves hpath hnames hkeeps hword hv constant
  have : Std.Symm fun f g : Field => f.writable → g.writable → f.overlaps g = false :=
    ⟨fun f g h hg hf => Field.overlaps_comm f g ▸ h hf hg⟩
  refine ⟨bytes', hserve, hsize', fun f hf hw j hj hc => ?_, fun j hj => ?_⟩
  · rw [hbits j, if_pos hj]
    refine afterWrite_writable hm (Nat.lt_trans hj (by decide)) hf hw hc (fun g hg hgw hgc => ?_) ..
    -- two writable fields that share a bit are one
    refine Classical.byContradiction fun hne => ?_
    have hapart := disjoint.forall hg hf hne hgw hw
    rw [Field.overlaps_of_covers hgc hc] at hapart
    cases hapart
  · rw [hbits j]
    split
    · next hlt =>
      refine afterWrite_unwritable hm (Nat.lt_trans hlt (by decide)) ?_ ..
      exact hj.resolve_left (Nat.not_le_of_lt hlt)
    · rfl

/-- Written ones toggle the low bits of a register of two fields and clear
the others. -/
theorem registerClass_write_toggles :
    ∃ holder d', finishedHolder
        { name := "irq"
          fields := [{ name := "mask", low := 0, high := 3, onWrite := some .wot },
            { name := "pending", low := 4, high := 35, onWrite := some .woclr }] } 0 true {}
        = (.ok holder, d')
      ∧ ∃ bytes', (programOf d'.tree holder).serve ((programOf d'.tree holder).service 0) 0
          (.method "Write" [⟨.int .uint (0x31 : Nat), false⟩])
          [.object ["IrqType"] [⟨"memory", bytesType, .ref 1⟩],
            .bytes ⟨[0xff, 0, 0, 0xff], by decide⟩]
          = .ok (.nothing, [.object ["IrqType"] [⟨"memory", bytesType, .ref 1⟩], .bytes bytes'])
        ∧ (bytes'.bit 0 = false ∧ bytes'.bit 1 = true) ∧ bytes'.bit 5 = false
        ∧ bytes'.bit 6 = true := by
  obtain ⟨holder, d', hfinished, hwrite⟩ := registerClass_write
    { name := "irq"
      fields := [{ name := "mask", low := 0, high := 3, onWrite := some .wot },
        { name := "pending", low := 4, high := 35, onWrite := some .woclr }] }
    0 true {} Tree.mutual_empty (by unfold Register.Proper; decide) (by decide)
  obtain ⟨bytes', hserve, -, hbits, -⟩ := hwrite ((programOf d'.tree holder).service 0) 0 1
    [.object ["IrqType"] [⟨"memory", bytesType, .ref 1⟩], .bytes ⟨[0xff, 0, 0, 0xff], by decide⟩]
    ⟨[0xff, 0, 0, 0xff], by decide⟩ 0x31 false ⟨⟨_, rfl⟩, rfl, rfl⟩ rfl (by decide)
  have hmask := hbits _ (List.mem_cons_self ..) rfl
  have hpending := hbits _ (List.mem_cons_of_mem _ (List.mem_cons_self ..)) rfl
  refine ⟨holder, d', hfinished, bytes', hserve, ⟨?_, ?_⟩, ?_, ?_⟩
  · exact (hmask 0 (by decide) rfl).trans (by decide)
  · exact (hmask 1 (by decide) rfl).trans (by decide)
  · exact (hpending 5 (by decide) rfl).trans (by decide)
  · exact (hpending 6 (by decide) rfl).trans (by decide)

/-- Some readable field with the effect covers the bit. -/
theorem Field.any_readEffect (fields : List Field) {e : ReadEffect} (he : e ≠ .ruser) (j : Nat) :
    (fields.any fun f => f.readEffect == some e && f.covers j)
      = decide (∃ f ∈ fields, f.readable ∧ f.onRead = some e ∧ f.covers j) := by
  rw [Bool.eq_iff_iff, List.any_eq_true, decide_eq_true_iff]
  refine exists_congr fun f => and_congr_right fun _ => ?_
  unfold Field.readEffect
  rw [Bool.and_eq_true, beq_iff_eq, Option.filter_eq_some_iff, Bool.and_eq_true, bne_iff_ne]
  exact ⟨fun ⟨⟨hon, hr, _⟩, hc⟩ => ⟨hr, hon, hc⟩, fun ⟨hr, hon, hc⟩ => ⟨⟨hon, hr, he⟩, hc⟩⟩

/-- A read of software gives the readable bits of the low double word of a
register as they were, and sets and clears the bits that react to it. -/
theorem registerClass_read (r : Register) (reset : Nat) (allPublic : Bool) (d : Draft)
    (linked : d.tree.Mutual) (proper : r.Proper) :
    ∃ holder d', finishedHolder r reset allPublic d = (.ok holder, d')
      ∧ ∀ (service : Service) (object a : Ref) (heap : Heap) (bytes : Bytes),
        Keeps heap object [r.typeName] a bytes → bytes.size = r.bufferSize →
        ∃ (n : Nat) (bytes' : Bytes), (programOf d'.tree holder).serve service object
            (.method "Read" []) heap = .ok (.int .uint n, heap.set a (.bytes bytes'))
          ∧ (∀ j, n.testBit j = (decide (j < 32) && bytes.bit j
            && r.fields.any fun f => f.readable && f.covers j))
          ∧ bytes'.size = bytes.size
          ∧ ∀ j, bytes'.bit j =
            if j < 32 ∧ ∃ f ∈ r.fields, f.readable ∧ f.onRead = some .rset ∧ f.covers j then true
            else if j < 32 ∧ ∃ f ∈ r.fields, f.readable ∧ f.onRead = some .rclr ∧ f.covers j
              then false
            else bytes.bit j := by
  obtain ⟨holder, d', t, memory, x, hfinished, hcode, hpath, hnames⟩ :=
    finishedHolder_run linked proper reset allPublic
  refine ⟨holder, d', hfinished, fun service object a heap bytes hkeeps hsize => ?_⟩
  have hword : 4 ≤ bytes.size := hsize ▸ Nat.le_max_right ..
  obtain ⟨m, hm, bytes', hserve, hsize', hbits⟩ :=
    hcode.read_serves hpath hnames hkeeps hword
  refine ⟨_, bytes', hserve, fun j => ?_, hsize', fun j => ?_⟩
  · rw [Nat.testBit_and, Bytes.testBit_word, Nat.testBit_mod_two_pow]
    by_cases hj : j < 32
    · rw [hm.readable j (Nat.lt_trans hj (by decide)), decide_eq_true hj, Bool.true_and,
        Bool.true_and, Bool.true_and, Nat.mul_zero, Nat.zero_add]
    · rw [decide_eq_false hj, Bool.false_and, Bool.false_and, Bool.false_and, Bool.false_and]
  · rw [hbits j]
    by_cases hj : j < 32
    · have hbound : j < maskBits := Nat.lt_trans hj (by decide)
      rw [if_pos hj]
      simp only [hj, true_and]
      unfold afterRead
      rw [hm.set j hbound, hm.clear j hbound, Field.any_readEffect r.fields (by decide) j,
        Field.any_readEffect r.fields (by decide) j]
      by_cases hset : ∃ f ∈ r.fields, f.readable ∧ f.onRead = some .rset ∧ f.covers j
      · rw [if_pos hset, decide_eq_true hset, Bool.true_or]
      · rw [if_neg hset, decide_eq_false hset, Bool.false_or]
        by_cases hclear : ∃ f ∈ r.fields, f.readable ∧ f.onRead = some .rclr ∧ f.covers j
        · rw [if_pos hclear, decide_eq_true hclear, Bool.not_true, Bool.and_false]
        · rw [if_neg hclear, decide_eq_false hclear, Bool.not_false, Bool.and_true]
    · rw [if_neg hj, if_neg fun h => hj h.1, if_neg fun h => hj h.1]

/-- A read of a register with a field that is set and one that is cleared
by it; the latter shows what it was. -/
theorem registerClass_read_reacts :
    ∃ holder d', finishedHolder
        { name := "irq"
          fields := [{ name := "seen", low := 0, high := 0, onRead := some .rset },
            { name := "pending", low := 4, high := 35, onRead := some .rclr }] } 0 true {}
        = (.ok holder, d')
      ∧ ∃ (n : Nat) (bytes' : Bytes), (programOf d'.tree holder).serve
          ((programOf d'.tree holder).service 0) 0 (.method "Read" [])
          [.object ["IrqType"] [⟨"memory", bytesType, .ref 1⟩],
            .bytes ⟨[0xf2, 0, 0, 0xff], by decide⟩]
          = .ok (.int .uint n, [.object ["IrqType"] [⟨"memory", bytesType, .ref 1⟩], .bytes bytes'])
        ∧ (n.testBit 0 = false ∧ n.testBit 1 = false ∧ n.testBit 4 = true)
        ∧ bytes'.bit 0 = true ∧ bytes'.bit 1 = true ∧ bytes'.bit 4 = false := by
  obtain ⟨holder, d', hfinished, hread⟩ := registerClass_read
    { name := "irq"
      fields := [{ name := "seen", low := 0, high := 0, onRead := some .rset },
        { name := "pending", low := 4, high := 35, onRead := some .rclr }] }
    0 true {} Tree.mutual_empty (by unfold Register.Proper; decide)
  obtain ⟨n, bytes', hserve, hvalue, -, hbits⟩ := hread ((programOf d'.tree holder).service 0) 0 1
    [.object ["IrqType"] [⟨"memory", bytesType, .ref 1⟩], .bytes ⟨[0xf2, 0, 0, 0xff], by decide⟩]
    ⟨[0xf2, 0, 0, 0xff], by decide⟩ ⟨⟨_, rfl⟩, rfl, rfl⟩ rfl
  refine ⟨holder, d', hfinished, n, bytes', hserve, ⟨?_, ?_, ?_⟩, ?_, ?_, ?_⟩
  · exact (hvalue 0).trans (by decide)
  · exact (hvalue 1).trans (by decide)
  · exact (hvalue 4).trans (by decide)
  · exact (hbits 0).trans (by decide)
  · exact (hbits 1).trans (by decide)
  · exact (hbits 4).trans (by decide)

end RegisterMap.Peripheral
