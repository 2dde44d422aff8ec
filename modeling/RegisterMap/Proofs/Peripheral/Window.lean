/-
Code that works on a byte buffer, run. A `Window` is what such code finds
when it runs: the declaration of the buffer stands for a byte array, and
where the buffer is seen through a window, the declaration of the start
stands for its offset. Reading a byte gives the byte; storing one changes
that byte and nothing else, and leaves a window on the changed array.
-/
import RegisterMap.Proofs.Exec.Stepping
import RegisterMap.Peripheral.Buffer

namespace RegisterMap.Peripheral

open Code Exec

-- ============================================================== arrays

/-- A change of an array changes no field. -/
theorem fields_set_bytes {heap : Heap} {r : Ref} {b : Bytes} (h : heap[r]? = some (.bytes b))
    (b' : Bytes) (o : Ref) : Heap.fields (heap.set r (.bytes b')) o = heap.fields o := by
  unfold Heap.fields
  by_cases he : r = o
  · subst he
    have hlt : r < heap.length := (List.getElem?_eq_some_iff.1 h).1
    rw [List.getElem?_set, if_pos rfl, if_pos hlt, h]
  · rw [List.getElem?_set, if_neg he]

theorem getElem?_set_bytes {heap : Heap} {r : Ref} {b : Bytes} (h : heap[r]? = some (.bytes b))
    (b' : Bytes) : (heap.set r (.bytes b'))[r]? = some (.bytes b') := by
  have hlt : r < heap.length := (List.getElem?_eq_some_iff.1 h).1
  rw [List.getElem?_set, if_pos rfl, if_pos hlt]

theorem set_same {heap : Heap} {r : Ref} {b : Bytes} (h : heap[r]? = some (.bytes b)) :
    heap.set r (.bytes b) = heap := by
  obtain ⟨hlt, hget⟩ := List.getElem?_eq_some_iff.1 h
  rw [← hget]
  exact List.set_getElem_self hlt

-- ============================================================= windows

/-- What code on a buffer finds in a store. -/
structure Window (ctx : Context) (s : Store) (b : Buffer) (r : Ref) (bytes : Bytes)
    (span : Nat) : Prop where
  memory : Sees ctx s b.memory (.ref r)
  start : ∀ d, b.start = some d → Sees ctx s d (.int .long span)
  origin : b.start = none → span = 0
  array : s.heap[r]? = some (.bytes bytes)

namespace Window

variable {ctx : Context} {s : Store} {b : Buffer} {r : Ref} {bytes bytes' : Bytes} {span : Nat}

/-- The array has changed. -/
theorem set (h : Window ctx s b r bytes span) (bytes' : Bytes) :
    Window ctx { s with heap := s.heap.set r (.bytes bytes') } b r bytes' span where
  memory := h.memory.heap (fields_set_bytes h.array ..)
  start := fun d hd => (h.start d hd).heap (fields_set_bytes h.array ..)
  origin := h.origin
  array := getElem?_set_bytes h.array bytes'

/-- Another variable has been declared. -/
theorem declare (h : Window ctx s b r bytes span) {x : Variable}
    (hm : x.name ≠ ctx.names b.memory) (hs : ∀ d, b.start = some d → x.name ≠ ctx.names d) :
    Window ctx { s with locals := x :: s.locals } b r bytes span where
  memory := h.memory.declare hm
  start := fun d hd => (h.start d hd).declare (hs d hd)
  origin := h.origin
  array := h.array

-- ============================================================ elements

variable (types : NodeId → TypeRef) (stock : NodeId → List Shape) {offset : Nat}

/-- The code of a position in the buffer. -/
def position (b : Buffer) (offset : Nat) : List Shape :=
  match b.start with
  | some start => (Sketch.binary .add (.use start) (.int offset)).code types stock
  | none => (Sketch.int offset).code types stock

theorem code_byteAt (b : Buffer) (offset : Nat) :
    (b.byteAt offset).code types stock
      = [.above (.index .byte)
        [[.leaf (.varRef b.memory (types b.memory))], position types stock b offset]] := by
  unfold Buffer.byteAt position
  cases b.start <;> rfl

theorem position_gives (h : Window ctx s b r bytes span) (hi : span + offset < bytes.size) :
    ∃ f p, Gives ctx s (position types stock b offset) f (.int p (span + offset : Nat)) := by
  have hbound := bytes.bounded
  have hoff : offset < 2 ^ 31 := by
    unfold Bytes.size at hi
    omega
  have hint : Gives ctx s ((Sketch.int offset).code types stock) _ _ := gives_int false hoff
  unfold position
  cases hb : b.start with
  | none =>
    refine ⟨(.int, some offset), .int, ?_⟩
    rw [h.origin hb, Nat.zero_add]
    exact hint
  | some d =>
    have huse := gives_use (types d) (h.start d hb)
    by_cases h0 : offset = 0
    · refine ⟨(types d, none), .long, ?_⟩
      rw [h0] at hint ⊢
      exact huse.left _ hint rfl
    · have hlim : span + offset < Primitive.limit .long := by
        have : Primitive.limit .long = 2 ^ 63 := by decide
        unfold Bytes.size at hi
        omega
      have hsurv : survives .add (types d, none) (.int, some offset) = none := by
        unfold survives
        simp [h0]
      refine ⟨(Operator.add.typeOver (types d), none), .long, ?_⟩
      exact huse.binary _ hint hsurv Operator.noConfusion Operator.noConfusion
        (operate_arith (fun hc => nomatch hc) (fun _ => by decide) rfl rfl rfl
          (Operator.arith_add hlim))

theorem element_target (h : Window ctx s b r bytes span) (hi : span + offset < bytes.size) :
    ∃ m, denote ((b.byteAt offset).code types stock) = [m]
      ∧ m.target ctx s = .ok (.element r (span + offset : Nat), s)
      ∧ m.constant = false ∧ m.value ctx s = (Target.element r (span + offset : Nat)).load ctx s := by
  obtain ⟨f, p, hpos⟩ := h.position_gives types stock hi
  obtain ⟨i, hi, -, hiv⟩ := hpos.denote
  obtain ⟨a, ha, -, hav⟩ := (gives_use (types b.memory) h.memory).denote
  rw [code_byteAt]
  unfold Shape.above
  rw [denote_node rfl, List.map_cons, List.map_singleton, ha, hi]
  have htarget : ((do
      let r ← a.ref ctx
      return Target.element r (← i.int ctx)) : Run Target) s
      = .ok (.element r (span + offset : Nat), s) := by
    rw [Run.bind_run (ref_run hav), Run.bind_run (int_run hiv)]
    rfl
  refine ⟨_, rfl, htarget, rfl, ?_⟩
  exact Run.bind_run htarget

theorem load_element (h : Window ctx s b r bytes span) {i : Nat} (hi : i < bytes.size)
    (hf : ctx.fence r i = true) :
    (Target.element r i).load ctx s = .ok (.int .byte (bytes.get i).toNat, s) := by
  unfold Target.load
  dsimp only
  rw [h.array]
  dsimp only
  rw [if_pos ⟨Int.natCast_nonneg i, Int.ofNat_lt.2 hi, hf⟩]
  rfl

/-- A byte of the buffer. -/
theorem byteAt_gives (h : Window ctx s b r bytes span) (hi : span + offset < bytes.size)
    (hf : ctx.fence r (span + offset) = true) :
    Gives ctx s ((b.byteAt offset).code types stock) (.byte, none)
      (.int .byte (bytes.get (span + offset)).toNat) := by
  obtain ⟨m, hm, -, hconst, hval⟩ := h.element_target types stock hi
  have hload := h.load_element hi hf
  rw [code_byteAt] at hm ⊢
  unfold Shape.above at hm
  rw [denote_node rfl] at hm
  obtain ⟨rfl, -⟩ := List.cons.inj hm
  exact gives_over rfl ⟨rfl, rfl⟩ hconst (hval.trans hload)

/-- The bits of a byte that a mask selects. -/
theorem masked_counts (h : Window ctx s b r bytes span) {mask : Nat}
    (hi : span + offset < bytes.size) (hf : ctx.fence r (span + offset) = true)
    (hmask : mask < 256) :
    Counts ctx s ((masked (b.byteAt offset) mask).code types stock) [.byte, .uint]
      ((bytes.get (span + offset)).toNat &&& mask) := by
  have hbyte := (bytes.get (span + offset)).isLt
  have htype := maskType_of_lt (Nat.lt_trans hmask (by decide : 256 < 2 ^ 32))
  refine counts_masked (q := .uint) (h.byteAt_gives types stock hi hf) hbyte
    (Nat.lt_trans hmask (by decide)) (by rw [htype]; rfl) (by decide) (fun hall => ?_)
    ⟨by simp, by simp⟩ fun _ => by simp
  have hones : mask = 2 ^ 8 - 1 := (Option.some.inj hall).symm
  rw [hones]
  exact Nat.and_two_pow_sub_one_of_lt_two_pow hbyte

theorem store_element (h : Window ctx s b r bytes span) {i n : Nat} {p : Primitive} {o : Operand}
    (hi : i < bytes.size) (hf : ctx.fence r i = true)
    (ho : o.value.settle .byte o.constant = .ok (.int p n)) :
    (Target.element r i).store ctx o s
      = .ok (.int p n, { s with
        heap := s.heap.set r (.bytes (bytes.set i (BitVec.ofNat 8 n))) }) := by
  unfold Target.store
  dsimp only
  rw [h.array]
  dsimp only
  rw [if_pos ⟨Int.natCast_nonneg i, Int.ofNat_lt.2 hi, hf⟩, ho]
  dsimp only
  rw [BitVec.ofInt_natCast]
  rfl

/-- The low byte of a value is stored. -/
theorem storeLow_runs (h : Window ctx s b r bytes span) {e : Sketch} {f : Facts}
    {p : Primitive} {n : Nat} (hi : span + offset < bytes.size)
    (hf : ctx.fence r (span + offset) = true)
    (he : Gives ctx s (e.code types stock) f (.int p n)) :
    Runs ctx ((b.storeLow offset e).code types stock) s { s with
      heap := s.heap.set r (.bytes (bytes.set (span + offset) (BitVec.ofNat 8 n))) } := by
  obtain ⟨m, hm, htarget, -, -⟩ := h.element_target types stock hi
  have hcast := gives_cast (p := .byte) he rfl
  rw [Primitive.wrap_unsigned rfl] at hcast
  have hbyte : (BitVec.ofNat 8 n) = BitVec.ofNat 8 (n % 2 ^ 8) := by
    apply BitVec.eq_of_toNat_eq
    rw [BitVec.toNat_ofNat, BitVec.toNat_ofNat, Nat.mod_mod]
  rw [hbyte]
  exact runs_assign hm htarget hcast (h.store_element hi hf rfl)

/-- A constant is stored. -/
theorem storeConstant_runs (h : Window ctx s b r bytes span) {n : Nat}
    (hi : span + offset < bytes.size) (hf : ctx.fence r (span + offset) = true) (hn : n < 256) :
    Runs ctx ((b.storeConstant offset n).code types stock) s { s with
      heap := s.heap.set r (.bytes (bytes.set (span + offset) (BitVec.ofNat 8 n))) } := by
  obtain ⟨m, hm, htarget, -, -⟩ := h.element_target types stock hi
  have hlim : n < Primitive.limit .int := Nat.lt_trans hn (by decide)
  have hlit : Gives ctx s ((Sketch.literal n false false true).code types stock) _ _ :=
    gives_literal true hlim
  have hsettle : (Value.int .int n).settle .byte true = .ok (.int .byte n) := by
    have hholds : Primitive.holds .byte n = true :=
      Primitive.holds_natCast (Nat.lt_of_lt_of_le hn (by decide))
    unfold Value.settle
    dsimp only
    rw [if_neg (by decide), hholds]
    rfl
  exact runs_assign hm htarget hlit (h.store_element hi hf hsettle)

end Window

end RegisterMap.Peripheral
