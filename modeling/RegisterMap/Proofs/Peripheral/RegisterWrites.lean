/-
The body of a register's write, run. A byte is updated by an expression
whose operands are of several types, and a mask of a whole byte is left
out of it; only the low byte of its value matters, and bit by bit that is
what the effects of the write demand (`afterWrite`).
-/
import RegisterMap.Peripheral.Holder
import RegisterMap.Proofs.Peripheral.DoubleWord
import RegisterMap.Proofs.Register.Masks

namespace RegisterMap.Peripheral

open Code Exec

/-- What a write makes of a bit that has the effect, from its old value and
the written one. -/
def bitAfter (effect : Option WriteEffect) (old new : Bool) : Bool :=
  match effect with
  | none | some .wuser => new
  | some .woset => old || new
  | some .woclr => old && !new
  | some .wot => old ^^ new
  | some .wzs => old || !new
  | some .wzc => old && new
  | some .wzt => old ^^ !new
  | some .wclr => false
  | some .wset => true

variable {ctx : Context} {s : Store} {b : Buffer} {r : Ref} {bytes : Bytes} {span i : Nat}
  {value : NodeId} {v mask : Nat} (types : NodeId → TypeRef) (stock : NodeId → List Shape)

-- ======================================================== written words

/-- A byte of a written word, in the low byte. -/
theorem shifted_gives {types : NodeId → TypeRef} (htype : types value = .uint)
    (h : Sees ctx s value (.int .uint v)) (hv : v < 2 ^ 32) (hi : i < 4) :
    GivesWord ctx s ((incoming value i).code types stock) (v >>> (i * 8)) := by
  have huse : GivesWord ctx s ((Sketch.use value).code types stock) v := by
    have := gives_use (types value) h
    rw [htype] at this
    refine ⟨?_, hv⟩
    show Gives ctx s [.leaf (.varRef value (types value))] _ _
    rw [htype]
    exact this
  have hcode : (incoming value i).code types stock = [.above (.binary .shr .uint)
      [(Sketch.use value).code types stock,
        [.leaf (.intLit (i * 8) (literalType false (2 ^ 31 ≤ i * 8)) false)]]] := by
    show [Shape.above (.binary .shr (Operator.shr.typeOver (types value))) _] = _
    rw [htype]
    rfl
  rw [hcode]
  exact huse.shr (by omega)

/-- What code that writes a register finds. -/
structure Writing (ctx : Context) (s : Store) (types : NodeId → TypeRef) (b : Buffer) (r : Ref)
    (bytes : Bytes) (value : NodeId) (v : Nat) : Prop extends Whole ctx s b r bytes where
  type_eq : types value = .uint
  sees : Sees ctx s value (.int .uint v)
  bound : v < 2 ^ 32

namespace Writing

variable {types}

/-- The array has changed. -/
theorem set (h : Writing ctx s types b r bytes value v) {bytes' : Bytes}
    (hsize : bytes'.size = bytes.size) :
    Writing ctx { s with heap := s.heap.set r (.bytes bytes') } types b r bytes' value v :=
  ⟨h.toWhole.set hsize, h.type_eq, h.sees.heap (fields_set_bytes h.window.array ..), h.bound⟩

theorem incoming_gives (h : Writing ctx s types b r bytes value v) (hi : i < 4) :
    GivesWord ctx s ((incoming value i).code types stock) (v >>> (i * 8)) :=
  shifted_gives stock h.type_eq h.sees h.bound hi

theorem inverted_gives (h : Writing ctx s types b r bytes value v) (hi : i < 4) :
    GivesWord ctx s ((inverted value i).code types stock) (v >>> (i * 8) ^^^ 0xff) := by
  have hcode : (inverted value i).code types stock = [.above (.binary .xor .uint)
      [(incoming value i).code types stock,
        [.leaf (.intLit 0xff (literalType true (2 ^ 32 ≤ 0xff)) true)]]] := by
    show [Shape.above (.binary .xor (Operator.xor.typeOver (Operator.shr.typeOver (types value)))) _]
      = _
    rw [h.type_eq]
    rfl
  rw [hcode]
  exact (h.incoming_gives stock hi).xor_mask (by decide) (by decide)

/-- A byte of the buffer combined with bits of the written value. -/
theorem combined_gives (h : Writing ctx s types b r bytes value v) (hi : i < 4)
    {op : Operator} {f : Nat → Nat → Nat} (hop : op = .or ∨ op = .and ∨ op = .xor)
    (hcomputes : op.Computes f) {e : Sketch} {n : Nat}
    (he : GivesWord ctx s (e.code types stock) n) :
    Gives ctx s ((Sketch.binary op (b.byteAt i) e).code types stock) (.byte, none)
        (.int .uint (f (bytes.get i).toNat n : Nat))
      ∧ f (bytes.get i).toNat n < 2 ^ 32 := by
  have hbyte := h.byte_gives types stock hi
  have hlt : (bytes.get i).toNat < 2 ^ 32 :=
    Nat.lt_trans (bytes.get i).isLt (by decide)
  have hcode : (Sketch.binary op (b.byteAt i) e).code types stock
      = [.above (.binary op .byte) [(b.byteAt i).code types stock, e.code types stock]] := by
    show [Shape.above (.binary op (op.typeOver (Term.typeOf ((b.byteAt i).code types stock)))) _] = _
    rw [Window.code_byteAt]
    rcases hop with rfl | rfl | rfl <;> rfl
  have hsurv : survives op (.byte, none) (.uint, none) = none := by
    rcases hop with rfl | rfl | rfl <;> rfl
  obtain ⟨hval, hbound⟩ := hcomputes .uint _ n hlt he.2
  rw [hcode]
  refine ⟨hbyte.binary .byte he.1 hsurv ?_ ?_ (operate_arith (fun hc => nomatch hc)
    (fun hc => nomatch hc) (t := .uint) rfl ?_ ?_ hval), hbound⟩
  all_goals rcases hop with rfl | rfl | rfl <;> first | rfl | exact Operator.noConfusion

/-- What the effect on the bits of a byte gives to its new value. -/
theorem effect_counts (h : Writing ctx s types b r bytes value v) (hi : i < 4)
    (hmask : mask < 256) (h0 : mask ≠ 0) (effect : Option WriteEffect) :
    match bitsAfterWrite b value i effect mask with
    | none => ∀ old new, bitAfter effect old new = false
    | some e => ∃ n, Counts ctx s (e.code types stock) [.uint] n
      ∧ ∀ j < 8, n.testBit j = (mask.testBit j
        && bitAfter effect ((bytes.get i).toNat.testBit j) (v.testBit (8 * i + j))) := by
  have hin : ∀ j, (v >>> (i * 8)).testBit j = v.testBit (8 * i + j) := fun j => by
    rw [Nat.testBit_shiftRight, Nat.mul_comm]
  have hinv : ∀ j < 8, (v >>> (i * 8) ^^^ 0xff).testBit j = !v.testBit (8 * i + j) := by
    intro j hj
    rw [Nat.testBit_xor, hin, show 0xff = 2 ^ 8 - 1 from rfl, Nat.testBit_two_pow_sub_one,
      decide_eq_true hj, Bool.xor_true]
  have hincoming := h.incoming_gives stock hi
  have hinverted := h.inverted_gives stock hi
  have hpart : ∀ {op : Operator} {f : Nat → Nat → Nat} {e : Sketch} {n : Nat},
      op = .or ∨ op = .and ∨ op = .xor → op.Computes f → GivesWord ctx s (e.code types stock) n →
      ∃ n', Counts ctx s ((masked (.binary op (b.byteAt i) e) mask).code types stock) [.uint] n'
        ∧ ∀ j < 8, n'.testBit j = (mask.testBit j && (f (bytes.get i).toNat n).testBit j) := by
    intro op f e n hop hcomputes he
    obtain ⟨hg, hlt⟩ := h.combined_gives stock hi hop hcomputes he
    exact gives_maskedLow (Or.inl rfl) hg hlt hmask h0 _
  have hplain : ∃ n, Counts ctx s ((masked (incoming value i) mask).code types stock) [.uint] n
      ∧ ∀ j < 8, n.testBit j = (mask.testBit j && (v >>> (i * 8)).testBit j) :=
    gives_maskedLow (Or.inr rfl) hincoming.1 hincoming.2 hmask h0 _
  cases effect with
  | none =>
    obtain ⟨n, hc, hbits⟩ := hplain
    exact ⟨n, hc, fun j hj => by rw [hbits j hj, hin]; rfl⟩
  | some effect =>
    cases effect with
    | wuser =>
      obtain ⟨n, hc, hbits⟩ := hplain
      exact ⟨n, hc, fun j hj => by rw [hbits j hj, hin]; rfl⟩
    | wclr => exact fun _ _ => rfl
    | wset =>
      have hcount : Counts ctx s ((Sketch.mask mask).code types stock) [maskType mask] mask :=
        counts_mask (Nat.lt_trans hmask (by decide))
      rw [maskType_of_lt (Nat.lt_trans hmask (by decide : 256 < 2 ^ 32))] at hcount
      exact ⟨mask, hcount, fun j _ => (Bool.and_true _).symm⟩
    | woset =>
      obtain ⟨n, hc, hbits⟩ := hpart (Or.inl rfl) Operator.computes_or hincoming
      exact ⟨n, hc, fun j hj => by rw [hbits j hj, Nat.testBit_or, hin]; rfl⟩
    | woclr =>
      obtain ⟨n, hc, hbits⟩ := hpart (Or.inr (Or.inl rfl)) Operator.computes_and hinverted
      exact ⟨n, hc, fun j hj => by rw [hbits j hj, Nat.testBit_and, hinv j hj]; rfl⟩
    | wot =>
      obtain ⟨n, hc, hbits⟩ := hpart (Or.inr (Or.inr rfl)) Operator.computes_xor hincoming
      exact ⟨n, hc, fun j hj => by rw [hbits j hj, Nat.testBit_xor, hin]; rfl⟩
    | wzs =>
      obtain ⟨n, hc, hbits⟩ := hpart (Or.inl rfl) Operator.computes_or hinverted
      exact ⟨n, hc, fun j hj => by rw [hbits j hj, Nat.testBit_or, hinv j hj]; rfl⟩
    | wzc =>
      obtain ⟨n, hc, hbits⟩ := hpart (Or.inr (Or.inl rfl)) Operator.computes_and hincoming
      exact ⟨n, hc, fun j hj => by rw [hbits j hj, Nat.testBit_and, hin]; rfl⟩
    | wzt =>
      obtain ⟨n, hc, hbits⟩ := hpart (Or.inr (Or.inr rfl)) Operator.computes_xor hinverted
      exact ⟨n, hc, fun j hj => by rw [hbits j hj, Nat.testBit_xor, hinv j hj]; rfl⟩

/-- What one mask gives to the new value of a byte. -/
def partOf (b : Buffer) (value : NodeId) (i : Nat) (p : Option WriteEffect × Nat) : Option Sketch :=
  if p.2 = 0 then none else bitsAfterWrite b value i p.1 p.2

theorem part_counts (h : Writing ctx s types b r bytes value v) (hi : i < 4)
    {p : Option WriteEffect × Nat} (hp : p.2 < 256) :
    match partOf b value i p with
    | none => ∀ j, (p.2.testBit j
        && bitAfter p.1 ((bytes.get i).toNat.testBit j) (v.testBit (8 * i + j))) = false
    | some e => ∃ n, Counts ctx s (e.code types stock) [.uint] n
      ∧ ∀ j < 8, n.testBit j = (p.2.testBit j
        && bitAfter p.1 ((bytes.get i).toNat.testBit j) (v.testBit (8 * i + j))) := by
  unfold partOf
  by_cases h0 : p.2 = 0
  · rw [if_pos h0]
    intro j
    rw [h0, Nat.zero_testBit, Bool.false_and]
  · rw [if_neg h0]
    have heffect := h.effect_counts stock hi hp h0 p.1
    cases hpart : bitsAfterWrite b value i p.1 p.2 with
    | none =>
      rw [hpart] at heffect
      intro j
      rw [heffect, Bool.and_false]
    | some e =>
      rw [hpart] at heffect
      exact heffect

/-- The parts of the new value of a byte, put together. -/
theorem parts_counts (h : Writing ctx s types b r bytes value v) (hi : i < 4) {masks : WriteMasks}
    (hmasks : ∀ p ∈ masks, p.2 < 256) {e : Sketch} {n : Nat}
    (he : Counts ctx s (e.code types stock) [.byte, .uint] n) :
    ∃ n', Counts ctx s (((masks.filterMap (partOf b value i)).foldl (.binary .or) e).code types stock)
        [.byte, .uint] n'
      ∧ ∀ j < 8, n'.testBit j = (n.testBit j || masks.any fun p => p.2.testBit j
        && bitAfter p.1 ((bytes.get i).toNat.testBit j) (v.testBit (8 * i + j))) := by
  induction masks generalizing e n with
  | nil => exact ⟨n, he, fun j _ => (Bool.or_false _).symm⟩
  | cons p masks ih =>
    have hrest := fun p hp => hmasks p (List.mem_cons_of_mem _ hp)
    have hpart := h.part_counts stock hi (hmasks p (List.mem_cons_self ..))
    cases hsome : partOf b value i p with
    | none =>
      rw [hsome] at hpart
      obtain ⟨n', hc, hn'⟩ := ih hrest he
      refine ⟨n', ?_, fun j hj => ?_⟩
      · rw [List.filterMap_cons_none hsome]
        exact hc
      · rw [hn' j hj, List.any_cons, hpart j, Bool.false_or]
    | some part =>
      rw [hsome] at hpart
      obtain ⟨m, hm, hbits⟩ := hpart
      have hor : Counts ctx s ((Sketch.binary .or e part).code types stock) [.byte, .uint]
          (n ||| m) := he.or hm (by decide)
      obtain ⟨n', hc, hn'⟩ := ih hrest hor
      refine ⟨n', ?_, fun j hj => ?_⟩
      · rw [List.filterMap_cons_some hsome, List.foldl_cons]
        exact hc
      · rw [hn' j hj, Nat.testBit_or, hbits j hj, List.any_cons, Bool.or_assoc]

end Writing

-- ============================================================== updates

variable {types}

/-- What a write makes of bit `k`. -/
def afterWrite (m : WriteMasks) (v k : Nat) (old : Bool) : Bool :=
  (old && !m.any fun p => p.2.testBit k)
    || m.any fun p => p.2.testBit k && bitAfter p.1 old (v.testBit k)

theorem testBit_concerned (m : WriteMasks) (j : Nat) :
    m.concerned.testBit j = m.any fun p => p.2.testBit j := by
  have hfold : ∀ n, (m.foldl (fun all (p : Option WriteEffect × Nat) => all ||| p.2) n).testBit j
      = (n.testBit j || m.any fun p => p.2.testBit j) := by
    induction m with
    | nil => exact fun n => (Bool.or_false _).symm
    | cons p m ih =>
      intro n
      rw [List.foldl_cons, ih, Nat.testBit_or, List.any_cons, Bool.or_assoc]
  exact (hfold 0).trans (by rw [Nat.zero_testBit, Bool.false_or])

theorem concerned_lt {m : WriteMasks} (h : ∀ p ∈ m, p.2 < 256) : m.concerned < 256 := by
  refine Nat.lt_pow_two_of_testBit (n := 8) _ fun j hj => ?_
  rw [testBit_concerned, List.any_eq_false]
  intro p hp
  rw [Nat.testBit_lt_two_pow (Nat.lt_of_lt_of_le (h p hp)
    (Nat.pow_le_pow_right (by decide : 2 > 0) hj))]
  exact Bool.false_ne_true

theorem inByte_lt (m : WriteMasks) (i : Nat) : ∀ p ∈ m.inByte i, p.2 < 256 := by
  intro p hp
  obtain ⟨q, -, rfl⟩ := List.mem_map.1 hp
  exact Nat.mod_lt _ (by decide)

/-- The bits of a byte that the masks select, and those of the masks. -/
theorem any_inByte (m : WriteMasks) (g : Option WriteEffect → Bool) (k : Nat) :
    ((m.inByte (k / 8)).any fun p => p.2.testBit (k % 8) && g p.1)
      = m.any fun p => p.2.testBit k && g p.1 := by
  unfold WriteMasks.inByte
  rw [List.any_map]
  congr 1
  funext p
  refine congrArg (· && g p.1) ?_
  exact (testBit_byteAt p.2 (k / 8) (Nat.mod_lt k (by decide))).trans (by rw [Nat.div_add_mod])

theorem concerned_inByte (m : WriteMasks) (k : Nat) :
    (m.inByte (k / 8)).concerned.testBit (k % 8) = m.any fun p => p.2.testBit k := by
  rw [testBit_concerned]
  have := any_inByte m (fun _ => true) k
  simpa only [Bool.and_true] using this

/-- A bit that no mask selects stays as it is. -/
theorem afterWrite_of_none {m : WriteMasks} {v k : Nat} {old : Bool}
    (h : (m.any fun p => p.2.testBit k) = false) : afterWrite m v k old = old := by
  have hsub : (m.any fun p => p.2.testBit k && bitAfter p.1 old (v.testBit k)) = false := by
    rw [List.any_eq_false] at h ⊢
    intro p hp
    rw [Bool.eq_false_iff.2 (h p hp), Bool.false_and]
    exact Bool.false_ne_true
  unfold afterWrite
  rw [h, hsub, Bool.not_false, Bool.and_true, Bool.or_false]

/-- Byte `i` is updated as the effects of a write demand. -/
theorem updateByte_runs (m : WriteMasks) (h : Writing ctx s types b r bytes value v) (hi : i < 4) :
    ∃ bytes', Runs ctx ((updateByte b m value i).elim [] (Sketch.code types stock)) s
        { s with heap := s.heap.set r (.bytes bytes') }
      ∧ bytes'.size = bytes.size
      ∧ ∀ k, bytes'.bit k
        = if k / 8 = i then afterWrite m v k (bytes.bit k) else bytes.bit k := by
  obtain ⟨hsize, hfence⟩ := h.reach hi
  have hlt := concerned_lt (inByte_lt m i)
  have hparts : updateByte b m value i = if (m.inByte i).concerned = 0 then none
    else some (b.storeLow i (((m.inByte i).filterMap (Writing.partOf b value i)).foldl (.binary .or)
      (masked (b.byteAt i) (0xff - (m.inByte i).concerned)))) := rfl
  rw [hparts]
  by_cases h0 : (m.inByte i).concerned = 0
  · -- no bit of the byte is concerned, and none changes
    rw [if_pos h0]
    refine ⟨bytes, ?_, rfl, fun k => ?_⟩
    · rw [set_same h.window.array]
      exact runs_nil s
    · by_cases hk : k / 8 = i
      · rw [if_pos hk, afterWrite_of_none]
        rw [← concerned_inByte, hk, h0, Nat.zero_testBit]
      · rw [if_neg hk]
  · rw [if_neg h0]
    have hlow : 0xff - (m.inByte i).concerned < 256 := by omega
    have hkept := h.window.masked_counts types stock hsize hfence hlow
    rw [Nat.zero_add] at hkept
    obtain ⟨n, ⟨f, p, hg, -⟩, hn⟩ := h.parts_counts stock hi (inByte_lt m i) hkept
    have hruns := h.window.storeLow_runs types stock hsize hfence hg
    rw [Nat.zero_add] at hruns hsize
    refine ⟨_, hruns, Bytes.size_set .., fun k => ?_⟩
    rw [bit_set hsize]
    by_cases hk : k / 8 = i
    · subst hk
      have hj : k % 8 < 8 := Nat.mod_lt k (by decide)
      rw [if_pos rfl, if_pos rfl, BitVec.getLsbD_ofNat, decide_eq_true hj, Bool.true_and, hn _ hj,
        Nat.testBit_and, Layout.testBit_complement hlt hj, concerned_inByte, Nat.div_add_mod]
      unfold afterWrite
      congr 1
      exact any_inByte m (fun e => bitAfter e (bytes.bit k) (v.testBit k)) k
    · rw [if_neg hk, if_neg hk]

/-- The body of a write updates the low double word. -/
theorem updateBytes_runs (m : WriteMasks) (h : Writing ctx s types b r bytes value v) :
    ∃ bytes', Runs ctx
        (Sketch.codeList types stock (wordBytes.filterMap (updateByte b m value))).flatten s
        { s with heap := s.heap.set r (.bytes bytes') }
      ∧ bytes'.size = bytes.size
      ∧ ∀ k, bytes'.bit k = if k < 32 then afterWrite m v k (bytes.bit k) else bytes.bit k := by
  refine runs_wordBytes types stock (fun k => afterWrite m v k) h.toWhole fun i hi bytes' hsize => ?_
  obtain ⟨bytes'', hruns, hsize', hbits⟩ := updateByte_runs stock m (h.set hsize) hi
  dsimp only at hruns
  rw [List.set_set] at hruns
  exact ⟨bytes'', hruns, hsize'.trans hsize, hbits⟩

-- ================================================================ masks

/-- The masks of a write have the bits of the writable fields, each field
in the mask of its effect. -/
def WriteMasks.Of (m : WriteMasks) (r : Register) : Prop :=
  ∀ j < maskBits, ∀ g : Option WriteEffect → Bool,
    (m.any fun p => p.2.testBit j && g p.1)
      = r.fields.any fun f => (f.writable && f.covers j) && g f.writeEffect

/-- A writable field is plain or has one of the effects. -/
theorem writable_eq (f : Field) (g : Option WriteEffect → Bool) :
    (f.isPlainWritable && g none || writeEffects.any fun e => f.writeEffect == some e && g (some e))
      = (f.writable && g f.writeEffect) := by
  unfold Field.isPlainWritable Field.writeEffect
  cases f.writable with
  | false => cases f.onWrite <;> rfl
  | true =>
    cases f.onWrite with
    | none => exact Bool.or_false _
    | some e => cases e <;> exact Bool.or_false _

theorem effectMasks_run {r : Register} (h : r.Proper) (effects : List WriteEffect) :
    ∃ m : WriteMasks,
      (effects.mapM fun effect => do
        return (some effect, ← r.writeEffectMask effect)) = (.ok m : Except Failure WriteMasks)
      ∧ ∀ j < maskBits, ∀ g : Option WriteEffect → Bool,
        (m.any fun p => p.2.testBit j && g p.1)
          = effects.any fun e => (r.fields.any fun f => f.writeEffect == some e && f.covers j)
            && g (some e) := by
  induction effects with
  | nil => exact ⟨[], rfl, fun _ _ _ => rfl⟩
  | cons e effects ih =>
    obtain ⟨mask, hmask, hbits⟩ := Register.maskOf_run h fun f => f.writeEffect == some e
    obtain ⟨m, hm, hany⟩ := ih
    refine ⟨(some e, mask) :: m, ?_, fun j hj g => ?_⟩
    · rw [List.mapM_cons, hm]
      unfold Register.writeEffectMask
      rw [hmask]
      rfl
    · rw [List.any_cons, List.any_cons, hbits j hj, hany j hj]

theorem WriteMasks.ofRegister_run {r : Register} (h : r.Proper) :
    ∃ m, WriteMasks.ofRegister r = .ok m ∧ m.Of r := by
  obtain ⟨plain, hplain, hbits⟩ := Register.maskOf_run h Field.isPlainWritable
  obtain ⟨others, hothers, hany⟩ := effectMasks_run h writeEffects
  refine ⟨(none, plain) :: others, ?_, fun j hj g => ?_⟩
  · unfold WriteMasks.ofRegister Register.writableMask
    rw [hplain]
    exact (congrArg (fun x => x >>= fun others =>
      (pure ((none, plain) :: others) : Except Failure WriteMasks)) hothers).trans rfl
  · have hfields : ∀ fields : List Field,
        ((fields.any fun f => f.isPlainWritable && f.covers j) && g none
          || writeEffects.any fun e =>
            (fields.any fun f => f.writeEffect == some e && f.covers j) && g (some e))
        = fields.any fun f => (f.writable && f.covers j) && g f.writeEffect := by
      intro fields
      rw [Bool.eq_iff_iff]
      simp only [Bool.or_eq_true, Bool.and_eq_true, List.any_eq_true]
      constructor
      · rintro (⟨⟨f, hf, hp, hc⟩, hg⟩ | ⟨e, he, ⟨f, hf, hp, hc⟩, hg⟩)
        · have hsel := writable_eq f g
          rw [hp, hg, Bool.true_and, Bool.true_or, eq_comm, Bool.and_eq_true] at hsel
          exact ⟨f, hf, ⟨hsel.1, hc⟩, hsel.2⟩
        · have hsel := writable_eq f g
          rw [List.any_eq_true.2 ⟨e, he, by rw [hp, hg]; rfl⟩, Bool.or_true, eq_comm,
            Bool.and_eq_true] at hsel
          exact ⟨f, hf, ⟨hsel.1, hc⟩, hsel.2⟩
      · rintro ⟨f, hf, ⟨hw, hc⟩, hg⟩
        have hsel := writable_eq f g
        rw [hw, hg, Bool.true_and, Bool.or_eq_true, Bool.and_eq_true, List.any_eq_true] at hsel
        rcases hsel with ⟨hp, hg⟩ | ⟨e, he, hp⟩
        · exact Or.inl ⟨⟨f, hf, hp, hc⟩, hg⟩
        · rw [Bool.and_eq_true] at hp
          exact Or.inr ⟨e, he, ⟨f, hf, hp.1, hc⟩, hp.2⟩
    rw [List.any_cons, hbits j hj, hany j hj]
    exact hfields r.fields

-- =============================================================== effects

variable {r' : Register} {m : WriteMasks}

/-- A bit in no writable field stays as it is. -/
theorem afterWrite_unwritable (hm : m.Of r') {k : Nat} (hk : k < maskBits)
    (h : ∀ f ∈ r'.fields, f.writable = true → f.covers k = false) (v : Nat) (old : Bool) :
    afterWrite m v k old = old := by
  refine afterWrite_of_none ?_
  have hany := hm k hk fun _ => true
  simp only [Bool.and_true] at hany
  rw [hany, List.any_eq_false]
  intro f hf
  cases hw : f.writable with
  | false => exact Bool.false_ne_true
  | true =>
    rw [h f hf hw]
    exact Bool.false_ne_true

/-- A bit of one writable field only changes as the effect of the field
demands. -/
theorem afterWrite_writable (hm : m.Of r') {k : Nat} (hk : k < maskBits) {f : Field}
    (hf : f ∈ r'.fields) (hw : f.writable = true) (hc : f.covers k = true)
    (honly : ∀ g ∈ r'.fields, g.writable = true → g.covers k = true → g = f) (v : Nat) (old : Bool) :
    afterWrite m v k old = bitAfter f.onWrite old (v.testBit k) := by
  have hany : ∀ g : Option WriteEffect → Bool,
      (m.any fun p => p.2.testBit k && g p.1) = g f.writeEffect := by
    intro g
    rw [hm k hk g, Bool.eq_iff_iff, List.any_eq_true]
    constructor
    · rintro ⟨f', hf', hsel⟩
      simp only [Bool.and_eq_true] at hsel
      rw [← honly f' hf' hsel.1.1 hsel.1.2]
      exact hsel.2
    · exact fun hg => ⟨f, hf, by rw [hw, hc, hg]; rfl⟩
  have hall := hany fun _ => true
  simp only [Bool.and_true] at hall
  have heffect : bitAfter f.writeEffect old (v.testBit k) = bitAfter f.onWrite old (v.testBit k) := by
    unfold Field.writeEffect
    rw [hw]
    cases f.onWrite with
    | none => rfl
    | some e => cases e <;> rfl
  unfold afterWrite
  rw [hall, hany fun e => bitAfter e old (v.testBit k), heffect, Bool.not_true, Bool.and_false,
    Bool.false_or]

end RegisterMap.Peripheral
