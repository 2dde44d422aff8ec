/-
The body of a register's read, run. It gives the readable bits of the low
double word as they were, and changes the bits that react to a read
(`afterRead`).
-/
import RegisterMap.Proofs.Peripheral.DoubleWord
import RegisterMap.Proofs.Register.Masks

namespace RegisterMap.Peripheral

open Code Exec

variable {ctx : Context} {s : Store} {b : Buffer} {r : Ref} {bytes : Bytes} {i : Nat}
  {m : ReadMasks} (types : NodeId → TypeRef) (stock : NodeId → List Shape)

-- ================================================================ value

/-- The readable bits of the low double word. -/
theorem value_gives (h : Whole ctx s b r bytes) :
    ∃ f, Gives ctx s ((m.value b).code types stock) f
      (.int .uint (bytes.word 0 &&& m.readable % 2 ^ 32 : Nat)) := by
  have hword := h.window.word_gives types stock fun i hi => h.reach hi
  have hk : m.readable % 2 ^ 32 < 2 ^ 32 := Nat.mod_lt _ (by decide)
  have htype := maskType_of_lt hk
  rcases gives_masked (q := .uint) .uint true hword.1 hword.2 (Nat.lt_trans hk (by decide))
    (by rw [htype]; rfl) (Nat.le_refl _) with ⟨-, hones, hg⟩ | ⟨h0, hg⟩ | ⟨-, hg⟩
  · refine ⟨(.uint, none), ?_⟩
    rw [show m.readable % 2 ^ 32 = 2 ^ 32 - 1 from (Option.some.inj hones).symm,
      Nat.and_two_pow_sub_one_of_lt_two_pow hword.2]
    exact hg
  · refine ⟨(.uint, some 0), ?_⟩
    rw [h0, Nat.and_zero]
    exact hg
  · exact ⟨_, hg⟩

-- ============================================================ reactions

/-- What a read makes of bit `k`. -/
def afterRead (m : ReadMasks) (k : Nat) (old : Bool) : Bool :=
  m.set.testBit k || old && !m.clear.testBit k

/-- Byte `i` is changed as a read demands. -/
theorem react_runs (m : ReadMasks) (h : Whole ctx s b r bytes) (hi : i < 4) :
    ∃ bytes', Runs ctx ((m.react b i).elim [] (Sketch.code types stock)) s
        { s with heap := s.heap.set r (.bytes bytes') }
      ∧ bytes'.size = bytes.size
      ∧ ∀ k, bytes'.bit k = if k / 8 = i then afterRead m k (bytes.bit k) else bytes.bit k := by
  obtain ⟨hsize, hfence⟩ := h.reach hi
  have hbit : ∀ n, ∀ k, k / 8 = i → (Word.byteAt n i).testBit (k % 8) = n.testBit k := by
    intro n k hk
    rw [testBit_byteAt n i (Nat.mod_lt k (by decide)), ← hk, Nat.div_add_mod]
  have hset : Word.byteAt m.set i < 256 := Nat.mod_lt _ (by decide)
  have hclear : Word.byteAt m.clear i < 256 := Nat.mod_lt _ (by decide)
  have hchanged : Word.byteAt m.clear i ||| Word.byteAt m.set i < 256 :=
    Nat.or_lt_two_pow (n := 8) hclear hset
  unfold ReadMasks.react
  dsimp only
  by_cases h0 : Word.byteAt m.clear i ||| Word.byteAt m.set i = 0
  · -- no bit of the byte reacts, and none changes
    rw [if_pos h0]
    refine ⟨bytes, ?_, rfl, fun k => ?_⟩
    · rw [set_same h.window.array]
      exact runs_nil s
    · by_cases hk : k / 8 = i
      · have hor := congrArg (·.testBit (k % 8)) h0
        simp only [Nat.testBit_or, Nat.zero_testBit, Bool.or_eq_false_iff, hbit _ k hk] at hor
        unfold afterRead
        rw [if_pos hk, hor.1, hor.2, Bool.not_false, Bool.and_true, Bool.false_or]
      · rw [if_neg hk]
  · rw [if_neg h0]
    have hlow : 0xff - (Word.byteAt m.clear i ||| Word.byteAt m.set i) < 256 := by omega
    have hkept := h.window.masked_counts types stock hsize hfence hlow
    rw [Nat.zero_add] at hkept
    have hmask : Counts ctx s ((Sketch.mask (Word.byteAt m.set i)).code types stock)
        [maskType (Word.byteAt m.set i)] (Word.byteAt m.set i) :=
      counts_mask (Nat.lt_trans hset (by decide))
    rw [maskType_of_lt (Nat.lt_trans hset (by decide : 256 < 2 ^ 32))] at hmask
    have hor : Counts ctx s ((Sketch.binary .or
        (masked (b.byteAt i) (0xff - (Word.byteAt m.clear i ||| Word.byteAt m.set i)))
        (.mask (Word.byteAt m.set i))).code types stock) [.byte, .uint] _ :=
      hkept.or hmask (by decide)
    obtain ⟨f, p, hg, -⟩ := hor
    have hruns := h.window.storeLow_runs types stock hsize hfence hg
    rw [Nat.zero_add] at hruns hsize
    refine ⟨_, hruns, Bytes.size_set .., fun k => ?_⟩
    rw [bit_set hsize]
    by_cases hk : k / 8 = i
    · have hj : k % 8 < 8 := Nat.mod_lt k (by decide)
      have hold : (bytes.get i).toNat.testBit (k % 8) = bytes.bit k := by
        rw [← hk]
        rfl
      rw [if_pos hk, if_pos hk, BitVec.getLsbD_ofNat, decide_eq_true hj, Bool.true_and,
        Nat.testBit_or, Nat.testBit_and, Layout.testBit_complement hchanged hj, Nat.testBit_or,
        hbit _ k hk, hbit _ k hk, hold]
      unfold afterRead
      cases m.set.testBit k <;> cases m.clear.testBit k <;> cases bytes.bit k <;> rfl
    · rw [if_neg hk, if_neg hk]

/-- The reactions change the low double word. -/
theorem reacts_runs (m : ReadMasks) (h : Whole ctx s b r bytes) :
    ∃ bytes', Runs ctx (Sketch.codeList types stock (wordBytes.filterMap (m.react b))).flatten s
        { s with heap := s.heap.set r (.bytes bytes') }
      ∧ bytes'.size = bytes.size
      ∧ ∀ k, bytes'.bit k = if k < 32 then afterRead m k (bytes.bit k) else bytes.bit k := by
  refine runs_wordBytes types stock (fun k => afterRead m k) h fun i hi bytes' hsize => ?_
  obtain ⟨bytes'', hruns, hsize', hbits⟩ := react_runs types stock m (h.set hsize) hi
  dsimp only at hruns
  rw [List.set_set] at hruns
  exact ⟨bytes'', hruns, hsize'.trans hsize, hbits⟩

/-- A read that no bit of the low double word reacts to. -/
theorem afterRead_of_unchanged (h : m.changed % 2 ^ 32 = 0) {k : Nat} (hk : k < 32) (old : Bool) :
    afterRead m k old = old := by
  have hbit := congrArg (·.testBit k) h
  simp only [Nat.testBit_mod_two_pow, decide_eq_true hk, Bool.true_and, Nat.zero_testBit] at hbit
  unfold ReadMasks.changed at hbit
  rw [Nat.testBit_or, Bool.or_eq_false_iff] at hbit
  unfold afterRead
  rw [hbit.1, hbit.2, Bool.not_false, Bool.and_true, Bool.false_or]

-- ================================================================ masks

/-- The masks of a read have the bits of the fields they are for. -/
structure ReadMasks.Of (m : ReadMasks) (r : Register) : Prop where
  readable : ∀ j < maskBits, m.readable.testBit j = r.fields.any fun f => f.readable && f.covers j
  clear : ∀ j < maskBits,
    m.clear.testBit j = r.fields.any fun f => f.readEffect == some .rclr && f.covers j
  set : ∀ j < maskBits,
    m.set.testBit j = r.fields.any fun f => f.readEffect == some .rset && f.covers j

theorem ReadMasks.ofRegister_run {r : Register} (h : r.Proper) :
    ∃ m, ReadMasks.ofRegister r = .ok m ∧ m.Of r := by
  obtain ⟨readable, hreadable, hr⟩ := Register.maskOf_run h (·.readable)
  obtain ⟨clear, hclear, hc⟩ := Register.maskOf_run h fun f => f.readEffect == some .rclr
  obtain ⟨set, hset, hs⟩ := Register.maskOf_run h fun f => f.readEffect == some .rset
  refine ⟨⟨readable, clear, set⟩, ?_, hr, hc, hs⟩
  unfold ReadMasks.ofRegister Register.readableMask Register.readEffectMask
  rw [hreadable, hclear, hset]
  rfl

-- ================================================================ bodies

/-- The body of a read without reactions. -/
theorem plainRead_returns (h : Whole ctx s b r bytes) (hret : ctx.returns = some .uint) :
    Returns ctx (Sketch.codeList types stock [.ret (some (m.value b))]).flatten s
      (.int .uint (bytes.word 0 &&& m.readable % 2 ^ 32 : Nat)) s := by
  obtain ⟨f, hg⟩ := value_gives types stock (m := m) h
  exact returns_value hret hg rfl

/-- The body of a read with reactions returns what was there before. -/
theorem reactingRead_returns (h : Whole ctx s b r bytes) (hret : ctx.returns = some .uint)
    {result : NodeId} {types' : NodeId → TypeRef} {stock' : NodeId → List Shape}
    (hstock : stock result
      = (Sketch.variable "result" .uint (some (m.value b)) none).code types' stock')
    (hname : ctx.names result = "result") (hmem : ctx.names b.memory ≠ "result")
    (hstart : b.start = none) :
    ∃ bytes', Returns ctx (Sketch.codeList types stock
          (.node result :: wordBytes.filterMap (m.react b) ++ [.ret (some (.use result))])).flatten s
        (.int .uint (bytes.word 0 &&& m.readable % 2 ^ 32 : Nat))
        { s with
          heap := s.heap.set r (.bytes bytes')
          locals := ⟨"result", .uint, .int .uint (bytes.word 0 &&& m.readable % 2 ^ 32 : Nat)⟩
            :: s.locals }
      ∧ bytes'.size = bytes.size
      ∧ ∀ k, bytes'.bit k = if k < 32 then afterRead m k (bytes.bit k) else bytes.bit k := by
  obtain ⟨f, hg⟩ := value_gives types' stock' (m := m) h
  generalize bytes.word 0 &&& m.readable % 2 ^ 32 = n at hg ⊢
  have hdecl : Runs ctx (stock result) s
      { s with locals := ⟨"result", .uint, .int .uint n⟩ :: s.locals } := by
    rw [hstock]
    exact runs_declare rfl hg rfl
  have hwindow := h.window.declare (x := ⟨"result", .uint, .int .uint n⟩) hmem.symm
    fun d hd => by
      rw [hstart] at hd
      cases hd
  obtain ⟨bytes', hreacts, hsize, hbits⟩ := reacts_runs types stock m
    (s := { s with locals := ⟨"result", .uint, .int .uint n⟩ :: s.locals })
    ⟨hwindow, h.word, h.open_fence⟩
  have hlocal : Variables.get? (⟨"result", .uint, .int .uint n⟩ :: s.locals) (ctx.names result)
      = some ⟨"result", .uint, .int .uint n⟩ := by
    unfold Variables.get?
    rw [List.find?_cons_of_pos (by simpa using hname.symm)]
  have hlast : Returns ctx ((Sketch.ret (some (.use result))).code types stock)
      { s with
        heap := s.heap.set r (.bytes bytes')
        locals := ⟨"result", .uint, .int .uint n⟩ :: s.locals } (.int .uint n) _ :=
    returns_value hret (gives_use (types result) (sees_local hlocal)) rfl
  refine ⟨bytes', ?_, hsize, hbits⟩
  have hcode : (Sketch.codeList types stock (.node result :: wordBytes.filterMap (m.react b)
        ++ [.ret (some (.use result))])).flatten
      = stock result ++ ((Sketch.codeList types stock (wordBytes.filterMap (m.react b))).flatten
        ++ (Sketch.ret (some (.use result))).code types stock) := by
    rw [Sketch.codeList_eq, Sketch.codeList_eq, List.map_append, List.map_cons,
      List.flatten_append, List.flatten_cons, List.append_assoc]
    simp [Sketch.code]
  rw [hcode]
  exact hdecl.returns (hreacts.returns hlast)

end RegisterMap.Peripheral
