/-
The double word at a place in a buffer. Code reads it as one value, low
byte first (`Window.word_gives`), and where it changes it, it goes through
its bytes one after the other (`runs_wordBytes`).
-/
import RegisterMap.Peripheral.Holder
import RegisterMap.Proofs.Code.Growing
import RegisterMap.Proofs.Exec.Words
import RegisterMap.Proofs.Peripheral.Placement
import RegisterMap.Proofs.Peripheral.Window

namespace RegisterMap.Exec.Bytes

/-- The double word that starts at an index. -/
def word (b : Bytes) (i : Nat) : Nat :=
  (b.get i).toNat <<< 0 ||| (b.get (i + 1)).toNat <<< 8 ||| (b.get (i + 2)).toNat <<< 16
    ||| (b.get (i + 3)).toNat <<< 24

theorem testBit_shifted (byte : Byte) (k j : Nat) :
    (byte.toNat <<< (8 * k)).testBit j = (decide (j / 8 = k) && byte.getLsbD (j % 8)) := by
  rw [Nat.testBit_shiftLeft]
  by_cases hk : j / 8 = k
  · rw [decide_eq_true hk, decide_eq_true (by omega), show j - 8 * k = j % 8 by omega]
    rfl
  · rw [decide_eq_false hk, Bool.false_and]
    by_cases hle : 8 * k ≤ j
    · have hlt : byte.toNat < 2 ^ (j - 8 * k) := Nat.lt_of_lt_of_le byte.isLt
        (Nat.pow_le_pow_right (by decide) (by omega))
      rw [Nat.testBit_lt_two_pow hlt, Bool.and_false]
    · rw [decide_eq_false hle, Bool.false_and]

theorem testBit_word (b : Bytes) (i j : Nat) :
    (b.word i).testBit j = (decide (j < 32) && b.bit (8 * i + j)) := by
  have hpart : ∀ k, ((b.get (i + k)).toNat <<< (8 * k)).testBit j
      = (decide (j / 8 = k) && b.bit (8 * i + j)) := by
    intro k
    rw [testBit_shifted]
    by_cases hk : j / 8 = k
    · unfold bit
      rw [show (8 * i + j) / 8 = i + k by omega, show (8 * i + j) % 8 = j % 8 by omega]
    · rw [decide_eq_false hk, Bool.false_and, Bool.false_and]
  have h0 : ((b.get i).toNat <<< 0).testBit j = _ := hpart 0
  have h1 : ((b.get (i + 1)).toNat <<< 8).testBit j = _ := hpart 1
  have h2 : ((b.get (i + 2)).toNat <<< 16).testBit j = _ := hpart 2
  have h3 : ((b.get (i + 3)).toNat <<< 24).testBit j = _ := hpart 3
  unfold word
  rw [Nat.testBit_or, Nat.testBit_or, Nat.testBit_or, h0, h1, h2, h3,
    ← Bool.and_or_distrib_right, ← Bool.and_or_distrib_right, ← Bool.and_or_distrib_right]
  congr 1
  rw [← Bool.decide_or, ← Bool.decide_or, ← Bool.decide_or]
  exact decide_eq_decide.2 (by omega)

end RegisterMap.Exec.Bytes

namespace RegisterMap.Peripheral

open Code Exec

variable {ctx : Context} {s : Store} {b : Buffer} {r : Ref} {bytes : Bytes} {span i : Nat}
  (types : NodeId → TypeRef) (stock : NodeId → List Shape)

-- ============================================================== reading

theorem Window.wordByte_gives (h : Window ctx s b r bytes span) (hi : i < 4)
    (hin : span + i < bytes.size ∧ ctx.fence r (span + i) = true) :
    GivesWord ctx s ((b.wordByte i).code types stock) ((bytes.get (span + i)).toNat <<< (i * 8)) := by
  have hbyte := (bytes.get (span + i)).isLt
  have hcast := gives_cast (p := .uint) (h.byteAt_gives types stock hin.1 hin.2) rfl
  rw [Primitive.wrap_natCast (Nat.lt_trans hbyte (by decide))] at hcast
  have hshift : (bytes.get (span + i)).toNat <<< (i * 8) < 2 ^ 32 := by
    rw [Nat.shiftLeft_eq]
    calc (bytes.get (span + i)).toNat * 2 ^ (i * 8)
        < 2 ^ 8 * 2 ^ (i * 8) := Nat.mul_lt_mul_of_pos_right hbyte (Nat.two_pow_pos _)
      _ = 2 ^ (8 + i * 8) := (Nat.pow_add 2 8 (i * 8)).symm
      _ ≤ 2 ^ 32 := Nat.pow_le_pow_right (by decide) (by omega)
  exact GivesWord.shl ⟨hcast, Nat.lt_trans hbyte (by decide)⟩ (by omega) hshift

/-- The double word at a place in the buffer. -/
theorem Window.word_gives (h : Window ctx s b r bytes span)
    (hin : ∀ i < 4, span + i < bytes.size ∧ ctx.fence r (span + i) = true) :
    GivesWord ctx s (b.word.code types stock) (bytes.word span) := by
  have hpart := fun i hi => h.wordByte_gives types stock hi (hin i hi)
  exact ((GivesWord.or (hpart 0 (by decide)) (hpart 1 (by decide))).or (hpart 2 (by decide))).or
    (hpart 3 (by decide))

-- ============================================================ whole words

/-- What code on the low double word of a buffer finds. -/
structure Whole (ctx : Context) (s : Store) (b : Buffer) (r : Ref) (bytes : Bytes) : Prop where
  window : Window ctx s b r bytes 0
  word : 4 ≤ bytes.size
  open_fence : ∀ i < 4, ctx.fence r i = true

namespace Whole

theorem reach (h : Whole ctx s b r bytes) (hi : i < 4) :
    0 + i < bytes.size ∧ ctx.fence r (0 + i) = true := by
  rw [Nat.zero_add]
  exact ⟨Nat.lt_of_lt_of_le hi h.word, h.open_fence i hi⟩

/-- The array has changed. -/
theorem set (h : Whole ctx s b r bytes) {bytes' : Bytes} (hsize : bytes'.size = bytes.size) :
    Whole ctx { s with heap := s.heap.set r (.bytes bytes') } b r bytes' :=
  ⟨h.window.set bytes', hsize ▸ h.word, h.open_fence⟩

theorem byte_gives (h : Whole ctx s b r bytes) (hi : i < 4) :
    Gives ctx s ((b.byteAt i).code types stock) (.byte, none) (.int .byte (bytes.get i).toNat) := by
  have hbyte := h.window.byteAt_gives types stock (h.reach hi).1 (h.reach hi).2
  rwa [Nat.zero_add] at hbyte

end Whole

-- =============================================================== bytes

theorem testBit_byteAt (n i : Nat) {j : Nat} (hj : j < 8) :
    (Word.byteAt n i).testBit j = n.testBit (8 * i + j) := by
  unfold Word.byteAt
  rw [show 256 = 2 ^ 8 from rfl, Nat.testBit_mod_two_pow, decide_eq_true hj, Bool.true_and,
    Nat.testBit_shiftRight]

/-- A byte whose bits are given. -/
theorem bit_set {bytes : Bytes} {i : Nat} (hi : i < bytes.size) (byte : Byte) (k : Nat) :
    (bytes.set i byte).bit k = if k / 8 = i then byte.getLsbD (k % 8) else bytes.bit k := by
  unfold Bytes.bit
  rw [Bytes.get_set _ hi]
  by_cases hk : k / 8 = i
  · rw [if_pos hk.symm, if_pos hk]
  · rw [if_neg (Ne.symm hk), if_neg hk]

/-- Four bytes are updated one after the other. -/
theorem runs_wordBytes {part : Nat → Option Sketch} (F : Nat → Bool → Bool)
    (h : Whole ctx s b r bytes)
    (hpart : ∀ i < 4, ∀ bytes', bytes'.size = bytes.size →
      ∃ bytes'', Runs ctx ((part i).elim [] (Sketch.code types stock))
          { s with heap := s.heap.set r (.bytes bytes') }
          { s with heap := s.heap.set r (.bytes bytes'') }
        ∧ bytes''.size = bytes.size
        ∧ ∀ k, bytes''.bit k = if k / 8 = i then F k (bytes'.bit k) else bytes'.bit k) :
    ∃ bytes', Runs ctx (Sketch.codeList types stock (wordBytes.filterMap part)).flatten s
        { s with heap := s.heap.set r (.bytes bytes') }
      ∧ bytes'.size = bytes.size
      ∧ ∀ k, bytes'.bit k = if k < 32 then F k (bytes.bit k) else bytes.bit k := by
  have hloop := runs_upTo (P := fun n s' =>
      ∃ bytes', s' = { s with heap := s.heap.set r (.bytes bytes') } ∧ bytes'.size = bytes.size
        ∧ ∀ k, bytes'.bit k = if k < 8 * n then F k (bytes.bit k) else bytes.bit k)
    (fun i => (part i).elim [] (Sketch.code types stock)) 4
    ⟨bytes, by rw [set_same h.window.array], rfl, fun k => (if_neg (by omega)).symm⟩
    fun i hi s' hs' => by
      obtain ⟨bytes', rfl, hsize, hbits⟩ := hs'
      obtain ⟨bytes'', hruns, hsize', hbits'⟩ := hpart i hi bytes' hsize
      refine ⟨_, hruns, bytes'', rfl, hsize', fun k => ?_⟩
      rw [hbits' k, hbits k]
      by_cases hk : k / 8 = i
      · rw [if_pos hk, if_neg (by omega), if_pos (by omega)]
      · rw [if_neg hk]
        exact if_congr (by omega) rfl rfl
  obtain ⟨s', hruns, bytes', rfl, hsize, hbits⟩ := hloop
  rw [Sketch.flatten_codeList_filterMap]
  exact ⟨bytes', hruns, hsize, hbits⟩

end RegisterMap.Peripheral
