/-
The bytes of a register array that do not reset to zero. Finding them
never fails where the offset of every one of them is a word
(`resetBytes_eq`). They lie where the fields of the template have bits;
where these stay inside an element, every one of the bytes lies in the
array.
-/
import RegisterMap.Proofs.Register.Masks
import RegisterMap.Register.Array

namespace RegisterMap

theorem mapM_eq_ok {α β ε : Type} {f : α → Except ε β} {g : α → β} {l : List α}
    (h : ∀ a ∈ l, f a = .ok (g a)) : l.mapM f = .ok (l.map g) := by
  induction l with
  | nil => rfl
  | cons a l ih =>
    rw [List.mapM_cons, h a (List.mem_cons_self ..), ih fun b hb => h b (List.mem_cons_of_mem _ hb)]
    rfl

/-- The reset value of a register has bits of its fields only. -/
theorem Register.resetValue_run {r : Register} (h : r.Proper) :
    ∃ value, r.resetValue = .ok value
      ∧ ∀ j, value.testBit j = true → ∃ f ∈ r.fields, f.covers j = true := by
  obtain ⟨value, hvalue, hbits⟩ := h.measured.resetValue_run
  refine ⟨value, hvalue, fun j hj => ?_⟩
  rw [hbits, Bool.and_eq_true, List.any_eq_true] at hj
  obtain ⟨-, f, hf, hbit⟩ := hj
  exact ⟨f, hf, (Bool.and_eq_true_iff.1 hbit).1⟩

namespace RegisterArray

variable {a : RegisterArray}

/-- The bytes of one element that do not reset to zero. -/
theorem template_run (h : a.register.Proper) :
    ∃ template, a.template = .ok template
      ∧ ∀ p ∈ template, p.1 < min (Word.bytesFor a.register.width) (maskBits / 8) ∧ p.2 < 256
        ∧ ∃ f ∈ a.register.fields, 8 * p.1 ≤ f.high := by
  obtain ⟨value, hvalue, hbits⟩ := Register.resetValue_run h
  unfold template
  rw [hvalue]
  refine ⟨_, rfl, fun p hp => ?_⟩
  obtain ⟨hmem, hne⟩ := List.mem_filter.1 hp
  obtain ⟨i, hi, rfl⟩ := List.mem_map.1 hmem
  have hbyte : Word.byteAt value i < 256 := Nat.mod_lt _ (by decide)
  refine ⟨List.mem_range.1 hi, hbyte, ?_⟩
  -- a byte that is not zero has a bit, and a field covers it
  obtain ⟨j, hj⟩ := Nat.exists_testBit_of_ne_zero (bne_iff_ne.1 hne)
  unfold Word.byteAt at hj
  rw [show 256 = 2 ^ 8 from rfl, Nat.testBit_mod_two_pow, Nat.testBit_shiftRight,
    Bool.and_eq_true] at hj
  obtain ⟨f, hf, hc⟩ := hbits _ hj.2
  unfold Field.covers at hc
  simp only [Bool.and_eq_true, decide_eq_true_eq] at hc
  exact ⟨f, hf, by omega⟩

/-- The bytes of a template in the elements with the given numbers. -/
def copies (stride : Nat) (template : List (Nat × Nat)) (elements : List Nat) :
    List (Nat × Nat) :=
  elements.flatMap fun k => template.map fun p => (k * stride + p.1, p.2)

/-- The template is placed in elements one after the other. -/
theorem placeTemplate_eq {stride : Nat} {template : List (Nat × Nat)} (count first : Nat)
    (h : ∀ p ∈ template, (first + count) * stride + p.1 < 2 ^ addressBits) :
    placeTemplate stride template count first
      = .ok (copies stride template (List.range' first count)) := by
  induction count generalizing first with
  | zero => rfl
  | succ count ih =>
    have hnext : first * stride ≤ (first + (count + 1)) * stride :=
      Nat.mul_le_mul_right _ (by omega)
    have hhere : ∀ p ∈ template, (do
        return (← Word.add addressBits (← Word.mul addressBits first stride) p.1, p.2) :
          Except Failure (Nat × Nat)) = .ok (first * stride + p.1, p.2) := fun p hp => by
      have hoffset := h p hp
      rw [Word.mul_eq_ok_iff.2 ⟨by omega, rfl⟩]
      show (do return (← Word.add addressBits (first * stride) p.1, p.2) :
        Except Failure (Nat × Nat)) = _
      rw [Word.add_eq_ok_iff.2 ⟨by omega, rfl⟩]
      rfl
    unfold placeTemplate
    rw [mapM_eq_ok hhere, ih (first + 1) fun p hp => by
      rw [Nat.add_right_comm, Nat.add_assoc]
      exact h p hp]
    rfl

/-- What the class of an array is made of can be computed: its fields have
one to 64 bits, its buffer has a size, and the bytes that do not reset to
zero have offsets. -/
structure Sized (a : RegisterArray) : Prop where
  proper : a.register.Proper
  buffer : a.count * a.stride + 3 < 2 ^ addressBits
  resets : ∃ bytes, a.resetBytes = .ok bytes

theorem Sized.size_eq (h : a.Sized) : a.size = .ok (a.count * a.stride) :=
  Word.mul_eq_ok_iff.2 ⟨Nat.lt_of_le_of_lt (Nat.le_add_right ..) h.buffer, rfl⟩

theorem Sized.bufferSize_eq (h : a.Sized) : a.bufferSize = .ok (a.count * a.stride + 3) := by
  unfold bufferSize
  rw [h.size_eq]
  exact Word.add_eq_ok_iff.2 ⟨h.buffer, rfl⟩

/-- What keeps the sizes and offsets of an array words: its fields have
one to 64 bits, and there is room for a mask behind the last element. -/
structure Addressable (a : RegisterArray) : Prop where
  proper : a.register.Proper
  room : a.count * a.stride + maskBits / 8 < 2 ^ addressBits

namespace Addressable

variable (h : a.Addressable)

include h

/-- The bytes that do not reset to zero are those of the template in every
element. -/
theorem resetBytes_eq :
    ∃ template, a.template = .ok template
      ∧ a.resetBytes = .ok (copies a.stride template (List.range' 0 a.count)) := by
  obtain ⟨template, htemplate, hin⟩ := template_run h.proper
  refine ⟨template, htemplate, ?_⟩
  unfold resetBytes
  rw [htemplate]
  cases template with
  | nil =>
    have hnone : copies a.stride [] (List.range' 0 a.count) = [] :=
      List.flatMap_eq_nil_iff.2 fun _ _ => rfl
    rw [hnone]
    rfl
  | cons p rest =>
    refine placeTemplate_eq a.count 0 fun p hp => ?_
    have hoffset := Nat.lt_of_lt_of_le (hin p hp).1 (Nat.min_le_right ..)
    have hroom := h.room
    rw [Nat.zero_add]
    omega

theorem sized : a.Sized where
  proper := h.proper
  buffer := by
    have hroom : a.count * a.stride + 16 < 2 ^ addressBits := h.room
    omega
  resets :=
    have ⟨_, _, hbytes⟩ := h.resetBytes_eq
    ⟨_, hbytes⟩

end Addressable

/-- What keeps an array whole: its fields are in order, and what resets to
anything but zero lies inside its element. -/
structure Sound (a : RegisterArray) : Prop where
  proper : a.register.Proper
  small : a.count * a.stride + 3 < 2 ^ 31
  inside : (∀ f ∈ a.register.fields, f.high < 8 * a.stride)
    ∨ Word.bytesFor a.register.width ≤ a.stride

namespace Sound

variable (h : a.Sound)

include h

theorem addressable : a.Addressable where
  proper := h.proper
  room := by
    have hsmall := h.small
    unfold maskBits addressBits
    omega

/-- The bytes that do not reset to zero lie in the array. -/
theorem resetBytes_run :
    ∃ bytes, a.resetBytes = .ok bytes ∧ ∀ p ∈ bytes, p.1 < a.count * a.stride ∧ p.2 < 256 := by
  obtain ⟨template, htemplate, hbytes⟩ := h.addressable.resetBytes_eq
  obtain ⟨template', htemplate', hin⟩ := template_run h.proper
  obtain rfl := Except.ok.inj (htemplate.symm.trans htemplate')
  refine ⟨_, hbytes, fun p hp => ?_⟩
  obtain ⟨k, hk, hp⟩ := List.mem_flatMap.1 hp
  obtain ⟨q, hq, rfl⟩ := List.mem_map.1 hp
  obtain ⟨hwidth, hbyte, f, hf, hhigh⟩ := hin q hq
  have hoffset : q.1 < a.stride := by
    rcases h.inside with hfields | hwhole
    · have := hfields f hf
      omega
    · exact Nat.lt_of_lt_of_le hwidth (Nat.le_trans (Nat.min_le_left ..) hwhole)
  have hlast : k * a.stride + a.stride ≤ a.count * a.stride := by
    rw [← Nat.succ_mul]
    exact Nat.mul_le_mul_right _ (by have := List.mem_range'_1.1 hk; omega)
  exact ⟨Nat.lt_of_lt_of_le (Nat.add_lt_add_left hoffset _) hlast, hbyte⟩

end Sound

end RegisterArray

end RegisterMap
