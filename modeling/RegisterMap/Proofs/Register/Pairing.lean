/-
Folding the fields of one register into those of another. A field either
keeps clear of all that is there and is put behind it, or has the bits of
exactly one field, which it pairs with (`addField_cases`); everything
here follows from these two cases, one step at a time. What the bits of
the fields together are is their union (`addFields_any`), for every kind
of access that a pair has of its two sides. A reset value is another
matter: a pair keeps the one of its read-only side, so what remains is
said by the list of the fields that are not taken in (`contributors`,
`addFields_accounted`).
-/
import RegisterMap.Proofs.Register.Masks
import RegisterMap.Proofs.Sequences
import RegisterMap.Register.Merge

namespace RegisterMap

namespace Field

-- ================================================================= pairs

/-- A read-only field takes in a write-only one of the same bits. -/
def takesIn (reader writer : Field) : Bool :=
  reader.isReadOnly && writer.isWriteOnly && reader.low == writer.low && reader.high == writer.high

variable {f g both reader writer : Field} {name : String}

theorem takesIn_iff : reader.takesIn writer = true ↔ reader.isReadOnly = true
    ∧ writer.isWriteOnly = true ∧ reader.low = writer.low ∧ reader.high = writer.high := by
  simp [takesIn, and_assoc]

/-- A pair is made of a read-only field and a write-only one. -/
theorem pair?_eq_some (h : g.pair? f = some both) :
    ∃ name, (g.takesIn f = true ∧ both = paired name g f)
      ∨ (f.takesIn g = true ∧ both = paired name f g) := by
  unfold pair? at h
  refine ⟨g.name ++ "_" ++ f.name, ?_⟩
  by_cases hbits : g.low = f.low ∧ g.high = f.high
  · rw [if_pos hbits] at h
    by_cases hreads : (g.isReadOnly && f.isWriteOnly) = true
    · rw [if_pos hreads] at h
      rw [Bool.and_eq_true] at hreads
      exact Or.inl ⟨takesIn_iff.2 ⟨hreads.1, hreads.2, hbits⟩, (Option.some.inj h).symm⟩
    · rw [if_neg hreads] at h
      by_cases hwrites : (g.isWriteOnly && f.isReadOnly) = true
      · rw [if_pos hwrites] at h
        rw [Bool.and_eq_true] at hwrites
        exact Or.inr ⟨takesIn_iff.2 ⟨hwrites.2, hwrites.1, hbits.1.symm, hbits.2.symm⟩,
          (Option.some.inj h).symm⟩
      · rw [if_neg hwrites] at h
        cases h
  · rw [if_neg hbits] at h
    cases h

/-- Fields of the same bits overlap. -/
theorem overlaps_of_same (hf : f.low ≤ f.high) (hlow : g.low = f.low) (hhigh : g.high = f.high) :
    g.overlaps f = true := by
  simp [overlaps, hlow, hhigh, hf]

/-- What a field has to do with reset values: its bits, their value, and
whether a read-only field may take it in. -/
def share (f : Field) : Nat × Nat × Nat × Bool := (f.low, f.high, f.reset, f.isWriteOnly)

-- ====================================================== what a pair keeps

/-- A pair has the property where one of its sides has it. -/
def Shared (p : Field → Bool) : Prop :=
  ∀ name (reader writer : Field), reader.takesIn writer = true →
    p (paired name reader writer) = (p reader || p writer)

theorem readOnly_iff : f.isReadOnly = true ↔ f.readable = true ∧ f.writable = false := by
  simp [isReadOnly]

theorem writeOnly_iff : f.isWriteOnly = true ↔ f.writable = true ∧ f.readable = false := by
  simp [isWriteOnly]

/-- What is read only is not taken in. -/
theorem takesIn_readOnly (h : f.isReadOnly = true) : g.takesIn f = false := by
  refine Bool.eq_false_of_not_eq_true fun htakes => ?_
  have hwriter := writeOnly_iff.1 (takesIn_iff.1 htakes).2.1
  rw [(readOnly_iff.1 h).1] at hwriter
  exact absurd hwriter.2 (by decide)

/-- What is written only takes nothing in. -/
theorem takesIn_writeOnly (h : f.isWriteOnly = true) : f.takesIn g = false := by
  refine Bool.eq_false_of_not_eq_true fun htakes => ?_
  have hreader := readOnly_iff.1 (takesIn_iff.1 htakes).1
  rw [(writeOnly_iff.1 h).1] at hreader
  exact absurd hreader.2 (by decide)

/-- Nothing takes in what is read only. -/
theorem any_takesIn_readOnly (h : f.isReadOnly = true) (fields : List Field) :
    fields.any (·.takesIn f) = false := by
  refine List.any_eq_false.2 fun g _ htakes => ?_
  rw [takesIn_readOnly h] at htakes
  cases htakes

/-- All fields remain where none of them is taken in. -/
theorem filter_takesIn {fields : List Field} (h : ∀ g ∈ fields, f.takesIn g = false) :
    fields.filter (fun g => !f.takesIn g) = fields := by
  refine List.filter_eq_self.2 fun g hg => ?_
  rw [h g hg]
  rfl

theorem takesIn_self (f : Field) : f.takesIn f = false := by
  refine Bool.eq_false_of_not_eq_true fun htakes => ?_
  have hwriter := (takesIn_iff.1 htakes).2.1
  rw [takesIn_writeOnly hwriter] at htakes
  cases htakes

/-- A selection that pairs share selects the bits of both sides. -/
theorem Shared.covers {select : Field → Bool} (h : Shared select) (j : Nat) :
    Shared fun f => select f && f.covers j := by
  intro name reader writer htakes
  obtain ⟨-, -, hlow, hhigh⟩ := takesIn_iff.1 htakes
  have hsame : writer.covers j = reader.covers j := by simp [Field.covers, hlow, hhigh]
  have hpaired : (paired name reader writer).covers j = reader.covers j := rfl
  simp only [h name reader writer htakes, hsame, hpaired, Bool.and_or_distrib_right]

theorem shared_readable : Shared (·.readable) := by
  intro name reader writer htakes
  obtain ⟨hreader, -⟩ := takesIn_iff.1 htakes
  simp [paired, (readOnly_iff.1 hreader).1]

theorem shared_plainWritable : Shared Field.isPlainWritable := by
  intro name reader writer htakes
  obtain ⟨hreader, hwriter, -⟩ := takesIn_iff.1 htakes
  simp [isPlainWritable, writeEffect, paired, readOnly_iff.1 hreader, writeOnly_iff.1 hwriter]

theorem shared_readEffect (effect : ReadEffect) : Shared fun f => f.readEffect == some effect := by
  intro name reader writer htakes
  obtain ⟨hreader, hwriter, -⟩ := takesIn_iff.1 htakes
  simp [readEffect, paired, readOnly_iff.1 hreader, writeOnly_iff.1 hwriter]

theorem shared_writeEffect (effect : WriteEffect) :
    Shared fun f => f.writeEffect == some effect := by
  intro name reader writer htakes
  obtain ⟨hreader, hwriter, -⟩ := takesIn_iff.1 htakes
  simp [writeEffect, paired, readOnly_iff.1 hreader, writeOnly_iff.1 hwriter]

end Field

namespace Register

variable {a b : Register} {fields fields' l : List Field} {f : Field}

-- ================================================================ a step

/-- A field is put behind the others, or takes the place of the only one
that it overlaps, paired with it. -/
theorem addField_cases (h : addField a b fields f = .ok fields') :
    ((∀ g ∈ fields, g.overlaps f = false) ∧ fields' = fields ++ [f])
      ∨ ∃ before g after both, fields = before ++ g :: after
        ∧ (∀ k ∈ before ++ after, k.overlaps f = false) ∧ g.pair? f = some both
        ∧ fields' = before ++ both :: after := by
  unfold addField at h
  split at h
  next hnone =>
    rw [List.filter_eq_nil_iff] at hnone
    exact Or.inl ⟨fun g hg => Bool.eq_false_of_not_eq_true (hnone g hg), (Except.ok.inj h).symm⟩
  next g hone =>
    obtain ⟨before, after, rfl, hbefore, hg, hafter⟩ := List.filter_eq_cons_iff.1 hone
    rw [List.filter_eq_nil_iff] at hafter
    have hclear : ∀ k ∈ before ++ after, k.overlaps f = false := by
      intro k hk
      rcases List.mem_append.1 hk with hk | hk
      · exact Bool.eq_false_of_not_eq_true (hbefore k hk)
      · exact Bool.eq_false_of_not_eq_true (hafter k hk)
    split at h
    next both hboth =>
      refine Or.inr ⟨before, g, after, both, rfl, hclear, hboth, ?_⟩
      have hkept : ∀ part : List Field, (∀ k ∈ part, k ∈ before ++ after) →
          part.map (fun k => if k.overlaps f then both else k) = part := by
        intro part hpart
        refine (List.map_congr_left fun k hk => ?_).trans (List.map_id part)
        simp [hclear k (hpart k hk)]
      rw [← Except.ok.inj h, List.map_append, List.map_cons, if_pos hg,
        hkept before fun k hk => List.mem_append_left _ hk,
        hkept after fun k hk => List.mem_append_right _ hk]
    next => cases h
  next => cases h

/-- What holds of the first fields and is kept by one more holds after all. -/
theorem addFields_keep (P : List Field → List Field → Prop) (seen : List Field)
    (hstep : ∀ fields seen f fields', f ∈ l → addField a b fields f = .ok fields' →
      P fields seen → P fields' (seen ++ [f]))
    (h : l.foldlM (addField a b) fields = .ok fields') (hstart : P fields seen) :
    P fields' (seen ++ l) := by
  induction l generalizing fields seen with
  | nil =>
    obtain rfl := Except.ok.inj h
    rwa [List.append_nil]
  | cons f l ih =>
    rw [List.foldlM_cons] at h
    obtain ⟨fields₁, hfirst, hrest⟩ := bind_eq_ok_iff.1 h
    have hnext := hstep fields seen f fields₁ (List.mem_cons_self ..) hfirst hstart
    rw [List.append_cons]
    exact ih (seen ++ [f])
      (fun fields seen g fields' hg => hstep fields seen g fields' (List.mem_cons_of_mem _ hg))
      hrest hnext

-- ===================================================== the bits together

/-- What a pair has of its sides is had by the fields together as by all of
them apart. -/
theorem addFields_any {p : Field → Bool} (hp : Field.Shared p)
    (h : l.foldlM (addField a b) fields = .ok fields') :
    fields'.any p = (fields.any p || l.any p) := by
  have hkept : fields'.any p = (fields.any p || ([] ++ l).any p) := by
    refine addFields_keep (fun now seen => now.any p = (fields.any p || seen.any p)) [] ?_ h ?_
    · intro now seen f now' _ hadd hnow
      rw [List.any_append, ← Bool.or_assoc, ← hnow]
      rcases addField_cases hadd with ⟨-, rfl⟩ | ⟨before, g, after, both, rfl, -, hpair, rfl⟩
      · exact List.any_append
      · have hboth : p both = (p g || p f) := by
          obtain ⟨name, ⟨htakes, rfl⟩ | ⟨htakes, rfl⟩⟩ := Field.pair?_eq_some hpair
          · exact hp name g f htakes
          · rw [hp name f g htakes, Bool.or_comm]
        simp only [List.any_append, List.any_cons, List.any_nil, hboth]
        cases before.any p <;> cases p g <;> cases after.any p <;> cases p f <;> rfl
    · simp
  exact hkept

/-- The fields share no bits. -/
def Apart (fields : List Field) : Prop := fields.Pairwise fun f g => f.overlaps g = false

instance (fields : List Field) : Decidable (Apart fields) := by
  unfold Apart
  exact inferInstance

theorem Apart.perm (h : Apart fields) (hperm : fields.Perm fields') : Apart fields' :=
  List.Perm.pairwise hperm h fun {f g} hfg => (Field.overlaps_comm g f).trans hfg

/-- A pair has the bits of both of its sides. -/
theorem pair?_bits {g both : Field} (h : g.pair? f = some both) :
    g.low = f.low ∧ g.high = f.high ∧ both.low = f.low ∧ both.high = f.high := by
  obtain ⟨name, ⟨htakes, rfl⟩ | ⟨htakes, rfl⟩⟩ := Field.pair?_eq_some h
  · obtain ⟨-, -, hlow, hhigh⟩ := Field.takesIn_iff.1 htakes
    exact ⟨hlow, hhigh, hlow, hhigh⟩
  · obtain ⟨-, -, hlow, hhigh⟩ := Field.takesIn_iff.1 htakes
    exact ⟨hlow.symm, hhigh.symm, rfl, rfl⟩

/-- Fields that share no bits share none after more are added. -/
theorem addFields_apart (h : l.foldlM (addField a b) fields = .ok fields') (hapart : Apart fields) :
    Apart fields' := by
  refine addFields_keep (fun now _ => Apart now) [] ?_ h hapart
  intro now seen f now' _ hadd hnow
  unfold Apart at hnow ⊢
  rcases addField_cases hadd with ⟨hclear, rfl⟩ | ⟨before, g, after, both, rfl, -, hpair, rfl⟩
  · rw [List.pairwise_append]
    refine ⟨hnow, List.pairwise_singleton .., fun g hg k hk => ?_⟩
    rw [List.mem_singleton.1 hk]
    exact hclear g hg
  · obtain ⟨hlow, hhigh, hlow', hhigh'⟩ := pair?_bits hpair
    have hl : ∀ k : Field, k.overlaps both = k.overlaps g := by
      intro k
      unfold Field.overlaps
      rw [hlow, hhigh, hlow', hhigh']
    have hr : ∀ k : Field, both.overlaps k = g.overlaps k := by
      intro k
      rw [Field.overlaps_comm, hl, Field.overlaps_comm]
    rw [List.pairwise_append, List.pairwise_cons] at hnow ⊢
    simpa only [List.mem_cons, forall_eq_or_imp, hl, hr] using hnow

theorem addFields_measured (h : l.foldlM (addField a b) fields = .ok fields')
    (hfields : ∀ f ∈ fields, f.Measured) (hl : ∀ f ∈ l, f.Measured) :
    ∀ f ∈ fields', f.Measured := by
  refine addFields_keep (fun now _ => ∀ f ∈ now, f.Measured) [] ?_ h hfields
  intro now seen f now' hf hadd hnow
  have hmeasured := hl f hf
  rcases addField_cases hadd with ⟨-, rfl⟩ | ⟨before, g, after, both, rfl, -, hpair, rfl⟩
  · intro k hk
    rcases List.mem_append.1 hk with hk | hk
    · exact hnow k hk
    · rwa [List.mem_singleton.1 hk]
  · obtain ⟨-, -, hlow, hhigh⟩ := pair?_bits hpair
    intro k hk
    rcases List.mem_append.1 hk with hk | hk
    · exact hnow k (List.mem_append_left _ hk)
    · rcases List.mem_cons.1 hk with rfl | hk
      · exact ⟨by rw [hlow, hhigh]; exact hmeasured.ordered,
          by rw [hlow, hhigh]; exact hmeasured.bounded⟩
      · exact hnow k (List.mem_append_right _ (List.mem_cons_of_mem _ hk))

-- =========================================================== reset values

/-- The fields whose reset values count after the fields of `added` have
been folded into those of `first`: all but the write-only ones that a
read-only field of the same bits has taken in. Within `first` itself
nothing is folded. -/
def contributors (first added : List Field) : List Field :=
  first.filter (fun f => !added.any (·.takesIn f))
    ++ added.filter (fun f => !(first ++ added).any (·.takesIn f))

theorem contributors_nil (first : List Field) : contributors first [] = first := by
  simp [contributors]

/-- One more field drops those it takes in, and counts where none has taken
it in. -/
theorem contributors_concat (first added : List Field) (f : Field) :
    contributors first (added ++ [f])
      = (contributors first added).filter (fun g => !f.takesIn g)
        ++ if (first ++ added).any (·.takesIn f) then [] else [f] := by
  have hself : (first ++ (added ++ [f])).any (·.takesIn f)
      = (first ++ added).any (·.takesIn f) := by
    simp [Field.takesIn_self]
  unfold contributors
  rw [List.filter_append, List.filter_append, List.filter_filter, List.filter_filter,
    List.append_assoc]
  congr 1
  · refine List.filter_congr fun g _ => ?_
    simp [Bool.and_comm]
  · congr 1
    · refine List.filter_congr fun g _ => ?_
      simp [Bool.and_comm, Bool.and_left_comm]
    · rw [List.filter_cons, hself, List.filter_nil]
      cases (first ++ added).any (·.takesIn f) <;> rfl

/-- A read-only field always counts. -/
theorem mem_contributors {first added : List Field} (hf : f ∈ first ++ added)
    (hreader : f.isReadOnly = true) : f ∈ contributors first added := by
  unfold contributors
  simpa [Field.any_takesIn_readOnly hreader] using hf

/-- What the fields give to the reset value is what those that count give,
and the read-only ones among them are as they were. -/
structure Accounted (fields first added : List Field) : Prop where
  shares : (fields.map Field.share).Perm ((contributors first added).map Field.share)
  readers : ∀ f ∈ fields, f.isReadOnly = true → f ∈ first ++ added

theorem accounted_start (fields : List Field) : Accounted fields fields [] where
  shares := by rw [contributors_nil]
  readers := fun f hf _ => by rwa [List.append_nil]

theorem Accounted.perm {first added : List Field} (h : Accounted fields first added)
    (hperm : fields.Perm fields') : Accounted fields' first added where
  shares := (hperm.map _).symm.trans h.shares
  readers := fun f hf => h.readers f (hperm.mem_iff.2 hf)

/-- For each field that counts there is one of the same bits. -/
theorem Accounted.exists_same {first added : List Field} {g : Field}
    (h : Accounted fields first added) (hg : g ∈ contributors first added) :
    ∃ k ∈ fields, k.low = g.low ∧ k.high = g.high := by
  obtain ⟨k, hk, hshare⟩ := List.mem_map.1 (h.shares.mem_iff.2 (List.mem_map_of_mem hg))
  simp only [Field.share, Prod.mk.injEq] at hshare
  exact ⟨k, hk, hshare.1, hshare.2.1⟩

variable {first added : List Field}

/-- A field that keeps clear of the others counts on its own. -/
theorem Accounted.behind (h : Accounted fields first added) (hf : f.low ≤ f.high)
    (hclear : ∀ g ∈ fields, g.overlaps f = false) :
    Accounted (fields ++ [f]) first (added ++ [f]) := by
  -- nothing has the bits of the field, so nothing takes it in or is taken in by it
  have hapart : ∀ g ∈ contributors first added, ¬(g.low = f.low ∧ g.high = f.high) := by
    intro g hg hsame
    obtain ⟨k, hk, hlow, hhigh⟩ := h.exists_same hg
    have hoverlaps := Field.overlaps_of_same hf (hlow.trans hsame.1) (hhigh.trans hsame.2)
    rw [hclear k hk] at hoverlaps
    cases hoverlaps
  have hkept : (contributors first added).filter (fun g => !f.takesIn g)
      = contributors first added := by
    refine Field.filter_takesIn fun g hg => ?_
    refine Bool.eq_false_of_not_eq_true fun htakes => ?_
    obtain ⟨-, -, hlow, hhigh⟩ := Field.takesIn_iff.1 htakes
    exact hapart g hg ⟨hlow.symm, hhigh.symm⟩
  have hfree : (first ++ added).any (·.takesIn f) = false := by
    refine List.any_eq_false.2 fun g hg htakes => ?_
    obtain ⟨hreader, -, hsame⟩ := Field.takesIn_iff.1 htakes
    exact hapart g (mem_contributors hg hreader) hsame
  refine ⟨?_, fun g hg hreader => ?_⟩
  · rw [contributors_concat, hkept, hfree, List.map_append, List.map_append]
    exact h.shares.append_right _
  · rw [← List.append_assoc]
    rcases List.mem_append.1 hg with hg | hg
    · exact List.mem_append_left _ (h.readers g hg hreader)
    · exact List.mem_append_right _ hg

variable {before after : List Field} {g : Field} {name : String}

/-- A pair is none of the read-only fields. -/
theorem Accounted.readers_paired (h : Accounted (before ++ g :: after) first added)
    {reader writer : Field} : ∀ k ∈ before ++ Field.paired name reader writer :: after,
      k.isReadOnly = true → k ∈ first ++ (added ++ [f]) := by
  intro k hk hreader
  rw [← List.append_assoc]
  refine List.mem_append_left _ (h.readers k ?_ hreader)
  rcases List.mem_append.1 hk with hk | hk
  · exact List.mem_append_left _ hk
  · rcases List.mem_cons.1 hk with rfl | hk
    · cases hreader
    · exact List.mem_append_right _ (List.mem_cons_of_mem _ hk)

/-- A write-only field that is taken in does not count. -/
theorem Accounted.takenIn (h : Accounted (before ++ g :: after) first added)
    (htakes : g.takesIn f = true) :
    Accounted (before ++ Field.paired name g f :: after) first (added ++ [f]) := by
  obtain ⟨hreader, hwriter, -⟩ := Field.takesIn_iff.1 htakes
  have hkept : (contributors first added).filter (fun k => !f.takesIn k)
      = contributors first added :=
    Field.filter_takesIn fun _ _ => Field.takesIn_writeOnly hwriter
  have htaken : (first ++ added).any (·.takesIn f) = true :=
    List.any_eq_true.2 ⟨g, h.readers g (by simp) hreader, htakes⟩
  have hshare : (Field.paired name g f).share = g.share := by
    simp [Field.share, Field.paired, Field.isWriteOnly, (Field.readOnly_iff.1 hreader).1]
  refine ⟨?_, h.readers_paired⟩
  rw [contributors_concat, hkept, if_pos htaken, List.append_nil, List.map_append, List.map_cons,
    hshare, ← List.map_cons, ← List.map_append]
  exact h.shares

/-- A read-only field that takes another one in counts instead of it. -/
theorem Accounted.takesIn (h : Accounted (before ++ g :: after) first added) (hf : f.low ≤ f.high)
    (hclear : ∀ k ∈ before ++ after, k.overlaps f = false) (htakes : f.takesIn g = true) :
    Accounted (before ++ Field.paired name f g :: after) first (added ++ [f]) := by
  obtain ⟨hreader, hwriter, -⟩ := Field.takesIn_iff.1 htakes
  have hshare : (Field.paired name f g).share = f.share := by
    simp [Field.share, Field.paired, Field.isWriteOnly, (Field.readOnly_iff.1 hreader).1]
  -- which fields are taken in shows in what they have to do with reset values
  have hseen : ∀ l : List Field, (l.filter fun k => !f.takesIn k).map Field.share
      = (l.map Field.share).filter fun t => !(t.2.2.2 && f.low == t.1 && f.high == t.2.1) := by
    intro l
    rw [List.filter_map]
    congr 1
    refine List.filter_congr fun k _ => ?_
    simp [Field.takesIn, Field.share, hreader]
  have hleft : (before ++ g :: after).filter (fun k => !f.takesIn k) = before ++ after := by
    have hkept : ∀ part : List Field, (∀ k ∈ part, k ∈ before ++ after) →
        part.filter (fun k => !f.takesIn k) = part := by
      intro part hpart
      refine Field.filter_takesIn fun k hk => ?_
      refine Bool.eq_false_of_not_eq_true fun htakes => ?_
      obtain ⟨-, -, hlow, hhigh⟩ := Field.takesIn_iff.1 htakes
      have hoverlaps := Field.overlaps_of_same hf hlow.symm hhigh.symm
      rw [hclear k (hpart k hk)] at hoverlaps
      cases hoverlaps
    rw [List.filter_append, List.filter_cons, htakes,
      hkept before fun k hk => List.mem_append_left _ hk,
      hkept after fun k hk => List.mem_append_right _ hk]
    rfl
  have hshares := h.shares.filter fun t => !(t.2.2.2 && f.low == t.1 && f.high == t.2.1)
  rw [← hseen, ← hseen, hleft] at hshares
  refine ⟨?_, h.readers_paired⟩
  rw [contributors_concat, Field.any_takesIn_readOnly hreader, List.map_append, List.map_cons,
    hshare, List.map_append]
  refine List.perm_middle.trans (List.Perm.trans ?_ List.perm_append_comm)
  rw [← List.map_append]
  exact hshares.cons _

theorem Accounted.step (h : Accounted fields first added)
    (hf : f.low ≤ f.high) (hadd : addField a b fields f = .ok fields') :
    Accounted fields' first (added ++ [f]) := by
  rcases addField_cases hadd with ⟨hclear, rfl⟩ | ⟨before, g, after, both, rfl, hclear, hpair, rfl⟩
  · exact h.behind hf hclear
  · obtain ⟨name, ⟨htakes, rfl⟩ | ⟨htakes, rfl⟩⟩ := Field.pair?_eq_some hpair
    · exact h.takenIn htakes
    · exact h.takesIn hf hclear htakes

/-- The fields added count with those before them. -/
theorem addFields_accounted {fields l added : List Field}
    (h : l.foldlM (addField a b) fields = .ok fields') (hl : ∀ f ∈ l, f.Measured)
    (haccounted : Accounted fields first added) : Accounted fields' first (added ++ l) := by
  refine addFields_keep (fun now seen => Accounted now first seen) added ?_ h haccounted
  intro now seen f now' hf hadd hnow
  exact hnow.step (hl f hf).ordered hadd

/-- The part of each field in the reset value shows in its share. -/
theorem Accounted.resets (h : Accounted fields first added) (j : Nat) :
    fields.any (·.resets j) = (contributors first added).any (·.resets j) := by
  have hseen : ∀ l : List Field, l.any (·.resets j) = (l.map Field.share).any fun t =>
      (decide (t.1 ≤ j) && decide (j ≤ t.2.1)) && t.2.2.1.testBit (j - t.1) := by
    intro l
    rw [List.any_map]
    rfl
  rw [hseen, hseen]
  exact h.shares.any_eq

end Register

end RegisterMap
