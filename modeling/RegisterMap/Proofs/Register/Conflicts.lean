/-
When registers can be merged (`Inventory.merge_succeeds_iff`). A field to
be added is checked against the fields gathered so far, some of which are
pairs of earlier ones by then; what decides is which of the fields seen it
is compatible with. The fields gathered stand for those seen
(`Represents`): each of them is one of these or a pair of two, and each of
these is there, by itself or in a pair. So the check is the same as one
against all fields seen (`Represents.addField_settles`), and a fold of any
length settles what its steps do (`Settles.bind`).
-/
import RegisterMap.Proofs.Register.Merging

namespace RegisterMap

-- ============================================================== settling

/-- There is a result, with the property `Q`, exactly where `P` holds;
otherwise it is refused. -/
def Settles {α : Type} (result : Except Failure α) (P : Prop) (Q : α → Prop) : Prop :=
  (P → ∃ a, result = .ok a ∧ Q a) ∧ (¬P → ∃ reason, result = .error (.refused reason))

namespace Settles

variable {α β : Type} {P P' : Prop} {Q : α → Prop} {Q' : β → Prop}

theorem ok {a : α} (hQ : Q a) : Settles (.ok a) True Q :=
  ⟨fun _ => ⟨a, rfl, hQ⟩, fun h => absurd trivial h⟩

theorem iff {result : Except Failure α} (h : Settles result P Q) (hP : P ↔ P') :
    Settles result P' Q :=
  ⟨fun hp => h.1 (hP.2 hp), fun hp => h.2 fun h => hp (hP.1 h)⟩

/-- A sequence settles what its two steps do. -/
theorem bind {result : Except Failure α} {f : α → Except Failure β} (h : Settles result P Q)
    (hf : ∀ a, Q a → Settles (f a) P' Q') : Settles (result >>= f) (P ∧ P') Q' := by
  by_cases hp : P
  · obtain ⟨a, rfl, hQ⟩ := h.1 hp
    exact (hf a hQ).iff ⟨fun h => ⟨hp, h⟩, And.right⟩
  · obtain ⟨reason, rfl⟩ := h.2 hp
    exact ⟨fun h => absurd h.1 hp, fun _ => ⟨reason, rfl⟩⟩

/-- A sequence of actions settles what its two actions do, whatever the
journal holds in between. -/
theorem run_bind {act : Reporting α} {f : α → Reporting β} {journal : Journal}
    (h : Settles (act journal).1 P Q)
    (hf : ∀ a journal, Q a → Settles (f a journal).1 P' Q') :
    Settles ((act >>= f) journal).1 (P ∧ P') Q' := by
  by_cases hp : P
  · obtain ⟨a, ha, hQ⟩ := h.1 hp
    have hrun : act journal = (.ok a, (act journal).2) := Prod.ext ha rfl
    rw [RegisterMap.run_bind hrun]
    exact (hf a _ hQ).iff ⟨fun h => ⟨hp, h⟩, And.right⟩
  · obtain ⟨reason, he⟩ := h.2 hp
    have hrun : act journal = (.error (.refused reason), (act journal).2) := Prod.ext he rfl
    rw [RegisterMap.run_bind_error hrun]
    exact ⟨fun h => absurd h.1 hp, fun _ => ⟨reason, rfl⟩⟩

/-- Where the second action always gives a result, the first one decides. -/
theorem run_followed {act : Reporting α} {f : α → Reporting β} {journal : Journal}
    (h : Settles (act journal).1 P Q)
    (hf : ∀ a journal, Q a → ∃ b, (f a journal).1 = .ok b ∧ Q' b) :
    Settles ((act >>= f) journal).1 P Q' := by
  have hsecond : ∀ a journal, Q a → Settles (f a journal).1 True Q' := fun a journal hQ =>
    ⟨fun _ => hf a journal hQ, fun h => absurd trivial h⟩
  exact (h.run_bind hsecond).iff (and_iff_left trivial)

end Settles

-- ========================================================= compatibility

namespace Field

variable {f g : Field}

/-- Two fields can be at one address: they share no bit, or they have the
very same bits and one is only read, the other only written. -/
def Compatible (f g : Field) : Prop :=
  (∀ j, ¬(f.covers j = true ∧ g.covers j = true))
    ∨ ((∀ j, f.covers j = g.covers j)
      ∧ (f.isReadOnly = true ∧ g.isWriteOnly = true ∨ f.isWriteOnly = true ∧ g.isReadOnly = true))

theorem Compatible.symm (h : f.Compatible g) : g.Compatible f := by
  rcases h with happart | ⟨hsame, hkinds⟩
  · exact Or.inl fun j hj => happart j ⟨hj.2, hj.1⟩
  · refine Or.inr ⟨fun j => (hsame j).symm, ?_⟩
    rcases hkinds with ⟨hreader, hwriter⟩ | ⟨hwriter, hreader⟩
    · exact Or.inr ⟨hwriter, hreader⟩
    · exact Or.inl ⟨hreader, hwriter⟩

/-- Fields overlap where they share a bit, the higher of their lowest ones. -/
theorem overlaps_eq_false_iff (hf : f.low ≤ f.high) (hg : g.low ≤ g.high) :
    f.overlaps g = false ↔ ∀ j, ¬(f.covers j = true ∧ g.covers j = true) := by
  refine ⟨fun h j hj => ?_, fun h => Bool.eq_false_of_not_eq_true fun hoverlaps => ?_⟩
  · rw [overlaps_of_covers hj.1 hj.2] at h
    cases h
  · refine h (max f.low g.low) ?_
    unfold overlaps at hoverlaps
    unfold covers
    simp only [Bool.and_eq_true, decide_eq_true_eq] at hoverlaps ⊢
    omega

/-- Fields cover the same bits where these have the same ends. -/
theorem covers_eq_iff (hf : f.low ≤ f.high) (hg : g.low ≤ g.high) :
    (∀ j, f.covers j = g.covers j) ↔ f.low = g.low ∧ f.high = g.high := by
  refine ⟨fun h => ?_, fun ⟨hlow, hhigh⟩ j => by unfold covers; rw [hlow, hhigh]⟩
  -- each end of the one is a bit of the other
  have hof : ∀ j, (f.low ≤ j ∧ j ≤ f.high) ↔ (g.low ≤ j ∧ j ≤ g.high) := by
    intro j
    have hj := h j
    unfold covers at hj
    rwa [← Bool.decide_and, ← Bool.decide_and, decide_eq_decide] at hj
  have hlow := hof f.low
  have hhigh := hof f.high
  have hlow' := hof g.low
  have hhigh' := hof g.high
  omega

/-- In terms of the checks made: two fields are compatible where they do not
overlap or one takes the other in. -/
theorem compatible_iff (hf : f.low ≤ f.high) (hg : g.low ≤ g.high) :
    f.Compatible g ↔ f.overlaps g = false ∨ f.takesIn g = true ∨ g.takesIn f = true := by
  unfold Compatible
  rw [overlaps_eq_false_iff hf hg, covers_eq_iff hf hg, takesIn_iff, takesIn_iff]
  refine or_congr_right ⟨?_, ?_⟩
  · rintro ⟨⟨hlow, hhigh⟩, ⟨hreader, hwriter⟩ | ⟨hwriter, hreader⟩⟩
    · exact Or.inl ⟨hreader, hwriter, hlow, hhigh⟩
    · exact Or.inr ⟨hreader, hwriter, hlow.symm, hhigh.symm⟩
  · rintro (⟨hreader, hwriter, hlow, hhigh⟩ | ⟨hreader, hwriter, hlow, hhigh⟩)
    · exact ⟨⟨hlow, hhigh⟩, Or.inl ⟨hreader, hwriter⟩⟩
    · exact ⟨⟨hlow.symm, hhigh.symm⟩, Or.inr ⟨hwriter, hreader⟩⟩

/-- The side of a pair is only read or only written. -/
theorem plain_of_pair? {both : Field} (h : f.pair? g = some both) :
    ¬(f.readable = true ∧ f.writable = true) := by
  rintro ⟨hreads, hwrites⟩
  obtain ⟨name, ⟨htakes, -⟩ | ⟨htakes, -⟩⟩ := pair?_eq_some h
  · rw [(readOnly_iff.1 (takesIn_iff.1 htakes).1).2] at hwrites
    cases hwrites
  · rw [(writeOnly_iff.1 (takesIn_iff.1 htakes).2.1).2] at hreads
    cases hreads

/-- Fields of which one takes the other in make a pair. -/
theorem exists_pair? (h : f.takesIn g = true ∨ g.takesIn f = true) :
    ∃ both, f.pair? g = some both := by
  unfold pair?
  rcases h with h | h
  · obtain ⟨hreader, hwriter, hlow, hhigh⟩ := takesIn_iff.1 h
    rw [if_pos ⟨hlow, hhigh⟩, if_pos (by rw [hreader, hwriter]; rfl)]
    exact ⟨_, rfl⟩
  · obtain ⟨hreader, hwriter, hlow, hhigh⟩ := takesIn_iff.1 h
    rw [if_pos ⟨hlow.symm, hhigh.symm⟩]
    by_cases hkinds : (f.isReadOnly && g.isWriteOnly) = true
    · exact ⟨_, if_pos hkinds⟩
    · rw [if_neg hkinds, if_pos (by rw [hreader, hwriter]; rfl)]
      exact ⟨_, rfl⟩

end Field

-- ================================================== what stands for what

namespace Register

variable {a b : Register} {fields fields' seen l : List Field} {f g k : Field}

/-- Of fields that have the same bits and share none there is one at most. -/
theorem Apart.length_le_one (h : Apart l) (hf : f.low ≤ f.high)
    (hsame : ∀ k ∈ l, k.low = f.low ∧ k.high = f.high) : l.length ≤ 1 := by
  match l with
  | [] | [_] => simp
  | g :: k :: rest =>
    obtain ⟨hlow, hhigh⟩ := hsame g (by simp)
    obtain ⟨hlow', hhigh'⟩ := hsame k (by simp)
    have hoverlaps : g.overlaps k = true := Field.overlaps_of_same
      (by rw [hlow', hhigh']; exact hf) (hlow.trans hlow'.symm) (hhigh.trans hhigh'.symm)
    have hclear := List.rel_of_pairwise_cons h (List.mem_cons_self ..)
    rw [hoverlaps] at hclear
    cases hclear

/-- The fields gathered stand for those seen. -/
structure Represents (fields seen : List Field) : Prop where
  apart : Apart fields
  ordered : ∀ g ∈ seen, g.low ≤ g.high
  /-- Each is one of those seen, or a pair of two of them. -/
  origin : ∀ k ∈ fields, k ∈ seen ∨ ∃ name, ∃ reader ∈ seen, ∃ writer ∈ seen,
    reader.takesIn writer = true ∧ k = Field.paired name reader writer
  /-- The bits of each one seen are there, as the field itself or as a pair. -/
  standsIn : ∀ g ∈ seen, ∃ k ∈ fields, k.low = g.low ∧ k.high = g.high
    ∧ (k = g ∨ k.readable = true ∧ k.writable = true)

namespace Represents

theorem start (hapart : Apart fields) (hordered : ∀ f ∈ fields, f.low ≤ f.high) :
    Represents fields fields where
  apart := hapart
  ordered := hordered
  origin := fun _ hk => Or.inl hk
  standsIn := fun g hg => ⟨g, hg, rfl, rfl, Or.inl rfl⟩

theorem perm (h : Represents fields seen) (hperm : fields.Perm fields') :
    Represents fields' seen where
  apart := h.apart.perm hperm
  ordered := h.ordered
  origin := fun k hk => h.origin k (hperm.mem_iff.2 hk)
  standsIn := fun g hg => by
    obtain ⟨k, hk, hsame⟩ := h.standsIn g hg
    exact ⟨k, hperm.mem_iff.1 hk, hsame⟩

/-- What is only read or only written is no pair. -/
theorem mem_seen (h : Represents fields seen) (hk : k ∈ fields)
    (hplain : ¬(k.readable = true ∧ k.writable = true)) : k ∈ seen := by
  rcases h.origin k hk with hk | ⟨name, reader, -, writer, -, -, rfl⟩
  · exact hk
  · exact absurd ⟨rfl, rfl⟩ hplain

-- ================================================================ a step

/-- A field gathered that overlaps a compatible one makes a pair with it:
were it a pair already, the field would have to be only written for one of
its sides and only read for the other. -/
theorem pair?_of_overlaps (h : Represents fields seen) (hf : f.low ≤ f.high)
    (hcompatible : ∀ g ∈ seen, g.Compatible f) (hk : k ∈ fields)
    (hoverlaps : k.overlaps f = true) :
    k.low = f.low ∧ k.high = f.high ∧ ∃ both, k.pair? f = some both := by
  have hexclusive : ∀ g ∈ seen, g.overlaps f = true → g.takesIn f = true ∨ f.takesIn g = true := by
    intro g hg hoverlaps
    refine ((Field.compatible_iff (h.ordered g hg) hf).1 (hcompatible g hg)).resolve_left ?_
    rw [hoverlaps]
    decide
  rcases h.origin k hk with hseen | ⟨name, reader, hreader, writer, hwriter, htakes, rfl⟩
  · have hpair := hexclusive k hseen hoverlaps
    obtain ⟨both, hboth⟩ := Field.exists_pair? hpair
    obtain ⟨hlow, hhigh, -⟩ := pair?_bits hboth
    exact ⟨hlow, hhigh, both, hboth⟩
  · obtain ⟨hreads, hwrites, hlow, hhigh⟩ := Field.takesIn_iff.1 htakes
    have hsame : writer.overlaps f = reader.overlaps f := by
      unfold Field.overlaps
      rw [hlow, hhigh]
    have hwritten : f.isWriteOnly = true := by
      rcases hexclusive reader hreader hoverlaps with h | h
      · exact (Field.takesIn_iff.1 h).2.1
      · rw [Field.takesIn_readOnly hreads] at h
        cases h
    have hread : f.isReadOnly = true := by
      rcases hexclusive writer hwriter (hsame.trans hoverlaps) with h | h
      · rw [Field.takesIn_writeOnly hwrites] at h
        cases h
      · exact (Field.takesIn_iff.1 h).1
    have hclash := (Field.writeOnly_iff.1 hwritten).2
    rw [(Field.readOnly_iff.1 hread).1] at hclash
    cases hclash

/-- A field compatible with all seen so far is added: it overlaps one field
at most, since all that it overlaps have its bits. -/
theorem addField_ok (h : Represents fields seen) (hf : f.low ≤ f.high)
    (hcompatible : ∀ g ∈ seen, g.Compatible f) :
    ∃ fields', addField a b fields f = .ok fields' := by
  have hpairs : ∀ k ∈ fields.filter (·.overlaps f),
      k.low = f.low ∧ k.high = f.high ∧ ∃ both, k.pair? f = some both := by
    intro k hk
    obtain ⟨hmem, hoverlaps⟩ := List.mem_filter.1 hk
    exact h.pair?_of_overlaps hf hcompatible hmem hoverlaps
  have hapart : Apart (fields.filter (·.overlaps f)) := h.apart.sublist List.filter_sublist
  have hone := hapart.length_le_one hf fun k hk => ⟨(hpairs k hk).1, (hpairs k hk).2.1⟩
  unfold addField
  split
  next => exact ⟨_, rfl⟩
  next g hlist =>
    obtain ⟨-, -, both, hboth⟩ := hpairs g (hlist ▸ List.mem_singleton_self g)
    rw [hboth]
    exact ⟨_, rfl⟩
  next hnone hmany =>
    match hlist : fields.filter (·.overlaps f) with
    | [] => exact absurd hlist hnone
    | [g] => exact absurd hlist (hmany g)
    | _ :: _ :: _ =>
      rw [hlist] at hone
      exact absurd hone (by simp)

/-- A field that is added is compatible with all seen so far. -/
theorem compatible_of_addField (h : Represents fields seen) (hf : f.low ≤ f.high)
    (hadd : addField a b fields f = .ok fields') : ∀ g ∈ seen, g.Compatible f := by
  intro g hg
  have hg' := h.ordered g hg
  rw [Field.compatible_iff hg' hf]
  obtain ⟨k, hk, hlow, hhigh, hkind⟩ := h.standsIn g hg
  have hclear_of : k.overlaps f = false → g.overlaps f = false := by
    unfold Field.overlaps
    rw [hlow, hhigh]
    exact id
  rcases addField_cases hadd with ⟨hclear, -⟩ | ⟨before, o, after, both, rfl, hclear, hpair, -⟩
  · exact Or.inl (hclear_of (hclear k hk))
  · by_cases hko : k = o
    · subst hko
      obtain rfl : k = g := hkind.resolve_right (Field.plain_of_pair? hpair)
      obtain ⟨name, htakes⟩ := Field.pair?_eq_some hpair
      exact Or.inr (htakes.imp And.left And.left)
    · have hrest : k ∈ before ++ after := by
        rcases List.mem_append.1 hk with hk | hk
        · exact List.mem_append_left _ hk
        · exact List.mem_append_right _ ((List.mem_cons.1 hk).resolve_left hko)
      exact Or.inl (hclear_of (hclear k hrest))

theorem ordered_concat (h : Represents fields seen) (hf : f.low ≤ f.high) :
    ∀ g ∈ seen ++ [f], g.low ≤ g.high := by
  intro g hg
  rcases List.mem_append.1 hg with hg | hg
  · exact h.ordered g hg
  · rwa [List.mem_singleton.1 hg]

theorem origin_concat (h : Represents fields seen) (f : Field) (hk : k ∈ fields) :
    k ∈ seen ++ [f] ∨ ∃ name, ∃ reader ∈ seen ++ [f], ∃ writer ∈ seen ++ [f],
      reader.takesIn writer = true ∧ k = Field.paired name reader writer := by
  rcases h.origin k hk with hk | ⟨name, reader, hreader, writer, hwriter, hpair⟩
  · exact Or.inl (List.mem_append_left _ hk)
  · exact Or.inr ⟨name, reader, List.mem_append_left _ hreader, writer,
      List.mem_append_left _ hwriter, hpair⟩

/-- A field put behind the others stands for itself. -/
theorem behind (h : Represents fields seen) (hf : f.low ≤ f.high)
    (hapart : Apart (fields ++ [f])) : Represents (fields ++ [f]) (seen ++ [f]) where
  apart := hapart
  ordered := h.ordered_concat hf
  origin := by
    intro k hk
    rcases List.mem_append.1 hk with hk | hk
    · exact h.origin_concat f hk
    · exact Or.inl (List.mem_append_right _ hk)
  standsIn := by
    intro g hg
    rcases List.mem_append.1 hg with hg | hg
    · obtain ⟨k, hk, hsame⟩ := h.standsIn g hg
      exact ⟨k, List.mem_append_left _ hk, hsame⟩
    · exact ⟨g, List.mem_append_right _ hg, rfl, rfl, Or.inl rfl⟩

variable {before after : List Field} {o both : Field}

/-- A pair in the place of one of its sides stands for both. -/
theorem paired (h : Represents (before ++ o :: after) seen) (hf : f.low ≤ f.high)
    (hpair : o.pair? f = some both) (hapart : Apart (before ++ both :: after)) :
    Represents (before ++ both :: after) (seen ++ [f]) where
  apart := hapart
  ordered := h.ordered_concat hf
  origin := by
    have hseen : o ∈ seen := h.mem_seen (by simp) (Field.plain_of_pair? hpair)
    have ho : o ∈ seen ++ [f] := List.mem_append_left _ hseen
    have hlast : f ∈ seen ++ [f] := List.mem_append_right _ (List.mem_singleton_self f)
    intro k hk
    rcases List.mem_append.1 hk with hk | hk
    · exact h.origin_concat f (List.mem_append_left _ hk)
    · rcases List.mem_cons.1 hk with rfl | hk
      · obtain ⟨name, ⟨htakes, rfl⟩ | ⟨htakes, rfl⟩⟩ := Field.pair?_eq_some hpair
        · exact Or.inr ⟨name, o, ho, f, hlast, htakes, rfl⟩
        · exact Or.inr ⟨name, f, hlast, o, ho, htakes, rfl⟩
      · exact h.origin_concat f (List.mem_append_right _ (List.mem_cons_of_mem _ hk))
  standsIn := by
    obtain ⟨hlow, hhigh, hlow', hhigh'⟩ := pair?_bits hpair
    have hboth : both.readable = true ∧ both.writable = true := by
      obtain ⟨name, ⟨-, rfl⟩ | ⟨-, rfl⟩⟩ := Field.pair?_eq_some hpair
      · exact ⟨rfl, rfl⟩
      · exact ⟨rfl, rfl⟩
    have hmem : both ∈ before ++ both :: after := by simp
    intro g hg
    rcases List.mem_append.1 hg with hg | hg
    · obtain ⟨k, hk, hsame⟩ := h.standsIn g hg
      rcases List.mem_append.1 hk with hk | hk
      · exact ⟨k, List.mem_append_left _ hk, hsame⟩
      · rcases List.mem_cons.1 hk with rfl | hk
        · exact ⟨both, hmem, hlow'.trans (hlow.symm.trans hsame.1),
            hhigh'.trans (hhigh.symm.trans hsame.2.1), Or.inr hboth⟩
        · exact ⟨k, List.mem_append_right _ (List.mem_cons_of_mem _ hk), hsame⟩
    · rw [List.mem_singleton.1 hg]
      exact ⟨both, hmem, hlow', hhigh', Or.inr hboth⟩

/-- The fields stand for one more after it is added. -/
theorem step (h : Represents fields seen) (hf : f.low ≤ f.high)
    (hadd : addField a b fields f = .ok fields') : Represents fields' (seen ++ [f]) := by
  have hrun : [f].foldlM (addField a b) fields = .ok fields' := by
    rw [List.foldlM_cons, hadd]
    rfl
  have hapart := addFields_apart hrun h.apart
  rcases addField_cases hadd with ⟨-, rfl⟩ | ⟨before, o, after, both, rfl, -, hpair, rfl⟩
  · exact h.behind hf hapart
  · exact h.paired hf hpair hapart

/-- A field is added where it is compatible with all seen so far, and
refused otherwise. -/
theorem addField_settles (h : Represents fields seen) (hf : f.low ≤ f.high) :
    Settles (addField a b fields f) (∀ g ∈ seen, g.Compatible f)
      (Represents · (seen ++ [f])) := by
  refine ⟨fun hcompatible => ?_, fun hclash => ?_⟩
  · obtain ⟨fields', hadd⟩ := h.addField_ok hf hcompatible
    exact ⟨fields', hadd, h.step hf hadd⟩
  · cases hadd : addField a b fields f with
    | ok fields' => exact absurd (h.compatible_of_addField hf hadd) hclash
    | error e =>
      unfold addField at hadd
      split at hadd
      next => cases hadd
      next g _ =>
        split at hadd
        next => cases hadd
        next => exact ⟨_, hadd.symm⟩
      next => exact ⟨_, hadd.symm⟩

/-- The fields of a register, which share no bits with each other, are added
where each is compatible with all seen before. -/
theorem addFields_settles (h : Represents fields seen) (hl : ∀ f ∈ l, f.low ≤ f.high)
    (hapart : Apart l) :
    Settles (l.foldlM (addField a b) fields) (∀ f ∈ l, ∀ g ∈ seen, g.Compatible f)
      (Represents · (seen ++ l)) := by
  induction l generalizing fields seen with
  | nil =>
    rw [List.append_nil]
    exact ⟨fun _ => ⟨fields, rfl, h⟩, fun hclash => absurd (fun f hf => nomatch hf) hclash⟩
  | cons f l ih =>
    obtain ⟨hf, hl⟩ := List.forall_mem_cons.1 hl
    obtain ⟨hclear, hapart⟩ := List.pairwise_cons.1 hapart
    -- the later fields need not be checked against this one
    have hfits : (∀ k ∈ l, ∀ g ∈ seen ++ [f], g.Compatible k)
        ↔ ∀ k ∈ l, ∀ g ∈ seen, g.Compatible k := by
      refine ⟨fun h k hk g hg => h k hk g (List.mem_append_left _ hg), fun h k hk g hg => ?_⟩
      rcases List.mem_append.1 hg with hg | hg
      · exact h k hk g hg
      · rw [List.mem_singleton.1 hg]
        exact (Field.compatible_iff hf (hl k hk)).2 (Or.inl (hclear k hk))
    rw [List.foldlM_cons, List.append_cons]
    refine ((h.addField_settles hf).bind fun fields' h => ih h hl hapart).iff ?_
    rw [hfits, List.forall_mem_cons]

end Represents

-- ============================================================= one merge

/-- Two registers can be at one address. -/
def Compatible (r s : Register) : Prop := ∀ f ∈ r.fields, ∀ g ∈ s.fields, f.Compatible g

theorem Compatible.symm {r s : Register} (h : r.Compatible s) : s.Compatible r :=
  fun g hg f hf => (h f hf g hg).symm

theorem compatible_iff {r s : Register} (hr : r.Measured) (hs : s.Measured) :
    r.Compatible s ↔ ∀ f ∈ r.fields, ∀ g ∈ s.fields,
      f.overlaps g = false ∨ f.takesIn g = true ∨ g.takesIn f = true :=
  forall₂_congr fun f hf => forall₂_congr fun g hg =>
    Field.compatible_iff (hr f hf).ordered (hs g hg).ordered

theorem merge_settles (h : Represents a.fields seen) (ha : a.Measured) (hb : b.Measured)
    (hapart : Apart b.fields) :
    Settles (a.merge b) (∀ f ∈ b.fields, ∀ g ∈ seen, g.Compatible f)
      fun m => Represents m.fields (seen ++ b.fields) ∧ m.Measured := by
  have hfields := h.addFields_settles (a := a) (b := b) (fun f hf => (hb f hf).ordered) hapart
  refine ⟨fun hcompatible => ?_, fun hclash => ?_⟩
  · obtain ⟨fields, hrun, hstands⟩ := hfields.1 hcompatible
    have hmerge : a.merge b = .ok _ := bind_eq_ok_iff.2 ⟨fields, hrun, rfl⟩
    exact ⟨_, hmerge, hstands.perm (List.mergeSort_perm ..).symm, merge_measured hmerge ha hb⟩
  · obtain ⟨reason, hrun⟩ := hfields.2 hclash
    refine ⟨reason, ?_⟩
    unfold merge
    rw [hrun]
    rfl

end Register

-- ========================================================= all registers

namespace Inventory

open Register

variable {a b : Register} {seen : List Field} {table : ResetTable} {journal : Journal}
  {registers others : List Register}

/-- The fields of the register can be measured and share no bits. -/
def WellFormed (r : Register) : Prop := r.Measured ∧ Apart r.fields

theorem mergeTwo_settles (h : Represents a.fields seen) (ha : a.Measured) (hb : WellFormed b) :
    Settles (mergeTwo (a, table) b journal).1 (∀ f ∈ b.fields, ∀ g ∈ seen, g.Compatible f)
      fun state => Represents state.1.fields (seen ++ b.fields) ∧ state.1.Measured := by
  have hmerge : Settles (Reporting.quiet (a.merge b) journal).1 _ _ :=
    merge_settles h ha hb.1 hb.2
  refine hmerge.run_followed fun m journal hm => ?_
  -- the reset value of what is merged is never out of range
  obtain ⟨value, hvalue, -⟩ := hm.2.resetValue_run
  rw [hvalue]
  exact ⟨_, rfl, hm⟩

/-- The registers of one address are merged where any two of them are
compatible, and each of them with the fields seen before. -/
theorem mergeOthers_settles (table : ResetTable) (journal : Journal)
    (h : Represents a.fields seen) (ha : a.Measured) (hothers : ∀ r ∈ others, WellFormed r) :
    Settles (others.foldlM mergeTwo (a, table) journal).1
      ((∀ r ∈ others, ∀ f ∈ r.fields, ∀ g ∈ seen, g.Compatible f)
        ∧ others.Pairwise Register.Compatible)
      fun _ => True := by
  induction others generalizing a seen table journal with
  | nil =>
    exact (Settles.ok trivial).iff (iff_of_true trivial ⟨fun r hr => (nomatch hr), List.Pairwise.nil⟩)
  | cons r others ih =>
    obtain ⟨hr, hothers⟩ := List.forall_mem_cons.1 hothers
    rw [List.foldlM_cons]
    refine ((mergeTwo_settles h ha hr).run_bind fun state journal hstate =>
      ih _ journal hstate.1 hstate.2 hothers).iff ?_
    rw [List.forall_mem_cons, List.pairwise_cons]
    refine ⟨fun ⟨hfirst, hrest, hpairs⟩ => ?_, fun ⟨⟨hfirst, hrest⟩, hwith, hpairs⟩ => ?_⟩
    · refine ⟨⟨hfirst, fun s hs f hf g hg => hrest s hs f hf g (List.mem_append_left _ hg)⟩,
        fun s hs g hg f hf => hrest s hs f hf g (List.mem_append_right _ hg), hpairs⟩
    · refine ⟨hfirst, fun s hs f hf g hg => ?_, hpairs⟩
      rcases List.mem_append.1 hg with hg | hg
      · exact hrest s hs f hf g hg
      · exact hwith s hs g hg f hf

theorem mergeEach_settles (table : ResetTable) (journal : Journal) {groups : List Cohabitants}
    (hgroups : ∀ group ∈ groups, ∀ r ∈ group.1 :: group.2, WellFormed r) :
    Settles (mergeEach table groups journal).1
      (∀ group ∈ groups, (group.1 :: group.2).Pairwise Register.Compatible) fun _ => True := by
  induction groups generalizing table journal with
  | nil => exact (Settles.ok trivial).iff (iff_of_true trivial fun group h => nomatch h)
  | cons group groups ih =>
    obtain ⟨hgroup, hgroups⟩ := List.forall_mem_cons.1 hgroups
    obtain ⟨hfirst, hothers⟩ := List.forall_mem_cons.1 hgroup
    have hstart := Represents.start hfirst.2 fun f hf => (hfirst.1 f hf).ordered
    have hfold := mergeOthers_settles table journal hstart hfirst.1 hothers
    refine (hfold.run_bind fun state journal _ =>
      (ih _ journal hgroups).run_followed fun rest journal _ => ⟨_, rfl, trivial⟩).iff ?_
    rw [List.forall_mem_cons, List.pairwise_cons]
    refine and_congr_left fun _ => and_congr_left fun _ => ?_
    exact ⟨fun h r hr g hg f hf => h r hr f hf g hg, fun h r hr f hf g hg => h r hr g hg f hf⟩

/-- The registers of every address are pairwise compatible where those of
equal addresses are. -/
theorem residents_pairwise_iff {R : Register → Register → Prop} :
    (∀ address, (residents registers address).Pairwise R)
      ↔ registers.Pairwise fun r s => r.address = s.address → R r s := by
  unfold residents
  refine ⟨fun h => List.pairwise_iff_forall_sublist.2 fun {r s} hrs hsame => ?_,
    fun h address => List.pairwise_filter.2 (h.imp fun hrs hr hs => hrs ?_)⟩
  · have hhere := List.pairwise_filter.1 (h r.address)
    have hboth := List.pairwise_iff_forall_sublist.1 hhere hrs
    exact hboth (beq_self_eq_true _) (beq_iff_eq.2 hsame.symm)
  · exact (beq_iff_eq.1 hr).trans (beq_iff_eq.1 hs).symm

/-- What holds of the groups holds of the registers of every address. -/
theorem forall_byAddress_iff {P : List Register → Prop} (hnone : P []) :
    (∀ group ∈ byAddress registers, P (group.1 :: group.2))
      ↔ ∀ address, P (residents registers address) := by
  have hlists : (byAddress registers).map (fun group => group.1 :: group.2)
      = (registers.map (·.address)).eraseDups.map (residents registers) := by
    rw [← List.forall₂_eq_eq_eq, List.forall₂_map_left_iff, List.forall₂_map_right_iff]
    exact (byAddress_houses registers).flip.imp fun _ _ h => h
  rw [← List.forall_mem_map (f := fun group : Cohabitants => group.1 :: group.2), hlists,
    List.forall_mem_map]
  refine ⟨fun h address => ?_, fun h address _ => h address⟩
  by_cases haddress : address ∈ (registers.map (·.address)).eraseDups
  · exact h address haddress
  · have hempty : residents registers address = [] := by
      refine List.filter_eq_nil_iff.2 fun r hr hsame => haddress ?_
      rw [List.mem_eraseDups, ← beq_iff_eq.1 hsame]
      exact List.mem_map_of_mem hr
    rwa [hempty]

theorem merge_settles {inventory : Inventory} (journal : Journal)
    (hwell : ∀ r ∈ inventory.registers, WellFormed r) :
    Settles (inventory.merge journal).1
      (inventory.registers.Pairwise fun r s => r.address = s.address → r.Compatible s)
      fun _ => True := by
  have hgroups : ∀ group ∈ byAddress inventory.registers, ∀ r ∈ group.1 :: group.2,
      WellFormed r := (forall_byAddress_iff (P := fun l => ∀ r ∈ l, WellFormed r)
    fun r hr => nomatch hr).2 fun address r hr => hwell r (List.mem_filter.1 hr).1
  have heach := mergeEach_settles inventory.resets journal hgroups
  refine (heach.run_followed fun state journal _ => ⟨_, rfl, trivial⟩).iff ?_
  rw [forall_byAddress_iff .nil, residents_pairwise_iff]

/-- Registers are merged exactly where any two at one address have only
compatible fields, in whatever order they come; otherwise merging is
refused. -/
theorem merge_succeeds_iff {inventory : Inventory} (journal : Journal)
    (hm : ∀ r ∈ inventory.registers, r.Measured)
    (hapart : ∀ r ∈ inventory.registers, Apart r.fields) :
    ((∃ out, (inventory.merge journal).1 = .ok out)
        ↔ inventory.registers.Pairwise fun r s => r.address = s.address →
          ∀ f ∈ r.fields, ∀ g ∈ s.fields, f.Compatible g)
      ∧ ((¬∃ out, (inventory.merge journal).1 = .ok out) →
        ∃ reason, (inventory.merge journal).1 = .error (.refused reason))
      ∧ ∀ (inventory' : Inventory) (journal' : Journal),
        inventory'.registers.Perm inventory.registers →
        ((∃ out, (inventory'.merge journal').1 = .ok out)
          ↔ ∃ out, (inventory.merge journal).1 = .ok out) := by
  have hwell : ∀ r ∈ inventory.registers, WellFormed r := fun r hr => ⟨hm r hr, hapart r hr⟩
  have hsucceeds : ∀ (inventory' : Inventory) (journal' : Journal),
      inventory'.registers.Perm inventory.registers →
      ((∃ out, (inventory'.merge journal').1 = .ok out)
        ↔ inventory'.registers.Pairwise fun r s => r.address = s.address → r.Compatible s) := by
    intro inventory' journal' hperm
    have h := merge_settles journal' fun r hr => hwell r (hperm.mem_iff.1 hr)
    refine ⟨fun ⟨out, hout⟩ => by_contra fun hclash => ?_, fun hcompatible => ?_⟩
    · obtain ⟨reason, hreason⟩ := h.2 hclash
      rw [hout] at hreason
      cases hreason
    · obtain ⟨out, hout, -⟩ := h.1 hcompatible
      exact ⟨out, hout⟩
  have hhere := hsucceeds inventory journal (List.Perm.refl _)
  refine ⟨hhere, fun hfails => ?_, fun inventory' journal' hperm => ?_⟩
  · exact (merge_settles journal hwell).2 fun hcompatible => hfails (hhere.2 hcompatible)
  · rw [hsucceeds inventory' journal' hperm, hhere]
    exact hperm.pairwise_iff fun hcompatible hsame => (hcompatible hsame.symm).symm

/-- The same registers, but the command can be read as well. -/
def statusAndEcho : Inventory where
  name := "dev"
  registers := [
    { name := "st", address := 4, width := 16, fields := [
      { name := "lo", low := 0, high := 3, writable := false, reset := 5 }] },
    { name := "ctl", fields := [{ name := "en", low := 0, high := 0 }] },
    { name := "cmd", address := 4, fields := [
      { name := "hi", low := 8, high := 15 }, { name := "go", low := 0, high := 3 }] }]

theorem merge_succeeds_iff_command_echo :
    ((∀ r ∈ statusAndCommand.registers, r.Measured)
      ∧ (∀ r ∈ statusAndCommand.registers, Apart r.fields)
      ∧ ∃ out, (statusAndCommand.merge #[]).1 = .ok out)
    ∧ (∀ r ∈ statusAndEcho.registers, r.Measured)
      ∧ (∀ r ∈ statusAndEcho.registers, Apart r.fields)
      ∧ ∃ reason, (statusAndEcho.merge #[]).1 = .error (.refused reason) := by
  have hm : ∀ r ∈ statusAndCommand.registers, r.Measured := by decide
  have hapart : ∀ r ∈ statusAndCommand.registers, Apart r.fields := by decide
  have hm' : ∀ r ∈ statusAndEcho.registers, r.Measured := by decide
  have hapart' : ∀ r ∈ statusAndEcho.registers, Apart r.fields := by decide
  obtain ⟨hsucceeds, -, -⟩ := merge_succeeds_iff #[] hm hapart
  obtain ⟨hsucceeds', hrefused', -⟩ := merge_succeeds_iff #[] hm' hapart'
  refine ⟨⟨hm, hapart, hsucceeds.2 ?_⟩, hm', hapart', hrefused' fun hout => ?_⟩
  · have hpairs : statusAndCommand.registers.Pairwise fun r s => r.address = s.address →
        ∀ f ∈ r.fields, ∀ g ∈ s.fields,
          f.overlaps g = false ∨ f.takesIn g = true ∨ g.takesIn f = true := by decide
    exact hpairs.imp_of_mem fun hr hs h hsame =>
      (Register.compatible_iff (hm _ hr) (hm _ hs)).2 (h hsame)
  · have hpairs := hsucceeds'.1 hout
    have hclash := (Register.compatible_iff (hm' _ (by simp [statusAndEcho]))
      (hm' _ (by simp [statusAndEcho]))).1
      (List.rel_of_pairwise_cons hpairs (List.mem_cons_of_mem _ (List.mem_cons_self ..)) rfl)
    revert hclash
    decide

end Inventory

end RegisterMap
