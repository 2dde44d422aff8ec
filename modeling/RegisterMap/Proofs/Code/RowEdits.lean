/-
The operations on links, each as a whole: exactly when it succeeds, and
what it then makes of the rows of a sound arena (`operations_splice`). An
operation that fails leaves the arena as it was.

The test against cycles is the one part of the conditions that is not read
off the nodes themselves: it passes if neither the anchor nor an owner
above it is in the chain that is to be linked (`Sound.outside_iff`).
-/
import RegisterMap.Proofs.Code.Reaching
import RegisterMap.Proofs.Code.Splicing

open RegisterMap.Code.Tree (Rearranged Outside)

namespace RegisterMap.Code

open Relation (ReflTransGen)

/-- Where the rest of a row is once `n` was taken out of it: at its seat,
unless that was known by `n`. -/
def Seat.without (seat : Seat) (n : NodeId) (rest : List NodeId) : Seat :=
  match rest with
  | [] => seat
  | x :: _ => if seat = .loose n then .loose x else seat

theorem Seat.without_of_ne {seat : Seat} {n : NodeId} (h : seat ≠ .loose n) (rest : List NodeId) :
    seat.without n rest = seat := by
  cases rest with
  | nil => rfl
  | cons x rest => exact if_neg h

namespace Edit

variable {t : Tree}

/-- The edit succeeds exactly under the condition given, with the answer
given, and rearranges the rows; otherwise it changes nothing. -/
structure Splices {α : Type} (e : Edit α) (t : Tree) (cond : Prop) (answer : α)
    (rows : List (Seat × List NodeId)) : Prop where
  success : cond → ∃ t', e t = (.ok answer, t') ∧ Rearranged t t' rows
  failure : ¬ cond → ∃ f, e t = (.error f, t)

theorem splices_change {check : Tree → Except Failure Unit} {act : Unit → Tree → Tree}
    {cond : Prop} {rows : List (Seat × List NodeId)} (hcheck : check t = .ok () ↔ cond)
    (hact : cond → Rearranged t (act () t) rows) :
    (change check act).Splices t cond () rows where
  success := fun h => ⟨_, change_run (hcheck.2 h), hact h⟩
  failure := fun h => by
    cases hc : check t with
    | ok u => exact absurd (hcheck.1 hc) h
    | error f => exact ⟨f, guarded_of_error hc⟩

end Edit

namespace Tree

variable {t : Tree} {seat : Seat} {pre post : List NodeId} {n o : NodeId}

theorem Sound.outside_iff (hs : t.Sound) (hn : n < t.size) (ho : o < t.size)
    (hroot : t.place o = .root) : t.Outside n o ↔ ¬ t.Under n o := by
  rw [hs.under_root_iff hn hroot ho]
  unfold Outside
  push Not
  rfl

theorem Sound.requireAcyclic_iff (hs : t.Sound) (hn : n < t.size) (ho : o < t.size)
    (hroot : t.place o = .root) : t.requireAcyclic n o = .ok () ↔ t.Outside n o := by
  rw [Tree.requireAcyclic_iff, hs.outside_iff hn ho hroot, ← hs.wouldCycle_iff hn hroot ho,
    Bool.not_eq_true]

section Operations

variable (hs : t.Sound) (hn : n < t.size) (ho : o < t.size)

include hs

theorem Sound.detach_splices (hrow : t.row seat = pre ++ n :: post) :
    (Edit.detach n).Splices t (t.place n ≠ .root) () [(seat, pre), (.loose n, n :: post)] :=
  Edit.splices_change requireLinked_iff fun h => hs.unlink_rows hrow h

include hn ho

theorem Sound.insertAfter_splices (hrow : t.row seat = pre ++ n :: post) (insert : Bool) :
    (Edit.insertAfter n o insert).Splices t
      (t.place o = .root ∧ t.Outside n o ∧ (t.next? n = none ∨ insert = true)) ()
      [(seat, pre ++ n :: (t.chain (some o) ++ post)), (.loose o, [])] := by
  refine Edit.splices_change ?_ fun ⟨hroot, hout, _⟩ =>
    hs.linkAfter_rows hrow ho hroot ((hs.outside_iff hn ho hroot).1 hout)
  have hlast : (if (t.next? n).isSome && !insert then
        Except.error (.link (.hasSuccessor (t.describe n))) else .ok () : Except Failure Unit)
      = .ok () ↔ t.next? n = none ∨ insert = true := by
    cases t.next? n <;> cases insert <;> simp
  rw [check_bind_iff, check_bind_iff, check_bind_iff, require_iff, requireUnlinked_iff, hlast]
  constructor
  · rintro ⟨-, ⟨-, hroot⟩, hac, hfree⟩
    exact ⟨hroot, (hs.requireAcyclic_iff hn ho hroot).1 hac, hfree⟩
  · rintro ⟨hroot, hout, hfree⟩
    exact ⟨hn, ⟨ho, hroot⟩, (hs.requireAcyclic_iff hn ho hroot).2 hout, hfree⟩

theorem Sound.replace_splices (hrow : t.row seat = pre ++ n :: post) :
    (Edit.replace n o).Splices t
      (t.place o = .root ∧ t.Outside n o ∧ t.place n ≠ .root) ()
      [(seat, pre ++ t.chain (some o) ++ post), (.loose o, []), (.loose n, [n])] := by
  refine Edit.splices_change ?_ fun ⟨hroot, hout, hi⟩ =>
    hs.splice_rows hrow ho hroot ((hs.outside_iff hn ho hroot).1 hout) hi
  rw [check_bind_iff, check_bind_iff, requireLinked_iff, requireUnlinked_iff]
  constructor
  · rintro ⟨hi, ⟨-, hroot⟩, hac⟩
    exact ⟨hroot, (hs.requireAcyclic_iff hn ho hroot).1 hac, hi⟩
  · rintro ⟨hroot, hout, hi⟩
    exact ⟨hi, ⟨ho, hroot⟩, (hs.requireAcyclic_iff hn ho hroot).2 hout⟩

theorem Sound.fill_splices (s : Slot) :
    (Edit.fill n s o).Splices t
      (t.place o = .root ∧ t.Outside n o ∧ t.slotHead n s = .ok none) ()
      [(.slot n s, t.chain (some o)), (.loose o, [])] := by
  refine Edit.splices_change ?_ fun ⟨hroot, hout, hslot⟩ => ?_
  · rw [check_bind_iff, check_bind_iff, require_iff, requireUnlinked_iff]
    cases t.slotHead n s with
    | error f =>
      simp [bind, Except.bind]
    | ok head =>
      cases head with
      | some x => simp [bind, Except.bind]
      | none =>
        simp only [bind, Except.bind]
        constructor
        · rintro ⟨-, ⟨-, hroot⟩, hac⟩
          exact ⟨hroot, (hs.requireAcyclic_iff hn ho hroot).1 hac, trivial⟩
        · rintro ⟨hroot, hout, -⟩
          exact ⟨hn, ⟨ho, hroot⟩, (hs.requireAcyclic_iff hn ho hroot).2 hout⟩
  · obtain ⟨hkind, hempty⟩ := slotHead_eq_ok.1 hslot
    exact hs.hang_rows hn ho hroot ((hs.outside_iff hn ho hroot).1 hout) hkind hempty

end Operations

-- ================================================================= cut

theorem Rearranged.mem_given {t' : Tree} {rows : List (Seat × List NodeId)}
    (h : Rearranged t t' rows) {seat : Seat} {l : List NodeId} (hr : (seat, l) ∈ rows) :
    t'.row seat = l := h.given _ hr

theorem Rearranged.perm {t' : Tree} {rows rows' : List (Seat × List NodeId)}
    (h : Rearranged t t' rows) (hp : rows.Perm rows') : Rearranged t t' rows' where
  sound := h.sound
  size := h.size
  kind := h.kind
  notes := h.notes
  given := fun r hr => h.given r (hp.mem_iff.2 hr)
  kept := fun seat hout => h.kept seat fun hin => hout ((hp.map Prod.fst).mem_iff.1 hin)

/-- An unlinked node is the first of its row, which is known by it. -/
theorem Sound.split_root (hs : t.Sound) (hrow : t.row seat = pre ++ n :: post)
    (hroot : t.place n = .root) : seat = .loose n ∧ pre = [] := by
  have hmem : n ∈ t.row seat := by simp [hrow]
  have hseat : seat = .loose n := by
    have hhead := seatHead_loose (hs.lt_of_mem_row hmem) hroot
    exact (hs.mem_row_iff.1 hmem).2.symm.trans
      (hs.mem_row_iff.1 (hs.mem_row_of_head hhead)).2
  refine ⟨hseat, ?_⟩
  subst hseat
  have hsplit := hs.split hrow
  have hbefore := hsplit.before
  rw [seatHead_loose (hs.lt_of_mem_row hmem) hroot] at hbefore
  cases pre with
  | nil => rfl
  | cons i pre => exact absurd (Option.some.inj hbefore.1) fun he => hsplit.not_before (by simp [he])

/-- A node is taken out of its row and left alone; the rest closes up. -/
theorem Sound.removeAlone_rows (hs : t.Sound) (hrow : t.row seat = pre ++ n :: post)
    (h : t.place n ≠ .root ∨ t.next? n ≠ none) :
    Rearranged t (t.removeAlone n)
      [(seat.without n (pre ++ post), pre ++ post), (.loose n, [n])] := by
  have hmem : n ∈ t.row seat := by simp [hrow]
  have hbehind := (hs.split hrow).behind
  cases hx : t.next? n with
  | none =>
    rw [hx] at hbehind
    obtain rfl : post = [] := by
      cases post with
      | nil => rfl
      | cons x post => cases hbehind.1
    have hi := h.resolve_right fun hne => hne hx
    have hcut : t.removeAlone n = t.unlink n := by
      unfold Tree.removeAlone
      rw [hx]
    rw [Seat.without_of_ne (ne_loose_of_mem hi hmem), hcut, List.append_nil]
    exact hs.unlink_rows hrow hi
  | some x =>
    rw [hx] at hbehind
    obtain ⟨post, rfl⟩ : ∃ rest, post = x :: rest := by
      cases post with
      | nil => cases (show some x = none from hbehind)
      | cons y rest => exact ⟨rest, by rw [Option.some.inj hbehind.1]⟩
    have hlinked : t.place x ≠ .root := by
      rw [(hs.linked.next_iff n x).1 hx]
      exact Place.noConfusion
    have hxlt := lt_size_of_place hlinked
    have hrow' : t.row seat = (pre ++ [n]) ++ x :: post := by simp [hrow]
    have hfirst := hs.unlink_rows hrow' hlinked
    rw [removeAlone_eq hx]
    split
    · next hroot =>
      obtain ⟨rfl, rfl⟩ := hs.split_root hrow hroot
      have hwithout : (Seat.loose n).without n ([] ++ x :: post) = .loose x := by
        simp [Seat.without]
      rw [hwithout]
      exact hfirst.perm (List.Perm.swap ..)
    · next hi =>
      obtain ⟨hroot, hplace, hfree⟩ := hs.unlink_next hx
      have hbefore : (t.unlink x).row seat = pre ++ n :: [] := hfirst.mem_given (by simp)
      have hchain : (t.unlink x).chain (some x) = x :: post := by
        rw [← row_loose (hfirst.size ▸ hxlt) hroot]
        exact hfirst.mem_given (by simp)
      have hsecond := hfirst.sound.splice_rows hbefore (hfirst.size ▸ hxlt) hroot hfree
        (hplace ▸ hi)
      rw [hchain, List.append_nil] at hsecond
      rw [Seat.without_of_ne (ne_loose_of_mem hi hmem)]
      refine ⟨hsecond.sound, hsecond.size.trans hfirst.size, fun j =>
        (hsecond.kind j).trans (hfirst.kind j), fun j =>
        (hsecond.notes j).trans (hfirst.notes j), fun r hr => hsecond.given r ?_,
        fun seat' hout => ?_⟩
      · rcases List.mem_pair.1 hr with rfl | rfl <;> simp
      · simp only [List.map_cons, List.map_nil, List.mem_cons, List.not_mem_nil, or_false,
          not_or] at hout
        by_cases hsx : seat' = .loose x
        · rw [hsx, row_loose_nil hlinked]
          exact hsecond.mem_given (by simp)
        · rw [hsecond.kept seat' (by simp [hout, hsx]), hfirst.kept seat' (by simp [hout, hsx])]

theorem Sound.cut_splices (hs : t.Sound) (hn : n < t.size)
    (hrow : t.row seat = pre ++ n :: post) :
    (Edit.cut n).Splices t (t.place n ≠ .root ∨ t.next? n ≠ none) ()
      [(seat.without n (pre ++ post), pre ++ post), (.loose n, [n])] where
  success := fun h => ⟨_, Edit.cut_ok hs hn h, hs.removeAlone_rows hrow h⟩
  failure := fun h => Edit.cut_error fun hcut => h hcut.2

-- ================================================================ join

/-- The rows of a join: the first of the chains is followed by all others,
which have no seats of their own any more. -/
def joined (t : Tree) : (heads : List NodeId) → List (Seat × List NodeId)
  | [] => []
  | h :: rest =>
    (.loose h, (h :: rest).flatMap fun i => t.chain (some i)) :: rest.map fun i => (.loose i, [])

/-- A part of a row is the chain of its first node. -/
theorem Sound.chain_of_row (hs : t.Sound) (hrow : t.row seat = pre ++ n :: post) :
    t.chain (some n) = n :: post := by
  have hn := hs.lt_of_mem_row (show n ∈ t.row seat by simp [hrow])
  exact hs.chain_eq (fun j hj => Option.some.inj hj ▸ hn) ⟨rfl, (hs.split hrow).behind⟩

theorem Sound.exists_chain (hs : t.Sound) (hn : n < t.size) :
    ∃ l, t.chain (some n) = n :: l := by
  have hpath := hs.path_chain fun j (hj : some n = some j) => Option.some.inj hj ▸ hn
  cases hc : t.chain (some n) with
  | nil =>
    rw [hc] at hpath
    cases (show some n = none from hpath)
  | cons j l =>
    rw [hc] at hpath
    exact ⟨l, by rw [Option.some.inj hpath.1]⟩

theorem root_of_row {i : NodeId} (h : t.row (.loose i) ≠ []) :
    i < t.size ∧ t.place i = .root := by
  cases hh : t.seatHead (.loose i) with
  | none => exact absurd (row_eq_nil hh) h
  | some j =>
    obtain ⟨rfl, hi⟩ := seatHead_loose_iff.1 hh
    exact hi

/-- A root is not below another one whose chain it is not in. -/
theorem Sound.not_under_root (hs : t.Sound) {h i : NodeId}
    (hrow : t.row (.loose h) = pre ++ n :: post) (hi : t.place i = .root) (hne : h ≠ i) :
    ¬ t.Under n i := by
  intro hup
  obtain ⟨hh, hroot⟩ := root_of_row (t := t) (i := h) (by simp [hrow])
  have hpath := hs.path_row (.loose h)
  rw [seatHead_loose hh hroot] at hpath
  have hmem : n ∈ t.row (.loose h) := by simp [hrow]
  rcases ReflTransGen.cases_head ((hpath.under hs.linked n hmem).to_root hup
    (anchor?_of_root hi)) with he | ⟨p, hp, -⟩
  · exact hne he
  · exact Option.some_ne_none p (hp.symm.trans (anchor?_of_root hroot))

theorem lastOf_eq (hn : n < t.size) : Edit.lastOf n t = (.ok (t.last n), t) := by
  obtain ⟨m, hm⟩ := exists_node?_of_lt hn
  refine Edit.read_run ?_
  unfold Tree.node
  rw [hm]
  rfl

theorem Sound.joinAfter_rows (hs : t.Sound) {h tail : NodeId} {rest : List NodeId}
    (hrow : t.row (.loose h) = pre ++ [tail])
    (hfree : ∀ i ∈ rest, i < t.size ∧ t.place i = .root) (hdiff : (h :: rest).Nodup) :
    ∃ t', Edit.joinAfter tail rest t = (.ok (), t')
      ∧ Rearranged t t' ((.loose h, pre ++ [tail] ++ rest.flatMap fun i => t.chain (some i))
        :: rest.map fun i => (.loose i, [])) := by
  induction rest generalizing t tail pre with
  | nil =>
    refine ⟨t, rfl, hs, rfl, fun _ => rfl, fun _ => rfl, fun r hr => ?_, fun _ _ => rfl⟩
    obtain rfl := List.mem_singleton.1 hr
    simpa using hrow
  | cons i rest ih =>
    obtain ⟨hi, hroot⟩ := hfree i (List.mem_cons_self ..)
    have htail := hs.lt_of_mem_row (show tail ∈ t.row (.loose h) by simp [hrow])
    have hne : h ≠ i := fun he => (List.nodup_cons.1 hdiff).1 (by simp [he])
    have hnot := hs.not_under_root hrow hroot hne
    -- the next chain is linked behind the tail
    obtain ⟨t₁, hrun₁, h₁⟩ := (hs.insertAfter_splices htail hi hrow false).success
      ⟨hroot, (hs.outside_iff htail hi hroot).2 hnot, Or.inl (hs.split hrow).behind⟩
    obtain ⟨l, hl, -⟩ := hs.chain_last hi
    have hrow₁ : t₁.row (.loose h) = (pre ++ tail :: l) ++ [t.last i] := by
      rw [h₁.mem_given (List.mem_cons_self ..), hl]
      simp
    have hlast : t₁.last i = t.last i := by
      obtain ⟨m, hm⟩ := hs.exists_chain hi
      have hrow' : t₁.row (.loose h) = (pre ++ [tail]) ++ i :: m := by
        rw [h₁.mem_given (List.mem_cons_self ..), hm]
        simp
      unfold Tree.last
      rw [hm, h₁.sound.chain_of_row hrow']
    -- the other chains are still where they were
    obtain ⟨hh, hirest, hrest⟩ : h ∉ rest ∧ i ∉ rest ∧ rest.Nodup := by
      simp only [List.nodup_cons, List.mem_cons, not_or] at hdiff
      exact ⟨hdiff.1.2, hdiff.2⟩
    have hkept : ∀ j ∈ rest, t₁.row (.loose j) = t.chain (some j) := by
      intro j hj
      obtain ⟨hjlt, hjroot⟩ := hfree j (List.mem_cons_of_mem _ hj)
      have hjh : j ≠ h := fun he => hh (he ▸ hj)
      have hji : j ≠ i := fun he => hirest (he ▸ hj)
      rw [h₁.kept (.loose j) (by simp [hjh, hji]), row_loose hjlt hjroot]
    have hfree₁ : ∀ j ∈ rest, j < t₁.size ∧ t₁.place j = .root := fun j hj => by
      obtain ⟨m, hm⟩ := hs.exists_chain (hfree j (List.mem_cons_of_mem _ hj)).1
      exact root_of_row (by simp [hkept j hj, hm])
    obtain ⟨t₂, hrun₂, h₂⟩ := ih h₁.sound hrow₁ hfree₁ (List.nodup_cons.2 ⟨hh, hrest⟩)
    have hchains : rest.flatMap (fun j => t₁.chain (some j))
        = rest.flatMap fun j => t.chain (some j) :=
      List.flatMap_congr fun j hj => by
        rw [← row_loose (hfree₁ j hj).1 (hfree₁ j hj).2, hkept j hj]
    refine ⟨t₂, ?_, ?_⟩
    · show (Edit.insertAfter tail i false >>= fun _ => Edit.lastOf i >>= fun last =>
        Edit.joinAfter last rest) t = _
      rw [Edit.bind_run hrun₁, Edit.bind_run (lastOf_eq (h₁.size ▸ hi)), hlast]
      exact hrun₂
    · refine ⟨h₂.sound, h₂.size.trans h₁.size, fun j => (h₂.kind j).trans (h₁.kind j),
        fun j => (h₂.notes j).trans (h₁.notes j), fun r hr => ?_, fun seat' hout => ?_⟩
      · simp only [List.map_cons, List.mem_cons] at hr
        rcases hr with rfl | rfl | hr
        · rw [h₂.mem_given (List.mem_cons_self ..), hchains]
          show _ = pre ++ [tail] ++ (i :: rest).flatMap fun j => t.chain (some j)
          rw [List.flatMap_cons, hl]
          simp
        · have hout : Seat.loose i ∉ (((.loose h, (pre ++ tail :: l) ++ [t.last i]
              ++ rest.flatMap fun j => t₁.chain (some j))
              :: rest.map fun j => (.loose j, [])) : List (Seat × List NodeId)).map Prod.fst := by
            simp [Ne.symm hne, hirest]
          rw [h₂.kept _ hout]
          exact h₁.mem_given (by simp)
        · exact h₂.given r (List.mem_cons_of_mem _ hr)
      · simp only [List.map_cons, List.map_map, List.mem_cons, not_or] at hout
        obtain ⟨hseath, hseati, hseatr⟩ := hout
        rw [h₂.kept seat' (by simpa [hseath] using hseatr), h₁.kept seat' (by simp [hseath, hseati])]

theorem Sound.join_splices (hs : t.Sound) {heads : List NodeId}
    (hfree : ∀ h ∈ heads, h < t.size ∧ t.place h = .root) (hdiff : heads.Nodup) :
    (Edit.join heads).Splices t True heads.head? (t.joined heads) where
  failure := fun h => absurd trivial h
  success := fun _ => by
    cases heads with
    | nil =>
      exact ⟨t, rfl, hs, rfl, fun _ => rfl, fun _ => rfl, fun _ hr => (nomatch hr),
        fun _ _ => rfl⟩
    | cons h rest =>
      obtain ⟨hh, hroot⟩ := hfree h (List.mem_cons_self ..)
      obtain ⟨l, hl, -⟩ := hs.chain_last hh
      have hrow : t.row (.loose h) = l ++ [t.last h] := by rw [row_loose hh hroot, hl]
      obtain ⟨t', hrun, h'⟩ := hs.joinAfter_rows hrow
        (fun i hi => hfree i (List.mem_cons_of_mem _ hi)) hdiff
      refine ⟨t', ?_, ?_⟩
      · show (Edit.lastOf h >>= fun last => Edit.joinAfter last rest >>= fun _ =>
          pure (some h)) t = _
        rw [Edit.bind_run (lastOf_eq hh), Edit.bind_run hrun]
        rfl
      · rw [joined, List.flatMap_cons, hl]
        exact h'

-- ========================================================= all of them

/-- Every operation on links is a splice of rows. `n` is any node, and
`pre ++ n :: post` the row it is in; `o` is the node to be linked. -/
theorem operations_splice (hs : t.Sound) (hn : n < t.size) (ho : o < t.size)
    (hrow : t.row seat = pre ++ n :: post) :
    (∀ insert, (Edit.insertAfter n o insert).Splices t
      (t.place o = .root ∧ t.Outside n o ∧ (t.next? n = none ∨ insert = true)) ()
      [(seat, pre ++ n :: (t.chain (some o) ++ post)), (.loose o, [])])
    ∧ (Edit.replace n o).Splices t
      (t.place o = .root ∧ t.Outside n o ∧ t.place n ≠ .root) ()
      [(seat, pre ++ t.chain (some o) ++ post), (.loose o, []), (.loose n, [n])]
    ∧ (∀ s, (Edit.fill n s o).Splices t
      (t.place o = .root ∧ t.Outside n o ∧ t.slotHead n s = .ok none) ()
      [(.slot n s, t.chain (some o)), (.loose o, [])])
    ∧ (Edit.detach n).Splices t (t.place n ≠ .root) () [(seat, pre), (.loose n, n :: post)]
    ∧ (Edit.cut n).Splices t (t.place n ≠ .root ∨ t.next? n ≠ none) ()
      [(seat.without n (pre ++ post), pre ++ post), (.loose n, [n])]
    ∧ ∀ heads : List NodeId, heads.Nodup → (∀ h ∈ heads, h < t.size ∧ t.place h = .root) →
      (Edit.join heads).Splices t True heads.head? (t.joined heads) :=
  ⟨hs.insertAfter_splices hn ho hrow, hs.replace_splices hn ho hrow, hs.fill_splices hn ho,
    hs.detach_splices hrow, hs.cut_splices hn hrow,
    fun _ hdiff hfree => hs.join_splices hfree hdiff⟩

/-- Of three statements the second follows the first; the third is put
between them. -/
theorem operations_splice_between : ∃ t t' : Tree,
    t = built [.leaf (.snippet "a"), .leaf (.snippet "b"), .leaf (.snippet "c"), .join [0, 1]]
      ∧ t.row (.loose 0) = [0, 1] ∧ Edit.insertAfter 0 2 true t = (.ok (), t')
      ∧ t'.row (.loose 0) = [0, 2, 1] ∧ t'.row (.loose 2) = [] := by
  let t := built [.leaf (.snippet "a"), .leaf (.snippet "b"), .leaf (.snippet "c"), .join [0, 1]]
  have hs : t.Sound := sound_built _
  have hn : 0 < t.size := by decide
  have ho : 2 < t.size := by decide
  have hroot : t.place 2 = .root := by decide
  have hrow : t.row (.loose 0) = [] ++ 0 :: [1] := by decide
  have hchain : t.chain (some 2) = [2] := by decide
  have hout : t.Outside 0 2 :=
    (hs.requireAcyclic_iff hn ho hroot).1 (Tree.requireAcyclic_iff.2 (by decide))
  obtain ⟨t', hrun, h⟩ := ((operations_splice hs hn ho hrow).1 true).success ⟨hroot, hout, Or.inr rfl⟩
  rw [hchain] at h
  exact ⟨t, t', rfl, hrow, hrun, h.mem_given (by simp), h.mem_given (by simp)⟩

end Tree

end RegisterMap.Code
