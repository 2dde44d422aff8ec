/-
The operations on links as splices of rows. Each operation writes two or
three links; seen as rows of nodes it takes a row apart at a node and puts
parts of rows together again (`Rearranged`), or it fails and leaves the
arena as it was (`Edit.Splices`).

A row is a path along next links, so the argument is one for all of them:
a part of a row whose nodes keep their successors stays a path
(`Path.congr`), and where the successor of its last node is exchanged, the
part leads to the new one instead (`Path.redirect`). Nodes of other rows
are not written, because every node is in one row only.
-/
import RegisterMap.Proofs.Code.Claiming
import RegisterMap.Proofs.Code.Rows

namespace RegisterMap.Code

open Relation (ReflTransGen TransGen)

namespace Tree

variable {t t' : Tree}

/-- What a node carries beside its kind and its links. -/
def notes? (t : Tree) (i : NodeId) : Option Notes := (t.node? i).map (·.notes)

/-- `t'` has the rows listed at their seats; everything else is as in `t`. -/
structure Rearranged (t t' : Tree) (rows : List (Seat × List NodeId)) : Prop where
  sound : t'.Sound
  size : t'.size = t.size
  kind : ∀ j, t'.kind? j = t.kind? j
  notes : ∀ j, t'.notes? j = t.notes? j
  given : ∀ r ∈ rows, t'.row r.1 = r.2
  kept : ∀ seat, seat ∉ rows.map Prod.fst → t'.row seat = t.row seat

/-- Neither `n` nor an owner above it is in the chain of `o`. -/
def Outside (t : Tree) (n o : NodeId) : Prop :=
  ∀ c, ReflTransGen t.OwnedBy n c → c ∉ t.chain (some o)

-- =============================================================== paths

variable {a b b' : Option NodeId} {l : List NodeId}

/-- A path whose last node is given another successor. -/
theorem Path.redirect (h : t.Path a l b) (hb : ∀ i ∈ l, b ≠ some i)
    (hn : ∀ i ∈ l, t'.next? i = if t.next? i = b then b' else t.next? i) :
    t'.Path (if a = b then b' else a) l b' := by
  induction l generalizing a with
  | nil => exact if_pos h
  | cons i l ih =>
    obtain ⟨rfl, h⟩ := h
    rw [if_neg (hb i (List.mem_cons_self ..)).symm]
    refine ⟨rfl, ?_⟩
    rw [hn i (List.mem_cons_self ..)]
    exact ih h (fun j hj => hb j (List.mem_cons_of_mem _ hj))
      fun j hj => hn j (List.mem_cons_of_mem _ hj)

theorem Sound.eq_last (hs : t.Sound) {o i : NodeId} (ho : o < t.size)
    (hi : i ∈ t.chain (some o)) (hn : t.next? i = none) : i = t.last o := by
  obtain ⟨l, hl, -⟩ := hs.chain_last ho
  obtain ⟨l', m, hlm⟩ := List.append_of_mem hi
  have hpath := hs.path_chain fun j (hj : some o = some j) => Option.some.inj hj ▸ ho
  rw [hlm] at hpath
  obtain ⟨b, -, -, hm⟩ := path_append.1 hpath
  rw [hn] at hm
  obtain rfl : m = [] := by
    cases m with
    | nil => rfl
    | cons j m => cases hm.1
  exact (List.append_inj' (hlm.symm.trans hl) rfl).2 |> List.singleton_inj.1

/-- A chain whose last node leads on instead of ending. -/
theorem Sound.path_onto (hs : t.Sound) {o : NodeId} (ho : o < t.size)
    (hn : ∀ i ∈ t.chain (some o), t'.next? i = if t.last o = i then b else t.next? i) :
    t'.Path (some o) (t.chain (some o)) b := by
  have hpath := hs.path_chain fun j (hj : some o = some j) => Option.some.inj hj ▸ ho
  refine hpath.redirect (fun _ _ => nofun) fun i hi => ?_
  rw [hn i hi]
  by_cases he : t.next? i = none
  · rw [if_pos he, if_pos (hs.eq_last ho hi he).symm]
  · have hl : t.last o ≠ i := fun hl => he (hl ▸ hs.next?_last ho)
    rw [if_neg he, if_neg hl]

/-- The chain of an unlinked node is its row. -/
theorem row_loose {o : NodeId} (ho : o < t.size) (hroot : t.place o = .root) :
    t.row (.loose o) = t.chain (some o) := by
  unfold Tree.row
  rw [seatHead_loose ho hroot]

theorem row_eq_nil {seat : Seat} (h : t.seatHead seat = none) : t.row seat = [] := by
  unfold Tree.row Tree.chain
  rw [h]
  cases t.size <;> rfl

/-- A row taken apart at one of its nodes. -/
structure Split (t : Tree) (seat : Seat) (pre : List NodeId) (n : NodeId)
    (post : List NodeId) : Prop where
  before : t.Path (t.seatHead seat) pre (some n)
  behind : t.Path (t.next? n) post none
  not_before : n ∉ pre
  not_behind : n ∉ post
  disjoint : ∀ i ∈ pre, i ∉ post

theorem Sound.split (hs : t.Sound) {seat : Seat} {pre post : List NodeId} {n : NodeId}
    (h : t.row seat = pre ++ n :: post) : t.Split seat pre n post := by
  obtain ⟨b, hpre, rfl, hpost⟩ := path_append.1 (h ▸ hs.path_row seat)
  have hn := h ▸ hs.nodup_row seat
  rw [List.nodup_append, List.nodup_cons] at hn
  obtain ⟨-, ⟨hnot, -⟩, hdis⟩ := hn
  exact ⟨hpre, hpost, fun hm => hdis n hm n (List.mem_cons_self ..) rfl, hnot,
    fun i hi hi' => hdis i hi i (List.mem_cons_of_mem _ hi') rfl⟩

theorem Sound.next_mem_row (hs : t.Sound) {seat : Seat} {i x : NodeId} (h : i ∈ t.row seat)
    (hx : t.next? i = some x) : x ∈ t.row seat := by
  obtain ⟨pre, post, hrow⟩ := List.append_of_mem h
  have hbehind := (hs.split hrow).behind
  rw [hx] at hbehind
  cases post with
  | nil => cases (show some x = none from hbehind)
  | cons y post =>
    obtain rfl := Option.some.inj hbehind.1
    rw [hrow]
    simp

theorem Sound.mem_row_of_head (hs : t.Sound) {seat : Seat} {i : NodeId}
    (h : t.seatHead seat = some i) : i ∈ t.row seat := by
  have hpath := hs.path_row seat
  rw [h] at hpath
  cases hrow : t.row seat with
  | nil =>
    rw [hrow] at hpath
    cases (show some i = none from hpath)
  | cons j l =>
    rw [hrow] at hpath
    rw [Option.some.inj hpath.1]
    exact List.mem_cons_self ..

/-- The head of a row is in no other one. -/
theorem Sound.head_apart (hs : t.Sound) {seat seat' : Seat} (hne : seat' ≠ seat) {n : NodeId}
    (hn : n ∈ t.row seat) : t.seatHead seat' ≠ some n := fun he =>
  hne ((hs.mem_row_iff.1 (hs.mem_row_of_head he)).2.symm.trans (hs.mem_row_iff.1 hn).2)

/-- Nodes of different rows are different, and no link leads from one row
to another. -/
theorem Sound.apart (hs : t.Sound) {seat seat' : Seat} (hne : seat' ≠ seat) {i n : NodeId}
    (hi : i ∈ t.row seat') (hn : n ∈ t.row seat) : i ≠ n ∧ t.next? i ≠ some n := by
  have hdiff : ∀ j ∈ t.row seat', j ≠ n := fun j hj he =>
    hne ((hs.mem_row_iff.1 hj).2.symm.trans (he ▸ (hs.mem_row_iff.1 hn).2))
  exact ⟨hdiff i hi, fun he => hdiff n (hs.next_mem_row hi he) rfl⟩

/-- Neither a node nor one behind it is followed by it. -/
theorem Sound.next_ne (hs : t.Sound) {seat : Seat} {pre post : List NodeId} {n : NodeId}
    (h : t.Split seat pre n post) {i : NodeId} (hi : i ∈ n :: post) : t.next? i ≠ some n := by
  have hpath : t.Path (some n) (n :: post) none := ⟨rfl, h.behind⟩
  exact fun he => hs.not_under (hs.linked.hangsFrom_next he) (hpath.under hs.linked i hi)

theorem seatHead_congr (hsize : t'.size = t.size) {seat : Seat}
    (hslot : ∀ o s, seat = .slot o s → t'.head o s = t.head o s)
    (hloose : ∀ h, seat = .loose h → (t'.place h = .root ↔ t.place h = .root)) :
    t'.seatHead seat = t.seatHead seat := by
  cases seat with
  | slot o s => exact hslot o s rfl
  | loose h =>
    simp only [seatHead, hsize, hloose h rfl]

/-- A row none of whose links is written is kept. -/
theorem Sound.row_kept (hs : t.Sound) (hs' : t'.Sound) {seat : Seat}
    (hhead : t'.seatHead seat = t.seatHead seat)
    (hnext : ∀ i ∈ t.row seat, t'.next? i = t.next? i) : t'.row seat = t.row seat :=
  hs'.row_eq (hhead ▸ (hs.path_row seat).congr hnext)

/-- A node that has become unlinked heads a row of its own. -/
theorem Sound.row_loose_eq (hs' : t'.Sound) {i : NodeId} (hi : i < t'.size)
    (hroot : t'.place i = .root) (h : t'.Path (t'.next? i) l none) :
    t'.row (.loose i) = i :: l := by
  refine hs'.row_eq ?_
  rw [seatHead_loose hi hroot]
  exact ⟨rfl, h⟩

/-- A linked node has no row of its own. -/
theorem row_loose_nil {i : NodeId} (hi : t.place i ≠ .root) : t.row (.loose i) = [] := by
  refine row_eq_nil ?_
  cases hh : t.seatHead (.loose i) with
  | none => rfl
  | some j =>
    obtain ⟨rfl, -, hroot⟩ := seatHead_loose_iff.1 hh
    exact absurd hroot hi

theorem ne_loose_of_mem {seat : Seat} {n : NodeId} (hi : t.place n ≠ .root)
    (hmem : n ∈ t.row seat) : seat ≠ .loose n := by
  rintro rfl
  rw [row_loose_nil hi] at hmem
  cases hmem

theorem Sound.last_mem_row (hs : t.Sound) {o : NodeId} (ho : o < t.size)
    (hroot : t.place o = .root) : t.last o ∈ t.row (.loose o) := by
  obtain ⟨l, hl, -⟩ := hs.chain_last ho
  rw [row_loose ho hroot, hl]
  simp

/-- Where a slot that held `n` is given another head, so is the row. -/
theorem Mutual.seatHead_cut (hm : t.Mutual) {seat : Seat} {n : NodeId} {head : Option NodeId}
    (hsize : t'.size = t.size)
    (hhead : ∀ q s, t'.head q s = if t.place n = .slot q s then head else t.head q s)
    (hseat : seat ≠ .loose n)
    (hloose : ∀ h, seat = .loose h → (t'.place h = .root ↔ t.place h = .root)) :
    t'.seatHead seat = if t.seatHead seat = some n then head else t.seatHead seat := by
  cases seat with
  | slot q s =>
    show t'.head q s = if t.head q s = some n then head else t.head q s
    rw [hhead]
    simp only [← hm.head_iff]
  | loose h =>
    have hne : n ≠ h := fun he => hseat (he ▸ rfl)
    rw [if_neg fun he => hne (seatHead_loose_iff.1 he).1]
    exact seatHead_congr hsize (fun _ _ he => by cases he) fun _ he => by
      cases he
      exact hloose h rfl

-- =============================================================== notes

theorem notes?_update {t : Tree} {i : NodeId} {f : Node → Node}
    (hf : ∀ n, (f n).notes = n.notes) (j : NodeId) :
    (t.update i f).notes? j = t.notes? j := by
  unfold Tree.notes?
  rw [node?_update]
  split
  · rw [Option.map_map]
    congr 1
    funext n
    exact hf n
  · rfl

@[simp] theorem notes?_setPlace (t : Tree) (i j : NodeId) (p : Place) :
    (t.setPlace i p).notes? j = t.notes? j :=
  notes?_update (f := fun n => { n with place := p }) (fun _ => rfl) j

@[simp] theorem notes?_setNext (t : Tree) (i j : NodeId) (next : Option NodeId) :
    (t.setNext i next).notes? j = t.notes? j :=
  notes?_update (f := fun n => { n with next := next }) (fun _ => rfl) j

@[simp] theorem notes?_setHead (t : Tree) (i j : NodeId) (s : Slot) (head : Option NodeId) :
    (t.setHead i s head).notes? j = t.notes? j :=
  notes?_update (f := fun n => { n with heads := n.heads.set s head }) (fun _ => rfl) j

@[simp] theorem notes?_hold (t : Tree) (p : Place) (head : Option NodeId) (j : NodeId) :
    (t.hold p head).notes? j = t.notes? j := by
  cases p <;> simp [Tree.hold]

@[simp] theorem notes?_followWith (t : Tree) (i j : NodeId) (next : Option NodeId) :
    (t.followWith i next).notes? j = t.notes? j := by
  cases next <;> simp [followWith]

-- ============================================================== rows

section Rows

variable {seat : Seat} {pre post : List NodeId} {n o : NodeId} (hs : t.Sound)
  (hrow : t.row seat = pre ++ n :: post)

include hs hrow

/-- The row is cut before `n`. -/
theorem Sound.unlink_rows (hi : t.place n ≠ .root) :
    Rearranged t (t.unlink n) [(seat, pre), (.loose n, n :: post)] := by
  have hlt := lt_size_of_place hi
  have hs' := hs.unlink hlt
  have hsplit := hs.split hrow
  have hmem : n ∈ t.row seat := by simp [hrow]
  have hplace := place_unlink (t := t) hlt
  have hnext := next?_unlink hs.linked n
  have hhead := head_unlink hs.linked n
  have hsize : (t.unlink n).size = t.size := by simp [Tree.unlink]
  have hloose : ∀ h, n ≠ h → ((t.unlink n).place h = .root ↔ t.place h = .root) := fun h hne => by
    rw [hplace, if_neg hne]
  have hseat := ne_loose_of_mem hi hmem
  -- whatever led to `n` leads nowhere
  have hcut := hs.linked.seatHead_cut hsize hhead hseat fun h he =>
    hloose h fun hnh => hseat (hnh ▸ he)
  refine ⟨hs', hsize, kind?_unlink t n, fun j => by simp [Tree.unlink], fun r hr => ?_,
    fun seat' hout => ?_⟩
  · rcases List.mem_pair.1 hr with rfl | rfl
    · refine hs'.row_eq ?_
      rw [hcut]
      refine hsplit.before.redirect (fun i hi he => ?_) fun i _ => ?_
      · exact hsplit.not_before (Option.some.inj he ▸ hi)
      · rw [hnext]
        simp only [← hs.linked.next_iff]
    · have hsame : ∀ i ∈ n :: post, (t.unlink n).next? i = t.next? i := fun i hi => by
        have hne := hs.next_ne hsplit hi
        rw [hnext, if_neg fun he => hne ((hs.linked.next_iff i n).2 he)]
      refine hs'.row_loose_eq (hsize ▸ hlt) (by rw [hplace, if_pos rfl]) ?_
      rw [hsame n (List.mem_cons_self ..)]
      exact hsplit.behind.congr fun i hi => hsame i (List.mem_cons_of_mem _ hi)
  · simp only [List.map_cons, List.map_nil, List.mem_cons, List.not_mem_nil, or_false,
      not_or] at hout
    refine hs.row_kept hs' (seatHead_congr hsize (fun q s he => ?_) fun h he => ?_) fun i hi => ?_
    · subst he
      have hne := hs.head_apart hout.1 hmem
      rw [hhead, if_neg fun he => hne ((hs.linked.head_iff q s n).2 he)]
    · subst he
      exact hloose h fun he => hout.2 (he ▸ rfl)
    · have hne := (hs.apart hout.1 hi hmem).2
      rw [hnext, if_neg fun he => hne ((hs.linked.next_iff i n).2 he)]

section Graft

variable (ho : o < t.size) (hroot : t.place o = .root) (hfree : ¬ t.Under n o)

include ho hroot hfree

/-- The chain of a root that `n` is not below is another row. -/
theorem Sound.other_row : seat ≠ .loose o := by
  rintro rfl
  have hpath := hs.path_chain fun j (hj : some o = some j) => Option.some.inj hj ▸ ho
  refine hfree (hpath.under hs.linked n ?_)
  rw [← row_loose ho hroot, hrow]
  simp

/-- The chain of `o` takes the place of `n` in the row. -/
theorem Sound.splice_rows (hi : t.place n ≠ .root) :
    Rearranged t (t.splice n o)
      [(seat, pre ++ t.chain (some o) ++ post), (.loose o, []), (.loose n, [n])] := by
  have hlt := lt_size_of_place hi
  have hs' := hs.splice hi ho hfree hroot
  have hsplit := hs.split hrow
  have hmem : n ∈ t.row seat := by simp [hrow]
  have hplace := hs.place_splice hi ho hfree hroot
  have hnext := hs.next?_splice hi ho hfree
  have hhead := hs.linked.head_splice n o
  have hsize := size_splice t n o
  have hother := hs.other_row hrow ho hroot hfree
  have hlast := hs.last_mem_row ho hroot
  have hno : n ≠ o := fun he => hfree (he ▸ .refl)
  have hloose : ∀ h, n ≠ h → o ≠ h → ((t.splice n o).place h = .root ↔ t.place h = .root) := by
    intro h hnh hoh
    rw [hplace, if_neg hnh, if_neg hoh]
    split
    · next he =>
      rw [(hs.linked.next_iff n h).1 he]
      exact ⟨fun h => (nomatch h), fun h => (nomatch h)⟩
    · exact Iff.rfl
  have hseat := ne_loose_of_mem hi hmem
  -- whatever led to `n` leads to `o`
  have hcut := hs.linked.seatHead_cut hsize hhead hseat fun h he =>
    hloose h (fun hnh => hseat (hnh ▸ he)) fun hoh => hother (hoh ▸ he)
  refine ⟨hs', hsize, kind?_splice t n o, fun j => ?_, fun r hr => ?_, fun seat' hout => ?_⟩
  · rw [splice_eq]
    simp [settle]
  · simp only [List.mem_cons, List.not_mem_nil, or_false] at hr
    rcases hr with rfl | rfl | rfl
    · refine hs'.row_eq (path_append.2 ⟨t.next? n,
        path_append.2 ⟨some o, ?_, hs.path_onto ho ?_⟩, ?_⟩)
      · rw [hcut]
        refine hsplit.before.redirect (fun i hi he => ?_) fun i hi => ?_
        · exact hsplit.not_before (Option.some.inj he ▸ hi)
        · have hin : n ≠ i := fun he => hsplit.not_before (he ▸ hi)
          have hil := (hs.apart (i := i) hother (by simp [hrow, hi]) hlast).1
          rw [hnext, if_neg hin, if_neg (Ne.symm hil)]
          simp only [← hs.linked.next_iff]
      · intro i hi
        rw [← row_loose ho hroot] at hi
        obtain ⟨hin, hne⟩ := hs.apart (Ne.symm hother) hi hmem
        rw [hnext, if_neg (Ne.symm hin), if_neg fun he => hne ((hs.linked.next_iff i n).2 he)]
      · refine hsplit.behind.congr fun i hi => ?_
        have hin : n ≠ i := fun he => hsplit.not_behind (he ▸ hi)
        have hne := hs.next_ne hsplit (List.mem_cons_of_mem _ hi)
        have hil := (hs.apart (i := i) hother (by simp [hrow, hi]) hlast).1
        rw [hnext, if_neg hin, if_neg fun he => hne ((hs.linked.next_iff i n).2 he),
          if_neg (Ne.symm hil)]
    · refine row_loose_nil ?_
      rwa [hplace, if_neg hno, if_pos rfl]
    · refine hs'.row_loose_eq (hsize ▸ hlt) (by rw [hplace, if_pos rfl]) ?_
      rw [hnext, if_pos rfl]
      rfl
  · simp only [List.map_cons, List.map_nil, List.mem_cons, List.not_mem_nil, or_false,
      not_or] at hout
    refine hs.row_kept hs' (seatHead_congr hsize (fun q s he => ?_) fun h he => ?_) fun i hi => ?_
    · subst he
      have hne := hs.head_apart hout.1 hmem
      rw [hhead, if_neg fun he => hne ((hs.linked.head_iff q s n).2 he)]
    · subst he
      exact hloose h (fun he => hout.2.2 (he ▸ rfl)) fun he => hout.2.1 (he ▸ rfl)
    · obtain ⟨hin, hne⟩ := hs.apart hout.1 hi hmem
      have hil := (hs.apart hout.2.1 hi hlast).1
      rw [hnext, if_neg (Ne.symm hin), if_neg fun he => hne ((hs.linked.next_iff i n).2 he),
        if_neg (Ne.symm hil)]

/-- The chain of `o` comes right behind `n`. -/
theorem Sound.linkAfter_rows :
    Rearranged t (t.linkAfter n o)
      [(seat, pre ++ n :: (t.chain (some o) ++ post)), (.loose o, [])] := by
  have hsplit := hs.split hrow
  have hmem : n ∈ t.row seat := by simp [hrow]
  have hlt := hs.lt_of_mem_row hmem
  have hs' := hs.linkAfter ho hlt hroot hfree
  have hplace := hs.place_linkAfter (i := n) ho
  have hnext := hs.next?_linkAfter ho hlt
  have hsize : (t.linkAfter n o).size = t.size := by
    simp [Tree.linkAfter, size_followWith]
  have hother := hs.other_row hrow ho hroot hfree
  have hlast := hs.last_mem_row ho hroot
  have hkeep : ∀ seat', seat' ≠ .loose o →
      (t.linkAfter n o).seatHead seat' = t.seatHead seat' := fun seat' hne =>
    seatHead_congr hsize (fun q s _ => head_linkAfter n o q s) fun h he => by
      subst he
      have hoh : o ≠ h := fun he => hne (he ▸ rfl)
      rw [hplace, if_neg hoh]
      split
      · next he =>
        rw [(hs.linked.next_iff n h).1 he]
        exact ⟨fun h => (nomatch h), fun h => (nomatch h)⟩
      · exact Iff.rfl
  have hsame : ∀ seat', seat' ≠ .loose o → ∀ i ∈ t.row seat', n ≠ i →
      (t.linkAfter n o).next? i = t.next? i := fun seat' hne i hi hin => by
    rw [hnext, if_neg hin, if_neg (hs.apart hne hi hlast).1.symm]
  refine ⟨hs', hsize, kind?_linkAfter n o, fun j => ?_, fun r hr => ?_, fun seat' hout => ?_⟩
  · unfold Tree.linkAfter
    simp
  · rcases List.mem_pair.1 hr with rfl | rfl
    · refine hs'.row_eq (path_append.2 ⟨some n, ?_, rfl, ?_⟩)
      · rw [hkeep seat hother]
        exact hsplit.before.congr fun i hi => hsame seat hother i (by simp [hrow, hi])
          fun he => hsplit.not_before (he ▸ hi)
      · rw [hnext, if_pos rfl]
        refine path_append.2 ⟨t.next? n, hs.path_onto ho fun i hi => ?_, ?_⟩
        · rw [← row_loose ho hroot] at hi
          rw [hnext, if_neg (hs.apart (Ne.symm hother) hi hmem).1.symm]
        · exact hsplit.behind.congr fun i hi => hsame seat hother i (by simp [hrow, hi])
            fun he => hsplit.not_behind (he ▸ hi)
    · refine row_loose_nil ?_
      rw [hplace, if_pos rfl]
      exact Place.noConfusion
  · simp only [List.map_cons, List.map_nil, List.mem_cons, List.not_mem_nil, or_false,
      not_or] at hout
    exact hs.row_kept hs' (hkeep seat' hout.2) fun i hi =>
      hsame seat' hout.2 i hi (hs.apart hout.1 hi hmem).1.symm

end Graft

end Rows

/-- The chain of `o` is hung into an empty slot. -/
theorem Sound.hang_rows (hs : t.Sound) {p o : NodeId} {s : Slot} (hp : p < t.size)
    (ho : o < t.size) (hroot : t.place o = .root) (hfree : ¬ t.Under p o)
    (hslot : ∃ k, t.kind? p = some k ∧ s ∈ k.slots) (hempty : t.head p s = none) :
    Rearranged t (t.hang p s o) [(.slot p s, t.chain (some o)), (.loose o, [])] := by
  have hs' := hs.hang ho hp hroot hfree hslot hempty
  have hplace := place_hang (t := t) (o := p) (s := s) ho
  have hsize : (t.hang p s o).size = t.size := by simp [Tree.hang]
  have hbound : ∀ j, some o = some j → j < t.size := fun j hj => Option.some.inj hj ▸ ho
  refine ⟨hs', hsize, kind?_hang, fun j => by simp [Tree.hang], fun r hr => ?_,
    fun seat' hout => ?_⟩
  · rcases List.mem_pair.1 hr with rfl | rfl
    · refine hs'.row_eq ?_
      rw [show (t.hang p s o).seatHead (.slot p s) = some o by
        show (t.hang p s o).head p s = some o
        rw [head_hang hp, if_pos ⟨rfl, rfl⟩]]
      exact (hs.path_chain hbound).congr fun i _ => next?_hang i
    · refine row_loose_nil ?_
      rw [hplace, if_pos rfl]
      exact Place.noConfusion
  · simp only [List.map_cons, List.map_nil, List.mem_cons, List.not_mem_nil, or_false,
      not_or] at hout
    refine hs.row_kept hs' (seatHead_congr hsize (fun q s' he => ?_) fun h he => ?_)
      fun i _ => next?_hang i
    · subst he
      rw [head_hang hp, if_neg fun he => hout.1 (by rw [he.1, he.2])]
    · subst he
      have hne : o ≠ h := fun he => hout.2 (he ▸ rfl)
      rw [hplace, if_neg hne]

end Tree

end RegisterMap.Code
