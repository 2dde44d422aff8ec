/-
A cursor over siblings that are rewritten on the way. Whoever is handed a
node may replace it, cut it, detach it or leave it, and may add nodes
first; what is done may depend on everything seen so far (`Policy`).

What the cursor has to hand out yet stays a path along next links, whatever
is done with the node handed out last (`Ahead.respond`): each operation
leaves the siblings behind that node together, as the end of some row. So
every run hands out the chain there was at the start, node by node, and
then nothing (`cursor_hands_out`). The loop over a chain that is run has
fuel for the whole of it (`forSiblings_lists`).
-/
import RegisterMap.Code.Cursor
import RegisterMap.Proofs.Code.Joining
import RegisterMap.Proofs.Code.RowEdits

namespace RegisterMap.Code

-- ============================================================== policies

/-- What is done with a node that was handed out. -/
inductive Rewrite where
  | keep
  | replace (other : NodeId)
  | cut
  | detach
  deriving DecidableEq, Repr

def Rewrite.edit (i : NodeId) : Rewrite → Edit Unit
  | .keep => pure ()
  | .replace other => Edit.replace i other
  | .cut => Edit.cut i
  | .detach => Edit.detach i

/-- The answer to a node: nodes are added, each with the chains it claims,
and the node is rewritten. -/
structure Response where
  added : List (Kind × List (Slot × Option NodeId)) := []
  rewrite : Rewrite := .keep

def Edit.addAll (added : List (Kind × List (Slot × Option NodeId))) : Edit Unit :=
  added.forM fun new => discard (Edit.add new.1 new.2)

def Response.edit (i : NodeId) (r : Response) : Edit Unit := do
  Edit.addAll r.added
  r.rewrite.edit i

namespace Edit

variable {t t' : Tree}

/-- An edit that splices rows and succeeds has rearranged them. -/
theorem Splices.rearranged {α : Type} {e : Edit α} {cond : Prop}
    {answer a : α} {rows : List (Seat × List NodeId)} (h : e.Splices t cond answer rows)
    (hrun : e t = (.ok a, t')) : Tree.Rearranged t t' rows := by
  have hcond : cond := by
    by_contra hnot
    obtain ⟨f, hf⟩ := h.failure hnot
    cases hf.symm.trans hrun
  obtain ⟨u, hu, hrows⟩ := h.success hcond
  obtain rfl : u = t' := congrArg Prod.snd (hu.symm.trans hrun)
  exact hrows

/-- A node that is added follows nothing, and nothing follows it. -/
theorem add_keeps_next (hs : t.Sound) {kind : Kind} {links : List (Slot × Option NodeId)}
    {j : NodeId} (hrun : add kind links t = (.ok j, t')) :
    t'.Sound ∧ t'.size = t.size + 1 ∧ ∀ k, t'.next? k = t.next? k := by
  obtain ⟨-, hadd, rfl⟩ := add_run hrun
  obtain ⟨hclaim, -⟩ := Tree.check_bind_iff.1 hadd
  refine ⟨hs.adopt hclaim, ?_⟩
  rw [Tree.adopt_eq_claim]
  obtain ⟨hsize, -, hnext, -⟩ := Tree.claim_reads kind.slots
    (t.push { kind, heads := (Heads.ofList links).restrict kind.slots }).2 t.size
    (Heads.ofList links)
  exact ⟨hsize.trans (Tree.size_push ..), fun k => (hnext k).trans (Tree.next?_push ..)⟩

end Edit

/-- The nodes handed out so far, each with the tree it was found in. -/
abbrev History := List (NodeId × Tree)

/-- What is done with the last node of a history. -/
abbrev Policy := History → Response

namespace Cursor

/-- A policy was followed for some rounds, all of which succeeded. -/
inductive Reaches (policy : Policy) (start : Tree) (head : Option NodeId) :
    History → Tree → Cursor → Prop
  | start : Reaches policy start head [] start ⟨head⟩
  | round {seen : History} {t t' : Tree} {c c' : Cursor} {i : NodeId} :
    Reaches policy start head seen t c → c.step t = (.ok (some (i, c')), t) →
    (policy (seen ++ [(i, t)])).edit i t = (.ok (), t') →
    Reaches policy start head (seen ++ [(i, t)]) t' c'

/-- The cursor has the nodes listed before it. -/
structure Ahead (t : Tree) (c : Cursor) (rest : List NodeId) : Prop where
  sound : t.Sound
  path : t.Path c.next rest none
  lt_size : ∀ i ∈ rest, i < t.size

variable {t t' : Tree} {c : Cursor} {i other : NodeId} {rest : List NodeId}

-- ================================================================= steps

theorem step_end (h : Ahead t c []) : c.step t = (.ok none, t) := by
  have hnext : c.next = none := h.path
  unfold step
  rw [hnext]
  rfl

theorem step_node (h : Ahead t c (i :: rest)) :
    c.step t = (.ok (some (i, ⟨t.next? i⟩)), t) := by
  have hnext : c.next = some i := h.path.1
  obtain ⟨n, hn⟩ := Tree.exists_node?_of_lt (h.lt_size i (List.mem_cons_self ..))
  unfold step
  rw [hnext]
  refine Edit.read_run ?_
  unfold Tree.node Tree.next?
  rw [hn]
  rfl

/-- A cursor that has handed out nothing has the whole chain before it. -/
theorem ahead_chain (hs : t.Sound) (hhead : ∀ i, c.next = some i → i < t.size) :
    Ahead t c (t.chain c.next) :=
  have hpath := hs.path_chain hhead
  ⟨hs, hpath, hpath.lt_size hs.linked hhead⟩

/-- The nodes behind one that was handed out. -/
theorem Ahead.tail (h : Ahead t c (i :: rest)) : Ahead t ⟨t.next? i⟩ rest :=
  ⟨h.sound, h.path.2, fun j hj => h.lt_size j (List.mem_cons_of_mem _ hj)⟩

-- =============================================================== adding

/-- Nodes that are added follow no node there was. -/
theorem addAll_keeps (hs : t.Sound) {added : List (Kind × List (Slot × Option NodeId))}
    (hrun : Edit.addAll added t = (.ok (), t')) :
    t'.Sound ∧ t.size ≤ t'.size ∧ ∀ k, t'.next? k = t.next? k := by
  induction added generalizing t with
  | nil =>
    cases hrun
    exact ⟨hs, Nat.le_refl _, fun _ => rfl⟩
  | cons new added ih =>
    obtain ⟨⟨⟩, t₁, hfirst, hrest⟩ := Edit.exists_of_bind_run hrun
    obtain ⟨j, hadd⟩ := Edit.exists_of_discard_run hfirst
    obtain ⟨hs₁, hsize, hnext₁⟩ := Edit.add_keeps_next hs hadd
    obtain ⟨hs', hle, hnext⟩ := ih hs₁ hrest
    exact ⟨hs', by omega, fun k => (hnext k).trans (hnext₁ k)⟩

-- ============================================================ rewriting

/-- The nodes at the end of a row. -/
theorem ahead_of_row (hs : t.Sound) {seat : Seat} {before : List NodeId}
    (hrow : t.row seat = before ++ rest) : Ahead t ⟨rest.head?⟩ rest := by
  obtain ⟨b, -, hpath⟩ := Tree.path_append.1 (hrow ▸ hs.path_row seat)
  exact ⟨hs, hpath.head_eq ▸ hpath,
    fun j hj => hs.lt_of_mem_row (hrow ▸ List.mem_append_right _ hj)⟩

/-- A chain that can be linked is there. -/
theorem other_lt_size (hrun : Edit.replace i other t = (.ok (), t')) : other < t.size := by
  unfold Edit.replace Edit.change at hrun
  obtain ⟨⟨⟩, hcheck, -⟩ := Edit.exists_of_guarded_run hrun
  obtain ⟨-, hcheck⟩ := Tree.check_bind_iff.1 hcheck
  obtain ⟨hun, -⟩ := Tree.check_bind_iff.1 hcheck
  exact (Tree.requireUnlinked_iff.1 hun).1

/-- However a node is rewritten, the nodes behind it end up as the end of a
row: its own one, the one its successor then heads, or the one it takes
along. -/
theorem exists_row_rewrite (hs : t.Sound) {seat : Seat} {pre post : List NodeId}
    (hrow : t.row seat = pre ++ i :: post) {rewrite : Rewrite}
    (hrun : rewrite.edit i t = (.ok (), t')) :
    t'.Sound ∧ ∃ seat' before, t'.row seat' = before ++ post := by
  have hi : i < t.size := hs.lt_of_mem_row (hrow ▸ List.mem_append_right _ (List.mem_cons_self ..))
  cases rewrite with
  | keep =>
    cases hrun
    exact ⟨hs, seat, pre ++ [i], by rw [hrow, List.append_cons]⟩
  | replace other =>
    have h := (hs.replace_splices hi (other_lt_size hrun) hrow).rearranged hrun
    exact ⟨h.sound, seat, _, h.mem_given (List.mem_cons_self ..)⟩
  | cut =>
    have h := (hs.cut_splices hi hrow).rearranged hrun
    exact ⟨h.sound, _, pre, h.mem_given (List.mem_cons_self ..)⟩
  | detach =>
    have h := (hs.detach_splices hrow).rearranged hrun
    exact ⟨h.sound, .loose i, [i], h.mem_given (List.mem_cons_of_mem _ (List.mem_cons_self ..))⟩

theorem Ahead.rewrite {rewrite : Rewrite} (h : Ahead t ⟨t.next? i⟩ rest) (hi : i < t.size)
    (hrun : rewrite.edit i t = (.ok (), t')) : Ahead t' ⟨t.next? i⟩ rest := by
  obtain ⟨pre, post, hrow⟩ := List.append_of_mem (h.sound.mem_row_iff.2 ⟨hi, rfl⟩)
  obtain rfl : rest = post := h.path.unique (h.sound.split hrow).behind
  obtain ⟨hs', seat', before, hrow'⟩ := exists_row_rewrite h.sound hrow hrun
  rw [show t.next? i = rest.head? from h.path.head_eq]
  exact ahead_of_row hs' hrow'

/-- What is behind a node stays behind it, whatever is done with it. -/
theorem Ahead.respond {r : Response} (h : Ahead t ⟨t.next? i⟩ rest) (hi : i < t.size)
    (hrun : r.edit i t = (.ok (), t')) : Ahead t' ⟨t.next? i⟩ rest := by
  obtain ⟨⟨⟩, t₁, hadd, hrewrite⟩ := Edit.exists_of_bind_run hrun
  obtain ⟨hs₁, hle, hnext⟩ := addAll_keeps h.sound hadd
  have h₁ : Ahead t₁ ⟨t₁.next? i⟩ rest := ⟨hs₁, hnext i ▸ h.path.congr fun k _ => hnext k,
    fun k hk => Nat.lt_of_lt_of_le (h.lt_size k hk) hle⟩
  exact hnext i ▸ h₁.rewrite (Nat.lt_of_lt_of_le hi hle) hrewrite

-- ================================================================= runs

variable {policy : Policy} {start : Tree} {head : Option NodeId} {seen : History}

/-- After any number of rounds, the chain there was consists of the nodes
handed out and those that are ahead. -/
theorem Reaches.ahead (hs : start.Sound) (hhead : ∀ i, head = some i → i < start.size)
    (h : Reaches policy start head seen t c) :
    ∃ rest, start.chain head = seen.map Prod.fst ++ rest ∧ Ahead t c rest := by
  induction h with
  | start => exact ⟨_, rfl, ahead_chain hs hhead⟩
  | @round seen t t' c c' i _ hstep hrun ih =>
    obtain ⟨rest, hchain, hahead⟩ := ih
    cases rest with
    | nil => cases (step_end hahead).symm.trans hstep
    | cons j rest =>
      cases (step_node hahead).symm.trans hstep
      have hi := hahead.lt_size i (List.mem_cons_self ..)
      exact ⟨rest, by simp [hchain], hahead.tail.respond hi hrun⟩

/-- The loop over a chain, where what is done with a node depends on the
node: if it comes to an end, it has listed the chain. -/
theorem Ahead.runFrom {respond : NodeId → Response} {fuel : Nat} {listed : List NodeId}
    (h : Ahead t c rest) (hfuel : rest.length < fuel)
    (hrun : Cursor.runFrom (fun i => (respond i).edit i) fuel c t = (.ok listed, t')) :
    listed = rest ∧ t'.Sound := by
  induction rest generalizing t c fuel listed with
  | nil =>
    obtain ⟨fuel, rfl⟩ := Nat.exists_eq_succ_of_ne_zero (Nat.ne_of_gt hfuel)
    unfold Cursor.runFrom at hrun
    rw [Edit.bind_run (step_end h)] at hrun
    cases hrun
    exact ⟨rfl, h.sound⟩
  | cons i rest ih =>
    obtain ⟨fuel, rfl⟩ := Nat.exists_eq_succ_of_ne_zero (Nat.ne_of_gt (Nat.zero_lt_of_lt hfuel))
    unfold Cursor.runFrom at hrun
    rw [Edit.bind_run (step_node h)] at hrun
    obtain ⟨⟨⟩, t₁, hact, hrun⟩ := Edit.exists_of_bind_run hrun
    obtain ⟨listed', t₂, hrest, hpure⟩ := Edit.exists_of_bind_run hrun
    have hahead := h.tail.respond (h.lt_size i (List.mem_cons_self ..)) hact
    cases hpure
    obtain ⟨rfl, hs'⟩ := ih hahead (Nat.lt_of_succ_lt_succ hfuel) hrest
    exact ⟨rfl, hs'⟩

/-- A loop over siblings that comes to an end has listed the chain: its
fuel, the size of the arena, is enough for any chain. -/
theorem forSiblings_lists {respond : NodeId → Response} {listed : List NodeId} (hs : t.Sound)
    (hhead : ∀ i, head = some i → i < t.size)
    (hrun : Edit.forSiblings head (fun i => (respond i).edit i) t = (.ok listed, t')) :
    listed = t.chain head ∧ t'.Sound := by
  have hahead : Ahead t ⟨head⟩ (t.chain head) := ahead_chain hs hhead
  have hlen := Tree.length_le_size (hahead.path.nodup hs) hahead.lt_size
  exact hahead.runFrom (Nat.lt_succ_of_le hlen) hrun

/-- As long as nodes are ahead, the run can go on. -/
theorem Reaches.exists_end {rest : List NodeId}
    (hsucceeds : ∀ seen t c i c', Reaches policy start head seen t c →
      c.step t = (.ok (some (i, c')), t) →
      ((policy (seen ++ [(i, t)])).edit i t).1 = .ok ())
    (h : Reaches policy start head seen t c) (hahead : Ahead t c rest) :
    ∃ seen' t' c', Reaches policy start head seen' t' c'
      ∧ seen'.map Prod.fst = seen.map Prod.fst ++ rest ∧ c'.step t' = (.ok none, t') := by
  induction rest generalizing seen t c with
  | nil => exact ⟨seen, t, c, h, (List.append_nil _).symm, step_end hahead⟩
  | cons i rest ih =>
    have hstep := step_node hahead
    have hrun : (policy (seen ++ [(i, t)])).edit i t = (.ok (), _) :=
      Prod.ext (hsucceeds _ _ _ _ _ h hstep) rfl
    have hi := hahead.lt_size i (List.mem_cons_self ..)
    obtain ⟨seen', t', c', h', hseen, hend⟩ :=
      ih (h.round hstep hrun) (hahead.tail.respond hi hrun)
    exact ⟨seen', t', c', h', by simp [hseen], hend⟩

/-- A cursor hands out the chain there was when it was made: each node once
and in order, then nothing, whatever nodes are added and however those
handed out are replaced, cut or detached. -/
theorem cursor_hands_out (policy : Policy) (hs : start.Sound)
    (hhead : ∀ i, head = some i → i < start.size)
    (hsucceeds : ∀ seen t c i c', Reaches policy start head seen t c →
      c.step t = (.ok (some (i, c')), t) →
      ((policy (seen ++ [(i, t)])).edit i t).1 = .ok ()) :
    start.Path head (start.chain head) none ∧ (start.chain head).Nodup
      ∧ (∀ seen t c, Reaches policy start head seen t c →
        seen.map Prod.fst = (start.chain head).take seen.length
          ∧ c.step t
            = (.ok ((start.chain head)[seen.length]?.map fun i => (i, ⟨t.next? i⟩)), t))
      ∧ ∃ seen t c, Reaches policy start head seen t c
        ∧ seen.map Prod.fst = start.chain head ∧ c.step t = (.ok none, t) := by
  have hstart : Ahead start ⟨head⟩ (start.chain head) := ahead_chain hs hhead
  refine ⟨hstart.path, hstart.path.nodup hs, fun seen t c h => ?_,
    Reaches.exists_end hsucceeds .start hstart⟩
  obtain ⟨rest, hchain, hahead⟩ := h.ahead hs hhead
  rw [hchain]
  refine ⟨by simp, ?_⟩
  cases rest with
  | nil => simpa using step_end hahead
  | cons i rest => simpa using step_node hahead

/-- Three statements behind a condition. -/
def guardedStatements : Tree := Tree.built [.leaf (.snippet "a"), .leaf (.snippet "b"),
  .leaf (.snippet "c"), .leaf (.snippet "d"), .branch 0 [1, 2, 3] []]

/-- Each node is replaced by the one handed out before it where this can be
done, or else cut. -/
def reuse : Policy := fun seen =>
  match seen.reverse with
  | [] => {}
  | (i, t) :: earlier =>
    let rewrites := earlier.head?.toList.map (Rewrite.replace ·.1) ++ [.cut]
    let works := fun rewrite : Rewrite => (rewrite.edit i t).1.isOk
    { rewrite := (rewrites.find? works).getD .keep }

theorem reuse_succeeds (seen : History) (i : NodeId) (t : Tree) :
    ((reuse (seen ++ [(i, t)])).edit i t).1 = .ok () := by
  unfold reuse
  rw [List.reverse_append, List.reverse_singleton, List.singleton_append]
  dsimp only
  generalize hfind : List.find? _ _ = found
  cases found with
  | none => rfl
  | some rewrite =>
    have hworks := List.find?_some hfind
    show (rewrite.edit i t).1 = .ok ()
    cases hrun : (rewrite.edit i t).1 with
    | error f =>
      rw [hrun] at hworks
      cases hworks
    | ok u => rfl

/-- The first statement is cut, the second one replaced by the first, the
third one by the second: all three are handed out. -/
theorem cursor_hands_out_reused : guardedStatements.Sound ∧ 1 < guardedStatements.size
    ∧ ∃ seen t c, Reaches reuse guardedStatements (some 1) seen t c
      ∧ seen.map Prod.fst = [1, 2, 3] ∧ c.step t = (.ok none, t) := by
  have hs : guardedStatements.Sound := Tree.sound_built _
  have hhead : 1 < guardedStatements.size := by decide
  have hchain : guardedStatements.chain (some 1) = [1, 2, 3] := by decide
  obtain ⟨-, -, -, hend⟩ := cursor_hands_out reuse hs
    (fun i hi => Option.some.inj hi ▸ hhead) fun seen t _ i _ _ _ => reuse_succeeds seen i t
  exact ⟨hs, hhead, hchain ▸ hend⟩

end Cursor

end RegisterMap.Code
