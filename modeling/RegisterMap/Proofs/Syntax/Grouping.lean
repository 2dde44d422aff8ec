/-
The reading of what is emitted for a phrase in the arena. In rewritten
code no operand lacks parentheses, so the text of any phrase in it is
known, and what it reads as: the phrase itself, up to parentheses and
regrouping, if and only if no access in it is to an operation
(`rewrite_reads`).
-/
import RegisterMap.Proofs.Syntax.Receivers
import RegisterMap.Proofs.Syntax.Forming

namespace RegisterMap.Code

/-- The fences of a piece of code are those of all pieces below it. -/
theorem Term.Each.all {P : Shape → Prop} {x : Shape} (h : x.All P) : x.All (All P) := by
  induction h with
  | node htop hbelow ih => exact .node (.node htop hbelow) ih

-- =============================================================== reading

/-- What the text spells is the phrase, up to parentheses and regrouping. -/
def Phrase.ReadsBack (e : Phrase .operand) (text : String) : Prop :=
  ∃ g, Reads text g ∧ Regroups g.bare e.bare

namespace Phrase

variable {e : Phrase .operand}

/-- A text spells at most one phrase. -/
theorem Reads.unique {d g : Phrase .operand} {text : String} (hd : Reads text d)
    (hg : Reads text g) : d = g :=
  hd.1.unique hg.1 (Option.some_inj.1 (hd.2.symm.trans hg.2))

/-- The text of a phrase does not spell it if there is an access to an
operation. -/
theorem ReadsBack.bound (hlegible : e.isLegible = true) {text : String}
    (htext : text.toList = e.chars) (h : e.ReadsBack text) : e.bound = true := by
  obtain ⟨g, ⟨hproper, hlex⟩, hregroups⟩ := h
  exact bound_of_regroups hproper
    (Option.some_inj.1 (hlex.symm.trans (lex_legible hlegible htext))) hregroups

/-- The text of a neat phrase spells it if there is none and no run is
mixed. -/
theorem Neat.readsBack (h : e.Neat) (hlegible : e.isLegible = true) {text : String}
    (htext : text.toList = e.chars) (hbound : e.bound = true) (hun : e.unmixed = true) :
    e.ReadsBack text := by
  obtain ⟨⟨g, hg, -⟩, -⟩ := h.spells hbound
  exact ⟨g, ⟨hg.proper, (lex_legible hlegible htext).trans (congrArg some hg.marks.symm)⟩,
    hg.groups.regroups hun⟩

end Phrase

/-- The text of the code spells at most one phrase. Unless an access in `e`
is to an operation or a run is mixed, it spells `e`, up to parentheses and
regrouping; if an access is to an operation it does not. -/
def Tree.Conveys (t : Tree) (options : EmitOptions) (i : NodeId) (e : Phrase .operand) : Prop :=
  ∃ text, t.emit i options = .ok text
    ∧ (∀ d g, Phrase.Reads text d → Phrase.Reads text g → d = g)
    ∧ (e.ReadsBack text → e.bound = true)
    ∧ (e.bound = true → e.unmixed = true → e.ReadsBack text)

/-- Parentheses around operands of operations, and around the whole, are
nothing that is conveyed. -/
theorem Tree.Conveys.of_encloses {t : Tree} {options : EmitOptions} {i : NodeId}
    {e d : Phrase .operand} {w : Bool} (h : t.Conveys options i (d.wrapped w))
    (he : e.Encloses d) : t.Conveys options i e := by
  have hreads : ∀ text, (d.wrapped w).ReadsBack text ↔ e.ReadsBack text := fun text => by
    unfold Phrase.ReadsBack
    rw [Phrase.bare_wrapped, he.bare_eq]
  obtain ⟨text, htext, hunique, hfails, hholds⟩ := h
  rw [hreads, Phrase.bound_wrapped, he.bound_eq] at hfails hholds
  refine ⟨text, htext, hunique, hfails, fun hbound hun => hholds hbound ?_⟩
  rw [Phrase.unmixed_wrapped]
  exact he.unmixed hun

namespace Drafting

variable {t : Tree} {root : NodeId} {place : Place} {next : Option NodeId} {options : EmitOptions}
  {e : Phrase .operand}

theorem isBinary_shape (hs : t.Sound) (hroot : root < t.size)
    (hbin : ∀ op type, t.kind? root ≠ some (.binary op type)) :
    (t.shape root).kind.isBinary = false := by
  obtain ⟨x, rfl, hx, -⟩ := hs.exists_term hroot
  rw [Tree.shape_of_holds hx.holds (by simpa using hx.nodup), Term.kind_shape]
  exact Kind.isBinary_eq_false fun op type hk =>
    hbin op type (hx.holds.kind?_eq.trans (congrArg some hk))

/-- A node that is alone in a slot. -/
theorem mem_slots_of_head (hs : t.Sound) (hroot : root < t.size) {slot : Slot} {j : NodeId}
    (hhead : t.head root slot = some j) (hnext : t.next? j = none) :
    (slot, [t.shape j]) ∈ (t.shape root).kind.slots.zip (t.shape root).slots := by
  obtain ⟨x, rfl, hx, -⟩ := hs.exists_term hroot
  rw [Tree.shape_of_holds hx.holds (by simpa using hx.nodup)]
  cases x with
  | node id kind notes slots =>
    have hheads : headsOf kind.slots slots slot = some j := by
      have h := hhead
      unfold Tree.head at h
      rwa [hx.holds.node?_eq] at h
    have hmem : slot ∈ kind.slots := Decidable.of_not_not fun hnot => by
      rw [headsOf_of_not_mem hnot] at hheads
      cases hheads
    have hlen : slots.length = kind.slots.length := (Tree.holdsChain_singleton.1 hx.holds).1
    rw [← List.map_fst_zip (Nat.le_of_eq hlen.symm)] at hmem
    obtain ⟨⟨_, c⟩, hc, rfl⟩ := List.mem_map.1 hmem
    have hfirst := (hx.holds.head_eq hc).symm.trans hhead
    cases c with
    | nil => cases hfirst
    | cons v rest =>
      obtain rfl : v.tag = j := Option.some_inj.1 hfirst
      have hv := (Tree.holdsChain_cons.1 (hx.inSlot hc (List.cons_ne_nil _ _)).holds).1
      obtain rfl : rest = [] := by
        rw [hv.next?_eq] at hnext
        cases rest with
        | nil => rfl
        | cons w rest => cases hnext
      rw [Term.shape_node]
      show _ ∈ kind.slots.zip (slots.map (List.map Term.shape))
      rw [List.zip_map_right]
      obtain ⟨_, _, hstands⟩ := hx.child (List.of_mem_zip hc).2 (List.mem_singleton_self v)
      rw [Tree.shape_of_holds hstands.holds (by simpa using hstands.nodup)]
      exact List.mem_map.2 ⟨_, hc, rfl⟩

/-- What stands alone in a slot of standing code. -/
theorem exists_of_slot {z : Planted} (hz : t.Stands place next [z]) {slot : Slot} {y : Shape}
    (h : (slot, [y]) ∈ z.shape.kind.slots.zip z.shape.slots) :
    ∃ i, t.head z.tag slot = some i ∧ i ∈ z.tags ∧ t.shape i = y := by
  cases z with
  | node id kind notes slots =>
    rw [Term.shape_node] at h
    change _ ∈ kind.slots.zip (slots.map (List.map Term.shape)) at h
    rw [List.zip_map_right] at h
    obtain ⟨⟨_, c⟩, hc, heq⟩ := List.mem_map.1 h
    obtain ⟨rfl, hchain⟩ := Prod.mk.inj heq
    obtain ⟨v, rfl, rfl⟩ := List.map_eq_singleton_iff.1 hchain
    obtain ⟨_, _, hv⟩ := hz.child (List.of_mem_zip hc).2 (List.mem_singleton_self v)
    refine ⟨v.tag, hz.holds.head_eq hc, ?_, Tree.shape_of_holds hv.holds (by simpa using hv.nodup)⟩
    rw [Term.tags_node]
    exact List.mem_cons_of_mem _ (List.mem_flatMap.2 ⟨v, List.mem_flatten.2
      ⟨_, (List.of_mem_zip hc).2, List.mem_singleton_self v⟩, v.tag_mem_tags⟩)

/-- Rewriting succeeds on everything but an operation and leaves the finished
code, in which no operand lacks parentheses. -/
theorem rewrite_stands (hs : t.Sound) (hroot : root < t.size)
    (hbin : ∀ op type, t.kind? root ≠ some (.binary op type)) (allPublic : Bool)
    (journal : Journal) :
    ∃ t' journal', rewrite root allPublic ⟨t, journal⟩ = (.ok (), ⟨t', journal'⟩)
      ∧ (∀ j < t.size, t'.name j = t.name j)
      ∧ ∃ place next z, Term.tag z = root ∧ t'.Stands place next [z]
        ∧ (∀ i, i ∈ z.tags ↔ t'.Within i root)
        ∧ z.shape = (t.shape root).finished allPublic ∧ z.shape.All Term.Fenced := by
  have hnot := isBinary_shape hs hroot hbin
  obtain ⟨x, rfl, hx, -⟩ := hs.exists_term hroot
  have hbefore : t.shape x.tag = x.shape := Tree.shape_of_holds hx.holds (by simpa using hx.nodup)
  rw [hbefore, Term.kind_shape] at hnot
  obtain ⟨t', y, journal', hrun, htag, hfinished, hsettled, hy, hnames⟩ :=
    settles hx hnot allPublic journal
  have hsound : t'.Sound := by
    have h := (keeps_rewrite x.tag allPublic).sound ⟨t, journal⟩ hs
    rwa [hrun] at h
  obtain ⟨_, _, z, hz, hstands, hwithin, hshape⟩ := hsound.exists_term_at hy
  rw [htag] at hz hwithin
  refine ⟨t', journal', hrun, hnames, _, _, z, hz, hstands, hwithin, ?_,
    hshape ▸ hsettled.fenced⟩
  rw [hshape, hbefore, hfinished]

/-- The text of every operand in code without lacking parentheses. -/
theorem conveys_of_fenced {z : Planted} (hz : t.Stands place next [z])
    (hfenced : z.shape.All Term.Fenced) {i : NodeId} (hi : i ∈ z.tags)
    (hforms : Term.Forms t.name options.Omits [t.shape i] e) (hlegible : e.isLegible = true) :
    t.Conveys options i e := by
  obtain ⟨_, _, y, rfl, hy, hall⟩ := hz.each_at hfenced.all hi
  have hnodup : y.tags.Nodup := by simpa using hy.nodup
  rw [Tree.shape_of_holds hy.holds hnodup] at hforms
  have hneat : e.Neat := hforms.neat hlegible fun x hx => List.mem_singleton.1 hx ▸ hall
  have htext : (String.ofList e.chars).toList = e.chars := String.toList_ofList ..
  exact ⟨_, Tree.emit_phrase hy.holds hnodup hforms, fun _ _ => Phrase.Reads.unique,
    Phrase.ReadsBack.bound hlegible htext, hneat.readsBack hlegible htext⟩

/-- Rewriting leaves the finished code, and every operand in it conveys its
phrase. So does what stood alone in a slot of the code before: it is an
operand still when the operations without effect are gone, and conveys
that one. -/
theorem rewrite_reads (hs : t.Sound) (hroot : root < t.size)
    (hbin : ∀ op type, t.kind? root ≠ some (.binary op type)) (allPublic : Bool)
    (journal : Journal) (options : EmitOptions) :
    ∃ t' journal', rewrite root allPublic ⟨t, journal⟩ = (.ok (), ⟨t', journal'⟩)
      ∧ t'.shape root = (t.shape root).finished allPublic
      ∧ (∀ i (e : Phrase .operand), t'.Within i root →
        Term.Forms t'.name options.Omits [t'.shape i] e → e.isLegible = true →
        t'.Conveys options i e)
      ∧ ∀ slot j, t.head root slot = some j → t.next? j = none →
        (∀ p : Phrase .operand, Term.Forms t.name options.Omits [t.shape j] p →
          ∃ e : Phrase .operand, Term.Forms t.name options.Omits (t.shape j).reduced e)
        ∧ ∀ e : Phrase .operand, Term.Forms t.name options.Omits (t.shape j).reduced e →
          e.isLegible = true →
          ∃ i, t'.head root slot = some i ∧ t'.Within i root ∧ t'.Conveys options i e := by
  have hnot := isBinary_shape hs hroot hbin
  obtain ⟨t', journal', hrun, hnames, place, next, z, rfl, hz, hwithin, hshape, hfenced⟩ :=
    rewrite_stands hs hroot hbin allPublic journal
  have hafter : t'.shape z.tag = z.shape := Tree.shape_of_holds hz.holds (by simpa using hz.nodup)
  refine ⟨t', journal', hrun, hafter.trans hshape,
    fun i e hi => conveys_of_fenced hz hfenced ((hwithin i).2 hi), fun slot j hhead hnext =>
    ⟨fun p hp => ?_, fun e he hlegible => ?_⟩⟩
  · obtain ⟨e, he⟩ := hp.reduced
    exact ⟨e, by rwa [List.flatMap_singleton] at he⟩
  have hkeep : ∀ d, t.name d ≠ "" → t'.name d = t.name d := fun d hd =>
    hnames d (Nat.lt_of_not_le fun hle => hd (by
      unfold Tree.name
      rw [(t.node?_eq_none_iff d).2 hle]
      rfl))
  have hc := mem_slots_of_head hs hroot hhead hnext
  rw [← List.flatMap_singleton Term.reduced] at he
  obtain ⟨y, d, w, hslot, hforms, hencloses⟩ := (he.keep hlegible hkeep).finished
    ⟨fun _ => rfl, fun _ => rfl⟩ hnot hc allPublic
  rw [← hshape] at hslot
  obtain ⟨i, hhead, hi, rfl⟩ := exists_of_slot hz hslot
  have hlegible' : (d.wrapped w).isLegible = true := by
    rw [Phrase.isLegible_wrapped, hencloses.isLegible_eq, hlegible]
  exact ⟨i, hhead, (hwithin i).1 hi,
    (conveys_of_fenced hz hfenced hi hforms hlegible').of_encloses hencloses⟩

/-- The code `return table[a + b].Read(c) * (d + 1);` as it is built, without
the parentheses of the sum. -/
def scaledRead : Tree := Tree.built [.leaf (.snippetExpr "table" .int),
  .leaf (.snippetExpr "a" .int), .leaf (.snippetExpr "b" .int), .binary .add 1 2,
  .index 0 3 .int, .leaf (.snippetExpr "c" .int), .call "Read" (some 4) [5] (some .int),
  .leaf (.snippetExpr "d" .int), .leaf (.intLit 1 .int false), .binary .add 8 9,
  .binary .mul 7 10, .returnStmt (some 11)]

/-- The product. -/
def scaledReadPhrase : Phrase .operand :=
  .binary .mul
    (.send (.item (.word "table") (.binary .add (.word "a") (.word "b"))) "Read"
      (.more .none none false (.word "c")))
    (.binary .add (.word "d") (.word "1"))

/-- The text of the product spells it, the sum in parentheses. -/
theorem rewrite_reads_scaledRead :
    ∃ t' journal', rewrite 12 true ⟨scaledRead, #[]⟩ = (.ok (), ⟨t', journal'⟩)
      ∧ t'.head 12 .expr = some 11
      ∧ t'.emit 11 {} = .ok "table[a + b].Read(c) * (d + 1)"
      ∧ scaledReadPhrase.ReadsBack "table[a + b].Read(c) * (d + 1)" := by
  have hs : scaledRead.Sound := Tree.sound_built _
  have hroot : 12 < scaledRead.size := by decide
  have hkind : scaledRead.kind? 12 = some .returnStmt := by decide
  have hbin : ∀ op type, scaledRead.kind? 12 ≠ some (.binary op type) := fun op type h => by
    cases hkind.symm.trans h
  obtain ⟨t', journal', hrun, -, -, h⟩ := rewrite_reads hs hroot hbin true #[] {}
  have ht : (rewrite 12 true ⟨scaledRead, #[]⟩).2.tree = t' := by rw [hrun]
  have hhead : t'.head 12 .expr = some 11 := by
    rw [← ht]
    rfl
  have hemit : t'.emit 11 {} = .ok "table[a + b].Read(c) * (d + 1)" := by
    rw [← ht]
    rfl
  have hbefore : scaledRead.head 12 .expr = some 11 := by decide
  have halone : scaledRead.next? 11 = none := by decide
  have hreduced : (scaledRead.shape 11).reduced = [scaledRead.shape 11] := by rfl
  have hforms : Term.Forms scaledRead.name ({} : EmitOptions).Omits
      (scaledRead.shape 11).reduced scaledReadPhrase := by
    rw [hreduced]
    exact .binary omits_plain
      (.send omits_plain (.item omits_plain (.word omits_plain rfl)
        (.binary omits_plain (.word omits_plain rfl) (.word omits_plain rfl)))
        (.more omits_plain .none (.word omits_plain rfl)))
      (.binary omits_plain (.word omits_plain rfl) (.word omits_plain rfl))
  obtain ⟨i, hi, -, text, htext, -, -, hreads⟩ :=
    (h .expr 11 hbefore halone).2 scaledReadPhrase hforms (by decide)
  obtain rfl := Option.some_inj.1 (hhead.symm.trans hi)
  obtain rfl := Except.ok.inj (hemit.symm.trans htext)
  exact ⟨t', journal', hrun, hhead, hemit, hreads (by decide) (by decide)⟩

/-- The code `return (a + b).c;` as it is built. -/
def accessedSum : Tree := Tree.built [.leaf (.snippetExpr "a" .int),
  .leaf (.snippetExpr "b" .int), .binary .add 0 1, .member 2 "c" .int, .returnStmt (some 3)]

/-- What is returned. -/
def accessedSumPhrase : Phrase .operand :=
  .member (.binary .add (.word "a") (.word "b")) "c"

/-- The sum gets no parentheses, and the access is read as one to its last
operand. -/
theorem accessedSum_misread :
    accessedSum.Sound ∧ accessedSum.head 4 .expr = some 3
      ∧ Term.Forms accessedSum.name ({} : EmitOptions).Omits [accessedSum.shape 3] accessedSumPhrase
      ∧ accessedSumPhrase.isLegible = true
      ∧ ∃ t' journal', rewrite 4 true ⟨accessedSum, #[]⟩ = (.ok (), ⟨t', journal'⟩)
        ∧ t'.shape 3 = accessedSum.shape 3
        ∧ t'.emit 4 {} = .ok "return a + b.c;\n" ∧ t'.emit 3 {} = .ok "a + b.c"
        ∧ Phrase.Reads "a + b.c" (.binary .add (.word "a") (.member (.word "b") "c"))
        ∧ ¬ accessedSumPhrase.ReadsBack "a + b.c" := by
  have hforms : Term.Forms accessedSum.name ({} : EmitOptions).Omits [accessedSum.shape 3]
      accessedSumPhrase := by
    exact .member omits_plain
      (.binary omits_plain (.word omits_plain rfl) (.word omits_plain rfl))
  have hlegible : accessedSumPhrase.isLegible = true := by decide
  have htext : "a + b.c".toList = accessedSumPhrase.chars := by decide
  have hlex := Phrase.lex_legible hlegible htext
  refine ⟨Tree.sound_built _, by decide, hforms, hlegible,
    (rewrite 4 true ⟨accessedSum, #[]⟩).2.tree, (rewrite 4 true ⟨accessedSum, #[]⟩).2.journal,
    by rfl, by rfl, by rfl, by rfl, ⟨?_, hlex⟩, fun hread => ?_⟩
  · exact ⟨trivial, ⟨trivial, by decide⟩, by decide, by decide⟩
  · exact absurd (hread.bound hlegible htext) (by decide)

end Drafting

end RegisterMap.Code
