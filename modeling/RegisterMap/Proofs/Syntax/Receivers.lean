/-
Accesses to operations. Where an access is to an operation that stands
bare, as in an access to `a + b` spelled `a + b.c`, nothing that has these
marks is the phrase, up to regrouping (`bound_of_regroups`).

# The measure

This is seen by counting, whatever operators stand where. The `reach` of a
phrase counts, for each access in it, the words and casts in what is
accessed; parentheses and regrouping leave it alone. A `Counter` that is
moved over the marks finds how far the receiver of an access reaches back
at the least: to the last word, or the bracket that is closed in front of
it. For a proper phrase this is the reach. For any other it falls short of
the reach by what the bare operations among the receivers add.
-/
import RegisterMap.Proofs.Syntax.Spelling

namespace RegisterMap.Code

namespace Phrase

variable {s : Part} {e : Phrase .operand}

-- ============================================================= counting

/-- For each access the bulk of what is accessed. -/
def reach {s : Part} : Phrase s → Nat
  | .word _ | .none => 0
  | .binary _ l r => l.reach + r.reach
  | .cond c a b => c.reach + a.reach + b.reach
  | .cast _ e | .paren e => e.reach
  | .member e _ => e.reach + e.bulk
  | .item e i => e.reach + e.bulk + i.reach
  | .array _ n => n.reach
  | .call _ args => args.reach
  | .send e _ args => e.reach + e.bulk + args.reach
  | .more init _ _ e => init.reach + e.reach

theorem reach_bare (p : Phrase s) : p.bare.reach = p.reach := by
  induction p <;> simp_all only [bare, reach, bulk_bare]

/-- Regrouping is not seen by the count. -/
theorem Regroups.reach_eq {d e : Phrase s} (h : Regroups d e) : d.reach = e.reach := by
  induction h with
  | refl e => rfl
  | symm _ ih => exact ih.symm
  | trans _ _ ih₁ ih₂ => exact ih₁.trans ih₂
  | regroup a b c _ => exact Nat.add_assoc ..
  | member _ h | item h _ | send _ h _ => simp_all only [reach, h.count_eq.1]
  | _ => simp_all only [reach]

/-- What has been counted along a row of marks. -/
structure Counter where
  /-- Words, names that are called and casts. -/
  count : Nat := 0
  /-- The count where the operand starts that an access would be to. -/
  start : Nat := 0
  /-- The same for what is accessed or called by the brackets that are
  open, innermost first. -/
  outer : List Nat := []
  /-- For each access how many were counted in what it is to. -/
  total : Nat := 0

namespace Counter

/-- The counter once there is an access to what stands from the start
on. -/
def accessed (c : Counter) : Counter := { c with total := c.total + (c.count - c.start) }

def step (c : Counter) : Mark → Counter
  | .word _ => { c with count := c.count + 1, start := c.count }
  | .castTo _ => { c with count := c.count + 1 }
  | .opening => { c with outer := c.count :: c.outer }
  | .array _ | .call _ => { c with count := c.count + 1, outer := c.count :: c.outer }
  | .dot _ => c.accessed
  | .bracket | .send _ => { c.accessed with outer := c.start :: c.outer }
  | .closing | .unbracket => { c with start := c.outer.headD 0, outer := c.outer.tail }
  | .operator _ | .question | .colon | .comma | .out => c

def run (c : Counter) (ms : List Mark) : Counter := ms.foldl step c

theorem run_append (c : Counter) (ms ns : List Mark) : c.run (ms ++ ns) = (c.run ms).run ns :=
  List.foldl_append

theorem run_cons (c : Counter) (m : Mark) (ms : List Mark) :
    c.run (m :: ms) = (c.step m).run ms := rfl

/-- A counter is moved on by so many words, and by a total that falls short
of the reach if there is an access to an operation. -/
structure Counts (c c' : Counter) (bulk reach : Nat) (bound : Bool) : Prop where
  count : c'.count = c.count + bulk
  outer : c'.outer = c.outer
  total_le : c'.total ≤ c.total + reach
  total_eq : c'.total = c.total + reach ↔ bound = true

/-- An access behind the operand would start within it: at its start if it
is no operation, past its start if it is one. -/
structure Starts (c c' : Counter) (e : Phrase .operand) : Prop where
  le : c.count ≤ c'.start
  eq : e.bound = true → e.isOperation = false → c'.start = c.count
  lt : e.isOperation = true → c.count < c'.start

variable {c c' c'' : Counter} {m m' n n' : Nat} {a b : Bool}

theorem Counts.trans (h : Counts c c' m n a) (h' : Counts c' c'' m' n' b) :
    Counts c c'' (m + m') (n + n') (a && b) where
  count := by rw [h'.count, h.count, Nat.add_assoc]
  outer := h'.outer.trans h.outer
  total_le := by
    have := h.total_le
    have := h'.total_le
    omega
  total_eq := by
    have := h.total_le
    have := h'.total_le
    rw [Bool.and_eq_true_iff, ← h.total_eq, ← h'.total_eq]
    omega

/-- One more has been counted in front. -/
theorem Counts.counted (h : Counts { c with count := c.count + 1 } c' m n a) :
    Counts c c' (1 + m) n a where
  count := h.count.trans (Nat.add_assoc ..)
  outer := h.outer
  total_le := h.total_le
  total_eq := h.total_eq

/-- What stood outside of a bracket is restored when it is closed. -/
theorem Counts.closed {k : Nat} (h : Counts { c with outer := k :: c.outer } c' m n a) :
    Counts c (c'.step .closing) m n a ∧ (c'.step .closing).start = k := by
  have houter : c'.outer = k :: c.outer := h.outer
  refine ⟨⟨h.count, ?_, h.total_le, h.total_eq⟩, ?_⟩
  · exact congrArg List.tail houter
  · exact congrArg (List.headD · 0) houter

/-- An access adds what its receiver has, unless that is an operation. -/
theorem Counts.access (h : Counts c c' e.bulk e.reach e.bound) (hs : Starts c c' e) :
    Counts c c'.accessed e.bulk (e.reach + e.bulk) (e.bound && !e.isOperation) := by
  have hcount := h.count
  have hle := h.total_le
  have hstart := hs.le
  have hpos := e.bulk_pos
  refine ⟨hcount, h.outer, ?_, ?_⟩
  · dsimp only [accessed]
    omega
  · rw [Bool.and_eq_true_iff, Bool.not_eq_true', ← h.total_eq]
    dsimp only [accessed]
    constructor
    · intro heq
      refine ⟨by omega, Bool.eq_false_iff.2 fun hop => ?_⟩
      have hlt := hs.lt hop
      omega
    · rintro ⟨heq, hop⟩
      have heq' := hs.eq (h.total_eq.1 heq) hop
      omega

theorem counts_lead (c : Counter) (label : Option String) (out : Bool) :
    Counts c (c.run (lead label out)) (label.elim 0 fun _ => 1) 0 true := by
  cases label <;> cases out <;> exact ⟨rfl, rfl, Nat.le_refl _, iff_of_true rfl rfl⟩

theorem run_comma (c : Counter) (args : Phrase .arguments) : c.run args.comma = c := by
  cases args <;> rfl

/-- An access behind an operation would not be to its first operand. -/
theorem starts_operation (hop : e.isOperation = true) (h : c.count < c'.start) :
    Starts c c' e where
  le := Nat.le_of_lt h
  eq _ hno := by rw [hop] at hno; cases hno
  lt _ := h

theorem starts_whole (hop : e.isOperation = false) (h : c'.start = c.count) : Starts c c' e where
  le := Nat.le_of_eq h.symm
  eq _ _ := h
  lt hyes := by rw [hop] at hyes; cases hyes

/-- Behind an access the start is that of the receiver. -/
theorem Starts.access {p : Phrase .operand} (hs : Starts c c' e) (hop : p.isOperation = false)
    (hbound : p.bound = true → (e.bound && !e.isOperation) = true)
    (hstart : c''.start = c'.start) : Starts c c'' p where
  le := hstart ▸ hs.le
  eq hp _ := by
    obtain ⟨he, hno⟩ := Bool.and_eq_true_iff.1 (hbound hp)
    exact hstart.trans (hs.eq he (Bool.not_eq_eq_eq_not.1 hno))
  lt hyes := by rw [hop] at hyes; cases hyes

end Counter

open Counter (Counts Starts)

/-- What the marks of a phrase do to a counter. -/
def Tallies : {s : Part} → Phrase s → Prop
  | .operand, e => ∀ c : Counter,
    Counts c (c.run e.marks) e.bulk e.reach e.bound ∧ Starts c (c.run e.marks) e
  | .arguments, a => ∀ c : Counter, Counts c (c.run a.marks) a.bulk a.reach a.bound

/-- A counter is moved over the marks of any phrase. -/
theorem tallies (p : Phrase s) : p.Tallies := by
  induction p with
  | word text =>
    exact fun c => ⟨⟨rfl, rfl, Nat.le_refl _, iff_of_true rfl rfl⟩, Counter.starts_whole rfl rfl⟩
  | binary op l r ihl ihr =>
    intro c
    rw [marks, Counter.run_append]
    obtain ⟨hl, -⟩ := ihl c
    obtain ⟨hr, hsr⟩ := ihr (c.run l.marks)
    refine ⟨hl.trans hr, Counter.starts_operation rfl (Nat.lt_of_lt_of_le ?_ hsr.le)⟩
    rw [hl.count]
    exact Nat.lt_add_of_pos_right l.bulk_pos
  | cond x y z ihx ihy ihz =>
    intro c
    rw [marks, Counter.run_append, Counter.run_cons, Counter.run_append, Counter.run_cons]
    obtain ⟨hx, -⟩ := ihx c
    obtain ⟨hy, -⟩ := ihy (c.run x.marks)
    obtain ⟨hz, hsz⟩ := ihz ((c.run x.marks).run y.marks)
    refine ⟨(hx.trans hy).trans hz, Counter.starts_operation rfl (Nat.lt_of_lt_of_le ?_ hsz.le)⟩
    rw [hy.count, hx.count, Nat.add_assoc]
    exact Nat.lt_add_of_pos_right (Nat.add_pos_left x.bulk_pos _)
  | cast type e ih =>
    intro c
    obtain ⟨he, hs⟩ := ih { c with count := c.count + 1 }
    exact ⟨he.counted, Counter.starts_operation rfl hs.le⟩
  | paren e ih =>
    intro c
    rw [marks, Counter.run_cons, Counter.run_append]
    obtain ⟨he, hstart⟩ := (ih (c.step .opening)).1.closed (c := c)
    exact ⟨he, Counter.starts_whole rfl hstart⟩
  | member e name ih =>
    intro c
    rw [marks, Counter.run_append]
    obtain ⟨he, hs⟩ := ih c
    exact ⟨he.access hs, hs.access rfl id rfl⟩
  | item e i ihe ihi =>
    intro c
    rw [marks, Counter.run_append, Counter.run_cons, Counter.run_append]
    obtain ⟨he, hs⟩ := ihe c
    obtain ⟨hi, hstart⟩ :=
      (ihi ((c.run e.marks).step .bracket)).1.closed (c := (c.run e.marks).accessed)
    exact ⟨(he.access hs).trans hi, hs.access rfl (fun h => (Bool.and_eq_true_iff.1 h).1) hstart⟩
  | array type n ih =>
    intro c
    rw [marks, Counter.run_cons, Counter.run_append]
    obtain ⟨hn, hstart⟩ :=
      (ih (c.step (.array type))).1.closed (c := { c with count := c.count + 1 })
    exact ⟨hn.counted, Counter.starts_whole rfl hstart⟩
  | call callee args ih =>
    intro c
    rw [marks, Counter.run_cons, Counter.run_append]
    obtain ⟨ha, hstart⟩ :=
      (ih (c.step (.call callee))).closed (c := { c with count := c.count + 1 })
    exact ⟨ha.counted, Counter.starts_whole rfl hstart⟩
  | send e name args ihe iha =>
    intro c
    rw [marks, Counter.run_append, Counter.run_cons, Counter.run_append]
    obtain ⟨he, hs⟩ := ihe c
    obtain ⟨ha, hstart⟩ :=
      (iha ((c.run e.marks).step (.send name))).closed (c := (c.run e.marks).accessed)
    exact ⟨(he.access hs).trans ha, hs.access rfl (fun h => (Bool.and_eq_true_iff.1 h).1) hstart⟩
  | none => exact fun c => ⟨rfl, rfl, Nat.le_refl _, iff_of_true rfl rfl⟩
  | more init label out e ihi ihe =>
    intro c
    rw [marks, Counter.run_append, Counter.run_append, Counter.run_comma, Counter.run_append]
    have h := ((ihi c).trans (Counter.counts_lead _ label out)).trans (ihe _).1
    rw [Bool.and_true] at h
    exact h

/-- A phrase with the marks of one that obeys the grammar is no regrouping
of it unless its accesses are to no operation. -/
theorem bound_of_regroups {g : Phrase .operand} (hg : g.Proper) (hmarks : g.marks = e.marks)
    (h : Regroups g.bare e.bare) : e.bound = true := by
  have hreach := h.reach_eq
  rw [reach_bare, reach_bare] at hreach
  have hcount := (tallies g {}).1.total_eq.2 hg.bound
  rw [hmarks, hreach] at hcount
  exact (tallies e {}).1.total_eq.1 hcount

end Phrase

end RegisterMap.Code
