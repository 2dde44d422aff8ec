/-
Expressions that are natural numbers. `Counts` says that code gives a
number of one of some types, small enough for the type it has, and that a
literal that is left of it is that number, unsigned. Operations on such
code are operations on natural numbers, wherever the types of the operands
have one in common; that is a finite check on the types.
-/
import RegisterMap.Proofs.Exec.Evaluating

namespace RegisterMap.Exec

open Code Term

-- ========================================================= operations

/-- A constant of the first type keeps it next to the second. -/
def Stays (p q : Primitive) : Prop :=
  ¬(p = .int ∧ q = .uint ∨ (p = .int ∨ p = .long) ∧ q = .ulong)

instance (p q : Primitive) : Decidable (Stays p q) := inferInstanceAs (Decidable (¬_))

section

variable {op : Operator} {p q t : Primitive} {m n : Nat} {a b k : Int} {cl cr : Bool}

theorem adapted_eq (h : cl = true → Stays p q) (n : Int) :
    (if cl then p.adapted q n else p) = p := by
  cases cl with
  | false => rfl
  | true =>
    show p.adapted q n = p
    unfold Primitive.adapted
    rw [if_neg fun hn => h rfl hn.2]

theorem operate_arith (hl : cl = true → Stays p q) (hr : cr = true → Stays q p)
    (ht : p.common q = some t) (hs : op.isShift = false) (hc : op.compare a b = none)
    (hk : op.arith t a b = some k) :
    operate op ⟨.int p a, cl⟩ ⟨.int q b, cr⟩ = .ok (.int t k) := by
  unfold operate
  dsimp only
  rw [adapted_eq hl, adapted_eq hr, hs, ht, hc]
  dsimp only
  rw [hk]
  rfl

theorem operate_compare {c : Bool} (hl : cl = true → Stays p q) (hr : cr = true → Stays q p)
    (ht : p.common q = some t) (hs : op.isShift = false) (hc : op.compare a b = some c) :
    operate op ⟨.int p a, cl⟩ ⟨.int q b, cr⟩ = .ok (.bool c) := by
  unfold operate
  dsimp only
  rw [adapted_eq hl, adapted_eq hr, hs, ht, hc]
  rfl

theorem operate_shift (hs : op.isShift = true) (hq : q.widensTo .int = true) :
    operate op ⟨.int p a, cl⟩ ⟨.int q b, cr⟩ = .ok (.int p.promoted (op.shift p.promoted a b)) := by
  unfold operate
  dsimp only
  rw [hs, hq]
  rfl

end

-- ============================================================ counting

/-- The code is a natural number of one of the types. -/
def Counts (ctx : Context) (s : Store) (c : List Shape) (ps : List Primitive) (n : Nat) : Prop :=
  ∃ f p, Gives ctx s c f (.int p n) ∧ p ∈ ps ∧ n < p.limit
    ∧ ∀ k, f.2 = some k → k = n ∧ (p = .uint ∨ p = .ulong)

/-- The types that numbers of the first and second types have in common,
all of them large enough, are among the third ones. -/
def Meet (ps qs rs : List Primitive) : Prop :=
  (∀ p ∈ ps, p ∈ rs) ∧ (∀ q ∈ qs, q ∈ rs) ∧
    ∀ p ∈ ps, ∀ q ∈ qs, ∃ t ∈ rs, p.common q = some t ∧ p.limit ≤ t.limit ∧ q.limit ≤ t.limit

instance (ps qs rs : List Primitive) : Decidable (Meet ps qs rs) :=
  inferInstanceAs (Decidable (_ ∧ _ ∧ _))

section

variable {ctx : Context} {s : Store} {c cl cr : List Shape} {ps qs rs : List Primitive}
  {m n k : Nat} {p q : Primitive}

theorem Counts.mono (h : Counts ctx s c ps n) (hsub : ∀ p ∈ ps, p ∈ rs) :
    Counts ctx s c rs n := by
  obtain ⟨f, p, hg, hp, hn⟩ := h
  exact ⟨f, p, hg, hsub p hp, hn⟩

theorem counts_plain {type : TypeRef} (h : Gives ctx s c (type, none) (.int p n))
    (hn : n < p.limit) : Counts ctx s c [p] n :=
  ⟨_, p, h, List.mem_singleton_self p, hn, fun _ hk => nomatch hk⟩

theorem stays_of_unsigned (q : Primitive) (h : p = .uint ∨ p = .ulong) : Stays p q := by
  rcases h with rfl | rfl <;> exact fun h => by simp at h

/-- A literal of the given digits. -/
theorem gives_literal (hex : Bool) (h : n < p.limit) :
    Gives ctx s [.leaf (.intLit n (.primitive p) hex)] (.primitive p, some n) (.int p n) := by
  have hm : nodeMeaning (.intLit n (.primitive p) hex) {} [] = .literal (.int p n) := by
    show (if p.holds n then Meaning.literal (.int p n) else {}) = _
    rw [if_pos (Primitive.holds_natCast h)]
  refine gives_leaf rfl ⟨rfl, rfl⟩ ?_ ?_
  · rw [hm]
    rfl
  · rw [hm]
    rfl

/-- The type of a mask. -/
def maskType (mask : Nat) : Primitive := if 2 ^ 32 ≤ mask then .ulong else .uint

theorem literalType_mask (mask : Nat) :
    literalType true (2 ^ 32 ≤ mask) = .primitive (maskType mask) := by
  unfold literalType maskType
  by_cases h : 2 ^ 32 ≤ mask
  · rw [decide_eq_true h, if_pos h]
  · rw [decide_eq_false h, if_neg h]

theorem maskType_of_lt {mask : Nat} (h : mask < 2 ^ 32) : maskType mask = .uint :=
  if_neg (Nat.not_le_of_lt h)

theorem lt_limit_maskType (h : k < 2 ^ 64) : k < (maskType k).limit := by
  unfold maskType
  split
  · exact h
  · next hk => exact Nat.lt_of_not_le hk

theorem counts_mask (hk : k < 2 ^ 64) {hex : Bool} :
    Counts ctx s [.leaf (.intLit k (literalType true (2 ^ 32 ≤ k)) hex)] [maskType k] k := by
  rw [literalType_mask]
  refine ⟨_, _, gives_literal hex (lt_limit_maskType hk), List.mem_singleton_self _,
    lt_limit_maskType hk, fun j hj => ⟨(Option.some.inj hj).symm, ?_⟩⟩
  unfold maskType
  split
  · exact Or.inr rfl
  · exact Or.inl rfl

-- ======================================================= combinations

/-- An operand next to a zero is left alone. -/
theorem Counts.or {type : TypeRef} (hl : Counts ctx s cl ps m) (hr : Counts ctx s cr qs n)
    (hmeet : Meet ps qs rs) :
    Counts ctx s [.above (.binary .or type) [cl, cr]] rs (m ||| n) := by
  obtain ⟨fl, p, hgl, hp, hm, hlitl⟩ := hl
  obtain ⟨fr, q, hgr, hq, hn, hlitr⟩ := hr
  have hsurv : survives .or fl fr
      = if fl.2 = some 0 then some false else if fr.2 = some 0 then some true else none := rfl
  by_cases hzl : fl.2 = some 0
  · rw [if_pos hzl] at hsurv
    obtain ⟨h0, -⟩ := hlitl 0 hzl
    rw [← h0, Nat.zero_or]
    exact ⟨fr, q, hgl.right type hgr hsurv, hmeet.2.1 q hq, hn, hlitr⟩
  · by_cases hzr : fr.2 = some 0
    · rw [if_neg hzl, if_pos hzr] at hsurv
      obtain ⟨h0, -⟩ := hlitr 0 hzr
      rw [← h0, Nat.or_zero]
      exact ⟨fl, p, hgl.left type hgr hsurv, hmeet.1 p hp, hm, hlitl⟩
    · rw [if_neg hzl, if_neg hzr] at hsurv
      obtain ⟨t, ht, hcommon, hpt, hqt⟩ := hmeet.2.2 p hp q hq
      obtain ⟨hval, hlim⟩ := Operator.computes_or t m n (Nat.lt_of_lt_of_le hm hpt)
        (Nat.lt_of_lt_of_le hn hqt)
      have hstay : ∀ {p q : Primitive} {f : Facts} {n : Nat},
          (∀ k, f.2 = some k → k = n ∧ (p = .uint ∨ p = .ulong)) →
            f.2.isSome = true → Stays p q := by
        intro p q f n hlit hsome
        obtain ⟨k, hk⟩ := Option.isSome_iff_exists.1 hsome
        exact stays_of_unsigned q (hlit k hk).2
      exact ⟨_, t, hgl.binary type hgr hsurv Operator.noConfusion Operator.noConfusion
        (operate_arith (hstay hlitl) (hstay hlitr) hcommon rfl rfl hval), ht, hlim,
        fun _ hk => nomatch hk⟩

/-- A literal without a suffix. -/
theorem gives_int (hex : Bool) (hk : k < 2 ^ 31) :
    Gives ctx s [.leaf (.intLit k (literalType false (2 ^ 31 ≤ k)) hex)] (.int, some k)
      (.int .int k) := by
  rw [decide_eq_false (Nat.not_le_of_lt hk)]
  exact gives_literal hex hk

/-- The bits of an expression that a mask selects. The mask is left out
where it is that of the whole type the expression is taken to have. -/
theorem gives_masked {st : TypeRef} (type : TypeRef) (hex : Bool)
    (h : Gives ctx s c (st, none) (.int p m)) (hm : m < p.limit) (hk : k < 2 ^ 64)
    (ht : p.common (maskType k) = some q) (hp : p.limit ≤ q.limit) :
    (k ≠ 0 ∧ st.allOnes = some k
      ∧ Gives ctx s [.above (.binary .and type)
          [c, [.leaf (.intLit k (literalType true (2 ^ 32 ≤ k)) hex)]]] (st, none) (.int p m))
    ∨ (k = 0 ∧ Gives ctx s [.above (.binary .and type)
          [c, [.leaf (.intLit k (literalType true (2 ^ 32 ≤ k)) hex)]]] (.uint, some 0)
          (.int .uint 0))
    ∨ (k ≠ 0 ∧ Gives ctx s [.above (.binary .and type)
          [c, [.leaf (.intLit k (literalType true (2 ^ 32 ≤ k)) hex)]]] (type, none)
          (.int q (m &&& k : Nat))) := by
  rw [literalType_mask]
  have hlit : Gives ctx s [.leaf (.intLit k (.primitive (maskType k)) hex)] _ _ :=
    gives_literal hex (lt_limit_maskType hk)
  have hsurv : survives .and (st, none) (.primitive (maskType k), some k)
      = if k = 0 then some false else if st.allOnes = some k then some true else none := by
    unfold survives Facts.fits
    simp only [reduceCtorEq, if_false, Option.some.injEq, Option.any_none, Option.any_some,
      beq_iff_eq, Bool.false_eq_true]
  by_cases h0 : k = 0
  · refine Or.inr (Or.inl ⟨h0, ?_⟩)
    rw [if_pos h0] at hsurv
    subst h0
    exact h.right type hlit hsurv
  · rw [if_neg h0] at hsurv
    by_cases hones : st.allOnes = some k
    · rw [if_pos hones] at hsurv
      exact Or.inl ⟨h0, hones, h.left type hlit hsurv⟩
    · rw [if_neg hones] at hsurv
      refine Or.inr (Or.inr ⟨h0, h.binary type hlit hsurv Operator.noConfusion Operator.noConfusion ?_⟩)
      refine operate_arith (fun hc => nomatch hc) (fun _ => stays_of_unsigned p ?_) ht rfl rfl
        (Operator.arith_and (Or.inl (Nat.lt_of_lt_of_le hm hp)))
      unfold maskType
      split
      · exact Or.inr rfl
      · exact Or.inl rfl

/-- The same where the type the expression is taken to have is true of its
value. -/
theorem counts_masked {st type : TypeRef} {hex : Bool}
    (h : Gives ctx s c (st, none) (.int p m)) (hm : m < p.limit) (hk : k < 2 ^ 64)
    (ht : p.common (maskType k) = some q) (hp : p.limit ≤ q.limit)
    (hall : st.allOnes = some k → m &&& k = m) (hrs : p ∈ rs ∧ q ∈ rs)
    (hzero : k = 0 → .uint ∈ rs) :
    Counts ctx s [.above (.binary .and type)
      [c, [.leaf (.intLit k (literalType true (2 ^ 32 ≤ k)) hex)]]] rs (m &&& k) := by
  rcases gives_masked type hex h hm hk ht hp
    with ⟨-, hones, hg⟩ | ⟨rfl, hg⟩ | ⟨-, hg⟩
  · rw [hall hones]
    exact (counts_plain hg hm).mono (by simpa using hrs.1)
  · rw [Nat.and_zero]
    exact ⟨_, .uint, hg, hzero rfl, by decide,
      fun j hj => ⟨(Option.some.inj hj).symm, Or.inl rfl⟩⟩
  · have hlim : m &&& k < q.limit :=
      Nat.lt_of_le_of_lt Nat.and_le_left (Nat.lt_of_lt_of_le hm hp)
    exact (counts_plain hg hlim).mono (by simpa using hrs.2)

/-- A conversion. -/
theorem gives_cast {f : Facts} {a : Int} (h : Gives ctx s c f (.int q a))
    (hp : p.isInteger = true) :
    Gives ctx s [.above (.cast (.primitive p)) [c]] (.primitive p, none) (.int p (p.wrap a)) := by
  obtain ⟨m, hm, -, hv⟩ := h.denote
  have hmean : nodeMeaning (.cast (.primitive p)) {} ([c].map denote)
      = .expr (fun ctx => do Run.ofExcept (convert (.primitive p) (← m.value ctx))) := by
    rw [List.map_singleton, hm]
    rfl
  refine gives_over rfl ⟨rfl, rfl⟩ ?_ ?_
  · rw [hmean]
    rfl
  · rw [hmean]
    refine (Run.bind_run hv).trans ?_
    unfold Run.ofExcept convert
    dsimp only
    rw [if_pos hp]
    rfl

theorem Counts.cast (h : Counts ctx s c ps n) (hp : p.isInteger = true) (hn : n < p.limit) :
    Counts ctx s [.above (.cast (.primitive p)) [c]] [p] n := by
  obtain ⟨f, q, hg, -, -, -⟩ := h
  have hc := gives_cast hg hp
  rw [Primitive.wrap_natCast hn] at hc
  exact counts_plain hc hn

/-- A shift by a literal count, by the type it is carried out in. -/
theorem Counts.shift (op : Operator) (type : TypeRef) (hex : Bool) (hop : op.isShift = true)
    (h : Counts ctx s c ps n) (hk : k < 2 ^ 31) (g : Primitive → Nat → Nat)
    (hzero : ∀ p, g p 0 = n)
    (hsh : ∀ p ∈ ps, n < p.limit → k ≠ 0 →
      op.shift p.promoted n k = (g p k : Int) ∧ g p k < p.promoted.limit) :
    ∃ p ∈ ps, Counts ctx s [.above (.binary op type)
      [c, [.leaf (.intLit k (literalType false (2 ^ 31 ≤ k)) hex)]]] [p, p.promoted] (g p k) := by
  obtain ⟨f, p, hg, hp, hn, hlit⟩ := h
  have hcount : Gives ctx s [.leaf (.intLit k (literalType false (2 ^ 31 ≤ k)) hex)] _ _ :=
    gives_int hex hk
  have hsurv : survives op f (.int, some k) = if k = 0 then some true else none := by
    cases op with
    | shl | shr | ushr =>
      unfold survives
      simp only [Option.some.injEq]
    | _ => cases hop
  refine ⟨p, hp, ?_⟩
  by_cases h0 : k = 0
  · rw [if_pos h0] at hsurv
    have := hg.left type hcount hsurv
    subst h0
    rw [hzero]
    exact ⟨f, p, this, by simp, hn, hlit⟩
  · rw [if_neg h0] at hsurv
    obtain ⟨hval, hlim⟩ := hsh p hp hn h0
    have hland : op ≠ .land := by
      rintro rfl
      cases hop
    have hlor : op ≠ .lor := by
      rintro rfl
      cases hop
    have hgive := hg.binary type hcount hsurv hland hlor (operate_shift hop rfl)
    rw [hval] at hgive
    exact (counts_plain hgive hlim).mono (by simp)

/-- Bits are shifted to the right. -/
theorem Counts.shr {type : TypeRef} {hex : Bool} (h : Counts ctx s c ps n) (hk : k < 2 ^ 31)
    (hps : ∀ p ∈ ps, p ∈ rs ∧ p.promoted ∈ rs ∧ k < p.promoted.bits
      ∧ p.limit ≤ p.promoted.limit) :
    Counts ctx s [.above (.binary .shr type)
      [c, [.leaf (.intLit k (literalType false (2 ^ 31 ≤ k)) hex)]]] rs (n >>> k) := by
  obtain ⟨p, hp, hc⟩ := Counts.shift .shr type hex rfl h hk (fun _ k => n >>> k)
    (fun _ => Nat.shiftRight_zero ..) (fun p hp hn _ => by
      obtain ⟨-, -, hbits, hlim⟩ := hps p hp
      have hn' := Nat.lt_of_lt_of_le hn hlim
      exact ⟨Operator.shift_shr hbits hn', Nat.lt_of_le_of_lt (Nat.shiftRight_le ..) hn'⟩)
  refine hc.mono fun q hq => ?_
  rcases List.mem_cons.1 hq with rfl | hq
  · exact (hps q hp).1
  · rw [List.mem_singleton.1 hq]
    exact (hps p hp).2.1

/-- Bits are shifted to the left, none of them out of the type. -/
theorem Counts.shl {type : TypeRef} {hex : Bool} (h : Counts ctx s c ps n) (hk : k < 2 ^ 31)
    (hps : ∀ p ∈ ps, p ∈ rs ∧ p.promoted ∈ rs ∧ k < p.promoted.bits
      ∧ n <<< k < p.promoted.limit) :
    Counts ctx s [.above (.binary .shl type)
      [c, [.leaf (.intLit k (literalType false (2 ^ 31 ≤ k)) hex)]]] rs (n <<< k) := by
  obtain ⟨p, hp, hc⟩ := Counts.shift .shl type hex rfl h hk (fun _ k => n <<< k)
    (fun _ => Nat.shiftLeft_zero) (fun p hp _ _ => by
      obtain ⟨-, -, hbits, hlim⟩ := hps p hp
      exact ⟨Operator.shift_shl hbits hlim, hlim⟩)
  refine hc.mono fun q hq => ?_
  rcases List.mem_cons.1 hq with rfl | hq
  · exact (hps q hp).1
  · rw [List.mem_singleton.1 hq]
    exact (hps p hp).2.1

/-- Bits of an unsigned number are shifted to the left, some of them out
of the type. -/
theorem Counts.shl_unsigned {type : TypeRef} {hex : Bool} (h : Counts ctx s c ps n) (hk : k < 32)
    (hps : ∀ p ∈ ps, p = .uint ∨ p = .ulong) :
    ∃ n', Counts ctx s [.above (.binary .shl type)
      [c, [.leaf (.intLit k (literalType false (2 ^ 31 ≤ k)) hex)]]] ps n'
      ∧ n' % 2 ^ 32 = n <<< k % 2 ^ 32 := by
  have hn : ∀ p ∈ ps, p.isUnsigned = true ∧ p.promoted = p ∧ p.limit = 2 ^ p.bits
      ∧ 32 ≤ p.bits := fun p hp => by
    rcases hps p hp with rfl | rfl <;> decide
  obtain ⟨p, hp, hc⟩ := Counts.shift .shl type hex rfl h
    (Nat.lt_trans hk (by decide)) (fun p k => if k = 0 then n else n <<< k % 2 ^ p.bits)
    (fun _ => if_pos rfl) (fun p hp _ h0 => by
      obtain ⟨hu, hpro, hlim, hbits⟩ := hn p hp
      rw [if_neg h0, hpro, hlim]
      exact ⟨Operator.shift_shl_unsigned hu (Nat.lt_of_lt_of_le hk hbits) n,
        Nat.mod_lt _ (Nat.two_pow_pos _)⟩)
  obtain ⟨-, hpro, -, hbits⟩ := hn p hp
  refine ⟨_, hc.mono fun q hq => ?_, ?_⟩
  · rw [hpro] at hq
    simp at hq
    exact hq ▸ hp
  · split
    · next h0 => rw [h0, Nat.shiftLeft_zero]
    · exact Nat.mod_mod_of_dvd _ (Nat.pow_dvd_pow 2 hbits)

/-- A number is compared with zero. -/
theorem Counts.neq_zero (type : TypeRef) (hex : Bool) (h : Counts ctx s c ps n)
    (hps : ∀ p ∈ ps, (p.common .uint).isSome) :
    Gives ctx s [.above (.binary .neq type) [c, [.leaf (.intLit 0 .uint hex)]]] (type, none)
      (.bool (n != 0)) := by
  obtain ⟨f, p, hg, hp, -, hlit⟩ := h
  obtain ⟨t, ht⟩ := Option.isSome_iff_exists.1 (hps p hp)
  have hzero : Gives ctx s [.leaf (.intLit 0 .uint hex)] (.uint, some 0) (.int .uint (0 : Nat)) :=
    gives_literal hex (by decide)
  have hcompare : Operator.neq.compare n (0 : Nat) = some (n != 0) := by
    show some ((n : Int) != ((0 : Nat) : Int)) = _
    congr 1
    rw [Bool.eq_iff_iff, bne_iff_ne, bne_iff_ne, Ne, Ne, Int.ofNat_inj]
  refine hg.binary type hzero rfl Operator.noConfusion Operator.noConfusion
    (operate_compare (fun hsome => ?_) (fun _ => stays_of_unsigned p (Or.inl rfl)) ht rfl hcompare)
  obtain ⟨k, hk⟩ := Option.isSome_iff_exists.1 hsome
  exact stays_of_unsigned _ (hlit k hk).2

/-- One of two values of the same type. -/
theorem gives_cond {type : TypeRef} {cc ca cb : List Shape} {fc fa fb : Facts} {b : Bool}
    {va vb v : Value} (hc : Gives ctx s cc fc (.bool b)) (ha : Gives ctx s ca fa va)
    (hb : Gives ctx s cb fb vb) (hva : b = true → va.settle type fa.2.isSome = .ok v)
    (hvb : b = false → vb.settle type fb.2.isSome = .ok v) :
    Gives ctx s [.above (.cond type) [cc, ca, cb]] (type, none) v := by
  obtain ⟨mc, hmc, -, hvc⟩ := hc.denote
  obtain ⟨ma, hma, hca, hra⟩ := ha.denote
  obtain ⟨mb, hmb, hcb, hrb⟩ := hb.denote
  have hmean : nodeMeaning (.cond type) {} ([cc, ca, cb].map denote)
      = .expr (fun ctx => do
        let chosen := if ← mc.bool ctx then ma else mb
        let o ← chosen.operand ctx
        Run.ofExcept (o.value.settle type o.constant)) := by
    rw [List.map_cons, List.map_cons, List.map_singleton, hmc, hma, hmb]
    rfl
  refine gives_over rfl ⟨rfl, rfl⟩ ?_ ?_
  · rw [hmean]
    rfl
  · rw [hmean]
    refine (Run.bind_run (bool_run hvc)).trans ?_
    cases b with
    | true =>
      refine (Run.bind_run (operand_run hra)).trans ?_
      rw [hca]
      unfold Run.ofExcept
      rw [hva rfl]
      rfl
    | false =>
      refine (Run.bind_run (operand_run hrb)).trans ?_
      rw [hcb]
      unfold Run.ofExcept
      rw [hvb rfl]
      rfl

end

end RegisterMap.Exec
