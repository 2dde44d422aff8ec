/-
The property of a field as it is planted. Its code is that of the sketch,
over a declaration for the value that is gathered and one for the value
that is written (`FieldCode`); planting it never fails where the buffer is
declared and the field is in order (`fieldProperty_run`).
-/
import RegisterMap.Proofs.Exec.Calling
import RegisterMap.Proofs.Peripheral.Access
import RegisterMap.Proofs.Register.Masks

namespace RegisterMap.Peripheral

open Code Exec
open Code.Tree (Yields)
open Code.Sketch (Plain Idle plain_use plain_int plain_mask plain_literal)

variable {types : NodeId → TypeRef} {stock : NodeId → List Shape} {known : NodeId → Prop}
  {b : Buffer} {f : Field} {l : Layout} {type : TypeRef}

-- ============================================================== fitting

/-- The declarations of a buffer stand in the tree. -/
structure Buffer.Known (known : NodeId → Prop) (b : Buffer) : Prop where
  memory : known b.memory
  start : ∀ d, b.start = some d → known d

theorem Buffer.Known.keep {t t' : Tree} {old : List NodeId} {cs : List (List Planted)}
    (h : b.Known t.Known) (hy : Yields t t' old cs) : b.Known t'.Known := by
  have hkeep : ∀ d, t.Known d → t'.Known d := fun d ⟨type, hd⟩ =>
    ((Tree.Declares.mk hd rfl).keep hy).known
  exact ⟨hkeep _ h.memory, fun d hd => hkeep d (h.start d hd)⟩

theorem byteAt_plain (h : b.Known known) (offset : Nat) :
    Plain types stock known (b.byteAt offset) := by
  unfold Buffer.byteAt
  refine (plain_use h.memory).index ?_ .byte
  cases hb : b.start with
  | none => exact plain_int offset
  | some d => exact (plain_use (h.start d hb)).join .add (plain_int offset) rfl

theorem masked_plain {e : Sketch} (h : Plain types stock known e) (mask : Nat) :
    Plain types stock known (masked e mask) :=
  h.join .and (plain_mask mask) rfl

theorem storeLow_idle (h : b.Known known) (offset : Nat) {e : Sketch}
    (he : Plain types stock known e) : Idle types stock known (b.storeLow offset e) :=
  (byteAt_plain h offset).assign (he.cast .byte)

/-- The type of the values of a field: a truth value, or a number. -/
inductive Holds (l : Layout) : TypeRef → Prop where
  | flag : l.width = 1 → Holds l .bool
  | bits {p : Primitive} : p ∈ storageTypes → l.width ≤ p.bits → Holds l (.primitive p)

theorem Holds.width_isSome (h : Holds l type) (hb : type ≠ .bool) : type.width.isSome := by
  cases h with
  | flag => exact absurd rfl hb
  | @bits p hp =>
    have hall : ∀ p ∈ storageTypes, (TypeRef.primitive p).width.isSome := by decide
    exact hall p hp

namespace Layout

theorem gather_idle (h : b.Known known) (hl : Holds l type) (hb : type ≠ .bool) {temp : NodeId}
    (htemp : known temp) (i : Nat) : Idle types stock known (l.gather b type temp i) := by
  have huse : Plain types stock known (.use temp) := plain_use htemp
  have hread : Plain types stock known (l.bitsRead b type i) :=
    ((masked_plain (byteAt_plain h _) _).cast type).binary (plain_int _) fun _ =>
      hl.width_isSome hb
  exact huse.assign ((huse.join .or hread rfl).cast type)

theorem readBody_fits (h : b.Known known) (hl : Holds l type) (hb : type ≠ .bool) {temp : NodeId}
    (htemp : known temp) : Sketch.FitsList types stock known (l.readBody b type temp) := by
  refine Sketch.fitsList_iff.2 fun s hs => ?_
  unfold readBody at hs
  simp only [List.cons_append, List.mem_cons, List.mem_append, List.mem_map,
    List.not_mem_nil, or_false] at hs
  rcases hs with rfl | ⟨i, -, rfl⟩ | rfl
  · trivial
  · exact (gather_idle h hl hb htemp i).fits
  · exact htemp

theorem readBody_uses (hl : Holds l type) (hb : type ≠ .bool) (b : Buffer) (temp : NodeId) :
    Sketch.usesList (l.readBody b type temp) = [temp] := by
  have hparts : Sketch.usesList (l.indices.map (l.gather b type temp)
      ++ [.ret (some (.use temp))]) = [] := by
    refine Sketch.usesList_eq_nil fun s hs => ?_
    rcases List.mem_append.1 hs with hs | hs
    · obtain ⟨i, -, rfl⟩ := List.mem_map.1 hs
      have hidle : Idle (fun _ => .int) (fun _ => []) (fun _ => True) (l.gather b type temp i) :=
        gather_idle ⟨trivial, fun _ _ => trivial⟩ hl hb trivial i
      exact hidle.uses
    · rw [List.mem_singleton.1 hs]
      rfl
  show [temp] ++ Sketch.usesList (l.indices.map (l.gather b type temp)
    ++ [.ret (some (.use temp))]) = [temp]
  rw [hparts]
  rfl

theorem testBody_idle (h : b.Known known) : ∀ s ∈ l.testBody b, Idle types stock known s := by
  intro s hs
  rw [List.mem_singleton.1 hs]
  exact ((masked_plain (byteAt_plain h _) _).join .neq (plain_literal ..) rfl).ret

theorem newValue_plain (hl : Holds l type) {value : NodeId} (hvalue : known value)
    (htype : types value = type) :
    Plain types stock known (l.newValue type value)
      ∧ (Term.typeOf ((l.newValue type value).code types stock)).width.isSome := by
  have huse : Plain types stock known (.use value) := plain_use hvalue
  unfold newValue
  by_cases hb : type = .bool
  · rw [if_pos hb]
    exact ⟨huse.cond (plain_literal ..) (plain_literal ..), rfl⟩
  · rw [if_neg hb]
    refine ⟨masked_plain huse _, ?_⟩
    show (types value).width.isSome
    rw [htype]
    exact hl.width_isSome hb

theorem scatter_idle (h : b.Known known) (hl : Holds l type) {value : NodeId}
    (hvalue : known value) (htype : types value = type) (i : Nat) :
    Idle types stock known (l.scatter b type value i) := by
  obtain ⟨hnew, hwidth⟩ : Plain types stock known (l.newValue type value)
      ∧ (Term.typeOf ((l.newValue type value).code types stock)).width.isSome :=
    newValue_plain hl hvalue htype
  have hbits : Plain types stock known (l.bitsWritten type value i) := by
    unfold bitsWritten
    dsimp only
    split
    · split
      · exact (hnew.cast .uint).binary (plain_int _) fun _ => rfl
      · exact hnew.binary (plain_int _) fun _ => hwidth
    · exact hnew.binary (plain_int _) fun _ => hwidth
  exact storeLow_idle h _ ((masked_plain (byteAt_plain h _) _).join .or hbits rfl)

theorem writeBody_idle (h : b.Known known) (hl : Holds l type) {value : NodeId}
    (hvalue : known value) (htype : types value = type) :
    ∀ s ∈ l.writeBody b type value, Idle types stock known s := by
  intro s hs
  obtain ⟨i, -, rfl⟩ := List.mem_map.1 hs
  exact scatter_idle h hl hvalue htype i

end Layout

-- ============================================================== fields

/-- The layout of a field of one to 64 bits. -/
def Layout.of (f : Field) : Layout where
  width := f.high - f.low + 1
  firstByte := f.low / 8
  shift := f.low % 8
  bytes := Word.bytesFor (f.low % 8 + (f.high - f.low + 1))

variable {t : Tree}

theorem ofField_eq (h : f.Proper) : Layout.ofField f = .ok (Layout.of f) := by
  have hnarrow := h.narrow
  have hreach : Word.add positionBits (f.low % 8) (f.high - f.low + 1)
      = .ok (f.low % 8 + (f.high - f.low + 1)) := by
    refine Word.add_eq_ok_iff.2 ⟨?_, rfl⟩
    have hbits : 2 ^ positionBits = 2 ^ 32 := rfl
    rw [hbits]
    omega
  unfold Layout.ofField
  rw [h.width_eq]
  dsimp only [bind, Except.bind]
  rw [hreach]
  rfl

theorem sound_of (h : f.Proper) : (Layout.of f).Sound where
  width_pos := Nat.succ_pos _
  width_le := h.narrow
  shift_lt := Nat.mod_lt _ (by decide)
  bytes_eq := rfl

/-- A field has a type that holds its values. -/
theorem storageType_run (h : f.Proper) :
    ∃ type, storageType f = .ok type ∧ Holds (Layout.of f) type := by
  have hnarrow := h.narrow
  have hbits : ∀ p, p ∈ storageTypes → f.high - f.low + 1 ≤ Primitive.bits p →
      Holds (Layout.of f) (.primitive p) := fun p hp hle => Holds.bits hp hle
  unfold storageType
  rw [h.width_eq]
  dsimp only [bind, Except.bind]
  by_cases h1 : f.high - f.low + 1 ≤ 1
  · exact ⟨.bool, if_pos h1, Holds.flag (Nat.le_antisymm h1 (Nat.succ_pos _))⟩
  rw [if_neg h1]
  by_cases h8 : f.high - f.low + 1 ≤ 8
  · exact ⟨.byte, if_pos h8, hbits .byte (by decide) h8⟩
  rw [if_neg h8]
  by_cases h16 : f.high - f.low + 1 ≤ 16
  · exact ⟨.ushort, if_pos h16, hbits .ushort (by decide) h16⟩
  rw [if_neg h16]
  by_cases h32 : f.high - f.low + 1 ≤ 32
  · exact ⟨.uint, if_pos h32, hbits .uint (by decide) h32⟩
  rw [if_neg h32]
  have h64 : f.high - f.low + 1 ≤ 64 := hnarrow
  exact ⟨.ulong, if_pos h64, hbits .ulong (by decide) h64⟩

-- ============================================================= planting

/-- What a field's property says of itself. -/
def fieldSig (type : TypeRef) : PropertySig :=
  { type, get := .body, set := .body, access := some .pub }

/-- The code of the property of a field in a tree. -/
structure FieldCode (t : Tree) (b : Buffer) (f : Field) (type : TypeRef) (x : Shape) : Prop where
  holds : Holds (Layout.of f) type
  kind_eq : x.kind = .propertyDecl (fieldSig type)
  name_eq : nameOf x = f.propertyName
  get : ∃ types stock, if type = .bool
    then part x .get = (Sketch.codeList types stock ((Layout.of f).testBody b)).flatten
    else ∃ temp, t.Declares temp "temp" type
      ∧ stock temp = (Layout.tempDecl type).code types stock
      ∧ part x .get = (Sketch.codeList types stock ((Layout.of f).readBody b type temp)).flatten
  set : ∃ types stock value, t.Declares value "value" type ∧ types value = type
    ∧ part x .set = (Sketch.codeList types stock ((Layout.of f).writeBody b type value)).flatten

theorem FieldCode.keep {t' : Tree} {x : Shape} (h : FieldCode t b f type x) {old : List NodeId}
    {cs : List (List Planted)} (hy : Yields t t' old cs) : FieldCode t' b f type x := by
  obtain ⟨types, stock, value, hvalue, hset⟩ := h.set
  obtain ⟨types', stock', hget⟩ := h.get
  refine ⟨h.holds, h.kind_eq, h.name_eq, ⟨types', stock', ?_⟩, types, stock, value,
    hvalue.keep hy, hset⟩
  split
  · next hb => rwa [if_pos hb] at hget
  · next hb =>
    rw [if_neg hb] at hget
    obtain ⟨temp, htemp, hrest⟩ := hget
    exact ⟨temp, htemp.keep hy, hrest⟩

/-- The body that reads a field is planted. -/
theorem getter_run (hm : t.Mutual) (l : Layout) (hl : Holds l type) :
    ∃ get t' cs, l.getter b type t = (.ok get, t') ∧ Yields t t' [] cs
      ∧ cs.map (headOr none) = (Sketch.usesList get).map some
      ∧ (∀ types stock known, b.Known known → (∀ d name type, t'.Declares d name type → known d) →
        Sketch.FitsList types stock known get)
      ∧ ∀ types stock, (Sketch.usesList get).map stock = cs.map (List.map Term.shape) →
        if type = .bool then get = l.testBody b
        else ∃ temp, t'.Declares temp "temp" type ∧ stock temp = (Layout.tempDecl type).code types stock
          ∧ get = l.readBody b type temp := by
  unfold Layout.getter
  by_cases hb : type = .bool
  · rw [if_pos hb]
    have hidle : ∀ s ∈ l.testBody b, Idle (fun _ => .int) (fun _ => []) (fun _ => True) s :=
      Layout.testBody_idle ⟨trivial, fun _ _ => trivial⟩
    have huses := Sketch.usesList_idle hidle
    refine ⟨l.testBody b, t, [], rfl, Tree.yields_nil hm, by rw [huses]; rfl,
      fun types stock known hk _ => Sketch.fitsList_idle (Layout.testBody_idle hk),
      fun types stock _ => ?_⟩
    rw [if_pos hb]
  · rw [if_neg hb]
    obtain ⟨stock₀, t', x, hrun, hy, hd, hx⟩ := Sketch.plant_variable hm "temp" type none
      (rfl : Sketch.usesOption (some (.int 0)) = []) fun _ => trivial
    have huses := Layout.readBody_uses hl hb b x.tag
    refine ⟨l.readBody b type x.tag, t', [[x]], (Edit.bind_run hrun).trans rfl, hy,
      by rw [huses]; rfl,
      fun types stock known hk hdecl => Layout.readBody_fits hk hl hb (hdecl _ _ _ hd),
      fun types stock hstock => ?_⟩
    rw [if_neg hb]
    rw [huses] at hstock
    refine ⟨x.tag, hd, ?_, rfl⟩
    rw [(List.cons.inj hstock).1, List.map_singleton, hx]
    rfl

/-- The property of a field is planted. -/
theorem fieldProperty_run (hm : t.Mutual) (h : b.Known t.Known) (hf : f.Proper) :
    ∃ type t' x, storageType f = .ok type ∧ fieldProperty b f t = (.ok (Term.tag x), t')
      ∧ Yields t t' [] [[x]] ∧ FieldCode t' b f type x.shape := by
  obtain ⟨type, htype, hl⟩ := storageType_run hf
  obtain ⟨get, t₁, cs, hget, hy₁, hids, hfits, hcode⟩ := getter_run (b := b) hm (Layout.of f) hl
  obtain ⟨t₂, v, hvalue, hy₂, hd, -⟩ := Sketch.plant_param hy₁.stock.linked "value" type
  have hknown := (h.keep hy₁).keep hy₂
  have hy₁₂ : Yields t t₂ [] cs := (hy₁.and hy₂).left
  have hwrite : ∀ stock, ∀ s ∈ (Layout.of f).writeBody b type v.tag,
      Idle t₂.typeAt stock t₂.Known s := fun stock =>
    Layout.writeBody_idle hknown hl hd.known hd.typeAt_eq
  have hempty := Sketch.usesList_idle (hwrite fun _ => [])
  have huses : cs.map (headOr none) = (Sketch.usesList get
      ++ Sketch.usesList ((Layout.of f).writeBody b type v.tag)).map some := by
    rw [hempty, List.append_nil]
    exact hids
  obtain ⟨stock, t₃, x, hstock, hrun, hy₃, hx⟩ := Sketch.plant_node
    (.documented (.property f.propertyName (fieldSig type) get
      ((Layout.of f).writeBody b type v.tag))
      s!"Offset: {Text.hex f.low}, Width: {(Layout.of f).width} bits") hy₁₂.stock huses
    (fun stock _ => ⟨hfits _ _ _ hknown fun d name type hd => (hd.keep hy₂).known,
      Sketch.fitsList_idle (hwrite stock)⟩) fun _ => rfl
  have hshape := (List.cons.inj hx).1
  have hlayout := ofField_eq hf
  refine ⟨type, t₃, x, htype, ?_, hy₁₂.trans hy₃, hl, ?_, ?_, ?_, ?_⟩
  · unfold fieldProperty
    rw [Edit.bind_run (Edit.check_run htype), Edit.bind_run (Edit.check_run hlayout),
      Edit.bind_run hget, Edit.bind_run hvalue]
    exact hrun
  · rw [← hshape]
    rfl
  · rw [← hshape]
    rfl
  · refine ⟨t₂.typeAt, stock, ?_⟩
    have hstock' : (Sketch.usesList get).map stock = cs.map (List.map Term.shape) := by
      rw [← hstock]
      show _ = (Sketch.usesList get
        ++ Sketch.usesList ((Layout.of f).writeBody b type v.tag)).map stock
      rw [hempty, List.append_nil]
    have := hcode t₂.typeAt stock hstock'
    rw [← hshape]
    split
    · next hb =>
      rw [if_pos hb] at this
      rw [← this]
      rfl
    · next hb =>
      rw [if_neg hb] at this
      obtain ⟨temp, htemp, hdecl, hget⟩ := this
      exact ⟨temp, (htemp.keep hy₂).keep hy₃, hdecl, by rw [← hget]; rfl⟩
  · refine ⟨t₂.typeAt, stock, v.tag, hd.keep hy₃, hd.typeAt_eq, ?_⟩
    rw [← hshape]
    rfl

/-- The properties of several fields are planted. -/
theorem fieldProperties_run {fields : List Field} (hm : t.Mutual) (h : b.Known t.Known)
    (hf : ∀ f ∈ fields, f.Proper) :
    ∃ (t' : Tree) (xs : List Planted), fieldProperties b fields t = (.ok (xs.map Term.tag), t')
      ∧ Yields t t' [] (xs.map fun x => [x])
      ∧ List.Forall₂ (fun f x => ∃ type, FieldCode t' b f type (Term.shape x)) fields xs := by
  obtain ⟨t', xs, hrun, hy, hall⟩ := Tree.mapM_run (f := fieldProperty b)
    (K := fun t => b.Known t.Known)
    (P := fun t f x => ∃ type, FieldCode t b f type x.shape) (fun hy hk => hk.keep hy)
    (fun hy ⟨type, hcode⟩ => ⟨type, hcode.keep hy⟩) fields
    (fun f hmem t hm hk => by
      obtain ⟨type, t', x, -, hrun, hy, hcode⟩ := fieldProperty_run hm hk (hf f hmem)
      exact ⟨t', x, hrun, hy, type, hcode⟩) t hm h
  exact ⟨t', xs, hrun, hy, hall⟩

end RegisterMap.Peripheral
