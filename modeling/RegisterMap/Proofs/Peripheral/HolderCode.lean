/-
The class of a register as it is planted. `HolderCode` says what its parts
are: the sketches of its members, over the declarations in them. Planting
it never fails where every field has one to 64 bits (`holderClass_run`).
-/
import RegisterMap.Proofs.Exec.Serving
import RegisterMap.Proofs.Peripheral.Property
import RegisterMap.Proofs.Peripheral.RegisterReads
import RegisterMap.Proofs.Peripheral.RegisterWrites

namespace RegisterMap.Peripheral

open Code Exec
open Code.Tree (Yields)
open Code.Sketch (Plain Idle plain_use plain_int plain_mask plain_literal)

variable {types : NodeId → TypeRef} {stock : NodeId → List Shape} {known : NodeId → Prop}
  {b : Buffer} {t t' : Tree} {r : Register} {reset : Nat}

-- ============================================================== fitting

theorem wordByte_plain (h : b.Known known) (i : Nat) : Plain types stock known (b.wordByte i) :=
  ((byteAt_plain h i).cast .uint).binary (plain_int _) fun _ => rfl

theorem word_plain (h : b.Known known) : Plain types stock known b.word :=
  (((wordByte_plain h 0).join .or (wordByte_plain h 1) rfl).join .or (wordByte_plain h 2) rfl).join
    .or (wordByte_plain h 3) rfl

theorem storeConstant_idle (h : b.Known known) (offset n : Nat) :
    Idle types stock known (b.storeConstant offset n) :=
  (byteAt_plain h offset).assign (plain_literal ..)

theorem allocate_idle (h : b.Known known) (size : Nat) :
    Idle types stock known (b.allocate size) :=
  (plain_use h.memory).assign ⟨trivial, rfl, rfl⟩

theorem invoke_idle (name : String) : Idle types stock known (invoke name) :=
  ⟨⟨trivial, trivial⟩, rfl⟩

theorem react_idle (h : b.Known known) (m : ReadMasks) (i : Nat) :
    ∀ s ∈ m.react b i, Idle types stock known s := by
  intro s hs
  unfold ReadMasks.react at hs
  dsimp only at hs
  split at hs
  · cases hs
  · rw [← Option.some.inj hs]
    exact storeLow_idle h i ((masked_plain (byteAt_plain h i) _).join .or (plain_mask _) rfl)

theorem incoming_plain {value : NodeId} (hv : known value) (htype : types value = .uint) (i : Nat) :
    Plain types stock known (incoming value i) := by
  refine (plain_use hv).binary (plain_int _) fun _ => ?_
  show (types value).width.isSome
  rw [htype]
  rfl

theorem bitsAfterWrite_plain (h : b.Known known) {value : NodeId} (hv : known value)
    (htype : types value = .uint) (i : Nat) (effect : Option WriteEffect) (mask : Nat) :
    ∀ e ∈ bitsAfterWrite b value i effect mask, Plain types stock known e := by
  have hin : Plain types stock known (incoming value i) := incoming_plain hv htype i
  have hinv : Plain types stock known (inverted value i) := hin.join .xor (plain_mask _) rfl
  have hcombined : ∀ {op : Operator} {bits : Sketch}, Plain types stock known bits →
      op.isShift = false → Plain types stock known (masked (.binary op (b.byteAt i) bits) mask) :=
    fun hbits hop => masked_plain ((byteAt_plain h i).join _ hbits hop) mask
  intro e he
  unfold bitsAfterWrite at he
  dsimp only at he
  split at he
  · exact Option.some.inj he ▸ masked_plain hin mask
  · exact Option.some.inj he ▸ masked_plain hin mask
  · cases he
  · exact Option.some.inj he ▸ plain_mask mask
  · exact Option.some.inj he ▸ hcombined hin rfl
  · exact Option.some.inj he ▸ hcombined hinv rfl
  · exact Option.some.inj he ▸ hcombined hin rfl
  · exact Option.some.inj he ▸ hcombined hinv rfl
  · exact Option.some.inj he ▸ hcombined hin rfl
  · exact Option.some.inj he ▸ hcombined hinv rfl

theorem foldl_or_plain {parts : List Sketch} (h : ∀ e ∈ parts, Plain types stock known e) {e : Sketch}
    (he : Plain types stock known e) : Plain types stock known (parts.foldl (.binary .or) e) := by
  induction parts generalizing e with
  | nil => exact he
  | cons p parts ih =>
    exact ih (fun e he => h e (List.mem_cons_of_mem _ he))
      (he.join .or (h p (List.mem_cons_self ..)) rfl)

theorem updateByte_idle (h : b.Known known) {value : NodeId} (hv : known value)
    (htype : types value = .uint) (m : WriteMasks) (i : Nat) :
    ∀ s ∈ updateByte b m value i, Idle types stock known s := by
  intro s hs
  unfold updateByte at hs
  dsimp only at hs
  split at hs
  · cases hs
  · rw [← Option.some.inj hs]
    refine storeLow_idle h i (foldl_or_plain (fun e he => ?_) (masked_plain (byteAt_plain h i) _))
    obtain ⟨p, -, hp⟩ := List.mem_filterMap.1 he
    split at hp
    · cases hp
    · exact bitsAfterWrite_plain h hv htype i _ _ e hp

theorem filterMap_idle {α : Type} {l : List α} {f : α → Option Sketch}
    (h : ∀ a, ∀ s ∈ f a, Idle types stock known s) : ∀ s ∈ l.filterMap f, Idle types stock known s := by
  intro s hs
  obtain ⟨a, -, ha⟩ := List.mem_filterMap.1 hs
  exact h a s ha

-- ============================================================== members

/-- What a method says of itself. -/
def readSig : MethodSig := { returns := some .uint, access := some .pub }

def plainSig : MethodSig := { access := some .pub }

/-- The code of the method that reads a register. -/
structure ReadCode (t : Tree) (b : Buffer) (m : ReadMasks) (x : Shape) : Prop where
  kind_eq : x.kind = .methodDecl readSig
  name_eq : nameOf x = "Read"
  params : part x .params = []
  body : ∃ types stock, if m.changed % 2 ^ 32 = 0
    then part x .body = (Sketch.codeList types stock [.ret (some (m.value b))]).flatten
    else ∃ result types' stock', t.Declares result "result" .uint
      ∧ stock result = (Sketch.variable "result" .uint (some (m.value b)) none).code types' stock'
      ∧ part x .body = (Sketch.codeList types stock (.node result
        :: wordBytes.filterMap (m.react b) ++ [.ret (some (.use result))])).flatten

/-- The code of the method that writes a register. -/
structure WriteCode (t : Tree) (b : Buffer) (m : WriteMasks) (x : Shape) : Prop where
  kind_eq : x.kind = .methodDecl plainSig
  name_eq : nameOf x = "Write"
  body : ∃ types stock value, t.Declares value "value" .uint ∧ types value = .uint
    ∧ part x .params = [(Shape.above (.paramDecl .uint false) [[]]).remark (Tree.titled "value")]
    ∧ part x .body
      = (Sketch.codeList types stock (wordBytes.filterMap (updateByte b m value))).flatten

theorem ReadCode.keep {m : ReadMasks} {x : Shape} (h : ReadCode t b m x)
    {old : List NodeId} {cs : List (List Planted)} (hy : Yields t t' old cs) :
    ReadCode t' b m x := by
  refine ⟨h.kind_eq, h.name_eq, h.params, ?_⟩
  obtain ⟨types, stock, hbody⟩ := h.body
  refine ⟨types, stock, ?_⟩
  split
  · next h0 => rwa [if_pos h0] at hbody
  · next h0 =>
    rw [if_neg h0] at hbody
    obtain ⟨result, types', stock', hd, hrest⟩ := hbody
    exact ⟨result, types', stock', hd.keep hy, hrest⟩

theorem WriteCode.keep {m : WriteMasks} {x : Shape} (h : WriteCode t b m x)
    {old : List NodeId} {cs : List (List Planted)} (hy : Yields t t' old cs) :
    WriteCode t' b m x := by
  obtain ⟨types, stock, value, hd, hrest⟩ := h.body
  exact ⟨h.kind_eq, h.name_eq, types, stock, value, hd.keep hy, hrest⟩

/-- The method that reads is planted. -/
theorem readMethod_run (hm : t.Mutual) (hb : b.Known t.Known) (m : ReadMasks) :
    ∃ t' x, readMethod b m t = (.ok (Term.tag x), t') ∧ Yields t t' [] [[x]]
      ∧ ReadCode t' b m x.shape := by
  have hvalue : ∀ {types stock known}, b.Known known → Plain types stock known (m.value b) :=
    fun hb => masked_plain (word_plain hb) _
  unfold readMethod
  by_cases h0 : m.changed % 2 ^ 32 = 0
  · rw [if_pos h0]
    have hbody := fun stock (s : Sketch) (hs : s ∈ [Sketch.ret (some (m.value b))]) =>
      List.mem_singleton.1 hs ▸ (@hvalue t.typeAt stock _ hb).ret
    have huses := Sketch.usesList_idle (hbody fun _ => [])
    obtain ⟨stock, t', x, -, hrun, hy, hx⟩ := Sketch.plant_node
      (publicReader "Read" [] [.ret (some (m.value b))]) (Tree.stock_nil hm)
      (show [] = (([] : List NodeId) ++ Sketch.usesList [.ret (some (m.value b))]).map some by
        rw [huses]; rfl)
      (fun stock _ => ⟨trivial, Sketch.fitsList_idle (hbody stock)⟩) fun _ => rfl
    have hshape := (List.cons.inj hx).1
    refine ⟨t', x, hrun, hy, ?_⟩
    rw [← hshape]
    refine ⟨rfl, rfl, rfl, t.typeAt, stock, ?_⟩
    rw [if_pos h0]
    rfl
  · rw [if_neg h0]
    have huses₀ : Sketch.usesOption (some (m.value b)) = [] :=
      (@hvalue t.typeAt (fun _ => []) _ hb).uses
    obtain ⟨stock₀, t₁, v, hvar, hy₁, hd, hv⟩ := Sketch.plant_variable hm "result" .uint none
      huses₀ fun stock => (hvalue hb).fits
    have hb₁ := hb.keep hy₁
    have hbody : ∀ stock, ∀ s ∈ wordBytes.filterMap (m.react b) ++ [.ret (some (.use v.tag))],
        Idle t₁.typeAt stock t₁.Known s := by
      intro stock s hs
      rcases List.mem_append.1 hs with hs | hs
      · exact filterMap_idle (fun i => react_idle hb₁ m i) s hs
      · rw [List.mem_singleton.1 hs]
        exact (plain_use hd.known).ret
    have huses := Sketch.usesList_idle (hbody fun _ => [])
    obtain ⟨stock, t₂, x, hstock, hrun, hy₂, hx⟩ := Sketch.plant_node
      (publicReader "Read" [] (.node v.tag
        :: wordBytes.filterMap (m.react b) ++ [Sketch.ret (some (.use v.tag))])) hy₁.stock
      (show [some v.tag] = (([] : List NodeId) ++ ([v.tag] ++ Sketch.usesList
          (wordBytes.filterMap (m.react b) ++ [.ret (some (.use v.tag))]))).map some by
        rw [huses]; rfl)
      (fun stock _ => ⟨trivial, trivial, Sketch.fitsList_idle (hbody stock)⟩) fun _ => rfl
    have hshape := (List.cons.inj hx).1
    refine ⟨t₂, x, (Edit.bind_run hvar).trans hrun, hy₁.trans hy₂, ?_⟩
    rw [← hshape]
    refine ⟨rfl, rfl, rfl, t₁.typeAt, stock, ?_⟩
    rw [if_neg h0]
    refine ⟨v.tag, t.typeAt, stock₀, hd.keep hy₂, ?_, rfl⟩
    have hhead : stock v.tag = [v.shape] := (List.cons.inj hstock).1
    rw [hhead, hv]
    rfl

/-- The method that writes is planted. -/
theorem writeMethod_run (hm : t.Mutual) (hb : b.Known t.Known) (m : WriteMasks) :
    ∃ t' x, writeMethod b m t = (.ok (Term.tag x), t') ∧ Yields t t' [] [[x]]
      ∧ WriteCode t' b m x.shape := by
  obtain ⟨t₁, v, hparam, hy₁, hd, hv⟩ := Sketch.plant_param hm "value" .uint
  have hb₁ := hb.keep hy₁
  have hbody : ∀ stock, ∀ s ∈ wordBytes.filterMap (updateByte b m v.tag),
      Idle t₁.typeAt stock t₁.Known s := fun stock =>
    filterMap_idle fun i => updateByte_idle hb₁ hd.known hd.typeAt_eq m i
  have huses := Sketch.usesList_idle (hbody fun _ => [])
  obtain ⟨stock, t₂, x, hstock, hrun, hy₂, hx⟩ := Sketch.plant_node
    (publicMethod "Write" [.node v.tag] (wordBytes.filterMap (updateByte b m v.tag))) hy₁.stock
    (show [some v.tag] = ([v.tag] ++ Sketch.usesList
        (wordBytes.filterMap (updateByte b m v.tag))).map some by
      rw [huses]; rfl)
    (fun stock _ => ⟨⟨trivial, trivial⟩, Sketch.fitsList_idle (hbody stock)⟩) fun _ => rfl
  have hshape := (List.cons.inj hx).1
  refine ⟨t₂, x, (Edit.bind_run hparam).trans hrun, hy₁.trans hy₂, ?_⟩
  rw [← hshape]
  refine ⟨rfl, rfl, t₁.typeAt, stock, v.tag, hd.keep hy₂, hd.typeAt_eq, ?_, rfl⟩
  have hhead : stock v.tag = [v.shape] := (List.cons.inj hstock).1
  show stock v.tag ++ [] = _
  rw [hhead, hv]
  rfl

-- ================================================================ class

def ctorSig : MethodSig := { ctor := true, access := some .pub }

/-- The code of a method without parameters. -/
structure MethodCode (name : String) (sig : MethodSig) (body : List Sketch) (x : Shape) : Prop where
  kind_eq : x.kind = .methodDecl sig
  name_eq : nameOf x = name
  params : part x .params = []
  body : ∃ types stock, part x .body = (Sketch.codeList types stock body).flatten

/-- A method without parameters, as it is sketched. -/
def methodShape (types : NodeId → TypeRef) (stock : NodeId → List Shape) (name : String)
    (sig : MethodSig) (body : List Sketch) : Shape :=
  (Shape.above (.methodDecl sig) [[], (Sketch.codeList types stock body).flatten]).remark
    (Tree.titled name)

theorem methodShape_code (types : NodeId → TypeRef) (stock : NodeId → List Shape) (name : String)
    (sig : MethodSig) (body : List Sketch) :
    MethodCode name sig body (methodShape types stock name sig body) :=
  ⟨rfl, rfl, rfl, types, stock, rfl⟩

/-- The buffer of a class is planted. -/
theorem memoryDecl_run (hm : t.Mutual) :
    ∃ t' x, memoryDecl.plant t = (.ok (Term.tag x), t') ∧ Yields t t' [] [[x]]
      ∧ t'.Declares x.tag "memory" bytesType ∧ FieldDecl "memory" bytesType x.shape := by
  obtain ⟨stock, t', x, hrun, hy, hd, hx⟩ := Sketch.plant_variable hm "memory" bytesType
    (some .priv) (rfl : Sketch.usesOption none = []) fun _ => trivial
  refine ⟨t', x, hrun, hy, hd, ?_⟩
  rw [hx]
  exact ⟨⟨_, rfl⟩, rfl, rfl⟩

/-- What the constructor of a holder does. -/
def constructBody (b : Buffer) (size : Nat) : List Sketch := [b.allocate size, invoke "Reset"]

/-- What resetting a register does. -/
def resetBody (b : Buffer) (r : Register) (reset : Nat) : List Sketch :=
  (List.range r.bufferSize).map fun i => b.storeConstant i (Word.byteAt reset i)

theorem constructBody_idle (h : b.Known known) (size : Nat) :
    ∀ s ∈ constructBody b size, Idle types stock known s := by
  intro s hs
  rcases List.mem_cons.1 hs with rfl | hs
  · exact allocate_idle h size
  · exact List.mem_singleton.1 hs ▸ invoke_idle "Reset"

theorem resetBody_idle (h : b.Known known) (r : Register) (reset : Nat) :
    ∀ s ∈ resetBody b r reset, Idle types stock known s := by
  intro s hs
  obtain ⟨i, -, rfl⟩ := List.mem_map.1 hs
  exact storeConstant_idle h i _

/-- The code of the class of a register in a tree. -/
structure HolderCode (t : Tree) (r : Register) (reset : Nat) (memory : NodeId) (x : Shape) :
    Prop where
  kind_eq : x.kind = .classDecl { access := some .prot }
  name_eq : nameOf x = r.typeName
  declares : t.Declares memory "memory" bytesType
  fields : ∃ y, part x .fields = [y] ∧ FieldDecl "memory" bytesType y
  properties : List.Forall₂ (fun f y => ∃ type, FieldCode t { memory } f type y) r.fields
    (part x .properties)
  methods : ∃ construct reset' read write,
    part x .methods = [construct, reset', read, write]
      ∧ MethodCode r.typeName ctorSig (constructBody { memory } r.bufferSize) construct
      ∧ MethodCode "Reset" plainSig (resetBody { memory } r reset) reset'
      ∧ (∃ m : ReadMasks, m.Of r ∧ ReadCode t { memory } m read)
      ∧ ∃ m : WriteMasks, m.Of r ∧ WriteCode t { memory } m write
  classes : part x .classes = []

theorem HolderCode.keep {memory : NodeId} {x : Shape} (h : HolderCode t r reset memory x)
    {old : List NodeId} {cs : List (List Planted)} (hy : Yields t t' old cs) :
    HolderCode t' r reset memory x := by
  obtain ⟨construct, reset', read, write, hall, hconstruct, hreset, ⟨m, hm, hread⟩, m', hm', hwrite⟩ :=
    h.methods
  exact ⟨h.kind_eq, h.name_eq, h.declares.keep hy, h.fields,
    h.properties.imp fun f y ⟨type, hcode⟩ => ⟨type, hcode.keep hy⟩,
    ⟨construct, reset', read, write, hall, hconstruct, hreset, ⟨m, hm, hread.keep hy⟩, m', hm',
      hwrite.keep hy⟩, h.classes⟩

/-- The class of a register is planted. -/
theorem holderClass_run (hm : t.Mutual) (hr : r.Proper) (reset : Nat) :
    ∃ (t' : Tree) (x : Planted) (memory : NodeId),
      holderClass r reset t = (.ok x.tag, t') ∧ Yields t t' [] [[x]]
      ∧ HolderCode t' r reset memory x.shape := by
  obtain ⟨t₁, mem, hmem, hy₁, hd₁, hdecl⟩ := memoryDecl_run hm
  obtain ⟨t₂, props, hprops, hy₂, hfields⟩ := fieldProperties_run (b := { memory := mem.tag })
    hy₁.stock.linked ⟨hd₁.known, fun _ hs => nomatch hs⟩ hr
  obtain ⟨reading, hreading, hreads⟩ := ReadMasks.ofRegister_run hr
  obtain ⟨writing, hwriting, hwrites⟩ := WriteMasks.ofRegister_run hr
  have hd₂ := hd₁.keep hy₂
  obtain ⟨t₃, read, hread, hy₃, hreadCode⟩ := readMethod_run (b := { memory := mem.tag })
    hy₂.stock.linked ⟨hd₂.known, fun _ hs => nomatch hs⟩ reading
  have hd₃ := hd₂.keep hy₃
  obtain ⟨t₄, write, hwrite, hy₄, hwriteCode⟩ := writeMethod_run (b := { memory := mem.tag })
    hy₃.stock.linked ⟨hd₃.known, fun _ hs => nomatch hs⟩ writing
  have hd₄ := hd₃.keep hy₄
  have hknown : Buffer.Known t₄.Known { memory := mem.tag } := ⟨hd₄.known, fun _ hs => nomatch hs⟩
  have hy : Yields t t₄ [] ([mem] :: props.map (fun x => [x]) ++ [[read]] ++ [[write]]) :=
    ((hy₁.and hy₂).and hy₃).and hy₄
  have hconstruct : ∀ stock, ∀ s ∈ constructBody { memory := mem.tag } r.bufferSize,
      Idle t₄.typeAt stock t₄.Known s := fun _ => constructBody_idle hknown _
  have hreset : ∀ stock, ∀ s ∈ resetBody { memory := mem.tag } r reset,
      Idle t₄.typeAt stock t₄.Known s := fun _ => resetBody_idle hknown r reset
  have huses : Sketch.usesList (constructBody { memory := mem.tag } r.bufferSize) = []
      ∧ Sketch.usesList (resetBody { memory := mem.tag } r reset) = [] :=
    ⟨Sketch.usesList_idle (hconstruct fun _ => []), Sketch.usesList_idle (hreset fun _ => [])⟩
  have hids : ([mem] :: props.map (fun x => [x]) ++ [[read]] ++ [[write]]).map (headOr none)
      = (mem.tag :: props.map Term.tag ++ [read.tag, write.tag]).map some := by
    simp only [List.map_append, List.map_cons, List.map_nil, List.map_map, List.append_assoc,
      List.cons_append, List.nil_append]
    rfl
  have hall : (Sketch.documented (.classDecl r.typeName { access := some .prot } [.node mem.tag]
      ((props.map Term.tag).map .node)
      [constructor r.typeName [] (constructBody { memory := mem.tag } r.bufferSize),
        resetMethod { memory := mem.tag } r reset, .node read.tag, .node write.tag] [])
      r.doc).uses = mem.tag :: props.map Term.tag ++ [read.tag, write.tag] := by
    show ([mem.tag] ++ Sketch.usesList ((props.map Term.tag).map .node)
      ++ ((([] : List NodeId) ++ Sketch.usesList (constructBody { memory := mem.tag } r.bufferSize))
        ++ ((([] : List NodeId) ++ Sketch.usesList (resetBody { memory := mem.tag } r reset))
          ++ [read.tag, write.tag]))) ++ [] = _
    rw [huses.1, huses.2, Sketch.usesList_nodes]
    simp
  obtain ⟨stock, t₅, x, hstock, hrun, hy₅, hx⟩ := Sketch.plant_node _ hy.stock
    (hids.trans (congrArg (List.map some) hall.symm))
    (fun stock _ => ⟨⟨trivial, trivial⟩, Sketch.fitsList_nodes ..,
      ⟨⟨trivial, Sketch.fitsList_idle (hconstruct stock)⟩,
        ⟨trivial, Sketch.fitsList_idle (hreset stock)⟩, trivial, trivial, trivial⟩, trivial⟩)
    fun _ => rfl
  have hshape := (List.cons.inj hx).1
  rw [hall] at hstock
  simp only [List.cons_append, List.map_cons, List.map_append, List.map_map, List.append_assoc,
    List.map_nil, List.nil_append] at hstock
  obtain ⟨hmemory, hrest⟩ := List.cons.inj hstock
  obtain ⟨hproperties, hmethods⟩ := List.append_inj hrest (by simp)
  obtain ⟨hr₁, hw⟩ := List.cons.inj hmethods
  refine ⟨t₅, x, mem.tag, ?_, hy.trans hy₅, ?_⟩
  · unfold holderClass
    rw [Edit.bind_run hmem, Edit.bind_run hprops, Edit.bind_run (Edit.check_run hreading),
      Edit.bind_run (Edit.check_run hwriting), Edit.bind_run hread, Edit.bind_run hwrite]
    exact hrun
  rw [← hshape]
  have hall : List.map (stock ∘ Term.tag) props = props.map fun x => [x.shape] := hproperties
  refine ⟨rfl, rfl, hd₄.keep hy₅, ⟨mem.shape, ?_, hdecl⟩, ?_,
    ⟨_, _, read.shape, write.shape, ?_, methodShape_code t₄.typeAt stock ..,
      methodShape_code t₄.typeAt stock .., ⟨reading, hreads, (hreadCode.keep hy₄).keep hy₅⟩,
      writing, hwrites, hwriteCode.keep hy₅⟩, rfl⟩
  · show stock mem.tag ++ [] = _
    rw [hmemory]
    rfl
  · show List.Forall₂ _ r.fields
      (Sketch.codeList t₄.typeAt stock ((props.map Term.tag).map .node)).flatten
    rw [Sketch.codeList_nodes, List.map_map, hall, ← List.flatMap_def,
      show props.flatMap (fun x => [x.shape]) = props.map Term.shape from List.map_eq_flatMap.symm,
      List.forall₂_map_right_iff]
    exact hfields.imp fun f y ⟨type, hcode⟩ => ⟨type, ((hcode.keep hy₃).keep hy₄).keep hy₅⟩
  · show [_] ++ ([_] ++ (stock read.tag ++ (stock write.tag ++ []))) = _
    rw [hr₁, (List.cons.inj hw).1]
    rfl

-- ============================================================== drafted

/-- The class is drafted, with a note if the register is wide. -/
theorem registerClass_run (hm : t.Mutual) (hr : r.Proper) (reset : Nat) (journal : Journal) :
    ∃ (t' : Tree) (x : Planted) (memory : NodeId) (journal' : Journal),
      registerClass r reset ⟨t, journal⟩ = (.ok x.tag, ⟨t', journal'⟩) ∧ Yields t t' [] [[x]]
      ∧ HolderCode t' r reset memory x.shape := by
  obtain ⟨t', x, memory, hrun, hy, hcode⟩ := holderClass_run hm hr reset
  have hclass := fun journal : Journal => @Drafting.ofEdit_run _ _ journal _ _ _ hrun
  unfold registerClass
  by_cases hw : 32 < r.width
  · rw [if_pos hw]
    exact ⟨t', x, memory, _, hclass _, hy, hcode⟩
  · rw [if_neg hw]
    exact ⟨t', x, memory, journal, hclass journal, hy, hcode⟩

end RegisterMap.Peripheral
