/-
The classes of registers and arrays are built without holes. Each builder
is a sequence of edits none of which makes a hole, so the builder makes
none (`Edit.HoleFree`, `Drafting.HoleFree`); what is to be seen of each is
that the sketches it plants have none.
-/
import RegisterMap.Peripheral.Assemble
import RegisterMap.Proofs.Code.Holes

namespace RegisterMap

open Code
open Code.Edit (HoleFree holeFree_pure holeFree_check holeFree_mapM)
open Code.Sketch (listIsHoleFree_iff listIsHoleFree_nodes holeFree_plant)

-- ============================================================== drafting

namespace Code.Drafting

variable {α β : Type}

/-- The action on a draft adds no hole to its tree. -/
structure HoleFree (act : Drafting α) : Prop where
  before : ∀ d i, (act d).2.tree.kind? i = some .hole → d.tree.kind? i = some .hole

/-- What such an action builds over nothing has no hole. -/
theorem HoleFree.built {act : Drafting α} {r : Except Failure α} {d d' : Draft}
    {cs : List (List Planted)} (h : HoleFree act) (hrun : act d = (r, d')) (hm : d.tree.Mutual)
    (hy : Tree.Yields d.tree d'.tree [] cs) : Tree.HoleFreeIn cs :=
  hy.holeFree_new hm fun i hi => h.before d i (by rwa [hrun])

theorem holeFree_pure (a : α) : HoleFree (pure a) := ⟨fun _ _ h => h⟩

theorem HoleFree.bind {act : Drafting α} {f : α → Drafting β} (h : HoleFree act)
    (hf : ∀ a, HoleFree (f a)) : HoleFree (act >>= f) := by
  refine ⟨fun d i hhole => ?_⟩
  cases hrun : act d with
  | mk r d' =>
    have hbefore := h.before d i
    rw [hrun] at hbefore
    cases r with
    | error e =>
      rw [bind_error_run hrun] at hhole
      exact hbefore hhole
    | ok a =>
      rw [bind_run hrun] at hhole
      exact hbefore ((hf a).before d' i hhole)

theorem holeFree_ofEdit {e : Edit α} (h : Edit.HoleFree e) : HoleFree (ofEdit e) :=
  ⟨fun d i hhole => h.before d.tree i hhole⟩

theorem holeFree_note (level : Level) (text : String) : HoleFree (note level text) :=
  ⟨fun _ _ h => h⟩

theorem holeFree_mapM {f : α → Drafting β} (h : ∀ a, HoleFree (f a)) (l : List α) :
    HoleFree (l.mapM f) := by
  induction l with
  | nil => exact holeFree_pure _
  | cons a l ih =>
    rw [List.mapM_cons]
    exact (h a).bind fun _ => ih.bind fun _ => holeFree_pure _

end Code.Drafting

namespace Peripheral

variable {e e' : Sketch}

/-- Sketches of a list, one for each member. -/
theorem holeFree_map {α : Type} {f : α → Sketch} (l : List α) (h : ∀ a, (f a).isHoleFree = true) :
    Sketch.listIsHoleFree (l.map f) = true :=
  listIsHoleFree_iff.2 fun s hs => by
    obtain ⟨a, -, rfl⟩ := List.mem_map.1 hs
    exact h a

theorem holeFree_filterMap {α : Type} {f : α → Option Sketch} (l : List α)
    (h : ∀ a, ∀ s ∈ f a, s.isHoleFree = true) : Sketch.listIsHoleFree (l.filterMap f) = true :=
  listIsHoleFree_iff.2 fun s hs => by
    obtain ⟨a, -, ha⟩ := List.mem_filterMap.1 hs
    exact h a s ha

theorem holeFree_append {l l' : List Sketch} (h : Sketch.listIsHoleFree l = true)
    (h' : Sketch.listIsHoleFree l' = true) : Sketch.listIsHoleFree (l ++ l') = true :=
  listIsHoleFree_iff.2 (List.forall_mem_append.2
    ⟨listIsHoleFree_iff.1 h, listIsHoleFree_iff.1 h'⟩)

theorem holeFree_cons {l : List Sketch} (h : e.isHoleFree = true)
    (hl : Sketch.listIsHoleFree l = true) : Sketch.listIsHoleFree (e :: l) = true :=
  Bool.and_eq_true_iff.2 ⟨h, hl⟩

/-- An operation, an assignment and an access take two operands. -/
theorem holeFree_binary (op : Operator) (h : e.isHoleFree = true) (h' : e'.isHoleFree = true) :
    (Sketch.binary op e e').isHoleFree = true :=
  Bool.and_eq_true_iff.2 ⟨h, h'⟩

theorem holeFree_documented (h : e.isHoleFree = true) (doc : String) :
    (e.documented doc).isHoleFree = true := h

theorem holeFree_method {params body : List Sketch} (name : String) (sig : MethodSig)
    (hp : Sketch.listIsHoleFree params = true) (hb : Sketch.listIsHoleFree body = true) :
    (Sketch.method name sig params body).isHoleFree = true :=
  Bool.and_eq_true_iff.2 ⟨hp, hb⟩

theorem holeFree_classDecl {fields properties methods classes : List Sketch} (name : String)
    (sig : ClassSig) (hf : Sketch.listIsHoleFree fields = true)
    (hp : Sketch.listIsHoleFree properties = true) (hm : Sketch.listIsHoleFree methods = true)
    (hc : Sketch.listIsHoleFree classes = true) :
    (Sketch.classDecl name sig fields properties methods classes).isHoleFree = true :=
  Bool.and_eq_true_iff.2 ⟨hf, Bool.and_eq_true_iff.2 ⟨hp, Bool.and_eq_true_iff.2 ⟨hm, hc⟩⟩⟩

-- ============================================================== buffers

theorem holeFree_byteAt (b : Buffer) (offset : Nat) : (b.byteAt offset).isHoleFree = true := by
  unfold Buffer.byteAt
  cases b.start <;> rfl

theorem holeFree_store (b : Buffer) (offset : Nat) (h : e.isHoleFree = true) :
    (b.store offset e).isHoleFree = true :=
  Bool.and_eq_true_iff.2 ⟨holeFree_byteAt b offset, h⟩

theorem holeFree_masked (h : e.isHoleFree = true) (mask : Nat) :
    (masked e mask).isHoleFree = true :=
  holeFree_binary .and h rfl

theorem holeFree_word (b : Buffer) : b.word.isHoleFree = true := by
  have hbyte : ∀ i, (b.wordByte i).isHoleFree = true := fun i =>
    holeFree_binary .shl (e := .cast .uint (b.byteAt i)) (holeFree_byteAt b i) rfl
  exact holeFree_binary .or (holeFree_binary .or (holeFree_binary .or (hbyte 0) (hbyte 1)) (hbyte 2))
    (hbyte 3)

-- =============================================================== fields

section Layout

variable (l : Layout) (b : Buffer) (type : TypeRef)

theorem holeFree_gather (temp : NodeId) (i : Nat) : (l.gather b type temp i).isHoleFree = true := by
  have hbits : (l.bitsRead b type i).isHoleFree = true :=
    holeFree_binary _ (e := .cast type (masked (b.byteAt _) _))
      (holeFree_masked (holeFree_byteAt ..) _) rfl
  exact holeFree_binary .or (e := .use temp) rfl hbits

theorem holeFree_readBody (temp : NodeId) :
    Sketch.listIsHoleFree (l.readBody b type temp) = true :=
  holeFree_cons rfl (holeFree_append (holeFree_map _ (holeFree_gather l b type temp)) rfl)

theorem holeFree_testBody : Sketch.listIsHoleFree (l.testBody b) = true :=
  holeFree_cons (e := .ret (some _))
    (holeFree_binary .neq (holeFree_masked (holeFree_byteAt ..) _) rfl) rfl

theorem holeFree_newValue (value : NodeId) : (l.newValue type value).isHoleFree = true := by
  unfold Layout.newValue
  split <;> rfl

theorem holeFree_bitsWritten (value : NodeId) (i : Nat) :
    (l.bitsWritten type value i).isHoleFree = true := by
  have hnew := holeFree_newValue l type value
  unfold Layout.bitsWritten
  dsimp only
  split
  · split
    · exact holeFree_binary .shl (e := .cast .uint (l.newValue type value)) hnew rfl
    · exact holeFree_binary .shl hnew rfl
  · exact holeFree_binary .shr hnew rfl

theorem holeFree_writeBody (value : NodeId) :
    Sketch.listIsHoleFree (l.writeBody b type value) = true :=
  holeFree_map _ fun i => holeFree_store b _ (e := .cast .byte _)
    (holeFree_binary .or (holeFree_masked (holeFree_byteAt ..) _)
      (holeFree_bitsWritten l type value i))

end Layout

theorem holeFree_fieldProperty (b : Buffer) (f : Field) : HoleFree (fieldProperty b f) := by
  refine (holeFree_check _).bind fun type => (holeFree_check _).bind fun layout => ?_
  have hproperty : ∀ get, Sketch.listIsHoleFree get = true → HoleFree (do
      let value ← (Sketch.param "value" type).plant
      Sketch.plant <| .documented
        (.property f.propertyName { type, get := .body, set := .body, access := some .pub }
          get (layout.writeBody b type value))
        s!"Offset: {Text.hex f.low}, Width: {layout.width} bits") := fun get hget =>
    (holeFree_plant _ rfl).bind fun value =>
      holeFree_plant _ (Bool.and_eq_true_iff.2 ⟨hget, holeFree_writeBody layout b type value⟩)
  unfold Layout.getter
  split
  · rw [pure_bind]
    exact hproperty _ (holeFree_testBody layout b)
  · rw [bind_assoc]
    refine (holeFree_plant _ rfl).bind fun temp => ?_
    rw [pure_bind]
    exact hproperty _ (holeFree_readBody layout b type temp)

theorem holeFree_fieldProperties (b : Buffer) (fields : List Field) :
    HoleFree (fieldProperties b fields) :=
  holeFree_mapM (holeFree_fieldProperty b) fields

-- ============================================================ registers

theorem holeFree_react (b : Buffer) (m : ReadMasks) (i : Nat) :
    ∀ s ∈ m.react b i, s.isHoleFree = true := by
  intro s hs
  unfold ReadMasks.react at hs
  dsimp only at hs
  split at hs
  · cases hs
  · rw [← Option.some.inj hs]
    exact holeFree_store b i (e := .cast .byte _)
      (holeFree_binary .or (holeFree_masked (holeFree_byteAt ..) _) rfl)

theorem holeFree_readMethod (b : Buffer) (m : ReadMasks) : HoleFree (readMethod b m) := by
  have hvalue : (m.value b).isHoleFree = true := holeFree_masked (holeFree_word b) _
  unfold readMethod
  split
  · exact holeFree_plant _ (holeFree_cons (e := .ret (some (m.value b))) hvalue rfl)
  · refine (holeFree_plant (.variable "result" .uint (some (m.value b)) none) hvalue).bind
      fun result => holeFree_plant _ ?_
    have hbody : Sketch.listIsHoleFree (.node result :: wordBytes.filterMap (m.react b)
        ++ [.ret (some (.use result))]) = true :=
      holeFree_append (holeFree_cons rfl (holeFree_filterMap _ (holeFree_react b m))) rfl
    exact hbody

theorem holeFree_bitsAfterWrite (b : Buffer) (value : NodeId) (i : Nat)
    (effect : Option WriteEffect) (mask : Nat) :
    ∀ s ∈ bitsAfterWrite b value i effect mask, s.isHoleFree = true := by
  have hcombined : ∀ op bits, Sketch.isHoleFree bits = true →
      (masked (.binary op (b.byteAt i) bits) mask).isHoleFree = true := fun op _ hbits =>
    holeFree_masked (holeFree_binary op (holeFree_byteAt b i) hbits) mask
  intro s hs
  unfold bitsAfterWrite at hs
  dsimp only at hs
  split at hs <;> cases hs
  all_goals first
    | rfl
    | exact hcombined _ _ rfl

theorem holeFree_updateByte (b : Buffer) (m : WriteMasks) (value : NodeId) (i : Nat) :
    ∀ s ∈ updateByte b m value i, s.isHoleFree = true := by
  have hfold : ∀ (parts : List Sketch) (e : Sketch), (∀ s ∈ parts, s.isHoleFree = true) →
      e.isHoleFree = true → (parts.foldl (.binary .or) e).isHoleFree = true := by
    intro parts
    induction parts with
    | nil => exact fun _ _ he => he
    | cons p parts ih =>
      exact fun e hp he => ih _ (fun s hs => hp s (List.mem_cons_of_mem _ hs))
        (holeFree_binary .or he (hp p (List.mem_cons_self ..)))
  intro s hs
  unfold updateByte at hs
  dsimp only at hs
  split at hs
  · cases hs
  · rw [← Option.some.inj hs]
    refine holeFree_store b i (e := .cast .byte _)
      (hfold _ _ (fun e he => ?_) (holeFree_masked (holeFree_byteAt b i) _))
    obtain ⟨p, -, hp⟩ := List.mem_filterMap.1 he
    split at hp
    · cases hp
    · exact holeFree_bitsAfterWrite b value i _ _ e hp

theorem holeFree_writeMethod (b : Buffer) (m : WriteMasks) : HoleFree (writeMethod b m) :=
  (holeFree_plant _ rfl).bind fun value =>
    holeFree_plant _ (holeFree_filterMap _ (holeFree_updateByte b m value))

theorem holeFree_holderClass (r : Register) (reset : Nat) : HoleFree (holderClass r reset) := by
  refine (holeFree_plant _ rfl).bind fun memory =>
    (holeFree_fieldProperties _ _).bind fun properties =>
    (holeFree_check _).bind fun _ => (holeFree_check _).bind fun _ =>
    (holeFree_readMethod _ _).bind fun read => (holeFree_writeMethod _ _).bind fun write =>
    holeFree_plant _ ?_
  have hreset : (resetMethod { memory } r reset).isHoleFree = true :=
    holeFree_method _ _ rfl (holeFree_map _ fun i => holeFree_store _ i rfl)
  exact holeFree_documented (holeFree_classDecl _ _ rfl (listIsHoleFree_nodes properties)
    (holeFree_cons rfl (holeFree_cons hreset rfl)) rfl) _

theorem holeFree_registerClass (r : Register) (reset : Nat) :
    Drafting.HoleFree (registerClass r reset) := by
  unfold registerClass
  dsimp only
  split
  · exact (Drafting.holeFree_note ..).bind fun _ =>
      Drafting.holeFree_ofEdit (holeFree_holderClass r reset)
  · exact Drafting.holeFree_ofEdit (holeFree_holderClass r reset)

-- =============================================================== arrays

theorem holeFree_elementClass (a : RegisterArray) : HoleFree (elementClass a) := by
  refine (holeFree_plant _ rfl).bind fun start => (holeFree_plant _ rfl).bind fun memory =>
    (holeFree_fieldProperties _ _).bind fun properties => (holeFree_plant _ rfl).bind fun _ =>
    (holeFree_plant _ rfl).bind fun _ => holeFree_plant _ ?_
  exact holeFree_classDecl _ _ rfl (listIsHoleFree_nodes properties) rfl rfl

theorem holeFree_indexer (a : RegisterArray) (b : Buffer) : HoleFree (indexer a b) :=
  (holeFree_plant _ rfl).bind fun _ => holeFree_plant _ rfl

theorem holeFree_readAtOffset (memory : NodeId) : HoleFree (readAtOffset memory) :=
  (holeFree_plant _ rfl).bind fun _ => holeFree_plant _ rfl

theorem holeFree_writeAtOffset (memory : NodeId) : HoleFree (writeAtOffset memory) :=
  (holeFree_plant _ rfl).bind fun _ => (holeFree_plant _ rfl).bind fun _ => holeFree_plant _ rfl

theorem holeFree_containerClass (a : RegisterArray) : HoleFree (containerClass a) := by
  refine (holeFree_elementClass a).bind fun element => (holeFree_plant _ rfl).bind fun memory =>
    (holeFree_check _).bind fun size => (holeFree_indexer a _).bind fun indexer =>
    (holeFree_check _).bind fun bufferSize => (holeFree_readAtOffset _).bind fun read =>
    (holeFree_writeAtOffset _).bind fun write => (holeFree_check _).bind fun bytes =>
    holeFree_plant _ ?_
  have hreset : (resetElements { memory } bytes).isHoleFree = true :=
    holeFree_method _ _ rfl (holeFree_cons rfl (holeFree_map _ fun p => holeFree_store _ p.1 rfl))
  exact holeFree_documented (holeFree_classDecl _ _ rfl rfl
    (holeFree_cons rfl (holeFree_cons rfl (holeFree_cons rfl (holeFree_cons hreset rfl)))) rfl) _

-- ============================================================== members

theorem holeFree_declareMember (holder : NodeId) (name type doc : String) :
    HoleFree (declareMember holder name type doc) :=
  (holeFree_plant _ rfl).bind fun _ => holeFree_pure _

theorem holeFree_arrayMember (a : RegisterArray) : HoleFree (arrayMember a) :=
  (holeFree_containerClass a).bind fun _ => (holeFree_declareMember ..).bind fun _ => holeFree_pure _

theorem holeFree_registerMember (r : Register) (reset : Nat) :
    Drafting.HoleFree (registerMember r reset) :=
  (holeFree_registerClass r reset).bind fun _ =>
    (Drafting.holeFree_ofEdit (holeFree_declareMember ..)).bind fun _ => Drafting.holeFree_pure _

end Peripheral

end RegisterMap
