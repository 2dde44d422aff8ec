/-
The classes of a register array as they are planted. `ElementCode` and
`ContainerCode` say what their parts are, over the declarations in them;
planting them never fails where the array is sound
(`containerClass_run`).
-/
import RegisterMap.Peripheral.Container
import RegisterMap.Proofs.Code.Grafting
import RegisterMap.Proofs.Peripheral.HolderCode
import RegisterMap.Proofs.Register.Resets

namespace RegisterMap.Peripheral

open Code Exec
open Code.Tree (Yields)
open Code.Sketch (Plain Idle plain_use plain_int)

variable {types : NodeId → TypeRef} {stock : NodeId → List Shape} {known : NodeId → Prop}
  {t t' : Tree} {a : RegisterArray} {memory : NodeId} {x : Shape} {old : List NodeId}
  {cs : List (List Planted)}

-- ============================================================== fitting

theorem plain_long (n : Nat) : Plain types stock known (.long n) := ⟨trivial, rfl, rfl⟩

theorem isOutside_plain {index : NodeId} (h : known index) (count : Nat) :
    Plain types stock known (isOutside index count) :=
  ((plain_use h).join .lt (plain_int 0) rfl).join .lor ((plain_use h).join .gte (plain_long count) rfl)
    rfl

theorem keepParam_idle {param : NodeId} (h : known param) (name : String) (type : TypeRef) :
    Idle types stock known (keepParam name type param) :=
  Plain.assign (l := .member .self name type) ⟨trivial, rfl, rfl⟩ (plain_use h)

theorem clear_idle (h : known memory) : Idle types stock known (clear { memory }) :=
  ⟨⟨trivial, h, trivial, h, trivial⟩, rfl⟩

-- ============================================================= elements

/-- A parameter, as it is sketched. -/
def paramShape (name : String) (type : TypeRef) : Shape :=
  (Shape.above (.paramDecl type false) [[]]).remark (Tree.titled name)

/-- What creating a view does. -/
def keepBody (memoryParam startParam : NodeId) : List Sketch :=
  [keepParam "memory" bytesType memoryParam, keepParam "spanBegin" .long startParam]

/-- The code of the class that sees one element. -/
structure ElementCode (t : Tree) (a : RegisterArray) (x : Shape) : Prop where
  kind_eq : x.kind = .classDecl { access := some .pub }
  name_eq : nameOf x = a.elementName
  fields : ∃ y z, part x .fields = [y, z] ∧ FieldDecl "spanBegin" .long y
    ∧ FieldDecl "memory" bytesType z
  properties : ∃ memory start, t.Declares memory "memory" bytesType
    ∧ t.Declares start "spanBegin" .long
    ∧ List.Forall₂ (fun f y => ∃ type, FieldCode t { memory, start := some start } f type y)
      a.register.fields (part x .properties)
  methods : ∃ construct types stock memoryParam startParam, part x .methods = [construct]
    ∧ construct.kind = .methodDecl ctorSig ∧ nameOf construct = a.elementName
    ∧ t.Declares memoryParam "memory" bytesType ∧ t.Declares startParam "spanBegin" .long
    ∧ part construct .params = [paramShape "memory" bytesType, paramShape "spanBegin" .long]
    ∧ part construct .body
      = (Sketch.codeList types stock (keepBody memoryParam startParam)).flatten
  classes : part x .classes = []

theorem ElementCode.keep (h : ElementCode t a x) (hy : Yields t t' old cs) :
    ElementCode t' a x := by
  obtain ⟨memory, start, hmemory, hstart, hall⟩ := h.properties
  obtain ⟨construct, types, stock, mp, sp, hmethods, hkind, hname, hmp, hsp, hrest⟩ := h.methods
  exact ⟨h.kind_eq, h.name_eq, h.fields,
    ⟨memory, start, hmemory.keep hy, hstart.keep hy,
      hall.imp fun f y ⟨type, hcode⟩ => ⟨type, hcode.keep hy⟩⟩,
    ⟨construct, types, stock, mp, sp, hmethods, hkind, hname, hmp.keep hy, hsp.keep hy, hrest⟩,
    h.classes⟩

/-- The class that sees one element is planted. -/
theorem elementClass_run (hm : t.Mutual) (hr : a.register.Proper) :
    ∃ (t' : Tree) (x : Planted), elementClass a t = (.ok x.tag, t') ∧ Yields t t' [] [[x]]
      ∧ ElementCode t' a x.shape := by
  obtain ⟨stock₁, t₁, start, hstart, hy₁, hd₁, hstartShape⟩ := Sketch.plant_variable hm "spanBegin"
    .long (some .priv) (rfl : Sketch.usesOption none = []) fun _ => trivial
  obtain ⟨t₂, mem, hmem, hy₂, hdm₂, hdecl⟩ := memoryDecl_run hy₁.stock.linked
  have hd₂ := hd₁.keep hy₂
  obtain ⟨t₃, props, hprops, hy₃, hfields⟩ := fieldProperties_run
    (b := { memory := mem.tag, start := some start.tag }) hy₂.stock.linked
    ⟨hdm₂.known, fun d hd => Option.some.inj hd ▸ hd₂.known⟩ hr
  obtain ⟨t₄, mp, hmp, hy₄, hdmp, hmpShape⟩ :=
    Sketch.plant_param hy₃.stock.linked "memory" bytesType
  obtain ⟨t₅, sp, hsp, hy₅, hdsp, hspShape⟩ :=
    Sketch.plant_param hy₄.stock.linked "spanBegin" .long
  have hdmp₅ := hdmp.keep hy₅
  have hy : Yields t t₅ []
      ([[start]] ++ [[mem]] ++ props.map (fun x => [x]) ++ [[mp]] ++ [[sp]]) :=
    (((hy₁.and hy₂).and hy₃).and hy₄).and hy₅
  have hbody : ∀ stock, ∀ s ∈ keepBody mp.tag sp.tag, Idle t₅.typeAt stock t₅.Known s := by
    intro stock s hs
    rcases List.mem_cons.1 hs with rfl | hs
    · exact keepParam_idle hdmp₅.known ..
    · exact List.mem_singleton.1 hs ▸ keepParam_idle hdsp.known ..
  have hempty := Sketch.usesList_idle (hbody fun _ => [])
  have hids : ([[start]] ++ [[mem]] ++ props.map (fun x => [x]) ++ [[mp]] ++ [[sp]]).map (headOr none)
      = (start.tag :: mem.tag :: props.map Term.tag ++ [mp.tag, sp.tag]).map some := by
    simp only [List.map_append, List.map_cons, List.map_nil, List.map_map, List.append_assoc,
      List.cons_append, List.nil_append]
    rfl
  have hall : (Sketch.classDecl a.elementName { access := some .pub }
      [.node start.tag, .node mem.tag] ((props.map Term.tag).map .node)
      [constructor a.elementName [.node mp.tag, .node sp.tag] (keepBody mp.tag sp.tag)] []).uses
      = start.tag :: mem.tag :: props.map Term.tag ++ [mp.tag, sp.tag] := by
    show ([start.tag, mem.tag] ++ Sketch.usesList ((props.map Term.tag).map .node)
      ++ (([mp.tag, sp.tag] ++ Sketch.usesList (keepBody mp.tag sp.tag)) ++ [])) ++ [] = _
    rw [hempty, Sketch.usesList_nodes]
    simp
  obtain ⟨stock, t₆, x, hstock, hrun, hy₆, hx⟩ := Sketch.plant_node _ hy.stock
    (hids.trans (congrArg (List.map some) hall.symm))
    (fun stock _ => ⟨⟨trivial, trivial, trivial⟩, Sketch.fitsList_nodes ..,
      ⟨⟨⟨trivial, trivial, trivial⟩, Sketch.fitsList_idle (hbody stock)⟩, trivial⟩, trivial⟩)
    fun _ => rfl
  have hshape := (List.cons.inj hx).1
  rw [hall] at hstock
  simp only [List.cons_append, List.map_cons, List.map_append, List.map_map, List.append_assoc,
    List.map_nil, List.nil_append] at hstock
  obtain ⟨hstart', hrest⟩ := List.cons.inj hstock
  obtain ⟨hmem', hrest⟩ := List.cons.inj hrest
  obtain ⟨hproperties, hparams⟩ := List.append_inj hrest (by simp)
  obtain ⟨hmp', hrest⟩ := List.cons.inj hparams
  obtain ⟨hsp', -⟩ := List.cons.inj hrest
  refine ⟨t₆, x, ?_, hy.trans hy₆, ?_⟩
  · unfold elementClass
    rw [Edit.bind_run hstart, Edit.bind_run hmem, Edit.bind_run hprops, Edit.bind_run hmp,
      Edit.bind_run hsp]
    exact hrun
  rw [← hshape]
  have hall' : List.map (stock ∘ Term.tag) props = props.map fun x => [x.shape] := hproperties
  refine ⟨rfl, rfl, ⟨start.shape, mem.shape, ?_, ?_, hdecl⟩,
    ⟨mem.tag, start.tag, (((hdm₂.keep hy₃).keep hy₄).keep hy₅).keep hy₆,
      (((hd₂.keep hy₃).keep hy₄).keep hy₅).keep hy₆, ?_⟩,
    ⟨_, t₅.typeAt, stock, mp.tag, sp.tag, rfl, rfl, rfl, hdmp₅.keep hy₆, hdsp.keep hy₆, ?_, rfl⟩, rfl⟩
  · show stock start.tag ++ (stock mem.tag ++ []) = _
    rw [hstart', hmem']
    rfl
  · rw [hstartShape]
    exact ⟨⟨_, rfl⟩, rfl, rfl⟩
  · show List.Forall₂ _ a.register.fields
      (Sketch.codeList t₅.typeAt stock ((props.map Term.tag).map .node)).flatten
    rw [Sketch.codeList_nodes, List.map_map, hall', ← List.flatMap_def,
      show props.flatMap (fun x => [x.shape]) = props.map Term.shape from List.map_eq_flatMap.symm,
      List.forall₂_map_right_iff]
    exact hfields.imp fun f y ⟨type, hcode⟩ =>
      ⟨type, ((hcode.keep hy₄).keep hy₅).keep hy₆⟩
  · show stock mp.tag ++ (stock sp.tag ++ []) = _
    rw [hmp', hsp']
    show [mp.shape, sp.shape] = _
    rw [hmpShape, hspShape]
    rfl

-- ============================================================== members

/-- What a property says of itself that can only be read. -/
def getSig (type : TypeRef) : PropertySig := { type, get := .body, access := some .pub }

/-- The code of a property that can only be read. -/
structure GetCode (name : String) (type : TypeRef) (get : List Sketch) (x : Shape) : Prop where
  kind_eq : x.kind = .propertyDecl (getSig type)
  name_eq : nameOf x = name
  body : ∃ types stock, part x .get = (Sketch.codeList types stock get).flatten

/-- A property that can only be read, as it is sketched. -/
def getShape (types : NodeId → TypeRef) (stock : NodeId → List Shape) (name : String)
    (type : TypeRef) (get : List Sketch) : Shape :=
  (Shape.above (.propertyDecl (getSig type)) [(Sketch.codeList types stock get).flatten, []]).remark
    (Tree.titled name)

theorem getShape_code (types : NodeId → TypeRef) (stock : NodeId → List Shape) (name : String)
    (type : TypeRef) (get : List Sketch) :
    GetCode name type get (getShape types stock name type get) := ⟨rfl, rfl, types, stock, rfl⟩

/-- What the indexer does. -/
def indexBody (a : RegisterArray) (memory index : NodeId) : List Sketch :=
  [.branch (isOutside index a.count) [outOfRange] [],
    .ret (some (.newObject (.named a.elementName)
      [.use memory, .binary .mul (.use index) (.long a.stride)]))]

/-- The double word at an offset is stored byte by byte. -/
def storeBody (b : Buffer) (value : NodeId) : List Sketch :=
  (List.range 4).map fun i => b.storeLow i (incoming value i)

/-- The code of a method with parameters. -/
structure CallCode (name : String) (sig : MethodSig) (params : List Shape) (body : List Sketch)
    (types : NodeId → TypeRef) (x : Shape) : Prop where
  kind_eq : x.kind = .methodDecl sig
  name_eq : nameOf x = name
  params_eq : part x .params = params
  body_eq : ∃ stock, part x .body = (Sketch.codeList types stock body).flatten

/-- The code of the method that reads the double word at an offset. -/
def ReadAtCode (t : Tree) (memory : NodeId) (x : Shape) : Prop :=
  ∃ types offset, t.Declares offset "offset" .long
    ∧ CallCode "ReadDoubleWord" readSig [paramShape "offset" .long]
      [.ret (some (Buffer.word { memory, start := some offset }))] types x

/-- The code of the method that writes the double word at an offset. -/
def WriteAtCode (t : Tree) (memory : NodeId) (x : Shape) : Prop :=
  ∃ types offset value, t.Declares offset "offset" .long ∧ t.Declares value "value" .uint
    ∧ types value = .uint
    ∧ CallCode "WriteDoubleWord" plainSig [paramShape "offset" .long, paramShape "value" .uint]
      (storeBody { memory, start := some offset } value) types x

theorem ReadAtCode.keep (h : ReadAtCode t memory x) (hy : Yields t t' old cs) :
    ReadAtCode t' memory x := by
  obtain ⟨types, offset, hd, hcode⟩ := h
  exact ⟨types, offset, hd.keep hy, hcode⟩

theorem WriteAtCode.keep (h : WriteAtCode t memory x) (hy : Yields t t' old cs) :
    WriteAtCode t' memory x := by
  obtain ⟨types, offset, value, hd, hv, hrest⟩ := h
  exact ⟨types, offset, value, hd.keep hy, hv.keep hy, hrest⟩

/-- The indexer is planted; its parameter stands alone. -/
theorem indexer_run (hm : t.Mutual) (h : t.Known memory) :
    ∃ (t' : Tree) (x : Planted), indexer a { memory } t = (.ok x.tag, t') ∧ Yields t t' [] [[x]]
      ∧ ∃ index, t'.Declares index "index" .long
        ∧ GetCode "this[long index]" (.named a.elementName) (indexBody a memory index) x.shape := by
  obtain ⟨t₁, i, hparam, hy₁, hd, -⟩ := Sketch.plant_param hm "index" .long
  obtain ⟨type, hmemory⟩ := h
  have hmem : t₁.Known memory := ((Tree.Declares.mk hmemory rfl).keep hy₁).known
  have hbody : ∀ stock, ∀ s ∈ indexBody a memory i.tag, Idle t₁.typeAt stock t₁.Known s := by
    intro stock s hs
    have hout : Plain t₁.typeAt stock t₁.Known (isOutside i.tag a.count) :=
      isOutside_plain hd.known a.count
    have hstart : Plain t₁.typeAt stock t₁.Known (.binary .mul (.use i.tag) (.long a.stride)) :=
      (plain_use hd.known).join .mul (plain_long _) rfl
    rcases List.mem_cons.1 hs with rfl | hs
    · exact ⟨⟨hout.fits, ⟨trivial, trivial⟩, trivial⟩, rfl⟩
    · rw [List.mem_singleton.1 hs]
      exact ⟨⟨hmem, hstart.fits, trivial⟩, rfl⟩
  have hempty := Sketch.usesList_idle (hbody fun _ => [])
  obtain ⟨stock, t₂, x, -, hrun, hy₂, hx⟩ := Sketch.plant_node
    (readOnlyProperty "this[long index]" (.named a.elementName) (indexBody a memory i.tag))
    (Tree.stock_nil hy₁.stock.linked)
    (show ([] : List (Option NodeId)) =
        (Sketch.usesList (indexBody a memory i.tag) ++ ([] : List NodeId)).map some by
      rw [hempty]; rfl)
    (fun stock _ => ⟨Sketch.fitsList_idle (hbody stock), trivial⟩) fun _ => rfl
  have hshape := (List.cons.inj hx).1
  refine ⟨t₂, x, (Edit.bind_run hparam).trans hrun, (hy₁.and hy₂).right, i.tag, hd.keep hy₂, ?_⟩
  rw [← hshape]
  exact ⟨rfl, rfl, t₁.typeAt, stock, rfl⟩

/-- A double word at an offset of a buffer. -/
theorem Buffer.Known.at {offset : NodeId} (hm : known memory) (ho : known offset) :
    Buffer.Known known { memory, start := some offset } :=
  ⟨hm, fun _ hd => Option.some.inj hd ▸ ho⟩

/-- The method that reads at an offset is planted. -/
theorem readAtOffset_run (hm : t.Mutual) (h : t.Known memory) :
    ∃ (t' : Tree) (x : Planted), readAtOffset memory t = (.ok x.tag, t') ∧ Yields t t' [] [[x]]
      ∧ ReadAtCode t' memory x.shape := by
  obtain ⟨t₁, o, hparam, hy₁, hd, ho⟩ := Sketch.plant_param hm "offset" .long
  obtain ⟨type, hmemory⟩ := h
  have hmem : t₁.Known memory := ((Tree.Declares.mk hmemory rfl).keep hy₁).known
  have hbody : ∀ stock, ∀ s ∈ [Sketch.ret (some (Buffer.word { memory, start := some o.tag }))],
      Idle t₁.typeAt stock t₁.Known s := fun stock s hs =>
    List.mem_singleton.1 hs ▸ (word_plain (Buffer.Known.at hmem hd.known)).ret
  have hempty := Sketch.usesList_idle (hbody fun _ => [])
  obtain ⟨stock, t₂, x, hstock, hrun, hy₂, hx⟩ := Sketch.plant_node
    (publicReader "ReadDoubleWord" [.node o.tag]
      [.ret (some (Buffer.word { memory, start := some o.tag }))]) hy₁.stock
    (show [some o.tag] = ([o.tag] ++ Sketch.usesList
        [.ret (some (Buffer.word { memory, start := some o.tag }))]).map some by
      rw [hempty]; rfl)
    (fun stock _ => ⟨⟨trivial, trivial⟩, Sketch.fitsList_idle (hbody stock)⟩) fun _ => rfl
  have hshape := (List.cons.inj hx).1
  have hoffset : stock o.tag = [o.shape] := (List.cons.inj hstock).1
  refine ⟨t₂, x, (Edit.bind_run hparam).trans hrun, hy₁.trans hy₂, t₁.typeAt, o.tag, hd.keep hy₂, ?_⟩
  rw [← hshape]
  refine ⟨rfl, rfl, ?_, stock, rfl⟩
  show stock o.tag ++ [] = _
  rw [hoffset, ho]
  rfl

/-- The method that writes at an offset is planted. -/
theorem writeAtOffset_run (hm : t.Mutual) (h : t.Known memory) :
    ∃ (t' : Tree) (x : Planted), writeAtOffset memory t = (.ok x.tag, t') ∧ Yields t t' [] [[x]]
      ∧ WriteAtCode t' memory x.shape := by
  obtain ⟨t₁, o, hoffset, hy₁, hd₁, ho⟩ := Sketch.plant_param hm "offset" .long
  obtain ⟨t₂, v, hvalue, hy₂, hdv, hv⟩ := Sketch.plant_param hy₁.stock.linked "value" .uint
  have hdo := hd₁.keep hy₂
  obtain ⟨type, hmemory⟩ := h
  have hmem : t₂.Known memory := (((Tree.Declares.mk hmemory rfl).keep hy₁).keep hy₂).known
  have hbody : ∀ stock, ∀ s ∈ storeBody { memory, start := some o.tag } v.tag,
      Idle t₂.typeAt stock t₂.Known s := by
    intro stock s hs
    obtain ⟨i, -, rfl⟩ := List.mem_map.1 hs
    exact storeLow_idle (Buffer.Known.at hmem hdo.known) i
      (incoming_plain hdv.known hdv.typeAt_eq i)
  have hempty := Sketch.usesList_idle (hbody fun _ => [])
  obtain ⟨stock, t₃, x, hstock, hrun, hy₃, hx⟩ := Sketch.plant_node
    (publicMethod "WriteDoubleWord" [.node o.tag, .node v.tag]
      (storeBody { memory, start := some o.tag } v.tag)) (hy₁.and hy₂).stock
    (show [some o.tag, some v.tag] = ([o.tag, v.tag] ++ Sketch.usesList
        (storeBody { memory, start := some o.tag } v.tag)).map some by
      rw [hempty]; rfl)
    (fun stock _ => ⟨⟨trivial, trivial, trivial⟩, Sketch.fitsList_idle (hbody stock)⟩) fun _ => rfl
  have hshape := (List.cons.inj hx).1
  obtain ⟨ho', hrest⟩ := List.cons.inj hstock
  have hv' : stock v.tag = [v.shape] := (List.cons.inj hrest).1
  replace ho' : stock o.tag = [o.shape] := ho'
  refine ⟨t₃, x, (Edit.bind_run hoffset).trans ((Edit.bind_run hvalue).trans hrun),
    (hy₁.and hy₂).trans hy₃, t₂.typeAt, o.tag, v.tag, hdo.keep hy₃, hdv.keep hy₃, hdv.typeAt_eq, ?_⟩
  rw [← hshape]
  refine ⟨rfl, rfl, ?_, stock, rfl⟩
  show stock o.tag ++ (stock v.tag ++ []) = _
  rw [ho', hv', ho, hv]
  rfl

-- ================================================================ class

/-- What resetting an array does. -/
def clearBody (b : Buffer) (bytes : List (Nat × Nat)) : List Sketch :=
  clear b :: bytes.map fun p => b.storeConstant p.1 p.2

theorem clearBody_idle (h : Buffer.Known known { memory }) (bytes : List (Nat × Nat)) :
    ∀ s ∈ clearBody { memory } bytes, Idle types stock known s := by
  intro s hs
  rcases List.mem_cons.1 hs with rfl | hs
  · exact clear_idle h.memory
  · obtain ⟨p, -, rfl⟩ := List.mem_map.1 hs
    exact storeConstant_idle h p.1 p.2

/-- The code of the class of a register array in a tree. -/
structure ContainerCode (t : Tree) (a : RegisterArray) (memory : NodeId) (x : Shape) : Prop where
  kind_eq : x.kind = .classDecl { access := some .prot }
  name_eq : nameOf x = a.typeName
  declares : t.Declares memory "memory" bytesType
  fields : ∃ y, part x .fields = [y] ∧ FieldDecl "memory" bytesType y
  properties : ∃ size index param, part x .properties = [size, index]
    ∧ GetCode "Size" .long [.ret (some (.long (a.count * a.stride)))] size
    ∧ t.Declares param "index" .long
    ∧ GetCode "this[long index]" (.named a.elementName) (indexBody a memory param) index
  methods : ∃ construct read write reset bytes, part x .methods = [construct, read, write, reset]
    ∧ MethodCode a.typeName ctorSig (constructBody { memory } (a.count * a.stride + 3)) construct
    ∧ ReadAtCode t memory read ∧ WriteAtCode t memory write
    ∧ a.resetBytes = .ok bytes ∧ MethodCode "Reset" plainSig (clearBody { memory } bytes) reset
  classes : ∃ e, part x .classes = [e] ∧ ElementCode t a e

theorem ContainerCode.keep (h : ContainerCode t a memory x) (hy : Yields t t' old cs) :
    ContainerCode t' a memory x := by
  obtain ⟨size, index, param, hprops, hsize, hparam, hindex⟩ := h.properties
  obtain ⟨construct, read, write, reset, bytes, hall, hc, hread, hwrite, hrest⟩ := h.methods
  obtain ⟨e, he, helement⟩ := h.classes
  exact ⟨h.kind_eq, h.name_eq, h.declares.keep hy, h.fields,
    ⟨size, index, param, hprops, hsize, hparam.keep hy, hindex⟩,
    ⟨construct, read, write, reset, bytes, hall, hc, hread.keep hy, hwrite.keep hy, hrest⟩,
    e, he, helement.keep hy⟩

/-- The class of a register array is planted. -/
theorem containerClass_run (hm : t.Mutual) (ha : a.Sized) :
    ∃ (t' : Tree) (x : Planted) (memory : NodeId),
      containerClass a t = (.ok x.tag, t') ∧ Yields t t' [] [[x]]
      ∧ ContainerCode t' a memory x.shape := by
  obtain ⟨t₁, e, helement, hy₁, he⟩ := elementClass_run hm ha.proper
  obtain ⟨t₂, mem, hmem, hy₂, hd₂, hdecl⟩ := memoryDecl_run hy₁.stock.linked
  obtain ⟨t₃, index, hindex, hy₃, param, hparam, hindexCode⟩ :=
    indexer_run (a := a) hy₂.stock.linked hd₂.known
  have hd₃ := hd₂.keep hy₃
  obtain ⟨t₄, read, hread, hy₄, hreadCode⟩ := readAtOffset_run hy₃.stock.linked hd₃.known
  have hd₄ := hd₃.keep hy₄
  obtain ⟨t₅, write, hwrite, hy₅, hwriteCode⟩ := writeAtOffset_run hy₄.stock.linked hd₄.known
  have hd₅ := hd₄.keep hy₅
  obtain ⟨bytes, hbytes⟩ := ha.resets
  have hknown : Buffer.Known t₅.Known { memory := mem.tag } := ⟨hd₅.known, fun _ hs => nomatch hs⟩
  -- the class of the elements was built first and goes last
  have hy : Yields t t₅ [] ([[mem]] ++ [[index]] ++ [[read]] ++ [[write]] ++ [[e]]) := by
    have hbuilt := (((hy₁.and hy₂).and hy₃).and hy₄).and hy₅
    have hlast : ([[e]] ++ ([[mem]] ++ [[index]] ++ [[read]] ++ [[write]])).Perm
        ([[mem]] ++ [[index]] ++ [[read]] ++ [[write]] ++ [[e]]) := List.perm_append_comm
    exact hbuilt.perm hlast
  have hsize : ∀ stock, ∀ s ∈ [Sketch.ret (some (.long (a.count * a.stride)))],
      Idle t₅.typeAt stock t₅.Known s := fun stock s hs =>
    List.mem_singleton.1 hs ▸ (plain_long _).ret
  have hconstruct : ∀ stock, ∀ s ∈ constructBody { memory := mem.tag } (a.count * a.stride + 3),
      Idle t₅.typeAt stock t₅.Known s := fun _ => constructBody_idle hknown _
  have hreset : ∀ stock, ∀ s ∈ clearBody { memory := mem.tag } bytes,
      Idle t₅.typeAt stock t₅.Known s := fun _ => clearBody_idle hknown bytes
  have huses : Sketch.usesList (constructBody { memory := mem.tag } (a.count * a.stride + 3)) = []
      ∧ Sketch.usesList (clearBody { memory := mem.tag } bytes) = [] :=
    ⟨Sketch.usesList_idle (hconstruct fun _ => []), Sketch.usesList_idle (hreset fun _ => [])⟩
  have hall : (Sketch.documented (.classDecl a.typeName { access := some .prot } [.node mem.tag]
      [sizeProperty (a.count * a.stride), .node index.tag]
      [constructor a.typeName [] (constructBody { memory := mem.tag } (a.count * a.stride + 3)),
        .node read.tag, .node write.tag, resetElements { memory := mem.tag } bytes]
      [.node e.tag]) a.doc).uses
      = [mem.tag, index.tag, read.tag, write.tag, e.tag] := by
    show ([mem.tag] ++ [index.tag]
      ++ ((([] : List NodeId)
        ++ Sketch.usesList (constructBody { memory := mem.tag } (a.count * a.stride + 3)))
        ++ ([read.tag] ++ ([write.tag] ++ ((([] : List NodeId)
          ++ Sketch.usesList (clearBody { memory := mem.tag } bytes)) ++ [])))))
      ++ [e.tag] = _
    rw [huses.1, huses.2]
    rfl
  obtain ⟨stock, t₆, x, hstock, hrun, hy₆, hx⟩ := Sketch.plant_node _ hy.stock
    (congrArg (List.map some) hall.symm)
    (fun stock _ => ⟨⟨trivial, trivial⟩,
      ⟨⟨Sketch.fitsList_idle (hsize stock), trivial⟩, trivial, trivial⟩,
      ⟨⟨trivial, Sketch.fitsList_idle (hconstruct stock)⟩, trivial, trivial,
        ⟨trivial, Sketch.fitsList_idle (hreset stock)⟩, trivial⟩, trivial, trivial⟩) fun _ => rfl
  have hshape := (List.cons.inj hx).1
  rw [hall] at hstock
  obtain ⟨hmem', hrest⟩ := List.cons.inj hstock
  obtain ⟨hindex', hrest⟩ := List.cons.inj hrest
  obtain ⟨hread', hrest⟩ := List.cons.inj hrest
  obtain ⟨hwrite', hrest⟩ := List.cons.inj hrest
  have he' := (List.cons.inj hrest).1
  refine ⟨t₆, x, mem.tag, ?_, hy.trans hy₆, ?_⟩
  · unfold containerClass
    rw [Edit.bind_run helement, Edit.bind_run hmem, Edit.bind_run (Edit.check_run ha.size_eq),
      Edit.bind_run hindex, Edit.bind_run (Edit.check_run ha.bufferSize_eq), Edit.bind_run hread,
      Edit.bind_run hwrite, Edit.bind_run (Edit.check_run hbytes)]
    exact hrun
  rw [← hshape]
  refine ⟨rfl, rfl, hd₅.keep hy₆, ⟨mem.shape, ?_, hdecl⟩,
    ⟨_, index.shape, param, ?_, getShape_code t₅.typeAt stock ..,
      ((hparam.keep hy₄).keep hy₅).keep hy₆, hindexCode⟩,
    ⟨_, read.shape, write.shape, _, bytes, ?_, methodShape_code t₅.typeAt stock ..,
      (hreadCode.keep hy₅).keep hy₆, hwriteCode.keep hy₆, hbytes,
      methodShape_code t₅.typeAt stock ..⟩,
    e.shape, ?_, ((((he.keep hy₂).keep hy₃).keep hy₄).keep hy₅).keep hy₆⟩
  · show stock mem.tag ++ [] = _
    rw [hmem']
    rfl
  · show [_] ++ (stock index.tag ++ []) = _
    rw [hindex']
    rfl
  · show [_] ++ (stock read.tag ++ (stock write.tag ++ ([_] ++ []))) = _
    rw [hread', hwrite']
    rfl
  · show stock e.tag ++ [] = _
    rw [he']
    rfl

end RegisterMap.Peripheral
