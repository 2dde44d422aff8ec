/-
Requests to the container of a register array. It answers with its size
and with the double word at any offset, and it stores one there byte by
byte, low byte first; the three bytes behind the array keep the double
words in its last bytes in bounds.
-/
import RegisterMap.Proofs.Peripheral.ContainerCode
import RegisterMap.Proofs.Peripheral.RegisterAccess

namespace RegisterMap.Exec.Bytes

variable {b : Bytes}

theorem bit_fill (f : Nat → Byte) {start count : Nat} (h : start + count ≤ b.size) (k : Nat) :
    (b.fill start f count).bit k
      = if 8 * start ≤ k ∧ k < 8 * (start + count) then (f (k / 8 - start)).getLsbD (k % 8)
        else b.bit k := by
  unfold bit
  rw [get_fill _ _ _ h]
  by_cases hk : start ≤ k / 8 ∧ k / 8 < start + count
  · rw [if_pos hk, if_pos (by omega)]
  · rw [if_neg hk, if_neg (by omega)]

/-- Four bytes from an index on take those of a double word, low byte
first. -/
def setWord (b : Bytes) (i v : Nat) : Bytes := b.fill i (fun k => BitVec.ofNat 8 (v >>> (k * 8))) 4

@[simp] theorem size_setWord (b : Bytes) (i v : Nat) : (b.setWord i v).size = b.size := size_fill ..

theorem bit_setWord {i : Nat} (h : i + 4 ≤ b.size) (v k : Nat) :
    (b.setWord i v).bit k
      = if 8 * i ≤ k ∧ k < 8 * i + 32 then v.testBit (k - 8 * i) else b.bit k := by
  unfold setWord
  rw [bit_fill _ h]
  by_cases hk : 8 * i ≤ k ∧ k < 8 * i + 32
  · rw [if_pos hk, if_pos (by omega), BitVec.getLsbD_ofNat, decide_eq_true (Nat.mod_lt k (by decide)),
      Bool.true_and, Nat.testBit_shiftRight]
    congr 1
    omega
  · rw [if_neg hk, if_neg (by omega)]

end RegisterMap.Exec.Bytes

namespace RegisterMap.Peripheral

open Code Exec

variable {p : Program} {service : Service} {ctx : Context} {s : Store} {object r : Ref}
  {path : List String} {heap : Heap} {bytes : Bytes} {t : Tree} {a : RegisterArray}
  {memory value : NodeId} {x : Shape} {allPublic : Bool} {b : Buffer} {span v : Nat}
  {types : NodeId → TypeRef}

-- =============================================================== bodies

/-- A double word is stored byte by byte. -/
theorem storeBody_runs (stock : NodeId → List Shape) (h : Window ctx s b r bytes span)
    (hin : ∀ i < 4, span + i < bytes.size ∧ ctx.fence r (span + i) = true)
    (htype : types value = .uint) (hsees : Sees ctx s value (.int .uint v)) (hv : v < 2 ^ 32) :
    Runs ctx (Sketch.codeList types stock (storeBody b value)).flatten s { s with
      heap := s.heap.set r (.bytes (bytes.setWord span v)) } := by
  have hcode : (Sketch.codeList types stock (storeBody b value)).flatten
      = (List.range 4).flatMap fun i => (b.storeLow i (incoming value i)).code types stock := by
    rw [Sketch.codeList_eq]
    unfold storeBody
    rw [List.map_map, List.flatMap_def]
    rfl
  obtain ⟨stored, hstored⟩ : ∃ stored : Nat → Bytes,
      stored = bytes.fill span fun k => BitVec.ofNat 8 (v >>> (k * 8)) := ⟨_, rfl⟩
  have hstart : s = { s with heap := s.heap.set r (.bytes (stored 0)) } := by
    have hzero : stored 0 = bytes := by
      rw [hstored]
      rfl
    rw [hzero, set_same h.array]
  have hloop := runs_range (fun i => (b.storeLow i (incoming value i)).code types stock)
    (fun i => { s with heap := s.heap.set r (.bytes (stored i)) }) 4 fun i hi => by
      have hsize : span + i < (stored i).size := by
        rw [hstored, Bytes.size_fill]
        exact (hin i hi).1
      have hgives := shifted_gives stock htype
        (hsees.heap (fields_set_bytes h.array (stored i) ctx.self)) hv hi
      have hstep := (h.set (stored i)).storeLow_runs types stock hsize (hin i hi).2 hgives.1
      dsimp only at hstep
      rw [List.set_set] at hstep
      have hnext : stored (i + 1) = (stored i).set (span + i) (BitVec.ofNat 8 (v >>> (i * 8))) := by
        rw [hstored]
        rfl
      rw [hnext]
      exact hstep
  rw [hcode]
  have hlast : stored 4 = bytes.setWord span v := by
    rw [hstored]
    rfl
  rwa [← hstart, hlast] at hloop

/-- Code at an offset of the buffer finds the array. -/
theorem Keeps.windowAt (h : Keeps heap object path r bytes) (hself : ctx.self = object)
    (hname : ctx.names memory = "memory") {locals : Variables} {start : NodeId}
    (hlocals : locals.get? "memory" = none)
    (hstart : Sees ctx { heap, locals } start (.int .long span)) :
    Window ctx { heap, locals } { memory, start := some start } r bytes span where
  memory := (h.window hself hname hlocals).memory
  start := fun _ hd => Option.some.inj hd ▸ hstart
  origin := nofun
  array := h.array

-- ============================================================= requests

/-- A local variable is seen by its declaration. -/
theorem sees_param {names : NodeId → String} {decl : NodeId} {locals : Variables} {y : Variable}
    (hctx : ctx.names = names) (hname : names decl = y.name)
    (hy : locals.get? y.name = some y) : Sees ctx { heap, locals } decl y.value :=
  sees_local (by rw [hctx, hname]; exact hy)

namespace ContainerCode

variable (h : ContainerCode t a memory x)

include h

theorem answers : Answers x := by
  obtain ⟨construct, read, write, reset, bytes, hall, hconstruct, ⟨_, _, _, hread⟩,
    ⟨_, _, _, _, _, _, hwrite⟩, -, hreset⟩ := h.methods
  have hc : Constructing construct [read, write, reset] := by
    refine ⟨⟨_, hconstruct.kind_eq, rfl⟩, ?_⟩
    simp only [List.forall_mem_cons]
    exact ⟨⟨_, hread.kind_eq, rfl⟩, ⟨_, hwrite.kind_eq, rfl⟩, ⟨_, hreset.kind_eq, rfl⟩, nofun⟩
  refine hc.answers ⟨_, h.kind_eq⟩ hall ?_
  rw [List.map_cons, List.map_cons, List.map_singleton, hread.name_eq, hwrite.name_eq,
    hreset.name_eq]
  decide

/-- The properties are told apart by their names. -/
theorem find_properties :
    ∃ size index param, (∀ y ∈ part x .properties, y.kind.isOperator = false)
      ∧ find "Size" (part x .properties) = some size
      ∧ GetCode "Size" .long [.ret (some (.long (a.count * a.stride)))] size
      ∧ find indexerName (part x .properties) = some index ∧ t.Declares param "index" .long
      ∧ GetCode "this[long index]" (.named a.elementName) (indexBody a memory param) index := by
  obtain ⟨size, index, param, hprops, hsize, hparam, hindex⟩ := h.properties
  refine ⟨size, index, param, fun y hy => ?_, ?_, hsize, ?_, hparam, hindex⟩
  · rw [hprops] at hy
    simp only [List.mem_cons, List.not_mem_nil, or_false] at hy
    rcases hy with rfl | rfl
    · rw [hsize.kind_eq]; rfl
    · rw [hindex.kind_eq]; rfl
  · rw [hprops]
    exact List.find?_cons_of_pos (by simpa using hsize.name_eq)
  · rw [hprops]
    unfold find
    rw [List.find?_cons_of_neg (by rw [hsize.name_eq]; decide)]
    exact List.find?_cons_of_pos (by rw [hindex.name_eq]; decide)

variable (hpath : p.resolve path = some (x.finished allPublic))

include hpath

/-- The object answers with the size of the array. -/
theorem size_serves (hsize : a.count * a.stride < 2 ^ 63) {fields : Variables}
    (hobj : heap[object]? = some (.object path fields)) :
    p.serve service object (.get "Size") heap
      = .ok (.int .long (a.count * a.stride : Nat), heap) := by
  obtain ⟨size, -, -, hops, hfind, hcode, -⟩ := h.find_properties
  obtain ⟨types, stock, hbody⟩ := hcode.body
  rw [h.answers.serve_get hobj hpath hops hfind, runGet_finished hcode.kind_eq rfl]
  have hlit : Gives { p.context service object path with returns := some .long } { heap }
      ((Sketch.long (a.count * a.stride)).code types stock) _ _ := gives_literal false hsize
  have hreturns : Returns _ _ _ (.int .long (a.count * a.stride : Nat)) _ :=
    returns_value rfl hlit rfl
  rw [hbody]
  exact runBody_returns hreturns

variable (hnames : ∀ d, d < t.size → p.names d = t.name d) (hk : Keeps heap object path r bytes)
  {offset : Nat} (hin : offset + 3 < bytes.size)

include hnames hk hin

/-- The object answers with the double word at an offset. -/
theorem read_at (constant : Bool) :
    p.serve service object (.method "ReadDoubleWord" [⟨.int .long offset, constant⟩]) heap
      = .ok (.int .uint (bytes.word offset), heap) := by
  obtain ⟨construct, read, write, reset, -, hall, -, ⟨types, start, hd, hcode⟩, -⟩ := h.methods
  obtain ⟨fields, hobj⟩ := hk.isObject
  obtain ⟨stock, hbody⟩ := hcode.body_eq
  have hmem : read ∈ part x .methods := by
    rw [hall]
    simp
  have hbind : bindParams (part read .params) [⟨.int .long offset, constant⟩]
      = .ok [⟨"offset", .long, .int .long offset⟩] := by
    rw [hcode.params_eq]
    rfl
  have hps : ∀ q ∈ part read .params, q.kind.isOperator = false := by
    rw [hcode.params_eq]
    exact fun q hq => List.mem_singleton.1 hq ▸ rfl
  rw [h.answers.serve_body hobj hpath hmem hcode.kind_eq hcode.name_eq ⟨rfl, rfl⟩ hps hbind]
  have hstart : p.names start = "offset" := (hnames start hd.lt_size).trans hd.name_eq
  have hwindow : Window { p.context service object path with returns := some .uint }
      { heap, locals := [⟨"offset", .long, .int .long offset⟩] } { memory, start := some start } r
      bytes offset :=
    hk.windowAt rfl ((hnames memory h.declares.lt_size).trans h.declares.name_eq) rfl
      (sees_param (y := ⟨"offset", .long, .int .long offset⟩) rfl hstart rfl)
  have hword := hwindow.word_gives types stock fun i hi => ⟨by omega, rfl⟩
  have hreturns : Returns _ _ _ (.int .uint (bytes.word offset)) _ := returns_value rfl hword.1 rfl
  rw [hbody]
  exact runBody_returns hreturns

/-- The object stores a double word at an offset. -/
theorem write_at (hv : v < 2 ^ 32) (constant constant' : Bool) :
    p.serve service object (.method "WriteDoubleWord"
        [⟨.int .long offset, constant⟩, ⟨.int .uint v, constant'⟩]) heap
      = .ok (.nothing, heap.set r (.bytes (bytes.setWord offset v))) := by
  obtain ⟨construct, read, write, reset, -, hall, -, -,
    ⟨types, start, value, hd, hdv, htype, hcode⟩, -⟩ := h.methods
  obtain ⟨fields, hobj⟩ := hk.isObject
  obtain ⟨stock, hbody⟩ := hcode.body_eq
  have hmem : write ∈ part x .methods := by
    rw [hall]
    simp
  have hbind : bindParams (part write .params) [⟨.int .long offset, constant⟩, ⟨.int .uint v, constant'⟩]
      = .ok [⟨"offset", .long, .int .long offset⟩, ⟨"value", .uint, .int .uint v⟩] := by
    rw [hcode.params_eq]
    rfl
  have hps : ∀ q ∈ part write .params, q.kind.isOperator = false := by
    rw [hcode.params_eq]
    intro q hq
    simp only [List.mem_cons, List.not_mem_nil, or_false] at hq
    rcases hq with rfl | rfl <;> rfl
  rw [h.answers.serve_body hobj hpath hmem hcode.kind_eq hcode.name_eq ⟨rfl, rfl⟩ hps hbind]
  have hstart : p.names start = "offset" := (hnames start hd.lt_size).trans hd.name_eq
  have hvalue : p.names value = "value" := (hnames value hdv.lt_size).trans hdv.name_eq
  have hwindow : Window { p.context service object path with returns := none }
      { heap, locals := [⟨"offset", .long, .int .long offset⟩, ⟨"value", .uint, .int .uint v⟩] }
      { memory, start := some start } r bytes offset :=
    hk.windowAt rfl ((hnames memory h.declares.lt_size).trans h.declares.name_eq) rfl
      (sees_param (y := ⟨"offset", .long, .int .long offset⟩) rfl hstart rfl)
  have hsees : Sees { p.context service object path with returns := none }
      { heap, locals := [⟨"offset", .long, .int .long offset⟩, ⟨"value", .uint, .int .uint v⟩] }
      value (.int .uint v) := sees_param (y := ⟨"value", .uint, .int .uint v⟩) rfl hvalue rfl
  have hruns := storeBody_runs stock hwindow (fun i hi => ⟨by omega, rfl⟩) htype hsees hv
  rw [hbody]
  exact runBody_runs hruns rfl

end ContainerCode

end RegisterMap.Peripheral
