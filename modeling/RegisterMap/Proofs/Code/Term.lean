/-
Code as a plain term. A term is what stands below one node of a code
tree: its kind, its remarks and, slot by slot, the chains of terms under
it. Every node of a term carries a tag: the node number where the term
describes a part of an arena (`Planted`), nothing where only the code
itself matters (`Shape`).

The file fixes the two views every later argument uses: the tags of a
term in order of appearance, and its shape, which forgets them. Terms
nest through two layers of lists, so each function is a triple (term,
chain, slots); the equations at the end of each group restate it by the
library's list operations, and nothing after this file unfolds a triple.
-/
import RegisterMap.Code.Tree

namespace RegisterMap.Code

/-- A node with everything below it, slot by slot. -/
inductive Term (α : Type) where
  | node (tag : α) (kind : Kind) (notes : Notes) (slots : List (List (Term α)))

/-- A term whose nodes are numbered as they stand in an arena. -/
abbrev Planted := Term NodeId

/-- A term without node numbers. -/
abbrev Shape := Term Unit

namespace Term

variable {α β γ : Type}

def tag : Term α → α
  | .node tag _ _ _ => tag

def kind : Term α → Kind
  | .node _ kind _ _ => kind

def notes : Term α → Notes
  | .node _ _ notes _ => notes

def slots : Term α → List (List (Term α))
  | .node _ _ _ slots => slots

/-- The term with other remarks on its top node. -/
def remark (f : Notes → Notes) : Term α → Term α
  | .node tag kind notes slots => .node tag kind (f notes) slots

@[simp] theorem tag_node (a : α) (k : Kind) (n : Notes) (s : List (List (Term α))) :
    (node a k n s).tag = a := rfl

@[simp] theorem kind_node (a : α) (k : Kind) (n : Notes) (s : List (List (Term α))) :
    (node a k n s).kind = k := rfl

@[simp] theorem notes_node (a : α) (k : Kind) (n : Notes) (s : List (List (Term α))) :
    (node a k n s).notes = n := rfl

@[simp] theorem slots_node (a : α) (k : Kind) (n : Notes) (s : List (List (Term α))) :
    (node a k n s).slots = s := rfl

@[simp] theorem remark_node (f : Notes → Notes) (a : α) (k : Kind) (n : Notes)
    (s : List (List (Term α))) : (node a k n s).remark f = node a k (f n) s := rfl

/-- Induction with the hypothesis for every term in every chain. -/
theorem ind {P : Term α → Prop}
    (node : ∀ tag kind notes slots, (∀ chain ∈ slots, ∀ x ∈ chain, P x) →
      P (.node tag kind notes slots)) : ∀ x, P x := by
  intro x
  refine Term.rec (motive_1 := P)
    (motive_2 := fun slots => ∀ chain ∈ slots, ∀ x ∈ chain, P x)
    (motive_3 := fun chain => ∀ x ∈ chain, P x) ?_ ?_ ?_ ?_ ?_ x
  · intro tag kind notes slots ih
    exact node tag kind notes slots ih
  · simp
  · intro chain rest hchain hrest c hc
    rcases List.mem_cons.1 hc with rfl | h
    · exact hchain
    · exact hrest c h
  · simp
  · intro y rest hy hrest z hz
    rcases List.mem_cons.1 hz with rfl | h
    · exact hy
    · exact hrest z h

-- ================================================================ tags

mutual

/-- The tags of a term, its own first, then slot by slot. -/
def tags : Term α → List α
  | .node tag _ _ slots => tag :: tagsSlots slots

def tagsSlots : List (List (Term α)) → List α
  | [] => []
  | chain :: rest => tagsChain chain ++ tagsSlots rest

def tagsChain : List (Term α) → List α
  | [] => []
  | x :: rest => x.tags ++ tagsChain rest

end

private theorem tagsChain_eq (chain : List (Term α)) :
    tagsChain chain = chain.flatMap tags := by
  induction chain with
  | nil => rfl
  | cons x rest ih => rw [tagsChain, ih, List.flatMap_cons]

@[simp] theorem tags_node (a : α) (k : Kind) (n : Notes) (s : List (List (Term α))) :
    (node a k n s).tags = a :: s.flatten.flatMap tags := by
  have h : tagsSlots s = s.flatten.flatMap tags := by
    induction s with
    | nil => rfl
    | cons chain rest ih =>
      rw [tagsSlots, ih, tagsChain_eq, List.flatten_cons, List.flatMap_append]
  rw [tags, h]

theorem tags_eq (x : Term α) : x.tags = x.tag :: x.slots.flatten.flatMap tags := by
  cases x
  exact tags_node ..

theorem tags_sublist {x : Term α} {xs : List (Term α)} (h : x ∈ xs) :
    x.tags.Sublist (xs.flatMap tags) := by
  rw [List.flatMap_def]
  exact List.sublist_flatten_of_mem (List.mem_map_of_mem h)

theorem tag_mem_tags (x : Term α) : x.tag ∈ x.tags := by
  cases x
  simp

@[simp] theorem tag_remark (f : Notes → Notes) (x : Term α) : (x.remark f).tag = x.tag := by
  cases x
  rfl

@[simp] theorem tags_remark (f : Notes → Notes) (x : Term α) :
    (x.remark f).tags = x.tags := by
  cases x
  simp

-- ======================================================= change of tags

mutual

/-- Every tag is replaced. -/
def map (f : α → β) : Term α → Term β
  | .node tag kind notes slots => .node (f tag) kind notes (mapSlots f slots)

def mapSlots (f : α → β) : List (List (Term α)) → List (List (Term β))
  | [] => []
  | chain :: rest => mapChain f chain :: mapSlots f rest

def mapChain (f : α → β) : List (Term α) → List (Term β)
  | [] => []
  | x :: rest => x.map f :: mapChain f rest

end

private theorem mapChain_eq (f : α → β) (chain : List (Term α)) :
    mapChain f chain = chain.map (map f) := by
  induction chain with
  | nil => rfl
  | cons x rest ih => rw [mapChain, ih, List.map_cons]

@[simp] theorem map_node (f : α → β) (a : α) (k : Kind) (n : Notes)
    (s : List (List (Term α))) :
    (node a k n s).map f = node (f a) k n (s.map fun chain => chain.map (map f)) := by
  have h : mapSlots f s = s.map fun chain => chain.map (map f) := by
    induction s with
    | nil => rfl
    | cons chain rest ih => rw [mapSlots, ih, mapChain_eq, List.map_cons]
  rw [map, h]

@[simp] theorem kind_map (f : α → β) (x : Term α) : (x.map f).kind = x.kind := by
  cases x
  simp

@[simp] theorem notes_map (f : α → β) (x : Term α) : (x.map f).notes = x.notes := by
  cases x
  simp

/-- The term without its tags. -/
def shape (x : Term α) : Shape := x.map fun _ => ()

@[simp] theorem shape_node (a : α) (k : Kind) (n : Notes) (s : List (List (Term α))) :
    (node a k n s).shape = node () k n (s.map fun chain => chain.map shape) := by
  unfold shape
  rw [map_node]

@[simp] theorem kind_shape (x : Term α) : x.shape.kind = x.kind := kind_map _ x

@[simp] theorem notes_shape (x : Term α) : x.shape.notes = x.notes := notes_map _ x

@[simp] theorem shape_remark (f : Notes → Notes) (x : Term α) :
    (x.remark f).shape = x.shape.remark f := by
  cases x
  simp

-- ================================================================ folds

mutual

/-- A value for every node from the values of what lies in its slots. -/
def fold (f : α → Kind → Notes → List (List β) → β) : Term α → β
  | .node tag kind notes slots => f tag kind notes (foldSlots f slots)

def foldSlots (f : α → Kind → Notes → List (List β) → β) : List (List (Term α)) → List (List β)
  | [] => []
  | chain :: rest => foldChain f chain :: foldSlots f rest

def foldChain (f : α → Kind → Notes → List (List β) → β) : List (Term α) → List β
  | [] => []
  | x :: rest => x.fold f :: foldChain f rest

end

private theorem foldChain_eq (f : α → Kind → Notes → List (List β) → β)
    (chain : List (Term α)) : foldChain f chain = chain.map (fold f) := by
  induction chain with
  | nil => rfl
  | cons x rest ih => rw [foldChain, ih, List.map_cons]

@[simp] theorem fold_node (f : α → Kind → Notes → List (List β) → β) (a : α) (k : Kind)
    (n : Notes) (s : List (List (Term α))) :
    (node a k n s).fold f = f a k n (s.map fun chain => chain.map (fold f)) := by
  have h : foldSlots f s = s.map fun chain => chain.map (fold f) := by
    induction s with
    | nil => rfl
    | cons chain rest ih => rw [foldSlots, ih, foldChain_eq, List.map_cons]
  rw [fold, h]

-- =========================================================== all nodes

mutual

/-- Every node has the property. -/
def all (p : Term α → Bool) : Term α → Bool
  | .node tag kind notes slots => p (.node tag kind notes slots) && allSlots p slots

def allSlots (p : Term α → Bool) : List (List (Term α)) → Bool
  | [] => true
  | chain :: rest => allChain p chain && allSlots p rest

def allChain (p : Term α → Bool) : List (Term α) → Bool
  | [] => true
  | x :: rest => x.all p && allChain p rest

end

private theorem allChain_eq (p : Term α → Bool) (chain : List (Term α)) :
    allChain p chain = chain.all (all p) := by
  induction chain with
  | nil => rfl
  | cons x rest ih => rw [allChain, ih, List.all_cons]

theorem all_node (p : Term α → Bool) (a : α) (k : Kind) (n : Notes) (s : List (List (Term α))) :
    (node a k n s).all p = (p (node a k n s) && s.all fun chain => chain.all (all p)) := by
  have h : allSlots p s = s.all fun chain => chain.all (all p) := by
    induction s with
    | nil => rfl
    | cons chain rest ih => rw [allSlots, ih, allChain_eq, List.all_cons]
  rw [all, h]

-- ========================================================= whole terms

/-- Every node has one chain, possibly empty, for each slot of its kind. -/
inductive Full : Term α → Prop
  | node {tag kind notes slots} :
    slots.length = kind.slots.length → (∀ chain ∈ slots, ∀ x ∈ chain, Full x) →
      Full (.node tag kind notes slots)

end Term

end RegisterMap.Code
