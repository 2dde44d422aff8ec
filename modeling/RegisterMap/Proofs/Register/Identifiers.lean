/-
Identifiers read back. The words of a name have no break left in them, so
an underscore in the identifier of a name in groups either joins the names
of two levels or stands in front of a name that would begin with a digit.
The pieces between underscores tell which (`segments_pascalPath`): a name
does not begin with a digit, so a piece that does belongs to the empty piece
in front of it. Two members have one type name if and only if they are as
deep and their names make the same identifiers level by level
(`typeName_eq_iff`).
-/
import RegisterMap.Proofs.Register.Mounts

namespace RegisterMap

-- ================================================================ words

namespace Text

variable {b : Char} {cs : List Char} {ws : List (List Char)}

theorem isAlpha_iff (c : Char) : c.isAlpha = true
    ↔ (65 ≤ c.toNat ∧ c.toNat ≤ 90) ∨ (97 ≤ c.toNat ∧ c.toNat ≤ 122) := by
  have hupper : c.isUpper = true ↔ 65 ≤ c.toNat ∧ c.toNat ≤ 90 := decide_eq_true_iff
  have hlower : c.isLower = true ↔ 97 ≤ c.toNat ∧ c.toNat ≤ 122 :=
    Bool.and_eq_true_iff.trans (and_congr decide_eq_true_iff decide_eq_true_iff)
  exact Bool.or_eq_true_iff.trans (or_congr hupper hlower)

theorem not_isAlpha_of_isBreak (h : isBreak b = true) : b.isAlpha = false := by
  rw [Bool.eq_false_iff]
  intro halpha
  have hletter := (isAlpha_iff b).1 halpha
  simp only [isBreak, isPunctuation, isAsciiBlank, Bool.or_eq_true, Bool.and_eq_true,
    decide_eq_true_eq, beq_iff_eq] at h
  rcases h with hpunctuation | hblank
  · omega
  · rcases hblank with (((rfl | rfl) | rfl) | rfl) | rfl <;> revert hletter <;> decide

theorem toUpper_cases (c : Char) : c.toUpper = c ∨ c.toUpper.isAlpha = true := by
  by_cases hlower : 'a'.val ≤ c.val ∧ c.val ≤ 'z'.val
  · have hrange : 97 ≤ c.toNat ∧ c.toNat ≤ 122 := hlower
    have hval : c.toUpper.val = c.val + ('A'.val - 'a'.val) := by
      rw [show c.toUpper = _ from dif_pos hlower]
    have hnat : c.toUpper.toNat = (c.toNat + ('A'.val - 'a'.val).toNat) % 2 ^ 32 :=
      (congrArg UInt32.toNat hval).trans (UInt32.toNat_add ..)
    have hshift : ('A'.val - 'a'.val).toNat = 2 ^ 32 - 32 := by decide
    exact Or.inr ((isAlpha_iff _).2 (Or.inl (by omega)))
  · exact Or.inl (dif_neg hlower)

theorem toLower_cases (c : Char) : c.toLower = c ∨ c.toLower.isAlpha = true := by
  by_cases hupper : 'A'.val ≤ c.val ∧ c.val ≤ 'Z'.val
  · have hrange : 65 ≤ c.toNat ∧ c.toNat ≤ 90 := hupper
    have hval : c.toLower.val = c.val + ('a'.val - 'A'.val) := by
      rw [show c.toLower = _ from dif_pos hupper]
    have hnat : c.toLower.toNat = (c.toNat + ('a'.val - 'A'.val).toNat) % 2 ^ 32 :=
      (congrArg UInt32.toNat hval).trans (UInt32.toNat_add ..)
    have hshift : ('a'.val - 'A'.val).toNat = 32 := by decide
    exact Or.inr ((isAlpha_iff _).2 (Or.inr (by omega)))
  · exact Or.inl (dif_neg hupper)

/-- A character of a word is that of the name, or a letter. -/
theorem recased (start : Bool) (c : Char) :
    (if start then c.toUpper else c.toLower) = c
      ∨ (if start then c.toUpper else c.toLower).isAlpha = true := by
  cases start with
  | true => exact toUpper_cases c
  | false => exact toLower_cases c

/-- The words of a name have no break left in them. -/
theorem break_not_mem_joinWords (hb : isBreak b = true) (start : Bool) (name : List Char) :
    b ∉ joinWords start name := by
  induction name generalizing start with
  | nil => exact List.not_mem_nil
  | cons c rest ih =>
    unfold joinWords
    by_cases hbreak : isBreak c = true
    · rw [if_pos hbreak]
      exact ih true
    · rw [if_neg hbreak]
      intro hmem
      rcases List.mem_cons.1 hmem with he | hmem
      · rcases recased start c with hsame | hletter
        · exact hbreak (hsame ▸ he ▸ hb)
        · rw [← he, not_isAlpha_of_isBreak hb] at hletter
          cases hletter
      · exact ih false hmem

-- ============================================================= segments

/-- What the identifier of one name looks like. -/
inductive Segment : List Char → Prop
  | plain {cs : List Char} (hcs : '_' ∉ cs) (hdigit : startsWithDigit cs = false) : Segment cs
  | marked {cs : List Char} (hcs : '_' ∉ cs) (hdigit : startsWithDigit cs = true) :
    Segment ('_' :: cs)

theorem segment_pascalCase (name : String) : Segment (pascalCase name).toList := by
  have hletters := break_not_mem_joinWords (b := '_') (by decide) true name.toList
  rw [toList_pascalCase]
  split
  · next hdigit => exact .marked hletters hdigit
  · next hdigit => exact .plain hletters (Bool.eq_false_iff.2 hdigit)

/-- The pieces between underscores put together to segments: an empty piece
in front of one that begins with a digit is no segment of its own. -/
def joinMarked : List (List Char) → List (List Char)
  | [] => []
  | [] :: piece :: pieces =>
    if startsWithDigit piece then ('_' :: piece) :: joinMarked pieces
    else [] :: joinMarked (piece :: pieces)
  | piece :: pieces => piece :: joinMarked pieces

/-- The segments that an identifier is joined from. -/
def segments (identifier : String) : List (List Char) :=
  joinMarked (identifier.toList.splitOn '_')

theorem joinMarked_plain {pieces : List (List Char)}
    (h : ∀ piece ∈ pieces.head?, startsWithDigit piece = false) :
    joinMarked (cs :: pieces) = cs :: joinMarked pieces := by
  cases cs with
  | cons c cs => rfl
  | nil =>
    cases pieces with
    | nil => rfl
    | cons piece pieces => exact if_neg (Bool.not_eq_true _ ▸ h piece rfl)

theorem joinMarked_marked {pieces : List (List Char)} (h : startsWithDigit cs = true) :
    joinMarked ([] :: cs :: pieces) = ('_' :: cs) :: joinMarked pieces :=
  if_pos h

theorem splitOn_marked (hcs : '_' ∉ cs) : ('_' :: cs).splitOn '_' = [[], cs] := by
  rw [← List.nil_append ('_' :: cs), List.splitOn_append_cons_self, List.splitOn_nil,
    List.splitOn_eq_singleton hcs]
  rfl

/-- No segment begins with a digit, nor does its first piece. -/
theorem Segment.head_splitOn {w : List Char} (h : Segment w) :
    ∀ piece ∈ (w.splitOn '_').head?, startsWithDigit piece = false := by
  cases h with
  | plain hcs hdigit =>
    rw [List.splitOn_eq_singleton hcs]
    rintro _ ⟨⟩
    exact hdigit
  | marked hcs _ =>
    rw [splitOn_marked hcs]
    rintro _ ⟨⟩
    rfl

/-- Segments are found again among their pieces. -/
theorem joinMarked_flatMap (h : ∀ w ∈ ws, Segment w) :
    joinMarked (ws.flatMap (·.splitOn '_')) = ws := by
  induction ws with
  | nil => rfl
  | cons w ws ih =>
    obtain ⟨hw, hws⟩ := List.forall_mem_cons.1 h
    rw [List.flatMap_cons]
    cases hw with
    | plain hcs _ =>
      rw [List.splitOn_eq_singleton hcs, List.singleton_append, joinMarked_plain, ih hws]
      cases ws with
      | nil => exact nofun
      | cons next ws =>
        rw [List.flatMap_cons, List.head?_append_of_ne_nil _ (List.splitOn_ne_nil _ _)]
        exact (hws next List.mem_cons_self).head_splitOn
    | marked hcs hdigit =>
      rw [splitOn_marked hcs]
      exact (joinMarked_marked hdigit).trans (congrArg _ (ih hws))

theorem splitOn_intercalate_eq_flatMap (hne : ws ≠ []) :
    (['_'].intercalate ws).splitOn '_' = ws.flatMap (·.splitOn '_') := by
  induction ws with
  | nil => exact absurd rfl hne
  | cons w ws ih =>
    cases ws with
    | nil => simp
    | cons next ws =>
      rw [List.intercalate_cons_cons, List.append_assoc, List.singleton_append,
        List.splitOn_append_cons_self, ih (List.cons_ne_nil _ _)]
      rfl

/-- The identifiers of the names are read back from the joined one. -/
theorem segments_pascalPath (groups : List String) (name : String) :
    segments (pascalPath groups name)
      = ((groups ++ [name]).map pascalCase).map String.toList := by
  unfold segments pascalPath
  rw [String.toList_intercalate]
  refine (congrArg _ (splitOn_intercalate_eq_flatMap (by simp))).trans (joinMarked_flatMap ?_)
  rw [List.map_map]
  intro w hw
  obtain ⟨n, -, rfl⟩ := List.mem_map.1 hw
  exact segment_pascalCase n

-- Levels without a name, and one whose digit is marked.
example : segments (pascalPath ["", "2nd bank"] "") = [[], "_2ndBank".toList, []] := by decide

/-- A joined identifier has the identifiers of its names in it. -/
theorem pascalPath_eq_iff_map {groups groups' : List String} {name name' : String} :
    pascalPath groups name = pascalPath groups' name'
      ↔ (groups ++ [name]).map pascalCase = (groups' ++ [name']).map pascalCase := by
  refine ⟨fun h => ?_, fun h => congrArg _ h⟩
  have hsegments := congrArg segments h
  rw [segments_pascalPath, segments_pascalPath] at hsegments
  exact List.map_injective_iff.2 (fun _ _ => String.toList_inj.1) hsegments

end Text

-- ========================================================== type names

namespace Mount

/-- The names of the levels down to the mount. -/
def names : Mount → List String
  | .array a => a.groups ++ [a.name]
  | .register r => r.groups ++ [r.name]

theorem memberName_eq_iff_map {m m' : Mount} : m.memberName = m'.memberName
    ↔ m.names.map Text.pascalCase = m'.names.map Text.pascalCase := by
  cases m <;> cases m' <;> exact Text.pascalPath_eq_iff_map

/-- Names in groups make one identifier, and mounts have one type name, if
and only if there are as many levels of names and the names of each level
make the same identifier. -/
theorem typeName_eq_iff :
    (∀ (groups groups' : List String) (name name' : String),
      Text.pascalPath groups name = Text.pascalPath groups' name'
        ↔ List.Forall₂ (fun n n' => Text.pascalCase n = Text.pascalCase n')
          (groups ++ [name]) (groups' ++ [name']))
      ∧ ∀ m m' : Mount, m.typeName = m'.typeName
        ↔ List.Forall₂ (fun n n' => Text.pascalCase n = Text.pascalCase n') m.names m'.names := by
  have hlevels : ∀ names names' : List String,
      names.map Text.pascalCase = names'.map Text.pascalCase
        ↔ List.Forall₂ (fun n n' => Text.pascalCase n = Text.pascalCase n') names names' := by
    intro names names'
    rw [← List.forall₂_eq_eq_eq, List.forall₂_map_left_iff, List.forall₂_map_right_iff]
  refine ⟨fun groups groups' name name' => ?_, fun m m' => ?_⟩
  · exact Text.pascalPath_eq_iff_map.trans (hlevels _ _)
  · rw [typeName_eq, typeName_eq, String.append_left_inj, memberName_eq_iff_map]
    exact hlevels _ _

end Mount

end RegisterMap
