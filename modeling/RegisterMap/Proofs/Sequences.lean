/-
Runs of actions that change a state and may fail. A step that succeeds is
written `act s = (.ok a, s')`. What a sequence does is what its first step
does and, where that succeeds, what the second one does after it; the
equations here say so whatever the state is, a tree, a draft, a journal or
a scan, so that no later argument opens the monad. `Stops` is the other
outcome: the action fails, for a reason of a given kind.
-/
import RegisterMap.Failure

namespace RegisterMap

/-- A computation that succeeds has succeeded at its first step. -/
theorem bind_eq_ok_iff {ε α β : Type} {x : Except ε α} {f : α → Except ε β} {b : β} :
    (x >>= f) = .ok b ↔ ∃ a, x = .ok a ∧ f a = .ok b := by
  cases x with
  | error e => exact ⟨nofun, fun ⟨a, ha, _⟩ => nomatch ha⟩
  | ok a => exact ⟨fun h => ⟨a, rfl, h⟩, fun ⟨_, ha, h⟩ => Except.ok.inj ha ▸ h⟩

section Sequences

variable {σ α β : Type} {act : ExceptT Failure (StateM σ) α}
  {f : α → ExceptT Failure (StateM σ) β} {s s' : σ}

/-- A sequence whose first step succeeds goes on from its result. -/
theorem run_bind {a : α} (h : act s = (.ok a, s')) : (act >>= f) s = f a s' := by
  show (match act s with | (r, s) => ExceptT.bindCont f r s) = f a s'
  rw [h]
  rfl

/-- A sequence whose first step fails ends there. -/
theorem run_bind_error {e : Failure} (h : act s = (.error e, s')) :
    (act >>= f) s = (.error e, s') := by
  show (match act s with | (r, s) => ExceptT.bindCont f r s) = _
  rw [h]
  rfl

/-- A sequence that succeeds has succeeded at its first step. -/
theorem exists_of_run_bind {b : β} (h : (act >>= f) s = (.ok b, s')) :
    ∃ a s₁, act s = (.ok a, s₁) ∧ f a s₁ = (.ok b, s') := by
  cases hrun : act s with
  | mk r s₁ =>
    cases r with
    | error e =>
      rw [run_bind_error hrun] at h
      cases h
    | ok a => exact ⟨a, s₁, rfl, (run_bind hrun).symm.trans h⟩

/-- Every member of a list that is gone through has succeeded. -/
theorem exists_of_run_mapM {g : α → ExceptT Failure (StateM σ) β} {l : List α} {bs : List β}
    (h : l.mapM g s = (.ok bs, s')) :
    ∀ a ∈ l, ∃ s₁ b s₂, g a s₁ = (.ok b, s₂) := by
  induction l generalizing s s' bs with
  | nil => intro a ha; cases ha
  | cons a l ih =>
    rw [List.mapM_cons] at h
    obtain ⟨b, s₁, ha, hrest⟩ := exists_of_run_bind h
    obtain ⟨cs, s₂, hl, -⟩ := exists_of_run_bind hrest
    intro c hc
    rcases List.mem_cons.1 hc with rfl | hc
    · exact ⟨s, b, s₁, ha⟩
    · exact ih hl c hc

end Sequences

-- ============================================================== stopping

/-- The action stops, for a reason of the given kind. -/
def Stops {σ α : Type} (act : ExceptT Failure (StateM σ) α) (s : σ) (reason : Failure → Prop) :
    Prop :=
  ∃ e, (act s).1 = .error e ∧ reason e

section Stops

variable {σ α β : Type} {s s' : σ} {reason reason' : Failure → Prop}

theorem Stops.imp {act : ExceptT Failure (StateM σ) α} (h : Stops act s reason)
    (himp : ∀ e, reason e → reason' e) : Stops act s reason' := by
  obtain ⟨e, he, hreason⟩ := h
  exact ⟨e, he, himp e hreason⟩

/-- What would have come next is not done. -/
theorem Stops.bind {act : ExceptT Failure (StateM σ) α} (h : Stops act s reason)
    (f : α → ExceptT Failure (StateM σ) β) : Stops (act >>= f) s reason := by
  obtain ⟨e, he, hreason⟩ := h
  have hrun : act s = (.error e, (act s).2) := Prod.ext he rfl
  exact ⟨e, congrArg Prod.fst (run_bind_error hrun), hreason⟩

/-- An action stops where what comes next does. -/
theorem stops_after {act : ExceptT Failure (StateM σ) α} {a : α}
    {f : α → ExceptT Failure (StateM σ) β} (hrun : act s = (.ok a, s'))
    (h : Stops (f a) s' reason) : Stops (act >>= f) s reason := by
  obtain ⟨e, he, hreason⟩ := h
  exact ⟨e, (congrArg Prod.fst (run_bind hrun)).trans he, hreason⟩

/-- A list is gone through up to the first member without the property; `K`
is what the actions before it keep. -/
theorem mapM_stops {f : α → ExceptT Failure (StateM σ) β} {P : α → Prop} {K : σ → Prop}
    {l : List α} (hruns : ∀ a ∈ l, P a → ∀ s, K s → ∃ b s', f a s = (.ok b, s') ∧ K s')
    (hstops : ∀ a ∈ l, ¬P a → ∀ s, K s → Stops (f a) s reason)
    (h : ∃ a ∈ l, ¬P a) (hs : K s) : Stops (l.mapM f) s reason := by
  induction l generalizing s with
  | nil => exact absurd h (by simp)
  | cons a l ih =>
    rw [List.mapM_cons]
    by_cases ha : P a
    · obtain ⟨b, s', hrun, hs'⟩ := hruns a (List.mem_cons_self ..) ha s hs
      obtain ⟨c, hc, hbad⟩ := h
      have hmem : c ∈ l := (List.mem_cons.1 hc).resolve_left fun he => hbad (he ▸ ha)
      exact stops_after hrun ((ih (fun b hb => hruns b (List.mem_cons_of_mem _ hb))
        (fun b hb => hstops b (List.mem_cons_of_mem _ hb)) ⟨c, hmem, hbad⟩ hs').bind _)
    · exact (hstops a (List.mem_cons_self ..) ha s hs).bind _

end Stops

end RegisterMap
