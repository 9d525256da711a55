import Mathlib.Tactic

/-!
# Machines that emit

A machine has at most one next step, and a step may emit a value.  What it emits from a state
on is fixed: of two runs one is a part of the other, and all runs to an end are equal.
-/

namespace FFmpeg.Common

variable {σ ε : Type*} (step : σ → Option (Option ε × σ))

/-- The machine comes from one state to another and emits `es` on the way. -/
inductive Emits : σ → List ε → σ → Prop
  | refl (s : σ) : Emits s [] s
  | head {s t u : σ} {e : Option ε} {es : List ε} (hstep : step s = some (e, t))
      (hrest : Emits t es u) : Emits s (e.toList ++ es) u

variable {step} {s t u : σ} {es es' : List ε}

theorem Emits.single {e : Option ε} (hstep : step s = some (e, t)) : Emits step s e.toList t := by
  simpa using Emits.head hstep (Emits.refl t)

theorem Emits.trans (h : Emits step s es t) (h' : Emits step t es' u) :
    Emits step s (es ++ es') u := by
  induction h with
  | refl => exact h'
  | head hstep _ ih =>
    rw [List.append_assoc]
    exact Emits.head hstep (ih h')

theorem Emits.of_none (h : Emits step s es t) (hs : step s = none) : es = [] ∧ t = s := by
  cases h with
  | refl => exact ⟨rfl, rfl⟩
  | head hstep _ => simp [hs] at hstep

theorem Emits.extend (h : Emits step s es t) (h' : Emits step s es' u) (hu : step u = none) :
    ∃ more, Emits step t more u ∧ es' = es ++ more := by
  induction h generalizing es' with
  | refl => exact ⟨es', h', rfl⟩
  | head hstep _ ih =>
    cases h' with
    | refl => simp [hu] at hstep
    | head hstep' hrest' =>
      -- there is only one first step
      rw [hstep] at hstep'
      cases hstep'
      obtain ⟨more, hmore, hes⟩ := ih hrest'
      exact ⟨more, hmore, by rw [hes, List.append_assoc]⟩

theorem Emits.prefix_of_none (h : Emits step s es t) (h' : Emits step s es' u)
    (hu : step u = none) : es <+: es' := by
  obtain ⟨more, -, hes⟩ := h.extend h' hu
  exact ⟨more, hes.symm⟩

theorem Emits.eq_of_none (h : Emits step s es t) (h' : Emits step s es' u)
    (ht : step t = none) (hu : step u = none) : es = es' := by
  obtain ⟨more, hmore, hes⟩ := h.extend h' hu
  rw [hes, (hmore.of_none ht).1, List.append_nil]

theorem Emits.invariant {I : σ → Prop} (hstep : ∀ s e t, I s → step s = some (e, t) → I t)
    (h : Emits step s es t) (hs : I s) : I t := by
  induction h with
  | refl => exact hs
  | head hs' _ ih => exact ih (hstep _ _ _ hs hs')

variable {budget : σ → Nat}

theorem exists_emits_none (hbudget : ∀ s e t, step s = some (e, t) → budget t < budget s)
    (s : σ) : ∃ es t, Emits step s es t ∧ step t = none := by
  induction hn : budget s using Nat.strong_induction_on generalizing s with
  | _ n ih =>
    subst hn
    rcases hs : step s with _ | ⟨e, t⟩
    · exact ⟨[], s, Emits.refl s, hs⟩
    · obtain ⟨es, u, hrun, hu⟩ := ih (budget t) (hbudget s e t hs) t rfl
      exact ⟨e.toList ++ es, u, Emits.head hs hrun, hu⟩

theorem Emits.length_add_le (hbudget : ∀ s e t, step s = some (e, t) → budget t < budget s)
    (h : Emits step s es t) : es.length + budget t ≤ budget s := by
  induction h with
  | refl => simp
  | @head s t u e es hstep _ ih =>
    have hfirst := hbudget s e t hstep
    have hone : e.toList.length ≤ 1 := by cases e <;> simp
    rw [List.length_append]
    omega

end FFmpeg.Common
