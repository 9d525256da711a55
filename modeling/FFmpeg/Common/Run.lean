import Mathlib.Tactic

/-!
# Runs of a state machine

A run feeds a list of inputs to a step function.  `EachStep` says that a
relation between state and input holds whenever a step of the run is taken, so
that an invariant may rest on a condition on the inputs.
-/

namespace FFmpeg.Common

variable {σ α : Type*} (step : σ → α → σ)

/-- The state after the inputs `l`. -/
def run (s : σ) (l : List α) : σ :=
  l.foldl step s

/-- `P` holds of the state and the input at every step of a run. -/
def EachStep (P : σ → α → Prop) : σ → List α → Prop
  | _, [] => True
  | s, a :: l => P s a ∧ EachStep P (step s a) l

@[simp] theorem run_nil (s : σ) : run step s [] = s := rfl

@[simp] theorem run_cons (s : σ) (a : α) (l : List α) :
    run step s (a :: l) = run step (step s a) l := rfl

@[simp] theorem eachStep_nil (P : σ → α → Prop) (s : σ) : EachStep step P s [] := trivial

@[simp] theorem eachStep_cons (P : σ → α → Prop) (s : σ) (a : α) (l : List α) :
    EachStep step P s (a :: l) ↔ P s a ∧ EachStep step P (step s a) l := Iff.rfl

variable {step}

variable {l : List α}

theorem EachStep.map₂ {P Q R : σ → α → Prop} (himp : ∀ s a, P s a → Q s a → R s a) {s : σ}
    (hp : EachStep step P s l) (hq : EachStep step Q s l) :
    EachStep step R s l := by
  induction l generalizing s with
  | nil => trivial
  | cons a l ih => exact ⟨himp s a hp.1 hq.1, ih hp.2 hq.2⟩

/-- An invariant that every step with `P` keeps holds after the run, and before
each of its steps. -/
theorem EachStep.invariant {I : σ → Prop} {P : σ → α → Prop}
    (hstep : ∀ s a, I s → P s a → I (step s a)) {s : σ} (hs : I s) (hl : EachStep step P s l) :
    I (run step s l) ∧ EachStep step (fun t _ => I t) s l := by
  induction l generalizing s with
  | nil => exact ⟨hs, trivial⟩
  | cons a l ih =>
    obtain ⟨hrun, hbefore⟩ := ih (hstep s a hs hl.1) hl.2
    exact ⟨hrun, hs, hbefore⟩

end FFmpeg.Common
