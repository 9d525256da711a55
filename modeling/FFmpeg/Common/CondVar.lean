import Mathlib.Tactic

/-!
# Threads that wait on condition variables

A thread that runs critical sections is outside of them, asleep on a condition
variable, or woken and about to go on where it waited.  `κ` is what a thread is
doing while it waits, and `cond` says on which condition variable.  A signal
wakes at least one sleeper if there is one; a broadcast wakes all of them.  For
arguments against lost wake-ups the woken threads are counted.
-/

namespace FFmpeg.Common.CondVar

/-- Where a thread is. -/
inductive Status (κ : Type*)
  | outside
  | waiting (call : κ)
  | woken (call : κ)
  deriving DecidableEq, Repr

variable {Tid κ γ : Type*}

/-- Waking a sleeping thread. -/
def Status.wake : Status κ → Status κ
  | .waiting call => .woken call
  | s => s

variable [DecidableEq γ] (cond : κ → γ)

/-- Is the thread asleep on `c`? -/
def Status.asleepOn (c : γ) : Status κ → Bool
  | .waiting call => cond call = c
  | _ => false

/-- Was the thread woken from `c` and did not run since? -/
def Status.wokenOn (c : γ) : Status κ → Bool
  | .woken call => cond call = c
  | _ => false

/-- Some thread is asleep on `c`. -/
def Asleep (c : γ) (f : Tid → Status κ) : Prop :=
  ∃ t, (f t).asleepOn cond c = true

/-- The number of wake-ups from `c` that are pending. -/
def pending [Fintype Tid] (c : γ) (f : Tid → Status κ) : Nat :=
  (Finset.univ.filter fun t => (f t).wokenOn cond c = true).card

/-- `pthread_cond_signal`: some sleepers on `c` are woken, at least one if there is any. -/
def Signal (c : γ) (f g : Tid → Status κ) : Prop :=
  (∀ t, g t = f t ∨ (f t).asleepOn cond c = true ∧ g t = (f t).wake) ∧
    (Asleep cond c f → ∃ t, (f t).asleepOn cond c = true ∧ g t = (f t).wake)

/-- `pthread_cond_broadcast`: all sleepers on `c` are woken. -/
def broadcast (c : γ) (f : Tid → Status κ) : Tid → Status κ := fun t =>
  if (f t).asleepOn cond c = true then (f t).wake else f t

variable {cond} {c d : γ} {f g : Tid → Status κ}

variable {s : Status κ}

theorem Status.wokenOn_wake (h : s.asleepOn cond c = true) : s.wake.wokenOn cond c = true := by
  cases s with
  | waiting call => exact h
  | outside => exact h
  | woken call => cases h

theorem Status.asleepOn_wake (s : Status κ) : s.wake.asleepOn cond c = false := by
  cases s <;> rfl

theorem Status.not_wokenOn_of_asleepOn (h : s.asleepOn cond c = true) :
    s.wokenOn cond d = false := by
  cases s with
  | waiting call => rfl
  | outside => rfl
  | woken call => cases h

theorem pending_le_of_wake [Fintype Tid]
    (h : ∀ t, g t = f t ∨ (f t).asleepOn cond c = true ∧ g t = (f t).wake) :
    pending cond d f ≤ pending cond d g := by
  apply Finset.card_le_card
  intro t ht
  rw [Finset.mem_filter] at ht ⊢
  refine ⟨Finset.mem_univ t, ?_⟩
  rcases h t with hsame | ⟨hasleep, -⟩
  · rw [hsame]
    exact ht.2
  · rw [Status.not_wokenOn_of_asleepOn hasleep] at ht
    exact absurd ht.2 (by decide)

theorem asleep_of_wake (h : ∀ t, g t = f t ∨ (f t).asleepOn cond c = true ∧ g t = (f t).wake)
    (hg : Asleep cond d g) : Asleep cond d f := by
  obtain ⟨t, ht⟩ := hg
  rcases h t with hsame | ⟨-, hwake⟩
  · exact ⟨t, hsame ▸ ht⟩
  · rw [hwake, Status.asleepOn_wake] at ht
    cases ht

theorem Signal.pending_lt [Fintype Tid] (h : Signal cond c f g) (hsleep : Asleep cond c f) :
    pending cond c f < pending cond c g := by
  obtain ⟨t, hasleep, hwake⟩ := h.2 hsleep
  apply Finset.card_lt_card
  rw [Finset.ssubset_iff_of_subset]
  · refine ⟨t, ?_, ?_⟩
    · rw [Finset.mem_filter, hwake]
      exact ⟨Finset.mem_univ t, Status.wokenOn_wake hasleep⟩
    · rw [Finset.mem_filter, Status.not_wokenOn_of_asleepOn hasleep]
      exact fun hmem => absurd hmem.2 (by decide)
  · intro u hu
    rw [Finset.mem_filter] at hu ⊢
    refine ⟨Finset.mem_univ u, ?_⟩
    rcases h.1 u with hsame | ⟨hu', -⟩
    · rw [hsame]
      exact hu.2
    · rw [Status.not_wokenOn_of_asleepOn hu'] at hu
      exact absurd hu.2 (by decide)

theorem broadcast_wakes (c : γ) (f : Tid → Status κ) (t : Tid) :
    broadcast cond c f t = f t ∨
      (f t).asleepOn cond c = true ∧ broadcast cond c f t = (f t).wake := by
  unfold broadcast
  by_cases h : (f t).asleepOn cond c = true
  · exact Or.inr ⟨h, if_pos h⟩
  · exact Or.inl (if_neg h)

theorem not_asleep_broadcast (c : γ) (f : Tid → Status κ) :
    ¬ Asleep cond c (broadcast cond c f) := by
  rintro ⟨t, ht⟩
  unfold broadcast at ht
  by_cases h : (f t).asleepOn cond c = true
  · rw [if_pos h, Status.asleepOn_wake] at ht
    cases ht
  · rw [if_neg h] at ht
    exact h ht

section Run

variable [DecidableEq Tid]

theorem pending_le_update [Fintype Tid] (cond : κ → γ) (c : γ) (f : Tid → Status κ) (t : Tid)
    (s : Status κ) :
    pending cond c f ≤ pending cond c (Function.update f t s) +
      if (f t).wokenOn cond c = true then 1 else 0 := by
  have hsub : (Finset.univ.filter fun u => (f u).wokenOn cond c = true) ⊆
      insert t (Finset.univ.filter fun u => (Function.update f t s u).wokenOn cond c = true) := by
    intro u hu
    rw [Finset.mem_insert, Finset.mem_filter]
    by_cases hut : u = t
    · exact Or.inl hut
    · rw [Function.update_of_ne hut]
      exact Or.inr (Finset.mem_filter.mp hu)
  by_cases hwoken : (f t).wokenOn cond c = true
  · rw [if_pos hwoken]
    exact (Finset.card_le_card hsub).trans (Finset.card_insert_le _ _)
  · rw [if_neg hwoken, Nat.add_zero]
    apply Finset.card_le_card
    intro u hu
    have hne : u ≠ t := by
      rintro rfl
      exact hwoken (Finset.mem_filter.mp hu).2
    exact Finset.mem_of_mem_insert_of_ne (hsub hu) hne

theorem asleep_of_update {t : Tid} {s : Status κ}
    (h : Asleep cond c (Function.update f t s)) :
    s.asleepOn cond c = true ∨ Asleep cond c f := by
  obtain ⟨u, hu⟩ := h
  by_cases hut : u = t
  · subst hut
    rw [Function.update_self] at hu
    exact Or.inl hu
  · rw [Function.update_of_ne hut] at hu
    exact Or.inr ⟨u, hu⟩

end Run

end FFmpeg.Common.CondVar
