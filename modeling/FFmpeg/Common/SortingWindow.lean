import Mathlib.Data.List.Sort
import Mathlib.Tactic

/-!
# A window that sorts

A sorted window takes in one value after the other, and for each it gives out the smallest that it
then holds.  The window never grows, so what it gives out is sorted exactly when no value comes
behind more larger ones than the window holds.
-/

namespace FFmpeg.Common.SortingWindow

variable {α : Type*} [LinearOrder α] {w l p : List α} {x m : α}

/-- What a window gives out for these values. -/
def emitted : List α → List α → List α
  | _, [] => []
  | w, x :: l =>
    (w.orderedInsert (· ≤ ·) x).headD x :: emitted (w.orderedInsert (· ≤ ·) x).tail l

/-- The window behind these values. -/
def window : List α → List α → List α
  | w, [] => w
  | w, x :: l => window (w.orderedInsert (· ≤ ·) x).tail l

/-- Each value comes behind at most as many larger ones, the window's included, as it holds. -/
def ReorderedBy (w l : List α) : Prop :=
  ∀ l₁ x l₂, l = l₁ ++ x :: l₂ → (w ++ l₁).countP (x < ·) ≤ w.length

@[simp] theorem length_emitted (w l : List α) : (emitted w l).length = l.length := by
  induction l generalizing w with
  | nil => rfl
  | cons x l ih => simp [emitted, ih]

/-- A step: what is given out, and the window behind it. -/
theorem exists_step (hw : w.Pairwise (· ≤ ·)) (x : α) :
    ∃ e w', w.orderedInsert (· ≤ ·) x = e :: w' ∧ (e :: w').Perm (x :: w) ∧
      (∀ y ∈ w', e ≤ y) ∧ w'.Pairwise (· ≤ ·) ∧ w'.length = w.length ∧ e ≤ x := by
  have hperm := List.perm_orderedInsert (· ≤ ·) x w
  have hsorted := hw.orderedInsert x w
  cases hv : w.orderedInsert (· ≤ ·) x with
  | nil => simp [hv] at hperm
  | cons e w' =>
    rw [hv] at hperm hsorted
    have hlength := hperm.length_eq
    obtain ⟨hle, hrest⟩ := List.pairwise_cons.1 hsorted
    refine ⟨e, w', rfl, hperm, hle, hrest, by simpa using hlength, ?_⟩
    rcases List.mem_cons.1 (hperm.mem_iff.2 List.mem_cons_self) with heq | hmem
    · exact heq.ge
    · exact hle x hmem

theorem emitted_le (hw : w.Pairwise (· ≤ ·)) (l : List α) :
    List.Forall₂ (· ≤ ·) (emitted w l) l := by
  induction l generalizing w with
  | nil => exact .nil
  | cons x l ih =>
    obtain ⟨e, w', hv, -, -, hrest, -, hle⟩ := exists_step hw x
    rw [emitted, hv]
    exact .cons hle (ih hrest)

theorem emitted_perm (hw : w.Pairwise (· ≤ ·)) (l : List α) :
    (emitted w l ++ window w l).Perm (w ++ l) := by
  induction l generalizing w with
  | nil => simp [emitted, window]
  | cons x l ih =>
    obtain ⟨e, w', hv, hperm, -, hrest, -, -⟩ := exists_step hw x
    rw [emitted, window, hv]
    calc (e :: emitted w' l ++ window w' l).Perm (e :: (w' ++ l)) := (ih hrest).cons e
      _ |>.Perm (x :: w ++ l) := hperm.append_right l
      _ |>.Perm (w ++ x :: l) := List.perm_middle.symm

/-- Behind `p`, which was given out up to `m`. -/
theorem emitted_sorted_iff_from (hw : w.Pairwise (· ≤ ·)) (hm : ∀ y ∈ w, m ≤ y) (hp : m ∈ p)
    (hle : ∀ y ∈ p, y ≤ m) :
    (m :: emitted w l).Pairwise (· ≤ ·) ↔
      ∀ l₁ x l₂, l = l₁ ++ x :: l₂ → (p ++ w ++ l₁).countP (x < ·) ≤ w.length := by
  induction l generalizing w m p with
  | nil => simp [emitted]
  | cons x l ih =>
    obtain ⟨e, w', hv, hperm, hrest, hw', hlength, hex⟩ := exists_step hw x
    rw [emitted, hv, List.headD_cons, List.tail_cons]
    have hone : (p ++ w).countP (x < ·) ≤ w.length ↔ m ≤ x := by
      rw [List.countP_append]
      constructor
      · intro hcount
        by_contra hlt
        rw [not_le] at hlt
        -- the whole window is larger than `x`, and so is `m`
        have hwindow : w.countP (x < ·) = w.length := by
          rw [List.countP_eq_length]
          exact fun y hy => decide_eq_true (hlt.trans_le (hm y hy))
        have hlast : 0 < p.countP (x < ·) :=
          List.countP_pos_iff.2 ⟨m, hp, decide_eq_true hlt⟩
        omega
      · intro hmx
        have hnone : p.countP (x < ·) = 0 := by
          rw [List.countP_eq_zero]
          exact fun y hy => by simpa using (hle y hy).trans hmx
        have hwindow := List.countP_le_length (p := fun y => decide (x < y)) (l := w)
        omega
    by_cases hmx : m ≤ x
    · have hme : m ≤ e := by
        rcases List.mem_cons.1 (hperm.mem_iff.1 List.mem_cons_self) with rfl | hmem
        · exact hmx
        · exact hm e hmem
      have hnext := ih (m := e) (p := p ++ [e]) hw' hrest (by simp) (by
        intro y hy
        rcases List.mem_append.1 hy with hy | hy
        · exact (hle y hy).trans hme
        · exact (List.mem_singleton.1 hy).le)
      have hcount : ∀ (y : α) (l₁ : List α), (p ++ [e] ++ w' ++ l₁).countP (y < ·) =
          (p ++ w ++ x :: l₁).countP (y < ·) := by
        intro y l₁
        refine List.Perm.countP_eq _ ?_
        rw [List.append_assoc, List.append_assoc, List.append_assoc, List.singleton_append]
        refine List.Perm.append_left p ?_
        exact (hperm.append_right l₁).trans List.perm_middle.symm
      have hchain : (m :: e :: emitted w' l).Pairwise (· ≤ ·) ↔
          (e :: emitted w' l).Pairwise (· ≤ ·) := by
        rw [← List.isChain_iff_pairwise, ← List.isChain_iff_pairwise, List.isChain_cons_cons]
        exact and_iff_right hme
      rw [hchain, hnext, hlength]
      constructor
      · intro h l₁ y l₂ hl
        cases l₁ with
        | nil =>
          obtain ⟨rfl, rfl⟩ := List.cons.inj hl
          simpa using hone.2 hmx
        | cons z l₁ =>
          obtain ⟨rfl, rfl⟩ := List.cons.inj hl
          rw [← hcount]
          exact h l₁ y l₂ rfl
      · intro h l₁ y l₂ hl
        rw [hcount]
        exact h (x :: l₁) y l₂ (by rw [hl, List.cons_append])
    · -- `x` comes too late
      refine iff_of_false (fun hsorted => hmx ?_) (fun h => hmx (hone.1 ?_))
      · exact ((List.pairwise_cons.1 hsorted).1 e List.mem_cons_self).trans hex
      · simpa using h [] x l rfl

/-- What a window gives out is sorted exactly when no value comes behind too many larger ones. -/
theorem emitted_sorted_iff (hw : w.Pairwise (· ≤ ·)) :
    (emitted w l).Pairwise (· ≤ ·) ↔ ReorderedBy w l := by
  cases l with
  | nil => simp [emitted, ReorderedBy]
  | cons x l =>
    obtain ⟨e, w', hv, hperm, hrest, hw', hlength, -⟩ := exists_step hw x
    rw [emitted, hv, List.headD_cons, List.tail_cons,
      emitted_sorted_iff_from (p := [e]) hw' hrest (List.mem_singleton_self e) (by simp), hlength]
    have hcount : ∀ (y : α) (l₁ : List α), ([e] ++ w' ++ l₁).countP (y < ·) =
        (w ++ x :: l₁).countP (y < ·) := fun y l₁ =>
      ((hperm.append_right l₁).trans List.perm_middle.symm).countP_eq _
    constructor
    · intro h l₁ y l₂ hl
      cases l₁ with
      | nil => simpa using List.countP_le_length
      | cons z l₁ =>
        obtain ⟨rfl, rfl⟩ := List.cons.inj hl
        rw [← hcount]
        exact h l₁ y l₂ rfl
    · intro h l₁ y l₂ hl
      rw [hcount]
      exact h (x :: l₁) y l₂ (by rw [hl, List.cons_append])

theorem append_window_sorted_from (hw : w.Pairwise (· ≤ ·)) (hm : ∀ y ∈ w, m ≤ y)
    (h : (m :: emitted w l).Pairwise (· ≤ ·)) :
    (m :: (emitted w l ++ window w l)).Pairwise (· ≤ ·) := by
  induction l generalizing w m with
  | nil => exact List.pairwise_cons.2 ⟨hm, hw⟩
  | cons x l ih =>
    obtain ⟨e, w', hv, -, hrest, hw', -, -⟩ := exists_step hw x
    rw [emitted, hv, List.headD_cons, List.tail_cons] at h
    rw [emitted, window, hv, List.headD_cons, List.tail_cons]
    obtain ⟨hle, hnext⟩ := List.pairwise_cons.1 h
    rw [List.cons_append, ← List.isChain_iff_pairwise, List.isChain_cons_cons,
      List.isChain_iff_pairwise]
    exact ⟨hle e List.mem_cons_self, ih hw' hrest hnext⟩

/-- Values that do not come too late are given out in order, the smallest ones first. -/
theorem emitted_eq_take (hw : w.Pairwise (· ≤ ·)) (h : ReorderedBy w l) :
    emitted w l = ((w ++ l).insertionSort (· ≤ ·)).take l.length := by
  have hsorted := (emitted_sorted_iff hw).2 h
  have hall : (emitted w l ++ window w l).Pairwise (· ≤ ·) := by
    cases l with
    | nil => exact hw
    | cons x l =>
      obtain ⟨e, w', hv, -, hrest, hw', -, -⟩ := exists_step hw x
      rw [emitted, hv] at hsorted
      rw [emitted, window, hv]
      exact append_window_sorted_from hw' hrest hsorted
  have hperm : (emitted w l ++ window w l).Perm ((w ++ l).insertionSort (· ≤ ·)) :=
    (emitted_perm hw l).trans (List.perm_insertionSort _ _).symm
  rw [← hperm.eq_of_pairwise' hall (List.pairwise_insertionSort _ _), List.take_left']
  exact length_emitted w l

end FFmpeg.Common.SortingWindow
