import Mathlib.Tactic

/-!
# Numbered memory cells

Objects of one type live in numbered cells.  A cell is used once: allocation always takes
a new one, and a cell that has been given back stays empty.  `count` counts the live
objects with a property, and each operation changes it by what goes and what comes.
-/

namespace FFmpeg.Common

/-- The cells allocated so far, `none` where they have been freed. -/
structure Cells (α : Type*) where
  cells : List (Option α)
  deriving DecidableEq, Repr

variable {α : Type*}

namespace Cells

/-- No cell has been allocated. -/
def empty : Cells α := ⟨[]⟩

/-- The object in a cell. -/
def load (m : Cells α) (p : Nat) : Option α :=
  m.cells[p]?.join

/-- Where the next object goes. -/
def next (m : Cells α) : Nat :=
  m.cells.length

/-- Put an object into a new cell, which is the one `next` names. -/
def alloc (m : Cells α) (a : α) : Cells α :=
  ⟨m.cells ++ [some a]⟩

/-- Overwrite the object in a cell. -/
def store (m : Cells α) (p : Nat) (a : α) : Cells α :=
  ⟨m.cells.set p (some a)⟩

/-- Give a cell back. -/
def free (m : Cells α) (p : Nat) : Cells α :=
  ⟨m.cells.set p none⟩

/-- How many live objects have a property. -/
def count (m : Cells α) (P : α → Bool) : Nat :=
  m.cells.countP fun cell => cell.any P

/-! ## What is in the cells -/

@[simp] theorem load_empty (p : Nat) : (empty : Cells α).load p = none := rfl

variable {m : Cells α} {p : Nat} {a : α}

theorem lt_of_load (hp : m.load p = some a) : p < m.next := by
  by_contra hlt
  rw [load, List.getElem?_eq_none (Nat.le_of_not_lt hlt)] at hp
  cases hp

theorem load_next (m : Cells α) : m.load m.next = none := by
  simp [load, next]

theorem ne_next_of_load (hp : m.load p = some a) : p ≠ m.next :=
  Nat.ne_of_lt (lt_of_load hp)

theorem getElem?_of_load (hp : m.load p = some a) : m.cells[p]? = some (some a) := by
  rw [load] at hp
  exact Option.join_eq_some_iff.mp hp

@[simp] theorem load_alloc_self (m : Cells α) (a : α) : (m.alloc a).load m.next = some a := by
  simp [alloc, load, next]

theorem load_alloc_of_ne (m : Cells α) (a : α) (hp : p ≠ m.next) :
    (m.alloc a).load p = m.load p := by
  rcases Nat.lt_or_gt_of_ne hp with hlt | hgt
  · rw [load, alloc, List.getElem?_append_left hlt, load]
  · rw [next] at hgt
    rw [load, load, alloc, List.getElem?_eq_none, List.getElem?_eq_none]
    · exact Nat.le_of_lt hgt
    · rw [List.length_append]
      exact hgt

theorem load_alloc {b : α} (hp : m.load p = some b) (a : α) : (m.alloc a).load p = some b := by
  rw [load_alloc_of_ne m a (ne_next_of_load hp), hp]

theorem load_store_self {b : α} (hp : m.load p = some b) (a : α) :
    (m.store p a).load p = some a := by
  have hlt : p < m.cells.length := lt_of_load hp
  rw [load, store, List.getElem?_set_self hlt]
  rfl

theorem load_store_of_ne (m : Cells α) (a : α) {q : Nat} (hne : q ≠ p) :
    (m.store p a).load q = m.load q := by
  rw [load, store, List.getElem?_set_ne (Ne.symm hne), load]

theorem store_store (m : Cells α) (p : Nat) (a b : α) : (m.store p a).store p b = m.store p b := by
  rw [store, store, store, List.set_set]

theorem store_comm (m : Cells α) {q : Nat} (hne : p ≠ q) (a b : α) :
    (m.store p a).store q b = (m.store q b).store p a := by
  rw [store, store, store, store, List.set_comm _ _ hne]

@[simp] theorem load_free_self (m : Cells α) (p : Nat) : (m.free p).load p = none := by
  by_cases hlt : p < m.cells.length
  · rw [load, free, List.getElem?_set_self hlt]
    rfl
  · rw [load, free, List.getElem?_eq_none]
    · rfl
    · rw [List.length_set]
      exact Nat.le_of_not_lt hlt

theorem load_free_of_ne (m : Cells α) {q : Nat} (hne : q ≠ p) : (m.free p).load q = m.load q := by
  rw [load, free, List.getElem?_set_ne (Ne.symm hne), load]

theorem ne_of_load_free {q : Nat} (hq : (m.free p).load q = some a) : q ≠ p := by
  rintro rfl
  rw [load_free_self] at hq
  cases hq

theorem load_of_load_free {q : Nat} (hq : (m.free p).load q = some a) : m.load q = some a := by
  rw [← load_free_of_ne m (ne_of_load_free hq)]
  exact hq

@[simp] theorem next_alloc (m : Cells α) (a : α) : (m.alloc a).next = m.next + 1 := by
  simp [alloc, next]

@[simp] theorem next_store (m : Cells α) (p : Nat) (a : α) : (m.store p a).next = m.next :=
  List.length_set

@[simp] theorem next_free (m : Cells α) (p : Nat) : (m.free p).next = m.next :=
  List.length_set

/-! ## Counting -/

variable (P : α → Bool)

@[simp] theorem count_empty : (empty : Cells α).count P = 0 := rfl

theorem count_alloc (m : Cells α) (a : α) :
    (m.alloc a).count P = m.count P + if P a then 1 else 0 := by
  rw [count, alloc, List.countP_append, List.countP_singleton]
  rfl

theorem count_set (hp : m.load p = some a) (cell : Option α) :
    (⟨m.cells.set p cell⟩ : Cells α).count P + (if P a then 1 else 0) =
      m.count P + if cell.any P then 1 else 0 := by
  have hlt : p < m.cells.length := lt_of_load hp
  have hcell : m.cells[p] = some a := by
    have hget := getElem?_of_load hp
    rw [List.getElem?_eq_getElem hlt] at hget
    exact Option.some.inj hget
  have hle : (if P a then 1 else 0) ≤ m.count P := by
    split_ifs with ha
    · refine List.countP_pos_iff.mpr ⟨some a, ?_, ha⟩
      rw [← hcell]
      exact List.getElem_mem hlt
    · exact Nat.zero_le _
  rw [count, List.countP_set hlt, hcell]
  change m.count P - (if P a then 1 else 0) + _ + _ = _
  omega

theorem count_store (hp : m.load p = some a) (b : α) :
    (m.store p b).count P + (if P a then 1 else 0) = m.count P + if P b then 1 else 0 :=
  count_set P hp (some b)

theorem count_free (hp : m.load p = some a) :
    (m.free p).count P + (if P a then 1 else 0) = m.count P :=
  count_set P hp none

variable {P}

theorem count_pos_iff : 0 < m.count P ↔ ∃ p a, m.load p = some a ∧ P a = true := by
  constructor
  · intro hpos
    obtain ⟨cell, hmem, hcell⟩ := List.countP_pos_iff.mp hpos
    obtain ⟨p, hp⟩ := List.mem_iff_getElem?.mp hmem
    cases cell with
    | none => cases hcell
    | some a =>
      refine ⟨p, a, ?_, hcell⟩
      rw [load, hp]
      rfl
  · rintro ⟨p, a, hp, ha⟩
    refine List.countP_pos_iff.mpr ⟨some a, ?_, ha⟩
    exact List.mem_of_getElem? (getElem?_of_load hp)

end Cells

end FFmpeg.Common
