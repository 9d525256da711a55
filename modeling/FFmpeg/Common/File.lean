import Mathlib.Tactic
import FFmpeg.Common.Overwrite

/-!
# Abstract files

A stretch of a fixed content, as a reader gets it, and a file that grows while
it is written, with a position inside its content.
-/

namespace FFmpeg.Common

variable {α : Type*}

/-! ## Stretches of a content -/

/-- The `n` elements from position `pos` on, fewer at the end. -/
def slice (content : List α) (pos n : Nat) : List α :=
  (content.drop pos).take n

@[simp] theorem slice_zero (content : List α) (pos : Nat) : slice content pos 0 = [] := by
  simp [slice]

theorem length_slice (content : List α) (pos n : Nat) :
    (slice content pos n).length = min n (content.length - pos) := by
  simp [slice]

theorem slice_length (content : List α) (pos n : Nat) :
    slice content pos (slice content pos n).length = slice content pos n := by
  rw [length_slice, slice, slice, List.take_eq_take_iff, List.length_drop]
  lia

variable {content : List α} {pos : Nat}

theorem slice_of_le (h : content.length ≤ pos) (n : Nat) : slice content pos n = [] := by
  simp [slice, List.drop_eq_nil_of_le h]

theorem slice_add (content : List α) (pos a b : Nat) :
    slice content pos (a + b) = slice content pos a ++ slice content (pos + a) b := by
  simp only [slice, List.take_add, List.drop_drop]

theorem slice_zero_append (content : List α) (a b : Nat) :
    slice content 0 a ++ slice content a b = slice content 0 (a + b) := by
  rw [slice_add, Nat.zero_add]

theorem take_slice (content : List α) (pos n k : Nat) :
    (slice content pos n).take k = slice content pos (min k n) := by
  simp only [slice, List.take_take]

theorem drop_slice (content : List α) (pos n k : Nat) :
    (slice content pos n).drop k = slice content (pos + k) (n - k) := by
  simp only [slice, List.drop_take, List.drop_drop]

theorem slice_slice {n k m : Nat} (h : k + m ≤ n) :
    slice (slice content pos n) k m = slice content (pos + k) m := by
  rw [slice, drop_slice, take_slice]
  congr 1
  lia

theorem getElem?_slice (content : List α) (pos n k : Nat) :
    (slice content pos n)[k]? = if k < n then content[pos + k]? else none := by
  rw [slice, List.getElem?_take, List.getElem?_drop]

theorem slice_of_isPrefix {more : List α} (h : content <+: more) {n : Nat}
    (hn : pos + n ≤ content.length) : slice more pos n = slice content pos n := by
  obtain ⟨rest, rfl⟩ := h
  rw [slice, slice, List.drop_append_of_le_length (by lia),
    List.take_append_of_le_length (by rw [List.length_drop]; lia)]

theorem slice_overwrite_of_disjoint {new : List α} {i n : Nat} (hi : i ≤ content.length)
    (h : pos + n ≤ i ∨ i + new.length ≤ pos) :
    slice (overwrite content i new) pos n = slice content pos n := by
  apply List.ext_getElem?
  intro k
  rw [getElem?_slice, getElem?_slice]
  by_cases hk : k < n
  · rw [if_pos hk, if_pos hk, getElem?_overwrite hi]
    rcases h with hbefore | hbehind
    · rw [if_pos (by lia)]
    · rw [if_neg (by lia), if_neg (by lia)]
  · rw [if_neg hk, if_neg hk]

theorem slice_overwrite_of_le {new : List α} {i n : Nat} (hi : i ≤ content.length) (hpos : i ≤ pos)
    (hn : pos + n ≤ i + new.length) :
    slice (overwrite content i new) pos n = slice new (pos - i) n := by
  apply List.ext_getElem?
  intro k
  rw [getElem?_slice, getElem?_slice]
  by_cases hk : k < n
  · rw [if_pos hk, if_pos hk, getElem?_overwrite hi, if_neg (by lia), if_pos (by lia)]
    congr 1
    lia
  · rw [if_neg hk, if_neg hk]

theorem slice_overwrite_inside {new : List α} {i n : Nat} (hi : i + new.length ≤ n)
    (hn : pos + n ≤ content.length) :
    slice (overwrite content (pos + i) new) pos n = overwrite (slice content pos n) i new := by
  have hlen : (slice content pos n).length = n := by
    rw [length_slice]
    lia
  apply List.ext_getElem?
  intro k
  rw [getElem?_slice, getElem?_overwrite (by lia), getElem?_overwrite (by lia), getElem?_slice]
  by_cases hk : k < n
  · rw [if_pos hk, if_pos hk, Nat.add_sub_add_left]
    simp only [Nat.add_lt_add_iff_left, Nat.add_assoc]
  · rw [if_neg hk, if_neg hk, if_neg (by lia), if_neg (by lia)]

theorem slice_flatten {rows : List (List α)} {width : Nat} (h : ∀ row ∈ rows, row.length = width)
    {j : Nat} (hj : j < rows.length) :
    slice rows.flatten (width * j) width = rows[j] := by
  induction rows generalizing j with
  | nil => cases hj
  | cons row rows ih =>
    have hrow : row.length = width := h row List.mem_cons_self
    cases j with
    | zero => rw [Nat.mul_zero, slice, List.drop_zero, List.flatten_cons, List.take_left' hrow]; rfl
    | succ j =>
      have hrest := ih (fun r hr => h r (List.mem_cons_of_mem row hr)) (Nat.lt_of_succ_lt_succ hj)
      have hdrop : width * (j + 1) = row.length + width * j := by rw [hrow]; ring
      rw [slice, List.flatten_cons, hdrop, List.drop_append, List.drop_eq_nil_of_le (by lia),
        Nat.add_sub_cancel_left, List.nil_append]
      exact hrest

/-! ## Growing files -/

/-- A file being written, with a position up to its end. -/
structure GrowableFile (α : Type*) where
  content : List α
  position : Nat
  le : position ≤ content.length

namespace GrowableFile

/-- The file without content. -/
def empty : GrowableFile α := ⟨[], 0, Nat.le_refl _⟩

/-- Write at the position. -/
def write (f : GrowableFile α) (bytes : List α) : GrowableFile α where
  content := overwrite f.content f.position bytes
  position := f.position + bytes.length
  le := by
    rw [length_overwrite f.le]
    exact Nat.le_max_right _ _

/-- Move the position; nothing happens past the end. -/
def seek (f : GrowableFile α) (offset : Nat) : GrowableFile α :=
  if h : offset ≤ f.content.length then ⟨f.content, offset, h⟩ else f

@[simp] theorem write_nil (f : GrowableFile α) : f.write [] = f := by
  simp [write]

theorem write_append (f : GrowableFile α) (a b : List α) :
    f.write (a ++ b) = (f.write a).write b := by
  have hcontent : overwrite (overwrite f.content f.position a) (f.position + a.length) b =
      overwrite f.content f.position (a ++ b) := overwrite_overwrite f.le
  simp only [write, hcontent, List.length_append, Nat.add_assoc]

theorem length_le_write (f : GrowableFile α) (bytes : List α) :
    f.content.length ≤ (f.write bytes).content.length := by
  rw [write, length_overwrite f.le]
  exact Nat.le_max_left _ _

@[simp] theorem content_seek (f : GrowableFile α) (offset : Nat) :
    (f.seek offset).content = f.content := by
  unfold seek
  split <;> rfl

theorem seek_seek (f : GrowableFile α) (a : Nat) {b : Nat} (h : b ≤ f.content.length) :
    (f.seek a).seek b = f.seek b := by
  have hle : b ≤ (f.seek a).content.length := by rwa [content_seek]
  unfold seek at hle ⊢
  simp only [dif_pos hle, dif_pos h]
  split <;> rfl

end GrowableFile

end FFmpeg.Common
