import Mathlib.Tactic
import FFmpeg.Common.File
import FFmpeg.Common.Overwrite

/-!
# Ring buffers

A stretch of a buffer that goes on at the start when it reaches the end.  An
index is at most one turn too far, as pointer code keeps it.
-/

namespace FFmpeg.Common

variable {α : Type*}

/-- An index that ran past the end continues from the start. -/
def wrapIndex (size i : Nat) : Nat :=
  if size ≤ i then i - size else i

/-- The `n` elements of a ring buffer from index `start` on. -/
def ringSlice (buffer : List α) (start n : Nat) : List α :=
  slice buffer start n ++ slice buffer 0 (n - (buffer.length - start))

@[simp] theorem ringSlice_zero (buffer : List α) (start : Nat) : ringSlice buffer start 0 = [] := by
  simp [ringSlice]

variable {buffer : List α} {start : Nat}

theorem ringSlice_of_le {n : Nat} (h : start + n ≤ buffer.length) :
    ringSlice buffer start n = slice buffer start n := by
  have hrest : n - (buffer.length - start) = 0 := by lia
  rw [ringSlice, hrest, slice_zero, List.append_nil]

theorem length_ringSlice {n : Nat} (hstart : start ≤ buffer.length) (hn : n ≤ buffer.length) :
    (ringSlice buffer start n).length = n := by
  rw [ringSlice, List.length_append, length_slice, length_slice]
  lia

theorem getElem?_ringSlice {n : Nat} (hstart : start ≤ buffer.length) (hn : n ≤ buffer.length)
    (i : Nat) :
    (ringSlice buffer start n)[i]? =
      if i < n then buffer[wrapIndex buffer.length (start + i)]? else none := by
  have hlength : (slice buffer start n).length = min n (buffer.length - start) :=
    length_slice buffer start n
  rw [ringSlice, wrapIndex]
  by_cases hfirst : i < (slice buffer start n).length
  · rw [List.getElem?_append_left hfirst, if_pos (by lia), if_neg (by lia), slice,
      List.getElem?_take, if_pos (by lia), List.getElem?_drop]
  · rw [List.getElem?_append_right (by lia), slice, List.getElem?_take, List.getElem?_drop]
    by_cases hi : i < n
    · rw [if_pos hi, if_pos (by lia), if_pos (by lia)]
      congr 1
      lia
    · rw [if_neg hi, if_neg (by lia)]

theorem ringSlice_add {a b : Nat} (hstart : start ≤ buffer.length) (h : a + b ≤ buffer.length) :
    ringSlice buffer start (a + b) =
      ringSlice buffer start a ++ ringSlice buffer (wrapIndex buffer.length (start + a)) b := by
  have hwrap : wrapIndex buffer.length (start + a) ≤ buffer.length := by
    unfold wrapIndex
    split_ifs <;> lia
  have ha : (ringSlice buffer start a).length = a := length_ringSlice hstart (by lia)
  apply List.ext_getElem?
  intro i
  rw [getElem?_ringSlice hstart h]
  by_cases hia : i < a
  · rw [List.getElem?_append_left (by lia), getElem?_ringSlice hstart (by lia),
      if_pos (by lia), if_pos hia]
  · rw [List.getElem?_append_right (by lia), getElem?_ringSlice hwrap (by lia), ha]
    by_cases hib : i < a + b
    · rw [if_pos hib, if_pos (by lia)]
      congr 1
      unfold wrapIndex
      split_ifs <;> lia
    · rw [if_neg hib, if_neg (by lia)]

theorem ringSlice_wrapIndex {n : Nat} (hstart : start ≤ buffer.length) (hn : n ≤ buffer.length) :
    ringSlice buffer (wrapIndex buffer.length start) n = ringSlice buffer start n := by
  have hsplit := ringSlice_add (a := 0) (b := n) hstart (by lia)
  rw [Nat.zero_add, ringSlice_zero, List.nil_append, Nat.add_zero] at hsplit
  exact hsplit.symm

theorem take_ringSlice {n k : Nat} (hstart : start ≤ buffer.length) (hn : n ≤ buffer.length)
    (hk : k ≤ n) :
    (ringSlice buffer start n).take k = ringSlice buffer start k := by
  obtain ⟨m, rfl⟩ := Nat.exists_eq_add_of_le hk
  have hlength : (ringSlice buffer start k).length = k := length_ringSlice hstart (by lia)
  rw [ringSlice_add hstart hn, List.take_left' hlength]

theorem drop_ringSlice {n k : Nat} (hstart : start ≤ buffer.length) (hn : n ≤ buffer.length)
    (hk : k ≤ n) :
    (ringSlice buffer start n).drop k =
      ringSlice buffer (wrapIndex buffer.length (start + k)) (n - k) := by
  obtain ⟨m, rfl⟩ := Nat.exists_eq_add_of_le hk
  have hlength : (ringSlice buffer start k).length = k := length_ringSlice hstart (by lia)
  rw [ringSlice_add hstart hn, List.drop_left' hlength, Nat.add_sub_cancel_left]

theorem ringSlice_overwrite {new : List α} {n : Nat} (hstart : start ≤ buffer.length)
    (hn : n + new.length ≤ buffer.length)
    (hnew : wrapIndex buffer.length (start + n) + new.length ≤ buffer.length) :
    ringSlice (overwrite buffer (wrapIndex buffer.length (start + n)) new) start n =
      ringSlice buffer start n := by
  have hlength : (overwrite buffer (wrapIndex buffer.length (start + n)) new).length =
      buffer.length := length_overwrite_of_le hnew
  apply List.ext_getElem?
  intro i
  rw [getElem?_ringSlice (by lia) (by lia), getElem?_ringSlice hstart (by lia), hlength,
    getElem?_overwrite (by lia)]
  by_cases hi : i < n
  · rw [if_pos hi, if_pos hi]
    unfold wrapIndex at hnew ⊢
    split_ifs at hnew ⊢ <;> first | rfl | lia
  · rw [if_neg hi, if_neg hi]

theorem ringSlice_overwrite_self {new : List α} {i : Nat} (h : i + new.length ≤ buffer.length) :
    ringSlice (overwrite buffer i new) i new.length = new := by
  have hlength : (overwrite buffer i new).length = buffer.length := length_overwrite_of_le h
  have htake : (buffer.take i).length = i := by
    rw [List.length_take]
    lia
  rw [ringSlice_of_le (by lia), slice, overwrite, List.append_assoc, List.drop_left' htake,
    List.take_left]

theorem ringSlice_unwrap {fresh : List α} (hstart : start ≤ buffer.length)
    (hroom : buffer.length + start ≤ fresh.length) :
    ringSlice (overwrite (overwrite fresh 0 buffer) buffer.length (buffer.take start)) start
      buffer.length = ringSlice buffer start buffer.length := by
  have hcopy : (overwrite fresh 0 buffer).length = fresh.length :=
    length_overwrite_of_le (by lia)
  have hmoved : (buffer.take start).length = start := by
    rw [List.length_take]
    lia
  have hlength : (overwrite (overwrite fresh 0 buffer) buffer.length (buffer.take start)).length =
      fresh.length := by
    rw [length_overwrite_of_le (by lia), hcopy]
  apply List.ext_getElem?
  intro i
  rw [getElem?_ringSlice (by lia) (by lia), getElem?_ringSlice hstart le_rfl, hlength]
  by_cases hi : i < buffer.length
  · have hidx : wrapIndex fresh.length (start + i) = start + i := if_neg (by lia)
    rw [if_pos hi, if_pos hi, hidx, getElem?_overwrite (by lia), hmoved,
      getElem?_overwrite (Nat.zero_le _), Nat.zero_add, Nat.sub_zero, wrapIndex]
    by_cases hwrap : buffer.length ≤ start + i
    · rw [if_neg (by lia), if_pos (by lia), if_pos hwrap, List.getElem?_take, if_pos (by lia)]
    · rw [if_pos (by lia), if_neg (by lia), if_pos (by lia), if_neg hwrap]
  · rw [if_neg hi, if_neg hi]

end FFmpeg.Common
