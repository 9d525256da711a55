import Mathlib.Tactic

/-!
# Writing into the middle of a list

Copying a block into a memory buffer, and writing at a position of a file,
both replace a stretch of a list by a new block and keep what lies around it.
A block that reaches past the end makes the list longer, so the same function
describes a fixed buffer and a file that grows.
-/

namespace FFmpeg.Common

variable {α : Type*}

/-- Replace the elements of `l` from index `i` on by `new`, keeping what lies
beyond the new block. -/
def overwrite (l : List α) (i : Nat) (new : List α) : List α :=
  l.take i ++ new ++ l.drop (i + new.length)

@[simp] theorem overwrite_nil (l : List α) (i : Nat) : overwrite l i [] = l := by
  simp [overwrite]

variable {i : Nat}

theorem length_overwrite {l new : List α} (h : i ≤ l.length) :
    (overwrite l i new).length = max l.length (i + new.length) := by
  simp [overwrite, Nat.min_eq_left h]
  lia

theorem length_overwrite_of_le {l new : List α} (h : i + new.length ≤ l.length) :
    (overwrite l i new).length = l.length := by
  rw [length_overwrite (by lia)]
  lia

theorem take_overwrite {l new : List α} (h : i ≤ l.length) :
    (overwrite l i new).take (i + new.length) = l.take i ++ new := by
  have hlen : (l.take i ++ new).length = i + new.length := by
    simp [Nat.min_eq_left h]
  rw [overwrite, ← hlen, List.take_left]

theorem take_overwrite_of_le {l new : List α} {k : Nat} (hk : k ≤ i) (h : i ≤ l.length) :
    (overwrite l i new).take k = l.take k := by
  rw [overwrite, List.append_assoc, List.take_append_of_le_length (by simp; lia),
    List.take_take, Nat.min_eq_left hk]

theorem take_overwrite_front (l new : List α) : (overwrite l 0 new).take new.length = new := by
  simp [overwrite]

theorem getElem?_overwrite {l new : List α} (h : i ≤ l.length) (k : Nat) :
    (overwrite l i new)[k]? =
      if k < i then l[k]? else if k < i + new.length then new[k - i]? else l[k]? := by
  have hi : (l.take i).length = i := by simp [Nat.min_eq_left h]
  rw [overwrite, List.append_assoc]
  by_cases hk : k < i
  · rw [if_pos hk, List.getElem?_append_left (by lia), List.getElem?_take, if_pos hk]
  · rw [if_neg hk, List.getElem?_append_right (by lia), hi]
    by_cases hk' : k < i + new.length
    · rw [if_pos hk', List.getElem?_append_left (by lia)]
    · rw [if_neg hk', List.getElem?_append_right (by lia), List.getElem?_drop]
      congr 1
      lia

theorem overwrite_overwrite {l a b : List α} (h : i ≤ l.length) :
    overwrite (overwrite l i a) (i + a.length) b = overwrite l i (a ++ b) := by
  have hlen : i + a.length ≤ (overwrite l i a).length := by
    rw [length_overwrite h]
    lia
  apply List.ext_getElem?
  intro k
  rw [getElem?_overwrite hlen, getElem?_overwrite h, getElem?_overwrite h]
  by_cases h1 : k < i
  · simp [h1, Nat.lt_add_right]
  · by_cases h2 : k < i + a.length
    · have h3 : k < i + (a ++ b).length := by simp; lia
      rw [if_pos h2, if_neg h1, if_pos h2, if_neg h1, if_pos h3, List.getElem?_append_left (by lia)]
    · rw [if_neg h2, if_neg h1, if_neg h2, if_neg h1]
      by_cases h3 : k < i + a.length + b.length
      · have h4 : k < i + (a ++ b).length := by simp; lia
        rw [if_pos h3, if_pos h4, List.getElem?_append_right (by lia)]
        congr 1
        lia
      · have h4 : ¬ k < i + (a ++ b).length := by simp; lia
        rw [if_neg h3, if_neg h4]

theorem take_overwrite_max {l new : List α} {k : Nat} (hi : i ≤ k) (hk : k ≤ l.length) :
    (overwrite l i new).take (max k (i + new.length)) = overwrite (l.take k) i new := by
  have hlen : i ≤ (l.take k).length := by simp [Nat.min_eq_left hk, hi]
  apply List.ext_getElem?
  intro j
  rw [getElem?_overwrite hlen, List.getElem?_take, getElem?_overwrite (hi.trans hk),
    List.getElem?_take]
  by_cases h1 : j < i
  · have h2 : j < max k (i + new.length) := by lia
    have h3 : j < k := by lia
    simp [h1, h2, h3]
  · by_cases h2 : j < i + new.length
    · have h3 : j < max k (i + new.length) := by lia
      simp [h1, h2, h3]
    · rw [if_neg h1, if_neg h2, if_neg h1, if_neg h2]
      by_cases h3 : j < k
      · rw [if_pos h3, if_pos (by lia)]
      · rw [if_neg h3, if_neg (by lia)]

theorem overwrite_overwrite_add {l a b : List α} {p : Nat} (hp : p ≤ l.length) (hi : i ≤ a.length) :
    overwrite (overwrite l p a) (p + i) b = overwrite l p (overwrite a i b) := by
  have hlen : p + i ≤ (overwrite l p a).length := by
    rw [length_overwrite hp]
    lia
  have hinner : (overwrite a i b).length = max a.length (i + b.length) := length_overwrite hi
  apply List.ext_getElem?
  intro j
  rw [getElem?_overwrite hlen, getElem?_overwrite hp, getElem?_overwrite hp,
    getElem?_overwrite hi, hinner]
  by_cases h1 : j < p
  · rw [if_pos (by lia), if_pos h1, if_pos h1]
  · by_cases h2 : j < p + i
    · rw [if_pos h2, if_neg h1, if_pos (by lia), if_neg h1, if_pos (by lia), if_pos (by lia)]
    · by_cases h3 : j < p + i + b.length
      · rw [if_neg h2, if_pos h3, if_neg h1, if_pos (by lia), if_neg (by lia), if_pos (by lia)]
        congr 1
        lia
      · rw [if_neg h2, if_neg h3, if_neg h1, if_neg h1]
        by_cases h4 : j < p + a.length
        · rw [if_pos h4, if_pos (by lia), if_neg (by lia), if_neg (by lia)]
        · rw [if_neg h4, if_neg (by lia)]

end FFmpeg.Common
