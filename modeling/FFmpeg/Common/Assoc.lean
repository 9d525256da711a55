import Mathlib.Tactic

/-!
# Association lists and removal by swapping

An array that stores one entry a key represents a finite map.  An entry is
removed by overwriting it with the last one and shortening the array, which
disturbs the order but not the entries.  The map is therefore read through a
lookup that, while no key occurs twice, does not depend on the order.
-/

namespace FFmpeg.Common

variable {α κ β : Type*}

/-- Overwrite entry `i` with the last entry and drop the last entry. -/
def swapRemove (l : List α) (i : Nat) : List α :=
  match l.getLast? with
  | some last => (l.set i last).dropLast
  | none => l

variable {l : List α}

theorem swapRemove_perm {i : Nat} (hi : i < l.length) : (l[i] :: swapRemove l i).Perm l := by
  obtain ⟨front, last, rfl⟩ : ∃ front last, l = front ++ [last] :=
    ⟨l.dropLast, l.getLast (List.ne_nil_of_length_pos (by omega)),
      (List.dropLast_append_getLast _).symm⟩
  have hremove : swapRemove (front ++ [last]) i = ((front ++ [last]).set i last).dropLast := by
    simp [swapRemove]
  rw [hremove]
  by_cases hlast : i < front.length
  · -- the last entry moves into the hole
    rw [List.set_append_left _ _ hlast, List.dropLast_concat, List.getElem_append_left hlast]
    calc (front[i] :: front.set i last).Perm (front[i] :: last :: front.eraseIdx i) :=
          (List.set_perm_cons_eraseIdx hlast last).cons _
      _ |>.Perm (last :: front[i] :: front.eraseIdx i) := List.Perm.swap _ _ _
      _ |>.Perm (last :: front) := (List.getElem_cons_eraseIdx_perm hlast).cons _
      _ |>.Perm (front ++ [last]) := (List.perm_append_singleton last front).symm
  · -- the last entry is the one removed
    have hieq : i = front.length := by
      simp only [List.length_append, List.length_singleton] at hi
      omega
    subst hieq
    simpa using (List.perm_append_singleton last front).symm

section Lookup

variable [DecidableEq κ] (key : α → κ) (val : α → β)

/-- The value of the first entry with key `k`. -/
def assocGet (l : List α) (k : κ) : Option β :=
  (l.find? fun e => key e = k).map val

variable {key val}

@[simp] theorem assocGet_nil : assocGet key val [] = fun _ => none := rfl

theorem assocGet_cons (e : α) (l : List α) :
    assocGet key val (e :: l) = Function.update (assocGet key val l) (key e) (some (val e)) := by
  ext1 k
  by_cases hk : k = key e
  · simp [assocGet, hk]
  · have hne : key e ≠ k := fun h => hk h.symm
    simp [assocGet, Function.update_of_ne hk, List.find?_cons_of_neg, hne]

variable {l : List α}

theorem assocGet_eq_none_iff {k : κ} : assocGet key val l k = none ↔ ∀ e ∈ l, key e ≠ k := by
  simp [assocGet]

theorem assocGet_eq_empty_iff : (assocGet key val l = fun _ => none) ↔ l = [] := by
  constructor
  · intro hempty
    cases l with
    | nil => rfl
    | cons e l =>
      have hnone : assocGet key val (e :: l) (key e) = none := congrFun hempty (key e)
      simp [assocGet_cons] at hnone
  · rintro rfl
    rfl

theorem assocGet_perm {l' : List α} (hperm : l.Perm l') (hnodup : (l.map key).Nodup) :
    assocGet key val l = assocGet key val l' := by
  induction hperm with
  | nil => rfl
  | cons e _ ih =>
    rw [assocGet_cons, assocGet_cons, ih (List.nodup_cons.mp hnodup).2]
  | swap e f l =>
    have hne : key f ≠ key e := by
      have hmem := (List.nodup_cons.mp hnodup).1
      simp only [List.map_cons, List.mem_cons, not_or] at hmem
      exact hmem.1
    simp only [assocGet_cons]
    exact Function.update_comm hne.symm _ _ _ |>.symm ▸ rfl
  | trans hleft _ ihleft ihright =>
    rw [ihleft hnodup, ihright ((hleft.map key).nodup_iff.mp hnodup)]

theorem assocGet_swapRemove {i : Nat} (hi : i < l.length) (hnodup : (l.map key).Nodup) :
    assocGet key val (swapRemove l i) = Function.update (assocGet key val l) (key l[i]) none := by
  have hperm : (l[i] :: swapRemove l i).Perm l := swapRemove_perm hi
  have hnodup' : ((l[i] :: swapRemove l i).map key).Nodup :=
    (hperm.map key).nodup_iff.mpr hnodup
  have hfresh : assocGet key val (swapRemove l i) (key l[i]) = none := by
    rw [assocGet_eq_none_iff]
    intro e he hkey
    apply (List.nodup_cons.mp hnodup').1
    exact hkey ▸ List.mem_map_of_mem he
  rw [← assocGet_perm hperm hnodup', assocGet_cons, Function.update_idem, ← hfresh,
    Function.update_eq_self]

theorem assocGet_concat {e : α} (hnodup : ((l ++ [e]).map key).Nodup) :
    assocGet key val (l ++ [e]) = Function.update (assocGet key val l) (key e) (some (val e)) := by
  rw [assocGet_perm (List.perm_append_singleton e l) hnodup, assocGet_cons]

end Lookup

theorem nodup_map_swapRemove {key : α → κ} {i : Nat} (hi : i < l.length)
    (hnodup : (l.map key).Nodup) : ((swapRemove l i).map key).Nodup :=
  (List.nodup_cons.mp (((swapRemove_perm hi).map key).nodup_iff.mpr hnodup)).2

end FFmpeg.Common
