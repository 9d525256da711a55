import FFmpeg.Common.Bits

/-!
# The numbers whose bits begin with given bits

Among the numbers of `t` bits, those whose bits begin with the `n` bits of `u` lie at equal
distances: next to each other if the most significant bit is first, `2 ^ n` apart if it is last.
-/

namespace FFmpeg.Common

theorem bits_take_msbFirst {n t : Nat} (hn : n ≤ t) (j : Nat) :
    (bits .msbFirst t j).take n = bits .msbFirst n (j >>> (t - n)) := by
  have h := bits_add_msbFirst n (t - n) j
  rw [Nat.add_sub_cancel' hn] at h
  rw [h, List.take_left' (length_bits _ _)]

theorem bits_take_lsbFirst {n t : Nat} (hn : n ≤ t) (j : Nat) :
    (bits .lsbFirst t j).take n = bits .lsbFirst n j := by
  have h := bits_add_lsbFirst n (t - n) j
  rw [Nat.add_sub_cancel' hn] at h
  rw [h, List.take_left' (length_bits _ _)]

theorem bits_prefix_msbFirst {n t u j : Nat} (hn : n ≤ t) (hu : u < 2 ^ n) (hj : j < 2 ^ t) :
    bits .msbFirst n u <+: bits .msbFirst t j ↔ u = j / 2 ^ (t - n) := by
  have hlt : j / 2 ^ (t - n) < 2 ^ n := by
    rw [Nat.div_lt_iff_lt_mul (Nat.two_pow_pos _), ← Nat.pow_add, Nat.add_sub_cancel' hn]
    exact hj
  rw [List.prefix_iff_eq_take, length_bits, bits_take_msbFirst hn, Nat.shiftRight_eq_div_pow]
  constructor
  · exact bits_injective hu hlt
  · intro h
    rw [h]

theorem bits_prefix_lsbFirst {n t u j : Nat} (hn : n ≤ t) (hu : u < 2 ^ n) :
    bits .lsbFirst n u <+: bits .lsbFirst t j ↔ u = j % 2 ^ n := by
  rw [List.prefix_iff_eq_take, length_bits, bits_take_lsbFirst hn, ← bits_mod (Nat.le_refl n) j]
  constructor
  · exact bits_injective hu (Nat.mod_lt _ (Nat.two_pow_pos n))
  · intro h
    rw [h]

/-- The first of the numbers of `t` bits that begin with the `n` bits of `u`. -/
def BitOrder.slotStart (order : BitOrder) (n t u : Nat) : Nat :=
  match order with
  | .msbFirst => u * 2 ^ (t - n)
  | .lsbFirst => u

/-- The distance between two of them. -/
def BitOrder.slotStep (order : BitOrder) (n : Nat) : Nat :=
  match order with
  | .msbFirst => 1
  | .lsbFirst => 2 ^ n

/-- All of them are reached from the first one. -/
theorem slot_iff (order : BitOrder) {n t u : Nat} (hn : n ≤ t) (hu : u < 2 ^ n) (j : Nat) :
    (∃ k < 2 ^ (t - n), j = order.slotStart n t u + k * order.slotStep n) ↔
      j < 2 ^ t ∧ bits order n u <+: bits order t j := by
  have hpow : 2 ^ t = 2 ^ n * 2 ^ (t - n) := by rw [← Nat.pow_add, Nat.add_sub_cancel' hn]
  cases order with
  | msbFirst =>
    simp only [BitOrder.slotStart, BitOrder.slotStep, Nat.mul_one]
    constructor
    · rintro ⟨k, hk, rfl⟩
      have hlt : u * 2 ^ (t - n) + k < 2 ^ t := by
        calc u * 2 ^ (t - n) + k < (u + 1) * 2 ^ (t - n) := by rw [Nat.succ_mul]; omega
          _ ≤ 2 ^ n * 2 ^ (t - n) := Nat.mul_le_mul_right _ hu
          _ = 2 ^ t := hpow.symm
      refine ⟨hlt, (bits_prefix_msbFirst hn hu hlt).2 ?_⟩
      rw [Nat.mul_comm, Nat.mul_add_div (Nat.two_pow_pos _), Nat.div_eq_of_lt hk, Nat.add_zero]
    · rintro ⟨hlt, hbegins⟩
      refine ⟨j % 2 ^ (t - n), Nat.mod_lt _ (Nat.two_pow_pos _), ?_⟩
      rw [(bits_prefix_msbFirst hn hu hlt).1 hbegins, Nat.mul_comm]
      exact (Nat.div_add_mod _ _).symm
  | lsbFirst =>
    simp only [BitOrder.slotStart, BitOrder.slotStep]
    constructor
    · rintro ⟨k, hk, rfl⟩
      refine ⟨?_, (bits_prefix_lsbFirst hn hu).2 ?_⟩
      · calc u + k * 2 ^ n < (k + 1) * 2 ^ n := by rw [Nat.succ_mul]; omega
          _ ≤ 2 ^ (t - n) * 2 ^ n := Nat.mul_le_mul_right _ hk
          _ = 2 ^ t := by rw [hpow, Nat.mul_comm]
      · rw [Nat.add_mul_mod_self_right, Nat.mod_eq_of_lt hu]
    · rintro ⟨hlt, hbegins⟩
      refine ⟨j / 2 ^ n, ?_, ?_⟩
      · rw [Nat.div_lt_iff_lt_mul (Nat.two_pow_pos n), Nat.mul_comm, ← hpow]
        exact hlt
      · rw [(bits_prefix_lsbFirst hn hu).1 hbegins, Nat.mul_comm]
        exact (Nat.mod_add_div _ _).symm

end FFmpeg.Common
