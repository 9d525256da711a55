import Mathlib.Data.Sign.Basic
import Mathlib.Tactic

/-!
# Numbers with a binary exponent

An integer counts units of a power of two.  A unit that is larger by `2 ^ k` is reached by shifting
the integer to the right, which rounds down.
-/

namespace FFmpeg.Common.Dyadic

variable {K : Type*} [Field K] {m n d e p : Int} {j k : Nat}

/-- `m` units of `2 ^ e`. -/
def dyadic (K : Type*) [Field K] (m e : Int) : K := m * 2 ^ e

/-! ## Arithmetic -/

@[simp] theorem dyadic_zero (e : Int) : dyadic K 0 e = 0 := by simp [dyadic]

@[simp] theorem dyadic_one (e : Int) : dyadic K 1 e = 2 ^ e := by simp [dyadic]

@[simp] theorem dyadic_neg (m e : Int) : dyadic K (-m) e = -dyadic K m e := by simp [dyadic]

theorem dyadic_add (m n e : Int) : dyadic K (m + n) e = dyadic K m e + dyadic K n e := by
  simp [dyadic, add_mul]

theorem dyadic_sub (m n e : Int) : dyadic K (m - n) e = dyadic K m e - dyadic K n e := by
  simp [dyadic, sub_mul]

variable [LinearOrder K] [IsStrictOrderedRing K]

theorem dyadic_mul (m n d e : Int) : dyadic K m d * dyadic K n e = dyadic K (m * n) (d + e) := by
  rw [dyadic, dyadic, dyadic, zpow_add₀ two_ne_zero, Int.cast_mul, mul_mul_mul_comm]

theorem dyadic_shift (m e : Int) (k : Nat) : dyadic K (m * 2 ^ k) e = dyadic K m (e + k) := by
  rw [dyadic, dyadic, zpow_add₀ two_ne_zero, zpow_natCast]
  push_cast
  ring

theorem dyadic_two_pow (e : Int) (k : Nat) : dyadic K (2 ^ k) e = 2 ^ (e + k) := by
  rw [← one_mul ((2 : Int) ^ k), dyadic_shift, dyadic_one]

/-! ## Order -/

theorem unit_pos (e : Int) : (0 : K) < 2 ^ e := zpow_pos two_pos e

theorem dyadic_le_dyadic : dyadic K m e ≤ dyadic K n e ↔ m ≤ n := by
  rw [dyadic, dyadic, mul_le_mul_iff_left₀ (unit_pos e), Int.cast_le]

theorem dyadic_lt_dyadic : dyadic K m e < dyadic K n e ↔ m < n := by
  rw [dyadic, dyadic, mul_lt_mul_iff_left₀ (unit_pos e), Int.cast_lt]

theorem abs_dyadic (m e : Int) : |dyadic K m e| = dyadic K |m| e := by
  rw [dyadic, dyadic, abs_mul, abs_of_pos (unit_pos (K := K) e), Int.cast_abs]

theorem sign_dyadic (m e : Int) : SignType.sign (dyadic K m e) = SignType.sign m := by
  rw [dyadic, sign_mul, sign_pos (unit_pos e), mul_one, sign_intCast]

theorem exponent_lt_of_dyadic_lt (hm : 0 ≤ m) (h : dyadic K m d < dyadic K m e) : d < e :=
  (zpow_lt_zpow_iff_right₀ one_lt_two).1 (lt_of_mul_lt_mul_left h (Int.cast_nonneg hm))

/-! ## Shifting -/

theorem shiftRight_split (m : Int) (k : Nat) :
    (m >>> k) * 2 ^ k ≤ m ∧ m < (m >>> k + 1) * 2 ^ k := by
  rw [Int.shiftRight_eq_div_pow]
  exact ⟨Int.ediv_mul_le m (by positivity), Int.lt_ediv_add_one_mul_self m (by positivity)⟩

theorem dyadic_shiftRight_le (m e : Int) (k : Nat) : dyadic K (m >>> k) (e + k) ≤ dyadic K m e := by
  rw [← dyadic_shift, dyadic_le_dyadic]
  exact (shiftRight_split m k).1

theorem dyadic_lt_shiftRight (m e : Int) (k : Nat) :
    dyadic K m e < dyadic K (m >>> k + 1) (e + k) := by
  rw [← dyadic_shift, dyadic_lt_dyadic]
  exact (shiftRight_split m k).2

theorem abs_shiftRight_sub (m e : Int) (k : Nat) :
    |dyadic K (m >>> k) (e + k) - dyadic K m e| < 2 ^ (e + k) := by
  have hle := dyadic_shiftRight_le (K := K) m e k
  have hlt := dyadic_lt_shiftRight (K := K) m e k
  rw [dyadic_add, dyadic_one] at hlt
  rw [abs_lt]
  constructor
  · linarith
  · linarith [unit_pos (K := K) (e + k)]

theorem two_pow_le_dyadic {x : K} (hm : 0 < m) (hp : (2 : K) ^ p ≤ x)
    (hlt : x < dyadic K (m + 1) e) : (2 : K) ^ p ≤ dyadic K m e := by
  rcases le_or_gt e p with hle | hgt
  · -- the power counts units, so the next integer does not lie above it
    obtain ⟨k, rfl⟩ : ∃ k : Nat, p = e + k := ⟨(p - e).toNat, by lia⟩
    rw [← dyadic_two_pow] at hp ⊢
    exact dyadic_le_dyadic.2 (Int.lt_add_one_iff.1 (dyadic_lt_dyadic.1 (hp.trans_lt hlt)))
  · have hunit : (2 : K) ^ p ≤ dyadic K 1 e := by
      rw [dyadic_one]
      exact (zpow_lt_zpow_right₀ one_lt_two hgt).le
    exact hunit.trans (dyadic_le_dyadic.2 hm)

theorem abs_tdiv_sub (m e : Int) (hn : n ≠ 0) :
    |dyadic K (m.tdiv n) e - m / n * 2 ^ e| < 2 ^ e := by
  have hpos : (0 : K) < |(n : K)| := abs_pos.2 (Int.cast_ne_zero.2 hn)
  have hsplit : ((m.tdiv n * n + m.tmod n : Int) : K) = m := by
    rw [Int.tdiv_mul_add_tmod]
  have hrest : |((m.tmod n : Int) : K)| < |(n : K)| := by
    rw [← Int.cast_abs, ← Int.cast_abs, Int.cast_lt, Int.abs_eq_natAbs, Int.abs_eq_natAbs,
      Int.natAbs_tmod, Int.ofNat_lt]
    exact Nat.mod_lt _ (Int.natAbs_pos.2 hn)
  push_cast at hsplit
  have hlost : dyadic K (m.tdiv n) e - m / n * 2 ^ e = -((m.tmod n : Int) / n) * 2 ^ e := by
    rw [dyadic, ← hsplit]
    field_simp
    ring
  rw [hlost, abs_mul, abs_neg, abs_div, abs_of_pos (unit_pos (K := K) e)]
  exact mul_lt_of_lt_one_left (unit_pos e) ((div_lt_one hpos).2 hrest)

/-! ## Comparing with what is left of a shift -/

/-- A shift to the right reaches the other number and has lost something. -/
def FalseTie (m n : Int) (k : Nat) : Prop := m >>> k = n ∧ m ≠ n * 2 ^ k

theorem sign_shiftRight_sub (m n : Int) (k : Nat) :
    SignType.sign (m >>> k - n) = SignType.sign (m - n * 2 ^ k) ↔ ¬ FalseTie m n k := by
  obtain ⟨hle, hlt⟩ := shiftRight_split m k
  have hpow : (0 : Int) < 2 ^ k := by positivity
  unfold FalseTie
  generalize m >>> k = q at hle hlt ⊢
  rcases lt_trichotomy q n with h | rfl | h
  · have hbelow : (q + 1) * 2 ^ k ≤ n * 2 ^ k := mul_le_mul_of_nonneg_right h hpow.le
    rw [sign_neg (by lia), sign_neg (by lia)]
    simp [h.ne]
  · rw [sub_self, sign_zero, eq_comm, sign_eq_zero_iff, sub_eq_zero]
    simp
  · have habove : (n + 1) * 2 ^ k ≤ q * 2 ^ k := mul_le_mul_of_nonneg_right h hpow.le
    rw [sign_pos (by lia), sign_pos (by linarith)]
    simp [h.ne']

theorem lt_shiftRight_iff (m n : Int) (k : Nat) :
    (n < m >>> k ↔ n * 2 ^ k < m) ↔ ¬ FalseTie m n k := by
  have hsign := sign_shiftRight_sub m n k
  rw [← hsign]
  constructor
  · intro h
    obtain ⟨hle, hlt⟩ := shiftRight_split m k
    rw [hsign]
    rintro ⟨heq, hne⟩
    rw [heq] at hle h
    exact lt_irrefl n (h.2 (lt_of_le_of_ne hle (Ne.symm hne)))
  · intro h
    rw [← sub_pos, ← sub_pos (b := n * 2 ^ k), ← sign_eq_one_iff, h, sign_eq_one_iff]

theorem shiftRight_lt_iff (m n : Int) (k : Nat) : m >>> k < n ↔ m < n * 2 ^ k := by
  rw [Int.shiftRight_eq_div_pow]
  exact Int.ediv_lt_iff_lt_mul (by positivity)

end FFmpeg.Common.Dyadic
