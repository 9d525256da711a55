import Mathlib.Tactic

/-!
# Neighbouring fractions

Two fractions `a / b` and `c / d` with `c * b - a * d = 1` are neighbours: whatever lies strictly
between them has at least the sum of the numerators above and the sum of the denominators below.  So
among the fractions that are too small for that, one of the two is nearest to any number between
them.  The upper fraction may be `1 / 0`.
-/

namespace FFmpeg.Common.Neighbours

variable {a b c d p q limit : ℤ}

theorem add_le_of_between (ha : 0 ≤ a) (hb : 0 ≤ b) (hc : 0 ≤ c) (hd : 0 ≤ d)
    (hdet : c * b - a * d = 1) (hlower : a * q < p * b) (hupper : p * d < c * q) :
    a + c ≤ p ∧ b + d ≤ q := by
  have hu : 1 ≤ c * q - p * d := by lia
  have hv : 1 ≤ p * b - a * q := by lia
  have hp : p = a * (c * q - p * d) + c * (p * b - a * q) := by
    linear_combination (-p) * hdet
  have hq : q = b * (c * q - p * d) + d * (p * b - a * q) := by
    linear_combination (-q) * hdet
  constructor
  · rw [hp]
    nlinarith [mul_le_mul_of_nonneg_left hu ha, mul_le_mul_of_nonneg_left hv hc]
  · rw [hq]
    nlinarith [mul_le_mul_of_nonneg_left hu hb, mul_le_mul_of_nonneg_left hv hd]

theorem outside (ha : 0 ≤ a) (hb : 0 ≤ b) (hc : 0 ≤ c) (hd : 0 ≤ d) (hdet : c * b - a * d = 1)
    (hsum : limit < a + c ∨ limit < b + d) (hp : p ≤ limit) (hq : q ≤ limit) :
    p * b ≤ a * q ∨ c * q ≤ p * d := by
  by_contra hbetween
  push Not at hbetween
  obtain ⟨hnum, hden⟩ := add_le_of_between ha hb hc hd hdet hbetween.1 hbetween.2
  lia

theorem le_or_le (ha : 0 ≤ a) (hb : 0 < b) (hc : 0 ≤ c) (hd : 0 ≤ d) (hdet : c * b - a * d = 1)
    (hsum : limit < a + c ∨ limit < b + d) (hp : p ≤ limit) (hq0 : 0 < q) (hq : q ≤ limit) :
    (p : ℚ) / q ≤ a / b ∨ 0 < d ∧ (c : ℚ) / d ≤ p / q := by
  have hbq : (0 : ℚ) < b := by exact_mod_cast hb
  have hqq : (0 : ℚ) < q := by exact_mod_cast hq0
  rcases outside ha hb.le hc hd hdet hsum hp hq with hleft | hright
  · left
    rw [div_le_div_iff₀ hqq hbq]
    exact_mod_cast hleft
  · right
    have hdpos : 0 < d := by
      rcases hd.lt_or_eq with hpos | hzero
      · exact hpos
      · rw [← hzero, mul_zero, sub_zero] at hdet
        rw [← hzero, mul_zero] at hright
        have hcpos : 0 < c := by
          rcases hc.lt_or_eq with hpos | hzero'
          · exact hpos
          · rw [← hzero', zero_mul] at hdet
            lia
        exact absurd (mul_pos hcpos hq0) (not_lt.2 hright)
    refine ⟨hdpos, ?_⟩
    have hdq : (0 : ℚ) < d := by exact_mod_cast hdpos
    rw [div_le_div_iff₀ hdq hqq]
    exact_mod_cast hright

theorem abs_lower_le {x : ℚ} (ha : 0 ≤ a) (hb : 0 < b) (hc : 0 ≤ c) (hd : 0 ≤ d)
    (hdet : c * b - a * d = 1) (hsum : limit < a + c ∨ limit < b + d) (hp : p ≤ limit)
    (hq0 : 0 < q) (hq : q ≤ limit) (hlower : (a : ℚ) / b ≤ x)
    (hnearer : 0 < d → x - a / b ≤ c / d - x) : |(a : ℚ) / b - x| ≤ |(p : ℚ) / q - x| := by
  rw [abs_sub_comm, abs_of_nonneg (sub_nonneg.2 hlower)]
  rcases le_or_le ha hb hc hd hdet hsum hp hq0 hq with hleft | ⟨hdpos, hright⟩
  · rw [abs_sub_comm]
    exact le_trans (by linarith) (le_abs_self _)
  · have hnear := hnearer hdpos
    exact le_trans (by linarith) (le_abs_self _)

theorem abs_upper_le {x : ℚ} (ha : 0 ≤ a) (hb : 0 < b) (hc : 0 ≤ c) (hd : 0 ≤ d)
    (hdet : c * b - a * d = 1) (hsum : limit < a + c ∨ limit < b + d) (hp : p ≤ limit)
    (hq0 : 0 < q) (hq : q ≤ limit) (hupper : x ≤ (c : ℚ) / d)
    (hnearer : (c : ℚ) / d - x ≤ x - a / b) : |(c : ℚ) / d - x| ≤ |(p : ℚ) / q - x| := by
  rw [abs_of_nonneg (sub_nonneg.2 hupper)]
  rcases le_or_le ha hb hc hd hdet hsum hp hq0 hq with hleft | ⟨-, hright⟩
  · rw [abs_sub_comm]
    exact le_trans (by linarith) (le_abs_self _)
  · exact le_trans (by linarith) (le_abs_self _)

end FFmpeg.Common.Neighbours
