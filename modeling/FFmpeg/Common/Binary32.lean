import Mathlib.Tactic

/-!
# Single precision numbers

A pattern of 32 bits is a sign, an exponent and a fraction.  If the exponent field is not all ones,
it stands for a rational number.
-/

namespace FFmpeg.Common.Binary32

/-- The sign bit. -/
def sign (b : UInt32) : Nat := b.toNat / 2 ^ 31

/-- The exponent field. -/
def exponent (b : UInt32) : Nat := b.toNat / 2 ^ 23 % 2 ^ 8

/-- The fraction field. -/
def fraction (b : UInt32) : Nat := b.toNat % 2 ^ 23

/-- Neither an infinity nor a NaN. -/
def IsFinite (b : UInt32) : Prop := exponent b ≠ 255

/-- The fraction with its leading one, which the subnormal numbers do not have. -/
def significand (b : UInt32) : Nat :=
  if exponent b = 0 then fraction b else 2 ^ 23 + fraction b

/-- The exponent of the last bit of the significand. -/
def scale (b : UInt32) : Int := max (exponent b : Int) 1 - 150

/-- The number without its sign. -/
def magnitude (b : UInt32) : ℚ := significand b * 2 ^ scale b

/-- The number that a finite pattern stands for. -/
def value (b : UInt32) : ℚ := if sign b = 0 then magnitude b else -magnitude b

/-- No finite pattern is nearer to `x`. -/
def Nearest (b : UInt32) (x : ℚ) : Prop :=
  IsFinite b ∧ ∀ b', IsFinite b' → |value b - x| ≤ |value b' - x|

/-- The pattern with these fields. -/
def pack (s : Bool) (e f : Nat) : UInt32 := UInt32.ofNat (s.toNat * 2 ^ 31 + e * 2 ^ 23 + f)

variable {b : UInt32} {s : Bool} {e f m : Nat} {k : Int} {x : ℚ}

theorem toNat_pack (he : e < 2 ^ 8) (hf : f < 2 ^ 23) :
    (pack s e f).toNat = s.toNat * 2 ^ 31 + e * 2 ^ 23 + f := by
  have hs := Bool.toNat_lt s
  rw [pack, UInt32.toNat_ofNat_of_lt']
  show _ < 2 ^ 32
  omega

@[simp] theorem sign_pack (he : e < 2 ^ 8) (hf : f < 2 ^ 23) : sign (pack s e f) = s.toNat := by
  rw [sign, toNat_pack he hf]
  omega

@[simp] theorem exponent_pack (he : e < 2 ^ 8) (hf : f < 2 ^ 23) : exponent (pack s e f) = e := by
  rw [exponent, toNat_pack he hf]
  omega

@[simp] theorem fraction_pack (he : e < 2 ^ 8) (hf : f < 2 ^ 23) : fraction (pack s e f) = f := by
  rw [fraction, toNat_pack he hf]
  omega

theorem magnitude_pack (he0 : 0 < e) (he : e < 2 ^ 8) (hf : f < 2 ^ 23) :
    magnitude (pack s e f) = (2 ^ 23 + f : Nat) * 2 ^ ((e : Int) - 150) := by
  have hmax : max (e : Int) 1 = e := max_eq_left (by omega)
  rw [magnitude, significand, scale, exponent_pack he hf, fraction_pack he hf, if_neg he0.ne', hmax]

theorem significand_lt (b : UInt32) : significand b < 2 ^ 24 := by
  have hf : fraction b < 2 ^ 23 := Nat.mod_lt _ (by norm_num)
  unfold significand
  split <;> omega

theorem magnitude_nonneg (b : UInt32) : 0 ≤ magnitude b :=
  mul_nonneg (Nat.cast_nonneg _) (zpow_pos two_pos _).le

theorem abs_value (b : UInt32) : |value b| = magnitude b := by
  unfold value
  split
  · exact abs_of_nonneg (magnitude_nonneg b)
  · rw [abs_neg, abs_of_nonneg (magnitude_nonneg b)]

theorem magnitude_steps (h : (2 ^ 23 : ℚ) * 2 ^ k ≤ magnitude b) :
    ∃ n : Nat, magnitude b = n * 2 ^ k := by
  have hlt : (significand b : ℚ) < 2 ^ 24 := by exact_mod_cast significand_lt b
  have hk : k ≤ scale b := by
    by_contra hnot
    have hpow : (2 : ℚ) ^ (scale b + 1) ≤ 2 ^ k := zpow_le_zpow_right₀ (by norm_num) (by omega)
    rw [zpow_add_one₀ two_ne_zero] at hpow
    have hsmall := mul_lt_mul_of_pos_right hlt (zpow_pos two_pos (scale b) : (0 : ℚ) < _)
    unfold magnitude at h
    linarith
  obtain ⟨j, hj⟩ : ∃ j : Nat, scale b = j + k := ⟨(scale b - k).toNat, by omega⟩
  refine ⟨significand b * 2 ^ j, ?_⟩
  rw [magnitude, hj, zpow_add₀ two_ne_zero, zpow_natCast]
  push_cast
  ring

theorem magnitude_nearest (hx : (2 ^ 23 : ℚ) * 2 ^ k ≤ x) (hround : |m * 2 ^ k - x| ≤ 2 ^ k / 2)
    (b : UInt32) : |m * 2 ^ k - x| ≤ |magnitude b - x| := by
  have hstep : (0 : ℚ) < 2 ^ k := zpow_pos two_pos k
  -- any other whole number of steps is at least half a step away
  have hwhole : ∀ n : Nat, |(m * 2 ^ k : ℚ) - x| ≤ |n * 2 ^ k - x| := by
    intro n
    rcases eq_or_ne n m with rfl | hne
    · exact le_rfl
    · have hone : (1 : ℚ) ≤ |(n : ℚ) - m| := by
        have hint : 1 ≤ |(n : Int) - m| := Int.one_le_abs (by omega)
        exact_mod_cast hint
      have hfar : 2 ^ k ≤ |(n * 2 ^ k : ℚ) - m * 2 ^ k| := by
        rw [← sub_mul, abs_mul, abs_of_pos hstep]
        exact le_mul_of_one_le_left hstep.le hone
      have htriangle := abs_sub_le (n * 2 ^ k : ℚ) x (m * 2 ^ k)
      rw [abs_sub_comm x] at htriangle
      linarith
  rcases le_or_gt (2 ^ 23 * 2 ^ k : ℚ) (magnitude b) with hlarge | hsmall
  · obtain ⟨n, hn⟩ := magnitude_steps hlarge
    rw [hn]
    exact hwhole n
  · refine (hwhole (2 ^ 23)).trans ?_
    push_cast
    rw [abs_of_nonpos (by linarith), abs_of_nonpos (by linarith)]
    linarith

/-- The sign bit is the one of `x`. -/
def SameSign (b : UInt32) (x : ℚ) : Prop := sign b = if x < 0 then 1 else 0

theorem abs_value_sub (h : SameSign b x) : |value b - x| = abs (magnitude b - |x|) := by
  unfold SameSign at h
  rcases lt_or_ge x 0 with hneg | hpos
  · rw [if_pos hneg] at h
    rw [value, if_neg (by omega), abs_of_neg hneg, ← abs_neg]
    ring_nf
  · rw [if_neg hpos.not_gt] at h
    rw [value, if_pos h, abs_of_nonneg hpos]

/-- A finite pattern with the sign of `x` whose magnitude is `x` rounded to a whole number of
steps. -/
theorem nearest_of_round (hfin : IsFinite b) (hmag : magnitude b = m * 2 ^ k)
    (hsign : SameSign b x) (hx : (2 ^ 23 : ℚ) * 2 ^ k ≤ |x|)
    (hround : abs (m * 2 ^ k - |x|) ≤ 2 ^ k / 2) : Nearest b x := by
  refine ⟨hfin, ?_⟩
  intro b' _
  rw [abs_value_sub hsign, hmag]
  refine (magnitude_nearest hx hround b').trans ?_
  rw [← abs_value]
  exact abs_abs_sub_abs_le (value b') x

theorem not_nearest {c : UInt32} (hfin : IsFinite c) (hsign : SameSign b x)
    (hsign' : SameSign c x) (hnear : abs (magnitude c - |x|) < abs (magnitude b - |x|)) :
    ¬ Nearest b x := by
  intro h
  have hle := h.2 c hfin
  rw [abs_value_sub hsign, abs_value_sub hsign'] at hle
  exact absurd hle hnear.not_ge

end FFmpeg.Common.Binary32
