import FFmpeg.Libavutil.Softfloat

/-!
# Arithmetic on normalized numbers

A product, a quotient and a sum are first rounded to a mantissa that may be one bit too long.  What
they leave off is less than a unit, and shifting the last bit out as well costs another unit of the
longer mantissa.  A sum that cancels is shifted to the left again, which is exact.
-/

namespace FFmpeg.Libavutil.Softfloat

open Common Dyadic

variable {a b r : SoftFloat} {m n e t : Int} {k : Nat} {x : ℚ}

/-- A unit in the last place. -/
def ulp (a : SoftFloat) : ℚ := 2 ^ (a.exp - 30)

/-- Zero, or between the smallest and the largest normalized number. -/
def InRange (x : ℚ) : Prop :=
  x = 0 ∨ value ⟨2 ^ 29, minExp⟩ ≤ |x| ∧ |x| ≤ value ⟨2 ^ 30 - 1, maxExp⟩

theorem value_eq (a : SoftFloat) : value a = dyadic ℚ a.mant (a.exp - 30) := rfl

theorem normalized_float0 : Normalized float0 :=
  ⟨Or.inl ⟨rfl, rfl⟩, le_refl _, by decide⟩

theorem value_float0 : value float0 = 0 := dyadic_zero _

/-! ## The carry -/

theorem toInt32_carry (hmin : -2 ^ 31 ≤ m) (hmax : m < 2 ^ 31) :
    toInt32 (m + 0x40000000) ≤ 0 ↔ 2 ^ 30 ≤ |m| := by
  rw [le_abs]
  rcases lt_or_ge m (2 ^ 30) with hlow | hhigh
  · rw [toInt32_eq (by lia) (by lia)]
    lia
  · have hwrap : toInt32 (m + 0x40000000) = m + 0x40000000 - 2 ^ 32 := by
      rw [toInt32, BitVec.toInt_ofInt, Int.bmod_def, Int.emod_eq_of_lt (by lia) (by lia),
        if_neg (by lia)]
      rfl
    rw [hwrap]
    lia

/-- The exact number lies within a unit of the mantissa. -/
def Near (m e : Int) (x : ℚ) : Prop := |dyadic ℚ m (e - 30) - x| < 2 ^ (e - 30)

theorem Near.abs_lt (h : Near m e x) : |x| < dyadic ℚ (|m| + 1) (e - 30) := by
  have htri := abs_sub_abs_le_abs_sub x (dyadic ℚ m (e - 30))
  rw [abs_sub_comm x, abs_dyadic] at htri
  rw [dyadic_add, dyadic_one]
  unfold Near at h
  linarith

theorem Near.lt_abs (h : Near m e x) : dyadic ℚ (|m| - 1) (e - 30) < |x| := by
  have htri := abs_sub_abs_le_abs_sub (dyadic ℚ m (e - 30)) x
  rw [abs_dyadic] at htri
  rw [dyadic_sub, dyadic_one]
  unfold Near at h
  linarith

/-- The result of `av_normalize1_sf`, for a mantissa that may be one bit too long. -/
structure Carried (m e : Int) (x : ℚ) (r : SoftFloat) : Prop where
  run : avNormalize1Sf ⟨m, e⟩ = some r
  near : |value r - x| < 2 * 2 ^ (e - 30)
  cases : |m| < 2 ^ 30 ∧ r = ⟨m, e⟩ ∨ 2 ^ 29 ≤ |r.mant| ∧ |r.mant| < 2 ^ 30 ∧ r.exp = e + 1
  exp : r.exp ≤ maxExp

theorem exists_carried (hmin : -2 ^ 31 + 2 ≤ m) (hmax : m < 2 ^ 31) (he : -2 ^ 31 ≤ e)
    (hnear : Near m e x) (hx : |x| ≤ value ⟨2 ^ 30 - 1, maxExp⟩)
    (hexp : |m| < 2 ^ 30 → e ≤ maxExp) : ∃ r, Carried m e x r := by
  have hunit : (0 : ℚ) < 2 ^ (e - 30) := unit_pos (e - 30)
  have hcarry := toInt32_carry (m := m) (by lia) hmax
  by_cases hlong : 2 ^ 30 ≤ |m|
  · -- the last bit is shifted out
    have hlt : e < maxExp := by
      have hbig : dyadic ℚ (2 ^ 30 - 1) (e - 30) ≤ dyadic ℚ (|m| - 1) (e - 30) :=
        dyadic_le_dyadic.2 (by lia)
      have hexps : e - 30 < maxExp - 30 :=
        exponent_lt_of_dyadic_lt (by norm_num) ((hbig.trans_lt hnear.lt_abs).trans_le hx)
      lia
    have hhalf : m >>> (1 : Nat) = m / 2 := by rw [Int.shiftRight_eq_div_pow]; rfl
    have hbits : 2 ^ 29 ≤ |m / 2| ∧ |m / 2| < 2 ^ 30 := by
      rw [le_abs] at hlong
      rw [le_abs, abs_lt]
      lia
    have hop : intOp (e + 1) = some (e + 1) :=
      intOp_of_range (by lia) (by unfold maxExp at hlt; lia)
    refine ⟨⟨m / 2, e + 1⟩, ?_, ?_, Or.inr ⟨hbits.1, hbits.2, rfl⟩, hlt⟩
    · rw [avNormalize1Sf, normalizeCarry, if_pos (hcarry.2 hlong), hop, hhalf]
      have hassert : m / 2 < 0x40000000 ∧ -0x40000000 < m / 2 ∧ e + 1 ≤ maxExp := by
        rw [abs_lt] at hbits
        lia
      simp [hassert]
    · have hvalue : value ⟨m / 2, e + 1⟩ = dyadic ℚ (m / 2 * 2 ^ 1) (e - 30) := by
        rw [dyadic_shift, value_eq]
        congr 1
        push_cast
        ring
      have hlost : |dyadic ℚ (m / 2 * 2 ^ 1) (e - 30) - dyadic ℚ m (e - 30)| ≤ 2 ^ (e - 30) := by
        rw [← dyadic_sub, abs_dyadic, ← dyadic_one (K := ℚ) (e - 30), dyadic_le_dyadic, abs_le]
        lia
      have htri := abs_sub_le (dyadic ℚ (m / 2 * 2 ^ 1) (e - 30)) (dyadic ℚ m (e - 30)) x
      unfold Near at hnear
      rw [hvalue]
      linarith
  · have hshort : |m| < 2 ^ 30 := lt_of_not_ge hlong
    refine ⟨⟨m, e⟩, ?_, ?_, Or.inl ⟨hshort, rfl⟩, hexp hshort⟩
    · rw [avNormalize1Sf, normalizeCarry, if_neg (fun h => hlong (hcarry.1 h))]
      have hassert : m < 0x40000000 ∧ -0x40000000 < m ∧ e ≤ maxExp := by
        have hle := hexp hshort
        rw [abs_lt] at hshort
        lia
      simp [hassert]
    · rw [value_eq]
      unfold Near at hnear
      linarith

/-! ## Products and quotients -/

theorem value_smallest : value ⟨2 ^ 29, minExp⟩ = 2 ^ (minExp - 1) :=
  dyadic_two_pow (minExp - 30) 29

theorem minExp_le_of_abs_lt {j : Nat} (hx : value ⟨2 ^ 29, minExp⟩ ≤ |x|)
    (hlt : |x| < dyadic ℚ (2 ^ j) (e - 30)) : minExp ≤ e - 30 + j := by
  rw [dyadic_two_pow] at hlt
  rw [value_smallest] at hx
  have hexps := (zpow_lt_zpow_iff_right₀ one_lt_two).1 (hx.trans_lt hlt)
  lia

theorem le_maxExp_of_le_abs (hlow : dyadic ℚ (2 ^ 29) (e - 30) ≤ |x|)
    (hx : |x| ≤ value ⟨2 ^ 30 - 1, maxExp⟩) : e ≤ maxExp := by
  have hsame : dyadic ℚ (2 ^ 29) (e - 30) = dyadic ℚ (2 ^ 30) (e - 1 - 30) := by
    rw [dyadic_two_pow, dyadic_two_pow]
    congr 1
    push_cast
    ring
  have hgrow : dyadic ℚ (2 ^ 30 - 1) (e - 1 - 30) < dyadic ℚ (2 ^ 30) (e - 1 - 30) :=
    dyadic_lt_dyadic.2 (by norm_num)
  have hexps : e - 1 - 30 < maxExp - 30 :=
    exponent_lt_of_dyadic_lt (by norm_num) (hgrow.trans_le (hsame ▸ hlow.trans hx))
  lia

/-- A rounded number with a mantissa of 30 or 31 bits is normalized by the carry. -/
theorem normalize_rounded (hlow : 2 ^ 29 ≤ |m|) (hmin : -2 ^ 31 + 2 ≤ m) (hmax : m < 2 ^ 31)
    (he : -2 ^ 31 ≤ e) (hnear : Near m e x) (hx : InRange x)
    (hxlow : dyadic ℚ (2 ^ 29) (e - 30) ≤ |x|) :
    ∃ r, avNormalize1Sf ⟨m, e⟩ = some r ∧ flush r = r ∧ Normalized r ∧
      |value r - x| ≤ 2 * ulp r := by
  have hpos : (0 : ℚ) < |x| := by
    rw [dyadic_two_pow] at hxlow
    exact (unit_pos _).trans_le hxlow
  obtain ⟨hsmall, hlarge⟩ := hx.resolve_left (abs_pos.1 hpos)
  obtain ⟨r, hr⟩ :=
    exists_carried hmin hmax he hnear hlarge fun _ => le_maxExp_of_le_abs hxlow hlarge
  have hunit := unit_pos (K := ℚ) (e - 30)
  have hresult : (2 ^ 29 ≤ |r.mant| ∧ |r.mant| < 2 ^ 30) ∧ minExp ≤ r.exp ∧
      |value r - x| ≤ 2 * ulp r := by
    rcases hr.cases with ⟨hshort, hsame⟩ | ⟨hbits, hshort, hrexp⟩
    · have hunder : |x| < dyadic ℚ (2 ^ 30) (e - 30) :=
        hnear.abs_lt.trans_le (dyadic_le_dyadic.2 (by lia))
      have hminExp := minExp_le_of_abs_lt hsmall hunder
      have herror := hr.near
      push_cast at hminExp
      rw [hsame] at herror ⊢
      refine ⟨⟨hlow, hshort⟩, ?_, herror.le⟩
      show minExp ≤ e
      lia
    · have hlong := abs_le.2 ⟨(by lia : -(2 ^ 31 - 1) ≤ m), (by lia : m ≤ 2 ^ 31 - 1)⟩
      have hunder : |x| < dyadic ℚ (2 ^ 31) (e - 30) :=
        hnear.abs_lt.trans_le (dyadic_le_dyadic.2 (by lia))
      have hminExp := minExp_le_of_abs_lt hsmall hunder
      push_cast at hminExp
      -- the unit has doubled
      have hulp : ulp r = 2 * 2 ^ (e - 30) := by
        rw [ulp, hrexp, show e + 1 - 30 = 1 + (e - 30) by ring, zpow_add₀ two_ne_zero, zpow_one]
      refine ⟨⟨hbits, hshort⟩, by lia, ?_⟩
      rw [hulp]
      linarith [hr.near]
  obtain ⟨hbits, hminExp, herror⟩ := hresult
  have hne : r.mant ≠ 0 := by
    intro hzero
    rw [hzero, abs_zero] at hbits
    lia
  exact ⟨r, hr.run, if_neg (by lia), ⟨Or.inr hbits, hminExp, hr.exp⟩, herror⟩

theorem normalize_zero (he : e ≤ maxExp) :
    ∃ r, avNormalize1Sf ⟨0, e⟩ = some r ∧ flush r = float0 := by
  refine ⟨⟨0, e⟩, ?_, if_pos (Or.inl rfl)⟩
  have hcarry : ¬ toInt32 ((0 : Int) + 0x40000000) ≤ 0 := by decide
  rw [avNormalize1Sf, normalizeCarry, if_neg hcarry]
  simp [he]

theorem Normalized.exp_of_zero (h : Normalized a) (hzero : a.mant = 0) : a.exp = minExp := by
  rcases h.mant with ⟨-, hexp⟩ | ⟨hbits, -⟩
  · exact hexp
  · rw [hzero, abs_zero] at hbits
    lia

theorem Normalized.bits (h : Normalized a) (hne : a.mant ≠ 0) :
    2 ^ 29 ≤ |a.mant| ∧ |a.mant| ≤ 2 ^ 30 - 1 := by
  rcases h.mant with ⟨hzero, -⟩ | ⟨hlow, hhigh⟩
  · exact absurd hzero hne
  · exact ⟨hlow, by lia⟩

/-- The product of two normalized numbers. -/
theorem avMulSf_near (ha : Normalized a) (hb : Normalized b) (hx : InRange (value a * value b)) :
    ∃ r, avMulSf a b = some r ∧ Normalized r ∧ |value r - value a * value b| ≤ 2 * ulp r := by
  have hexps := ha.minExp_le
  have hexps' := ha.le_maxExp
  have hexpb := hb.minExp_le
  have hexpb' := hb.le_maxExp
  have hmin : minExp = -149 := rfl
  have hmax : maxExp = 126 := rfl
  have hsum : intOp (a.exp + b.exp) = some (a.exp + b.exp) := intOp_of_range (by lia) (by lia)
  have hpred : intOp (a.exp + b.exp - 1) = some (a.exp + b.exp - 1) :=
    intOp_of_range (by lia) (by lia)
  have hrun : ∀ {r : SoftFloat}, toInt32 ((a.mant * b.mant) >>> oneBits) =
      (a.mant * b.mant) >>> oneBits →
      avNormalize1Sf ⟨(a.mant * b.mant) >>> oneBits, a.exp + b.exp - 1⟩ = some r →
      avMulSf a b = some (flush r) := by
    intro r hfits hnormalize
    rw [avMulSf, hsum, Option.bind_eq_bind, Option.bind_some]
    dsimp only
    rw [if_neg (not_not.2 hfits), hpred, Option.bind_some, hnormalize]
    rfl
  have hvalue : value a * value b = dyadic ℚ (a.mant * b.mant) (a.exp + b.exp - 60) := by
    rw [value_eq, value_eq, dyadic_mul]
    congr 1
    ring
  by_cases hzero : a.mant * b.mant = 0
  · have hexp : a.exp + b.exp - 1 ≤ maxExp := by
      rcases mul_eq_zero.1 hzero with h | h
      · have hsmallest := ha.exp_of_zero h
        lia
      · have hsmallest := hb.exp_of_zero h
        lia
    obtain ⟨r, hnormalize, hflush⟩ := normalize_zero hexp
    have hshift : (a.mant * b.mant) >>> oneBits = 0 := by rw [hzero]; decide
    refine ⟨float0, ?_, normalized_float0, ?_⟩
    · rw [hrun (by rw [hshift]; decide) (by rw [hshift]; exact hnormalize), hflush]
    · rw [hvalue, hzero, dyadic_zero, value_float0, sub_zero, abs_zero]
      exact mul_nonneg two_pos.le (unit_pos _).le
  · obtain ⟨hane, hbne⟩ := mul_ne_zero_iff.1 hzero
    obtain ⟨halow, hahigh⟩ := ha.bits hane
    obtain ⟨hblow, hbhigh⟩ := hb.bits hbne
    have hlow : (2 : Int) ^ 58 ≤ |a.mant * b.mant| := by
      rw [abs_mul]
      exact mul_le_mul halow hblow (by norm_num) (abs_nonneg _)
    have hhigh : |a.mant * b.mant| ≤ (2 ^ 30 - 1) * (2 ^ 30 - 1) := by
      rw [abs_mul]
      exact mul_le_mul hahigh hbhigh (abs_nonneg _) (by norm_num)
    have hxlow : dyadic ℚ (2 ^ 29) (a.exp + b.exp - 1 - 30) ≤ |value a * value b| := by
      have hsame : dyadic ℚ (2 ^ 29) (a.exp + b.exp - 1 - 30) =
          dyadic ℚ (2 ^ 58) (a.exp + b.exp - 60) := by
        rw [dyadic_two_pow, dyadic_two_pow]
        congr 1
        push_cast
        ring
      rw [hvalue, abs_dyadic, hsame]
      exact dyadic_le_dyadic.2 hlow
    have hnear : Near ((a.mant * b.mant) >>> oneBits) (a.exp + b.exp - 1) (value a * value b) := by
      have hlost := abs_shiftRight_sub (K := ℚ) (a.mant * b.mant) (a.exp + b.exp - 60) oneBits
      have hexp : a.exp + b.exp - 60 + (oneBits : Int) = a.exp + b.exp - 1 - 30 := by
        rw [show (oneBits : Int) = 29 from rfl]
        ring
      rw [hexp, ← hvalue] at hlost
      exact hlost
    have hbits : 2 ^ 29 ≤ |(a.mant * b.mant) >>> oneBits| ∧
        -2 ^ 31 + 2 ≤ (a.mant * b.mant) >>> oneBits ∧ (a.mant * b.mant) >>> oneBits < 2 ^ 31 := by
      rw [le_abs] at hlow
      rw [abs_le] at hhigh
      rw [le_abs, Int.shiftRight_eq_div_pow, show (2 ^ oneBits : Nat) = 536870912 from rfl]
      lia
    obtain ⟨r, hnormalize, hflush, hr, herror⟩ :=
      normalize_rounded hbits.1 hbits.2.1 hbits.2.2 (by lia) hnear hx hxlow
    refine ⟨r, ?_, hr, herror⟩
    rw [hrun (toInt32_eq (by lia) hbits.2.2) hnormalize, hflush]

theorem bounds_tdiv (ha : 2 ^ 29 ≤ |m| ∧ |m| ≤ 2 ^ 30 - 1) (hb : 2 ^ 29 ≤ |n| ∧ |n| ≤ 2 ^ 30 - 1) :
    2 ^ 29 ≤ |(m * 2 ^ 30).tdiv n| ∧ |(m * 2 ^ 30).tdiv n| ≤ 2 ^ 31 - 2 := by
  have habs : |(m * 2 ^ 30).tdiv n| = ((m.natAbs * 2 ^ 30 / n.natAbs : Nat) : Int) := by
    rw [Int.abs_eq_natAbs, Int.natAbs_tdiv, Int.natAbs_mul]
    rfl
  rw [Int.abs_eq_natAbs] at ha hb
  have hpos : 0 < n.natAbs := by lia
  have hlow : 2 ^ 29 ≤ m.natAbs * 2 ^ 30 / n.natAbs := (Nat.le_div_iff_mul_le hpos).2 (by lia)
  have hhigh : m.natAbs * 2 ^ 30 / n.natAbs < 2 ^ 31 - 1 :=
    (Nat.div_lt_iff_lt_mul hpos).2 (by lia)
  rw [habs]
  lia

/-- The quotient of two normalized numbers. -/
theorem avDivSf_near (ha : Normalized a) (hb : Normalized b) (hne : b.mant ≠ 0)
    (hx : InRange (value a / value b)) :
    ∃ r, avDivSf a b = some r ∧ Normalized r ∧ |value r - value a / value b| ≤ 2 * ulp r := by
  have hexpa := ha.minExp_le
  have hexpa' := ha.le_maxExp
  have hexpb := hb.minExp_le
  have hexpb' := hb.le_maxExp
  have hmin : minExp = -149 := rfl
  have hmax : maxExp = 126 := rfl
  have hdiff : intOp (a.exp - b.exp) = some (a.exp - b.exp) := intOp_of_range (by lia) (by lia)
  have hrun : ∀ {r : SoftFloat}, toInt32 ((a.mant * 2 ^ 30).tdiv b.mant) =
      (a.mant * 2 ^ 30).tdiv b.mant →
      avNormalize1Sf ⟨(a.mant * 2 ^ 30).tdiv b.mant, a.exp - b.exp⟩ = some r →
      avDivSf a b = some (flush r) := by
    intro r hfits hnormalize
    have hloop : divLoop 64 ((a.mant * 2 ^ 30).tdiv b.mant) (a.exp - b.exp) =
        some ⟨(a.mant * 2 ^ 30).tdiv b.mant, a.exp - b.exp⟩ := by
      rw [divLoop, if_neg (not_not.2 hfits)]
    rw [avDivSf, if_neg hne, show oneBits + 1 = 30 from rfl, hdiff, Option.bind_eq_bind,
      Option.bind_some, hloop, Option.bind_eq_bind, Option.bind_some, hnormalize]
    rfl
  have hvalue : value a / value b =
      ((a.mant * 2 ^ 30 : Int) : ℚ) / b.mant * 2 ^ (a.exp - b.exp - 30) := by
    have hunits : (2 : ℚ) ^ (a.exp - 30) =
        2 ^ (30 : Nat) * 2 ^ (a.exp - b.exp - 30) * 2 ^ (b.exp - 30) := by
      rw [← zpow_natCast, ← zpow_add₀ two_ne_zero, ← zpow_add₀ two_ne_zero]
      congr 1
      push_cast
      ring
    have hunit := (unit_pos (K := ℚ) (b.exp - 30)).ne'
    have hcast : (b.mant : ℚ) ≠ 0 := Int.cast_ne_zero.2 hne
    rw [value_eq, value_eq, dyadic, dyadic, hunits]
    push_cast
    field_simp
    norm_num
  by_cases hzero : a.mant = 0
  · have hsmallest := ha.exp_of_zero hzero
    obtain ⟨r, hnormalize, hflush⟩ := normalize_zero (e := a.exp - b.exp) (by lia)
    have hquotient : (a.mant * 2 ^ 30).tdiv b.mant = 0 := by rw [hzero, zero_mul, Int.zero_tdiv]
    refine ⟨float0, ?_, normalized_float0, ?_⟩
    · rw [hrun (by rw [hquotient]; decide) (by rw [hquotient]; exact hnormalize), hflush]
    · rw [hvalue, hzero, value_float0]
      simp only [zero_mul, Int.cast_zero, zero_div, sub_zero, abs_zero]
      exact mul_nonneg two_pos.le (unit_pos _).le
  · have hbitsa := ha.bits hzero
    have hbitsb := hb.bits hne
    obtain ⟨hlow, hhigh⟩ := bounds_tdiv hbitsa hbitsb
    rw [abs_le] at hhigh
    have hxlow : dyadic ℚ (2 ^ 29) (a.exp - b.exp - 30) ≤ |value a / value b| := by
      have hpos : (0 : ℚ) < |(b.mant : ℚ)| := abs_pos.2 (Int.cast_ne_zero.2 hne)
      have hcross : (2 : Int) ^ 29 * |b.mant| ≤ |a.mant * 2 ^ 30| := by
        rw [abs_mul, abs_of_pos (show (0 : Int) < 2 ^ 30 by norm_num)]
        lia
      have hratio : ((2 ^ 29 : Int) : ℚ) ≤ |((a.mant * 2 ^ 30 : Int) : ℚ) / b.mant| := by
        rw [abs_div, le_div_iff₀ hpos, ← Int.cast_abs, ← Int.cast_abs, ← Int.cast_mul, Int.cast_le]
        exact hcross
      rw [hvalue, abs_mul, abs_of_pos (unit_pos (K := ℚ) (a.exp - b.exp - 30))]
      exact mul_le_mul_of_nonneg_right hratio (unit_pos _).le
    have hnear : Near ((a.mant * 2 ^ 30).tdiv b.mant) (a.exp - b.exp) (value a / value b) := by
      rw [hvalue]
      exact abs_tdiv_sub (a.mant * 2 ^ 30) (a.exp - b.exp - 30) hne
    obtain ⟨r, hnormalize, hflush, hr, herror⟩ :=
      normalize_rounded hlow (by lia) (by lia) (by lia) hnear hx hxlow
    refine ⟨r, ?_, hr, herror⟩
    rw [hrun (toInt32_eq (by lia) (by lia)) hnormalize, hflush]

/-! ## Sums -/

theorem toUint32_lt_iff (hm : |m| < 2 ^ 30) :
    toUint32 (m + 0x1FFFFFFF) < 0x3FFFFFFF ↔ |m| < 2 ^ 29 := by
  rw [abs_lt] at hm ⊢
  rw [toUint32, BitVec.toNat_ofInt]
  lia

/-- The mantissa is doubled until it has 30 bits, which takes at most as many rounds as there are
bits. -/
theorem normalizeLoop_spec (rounds : Nat) (hbits : 2 ^ 30 ≤ |a.mant| * 2 ^ rounds)
    (hm : |a.mant| < 2 ^ 30) (hexp : -2 ^ 31 + rounds ≤ a.exp) (hexp' : a.exp < 2 ^ 31) :
    ∃ r, normalizeLoop rounds a = some r ∧ (2 ^ 29 ≤ |r.mant| ∧ |r.mant| < 2 ^ 30) ∧
      value r = value a ∧ r.exp ≤ a.exp := by
  induction rounds generalizing a with
  | zero => lia
  | succ rounds ih =>
    unfold normalizeLoop
    by_cases hsmall : |a.mant| < 2 ^ 29
    · have hdouble : |a.mant + a.mant| = 2 * |a.mant| := by
        rw [← two_mul, abs_mul, abs_two]
      have hmant : intOp (a.mant + a.mant) = some (a.mant + a.mant) := by
        rw [abs_lt] at hsmall
        exact intOp_of_range (by lia) (by lia)
      have hnext : intOp (a.exp - 1) = some (a.exp - 1) := by
        push_cast at hexp
        exact intOp_of_range (by lia) (by lia)
      have hbits' : 2 ^ 30 ≤ |a.mant + a.mant| * 2 ^ rounds := by
        rw [pow_succ (2 : Int) rounds] at hbits
        rw [hdouble]
        linarith
      obtain ⟨r, hrun, hr, hvalue, hle⟩ := ih (a := ⟨a.mant + a.mant, a.exp - 1⟩) hbits'
        (by rw [hdouble]; lia) (by push_cast at hexp ⊢; lia) (by show a.exp - 1 < _; lia)
      refine ⟨r, ?_, hr, ?_, hle.trans (by show a.exp - 1 ≤ _; lia)⟩
      · rw [if_pos ((toUint32_lt_iff hm).2 hsmall), hmant, Option.bind_eq_bind, Option.bind_some,
          hnext, Option.bind_some]
        exact hrun
      · have hshift := dyadic_shift (K := ℚ) a.mant (a.exp - 1 - 30) 1
        rw [hvalue, value_eq, value_eq, ← mul_two]
        rw [pow_one] at hshift
        rw [hshift]
        congr 1
        push_cast
        ring
    · exact ⟨a, if_neg (fun h => hsmall ((toUint32_lt_iff hm).1 h)), ⟨le_of_not_gt hsmall, hm⟩, rfl,
        le_refl _⟩

theorem avNormalizeSf_spec (hm : |a.mant| < 2 ^ 30) (hexp : -2 ^ 30 ≤ a.exp)
    (hexp' : a.exp ≤ maxExp)
    (hlow : a.mant ≠ 0 → value ⟨2 ^ 29, minExp⟩ ≤ |value a|) :
    ∃ r, avNormalizeSf a = some r ∧ Normalized r ∧ value r = value a := by
  have hmax : maxExp = 126 := rfl
  unfold avNormalizeSf
  by_cases hzero : a.mant = 0
  · refine ⟨⟨0, minExp⟩, ?_, normalized_float0, ?_⟩
    · rw [if_neg (not_not.2 hzero), hzero]
    · rw [value_eq a, hzero, dyadic_zero]
      exact value_float0
  · have hpos : 0 < |a.mant| := abs_pos.2 hzero
    obtain ⟨r, hrun, hr, hvalue, hle⟩ :=
      normalizeLoop_spec (a := a) 32 (by lia) hm (by push_cast; lia) (by lia)
    have hnot : ¬ r.exp < minExp := by
      have hunder : |value a| < dyadic ℚ (2 ^ 30) (r.exp - 30) := by
        rw [← hvalue, value_eq, abs_dyadic]
        exact dyadic_lt_dyadic.2 hr.2
      have hminExp := minExp_le_of_abs_lt (hlow hzero) hunder
      push_cast at hminExp
      lia
    refine ⟨r, ?_, ⟨Or.inr hr, by lia, by lia⟩, hvalue⟩
    rw [if_pos hzero, hrun, Option.bind_eq_bind, Option.bind_some, if_neg hnot]

theorem smallest_le_abs (hbits : 2 ^ 29 ≤ |a.mant|) (hexp : minExp ≤ a.exp) :
    value ⟨2 ^ 29, minExp⟩ ≤ |value a| := by
  have hunits : dyadic ℚ (2 ^ 29) (minExp - 30) ≤ dyadic ℚ (2 ^ 29) (a.exp - 30) := by
    rw [dyadic_two_pow, dyadic_two_pow]
    exact zpow_le_zpow_right₀ one_le_two (by lia)
  rw [value_eq a, abs_dyadic]
  exact hunits.trans (dyadic_le_dyadic.2 hbits)

theorem smallest_le_of_floor (hne : m ≠ 0) (hle : dyadic ℚ m (e - 30) ≤ x)
    (hlt : x < dyadic ℚ (m + 1) (e - 30)) (hx : InRange x) :
    value ⟨2 ^ 29, minExp⟩ ≤ |dyadic ℚ m (e - 30)| := by
  have hzero := dyadic_zero (K := ℚ) (e - 30)
  rcases hx with rfl | ⟨hsmall, -⟩
  · -- zero is a mantissa itself
    have hm : m ≤ 0 := dyadic_le_dyadic.1 (hle.trans_eq hzero.symm)
    have hm' : 0 < m + 1 := dyadic_lt_dyadic.1 (hzero.trans_lt hlt)
    lia
  · rcases lt_or_ge x 0 with hneg | hnonneg
    · rw [abs_of_neg hneg] at hsmall
      rw [abs_of_neg (hle.trans_lt hneg)]
      linarith
    · rw [abs_of_nonneg hnonneg] at hsmall
      have hm : 0 < m + 1 := dyadic_lt_dyadic.1 ((hzero.trans_le hnonneg).trans_lt hlt)
      rw [value_smallest] at hsmall ⊢
      exact (two_pow_le_dyadic (by lia) hsmall hlt).trans (le_abs_self _)

theorem InRange.le_largest (hx : InRange x) : |x| ≤ value ⟨2 ^ 30 - 1, maxExp⟩ := by
  rcases hx with rfl | ⟨-, hlarge⟩
  · rw [abs_zero, value_eq, ← dyadic_zero (K := ℚ) (maxExp - 30)]
    exact dyadic_le_dyadic.2 (by norm_num)
  · exact hlarge

/-- The sum of two normalized numbers whose exponents are near enough. -/
theorem addAligned_near (ha : Normalized a) (hb : Normalized b) (h : a.exp = b.exp + k)
    (hx : InRange (value a + value b)) :
    ∃ r, addAligned a.mant (b.mant >>> k) a.exp = some r ∧ Normalized r ∧
      |value r - (value a + value b)| ≤ 2 * ulp a := by
  have hexp := ha.minExp_le
  have hexp' := ha.le_maxExp
  have hmin : minExp = -149 := rfl
  have hmant := bounds_shiftRight ha.mant 0
  have hshift := bounds_shiftRight hb.mant k
  rw [Int.shiftRight_zero] at hmant
  obtain ⟨m, hm⟩ : ∃ m, m = a.mant + b.mant >>> k := ⟨_, rfl⟩
  have hop : intOp m = some m := intOp_of_range (by lia) (by lia)
  have hunits : b.exp - 30 + (k : Int) = a.exp - 30 := by lia
  -- the mantissa is the sum, rounded down
  have hle : dyadic ℚ m (a.exp - 30) ≤ value a + value b := by
    have hfloor := dyadic_shiftRight_le (K := ℚ) b.mant (b.exp - 30) k
    rw [hunits] at hfloor
    rw [hm, dyadic_add, value_eq, value_eq]
    linarith
  have hlt : value a + value b < dyadic ℚ (m + 1) (a.exp - 30) := by
    have hfloor := dyadic_lt_shiftRight (K := ℚ) b.mant (b.exp - 30) k
    rw [hunits] at hfloor
    rw [hm, Int.add_assoc, dyadic_add, value_eq, value_eq]
    linarith
  have hnear : Near m a.exp (value a + value b) := by
    have hunit := unit_pos (K := ℚ) (a.exp - 30)
    rw [dyadic_add, dyadic_one] at hlt
    unfold Near
    rw [abs_lt]
    constructor
    · linarith
    · linarith
  obtain ⟨s, hs⟩ := exists_carried (by lia) (by lia) (by lia) hnear hx.le_largest
    fun _ => hexp'
  have hsexp := hs.exp
  have hbounds : |s.mant| < 2 ^ 30 ∧ -2 ^ 30 ≤ s.exp ∧
      (s.mant ≠ 0 → value ⟨2 ^ 29, minExp⟩ ≤ |value s|) := by
    rcases hs.cases with ⟨hshort, rfl⟩ | ⟨hbits, hshort, hsucc⟩
    · exact ⟨hshort, by show -2 ^ 30 ≤ a.exp; lia, fun hne => smallest_le_of_floor hne hle hlt hx⟩
    · exact ⟨hshort, by lia, fun _ => smallest_le_abs hbits (by lia)⟩
  obtain ⟨r, hrun, hr, hvalue⟩ := avNormalizeSf_spec hbounds.1 hbounds.2.1 hsexp hbounds.2.2
  refine ⟨r, ?_, hr, ?_⟩
  · rw [addAligned, ← hm, hop, Option.bind_eq_bind, Option.bind_some, hs.run, Option.bind_eq_bind,
      Option.bind_some]
    exact hrun
  · rw [hvalue]
    exact hs.near.le

theorem far_near (hb : Normalized b) (hk : 32 ≤ k) (h : a.exp = b.exp + k) :
    |value a - (value a + value b)| ≤ 2 * ulp a := by
  have hsmall : |value b| < dyadic ℚ (2 ^ 30) (b.exp - 30) := by
    have hbits := bounds_shiftRight hb.mant 0
    rw [Int.shiftRight_zero] at hbits
    rw [value_eq, abs_dyadic, dyadic_lt_dyadic, abs_lt]
    exact hbits
  rw [dyadic_two_pow] at hsmall
  have hunits : (2 : ℚ) ^ (b.exp - 30 + ((30 : Nat) : Int)) ≤ ulp a :=
    zpow_le_zpow_right₀ one_le_two (by push_cast; lia)
  rw [sub_add_cancel_left, abs_neg]
  linarith [show (0 : ℚ) < ulp a from unit_pos (a.exp - 30)]

/-- The sum of two normalized numbers. -/
theorem avAddSf_near (ha : Normalized a) (hb : Normalized b) (hx : InRange (value a + value b)) :
    ∃ r, avAddSf a b = some r ∧ Normalized r ∧
      |value r - (value a + value b)| ≤ 2 * max (ulp a) (ulp b) := by
  have hexpa := ha.minExp_le
  have hexpa' := ha.le_maxExp
  have hexpb := hb.minExp_le
  have hexpb' := hb.le_maxExp
  have hmin : minExp = -149 := rfl
  have hmax : maxExp = 126 := rfl
  have hdiff : intOp (a.exp - b.exp) = some (a.exp - b.exp) := intOp_of_range (by lia) (by lia)
  have hweak : ∀ {c r : SoftFloat} {x : ℚ}, ulp c ≤ max (ulp a) (ulp b) →
      |value r - x| ≤ 2 * ulp c → |value r - x| ≤ 2 * max (ulp a) (ulp b) := fun hc hr => by
    linarith
  have hleft : ulp a ≤ max (ulp a) (ulp b) := le_max_left _ _
  have hright : ulp b ≤ max (ulp a) (ulp b) := le_max_right _ _
  rw [avAddSf, hdiff, Option.bind_eq_bind, Option.bind_some]
  rcases lt_or_ge a.exp b.exp with hlt | hge
  · obtain ⟨k, hk⟩ : ∃ k : Nat, b.exp = a.exp + k := ⟨(b.exp - a.exp).toNat, by lia⟩
    have hnat : (-(a.exp - b.exp)).toNat = k := by lia
    rw [hnat]
    rw [add_comm (value a)] at hx ⊢
    rcases Nat.lt_or_ge k 32 with hnear | hfar
    · obtain ⟨r, hrun, hr, herror⟩ := addAligned_near hb ha hk hx
      rw [if_neg (by lia), if_pos (by lia)]
      exact ⟨r, hrun, hr, hweak hright herror⟩
    · rw [if_pos (by lia)]
      exact ⟨b, rfl, hb, hweak hright (far_near ha hfar hk)⟩
  · obtain ⟨k, hk⟩ : ∃ k : Nat, a.exp = b.exp + k := ⟨(a.exp - b.exp).toNat, by lia⟩
    have hnat : (a.exp - b.exp).toNat = k := by lia
    rw [hnat, if_neg (by lia), if_neg (by lia)]
    rcases Nat.lt_or_ge k 32 with hnear | hfar
    · obtain ⟨r, hrun, hr, herror⟩ := addAligned_near ha hb hk hx
      rw [if_pos (by lia)]
      exact ⟨r, hrun, hr, hweak hleft herror⟩
    · rw [if_neg (by lia)]
      exact ⟨a, rfl, ha, hweak hleft (far_near hb hfar hk)⟩

theorem avSubSf_near (ha : Normalized a) (hb : Normalized b) (hx : InRange (value a - value b)) :
    ∃ r, avSubSf a b = some r ∧ Normalized r ∧
      |value r - (value a - value b)| ≤ 2 * max (ulp a) (ulp b) := by
  have hneg : Normalized ⟨-b.mant, b.exp⟩ := by
    refine ⟨?_, hb.minExp_le, hb.le_maxExp⟩
    rcases hb.mant with ⟨hzero, hexp⟩ | hbits
    · exact Or.inl ⟨neg_eq_zero.2 hzero, hexp⟩
    · rw [← abs_neg] at hbits
      exact Or.inr hbits
  have hbits := bounds_shiftRight hb.mant 0
  rw [Int.shiftRight_zero] at hbits
  have hop : intOp (-b.mant) = some (-b.mant) := intOp_of_range (by lia) (by lia)
  have hvalue : value a - value b = value a + value ⟨-b.mant, b.exp⟩ := by
    rw [value_eq b, value_eq ⟨-b.mant, b.exp⟩, dyadic_neg, sub_eq_add_neg]
  rw [hvalue] at hx ⊢
  rw [avSubSf, hop, Option.bind_eq_bind, Option.bind_some]
  exact avAddSf_near ha hneg hx

/-- The results of the arithmetic on normalized numbers that lie in the range of these are
normalized again, no operation overflows and no assertion fails, and a result is off by at most two
units in the last place: of itself for a product or a quotient, and of the larger operand for a sum
or a difference. -/
theorem softFloat_arithmetic (ha : Normalized a) (hb : Normalized b) :
    (InRange (value a * value b) → ∃ r, avMulSf a b = some r ∧ Normalized r ∧
      |value r - value a * value b| ≤ 2 * ulp r) ∧
    (b.mant ≠ 0 → InRange (value a / value b) → ∃ r, avDivSf a b = some r ∧ Normalized r ∧
      |value r - value a / value b| ≤ 2 * ulp r) ∧
    (InRange (value a + value b) → ∃ r, avAddSf a b = some r ∧ Normalized r ∧
      |value r - (value a + value b)| ≤ 2 * max (ulp a) (ulp b)) ∧
    (InRange (value a - value b) → ∃ r, avSubSf a b = some r ∧ Normalized r ∧
      |value r - (value a - value b)| ≤ 2 * max (ulp a) (ulp b)) := by
  refine ⟨?_, ?_, ?_, ?_⟩
  · intro hx
    exact avMulSf_near ha hb hx
  · intro hne hx
    exact avDivSf_near ha hb hne hx
  · intro hx
    exact avAddSf_near ha hb hx
  · intro hx
    exact avSubSf_near ha hb hx

/-- Two and one. -/
theorem softFloat_arithmetic_two_one :
    (∃ r, avMulSf ⟨2 ^ 29, 2⟩ ⟨2 ^ 29, 1⟩ = some r ∧ Normalized r) ∧
      (∃ r, avDivSf ⟨2 ^ 29, 2⟩ ⟨2 ^ 29, 1⟩ = some r ∧ Normalized r) ∧
      (∃ r, avAddSf ⟨2 ^ 29, 2⟩ ⟨2 ^ 29, 1⟩ = some r ∧ Normalized r) ∧
      (∃ r, avSubSf ⟨2 ^ 29, 2⟩ ⟨2 ^ 29, 1⟩ = some r ∧ Normalized r) := by
  have hbits : (2 : Int) ^ 29 ≤ |2 ^ 29| ∧ |(2 : Int) ^ 29| < 2 ^ 30 := by decide
  have hnormalized : ∀ e : Int, minExp ≤ e → e ≤ maxExp → Normalized ⟨2 ^ 29, e⟩ :=
    fun e hmin hmax => ⟨Or.inr hbits, hmin, hmax⟩
  have htwo : value ⟨2 ^ 29, 2⟩ = 2 := by norm_num [value, dyadic, oneBits]
  have hone : value ⟨2 ^ 29, 1⟩ = 1 := by norm_num [value, dyadic, oneBits]
  have hrange : ∀ x : ℚ, 1 ≤ x → x ≤ 3 → InRange x := by
    intro x hlow hhigh
    rw [InRange, abs_of_nonneg (by linarith)]
    refine Or.inr ⟨le_trans ?_ hlow, le_trans hhigh ?_⟩
    · norm_num [value, dyadic, oneBits, minExp]
    · norm_num [value, dyadic, oneBits, maxExp]
  obtain ⟨hmul, hdiv, hadd, hsub⟩ :=
    softFloat_arithmetic (hnormalized 2 (by decide) (by decide))
      (hnormalized 1 (by decide) (by decide))
  rw [htwo, hone] at hmul hdiv hadd hsub
  obtain ⟨r, hr⟩ := hmul (hrange _ (by norm_num) (by norm_num))
  obtain ⟨s, hs⟩ := hdiv (by decide) (hrange _ (by norm_num) (by norm_num))
  obtain ⟨t, ht⟩ := hadd (hrange _ (by norm_num) (by norm_num))
  obtain ⟨u, hu⟩ := hsub (hrange _ (by norm_num) (by norm_num))
  exact ⟨⟨r, hr.1, hr.2.1⟩, ⟨s, hs.1, hs.2.1⟩, ⟨t, ht.1, ht.2.1⟩, ⟨u, hu.1, hu.2.1⟩⟩

end FFmpeg.Libavutil.Softfloat
