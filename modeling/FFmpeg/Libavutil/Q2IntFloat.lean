import FFmpeg.Common.Binary32
import FFmpeg.Libavutil.Times

/-!
# Fractions as single precision numbers

`av_q2intfloat` estimates the exponent from the logarithms of the numerator and the denominator and
corrects it by one after a first rounding of the significand.
-/

namespace FFmpeg.Libavutil

open Common.Binary32

/-- The significand for a shift: `num / den * 2 ^ shift`, rounded. -/
def scaledSignificand (num den shift : Int) : Int :=
  if 0 ≤ shift then avRescale num (2 ^ shift.toNat) den
  else avRescale num 1 (den * 2 ^ (-shift).toNat)

/-- The shift after the first rounding. -/
def correctedShift (num den : Int) : Int :=
  let shift : Int := 23 + Nat.log2 den.toNat - Nat.log2 num.toNat
  let n := scaledSignificand num den shift
  let shift := shift - if 2 ^ 24 ≤ n then 1 else 0
  shift + if n < 2 ^ 23 then 1 else 0

/-- `av_q2intfloat`; `av_log2` is `Nat.log2`. -/
def avQ2intfloat (q : AVRational) : UInt32 :=
  let q : AVRational := if q.den < 0 then ⟨-q.num, -q.den⟩ else q
  let sign : UInt32 := if q.num < 0 then 1 else 0
  let q : AVRational := if q.num < 0 then ⟨-q.num, q.den⟩ else q
  if q.num = 0 ∧ q.den = 0 then 0xFFC00000
  else if q.num = 0 then 0
  else if q.den = 0 then 0x7F800000 ||| (UInt32.ofInt q.num &&& 0x80000000)
  else
    let shift := correctedShift q.num q.den
    let n := scaledSignificand q.num q.den shift
    sign <<< 31 ||| UInt32.ofInt (150 - shift) <<< 23 ||| UInt32.ofInt (n - 2 ^ 23)

example : avQ2intfloat ⟨-1, 3⟩ = 0xBEAAAAAB := by decide +kernel

/-! ## What is computed -/

/-- The estimated exponent: the value lies between its half and its double power of two. -/
def estimate (q : AVRational) : Int := Nat.log2 q.num.natAbs - Nat.log2 q.den.natAbs

/-- The value is just below the power of two that is estimated, nearer to the half step there than
to the power. -/
def JustBelow (q : AVRational) : Prop :=
  (1 - 1 / 2 ^ 24) * 2 ^ estimate q ≤ |q.value| ∧ |q.value| < (1 - 1 / 2 ^ 25) * 2 ^ estimate q

/-- What is promised of `av_q2intfloat`. -/
structure RoundsCorrectly (q : AVRational) : Prop where
  nearest : q.den ≠ 0 → q.num ≠ 0 →
    Common.Binary32.Nearest (avQ2intfloat q) q.value ∧ SameSign (avQ2intfloat q) q.value
  infinite : q.den = 0 → avQ2intfloat q = if q.num < 0 then 0xFF800000 else 0x7F800000
  opposite : q.num ≠ 0 → avQ2intfloat ⟨-q.num, q.den⟩ = avQ2intfloat q ^^^ 0x80000000

variable {q : AVRational} {num den shift n : Int}

/-- The scaled number. -/
def scaled (num den shift : Int) : ℚ := (num : ℚ) / den * 2 ^ shift

/-- The scaled significand is the rounded number. -/
theorem scaledSignificand_eq (hnum : 0 < num) (hnum' : num ≤ intMax) (hden : 0 < den)
    (hden' : den ≤ intMax) (hlo : -8 ≤ shift) (hhi : shift ≤ 54)
    (hv : scaled num den shift < 2 ^ 24) :
    scaledSignificand num den shift = ⌊scaled num den shift + 1 / 2⌋ := by
  have hnum64 : num ≤ int64Max := hnum'.trans (by decide)
  have hmin : int64Min < num := lt_trans (by decide) hnum
  have hpos : 0 ≤ scaled num den shift := by
    unfold scaled
    positivity
  have hfits : IsInt64 ⌊scaled num den shift + 1 / 2⌋ := by
    have hle : ⌊scaled num den shift + 1 / 2⌋ ≤ 2 ^ 24 := by
      rw [← Int.lt_add_one_iff, Int.floor_lt]
      push_cast
      linarith
    have hge : 0 ≤ ⌊scaled num den shift + 1 / 2⌋ := Int.floor_nonneg.2 (by linarith)
    exact ⟨le_trans (by decide) hge, hle.trans (by decide)⟩
  have hround : ∀ x : ℚ, x = scaled num den shift →
      saturate (AVRounding.nearInf.round x) = ⌊scaled num den shift + 1 / 2⌋ := by
    rintro x rfl
    rw [AVRounding.round, if_pos hpos, saturate_of_isInt64 hfits]
  unfold scaledSignificand avRescale
  split
  · rename_i hshift
    obtain ⟨j, rfl⟩ := Int.eq_ofNat_of_zero_le hshift
    have hpow : (2 : Int) ^ j ≤ 2 ^ 54 := pow_le_pow_right₀ (by norm_num) (by lia)
    rw [Int.toNat_natCast, avRescaleRnd_eq hmin hnum64 (by positivity)
      (hpow.trans (by decide)) hden (hden'.trans (by decide)) .nearInf false (by simp)]
    refine hround _ ?_
    rw [scaled, zpow_natCast]
    push_cast
    ring
  · rename_i hshift
    obtain ⟨j, rfl⟩ : ∃ j : Nat, shift = -j := ⟨(-shift).toNat, by lia⟩
    have hpow : (2 : Int) ^ j ≤ 2 ^ 8 := pow_le_pow_right₀ (by norm_num) (by lia)
    have hprod : den * 2 ^ j ≤ int64Max :=
      (mul_le_mul hden' hpow (by positivity) (by decide)).trans (by decide)
    rw [neg_neg, Int.toNat_natCast, avRescaleRnd_eq hmin hnum64 (by decide) (by decide)
      (by positivity) hprod .nearInf false (by simp)]
    refine hround _ ?_
    rw [scaled, zpow_neg, zpow_natCast]
    push_cast
    field_simp

/-- The logarithms give the exponent up to one. -/
theorem scaled_log2 {a b : Nat} (ha : a ≠ 0) (hb : b ≠ 0) :
    (2 : ℚ) ^ 22 < scaled a b (23 + Nat.log2 b - Nat.log2 a) ∧
      scaled a b (23 + Nat.log2 b - Nat.log2 a) < 2 ^ 24 := by
  have ha1 : (2 ^ Nat.log2 a : ℚ) ≤ a := by exact_mod_cast Nat.log2_self_le ha
  have ha2 : (a : ℚ) < 2 ^ (Nat.log2 a + 1) := by exact_mod_cast Nat.lt_log2_self
  have hb1 : (2 ^ Nat.log2 b : ℚ) ≤ b := by exact_mod_cast Nat.log2_self_le hb
  have hb2 : (b : ℚ) < 2 ^ (Nat.log2 b + 1) := by exact_mod_cast Nat.lt_log2_self
  have hbpos : (0 : ℚ) < b := by exact_mod_cast Nat.pos_of_ne_zero hb
  have heq : scaled a b (23 + Nat.log2 b - Nat.log2 a) =
      (2 ^ 23 * (a * 2 ^ Nat.log2 b)) / (b * 2 ^ Nat.log2 a) := by
    rw [scaled, zpow_sub₀ two_ne_zero, zpow_add₀ two_ne_zero, zpow_natCast, zpow_natCast]
    push_cast
    field_simp
    norm_num
  rw [pow_succ] at ha2 hb2
  rw [heq]
  have hpa : (0 : ℚ) < 2 ^ Nat.log2 a := by positivity
  have hpb : (0 : ℚ) < 2 ^ Nat.log2 b := by positivity
  constructor
  · rw [lt_div_iff₀ (by positivity)]
    have hlow := mul_lt_mul_of_pos_right hb2 hpa
    have hhigh := mul_le_mul_of_nonneg_right ha1 hpb.le
    linarith
  · rw [div_lt_iff₀ (by positivity)]
    have hlow := mul_lt_mul_of_pos_right ha2 hpb
    have hhigh := mul_le_mul_of_nonneg_right hb1 hpa.le
    linarith

/-- The shift and the significand that are used in the end. -/
structure Corrected (num den first shift : Int) : Prop where
  shift_ge : -8 ≤ shift
  shift_le : shift ≤ 54
  significand : scaledSignificand num den shift = ⌊scaled num den shift + 1 / 2⌋
  lower : (2 ^ 23 : ℚ) - 1 / 2 ≤ scaled num den shift
  upper : scaled num den shift < 2 ^ 24 - 1 / 2
  /-- the numbers that are rounded twice -/
  below : scaled num den shift < 2 ^ 23 - 1 / 4 ↔
    (2 ^ 23 : ℚ) - 1 / 2 ≤ scaled num den first ∧ scaled num den first < 2 ^ 23 - 1 / 4

/-- The assertions of the code hold, and only numbers just below a power of two are rounded at the
wrong step. -/
theorem correctedShift_spec (hnum : 0 < num) (hnum' : num ≤ intMax) (hden : 0 < den)
    (hden' : den ≤ intMax) :
    Corrected num den (23 + Nat.log2 den.toNat - Nat.log2 num.toNat) (correctedShift num den) := by
  have hlog : ∀ c : Int, 0 < c → c ≤ intMax → Nat.log2 c.toNat < 31 := by
    intro c hpos hmax
    rw [Nat.log2_lt (by lia)]
    unfold intMax at hmax
    lia
  have hlogNum := hlog num hnum hnum'
  have hlogDen := hlog den hden hden'
  obtain ⟨hlow, hhigh⟩ := scaled_log2 (a := num.toNat) (b := den.toNat) (by lia) (by lia)
  rw [Int.toNat_of_nonneg hnum.le, Int.toNat_of_nonneg hden.le] at hlow hhigh
  have hdouble : ∀ s : Int, scaled num den (s + 1) = 2 * scaled num den s := by
    intro s
    rw [scaled, scaled, zpow_add_one₀ two_ne_zero]
    ring
  unfold correctedShift
  dsimp only
  generalize hs : (23 + Nat.log2 den.toNat - Nat.log2 num.toNat : Int) = s at hlow hhigh ⊢
  have hfirst := scaledSignificand_eq hnum hnum' hden hden' (show -8 ≤ s by lia)
    (show s ≤ 54 by lia) hhigh
  have hlarge : 2 ^ 24 ≤ scaledSignificand num den s ↔ (2 ^ 24 : ℚ) - 1 / 2 ≤ scaled num den s := by
    rw [hfirst, Int.le_floor]
    push_cast
    constructor <;> intro h <;> linarith
  have hsmall : scaledSignificand num den s < 2 ^ 23 ↔ scaled num den s < (2 ^ 23 : ℚ) - 1 / 2 := by
    rw [hfirst, Int.floor_lt]
    push_cast
    constructor <;> intro h <;> linarith
  by_cases hup : (2 ^ 24 : ℚ) - 1 / 2 ≤ scaled num den s
  · -- the significand would be `2 ^ 24`
    have hnot : ¬ scaledSignificand num den s < 2 ^ 23 := by
      rw [hsmall]
      linarith
    have hhalf := hdouble (s - 1)
    rw [sub_add_cancel] at hhalf
    rw [if_pos (hlarge.2 hup), if_neg hnot, add_zero]
    refine ⟨by lia, by lia, ?_, by linarith, by linarith, ?_⟩
    · exact scaledSignificand_eq hnum hnum' hden hden' (by lia) (by lia) (by linarith)
    · constructor
      · intro h
        linarith
      · rintro ⟨-, h⟩
        linarith
  · rw [if_neg (fun h => hup (hlarge.1 h)), sub_zero]
    by_cases hdown : scaled num den s < (2 ^ 23 : ℚ) - 1 / 2
    · have hhalf := hdouble s
      rw [if_pos (hsmall.2 hdown)]
      have hle : s ≤ 53 := by lia
      refine ⟨by lia, by lia, ?_, by linarith, by linarith, ?_⟩
      · exact scaledSignificand_eq hnum hnum' hden hden' (by lia) (by lia) (by linarith)
      · constructor
        · intro h
          linarith
        · rintro ⟨h, -⟩
          linarith
    · rw [if_neg (fun h => hdown (hsmall.1 h)), add_zero]
      refine ⟨by lia, by lia, hfirst, by linarith, by linarith, ?_⟩
      constructor
      · intro h
        exact ⟨not_lt.1 hdown, h⟩
      · exact And.right

/-! ## The pattern -/

theorem pattern_eq (s : Bool) {e f : Int} (he : 0 ≤ e) (he' : e < 2 ^ 8) (hf : 0 ≤ f)
    (hf' : f < 2 ^ 23) :
    (if s then 1 else 0 : UInt32) <<< 31 ||| UInt32.ofInt e <<< 23 ||| UInt32.ofInt f =
      pack s e.toNat f.toNat := by
  obtain ⟨e, rfl⟩ := Int.eq_ofNat_of_zero_le he
  obtain ⟨f, rfl⟩ := Int.eq_ofNat_of_zero_le hf
  have hofInt : ∀ n : Nat, n < 2 ^ 32 → (UInt32.ofInt n).toNat = n := by
    intro n hn
    rw [UInt32.ofInt, UInt32.toNat_ofNat']
    lia
  have hsign : (if s then 1 else 0 : UInt32).toNat = s.toNat := by cases s <;> rfl
  have hs := Bool.toNat_lt s
  rw [← UInt32.toNat_inj, UInt32.toNat_or, UInt32.toNat_or, UInt32.toNat_shiftLeft,
    UInt32.toNat_shiftLeft, hsign, hofInt e (by lia), hofInt f (by lia), Int.toNat_natCast,
    Int.toNat_natCast, toNat_pack (by lia) (by lia)]
  show s.toNat <<< 31 % 2 ^ 32 ||| e <<< 23 % 2 ^ 32 ||| f = _
  have hexp : e <<< 23 < 2 ^ 31 := by
    rw [Nat.shiftLeft_eq]
    lia
  rw [Nat.mod_eq_of_lt (by rw [Nat.shiftLeft_eq]; lia), Nat.mod_eq_of_lt (by lia),
    ← Nat.shiftLeft_add_eq_or_of_lt hexp]
  rw [show s.toNat <<< 31 + e <<< 23 = (s.toNat * 2 ^ 8 + e) <<< 23 by
      rw [Nat.shiftLeft_eq, Nat.shiftLeft_eq, Nat.shiftLeft_eq]; lia,
    ← Nat.shiftLeft_add_eq_or_of_lt (by lia), Nat.shiftLeft_eq]
  lia

/-- The pattern for the sign `s`, of positive numbers. -/
def packed (s : Bool) (num den : Int) : UInt32 :=
  pack s (150 - correctedShift num den).toNat
    (⌊scaled num den (correctedShift num den) + 1 / 2⌋ - 2 ^ 23).toNat

theorem Corrected.floor_bounds {first : Int} (h : Corrected num den first shift) :
    2 ^ 23 ≤ ⌊scaled num den shift + 1 / 2⌋ ∧ ⌊scaled num den shift + 1 / 2⌋ < 2 ^ 24 := by
  have hlower := h.lower
  have hupper := h.upper
  constructor
  · rw [Int.le_floor]
    push_cast
    linarith
  · rw [Int.floor_lt]
    push_cast
    linarith

theorem finite_eq (s : Bool) (hnum : 0 < num) (hnum' : num ≤ intMax) (hden : 0 < den)
    (hden' : den ≤ intMax) :
    (if s then 1 else 0 : UInt32) <<< 31 ||| UInt32.ofInt (150 - correctedShift num den) <<< 23 |||
      UInt32.ofInt (scaledSignificand num den (correctedShift num den) - 2 ^ 23) =
        packed s num den := by
  have h := correctedShift_spec hnum hnum' hden hden'
  have hge := h.shift_ge
  have hle := h.shift_le
  obtain ⟨hlow, hhigh⟩ := h.floor_bounds
  rw [h.significand]
  exact pattern_eq s (by lia) (by lia) (by lia) (by lia)

theorem avQ2intfloat_of_den_neg (hden : den < 0) :
    avQ2intfloat ⟨num, den⟩ = avQ2intfloat ⟨-num, -den⟩ := by
  unfold avQ2intfloat
  dsimp only
  rw [if_pos hden, if_neg (show ¬ -den < 0 by lia)]

theorem avQ2intfloat_of_den_pos (hnum : |num| ≤ intMax) (hnum0 : num ≠ 0) (hden : 0 < den)
    (hden' : den ≤ intMax) :
    avQ2intfloat ⟨num, den⟩ = packed (decide (num < 0)) |num| den := by
  have habs : 0 < |num| := abs_pos.2 hnum0
  rw [← finite_eq _ habs hnum hden hden']
  unfold avQ2intfloat
  dsimp only
  rw [if_neg hden.not_gt]
  dsimp only
  rcases lt_or_gt_of_ne hnum0 with hneg | hpos
  · rw [if_pos hneg, if_pos hneg]
    dsimp only
    rw [if_neg (fun h => hden.ne' h.2), if_neg (by lia), if_neg hden.ne', abs_of_neg hneg,
      decide_eq_true hneg, if_pos rfl]
  · rw [if_neg hpos.not_gt, if_neg hpos.not_gt]
    dsimp only
    rw [if_neg (fun h => hden.ne' h.2), if_neg hnum0, if_neg hden.ne', abs_of_pos hpos,
      decide_eq_false hpos.not_gt]
    rfl

/-- What is computed for a denominator other than zero. -/
theorem avQ2intfloat_eq (hnum : |q.num| ≤ intMax) (hden : |q.den| ≤ intMax) (hnum0 : q.num ≠ 0)
    (hden0 : q.den ≠ 0) :
    avQ2intfloat q = packed (decide (q.value < 0)) |q.num| |q.den| := by
  obtain ⟨num, den⟩ := q
  dsimp only at *
  have hvalue : ∀ n d : Int, 0 < d → (AVRational.value ⟨n, d⟩ < 0 ↔ n < 0) := by
    intro n d hd
    have hdq : (0 : ℚ) < d := by exact_mod_cast hd
    rw [AVRational.value, div_neg_iff]
    simp [hd, hd.not_gt]
  rcases lt_or_gt_of_ne hden0 with hneg | hpos
  · have hflip : AVRational.value ⟨num, den⟩ = AVRational.value ⟨-num, -den⟩ := by
      rw [AVRational.value, AVRational.value]
      push_cast
      rw [neg_div_neg_eq]
    rw [avQ2intfloat_of_den_neg hneg, avQ2intfloat_of_den_pos (by rwa [abs_neg]) (by lia)
      (by lia) (by rwa [← abs_of_neg hneg]), abs_neg, abs_of_neg hneg, hflip]
    simp only [hvalue (-num) (-den) (by lia)]
  · rw [avQ2intfloat_of_den_pos hnum hnum0 hpos (by rwa [← abs_of_pos hpos]), abs_of_pos hpos]
    simp only [hvalue num den hpos]

section Packed

variable {s : Bool} {x : ℚ}

theorem packed_fields (hnum : 0 < num) (hnum' : num ≤ intMax) (hden : 0 < den)
    (hden' : den ≤ intMax) (s : Bool) :
    IsFinite (packed s num den) ∧ sign (packed s num den) = s.toNat ∧
      magnitude (packed s num den) =
        (⌊scaled num den (correctedShift num den) + 1 / 2⌋.toNat : ℚ) *
          2 ^ (-correctedShift num den) := by
  have h := correctedShift_spec hnum hnum' hden hden'
  have hge := h.shift_ge
  have hle := h.shift_le
  obtain ⟨hlow, hhigh⟩ := h.floor_bounds
  unfold packed
  generalize correctedShift num den = shift at *
  generalize ⌊scaled num den shift + 1 / 2⌋ = m at *
  have he : (150 - shift).toNat < 2 ^ 8 := by lia
  have hf : (m - 2 ^ 23).toNat < 2 ^ 23 := by lia
  refine ⟨?_, sign_pack he hf, ?_⟩
  · rw [IsFinite, exponent_pack he hf]
    lia
  · have hsum : 2 ^ 23 + (m - 2 ^ 23).toNat = m.toNat := by lia
    have hscale : ((150 - shift).toNat : Int) - 150 = -shift := by lia
    rw [magnitude_pack (by lia) he hf, hsum, hscale]

theorem scaled_mul (hx : |x| = num / den) (shift : Int) :
    |x| = scaled num den shift * 2 ^ (-shift) := by
  rw [hx, scaled, mul_assoc, ← zpow_add₀ two_ne_zero, add_neg_cancel, zpow_zero, mul_one]

/-- The other sign bit. -/
theorem packed_not (hnum : 0 < num) (hnum' : num ≤ intMax) (hden : 0 < den)
    (hden' : den ≤ intMax) (s : Bool) :
    packed (!s) num den = packed s num den ^^^ 0x80000000 := by
  have h := correctedShift_spec hnum hnum' hden hden'
  have hge := h.shift_ge
  have hle := h.shift_le
  obtain ⟨hlow, hhigh⟩ := h.floor_bounds
  unfold packed
  generalize correctedShift num den = shift at *
  generalize ⌊scaled num den shift + 1 / 2⌋ = m at *
  have he : (150 - shift).toNat < 2 ^ 8 := by lia
  have hf : (m - 2 ^ 23).toNat < 2 ^ 23 := by lia
  have hmask : (0x80000000 : UInt32).toNat = 2 ^ 31 := rfl
  rw [← UInt32.toNat_inj, UInt32.toNat_xor, toNat_pack he hf, toNat_pack he hf, hmask]
  obtain ⟨x, hx⟩ : ∃ x, x = s.toNat * 2 ^ 31 + (150 - shift).toNat * 2 ^ 23 +
    (m - 2 ^ 23).toNat := ⟨_, rfl⟩
  rw [← hx]
  have hdiv : (x ^^^ 2 ^ 31) / 2 ^ 31 = x / 2 ^ 31 ^^^ 1 := by
    rw [Nat.xor_div_two_pow, Nat.div_self (by norm_num)]
  have hmod : (x ^^^ 2 ^ 31) % 2 ^ 31 = x % 2 ^ 31 := by
    rw [Nat.xor_mod_two_pow, Nat.mod_self, Nat.xor_zero]
  have htop : x / 2 ^ 31 = s.toNat := by lia
  have hflip : s.toNat ^^^ 1 = (!s).toNat := by cases s <;> rfl
  rw [htop, hflip] at hdiv
  generalize x ^^^ 2 ^ 31 = y at *
  lia

/-- The pattern is nearest unless the number is rounded at the wrong step. -/
theorem packed_nearest_iff (hnum : 0 < num) (hnum' : num ≤ intMax) (hden : 0 < den)
    (hden' : den ≤ intMax) (hx : |x| = num / den) (hs : s.toNat = if x < 0 then 1 else 0) :
    Common.Binary32.Nearest (packed s num den) x ↔
      ¬ scaled num den (correctedShift num den) < 2 ^ 23 - 1 / 4 := by
  have h := correctedShift_spec hnum hnum' hden hden'
  obtain ⟨hfin, hsign, hmag⟩ := packed_fields hnum hnum' hden hden' s
  obtain ⟨hlow, hhigh⟩ := h.floor_bounds
  have hvalue := scaled_mul hx (correctedShift num den)
  have hsame : SameSign (packed s num den) x := hsign.trans hs
  have hlower := h.lower
  have hge := h.shift_ge
  have hle := h.shift_le
  have hfloor := Int.floor_le (scaled num den (correctedShift num den) + 1 / 2)
  have hfloor' := Int.lt_floor_add_one (scaled num den (correctedShift num den) + 1 / 2)
  generalize correctedShift num den = shift at *
  generalize scaled num den shift = w at *
  generalize ⌊w + 1 / 2⌋ = m at *
  obtain ⟨m, rfl⟩ := Int.eq_ofNat_of_zero_le (show 0 ≤ m by lia)
  rw [Int.toNat_natCast] at hmag
  rw [Int.cast_natCast] at hfloor hfloor'
  have hstep : (0 : ℚ) < 2 ^ (-shift) := zpow_pos two_pos _
  have hhalf : (2 : ℚ) ^ (-shift) = 2 * 2 ^ (-shift - 1) := by
    rw [← zpow_one_add₀ two_ne_zero]
    congr 1
    ring
  -- below the power of two the significand is that power
  have hpower : w < 2 ^ 23 → m = 2 ^ 23 := by
    intro hw
    have hlt : (m : ℚ) < 2 ^ 23 + 1 := by linarith
    have hltNat : m < 2 ^ 23 + 1 := by exact_mod_cast hlt
    have hgeNat : 2 ^ 23 ≤ m := by exact_mod_cast hlow
    lia
  constructor
  · intro hnear hwrong
    have hm := hpower (by linarith)
    refine not_nearest (c := pack s (149 - shift).toNat (2 ^ 23 - 1)) ?_ hsame ?_ ?_ hnear
    · rw [IsFinite, exponent_pack (by lia) (by norm_num)]
      lia
    · exact (sign_pack (by lia) (by norm_num)).trans hs
    · have hscale : ((149 - shift).toNat : Int) - 150 = -shift - 1 := by lia
      rw [magnitude_pack (by lia) (by lia) (by norm_num), hscale, hmag, hvalue, hm, hhalf]
      have hpos : (0 : ℚ) < 2 ^ (-shift - 1) := zpow_pos two_pos _
      push_cast
      rw [abs_of_nonpos (by nlinarith), abs_of_pos (by nlinarith)]
      nlinarith
  · intro hright
    rcases lt_or_ge w (2 ^ 23) with hbelow | habove
    · refine nearest_of_round (m := 2 ^ 24) (k := -shift - 1) hfin ?_ hsame ?_ ?_
      · rw [hmag, hpower hbelow, hhalf]
        push_cast
        ring
      · have hpos : (0 : ℚ) < 2 ^ (-shift - 1) := zpow_pos two_pos _
        rw [hvalue, hhalf]
        nlinarith
      · have hpos : (0 : ℚ) < 2 ^ (-shift - 1) := zpow_pos two_pos _
        rw [hvalue, hhalf]
        push_cast
        rw [abs_of_nonneg (by nlinarith)]
        nlinarith
    · refine nearest_of_round (m := m) (k := -shift) hfin hmag hsame ?_ ?_
      · rw [hvalue]
        exact mul_le_mul_of_nonneg_right habove hstep.le
      · rw [hvalue, ← sub_mul, abs_mul, abs_of_pos hstep]
        have hdist : |(m : ℚ) - w| ≤ 1 / 2 := abs_le.2 ⟨by linarith, by linarith⟩
        linarith [mul_le_mul_of_nonneg_right hdist hstep.le]

end Packed

/-! ## The result -/

theorem abs_value_eq (q : AVRational) : |q.value| = (|q.num| : Int) / (|q.den| : Int) := by
  rw [AVRational.value, abs_div, Int.cast_abs, Int.cast_abs]

/-- The numbers that are rounded at the wrong step. -/
theorem justBelow_iff (hnum : |q.num| ≤ intMax) (hden : |q.den| ≤ intMax) (hnum0 : q.num ≠ 0)
    (hden0 : q.den ≠ 0) :
    JustBelow q ↔ scaled |q.num| |q.den| (correctedShift |q.num| |q.den|) < 2 ^ 23 - 1 / 4 := by
  rw [(correctedShift_spec (abs_pos.2 hnum0) hnum (abs_pos.2 hden0) hden).below]
  have hfirst : scaled |q.num| |q.den|
      (23 + Nat.log2 (|q.den|).toNat - Nat.log2 (|q.num|).toNat) * 2 ^ estimate q =
        2 ^ 23 * |q.value| := by
    have hsum : (23 + Nat.log2 (|q.den|).toNat - Nat.log2 (|q.num|).toNat : Int) + estimate q =
        (23 : Nat) := by
      rw [estimate, Int.abs_eq_natAbs, Int.abs_eq_natAbs, Int.toNat_natCast, Int.toNat_natCast]
      push_cast
      ring
    rw [scaled, mul_assoc, ← zpow_add₀ two_ne_zero, hsum, zpow_natCast, abs_value_eq]
    ring
  have hpos : (0 : ℚ) < 2 ^ estimate q := zpow_pos two_pos _
  unfold JustBelow
  generalize scaled |q.num| |q.den| _ = v at *
  generalize (2 : ℚ) ^ estimate q = p at *
  constructor
  · rintro ⟨hlow, hhigh⟩
    constructor
    · by_contra hlt
      nlinarith
    · by_contra hlt
      nlinarith
  · rintro ⟨hlow, hhigh⟩
    constructor
    · nlinarith
    · nlinarith

theorem avQ2intfloat_neg (hnum : |q.num| ≤ intMax) (hden : |q.den| ≤ intMax) (hnum0 : q.num ≠ 0)
    (hden0 : q.den ≠ 0) :
    avQ2intfloat ⟨-q.num, q.den⟩ = avQ2intfloat q ^^^ 0x80000000 := by
  have hvalue : AVRational.value ⟨-q.num, q.den⟩ = -q.value := by
    rw [AVRational.value, AVRational.value]
    push_cast
    rw [neg_div]
  have hne : q.value ≠ 0 := by
    rw [AVRational.value]
    exact div_ne_zero (by exact_mod_cast hnum0) (by exact_mod_cast hden0)
  have hsign : decide (-q.value < 0) = !decide (q.value < 0) := by
    rcases lt_or_gt_of_ne hne with hneg | hpos
    · simp [hneg, hneg.le]
    · simp [hpos, hpos.le]
  have hother := avQ2intfloat_eq (q := ⟨-q.num, q.den⟩) (by rwa [abs_neg]) hden
    (neg_ne_zero.2 hnum0) hden0
  rw [hother, avQ2intfloat_eq hnum hden hnum0 hden0, abs_neg, hvalue, hsign]
  exact packed_not (abs_pos.2 hnum0) hnum (abs_pos.2 hden0) hden _

/-- An infinity is always the positive one. -/
theorem avQ2intfloat_infinite (hnum : |num| ≤ intMax) (hnum0 : num ≠ 0) :
    avQ2intfloat ⟨num, 0⟩ = 0x7F800000 := by
  have hmask : ∀ n : Int, 0 ≤ n → n ≤ intMax →
      (0x7F800000 ||| (UInt32.ofInt n &&& 0x80000000) : UInt32) = 0x7F800000 := by
    intro n hpos hle
    obtain ⟨m, rfl⟩ := Int.eq_ofNat_of_zero_le hpos
    unfold intMax at hle
    have hbit : (UInt32.ofInt m &&& 0x80000000 : UInt32) = 0 := by
      have hofInt : (UInt32.ofInt m).toNat = m := by
        rw [UInt32.ofInt, UInt32.toNat_ofNat']
        lia
      rw [← UInt32.toNat_inj, UInt32.toNat_and, hofInt]
      have hdiv : (m &&& 2 ^ 31) / 2 ^ 31 = 0 := by
        rw [Nat.and_div_two_pow, Nat.div_eq_of_lt (by lia : m < 2 ^ 31), Nat.zero_and]
      have hmod : (m &&& 2 ^ 31) % 2 ^ 31 = 0 := by
        rw [Nat.and_mod_two_pow, Nat.mod_self, Nat.and_zero]
      show m &&& 2 ^ 31 = 0
      lia
    rw [hbit]
    rfl
  unfold avQ2intfloat
  dsimp only
  rw [if_neg (lt_irrefl 0)]
  dsimp only
  rcases lt_or_gt_of_ne hnum0 with hneg | hpos
  · rw [abs_of_neg hneg] at hnum
    rw [if_pos hneg, if_pos hneg]
    dsimp only
    rw [if_neg (by lia), if_neg (by lia), if_pos rfl]
    exact hmask _ (by lia) hnum
  · rw [abs_of_pos hpos] at hnum
    rw [if_neg hpos.not_gt, if_neg hpos.not_gt]
    dsimp only
    rw [if_neg (by lia), if_neg hnum0, if_pos rfl]
    exact hmask _ hpos.le hnum

/-- **Rounding**: a fraction of numbers of type `int` other than `INT_MIN` is converted as promised
exactly if its denominator is not zero and it is zero or not just below a power of two. -/
theorem avQ2intfloat_iff (hnum : |q.num| ≤ intMax) (hden : |q.den| ≤ intMax)
    (hne : q.num ≠ 0 ∨ q.den ≠ 0) :
    RoundsCorrectly q ↔ q.den ≠ 0 ∧ (q.num = 0 ∨ ¬ JustBelow q) := by
  by_cases hden0 : q.den = 0
  · -- the sign of an infinity is lost
    refine ⟨fun h => ?_, fun h => absurd hden0 h.1⟩
    have hnum0 := hne.resolve_right (fun h => h hden0)
    obtain ⟨num, den⟩ := q
    dsimp only at *
    subst hden0
    have hopposite := h.opposite hnum0
    dsimp only at hopposite
    rw [avQ2intfloat_infinite hnum hnum0,
      avQ2intfloat_infinite (by rwa [abs_neg]) (neg_ne_zero.2 hnum0)] at hopposite
    exact absurd hopposite (by decide)
  · by_cases hnum0 : q.num = 0
    · refine ⟨fun _ => ⟨hden0, Or.inl hnum0⟩, fun _ => ⟨?_, ?_, ?_⟩⟩
      · exact fun _ h => absurd hnum0 h
      · exact fun h => absurd h hden0
      · exact fun h => absurd hnum0 h
    · have hsign : (decide (q.value < 0)).toNat = if q.value < 0 then 1 else 0 := by
        by_cases hneg : q.value < 0
        · simp [hneg]
        · simp [hneg]
      have hiff := packed_nearest_iff (abs_pos.2 hnum0) hnum (abs_pos.2 hden0) hden
        (abs_value_eq q) hsign
      rw [← justBelow_iff hnum hden hnum0 hden0, ← avQ2intfloat_eq hnum hden hnum0 hden0] at hiff
      constructor
      · intro h
        exact ⟨hden0, Or.inr (hiff.1 (h.nearest hden0 hnum0).1)⟩
      · rintro ⟨-, hzero | hright⟩
        · exact absurd hzero hnum0
        · refine ⟨fun _ _ => ⟨hiff.2 hright, ?_⟩, fun h => absurd h hden0,
            fun _ => avQ2intfloat_neg hnum hden hnum0 hden0⟩
          rw [avQ2intfloat_eq hnum hden hnum0 hden0]
          exact (packed_fields (abs_pos.2 hnum0) hnum (abs_pos.2 hden0) hden _).2.1.trans hsign

/-- One half is converted as promised. -/
theorem avQ2intfloat_iff_half :
    RoundsCorrectly ⟨1, 2⟩ ↔ (2 : Int) ≠ 0 ∧ ((1 : Int) = 0 ∨ ¬ JustBelow ⟨1, 2⟩) :=
  avQ2intfloat_iff (by decide) (by decide) (by decide)

/-- Minus infinity is converted to plus infinity, and a number just below one to one. -/
theorem avQ2intfloat_wrong :
    ¬ RoundsCorrectly ⟨-1, 0⟩ ∧ ¬ RoundsCorrectly ⟨2 ^ 24, 2 ^ 24 + 1⟩ := by
  constructor
  · intro h
    have hinfinite := h.infinite rfl
    rw [if_pos (by decide)] at hinfinite
    exact absurd hinfinite (by decide)
  · intro h
    have hnear := (h.nearest (by decide) (by decide)).1
    have hone : avQ2intfloat ⟨2 ^ 24, 2 ^ 24 + 1⟩ = pack false 127 0 := by decide +kernel
    have hpos : ¬ AVRational.value ⟨2 ^ 24, 2 ^ 24 + 1⟩ < 0 := by norm_num [AVRational.value]
    rw [hone] at hnear
    refine not_nearest (c := pack false 126 (2 ^ 23 - 1)) ?_ ?_ ?_ ?_ hnear
    · rw [IsFinite, exponent_pack (by norm_num) (by norm_num)]
      norm_num
    · rw [SameSign, if_neg hpos, sign_pack (by norm_num) (by norm_num)]
      rfl
    · rw [SameSign, if_neg hpos, sign_pack (by norm_num) (by norm_num)]
      rfl
    · rw [magnitude_pack (by norm_num) (by norm_num) (by norm_num),
        magnitude_pack (by norm_num) (by norm_num) (by norm_num)]
      norm_num [AVRational.value, abs_of_pos, abs_of_neg]

end FFmpeg.Libavutil
