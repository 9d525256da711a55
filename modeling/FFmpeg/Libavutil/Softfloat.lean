import FFmpeg.Common.Dyadic
import FFmpeg.Libavutil.Rational

/-!
# Software floating point numbers

The arithmetic of `libavutil/softfloat.h` on a mantissa of 30 bits and an exponent.  A result that
is missing means that a signed operation overflows, that a division is by zero, or that an
`av_assert2` fails.
-/

namespace FFmpeg.Libavutil.Softfloat

open Common

def minExp : Int := -149

def maxExp : Int := 126

def oneBits : Nat := 29

/-- `SoftFloat`; both fields are `int32_t`. -/
structure SoftFloat where
  mant : Int
  exp : Int
  deriving DecidableEq, Repr

/-- `FLOAT_0`. -/
def float0 : SoftFloat := ⟨0, minExp⟩

/-- The number that `av_sf2double` returns. -/
def value (a : SoftFloat) : ℚ := Dyadic.dyadic ℚ a.mant (a.exp - (oneBits + 1 : Nat))

/-! ## Normalizing -/

/-- The loop of `av_normalize_sf`, for a mantissa that is not zero. -/
def normalizeLoop : Nat → SoftFloat → Option SoftFloat
  | 0, _ => none
  | rounds + 1, a =>
    if toUint32 (a.mant + 0x1FFFFFFF) < 0x3FFFFFFF then do
      let mant ← intOp (a.mant + a.mant)
      let exp ← intOp (a.exp - 1)
      normalizeLoop rounds ⟨mant, exp⟩
    else some a

/-- `av_normalize_sf`. -/
def avNormalizeSf (a : SoftFloat) : Option SoftFloat :=
  if a.mant ≠ 0 then do
    let a ← normalizeLoop 32 a
    some (if a.exp < minExp then ⟨0, minExp⟩ else a)
  else some ⟨a.mant, minExp⟩

/-- The carry of `av_normalize1_sf`. -/
def normalizeCarry (a : SoftFloat) : Option SoftFloat :=
  if toInt32 (a.mant + 0x40000000) ≤ 0 then do
    let exp ← intOp (a.exp + 1)
    some ⟨a.mant >>> (1 : Nat), exp⟩
  else some a

/-- `av_normalize1_sf`. -/
def avNormalize1Sf (a : SoftFloat) : Option SoftFloat := do
  let a ← normalizeCarry a
  if a.mant < 0x40000000 ∧ -0x40000000 < a.mant ∧ a.exp ≤ maxExp then some a else none

/-- What is left of a number that is too small. -/
def flush (a : SoftFloat) : SoftFloat := if a.mant = 0 ∨ a.exp < minExp then float0 else a

/-! ## Arithmetic -/

/-- `av_mul_sf`. -/
def avMulSf (a b : SoftFloat) : Option SoftFloat := do
  let exp ← intOp (a.exp + b.exp)
  let mant := (a.mant * b.mant) >>> oneBits
  if toInt32 mant ≠ mant then none
  else
    let exp ← intOp (exp - 1)
    let a ← avNormalize1Sf ⟨mant, exp⟩
    some (flush a)

/-- The loop of `av_div_sf`, which halves the quotient until it fits the mantissa. -/
def divLoop : Nat → Int → Int → Option SoftFloat
  | 0, _, _ => none
  | rounds + 1, temp, exp =>
    if toInt32 temp ≠ temp then do
      let exp ← intOp (exp - 1)
      divLoop rounds (temp.tdiv 2) exp
    else some ⟨temp, exp⟩

/-- `av_div_sf`. -/
def avDivSf (a b : SoftFloat) : Option SoftFloat :=
  if b.mant = 0 then none
  else do
    let temp := (a.mant * 2 ^ (oneBits + 1)).tdiv b.mant
    let exp ← intOp (a.exp - b.exp)
    let a ← divLoop 64 temp exp
    let a ← avNormalize1Sf a
    some (flush a)

/-- The sum of two mantissas that count units of the same exponent. -/
def addAligned (mantA mantB exp : Int) : Option SoftFloat := do
  let mant ← intOp (mantA + mantB)
  let a ← avNormalize1Sf ⟨mant, exp⟩
  avNormalizeSf a

/-- `av_add_sf`. -/
def avAddSf (a b : SoftFloat) : Option SoftFloat := do
  let t ← intOp (a.exp - b.exp)
  if t < -31 then some b
  else if t < 0 then addAligned b.mant (a.mant >>> (-t).toNat) b.exp
  else if t < 32 then addAligned a.mant (b.mant >>> t.toNat) a.exp
  else some a

/-- `av_sub_sf`. -/
def avSubSf (a b : SoftFloat) : Option SoftFloat := do
  let mant ← intOp (-b.mant)
  avAddSf a ⟨mant, b.exp⟩

/-! ## Comparing -/

/-- `av_cmp_sf`. -/
def avCmpSf (a b : SoftFloat) : Option Int := do
  let t ← intOp (a.exp - b.exp)
  if t < -31 then intOp (-b.mant)
  else if t < 0 then intOp (a.mant >>> (-t).toNat - b.mant)
  else if t < 32 then intOp (a.mant - b.mant >>> t.toNat)
  else some a.mant

/-- `av_gt_sf`, whose result is one or zero. -/
def avGtSf (a b : SoftFloat) : Option Bool := do
  let t ← intOp (a.exp - b.exp)
  if t < -31 then some (decide (0 > b.mant))
  else if t < 0 then some (decide (a.mant >>> (-t).toNat > b.mant))
  else if t < 32 then some (decide (a.mant > b.mant >>> t.toNat))
  else some (decide (a.mant > 0))

/-! ## Normalized numbers -/

/-- The mantissa of a normalized number: zero, with the smallest exponent, or 30 bits. -/
def NormalizedMant (a : SoftFloat) : Prop :=
  a.mant = 0 ∧ a.exp = minExp ∨ 2 ^ 29 ≤ |a.mant| ∧ |a.mant| < 2 ^ 30

/-- What normalizing leaves, if no assertion fails. -/
structure Normalized (a : SoftFloat) : Prop where
  mant : NormalizedMant a
  minExp_le : minExp ≤ a.exp
  le_maxExp : a.exp ≤ maxExp

/-! ## Comparing normalized numbers

The number with the smaller exponent is shifted to the units of the other one.  A false tie needs
the rounded mantissa to be that of a normalized number again.  Rounding down leads there from the
most negative mantissa, and to zero from numbers far below the smallest normal one. -/

open Dyadic

variable {a b : SoftFloat} {m n t : Int} {k : Nat}

/-! ## The values in units of the smaller exponent -/

theorem value_shift (h : b.exp = a.exp + k) :
    value b = dyadic ℚ (b.mant * 2 ^ k) (a.exp - (oneBits + 1 : Nat)) := by
  rw [value, h, dyadic_shift]
  congr 1
  ring

theorem sign_value_sub (h : b.exp = a.exp + k) :
    SignType.sign (value a - value b) = SignType.sign (a.mant - b.mant * 2 ^ k) := by
  rw [value_shift h, value, ← dyadic_sub, sign_dyadic]

theorem value_lt_value (h : b.exp = a.exp + k) :
    (value a < value b ↔ a.mant < b.mant * 2 ^ k) ∧
      (value b < value a ↔ b.mant * 2 ^ k < a.mant) := by
  rw [value_shift h, value]
  exact ⟨dyadic_lt_dyadic, dyadic_lt_dyadic⟩

/-- The comparisons agree with the order of the values. -/
structure OrderExact (a b : SoftFloat) : Prop where
  cmp : ∃ c, avCmpSf a b = some c ∧ SignType.sign c = SignType.sign (value a - value b)
  gt : avGtSf a b = some (decide (value b < value a))

/-! ## False ties -/

/-- A false tie of a number and one with a larger exponent. -/
def FalseTieBelow (a b : SoftFloat) : Prop :=
  a.mant = -(2 ^ 30 - 1) ∧ b.mant = -2 ^ 29 ∧ b.exp = a.exp + 1 ∨
    b.mant = 0 ∧ a.exp + 30 ≤ b.exp ∧ (0 < a.mant ∨ a.mant ≠ 0 ∧ a.exp + 32 ≤ b.exp)

theorem bounds_of_normalizedMant (h : NormalizedMant a) :
    a.mant = 0 ∨ 2 ^ 29 ≤ a.mant ∧ a.mant < 2 ^ 30 ∨ -2 ^ 30 < a.mant ∧ a.mant ≤ -2 ^ 29 := by
  rcases h with ⟨h, -⟩ | ⟨hlow, hhigh⟩
  · exact Or.inl h
  · rcases abs_cases a.mant with ⟨habs, -⟩ | ⟨habs, -⟩
    · exact Or.inr (Or.inl (by lia))
    · exact Or.inr (Or.inr (by lia))

theorem falseTie_iff (ha : NormalizedMant a) (hb : NormalizedMant b) (hk : 0 < k) :
    FalseTie a.mant b.mant k ↔ a.mant = -(2 ^ 30 - 1) ∧ b.mant = -2 ^ 29 ∧ k = 1 ∨
      b.mant = 0 ∧ 0 < a.mant ∧ 30 ≤ k := by
  have hm := bounds_of_normalizedMant ha
  have hn := bounds_of_normalizedMant hb
  unfold FalseTie
  generalize a.mant = m at hm ⊢
  generalize b.mant = n at hn ⊢
  rcases Nat.lt_or_ge 1 k with hlarge | hone
  · obtain ⟨hle, hlt⟩ := shiftRight_split m k
    have hfour : (2 : Int) ^ 2 ≤ 2 ^ k := pow_le_pow_right₀ (by norm_num) hlarge
    generalize m >>> k = q at hle hlt ⊢
    -- the rounded mantissa has fewer bits than that of a normalized number
    have hlow : -2 ^ 28 ≤ q := by
      by_contra hcontra
      have hfar : (q + 1) * 2 ^ k ≤ -2 ^ 28 * 2 ^ k :=
        mul_le_mul_of_nonneg_right (by lia) (by positivity)
      lia
    have hhigh : q < 2 ^ 28 := by
      by_contra hcontra
      have hfar : 2 ^ 28 * 2 ^ k ≤ q * 2 ^ k :=
        mul_le_mul_of_nonneg_right (by lia) (by positivity)
      lia
    constructor
    · rintro ⟨rfl, hne⟩
      have hzero : q = 0 := by lia
      rw [hzero, zero_mul] at hle hne
      rw [hzero, Int.zero_add, Int.one_mul] at hlt
      refine Or.inr ⟨hzero, by lia, ?_⟩
      by_contra hsmall
      have hpow : (2 : Int) ^ k ≤ 2 ^ 29 := pow_le_pow_right₀ (by norm_num) (by lia)
      lia
    · rintro (⟨-, -, hk1⟩ | ⟨hzero, hpos, hk30⟩)
      · lia
      · have hpow : (2 : Int) ^ 30 ≤ 2 ^ k := pow_le_pow_right₀ (by norm_num) hk30
        rw [hzero, zero_mul]
        refine ⟨?_, hpos.ne'⟩
        rcases lt_trichotomy q 0 with hneg | h0 | hq
        · have hfar : (q + 1) * 2 ^ k ≤ 0 * 2 ^ k :=
            mul_le_mul_of_nonneg_right (by lia) (by positivity)
          lia
        · exact h0
        · have hfar : 1 * 2 ^ k ≤ q * 2 ^ k := mul_le_mul_of_nonneg_right (by lia) (by positivity)
          lia
  · obtain rfl : k = 1 := by lia
    rw [Int.shiftRight_eq_div_pow]
    lia

/-! ## The comparisons -/

theorem bounds_shiftRight (h : NormalizedMant a) (k : Nat) :
    -2 ^ 30 < a.mant >>> k ∧ a.mant >>> k < 2 ^ 30 := by
  have hm := bounds_of_normalizedMant h
  have hone : (1 : Int) ≤ 2 ^ k := one_le_pow₀ (by norm_num)
  rw [Int.shiftRight_eq_div_pow]
  constructor
  · refine Int.lt_of_lt_of_le (by norm_num : (-2 ^ 30 : Int) < -(2 ^ 30 - 1))
      (Int.le_ediv_of_mul_le (by positivity) ?_)
    push_cast
    lia
  · refine Int.ediv_lt_of_lt_mul (by positivity) ?_
    push_cast
    lia

theorem intOp_of_range {x : Int} (hmin : -2 ^ 31 ≤ x) (hmax : x < 2 ^ 31) : intOp x = some x :=
  if_pos ⟨hmin, hmax⟩

theorem orderExact_first (ha : NormalizedMant a) (hb : NormalizedMant b) (hk : 0 < k)
    (hk31 : k ≤ 31) (h : b.exp = a.exp + k) : OrderExact a b ↔ ¬ FalseTie a.mant b.mant k := by
  have ht : a.exp - b.exp = -(k : Int) := by lia
  have hop : intOp (-(k : Int)) = some (-(k : Int)) := intOp_of_range (by lia) (by lia)
  have hnat : (-(-(k : Int))).toNat = k := by lia
  have hfar : ¬ (-(k : Int)) < -31 := by lia
  have hneg : (-(k : Int)) < 0 := by lia
  have hshift := bounds_shiftRight ha k
  have hn := bounds_of_normalizedMant hb
  have hcmp : avCmpSf a b = some (a.mant >>> k - b.mant) := by
    rw [avCmpSf, ht, hop, Option.bind_eq_bind, Option.bind_some, if_neg hfar, if_pos hneg, hnat]
    exact intOp_of_range (by lia) (by lia)
  have hgt : avGtSf a b = some (decide (b.mant < a.mant >>> k)) := by
    rw [avGtSf, ht, hop, Option.bind_eq_bind, Option.bind_some, if_neg hfar, if_pos hneg, hnat]
  rw [← sign_shiftRight_sub, ← sign_value_sub h]
  constructor
  · rintro ⟨⟨c, hc, hsign⟩, -⟩
    rw [hcmp, Option.some.injEq] at hc
    rw [hc, hsign]
  · intro hsign
    refine ⟨⟨_, hcmp, hsign⟩, ?_⟩
    rw [sign_value_sub h, sign_shiftRight_sub, ← lt_shiftRight_iff] at hsign
    rw [hgt, decide_eq_decide.2 (hsign.trans (value_lt_value h).2.symm)]

/-- The number with the smaller exponent stands last and is shifted. -/
theorem orderExact_last (ha : NormalizedMant a) (hb : NormalizedMant b) (hk31 : k ≤ 31)
    (h : a.exp = b.exp + k) : OrderExact a b ↔ ¬ FalseTie b.mant a.mant k := by
  have ht : a.exp - b.exp = (k : Int) := by lia
  have hop : intOp (k : Int) = some (k : Int) := intOp_of_range (by lia) (by lia)
  have hnat : (k : Int).toNat = k := by lia
  have hfar : ¬ (k : Int) < -31 := by lia
  have hneg : ¬ (k : Int) < 0 := by lia
  have hnear : (k : Int) < 32 := by lia
  have hshift := bounds_shiftRight hb k
  have hm := bounds_of_normalizedMant ha
  have hcmp : avCmpSf a b = some (a.mant - b.mant >>> k) := by
    rw [avCmpSf, ht, hop, Option.bind_eq_bind, Option.bind_some, if_neg hfar, if_neg hneg,
      if_pos hnear, hnat]
    exact intOp_of_range (by lia) (by lia)
  have hgt : avGtSf a b = some (decide (b.mant >>> k < a.mant)) := by
    rw [avGtSf, ht, hop, Option.bind_eq_bind, Option.bind_some, if_neg hfar, if_neg hneg,
      if_pos hnear, hnat]
  have hvalue := (value_lt_value h).1
  rw [← sign_shiftRight_sub, ← sign_value_sub h]
  have hswap : ∀ x y : Int, SignType.sign (x - y) = -SignType.sign (y - x) := fun x y => by
    rw [← Left.sign_neg, neg_sub]
  have hswapQ : SignType.sign (value a - value b) = -SignType.sign (value b - value a) := by
    rw [← Left.sign_neg, neg_sub]
  constructor
  · rintro ⟨⟨c, hc, hsign⟩, -⟩
    rw [hcmp, Option.some.injEq] at hc
    rw [← hc, hswap, hswapQ, neg_inj] at hsign
    exact hsign
  · intro hsign
    refine ⟨⟨_, hcmp, ?_⟩, ?_⟩
    · rw [hswap, hswapQ, hsign]
    · rw [hgt, decide_eq_decide.2 ((shiftRight_lt_iff _ _ _).trans hvalue.symm)]

theorem compare_far (ha : NormalizedMant a) (hb : NormalizedMant b) (hne : b.mant ≠ 0)
    (hk : 32 ≤ k) :
    SignType.sign (a.mant - b.mant * 2 ^ k) = SignType.sign (-b.mant) ∧
      (b.mant * 2 ^ k < a.mant ↔ b.mant < 0) ∧ (a.mant < b.mant * 2 ^ k ↔ 0 < b.mant) := by
  have hm := bounds_of_normalizedMant ha
  have hn := bounds_of_normalizedMant hb
  have hpow : (2 : Int) ^ 32 ≤ 2 ^ k := pow_le_pow_right₀ (by norm_num) hk
  rcases lt_or_gt_of_ne hne with hneg | hpos
  · have hfar : b.mant * 2 ^ k ≤ -1 * 2 ^ k := mul_le_mul_of_nonneg_right (by lia) (by positivity)
    rw [sign_pos (by lia), sign_pos (by lia)]
    exact ⟨rfl, ⟨fun _ => hneg, fun _ => by lia⟩, ⟨fun _ => by lia, fun _ => by lia⟩⟩
  · have hfar : 1 * 2 ^ k ≤ b.mant * 2 ^ k := mul_le_mul_of_nonneg_right (by lia) (by positivity)
    rw [sign_neg (by lia), sign_neg (by lia)]
    exact ⟨rfl, ⟨fun _ => by lia, fun _ => by lia⟩, ⟨fun _ => hpos, fun _ => by lia⟩⟩

/-- The first number is far below the other one and is left out. -/
theorem orderExact_far_first (ha : NormalizedMant a) (hb : NormalizedMant b) (hk : 32 ≤ k)
    (hint : (k : Int) ≤ 2 ^ 31) (h : b.exp = a.exp + k) :
    OrderExact a b ↔ ¬ (b.mant = 0 ∧ a.mant ≠ 0) := by
  have ht : a.exp - b.exp = -(k : Int) := by lia
  have hop : intOp (-(k : Int)) = some (-(k : Int)) := intOp_of_range (by lia) (by lia)
  have hfar : (-(k : Int)) < -31 := by lia
  have hn := bounds_of_normalizedMant hb
  have hcmp : avCmpSf a b = some (-b.mant) := by
    rw [avCmpSf, ht, hop, Option.bind_eq_bind, Option.bind_some, if_pos hfar]
    exact intOp_of_range (by lia) (by lia)
  have hgt : avGtSf a b = some (decide (b.mant < 0)) := by
    rw [avGtSf, ht, hop, Option.bind_eq_bind, Option.bind_some, if_pos hfar]
  have hsign := sign_value_sub h
  have hvalue := (value_lt_value h).2
  constructor
  · rintro ⟨⟨c, hc, hexact⟩, -⟩ ⟨hzero, hne⟩
    rw [hcmp, hzero, neg_zero, Option.some.injEq] at hc
    rw [hsign, hzero, zero_mul, sub_zero, ← hc, sign_zero] at hexact
    exact hne (sign_eq_zero_iff.1 hexact.symm)
  · intro hnot
    by_cases hzero : b.mant = 0
    · have hm : a.mant = 0 := by_contra fun hne => hnot ⟨hzero, hne⟩
      rw [hzero, zero_mul, hm] at hvalue
      refine ⟨⟨_, hcmp, ?_⟩, ?_⟩
      · rw [hsign, hzero, hm]
        simp
      · rw [hgt, hzero, decide_eq_decide.2 hvalue.symm]
    · obtain ⟨hfar, hlt, -⟩ := compare_far ha hb hzero hk
      exact ⟨⟨_, hcmp, by rw [hsign, hfar]⟩,
        by rw [hgt, decide_eq_decide.2 (hlt.symm.trans hvalue.symm)]⟩

/-- The other number is far below the first one and is left out. -/
theorem orderExact_far_last (ha : NormalizedMant a) (hb : NormalizedMant b) (hk : 32 ≤ k)
    (hint : (k : Int) < 2 ^ 31) (h : a.exp = b.exp + k) :
    OrderExact a b ↔ ¬ (a.mant = 0 ∧ b.mant ≠ 0) := by
  have ht : a.exp - b.exp = (k : Int) := by lia
  have hop : intOp (k : Int) = some (k : Int) := intOp_of_range (by lia) (by lia)
  have hcmp : avCmpSf a b = some a.mant := by
    rw [avCmpSf, ht, hop, Option.bind_eq_bind, Option.bind_some, if_neg (by lia),
      if_neg (by lia), if_neg (by lia)]
  have hgt : avGtSf a b = some (decide (0 < a.mant)) := by
    rw [avGtSf, ht, hop, Option.bind_eq_bind, Option.bind_some, if_neg (by lia),
      if_neg (by lia), if_neg (by lia)]
  have hsign := sign_value_sub h
  have hswap : SignType.sign (value a - value b) = -SignType.sign (value b - value a) := by
    rw [← Left.sign_neg, neg_sub]
  have hvalue := (value_lt_value h).1
  constructor
  · rintro ⟨⟨c, hc, hexact⟩, -⟩ ⟨hzero, hne⟩
    rw [hcmp, hzero, Option.some.injEq] at hc
    rw [hswap, hsign, hzero, zero_mul, sub_zero, ← Left.sign_neg, ← hc, sign_zero] at hexact
    exact hne (neg_eq_zero.1 (sign_eq_zero_iff.1 hexact.symm))
  · intro hnot
    by_cases hzero : a.mant = 0
    · have hn : b.mant = 0 := by_contra fun hne => hnot ⟨hzero, hne⟩
      rw [hzero, zero_mul, hn] at hvalue
      refine ⟨⟨_, hcmp, ?_⟩, ?_⟩
      · rw [hswap, hsign, hzero, hn]
        simp
      · rw [hgt, hzero, decide_eq_decide.2 hvalue.symm]
    · obtain ⟨hfar, -, hlt⟩ := compare_far hb ha hzero hk
      refine ⟨⟨_, hcmp, ?_⟩, ?_⟩
      · rw [hswap, hsign, hfar, Left.sign_neg, neg_neg]
      · rw [hgt, decide_eq_decide.2 (hlt.symm.trans hvalue.symm)]

/-- The comparisons are the numeric order, unless the exponents are too far apart for an `int` or
there is a false tie: that of `-(2 ^ 30 - 1)` with `-2 ^ 29` at the next exponent, and for exponents
that normalizing does not leave that of zero with a number far below the smallest normal one. -/
theorem avCmpSf_exact (ha : NormalizedMant a) (hb : NormalizedMant b) :
    OrderExact a b ↔ (-2 ^ 31 ≤ a.exp - b.exp ∧ a.exp - b.exp < 2 ^ 31) ∧
      ¬ FalseTieBelow a b ∧ ¬ FalseTieBelow b a := by
  by_cases hint : -2 ^ 31 ≤ a.exp - b.exp ∧ a.exp - b.exp < 2 ^ 31
  · rw [and_iff_right hint]
    rcases lt_or_ge a.exp b.exp with hlt | hge
    · obtain ⟨k, hk⟩ : ∃ k : Nat, b.exp = a.exp + k := ⟨(b.exp - a.exp).toNat, by lia⟩
      have hlast : ¬ FalseTieBelow b a := by
        unfold FalseTieBelow
        lia
      rw [and_iff_left hlast]
      rcases Nat.lt_or_ge k 32 with hnear | hfar
      · rw [orderExact_first ha hb (by lia) (by lia) hk, falseTie_iff ha hb (by lia)]
        unfold FalseTieBelow
        lia
      · rw [orderExact_far_first ha hb hfar (by lia) hk]
        unfold FalseTieBelow
        lia
    · obtain ⟨k, hk⟩ : ∃ k : Nat, a.exp = b.exp + k := ⟨(a.exp - b.exp).toNat, by lia⟩
      have hfirst : ¬ FalseTieBelow a b := by
        unfold FalseTieBelow
        lia
      rw [and_iff_right hfirst]
      rcases Nat.lt_or_ge k 32 with hnear | hfar
      · rw [orderExact_last ha hb (by lia) hk]
        rcases Nat.eq_zero_or_pos k with rfl | hpos
        · -- the exponents are equal
          have htie : ¬ FalseTie b.mant a.mant 0 := by
            unfold FalseTie
            simp
          rw [iff_true_left htie]
          unfold FalseTieBelow
          lia
        · rw [falseTie_iff hb ha hpos]
          unfold FalseTieBelow
          lia
      · rw [orderExact_far_last ha hb hfar (by lia) hk]
        unfold FalseTieBelow
        lia
  · rw [iff_false_right (fun h => hint h.1)]
    rintro ⟨⟨c, hc, -⟩, -⟩
    have hop : intOp (a.exp - b.exp) = none := if_neg hint
    rw [avCmpSf, hop] at hc
    simp at hc

/-- The smallest mantissa compares as equal to a larger number. -/
theorem avCmpSf_tie :
    NormalizedMant ⟨-(2 ^ 30 - 1), 0⟩ ∧ NormalizedMant ⟨-2 ^ 29, 1⟩ ∧
      avCmpSf ⟨-(2 ^ 30 - 1), 0⟩ ⟨-2 ^ 29, 1⟩ = some 0 ∧
      avGtSf ⟨-(2 ^ 30 - 1), 0⟩ ⟨-2 ^ 29, 1⟩ = some false ∧
      value ⟨-2 ^ 29, 1⟩ < value ⟨-(2 ^ 30 - 1), 0⟩ ∧
      ¬ OrderExact ⟨-(2 ^ 30 - 1), 0⟩ ⟨-2 ^ 29, 1⟩ := by
  have hgt : avGtSf ⟨-(2 ^ 30 - 1), 0⟩ ⟨-2 ^ 29, 1⟩ = some false := by decide +kernel
  have hlt : value ⟨-2 ^ 29, 1⟩ < value ⟨-(2 ^ 30 - 1), 0⟩ := by
    rw [(value_lt_value (show (1 : Int) = 0 + (1 : Nat) from rfl)).2]
    decide
  refine ⟨by unfold NormalizedMant; decide, by unfold NormalizedMant; decide, by decide +kernel,
    hgt, hlt, fun h => ?_⟩
  have hexact := h.gt
  rw [hgt, decide_eq_true hlt] at hexact
  exact absurd hexact (by decide)

theorem avCmpSf_exact_ordered : OrderExact ⟨2 ^ 29, 1⟩ ⟨2 ^ 29, 0⟩ :=
  (avCmpSf_exact (by unfold NormalizedMant; decide) (by unfold NormalizedMant; decide)).2
    (by unfold FalseTieBelow; decide)

end FFmpeg.Libavutil.Softfloat
