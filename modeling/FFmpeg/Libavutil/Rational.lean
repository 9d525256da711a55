import FFmpeg.Common.Neighbours
import FFmpeg.Libavutil.Mathematics
import FFmpeg.Libavutil.Times

/-!
# Reducing fractions

`av_reduce` of `libavutil/rational.c` runs through the convergents of the continued fraction, which
are neighbours, as long as they are small enough.  It ends with the last of them or with the last
small fraction on the way to the next one, whichever is nearer.
-/

namespace FFmpeg.Libavutil

open Common

/-- The largest factor that keeps `x * a1 + a0` small; where none is too large `x` stays. -/
def largestFactor (max : Int) (a0 a1 : AVRational) (x : Int) : Int :=
  let x := if a1.num ≠ 0 then (max - a0.num) / a1.num else x
  if a1.den ≠ 0 then min x ((max - a0.den) / a1.den) else x

/-- The loop of `av_reduce`: `a1` and `den` as they are left. -/
def avReduceLoop (max : Int) : Nat → AVRational → AVRational → Int → Int → AVRational × Int
  | 0, _, a1, _, den => (a1, den)
  | rounds + 1, a0, a1, num, den =>
    if den ≠ 0 then
      let x := num / den
      let nextDen := num - den * x
      let a2n := x * a1.num + a0.num
      let a2d := x * a1.den + a0.den
      if max < a2n ∨ max < a2d then
        let x := largestFactor max a0 a1 x
        if num * a1.den < den * (2 * x * a1.den + a0.den) then
          (⟨x * a1.num + a0.num, x * a1.den + a0.den⟩, den)
        else (a1, den)
      else avReduceLoop max rounds a1 ⟨a2n, a2d⟩ den nextDen
    else (a1, den)

/-- `a1` and `den` at the end of `av_reduce`, for the fraction in lowest terms. -/
def avReduceLowest (num den max : Int) : AVRational × Int :=
  if num ≤ max ∧ den ≤ max then (⟨num, den⟩, 0)
  else avReduceLoop max (den.toNat + 1) ⟨0, 1⟩ ⟨1, 0⟩ num den

/-- `av_reduce`: the fraction, and the value that is returned. -/
def avReduce (num den max : Int) : AVRational × Bool :=
  let sign := decide (num < 0) != decide (den < 0)
  let gcd := avGcdBinary |num| |den|
  let lowest := if gcd ≠ 0 then (|num| / gcd, |den| / gcd) else (num, den)
  let result := avReduceLowest lowest.1 lowest.2 max
  (⟨if sign then -result.1.num else result.1.num, result.1.den⟩, result.2 = 0)

/-- `av_mul_q`. -/
def avMulQ (b c : AVRational) : AVRational := (avReduce (b.num * c.num) (b.den * c.den) intMax).1

/-! ## The arithmetic of the code -/

/-- The result of an operation on `uint64_t`, if it does not wrap. -/
def uint64Op (x : Int) : Option Int :=
  if 0 ≤ x ∧ x < 2 ^ 64 then some x else none

/-- A number that is stored in an `int`, if it fits. -/
def intOp (x : Int) : Option Int :=
  if -2 ^ 31 ≤ x ∧ x < 2 ^ 31 then some x else none

/-- A number that is converted to `int32_t`. -/
def toInt32 (x : Int) : Int := (BitVec.ofInt 32 x).toInt

/-- A number that is converted to `uint32_t`. -/
def toUint32 (x : Int) : Nat := (BitVec.ofInt 32 x).toNat

/-- `x * a1.num + a0.num`, with the product and the sum in `uint64_t`. -/
def nextChecked (x a1 a0 : Int) : Option Int := do
  let product ← uint64Op (x * a1)
  uint64Op (product + a0)

/-- The largest factor, operation by operation. -/
def largestFactorChecked (max : Int) (a0 a1 : AVRational) (x : Int) : Option Int := do
  let x ← if a1.num ≠ 0 then (int64Op (max - a0.num)).map (· / a1.num) else some x
  let x ← uint64Op x
  if a1.den ≠ 0 then do
    let y ← (int64Op (max - a0.den)).map (· / a1.den)
    let y ← uint64Op y
    some (min x y)
  else some x

/-- The end of the loop, operation by operation. -/
def lastChecked (max : Int) (a0 a1 : AVRational) (num den x : Int) : Option (AVRational × Int) := do
  let x ← largestFactorChecked max a0 a1 x
  let double ← uint64Op (2 * x)
  let sum ← nextChecked double a1.den a0.den
  let left ← uint64Op (den * sum)
  let right ← int64Op (num * a1.den)
  if right < left then do
    let n ← nextChecked x a1.num a0.num
    let d ← nextChecked x a1.den a0.den
    some (⟨← intOp n, ← intOp d⟩, den)
  else some (a1, den)

/-- The loop of `av_reduce`, operation by operation. -/
def avReduceLoopChecked (max : Int) :
    Nat → AVRational → AVRational → Int → Int → Option (AVRational × Int)
  | 0, _, a1, _, den => some (a1, den)
  | rounds + 1, a0, a1, num, den =>
    if den ≠ 0 then do
      let x := num / den
      let product ← uint64Op (den * x)
      let nextDen ← int64Op (num - product)
      let a2n ← (← nextChecked x a1.num a0.num) |> int64Op
      let a2d ← (← nextChecked x a1.den a0.den) |> int64Op
      if max < a2n ∨ max < a2d then lastChecked max a0 a1 num den x
      else do
        let a2 : AVRational := ⟨← intOp a2n, ← intOp a2d⟩
        avReduceLoopChecked max rounds a1 a2 den nextDen
    else some (a1, den)

/-- The fraction in lowest terms, operation by operation. -/
def avReduceLowestChecked (num den max : Int) : Option (AVRational × Int) :=
  if num ≤ max ∧ den ≤ max then some (⟨num, den⟩, 0)
  else avReduceLoopChecked max (den.toNat + 1) ⟨0, 1⟩ ⟨1, 0⟩ num den

/-- `av_reduce`, operation by operation. -/
def avReduceChecked (num den max : Int) : Option (AVRational × Bool) := do
  let sign := decide (num < 0) != decide (den < 0)
  let absNum ← int64Op |num|
  let absDen ← int64Op |den|
  let gcd := avGcdBinary absNum absDen
  let lowest := if gcd ≠ 0 then (absNum / gcd, absDen / gcd) else (num, den)
  let result ← avReduceLowestChecked lowest.1 lowest.2 max
  let n ← intOp (if sign then -result.1.num else result.1.num)
  some (⟨n, result.1.den⟩, result.2 = 0)

/-! ## The convergents -/

variable {N D max num den x : Int} {a0 a1 : AVRational}

/-- Two convergents of `N / D`, which are neighbours, and the numbers that are left. -/
structure Convergents (N D max : Int) (a0 a1 : AVRational) (num den : Int) : Prop where
  num0_nonneg : 0 ≤ a0.num
  den0_nonneg : 0 ≤ a0.den
  num1_nonneg : 0 ≤ a1.num
  den1_nonneg : 0 ≤ a1.den
  num0_le : a0.num ≤ max
  den0_le : a0.den ≤ max
  num1_le : a1.num ≤ max
  den1_le : a1.den ≤ max
  det : a1.num * a0.den - a0.num * a1.den = 1 ∨ a1.num * a0.den - a0.num * a1.den = -1
  N_eq : N = num * a1.num + den * a0.num
  D_eq : D = num * a1.den + den * a0.den
  num_nonneg : 0 ≤ num
  den_nonneg : 0 ≤ den
  coprime : IsCoprime num den

theorem Convergents.start (hmax : 1 ≤ max) (hN : 0 ≤ N) (hD : 0 ≤ D) (h : IsCoprime N D) :
    Convergents N D max ⟨0, 1⟩ ⟨1, 0⟩ N D :=
  ⟨by decide, by decide, by decide, by decide, zero_le_one.trans hmax, hmax, hmax,
    zero_le_one.trans hmax, .inl (by decide), by ring, by ring, hN, hD, h⟩

theorem Convergents.pos (h : Convergents N D max a0 a1 num den) : 0 < a1.num ∨ 0 < a1.den := by
  by_contra hnone
  have hnum : a1.num = 0 := by have := h.num1_nonneg; lia
  have hden : a1.den = 0 := by have := h.den1_nonneg; lia
  have hdet := h.det
  rw [hnum, hden] at hdet
  lia

theorem Convergents.step (h : Convergents N D max a0 a1 num den) (hden : den ≠ 0)
    (hnum' : num / den * a1.num + a0.num ≤ max) (hden' : num / den * a1.den + a0.den ≤ max) :
    Convergents N D max a1 ⟨num / den * a1.num + a0.num, num / den * a1.den + a0.den⟩ den
      (num - den * (num / den)) := by
  have hquot : 0 ≤ num / den := Int.ediv_nonneg h.num_nonneg h.den_nonneg
  refine ⟨h.num1_nonneg, h.den1_nonneg, ?_, ?_, h.num1_le, h.den1_le, hnum', hden', ?_, ?_, ?_,
    h.den_nonneg, ?_, ?_⟩
  · exact add_nonneg (mul_nonneg hquot h.num1_nonneg) h.num0_nonneg
  · exact add_nonneg (mul_nonneg hquot h.den1_nonneg) h.den0_nonneg
  · rcases h.det with hdet | hdet
    · exact .inr (by linear_combination -hdet)
    · exact .inl (by linear_combination -hdet)
  · rw [h.N_eq]
    ring
  · rw [h.D_eq]
    ring
  · rw [← Int.emod_def]
    exact Int.emod_nonneg num hden
  · obtain ⟨u, v, huv⟩ := h.coprime
    exact ⟨v + u * (num / den), u, by linear_combination huv⟩

theorem Convergents.den_ne_zero (h : Convergents N D max a0 a1 num den)
    (hlarge : max < N ∨ max < D) : den ≠ 0 := by
  rintro rfl
  have hone : num = 1 := by
    have hunit := isCoprime_zero_right.1 h.coprime
    have hnonneg := h.num_nonneg
    rcases Int.isUnit_iff.1 hunit with hone | hone <;> lia
  have hN := h.N_eq
  have hD := h.D_eq
  rw [hone] at hN hD
  have hnum1 := h.num1_le
  have hden1 := h.den1_le
  lia

/-- The largest factor: with one more the fraction is not small. -/
structure Largest (max : Int) (a0 a1 : AVRational) (x x0 : Int) : Prop where
  nonneg : 0 ≤ x
  lt : x < x0
  num_le : x * a1.num + a0.num ≤ max
  den_le : x * a1.den + a0.den ≤ max
  large : max < (x + 1) * a1.num + a0.num ∨ max < (x + 1) * a1.den + a0.den

theorem ediv_spec {k c : Int} (hk : 0 < k) (hc : c ≤ max) :
    0 ≤ (max - c) / k ∧ (max - c) / k * k + c ≤ max ∧ max < ((max - c) / k + 1) * k + c := by
  have hlo := Int.ediv_mul_le (max - c) hk.ne'
  have hhi := Int.lt_ediv_add_one_mul_self (max - c) hk
  exact ⟨Int.ediv_nonneg (by lia) hk.le, by lia, by lia⟩

theorem lt_of_mul_add {k c x y : Int} (hk : 0 ≤ k) (hx : x * k + c ≤ max) (hy : max < y * k + c) :
    x < y := by
  by_contra hge
  have hmul := mul_le_mul_of_nonneg_right (not_lt.1 hge) hk
  lia

theorem mul_add_le {k c x y : Int} (hk : 0 ≤ k) (hle : x ≤ y) (hy : y * k + c ≤ max) :
    x * k + c ≤ max := by
  have hmul := mul_le_mul_of_nonneg_right hle hk
  lia

theorem Convergents.largest (h : Convergents N D max a0 a1 num den)
    (hlarge : max < x * a1.num + a0.num ∨ max < x * a1.den + a0.den) :
    Largest max a0 a1 (largestFactor max a0 a1 x) x := by
  unfold largestFactor
  by_cases hnum : a1.num = 0
  · have hden : 0 < a1.den := h.pos.resolve_left (by lia)
    obtain ⟨hnonneg, hle, hgt⟩ := ediv_spec hden h.den0_le
    have hnum0 := h.num0_le
    have hlt : (max - a0.den) / a1.den < x := by
      refine lt_of_mul_add hden.le hle (hlarge.resolve_left ?_)
      rw [hnum]
      lia
    simp only [hnum, ne_eq, not_true_eq_false, if_false, hden.ne', not_false_eq_true, if_true,
      min_eq_right hlt.le]
    exact ⟨hnonneg, hlt, by rw [hnum]; lia, hle, .inr hgt⟩
  · have hnumPos : 0 < a1.num := by have := h.num1_nonneg; lia
    obtain ⟨hnonneg, hle, hgt⟩ := ediv_spec hnumPos h.num0_le
    by_cases hden : a1.den = 0
    · have hden0 := h.den0_le
      have hlt : (max - a0.num) / a1.num < x := by
        refine lt_of_mul_add hnumPos.le hle (hlarge.resolve_right ?_)
        rw [hden]
        lia
      simp only [hnum, hden, ne_eq, not_true_eq_false, not_false_eq_true, if_true, if_false]
      exact ⟨hnonneg, hlt, hle, by rw [hden]; lia, .inl hgt⟩
    · have hdenPos : 0 < a1.den := by have := h.den1_nonneg; lia
      obtain ⟨hnonneg', hle', hgt'⟩ := ediv_spec hdenPos h.den0_le
      simp only [hnum, hden, ne_eq, not_false_eq_true, if_true]
      refine ⟨le_min hnonneg hnonneg', ?_, mul_add_le hnumPos.le (min_le_left _ _) hle,
        mul_add_le hdenPos.le (min_le_right _ _) hle', ?_⟩
      · rcases hlarge with hlarge | hlarge
        · exact (min_le_left _ _).trans_lt (lt_of_mul_add hnumPos.le hle hlarge)
        · exact (min_le_right _ _).trans_lt (lt_of_mul_add hdenPos.le hle' hlarge)
      · rcases min_choice ((max - a0.num) / a1.num) ((max - a0.den) / a1.den) with hmin | hmin
        · rw [hmin]
          exact .inl hgt
        · rw [hmin]
          exact .inr hgt'

/-! ## The nearest small fraction -/

/-- A reduced small fraction that no other small fraction is nearer than. -/
structure BestApproximation (N D max : Int) (r : AVRational) : Prop where
  num_nonneg : 0 ≤ r.num
  num_le : r.num ≤ max
  den_pos : 0 < r.den
  den_le : r.den ≤ max
  coprime : IsCoprime r.num r.den
  nearest : ∀ p q : Int, p ≤ max → 1 ≤ q → q ≤ max →
    |(r.num : ℚ) / r.den - (N : ℚ) / D| ≤ |(p : ℚ) / q - (N : ℚ) / D|

theorem sub_div {n d : Int} (hD : 0 < D) (hd : 0 < d) :
    (N : ℚ) / D - (n : ℚ) / d = ((N * d - n * D : Int) : ℚ) / (D * d : Int) := by
  have hDq : (D : ℚ) ≠ 0 := by exact_mod_cast hD.ne'
  have hdq : (d : ℚ) ≠ 0 := by exact_mod_cast hd.ne'
  push_cast
  field_simp

theorem div_le_div_dist {u v d e : Int} (hD : 0 < D) (hd : 0 < d) (he : 0 < e)
    (h : u * e ≤ v * d) : ((u : Int) : ℚ) / (D * d : Int) ≤ ((v : Int) : ℚ) / (D * e : Int) := by
  have hDd : (0 : ℚ) < (D * d : Int) := by exact_mod_cast mul_pos hD hd
  have hDe : (0 : ℚ) < (D * e : Int) := by exact_mod_cast mul_pos hD he
  rw [div_le_div_iff₀ hDd hDe]
  have hmul : u * (D * e) ≤ v * (D * d) := by
    have hscaled := mul_le_mul_of_nonneg_left h hD.le
    linarith
  exact_mod_cast hmul

theorem Convergents.between (h : Convergents N D max a0 a1 num den) {σ : Int}
    (hdet : a1.num * a0.den - a0.num * a1.den = σ) :
    N * a1.den - a1.num * D = -(σ * den) ∧
      N * (x * a1.den + a0.den) - (x * a1.num + a0.num) * D = σ * (num - x * den) ∧
      (x * a1.num + a0.num) * a1.den - a1.num * (x * a1.den + a0.den) = -σ := by
  rw [h.N_eq, h.D_eq, ← hdet]
  refine ⟨by ring, by ring, by ring⟩

/-- The largest small fraction on the way to the next convergent. -/
def lastSmall (a0 a1 : AVRational) (x : Int) : AVRational :=
  ⟨x * a1.num + a0.num, x * a1.den + a0.den⟩

/-- The largest small fraction, and what is left if it is taken. -/
structure Last (max : Int) (a0 a1 : AVRational) (num den x : Int) : Prop where
  num_nonneg : 0 ≤ (lastSmall a0 a1 x).num
  den_nonneg : 0 ≤ (lastSmall a0 a1 x).den
  num_le : (lastSmall a0 a1 x).num ≤ max
  den_le : (lastSmall a0 a1 x).den ≤ max
  large : max < (lastSmall a0 a1 x).num + a1.num ∨ max < (lastSmall a0 a1 x).den + a1.den
  left : den ≤ num - x * den
  test : den * (2 * x * a1.den + a0.den) = den * (lastSmall a0 a1 x).den + x * den * a1.den

theorem Convergents.last (h : Convergents N D max a0 a1 num den) (hden : 0 < den) {x0 : Int}
    (hx0 : x0 * den ≤ num) (hx : Largest max a0 a1 x x0) : Last max a0 a1 num den x := by
  have hlarge := hx.large
  rw [add_mul, one_mul, add_mul, one_mul] at hlarge
  have hmul := mul_le_mul_of_nonneg_right (show x + 1 ≤ x0 from hx.lt) hden.le
  constructor
  · exact add_nonneg (mul_nonneg hx.nonneg h.num1_nonneg) h.num0_nonneg
  · exact add_nonneg (mul_nonneg hx.nonneg h.den1_nonneg) h.den0_nonneg
  · exact hx.num_le
  · exact hx.den_le
  · show max < x * a1.num + a0.num + a1.num ∨ max < x * a1.den + a0.den + a1.den
    lia
  · linarith
  · show _ = den * (x * a1.den + a0.den) + x * den * a1.den
    ring

/-- The second convergent is the upper one. -/
theorem Convergents.best_upper (h : Convergents N D max a0 a1 num den) (hD : 0 < D)
    (hden : 0 < den) (hlast : Last max a0 a1 num den x)
    (hdet : a1.num * a0.den - a0.num * a1.den = 1) :
    BestApproximation N D max
      (if num * a1.den < den * (2 * x * a1.den + a0.den) then lastSmall a0 a1 x else a1) := by
  obtain ⟨habove, hbelow, hcross⟩ := h.between (x := x) hdet
  obtain ⟨hsn, hsd, hnle, hdle, hlarge, hleft, htest⟩ := hlast
  have hn1 := h.num1_nonneg
  have hd1 := h.den1_nonneg
  change N * (lastSmall a0 a1 x).den - (lastSmall a0 a1 x).num * D = _ at hbelow
  change (lastSmall a0 a1 x).num * a1.den - a1.num * (lastSmall a0 a1 x).den = _ at hcross
  generalize lastSmall a0 a1 x = s at *
  have hneighbours : a1.num * s.den - s.num * a1.den = 1 := by linarith
  have hsdPos : 0 < s.den := by
    rcases hsd.lt_or_eq with hpos | hzero
    · exact hpos
    · rw [← hzero] at hneighbours
      have hprod := mul_nonneg hsn hd1
      lia
  have hlower : (N : ℚ) / D - s.num / s.den = ((num - x * den : Int) : ℚ) / (D * s.den : Int) := by
    rw [sub_div hD hsdPos, hbelow, one_mul]
  have hlowerLe : (s.num : ℚ) / s.den ≤ N / D := by
    rw [← sub_nonneg, hlower]
    exact div_nonneg (by exact_mod_cast hden.le.trans hleft)
      (by exact_mod_cast (mul_pos hD hsdPos).le)
  have hupper : 0 < a1.den →
      (a1.num : ℚ) / a1.den - N / D = ((den : Int) : ℚ) / (D * a1.den : Int) := by
    intro hd1Pos
    rw [← neg_sub, sub_div hD hd1Pos, habove]
    push_cast
    ring
  by_cases htrue : num * a1.den < den * (2 * x * a1.den + a0.den)
  · rw [if_pos htrue]
    refine ⟨hsn, hnle, hsdPos, hdle, ⟨-a1.den, a1.num, by linarith⟩, ?_⟩
    intro p q hp hq0 hq
    refine Neighbours.abs_lower_le hsn hsdPos hn1 hd1 hneighbours hlarge hp hq0 hq hlowerLe ?_
    intro hd1Pos
    rw [hupper hd1Pos, hlower]
    exact div_le_div_dist hD hsdPos hd1Pos (by linarith)
  · rw [if_neg htrue]
    -- a convergent `1 / 0` is never nearer
    have hd1Pos : 0 < a1.den := by
      rcases hd1.lt_or_eq with hpos | hzero
      · exact hpos
      · rw [← hzero] at hdet htrue
        have hd0Pos : 0 < a0.den := by
          rcases h.den0_nonneg.lt_or_eq with hpos | hzero'
          · exact hpos
          · rw [← hzero'] at hdet
            lia
        have hprod := mul_pos hden hd0Pos
        simp only [mul_zero, zero_add] at htrue
        lia
    refine ⟨hn1, h.num1_le, hd1Pos, h.den1_le, ⟨s.den, -s.num, by linarith⟩, ?_⟩
    intro p q hp hq0 hq
    refine Neighbours.abs_upper_le hsn hsdPos hn1 hd1 hneighbours hlarge hp hq0 hq ?_ ?_
    · rw [← sub_nonneg, hupper hd1Pos]
      exact div_nonneg (by exact_mod_cast hden.le) (by exact_mod_cast (mul_pos hD hd1Pos).le)
    · rw [hupper hd1Pos, hlower]
      exact div_le_div_dist hD hd1Pos hsdPos (by linarith)

/-- The second convergent is the lower one. -/
theorem Convergents.best_lower (h : Convergents N D max a0 a1 num den) (hD : 0 < D)
    (hden : 0 < den) (hlast : Last max a0 a1 num den x)
    (hdet : a1.num * a0.den - a0.num * a1.den = -1) :
    BestApproximation N D max
      (if num * a1.den < den * (2 * x * a1.den + a0.den) then lastSmall a0 a1 x else a1) := by
  obtain ⟨habove, hbelow, hcross⟩ := h.between (x := x) hdet
  obtain ⟨hsn, hsd, hnle, hdle, hlarge, hleft, htest⟩ := hlast
  have hn1 := h.num1_nonneg
  have hd1 := h.den1_nonneg
  change N * (lastSmall a0 a1 x).den - (lastSmall a0 a1 x).num * D = _ at hbelow
  change (lastSmall a0 a1 x).num * a1.den - a1.num * (lastSmall a0 a1 x).den = _ at hcross
  generalize lastSmall a0 a1 x = s at *
  have hneighbours : s.num * a1.den - a1.num * s.den = 1 := by linarith
  have hd1Pos : 0 < a1.den := by
    rcases hd1.lt_or_eq with hpos | hzero
    · exact hpos
    · rw [← hzero] at hdet
      have hprod := mul_nonneg hn1 h.den0_nonneg
      lia
  have hlower : (N : ℚ) / D - a1.num / a1.den = ((den : Int) : ℚ) / (D * a1.den : Int) := by
    rw [sub_div hD hd1Pos, habove]
    push_cast
    ring
  have hlowerLe : (a1.num : ℚ) / a1.den ≤ N / D := by
    rw [← sub_nonneg, hlower]
    exact div_nonneg (by exact_mod_cast hden.le) (by exact_mod_cast (mul_pos hD hd1Pos).le)
  have hsum : max < a1.num + s.num ∨ max < a1.den + s.den := by lia
  have hupper : 0 < s.den →
      (s.num : ℚ) / s.den - N / D = ((num - x * den : Int) : ℚ) / (D * s.den : Int) := by
    intro hsdPos
    rw [← neg_sub, sub_div hD hsdPos, hbelow]
    push_cast
    ring
  by_cases htrue : num * a1.den < den * (2 * x * a1.den + a0.den)
  · rw [if_pos htrue]
    -- a fraction `1 / 0` is never nearer
    have hsdPos : 0 < s.den := by
      rcases hsd.lt_or_eq with hpos | hzero
      · exact hpos
      · rw [htest, ← hzero, mul_zero, zero_add] at htrue
        have hmul := mul_le_mul_of_nonneg_right (by linarith : x * den ≤ num) hd1
        lia
    refine ⟨hsn, hnle, hsdPos, hdle, ⟨a1.den, -a1.num, by linarith⟩, ?_⟩
    intro p q hp hq0 hq
    refine Neighbours.abs_upper_le hn1 hd1Pos hsn hsd hneighbours hsum hp hq0 hq ?_ ?_
    · rw [← sub_nonneg, hupper hsdPos]
      exact div_nonneg (by exact_mod_cast hden.le.trans hleft)
        (by exact_mod_cast (mul_pos hD hsdPos).le)
    · rw [hupper hsdPos, hlower]
      exact div_le_div_dist hD hsdPos hd1Pos (by linarith)
  · rw [if_neg htrue]
    refine ⟨hn1, h.num1_le, hd1Pos, h.den1_le, ⟨-s.den, s.num, by linarith⟩, ?_⟩
    intro p q hp hq0 hq
    refine Neighbours.abs_lower_le hn1 hd1Pos hsn hsd hneighbours hsum hp hq0 hq hlowerLe ?_
    intro hsdPos
    rw [hupper hsdPos, hlower]
    exact div_le_div_dist hD hd1Pos hsdPos (by linarith)

theorem Convergents.best (h : Convergents N D max a0 a1 num den) (hD : 0 < D) (hden : 0 < den)
    {x0 : Int} (hx0 : x0 * den ≤ num) (hx : Largest max a0 a1 x x0) :
    BestApproximation N D max
      (if num * a1.den < den * (2 * x * a1.den + a0.den) then
        ⟨x * a1.num + a0.num, x * a1.den + a0.den⟩ else a1) := by
  have hlast := h.last hden hx0 hx
  rcases h.det with hdet | hdet
  · exact h.best_upper hD hden hlast hdet
  · exact h.best_lower hD hden hlast hdet

theorem avReduceLoop_best {rounds : Nat} (h : Convergents N D max a0 a1 num den) (hD : 0 < D)
    (hlarge : max < N ∨ max < D) (hrounds : den.toNat < rounds) :
    BestApproximation N D max (avReduceLoop max rounds a0 a1 num den).1 ∧
      (avReduceLoop max rounds a0 a1 num den).2 ≠ 0 := by
  induction rounds generalizing a0 a1 num den with
  | zero => lia
  | succ rounds ih =>
    have hne := h.den_ne_zero hlarge
    have hden : 0 < den := lt_of_le_of_ne h.den_nonneg hne.symm
    simp only [avReduceLoop, if_pos hne]
    by_cases hexceeds : max < num / den * a1.num + a0.num ∨ max < num / den * a1.den + a0.den
    · rw [if_pos hexceeds]
      have hbest := h.best hD hden (Int.ediv_mul_le num hne) (h.largest hexceeds)
      split
      · rename_i htrue
        rw [if_pos htrue] at hbest
        exact ⟨hbest, hne⟩
      · rename_i hfalse
        rw [if_neg hfalse] at hbest
        exact ⟨hbest, hne⟩
    · rw [if_neg hexceeds]
      rw [not_or, not_lt, not_lt] at hexceeds
      have hmod := Int.emod_lt_of_pos num hden
      rw [Int.emod_def] at hmod
      exact ih (h.step hne hexceeds.1 hexceeds.2) (by lia)

/-! ## No operation wraps -/

theorem uint64Op_eq (h0 : 0 ≤ x) (h : x < 2 ^ 64) : uint64Op x = some x := if_pos ⟨h0, h⟩

theorem intOp_eq (h0 : 0 ≤ x) (h : x ≤ intMax) : intOp x = some x :=
  if_pos ⟨by lia, by unfold intMax at h; lia⟩

theorem toInt32_eq (hmin : -2 ^ 31 ≤ x) (hmax : x < 2 ^ 31) : toInt32 x = x := by
  rw [toInt32, BitVec.toInt_ofInt]
  exact Int.bmod_eq_of_le (by lia) (by lia)

theorem nextChecked_eq {k c : Int} (hx : 0 ≤ x) (hk : 0 ≤ k) (hc : 0 ≤ c)
    (hlt : x * k + c < 2 ^ 64) : nextChecked x k c = some (x * k + c) := by
  have hprod := mul_nonneg hx hk
  rw [nextChecked, uint64Op_eq hprod (by lia), Option.bind_eq_bind, Option.bind_some,
    uint64Op_eq (by lia) hlt]

theorem Convergents.bounds (h : Convergents N D max a0 a1 num den) (hN : N ≤ int64Max)
    (hD : D ≤ int64Max) : num ≤ int64Max ∧ num * a1.num + den * a0.num ≤ int64Max ∧
      num * a1.den + den * a0.den ≤ int64Max := by
  have hNeq := h.N_eq
  have hDeq := h.D_eq
  refine ⟨?_, by lia, by lia⟩
  have hn := mul_nonneg h.den_nonneg h.num0_nonneg
  have hd := mul_nonneg h.den_nonneg h.den0_nonneg
  rcases h.pos with hpos | hpos
  · have hmul := mul_le_mul_of_nonneg_left (show 1 ≤ a1.num from hpos) h.num_nonneg
    lia
  · have hmul := mul_le_mul_of_nonneg_left (show 1 ≤ a1.den from hpos) h.num_nonneg
    lia

theorem le_of_mul_le {k m n : Int} (hk : 0 < k) (hm : 0 ≤ m) (h : k * m ≤ n) : m ≤ n := by
  have hmul := mul_le_mul_of_nonneg_right (show 1 ≤ k from hk) hm
  lia

theorem largestFactorChecked_eq (h : Convergents N D max a0 a1 num den) (hmax : max ≤ intMax)
    (hx0 : 0 ≤ x) (hx : x ≤ int64Max) :
    largestFactorChecked max a0 a1 x = some (largestFactor max a0 a1 x) := by
  have hroom : int64Max < 2 ^ 64 ∧ intMax ≤ int64Max := by decide
  have hquot : ∀ {k c : Int}, k ≠ 0 → 0 ≤ k → 0 ≤ c → c ≤ max →
      (int64Op (max - c)).map (· / k) = some ((max - c) / k) ∧
        uint64Op ((max - c) / k) = some ((max - c) / k) := by
    intro k c hne hk hc0 hc
    have hdiv := Int.ediv_le_self k (show 0 ≤ max - c by lia)
    have hdiv0 := Int.ediv_nonneg (show 0 ≤ max - c by lia) hk
    rw [int64Op_nonneg (by lia) (by lia), uint64Op_eq hdiv0 (by lia)]
    exact ⟨rfl, rfl⟩
  unfold largestFactorChecked largestFactor
  by_cases hnum : a1.num = 0
  · have hden : a1.den ≠ 0 := (h.pos.resolve_left (by lia)).ne'
    obtain ⟨hy, hy'⟩ := hquot hden h.den1_nonneg h.den0_nonneg h.den0_le
    simp only [hnum, hden, ne_eq, not_true_eq_false, not_false_eq_true, if_true, if_false,
      uint64Op_eq hx0 (show x < 2 ^ 64 by lia), hy, hy', Option.bind_eq_bind, Option.bind_some]
  · obtain ⟨hy, hy'⟩ := hquot hnum h.num1_nonneg h.num0_nonneg h.num0_le
    by_cases hden : a1.den = 0
    · simp only [hnum, hden, ne_eq, not_true_eq_false, not_false_eq_true, if_true, if_false, hy,
        hy', Option.bind_eq_bind, Option.bind_some]
    · obtain ⟨hz, hz'⟩ := hquot hden h.den1_nonneg h.den0_nonneg h.den0_le
      simp only [hnum, hden, ne_eq, not_false_eq_true, if_true, hy, hy', hz, hz',
        Option.bind_eq_bind, Option.bind_some]

theorem lastChecked_eq (h : Convergents N D max a0 a1 num den) (hmax : max ≤ intMax)
    (hN : N ≤ int64Max) (hD : D ≤ int64Max) (hden : 0 < den)
    (hexceeds : max < num / den * a1.num + a0.num ∨ max < num / den * a1.den + a0.den) :
    lastChecked max a0 a1 num den (num / den) = some
      (if num * a1.den < den * (2 * largestFactor max a0 a1 (num / den) * a1.den + a0.den) then
        (⟨largestFactor max a0 a1 (num / den) * a1.num + a0.num,
          largestFactor max a0 a1 (num / den) * a1.den + a0.den⟩, den)
      else (a1, den)) := by
  obtain ⟨hnumLe, hNle, hDle⟩ := h.bounds hN hD
  have hquot0 : 0 ≤ num / den := Int.ediv_nonneg h.num_nonneg hden.le
  have hquot := Int.ediv_le_self den h.num_nonneg
  have hquotMul := Int.ediv_mul_le num hden.ne'
  have hroom : int64Max + int64Max < 2 ^ 64 ∧ intMax ≤ int64Max := by decide
  have hx := h.largest hexceeds
  unfold lastChecked
  rw [largestFactorChecked_eq h hmax hquot0 (by lia), Option.bind_eq_bind, Option.bind_some]
  generalize largestFactor max a0 a1 (num / den) = x at hx ⊢
  have hx0 := hx.nonneg
  have hlt := hx.lt
  have hden1 := h.den1_nonneg
  have hden0 := h.den0_nonneg
  -- the sum of the test, times `den`, is at most twice `D`
  have hxden : x * den ≤ num := le_trans (mul_le_mul_of_nonneg_right hlt.le hden.le) hquotMul
  have hscaled := mul_le_mul_of_nonneg_right hxden hden1
  have hsum0 : 0 ≤ 2 * x * a1.den + a0.den :=
    add_nonneg (mul_nonneg (by lia) hden1) hden0
  have hprod : den * (2 * x * a1.den + a0.den) ≤ int64Max + int64Max := by
    have hrest := mul_nonneg hden.le hden0
    have hnumden := mul_nonneg h.num_nonneg hden1
    linarith
  have hsum := le_of_mul_le hden hsum0 hprod
  have hright := mul_nonneg h.num_nonneg hden1
  have hrest := mul_nonneg hden.le hden0
  rw [uint64Op_eq (by lia) (by lia), Option.bind_some,
    nextChecked_eq (by lia) hden1 hden0 (by lia), Option.bind_some,
    uint64Op_eq (mul_nonneg hden.le hsum0) (by lia), Option.bind_some,
    int64Op_nonneg hright (by lia), Option.bind_some]
  have hn0 : 0 ≤ x * a1.num + a0.num := add_nonneg (mul_nonneg hx0 h.num1_nonneg) h.num0_nonneg
  have hd0 : 0 ≤ x * a1.den + a0.den := add_nonneg (mul_nonneg hx0 hden1) hden0
  have hnLe := hx.num_le
  have hdLe := hx.den_le
  split
  · rw [nextChecked_eq hx0 h.num1_nonneg h.num0_nonneg (by lia), Option.bind_some,
      nextChecked_eq hx0 hden1 hden0 (by lia), Option.bind_some, intOp_eq hn0 (by lia),
      Option.bind_some, intOp_eq hd0 (by lia), Option.bind_some]
  · rfl

theorem avReduceLoopChecked_eq {rounds : Nat} (h : Convergents N D max a0 a1 num den)
    (hmax : max ≤ intMax) (hN : N ≤ int64Max) (hD : D ≤ int64Max) :
    avReduceLoopChecked max rounds a0 a1 num den =
      some (avReduceLoop max rounds a0 a1 num den) := by
  induction rounds generalizing a0 a1 num den with
  | zero => rfl
  | succ rounds ih =>
    by_cases hne : den = 0
    · simp only [avReduceLoopChecked, avReduceLoop, hne, ne_eq, not_true_eq_false, if_false]
    · have hden : 0 < den := lt_of_le_of_ne h.den_nonneg (Ne.symm hne)
      obtain ⟨hnumLe, hNle, hDle⟩ := h.bounds hN hD
      have hquot0 : 0 ≤ num / den := Int.ediv_nonneg h.num_nonneg hden.le
      have hquotMul := Int.ediv_mul_le num hden.ne'
      have hroom : int64Max < 2 ^ 64 := by decide
      have hprod0 : 0 ≤ den * (num / den) := mul_nonneg hden.le hquot0
      have hprodLe : den * (num / den) ≤ num := by rwa [mul_comm]
      -- the next convergent, times `den`, is at most the fraction
      have hnext : ∀ {k c : Int}, 0 ≤ k → 0 ≤ c → num * k + den * c ≤ int64Max →
          0 ≤ num / den * k + c ∧ num / den * k + c ≤ int64Max := by
        intro k c hk hc hle
        have hnonneg : 0 ≤ num / den * k + c := add_nonneg (mul_nonneg hquot0 hk) hc
        refine ⟨hnonneg, le_of_mul_le hden hnonneg ?_⟩
        have hmul := mul_le_mul_of_nonneg_right hquotMul hk
        linarith
      obtain ⟨hn0, hn⟩ := hnext h.num1_nonneg h.num0_nonneg hNle
      obtain ⟨hd0, hd⟩ := hnext h.den1_nonneg h.den0_nonneg hDle
      simp only [avReduceLoopChecked, avReduceLoop, ne_eq, hne, not_false_eq_true, if_true,
        Option.bind_eq_bind, uint64Op_eq hprod0 (show den * (num / den) < 2 ^ 64 by lia),
        Option.bind_some,
        int64Op_nonneg (show 0 ≤ num - den * (num / den) by lia)
          (show num - den * (num / den) ≤ int64Max by lia),
        nextChecked_eq hquot0 h.num1_nonneg h.num0_nonneg (by lia), int64Op_nonneg hn0 hn,
        nextChecked_eq hquot0 h.den1_nonneg h.den0_nonneg (by lia), int64Op_nonneg hd0 hd]
      split
      · rename_i hexceeds
        rw [lastChecked_eq h hmax hN hD hden hexceeds]
      · rename_i hsmall
        rw [not_or, not_lt, not_lt] at hsmall
        rw [intOp_eq hn0 (by lia), Option.bind_some, intOp_eq hd0 (by lia), Option.bind_some]
        exact ih (h.step hne hsmall.1 hsmall.2)

/-! ## All inputs -/

/-- The fraction in lowest terms, without its sign. -/
structure Lowest (num den N D : Int) : Prop where
  num_eq : |num| = N * avGcdBinary |num| |den|
  den_eq : |den| = D * avGcdBinary |num| |den|
  gcd_pos : 0 < avGcdBinary |num| |den|
  num_nonneg : 0 ≤ N
  num_le : N ≤ int64Max
  den_pos : 0 < D
  den_le : D ≤ int64Max
  coprime : IsCoprime N D

theorem lowest (hnum : IsTimestamp num) (hden : IsTimestamp den) (hne : den ≠ 0) :
    Lowest num den (|num| / avGcdBinary |num| |den|) (|den| / avGcdBinary |num| |den|) := by
  have hbinary : ∀ {x : Int}, IsTimestamp x → |x|.natAbs < 2 ^ 64 := by
    intro x hx
    have hle := hx.abs_le_max
    rw [← Int.natCast_natAbs] at hle
    unfold int64Max at hle
    rw [Int.natAbs_abs]
    lia
  have hgcd : avGcdBinary |num| |den| = (Int.gcd num den : Int) := by
    rw [avGcdBinary_eq (hbinary hnum) (hbinary hden), avGcd]
    by_cases hzero : num = 0
    · simp [hzero]
    · rw [if_neg (abs_ne_zero.2 hzero), if_neg (abs_ne_zero.2 hne), Int.gcd, Int.natAbs_abs,
        Int.natAbs_abs]
      rfl
  have hpos : 0 < (Int.gcd num den : Int) := by
    exact_mod_cast Int.gcd_pos_of_ne_zero_right num hne
  obtain ⟨n, hn⟩ := (dvd_abs _ _).2 (Int.gcd_dvd_left num den)
  obtain ⟨d, hd⟩ := (dvd_abs _ _).2 (Int.gcd_dvd_right num den)
  rw [hgcd]
  have hnq : |num| / (Int.gcd num den : Int) = n := by
    rw [hn, Int.mul_ediv_cancel_left _ hpos.ne']
  have hdq : |den| / (Int.gcd num den : Int) = d := by
    rw [hd, Int.mul_ediv_cancel_left _ hpos.ne']
  have hn0 : 0 ≤ n := by
    rw [← hnq]
    exact Int.ediv_nonneg (abs_nonneg _) hpos.le
  have hd0 : 0 ≤ d := by
    rw [← hdq]
    exact Int.ediv_nonneg (abs_nonneg _) hpos.le
  have hd1 : d ≠ 0 := by
    rintro rfl
    rw [mul_zero, abs_eq_zero] at hd
    exact hne hd
  rw [hnq, hdq]
  refine ⟨by rw [hgcd, hn, mul_comm], by rw [hgcd, hd, mul_comm], by rw [hgcd]; exact hpos, hn0, ?_,
    by lia, ?_, ?_⟩
  · exact (le_of_mul_le hpos hn0 hn.ge).trans hnum.abs_le_max
  · exact (le_of_mul_le hpos hd0 hd.ge).trans hden.abs_le_max
  · rw [Int.isCoprime_iff_gcd_eq_one]
    have habs : Int.gcd |num| |den| = Int.gcd num den := by
      rw [Int.gcd, Int.natAbs_abs, Int.natAbs_abs, Int.gcd]
    rw [hn, hd, Int.gcd_mul_left, Int.natAbs_natCast] at habs
    have hposNat : 0 < Int.gcd num den := by exact_mod_cast hpos
    exact Nat.eq_of_mul_eq_mul_left hposNat (by rw [habs, mul_one])

theorem avReduceLowest_best (hmax : 1 ≤ max) (h : Lowest num den N D) :
    BestApproximation N D max (avReduceLowest N D max).1 ∧
      ((avReduceLowest N D max).2 = 0 ↔ (avReduceLowest N D max).1 = ⟨N, D⟩) := by
  unfold avReduceLowest
  by_cases hsmall : N ≤ max ∧ D ≤ max
  · rw [if_pos hsmall]
    refine ⟨⟨h.num_nonneg, hsmall.1, h.den_pos, hsmall.2, h.coprime, ?_⟩, by simp⟩
    intro p q _ _ _
    rw [sub_self, abs_zero]
    exact abs_nonneg _
  · rw [if_neg hsmall]
    have hconvergents := Convergents.start hmax h.num_nonneg h.den_pos.le h.coprime
    obtain ⟨hbest, hleft⟩ :=
      avReduceLoop_best hconvergents h.den_pos (by lia) (Nat.lt_succ_self D.toNat)
    refine ⟨hbest, fun hzero => absurd hzero hleft, fun heq => absurd ?_ hsmall⟩
    have hnum := hbest.num_le
    have hden := hbest.den_le
    rw [heq] at hnum hden
    exact ⟨hnum, hden⟩

theorem avReduce_eq (h : Lowest num den N D) :
    avReduce num den max =
      (⟨if decide (num < 0) != decide (den < 0) then -(avReduceLowest N D max).1.num
          else (avReduceLowest N D max).1.num, (avReduceLowest N D max).1.den⟩,
        decide ((avReduceLowest N D max).2 = 0)) := by
  have hgcd := h.gcd_pos.ne'
  have hN : |num| / avGcdBinary |num| |den| = N := Int.ediv_eq_of_eq_mul_left hgcd h.num_eq
  have hD : |den| / avGcdBinary |num| |den| = D := Int.ediv_eq_of_eq_mul_left hgcd h.den_eq
  simp only [avReduce, ne_eq, hgcd, not_false_eq_true, if_true, hN, hD]

theorem avReduceChecked_eq (hnum : |num| ≤ int64Max) (hden : |den| ≤ int64Max) (hmax : 1 ≤ max)
    (hmax' : max ≤ intMax) (h : Lowest num den N D) :
    avReduceChecked num den max = some (avReduce num den max) := by
  have hgcd := h.gcd_pos.ne'
  have hN : |num| / avGcdBinary |num| |den| = N := Int.ediv_eq_of_eq_mul_left hgcd h.num_eq
  have hD : |den| / avGcdBinary |num| |den| = D := Int.ediv_eq_of_eq_mul_left hgcd h.den_eq
  have hloop : avReduceLowestChecked N D max = some (avReduceLowest N D max) := by
    unfold avReduceLowestChecked avReduceLowest
    split
    · rfl
    · exact avReduceLoopChecked_eq (Convergents.start hmax h.num_nonneg h.den_pos.le h.coprime)
        hmax' h.num_le h.den_le
  have hbest := (avReduceLowest_best hmax h).1
  have hsign : ∀ sign : Bool, intOp (if sign then -(avReduceLowest N D max).1.num
      else (avReduceLowest N D max).1.num) = some (if sign then -(avReduceLowest N D max).1.num
      else (avReduceLowest N D max).1.num) := by
    have h0 := hbest.num_nonneg
    have hle := hbest.num_le
    unfold intMax at hmax'
    intro sign
    cases sign <;> exact if_pos ⟨by simp; lia, by simp; lia⟩
  rw [avReduce_eq h]
  simp only [avReduceChecked, int64Op_nonneg (abs_nonneg num) hnum,
    int64Op_nonneg (abs_nonneg den) hden, Option.bind_eq_bind, Option.bind_some, ne_eq, hgcd,
    not_false_eq_true, if_true, hN, hD, hloop, hsign]

theorem Lowest.div_eq (h : Lowest num den N D) (hne : den ≠ 0) :
    (num : ℚ) / den = if decide (num < 0) != decide (den < 0) then -((N : ℚ) / D)
      else (N : ℚ) / D := by
  have hgcd : (avGcdBinary |num| |den| : ℚ) ≠ 0 := by exact_mod_cast h.gcd_pos.ne'
  have habs : |(num : ℚ)| / |(den : ℚ)| = N / D := by
    have hn : |(num : ℚ)| = N * avGcdBinary |num| |den| := by exact_mod_cast h.num_eq
    have hd : |(den : ℚ)| = D * avGcdBinary |num| |den| := by exact_mod_cast h.den_eq
    rw [hn, hd, mul_div_mul_right _ _ hgcd]
  rw [← habs]
  rcases lt_or_ge num 0 with hnum | hnum <;> rcases lt_or_gt_of_ne hne with hden | hden
  · have hnq : (num : ℚ) < 0 := by exact_mod_cast hnum
    have hdq : (den : ℚ) < 0 := by exact_mod_cast hden
    simp [hnum, hden, abs_of_neg hnq, abs_of_neg hdq]
  · have hnq : (num : ℚ) < 0 := by exact_mod_cast hnum
    have hdq : (0 : ℚ) < den := by exact_mod_cast hden
    simp [hnum, hden.not_gt, abs_of_neg hnq, abs_of_pos hdq, neg_div]
  · have hnq : (0 : ℚ) ≤ num := by exact_mod_cast hnum
    have hdq : (den : ℚ) < 0 := by exact_mod_cast hden
    simp [hnum.not_gt, hden, abs_of_nonneg hnq, abs_of_neg hdq, div_neg]
  · have hnq : (0 : ℚ) ≤ num := by exact_mod_cast hnum
    have hdq : (0 : ℚ) < den := by exact_mod_cast hden
    simp [hnum.not_gt, hden.not_gt, abs_of_nonneg hnq, abs_of_pos hdq]

theorem Lowest.sign_eq (h : Lowest num den N D) (hne : den ≠ 0) :
    (num * den).sign = if N = 0 then 0 else
      if decide (num < 0) != decide (den < 0) then -1 else 1 := by
  have hgcd := h.gcd_pos
  have hzero : N = 0 ↔ num = 0 := by
    rw [← abs_eq_zero (a := num), h.num_eq, mul_eq_zero, or_iff_left hgcd.ne']
  simp only [hzero, Int.sign_mul]
  rcases lt_trichotomy num 0 with hnum | rfl | hnum
  · rcases lt_or_gt_of_ne hne with hden | hden
    · simp [hnum, hden, hnum.ne, Int.sign_eq_neg_one_of_neg]
    · simp [hnum, hden.not_gt, hnum.ne, Int.sign_eq_neg_one_of_neg, Int.sign_eq_one_of_pos hden]
  · simp
  · rcases lt_or_gt_of_ne hne with hden | hden
    · simp [hnum.not_gt, hden, hnum.ne', Int.sign_eq_neg_one_of_neg, Int.sign_eq_one_of_pos hnum]
    · simp [hnum.not_gt, hden.not_gt, hnum.ne', Int.sign_eq_one_of_pos hnum,
        Int.sign_eq_one_of_pos hden]

theorem BestApproximation.eq_iff {r : AVRational} (hr : BestApproximation N D max r)
    (h : Lowest num den N D) : (r.num : ℚ) / r.den = N / D ↔ r = ⟨N, D⟩ := by
  have hrq : (r.den : ℚ) ≠ 0 := by exact_mod_cast hr.den_pos.ne'
  have hDq : (D : ℚ) ≠ 0 := by exact_mod_cast h.den_pos.ne'
  constructor
  · intro heq
    rw [div_eq_div_iff hrq hDq] at heq
    have hcross : r.num * D = N * r.den := by exact_mod_cast heq
    have hdvd : r.den ∣ D := hr.coprime.symm.dvd_of_dvd_mul_left ⟨N, by rw [hcross, mul_comm]⟩
    have hdvd' : D ∣ r.den := h.coprime.symm.dvd_of_dvd_mul_left ⟨r.num, by
      rw [← hcross, mul_comm]⟩
    have hden : r.den = D := Int.dvd_antisymm hr.den_pos.le h.den_pos.le hdvd hdvd'
    rw [hden] at hcross
    have hnum : r.num = N := mul_right_cancel₀ h.den_pos.ne' hcross
    obtain ⟨n, d⟩ := r
    exact congrArg₂ AVRational.mk hnum hden
  · rintro rfl
    rfl

/-- **`av_reduce`** gives the best small approximation, in lowest terms and with the right sign, and
tells whether it is exact; no operation wraps. -/
theorem avReduce_best (hnum : IsTimestamp num) (hden : IsTimestamp den) (hne : den ≠ 0)
    (hmax : 1 ≤ max) (hmax' : max ≤ intMax) :
    ∃ n d exact, avReduce num den max = (⟨n, d⟩, exact) ∧
      avReduceChecked num den max = some (⟨n, d⟩, exact) ∧
      |n| ≤ max ∧ 0 < d ∧ d ≤ max ∧ Int.gcd |n| d = 1 ∧ (n = 0 ∨ n.sign = (num * den).sign) ∧
      (exact = true ↔ (n : ℚ) / d = num / den) ∧
      ∀ p q : Int, 0 ≤ p → p ≤ max → 1 ≤ q → q ≤ max →
        abs (((|n| : Int) : ℚ) / d - abs ((num : ℚ) / den)) ≤
          abs ((p : ℚ) / q - abs ((num : ℚ) / den)) := by
  have h := lowest hnum hden hne
  obtain ⟨hbest, hexact⟩ := avReduceLowest_best hmax h
  have hchecked := avReduceChecked_eq hnum.abs_le_max hden.abs_le_max hmax hmax' h
  have hdiv := h.div_eq hne
  have heq := hbest.eq_iff h
  have hsign := h.sign_eq hne
  rw [avReduce_eq h] at hchecked ⊢
  generalize |num| / avGcdBinary |num| |den| = N at *
  generalize |den| / avGcdBinary |num| |den| = D at *
  generalize avReduceLowest N D max = result at *
  generalize (decide (num < 0) != decide (den < 0)) = sign at *
  obtain ⟨⟨n, d⟩, left⟩ := result
  dsimp only at *
  have hn0 : 0 ≤ n := hbest.num_nonneg
  have hvalue : (0 : ℚ) ≤ (N : ℚ) / D :=
    div_nonneg (by exact_mod_cast h.num_nonneg) (by exact_mod_cast h.den_pos.le)
  have habs : |if sign then -n else n| = n := by
    cases sign <;> simp [abs_of_nonneg hn0]
  have habsDiv : abs ((num : ℚ) / den) = N / D := by
    rw [hdiv]
    cases sign <;> simp [abs_of_nonneg hvalue]
  refine ⟨_, _, _, rfl, hchecked, by rw [habs]; exact hbest.num_le, hbest.den_pos, hbest.den_le,
    ?_, ?_, ?_, ?_⟩
  · rw [habs]
    exact Int.isCoprime_iff_gcd_eq_one.1 hbest.coprime
  · rcases hn0.lt_or_eq with hpos | hzero
    · right
      rw [hsign]
      have hN : N ≠ 0 := by
        rintro rfl
        have hnearest := hbest.nearest 0 1 (by lia) le_rfl hmax
        have hpositive : (0 : ℚ) < (n : ℚ) / d :=
          div_pos (by exact_mod_cast hpos) (by exact_mod_cast hbest.den_pos)
        simp only [Int.cast_zero, zero_div, sub_zero, abs_zero] at hnearest
        exact absurd (abs_nonpos_iff.1 hnearest) hpositive.ne'
      cases sign <;> simp [hN, Int.sign_eq_one_of_pos hpos]
    · left
      cases sign <;> simp [hzero.symm]
  · rw [decide_eq_true_iff, hexact, ← heq, hdiv]
    cases sign <;> simp [neg_div]
  · intro p q _ hp hq0 hq
    rw [habs, habsDiv]
    exact hbest.nearest p q hp hq0 hq

/-- Three digits for a multiple of pi. -/
theorem avReduce_best_pi :
    ∃ n d exact, avReduce (-314159265) 100000000 1000 = (⟨n, d⟩, exact) ∧
      avReduceChecked (-314159265) 100000000 1000 = some (⟨n, d⟩, exact) ∧
      |n| ≤ 1000 ∧ 0 < d ∧ d ≤ 1000 ∧ Int.gcd |n| d = 1 ∧
      (n = 0 ∨ n.sign = (-314159265 * 100000000 : Int).sign) ∧
      (exact = true ↔ (n : ℚ) / d = ((-314159265 : Int) : ℚ) / (100000000 : Int)) ∧
      ∀ p q : Int, 0 ≤ p → p ≤ 1000 → 1 ≤ q → q ≤ 1000 →
        abs (((|n| : Int) : ℚ) / d - abs (((-314159265 : Int) : ℚ) / (100000000 : Int))) ≤
          abs ((p : ℚ) / q - abs (((-314159265 : Int) : ℚ) / (100000000 : Int))) :=
  avReduce_best (by decide) (by decide) (by decide) (by decide) (by decide)

example : avReduce (-314159265) 100000000 1000 = (⟨-355, 113⟩, false) := by decide +kernel

end FFmpeg.Libavutil
