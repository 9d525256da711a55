import FFmpeg.Libavcodec.Golomb
import Mathlib.Algebra.BigOperators.Intervals
import Mathlib.Algebra.Order.BigOperators.Group.Finset
import Mathlib.Algebra.Order.Ring.Abs
import Mathlib.Tactic.Linarith
import Mathlib.Tactic.Positivity
import Mathlib.Tactic.Ring

/-!
# Linear prediction of FLAC

The predictors of `flacdsp_lpc_template.c` and `flacdsp.c`, with the parts of `flacenc.c` and
`flacdec.c` that choose between them.  Signed arithmetic of the encoder overflows as `none`; the
decoder calculates with unsigned numbers, which are kept as an `int`.  A sample behind the block
reads as zero.
-/

namespace FFmpeg.Libavcodec.FlacLpc

open Golomb

/-- A signed number of `width` bits; its overflow is not defined. -/
def signed (width : Nat) (x : Int) : Option Int :=
  if -2 ^ (width - 1) ≤ x ∧ x < 2 ^ (width - 1) then some x else none

/-- An unsigned number of 32 bits as an `int`. -/
def int32 (x : Int) : Int := Int.bmod x (2 ^ 32)

/-- `av_clipl_int32`. -/
def avClipl32 (a : Int) : Int := max (-2 ^ 31) (min a (2 ^ 31 - 1))

/-- `sample_size_table`. -/
def sampleSizeTable : List Nat := [0, 8, 12, 0, 16, 20, 24, 0]

/-! ## The encoder -/

/-- What the template makes of a `SAMPLE_SIZE`: the bits of `sum_type`, and `CLIP`. -/
structure SampleSize where
  sumWidth : Nat
  clip : Int → Int

/-- `SAMPLE_SIZE` is 16. -/
def sampleSize16 : SampleSize := ⟨32, fun x => x⟩

/-- `SAMPLE_SIZE` is 32. -/
def sampleSize32 : SampleSize := ⟨64, avClipl32⟩

variable (size : SampleSize)

/-- `p += MUL(c, s)`. -/
def mulAdd (p c s : Int) : Option Int := do
  let product ← signed size.sumWidth (c * s)
  signed size.sumWidth (p + product)

/-- The two sums of a round, with the sample between them. -/
structure Sums where
  s : Int
  p0 : Int
  p1 : Int

/-- `LPC1`. -/
def lpc1 (coefs smp : List Int) (i x : Nat) (sums : Sums) : Option Sums := do
  let c := coefs.getD (x - 1) 0
  let p0 ← mulAdd size sums.p0 c sums.s
  let s := smp.getD (i - x + 1) 0
  let p1 ← mulAdd size sums.p1 c s
  return ⟨s, p0, p1⟩

/-- `LPC1(x)` and all that it falls through to. -/
def lpc1From (coefs smp : List Int) (i : Nat) : Nat → Sums → Option Sums
  | 0, sums => some sums
  | x + 1, sums => do lpc1From coefs smp i x (← lpc1 size coefs smp i (x + 1) sums)

/-- The case of the `switch` in `lpc_encode_unrolled` that is taken. -/
def unrolledFrom (order : Nat) (big : Bool) : Nat :=
  if big then if 9 ≤ order ∧ order ≤ 32 then order else 0
  else if order ≤ 8 then order else 0

/-- The two residuals of a round. -/
def residualPair (smp : List Int) (shift i : Nat) (sums : Sums) : Option (Int × Int) := do
  let r0 ← signed 32 (smp.getD i 0 - size.clip (sums.p0 >>> shift))
  let r1 ← signed 32 (smp.getD (i + 1) 0 - size.clip (sums.p1 >>> shift))
  return (r0, r1)

/-- The rounds of `lpc_encode_unrolled`, and of the loop of a small build: `sumsAt` adds up the
sums of a round. -/
def lpcEncodeLoop (sumsAt : Nat → Option Sums) (smp : List Int) (len shift : Nat) :
    Nat → Nat → Option (List Int)
  | 0, _ => some []
  | rounds + 1, i =>
    if i < len then do
      let (r0, r1) ← residualPair size smp shift i (← sumsAt i)
      let rest ← lpcEncodeLoop sumsAt smp len shift rounds (i + 2)
      return r0 :: r1 :: rest
    else some []

/-- The sums of a round of `lpc_encode_unrolled`. -/
def unrolledSums (smp : List Int) (order : Nat) (coefs : List Int) (big : Bool) (i : Nat) :
    Option Sums :=
  lpc1From size coefs smp i (unrolledFrom order big) ⟨smp.getD (i - order) 0, 0, 0⟩

/-- `lpc_encode_unrolled`. -/
def lpcEncodeUnrolled (smp : List Int) (len order : Nat) (coefs : List Int) (shift : Nat)
    (big : Bool) : Option (List Int) :=
  lpcEncodeLoop size (unrolledSums size smp order coefs big) smp len shift len order

/-- The inner loop of a small build. -/
def smallSumsLoop (coefs smp : List Int) (i : Nat) : Nat → Option Sums
  | 0 => some ⟨smp.getD i 0, 0, 0⟩
  | j + 1 => do
    let sums ← smallSumsLoop coefs smp i j
    let c := coefs.getD j 0
    let p1 ← mulAdd size sums.p1 c sums.s
    let s := smp.getD (i - j - 1) 0
    let p0 ← mulAdd size sums.p0 c s
    return ⟨s, p0, p1⟩

/-- `flac_lpc_encode_c`; `small` is `CONFIG_SMALL`. -/
def flacLpcEncode (small : Bool) (smp : List Int) (len order : Nat) (coefs : List Int)
    (shift : Nat) : Option (List Int) := do
  let residual ←
    if small then
      lpcEncodeLoop size (fun i => smallSumsLoop size coefs smp i order) smp len shift len order
    else lpcEncodeUnrolled size smp len order coefs shift (!(1 ≤ order ∧ order ≤ 8))
  -- the last round of an odd block has a residual too many
  return (smp.take order ++ residual).take len

/-- The residual in `encode_residual_ch`, for the coefficients that it has found. -/
def encodeResidualLpc (small : Bool) (bpsCode precision : Nat) (smp : List Int) (n order : Nat)
    (coefs : List Int) (shift : Nat) : Option (List Int) :=
  if bpsCode * 4 + precision + avLog2 order ≤ 32 then
    flacLpcEncode sampleSize16 small smp n order coefs shift
  else flacLpcEncode sampleSize32 small smp n order coefs shift

/-! ## The decoder -/

/-- What the inner loop of `flac_lpc_16_c` works on. -/
structure Lanes where
  s0 : Int
  s1 : Int
  c : Int
  d : Int

/-- The inner loop of `flac_lpc_16_c`, with `decoded` at `p`, for the first `m` values of `j`. -/
def lpc16Lanes (decoded coeffs : List Int) (p : Nat) : Nat → Lanes
  | 0 => ⟨0, 0, coeffs.getD 0 0, decoded.getD p 0⟩
  | m + 1 =>
    let lanes := lpc16Lanes decoded coeffs p m
    let s0 := int32 (lanes.s0 + lanes.c * lanes.d)
    let d := decoded.getD (p + (m + 1)) 0
    ⟨s0, int32 (lanes.s1 + lanes.c * d), coeffs.getD (m + 1) 0, d⟩

/-- The sum of `flac_lpc_16_c` for the last sample of an odd block, and of the second loop of
`lpc_analyze_remodulate`. -/
def sum32 (decoded coeffs : List Int) (p : Nat) : Nat → Int
  | 0 => 0
  | j + 1 => int32 (sum32 decoded coeffs p j + coeffs.getD j 0 * decoded.getD (p + j) 0)

/-- The sum of `flac_lpc_32_c`, which does not overflow. -/
def sum64 (decoded coeffs : List Int) (p : Nat) : Nat → Int
  | 0 => 0
  | j + 1 => sum64 decoded coeffs p j + coeffs.getD j 0 * decoded.getD (p + j) 0

/-- `decoded[i] += sum >> qlevel`. -/
def addPrediction (decoded : List Int) (i : Nat) (sum : Int) (qlevel : Nat) : List Int :=
  decoded.set i (int32 (decoded.getD i 0 + sum >>> qlevel))

/-- `flac_lpc_16_c`, from the sample `i` on. -/
def flacLpc16Loop (coeffs : List Int) (predOrder qlevel len : Nat) : Nat → Nat → List Int → List Int
  | 0, _, decoded => decoded
  | rounds + 1, i, decoded =>
    if i + 1 < len then
      let lanes := lpc16Lanes decoded coeffs (i - predOrder) (predOrder - 1)
      let s0 := int32 (lanes.s0 + lanes.c * lanes.d)
      let decoded := addPrediction decoded i s0 qlevel
      let s1 := int32 (lanes.s1 + lanes.c * decoded.getD i 0)
      flacLpc16Loop coeffs predOrder qlevel len rounds (i + 2)
        (addPrediction decoded (i + 1) s1 qlevel)
    else if i < len then
      addPrediction decoded i (sum32 decoded coeffs (i - predOrder) predOrder) qlevel
    else decoded

/-- `flac_lpc_16_c`. -/
def flacLpc16 (decoded coeffs : List Int) (predOrder qlevel len : Nat) : List Int :=
  flacLpc16Loop coeffs predOrder qlevel len len predOrder decoded

/-- `flac_lpc_32_c`, and the second loop of `lpc_analyze_remodulate`: every sample gets its
prediction from the samples before it. -/
def flacLpcLoop (sum : List Int → List Int → Nat → Nat → Int) (coeffs : List Int)
    (predOrder qlevel len : Nat) : Nat → Nat → List Int → List Int
  | 0, _, decoded => decoded
  | rounds + 1, i, decoded =>
    if i < len then
      flacLpcLoop sum coeffs predOrder qlevel len rounds (i + 1)
        (addPrediction decoded i (sum decoded coeffs (i - predOrder) predOrder) qlevel)
    else decoded

/-- `flac_lpc_32_c`. -/
def flacLpc32 (decoded coeffs : List Int) (predOrder qlevel len : Nat) : List Int :=
  flacLpcLoop sum64 coeffs predOrder qlevel len len predOrder decoded

/-- `sigma |= decoded[i] + ebps`, for the samples behind the first `order` of them. -/
def sigma (decoded : List Int) (order len : Nat) (ebps : Int) : Nat :=
  ((decoded.take len).drop order).foldl (fun acc x => acc ||| ((x + ebps) % 2 ^ 32).toNat) 0

/-- The first loop of `lpc_analyze_remodulate`, from the sample below `i` down. -/
def demodulate (coeffs : List Int) (order qlevel : Nat) : Nat → List Int → List Int
  | 0, decoded => decoded
  | i + 1, decoded =>
    if order ≤ i then
      demodulate coeffs order qlevel i
        (decoded.set i (int32 (decoded.getD i 0 -
          sum64 decoded coeffs (i - order) order >>> qlevel)))
    else decoded

/-- `lpc_analyze_remodulate`. -/
def lpcAnalyzeRemodulate (decoded coeffs : List Int) (order qlevel len bps : Nat) : List Int :=
  let ebps := 1 <<< (bps - 1)
  if sigma decoded order len ebps < 2 * ebps then decoded
  else
    flacLpcLoop sum32 coeffs order qlevel len len order
      (demodulate coeffs order qlevel len decoded)

/-- `decode_subframe_lpc`, once it has read the samples before the predicted ones and the
residual into `decoded`, and the coefficients, which it stores from the last one on.
`streamBps` is the sample size of the stream. -/
def decodeSubframeLpc (buggyLpc : Bool) (streamBps bps coeffPrec qlevel blocksize predOrder : Nat)
    (coeffs decoded : List Int) : List Int :=
  if buggyLpc ∧ streamBps ≤ 16 ∨
      ¬ buggyLpc ∧ bps ≤ 16 ∧ bps + coeffPrec + avLog2 predOrder ≤ 32 then
    flacLpc16 decoded coeffs predOrder qlevel blocksize
  else
    let decoded := flacLpc32 decoded coeffs predOrder qlevel blocksize
    if streamBps ≤ 16 then lpcAnalyzeRemodulate decoded coeffs predOrder qlevel blocksize bps
    else decoded

end FlacLpc
end Libavcodec
end FFmpeg

/-! ## The predictors are exact

A sum of products of coefficients and samples stays in 32 bits if the largest product does so
as many times as there are coefficients.  Then the residuals of both encoders are the same, and
both decoders get the samples from them. -/

namespace FFmpeg
namespace Libavcodec
namespace FlacLpc

open Golomb

variable {size : SampleSize} {coefs smp : List Int} {shift order len : Nat} {m b : Int}

/-! ## Sums without overflow -/

/-- The sum of the products of the first `x` coefficients and the samples before `i`. -/
def prediction (coefs smp : List Int) (i x : Nat) : Int :=
  ∑ y ∈ Finset.range x, coefs.getD y 0 * smp.getD (i - 1 - y) 0

theorem prediction_succ (coefs smp : List Int) (i x : Nat) :
    prediction coefs smp i (x + 1) =
      prediction coefs smp i x + coefs.getD x 0 * smp.getD (i - 1 - x) 0 :=
  Finset.sum_range_succ _ x

/-- No product is larger than `m`. -/
def Terms (coefs smp : List Int) (m : Int) : Prop :=
  ∀ y i, |coefs.getD y 0 * smp.getD i 0| ≤ m

theorem abs_prediction_le (h : Terms coefs smp m) (i x : Nat) :
    |prediction coefs smp i x| ≤ x * m := by
  induction x with
  | zero => simp [prediction]
  | succ x ih =>
    rw [prediction_succ]
    calc |prediction coefs smp i x + coefs.getD x 0 * smp.getD (i - 1 - x) 0|
        ≤ |prediction coefs smp i x| + |coefs.getD x 0 * smp.getD (i - 1 - x) 0| := abs_add_le _ _
      _ ≤ x * m + m := add_le_add ih (h _ _)
      _ = ((x + 1 : Nat) : Int) * m := by push_cast; ring

theorem signed_eq_some {width : Nat} {x y : Int} :
    signed width x = some y ↔ x = y ∧ -2 ^ (width - 1) ≤ x ∧ x < 2 ^ (width - 1) := by
  unfold signed
  split
  · rename_i hrange
    simp [hrange]
  · rename_i hrange
    simp only [reduceCtorEq, false_iff]
    exact fun h => hrange h.2

/-- The sums of `size` reach up to `b`, and a number up to `b` is not clipped. -/
structure Holds (size : SampleSize) (b : Int) : Prop where
  sum_lt : b < 2 ^ (size.sumWidth - 1)
  clip_eq : ∀ x, |x| ≤ b → size.clip x = x

theorem Holds.signed (h : Holds size b) {x : Int} (hx : |x| ≤ b) :
    signed size.sumWidth x = some x := by
  have hsum := h.sum_lt
  obtain ⟨hlow, hhigh⟩ := abs_le.1 hx
  exact signed_eq_some.2 ⟨rfl, by linarith, by linarith⟩

theorem Holds.mulAdd (h : Holds size b) {p c s : Int} (hterm : |c * s| ≤ m) (hp : |p| + m ≤ b) :
    mulAdd size p c s = some (p + c * s) := by
  have hproduct : |c * s| ≤ b := by linarith [abs_nonneg p]
  have hsum : |p + c * s| ≤ b := (abs_add_le p (c * s)).trans (by linarith)
  simp [FlacLpc.mulAdd, h.signed hproduct, h.signed hsum]

/-- The sums of the unrolled loop, which starts with the last coefficient. -/
theorem lpc1From_eq (h : Holds size b) (hterms : Terms coefs smp m) {i x : Nat} (hx : x ≤ i)
    {p0 p1 : Int} (h0 : |p0| + x * m ≤ b) (h1 : |p1| + x * m ≤ b) :
    lpc1From size coefs smp i x ⟨smp.getD (i - x) 0, p0, p1⟩ =
      some ⟨smp.getD i 0, p0 + prediction coefs smp i x, p1 + prediction coefs smp (i + 1) x⟩ := by
  induction x generalizing p0 p1 with
  | zero => simp [lpc1From, prediction]
  | succ x ih =>
    have hm : 0 ≤ m := (abs_nonneg _).trans (hterms 0 0)
    have hxm : 0 ≤ (x : Int) * m := by positivity
    push_cast at h0 h1
    have hterm0 : |coefs.getD x 0 * smp.getD (i - (x + 1)) 0| ≤ m := hterms _ _
    have hterm1 : |coefs.getD x 0 * smp.getD (i - x) 0| ≤ m := hterms _ _
    have hstep0 := h.mulAdd hterm0 (show |p0| + m ≤ b by linarith)
    have hstep1 := h.mulAdd hterm1 (show |p1| + m ≤ b by linarith)
    have hnext : i - (x + 1) + 1 = i - x := by lia
    have hone : lpc1 size coefs smp i (x + 1) ⟨smp.getD (i - (x + 1)) 0, p0, p1⟩ =
        some ⟨smp.getD (i - x) 0, p0 + coefs.getD x 0 * smp.getD (i - (x + 1)) 0,
          p1 + coefs.getD x 0 * smp.getD (i - x) 0⟩ := by
      simp only [lpc1, Nat.add_sub_cancel, hstep0, hnext, Option.bind_eq_bind, Option.bind_some]
      rw [hstep1]
      rfl
    have hnext0 : |p0 + coefs.getD x 0 * smp.getD (i - (x + 1)) 0| + x * m ≤ b := by
      linarith [abs_add_le p0 (coefs.getD x 0 * smp.getD (i - (x + 1)) 0)]
    have hnext1 : |p1 + coefs.getD x 0 * smp.getD (i - x) 0| + x * m ≤ b := by
      linarith [abs_add_le p1 (coefs.getD x 0 * smp.getD (i - x) 0)]
    have hrest := ih (by lia) hnext0 hnext1
    simp only [lpc1From, hone, Option.bind_eq_bind, Option.bind_some]
    rw [hrest, prediction_succ, prediction_succ, show i - 1 - x = i - (x + 1) by lia,
      show i + 1 - 1 - x = i - x by lia]
    congr 2 <;> ring

theorem smallSumsLoop_eq (h : Holds size b) (hterms : Terms coefs smp m) {i j : Nat}
    (hj : (j : Int) * m ≤ b) :
    smallSumsLoop size coefs smp i j =
      some ⟨smp.getD (i - j) 0, prediction coefs smp i j, prediction coefs smp (i + 1) j⟩ := by
  induction j with
  | zero => simp [smallSumsLoop, prediction]
  | succ j ih =>
    have hm : 0 ≤ m := (abs_nonneg _).trans (hterms 0 0)
    push_cast at hj
    have h0 := abs_prediction_le hterms i j
    have h1 := abs_prediction_le hterms (i + 1) j
    have hstep1 : mulAdd size (prediction coefs smp (i + 1) j) (coefs.getD j 0)
        (smp.getD (i - j) 0) = some (prediction coefs smp (i + 1) (j + 1)) := by
      rw [prediction_succ, show i + 1 - 1 - j = i - j by lia]
      exact h.mulAdd (hterms _ _) (by linarith)
    have hstep0 : mulAdd size (prediction coefs smp i j) (coefs.getD j 0)
        (smp.getD (i - j - 1) 0) = some (prediction coefs smp i (j + 1)) := by
      rw [prediction_succ, show i - 1 - j = i - j - 1 by lia]
      exact h.mulAdd (hterms _ _) (by linarith)
    have hprev := ih (by linarith)
    simp only [smallSumsLoop, hprev, Option.bind_eq_bind, Option.bind_some]
    rw [hstep1]
    simp only [Option.bind_some]
    rw [hstep0]
    rfl

/-- The sums of a round of the encoder. -/
def sumsAt (size : SampleSize) (small : Bool) (smp : List Int) (order : Nat) (coefs : List Int)
    (i : Nat) : Option Sums :=
  if small then smallSumsLoop size coefs smp i order
  else unrolledSums size smp order coefs (!(1 ≤ order ∧ order ≤ 8)) i

theorem flacLpcEncode_eq (small : Bool) :
    flacLpcEncode size small smp len order coefs shift =
      (lpcEncodeLoop size (sumsAt size small smp order coefs) smp len shift len order).map
        fun residual => (smp.take order ++ residual).take len := by
  rw [Option.map_eq_bind]
  cases small <;> rfl

theorem unrolledFrom_eq (hpos : 1 ≤ order) (hle : order ≤ 32) :
    unrolledFrom order (!(1 ≤ order ∧ order ≤ 8)) = order := by
  by_cases hsmall : order ≤ 8
  · simp [unrolledFrom, hpos, hsmall]
  · simp [unrolledFrom, hpos, hsmall, hle]
    lia

theorem sumsAt_eq (h : Holds size b) (hterms : Terms coefs smp m) (small : Bool)
    (hpos : 1 ≤ order) (hle : order ≤ 32) (hb : (order : Int) * m ≤ b) {i : Nat} (hi : order ≤ i) :
    ∃ s, sumsAt size small smp order coefs i =
      some ⟨s, prediction coefs smp i order, prediction coefs smp (i + 1) order⟩ := by
  cases small with
  | true => exact ⟨_, smallSumsLoop_eq h hterms hb⟩
  | false =>
    have hzero : |(0 : Int)| + order * m ≤ b := by simpa using hb
    have hsums := lpc1From_eq h hterms hi hzero hzero
    refine ⟨smp.getD i 0, ?_⟩
    simp only [sumsAt, Bool.false_eq_true, if_false, unrolledSums, unrolledFrom_eq hpos hle]
    simpa using hsums

/-! ## Residuals -/

/-- The block when the samples up to `i` are known, and the residual is left from there on. -/
def partly (coefs smp : List Int) (shift order len i : Nat) : List Int :=
  (List.range len).map fun j =>
    if j < i then smp.getD j 0 else smp.getD j 0 - prediction coefs smp j order >>> shift

theorem getElem?_partly {i j : Nat} :
    (partly coefs smp shift order len i)[j]? =
      if j < len then
        some (if j < i then smp.getD j 0
          else smp.getD j 0 - prediction coefs smp j order >>> shift)
      else none := by
  unfold partly
  rw [List.getElem?_map]
  split
  · rename_i h
    rw [List.getElem?_range h, Option.map_some]
  · rename_i h
    rw [List.getElem?_eq_none (by rw [List.length_range]; lia), Option.map_none]

theorem partly_len (hlen : len ≤ smp.length) :
    partly coefs smp shift order len len = smp.take len := by
  apply List.ext_getElem?
  intro j
  rw [getElem?_partly, List.getElem?_take]
  by_cases hj : j < len
  · rw [if_pos hj, if_pos hj, if_pos hj, List.getD_eq_getElem?_getD,
      List.getElem?_eq_getElem (by lia), Option.getD_some]
  · rw [if_neg hj, if_neg hj]

/-- Every sample is in the range of `-half` up to `half`. -/
def Samples (smp : List Int) (half : Int) : Prop :=
  ∀ i, -half ≤ smp.getD i 0 ∧ smp.getD i 0 < half

theorem abs_shiftRight_le {x : Int} (hx : |x| ≤ b) (shift : Nat) : |x >>> shift| ≤ b := by
  have hpow : (0 : Int) < 2 ^ shift := by positivity
  have hone : (1 : Int) ≤ 2 ^ shift := hpow
  obtain ⟨hlow, hhigh⟩ := abs_le.1 hx
  have hb : 0 ≤ b := (abs_nonneg x).trans hx
  rw [Int.shiftRight_eq_div_pow, abs_le]
  push_cast
  constructor
  · rw [Int.le_ediv_iff_mul_le hpow]
    nlinarith
  · apply Int.ediv_le_of_le_mul hpow
    nlinarith

theorem residualPair_eq (h : Holds size b) {half : Int} (hsmp : Samples smp half)
    (hb : b + half ≤ 2 ^ 31) {s p0 p1 : Int} (h0 : |p0| ≤ b) (h1 : |p1| ≤ b) (shift i : Nat) :
    residualPair size smp shift i ⟨s, p0, p1⟩ =
      some (smp.getD i 0 - p0 >>> shift, smp.getD (i + 1) 0 - p1 >>> shift) := by
  have hone : ∀ j p, |p| ≤ b → signed 32 (smp.getD j 0 - size.clip (p >>> shift)) =
      some (smp.getD j 0 - p >>> shift) := by
    intro j p hp
    have hshift := abs_shiftRight_le hp shift
    obtain ⟨hlow, hhigh⟩ := abs_le.1 hshift
    obtain ⟨hslow, hshigh⟩ := hsmp j
    rw [h.clip_eq _ hshift]
    refine signed_eq_some.2 ⟨rfl, ?_, ?_⟩ <;> rw [show 32 - 1 = 31 from rfl] <;> linarith
  simp only [residualPair, hone _ _ h0, hone _ _ h1, Option.bind_eq_bind, Option.bind_some]
  rfl

/-- The loop gives the residuals from `i` on, and one more for an odd block. -/
theorem lpcEncodeLoop_eq {half : Int} (h : Holds size b) (hterms : Terms coefs smp m)
    (hsmp : Samples smp half) (small : Bool) (hpos : 1 ≤ order) (hle : order ≤ 32)
    (hm : (order : Int) * m ≤ b) (hb : b + half ≤ 2 ^ 31) {rounds i : Nat} (hi : order ≤ i)
    (hrounds : len ≤ i + rounds) :
    ∃ residual, lpcEncodeLoop size (sumsAt size small smp order coefs) smp len shift rounds i =
        some residual ∧
      ∀ j, i + j < len → residual[j]? =
        some (smp.getD (i + j) 0 - prediction coefs smp (i + j) order >>> shift) := by
  induction rounds generalizing i with
  | zero => exact ⟨[], rfl, fun j hj => by lia⟩
  | succ rounds ih =>
    by_cases hlt : i < len
    · obtain ⟨s, hsums⟩ := sumsAt_eq h hterms small hpos hle hm hi
      obtain ⟨rest, hrest, hresidual⟩ := ih (i := i + 2) (by lia) (by lia)
      have hpair := @residualPair_eq _ _ _ h _ hsmp hb s _ _
        ((abs_prediction_le hterms i order).trans hm)
        ((abs_prediction_le hterms (i + 1) order).trans hm) shift i
      refine ⟨_ :: _ :: rest, by
        simp only [lpcEncodeLoop, if_pos hlt, hsums, Option.bind_eq_bind, Option.bind_some, hpair,
          hrest]
        rfl, ?_⟩
      intro j hj
      match j with
      | 0 => rfl
      | 1 => rfl
      | j + 2 =>
        have hnext := hresidual j (by lia)
        rwa [show i + 2 + j = i + (j + 2) by lia] at hnext
    · exact ⟨[], if_neg hlt, fun j hj => by lia⟩

theorem flacLpcEncode_exact {half : Int} (h : Holds size b) (hterms : Terms coefs smp m)
    (hsmp : Samples smp half) (small : Bool) (hpos : 1 ≤ order) (hle : order ≤ 32)
    (hm : (order : Int) * m ≤ b) (hb : b + half ≤ 2 ^ 31) (horder : order ≤ len)
    (hlen : len ≤ smp.length) :
    flacLpcEncode size small smp len order coefs shift =
      some (partly coefs smp shift order len order) := by
  obtain ⟨residual, hloop, hresidual⟩ := @lpcEncodeLoop_eq _ _ _ shift _ _ _ _ _ h hterms hsmp
    small hpos hle hm hb len order (Nat.le_refl order) (Nat.le_add_left len order)
  rw [flacLpcEncode_eq, hloop, Option.map_some]
  congr 1
  apply List.ext_getElem?
  intro j
  rw [getElem?_partly, List.getElem?_take]
  by_cases hj : j < len
  · rw [if_pos hj, if_pos hj]
    have hlength : (smp.take order).length = order := by
      rw [List.length_take]
      lia
    by_cases hwarm : j < order
    · rw [List.getElem?_append_left (by lia), List.getElem?_take, if_pos hwarm, if_pos hwarm,
        List.getD_eq_getElem?_getD, List.getElem?_eq_getElem (by lia), Option.getD_some]
    · rw [List.getElem?_append_right (by lia), hlength, if_neg hwarm]
      have hnext := hresidual (j - order) (by lia)
      rwa [Nat.add_sub_cancel' (by lia)] at hnext
  · rw [if_neg hj, if_neg hj]

end FFmpeg.Libavcodec.FlacLpc
