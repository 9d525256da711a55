import Mathlib.Tactic
import FFmpeg.Common.Bits

/-!
# Rescaling and comparing timestamps

The functions of `libavutil/mathematics.c` that the muxing code rests on.  A
64-bit integer is an `Int` in the range of `int64_t`; the unsigned arithmetic
of the 128-bit division is that of `UInt64`.
-/

namespace FFmpeg.Libavutil

/-- `INT_MAX`. -/
def intMax : Int := 2 ^ 31 - 1

/-- `INT64_MAX`. -/
def int64Max : Int := 2 ^ 63 - 1

/-- `INT64_MIN`. -/
def int64Min : Int := -2 ^ 63

/-- `AV_NOPTS_VALUE`: an unset timestamp. -/
def avNoptsValue : Int := int64Min

/-- `AVRational`. -/
structure AVRational where
  num : Int
  den : Int
  deriving DecidableEq, Repr

/-- The rounding methods of `enum AVRounding`. -/
inductive AVRounding
  | zero
  | inf
  | down
  | up
  | nearInf
  deriving DecidableEq, Repr

/-- `rnd ^ ((rnd >> 1) & 1)`: the method for the negated value. -/
def AVRounding.flip : AVRounding → AVRounding
  | .down => .up
  | .up => .down
  | rnd => rnd

/-- The term added to the product before it is divided by `c`. -/
def AVRounding.term (rnd : AVRounding) (c : Int) : Int :=
  match rnd with
  | .nearInf => c / 2
  | .inf | .up => c - 1
  | .zero | .down => 0

/-- One step of the long division of `av_rescale_rnd`: bit `i` of the low word
`a0` is shifted into the remainder `a1`, and the quotient is `t1`. -/
def rescaleDivStep (c a0 : UInt64) (i : Nat) (a1 t1 : UInt64) : UInt64 × UInt64 :=
  let a1 := a1 + (a1 + ((a0 >>> UInt64.ofNat i) &&& 1))
  let t1 := t1 + t1
  if c ≤ a1 then (a1 - c, t1 + 1) else (a1, t1)

/-- The loop of the long division, from bit `i - 1` down to bit 0. -/
def rescaleDivLoop (c a0 : UInt64) : Nat → UInt64 → UInt64 → UInt64 × UInt64
  | 0, a1, t1 => (a1, t1)
  | i + 1, a1, t1 =>
    let (a1, t1) := rescaleDivStep c a0 i a1 t1
    rescaleDivLoop c a0 i a1 t1

/-- The branch of `av_rescale_rnd` for factors beyond 32 bits. -/
def rescaleWide (a b c r : UInt64) : Int :=
  let a0 := a &&& 0xFFFFFFFF
  let a1 := a >>> 32
  let b0 := b &&& 0xFFFFFFFF
  let b1 := b >>> 32
  let t1 := a0 * b1 + a1 * b0
  let t1a := t1 <<< 32
  let a0 := a0 * b0 + t1a
  let a1 := a1 * b1 + (t1 >>> 32) + (if a0 < t1a then 1 else 0)
  let a0 := a0 + r
  let a1 := a1 + (if a0 < r then 1 else 0)
  let (_, t1) := rescaleDivLoop c a0 64 a1 t1
  if int64Max < t1.toNat then int64Min else t1.toNat

/-- `av_rescale_rnd` for `a ≥ 0` and valid `b` and `c`. -/
def avRescaleNonneg (a b c : Int) (rnd : AVRounding) : Int :=
  let r := rnd.term c
  if b ≤ intMax ∧ c ≤ intMax then
    if a ≤ intMax then (a * b + r) / c
    else
      let ad := a / c
      let a2 := (a % c * b + r) / c
      if 2 ^ 31 - 1 ≤ ad ∧ b ≠ 0 ∧ (int64Max - a2) / b < ad then int64Min else ad * b + a2
  else
    rescaleWide (UInt64.ofNat a.toNat) (UInt64.ofNat b.toNat) (UInt64.ofNat c.toNat)
      (UInt64.ofNat r.toNat)

/-- `av_rescale_rnd`; `passMinmax` is the flag `AV_ROUND_PASS_MINMAX`. -/
def avRescaleRnd (a b c : Int) (rnd : AVRounding) (passMinmax : Bool) : Int :=
  if c ≤ 0 ∨ b < 0 then int64Min
  else if passMinmax ∧ (a = int64Min ∨ a = int64Max) then a
  else if a < 0 then Int.bmod (-avRescaleNonneg (-max a (-int64Max)) b c rnd.flip) (2 ^ 64)
  else avRescaleNonneg a b c rnd

/-- `av_rescale`. -/
def avRescale (a b c : Int) : Int :=
  avRescaleRnd a b c .nearInf false

/-- `av_rescale_q_rnd`. -/
def avRescaleQRnd (a : Int) (bq cq : AVRational) (rnd : AVRounding) : Int :=
  avRescaleRnd a (bq.num * cq.den) (cq.num * bq.den) rnd false

/-- `av_rescale_q`. -/
def avRescaleQ (a : Int) (bq cq : AVRational) : Int :=
  avRescaleQRnd a bq cq .nearInf

/-- `AV_TIME_BASE_Q`: microseconds. -/
def avTimeBaseQ : AVRational := ⟨1, 1000000⟩

/-- `av_gcd`: with a zero it gives the other number, whose sign it keeps. -/
def avGcd (a b : Int) : Int :=
  if a = 0 then b
  else if b = 0 then a
  else Int.gcd a b

/-- `av_gcd_q`. -/
def avGcdQ (a b : AVRational) (maxDen : Int) (default : AVRational) : AVRational :=
  let lcm := (a.den.tdiv (avGcd a.den b.den)) * b.den
  if lcm < maxDen then ⟨avGcd a.num b.num, lcm⟩ else default

/-- `(FFABS(ts_a) | a | FFABS(ts_b) | b) <= INT_MAX`: a negative operand makes the
bitwise or negative, and otherwise it fits if every operand does. -/
def orFitsInt (tsA a tsB b : Int) : Bool :=
  decide (a < 0 ∨ b < 0 ∨ |tsA| ≤ intMax ∧ a ≤ intMax ∧ |tsB| ≤ intMax ∧ b ≤ intMax)

/-- `av_compare_ts`: -1, 0 or 1 as the time `tsA` is before, at or after `tsB`. -/
def avCompareTs (tsA : Int) (tbA : AVRational) (tsB : Int) (tbB : AVRational) : Int :=
  let a := tbA.num * tbB.den
  let b := tbB.num * tbA.den
  if orFitsInt tsA a tsB b then
    (if tsA * a > tsB * b then 1 else 0) - (if tsA * a < tsB * b then 1 else 0)
  else if avRescaleRnd tsA a b .down false < tsB then -1
  else if avRescaleRnd tsB b a .down false < tsA then 1
  else 0

/-! ## The binary algorithm for the greatest common divisor

`av_gcd` takes the powers of two out of both numbers, subtracts the smaller odd number from the
larger one, and shifts what is left until it is odd again. -/

/-- `ff_ctzll`. -/
def ffCtzll (v : Nat) : Nat := ((List.range 64).find? v.testBit).getD 64

/-- The loop of `av_gcd`. -/
def avGcdLoop : Nat → Nat → Nat → Nat
  | 0, u, _ => u
  | rounds + 1, u, v =>
    if u ≠ v then
      let swapped := if v < u then (v, u) else (u, v)
      let u := swapped.1
      let v := swapped.2 - u
      avGcdLoop rounds u (v >>> ffCtzll v)
    else u

/-- `av_gcd`, with its binary algorithm. -/
def avGcdBinary (a b : Int) : Int :=
  if a = 0 then b
  else if b = 0 then a
  else
    let za := ffCtzll a.natAbs
    let zb := ffCtzll b.natAbs
    let k := min za zb
    let u := (a >>> za).natAbs
    let v := (b >>> zb).natAbs
    (avGcdLoop (u + v) u v <<< k : Nat)

/-! ## Trailing zeros -/

theorem ffCtzll_spec {v : Nat} (hpos : 0 < v) (hlt : v < 2 ^ 64) :
    v >>> ffCtzll v % 2 = 1 ∧ v = 2 ^ ffCtzll v * (v >>> ffCtzll v) := by
  obtain ⟨k, -, hk, hset, hdvd⟩ := Common.exists_first_bit hpos.ne' hlt
  have hctz : ffCtzll v = k := by rw [ffCtzll, hk, Option.getD_some]
  rw [hctz, Nat.shiftRight_eq_div_pow]
  refine ⟨?_, ?_⟩
  · rw [Nat.testBit_eq_decide_div_mod_eq, decide_eq_true_eq] at hset
    exact hset
  · have hsplit := Nat.div_add_mod v (2 ^ k)
    rw [hdvd] at hsplit
    exact hsplit.symm

theorem shiftRight_natAbs {a : Int} (hne : a ≠ 0) (hlt : a.natAbs < 2 ^ 64) :
    (a >>> ffCtzll a.natAbs).natAbs = a.natAbs >>> ffCtzll a.natAbs := by
  obtain ⟨-, hsplit⟩ := ffCtzll_spec (Int.natAbs_pos.2 hne) hlt
  obtain ⟨k, hk⟩ : ∃ k, k = ffCtzll a.natAbs := ⟨_, rfl⟩
  rw [← hk] at hsplit ⊢
  have hpow : (0 : Int) < 2 ^ k := by positivity
  have hdvd : ((2 : Int) ^ k) ∣ a := by
    rw [← Int.dvd_natAbs]
    exact_mod_cast Dvd.intro _ hsplit.symm
  rw [Int.shiftRight_eq_div_pow, Nat.shiftRight_eq_div_pow]
  push_cast
  rw [Int.natAbs_ediv_of_dvd hdvd, Int.natAbs_pow]
  rfl

/-! ## The loop -/

theorem gcd_shift {u v : Nat} (hu : u % 2 = 1) (hlt : u < v) (hv : v < 2 ^ 64) :
    Nat.gcd u ((v - u) >>> ffCtzll (v - u)) = Nat.gcd u v := by
  obtain ⟨-, hsplit⟩ := @ffCtzll_spec (v - u) (by lia) (by lia)
  have hodd : Nat.Coprime u (2 ^ ffCtzll (v - u)) :=
    Nat.Coprime.pow_right _ (Nat.coprime_two_right.2 (Nat.odd_iff.2 hu))
  calc Nat.gcd u ((v - u) >>> ffCtzll (v - u))
      = Nat.gcd u (2 ^ ffCtzll (v - u) * ((v - u) >>> ffCtzll (v - u))) :=
        (Nat.Coprime.gcd_mul_left_cancel_right _ hodd.symm).symm
    _ = Nat.gcd u (v - u) := by rw [← hsplit]
    _ = Nat.gcd u v := Nat.gcd_sub_self_right hlt.le

theorem avGcdLoop_eq {rounds u v : Nat} (hu : u % 2 = 1) (hv : v % 2 = 1) (hu' : u < 2 ^ 64)
    (hv' : v < 2 ^ 64) (hrounds : u + v ≤ rounds) : avGcdLoop rounds u v = Nat.gcd u v := by
  induction rounds generalizing u v with
  | zero => lia
  | succ rounds ih =>
    -- the smaller number and the odd part of the difference
    have hstep : ∀ {u v : Nat}, u % 2 = 1 → u < v → v < 2 ^ 64 → u + v ≤ rounds + 1 →
        avGcdLoop rounds u ((v - u) >>> ffCtzll (v - u)) = Nat.gcd u v := by
      intro u v hu hlt hv hsum
      obtain ⟨hodd, hsplit⟩ := @ffCtzll_spec (v - u) (by lia) (by lia)
      have hle : (v - u) >>> ffCtzll (v - u) ≤ v - u := Nat.shiftRight_le _ _
      rw [ih hu hodd (by lia) (by lia) (by lia), gcd_shift hu hlt hv]
    rcases lt_trichotomy u v with hlt | rfl | hlt
    · rw [avGcdLoop, if_pos hlt.ne]
      simp only [if_neg hlt.not_gt]
      exact hstep hu hlt hv' hrounds
    · rw [avGcdLoop, if_neg (by simp), Nat.gcd_self]
    · rw [avGcdLoop, if_pos hlt.ne']
      simp only [if_pos hlt]
      rw [hstep hv hlt hu' (by lia), Nat.gcd_comm]

theorem gcd_two_pow {u v j k : Nat} (hu : u % 2 = 1) (hle : j ≤ k) :
    Nat.gcd (2 ^ j * u) (2 ^ k * v) = Nat.gcd u v * 2 ^ j := by
  have hodd : Nat.Coprime (2 ^ (k - j)) u :=
    Nat.Coprime.pow_left _ (Nat.coprime_two_left.2 (Nat.odd_iff.2 hu))
  rw [show k = j + (k - j) by lia, pow_add, mul_assoc, Nat.gcd_mul_left,
    Nat.Coprime.gcd_mul_left_cancel_right _ hodd, Nat.mul_comm]

theorem avGcdBinary_eq {a b : Int} (ha : a.natAbs < 2 ^ 64) (hb : b.natAbs < 2 ^ 64) :
    avGcdBinary a b = avGcd a b := by
  unfold avGcdBinary avGcd
  split
  · rfl
  rename_i hane
  split
  · rfl
  rename_i hbne
  obtain ⟨huodd, hua⟩ := ffCtzll_spec (Int.natAbs_pos.2 hane) ha
  obtain ⟨hvodd, hvb⟩ := ffCtzll_spec (Int.natAbs_pos.2 hbne) hb
  have hule : a.natAbs >>> ffCtzll a.natAbs ≤ a.natAbs := Nat.shiftRight_le _ _
  have hvle : b.natAbs >>> ffCtzll b.natAbs ≤ b.natAbs := Nat.shiftRight_le _ _
  dsimp only
  rw [shiftRight_natAbs hane ha, shiftRight_natAbs hbne hb,
    avGcdLoop_eq huodd hvodd (by lia) (by lia) le_rfl, Nat.shiftLeft_eq, Int.gcd]
  generalize ffCtzll a.natAbs = j at *
  generalize ffCtzll b.natAbs = k at *
  rcases le_total j k with hle | hle
  · rw [min_eq_left hle, ← gcd_two_pow huodd hle, ← hua, ← hvb]
  · rw [min_eq_right hle, Nat.gcd_comm (a.natAbs >>> j), ← gcd_two_pow hvodd hle, ← hua, ← hvb,
      Nat.gcd_comm]

end FFmpeg.Libavutil
