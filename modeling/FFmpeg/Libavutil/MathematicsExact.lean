import Mathlib.Tactic
import Mathlib.Data.Rat.Floor
import FFmpeg.Libavutil.Mathematics

/-!
# Rescaling is exact

`av_rescale_rnd` gives the rounded rational `a * b / c` whenever that fits, on
each of its three paths, and no signed operation on the way overflows.
-/

namespace FFmpeg.Libavutil

/-! ## The exact result -/

/-- A rational number rounded by one of the methods. -/
def AVRounding.round (rnd : AVRounding) (x : ℚ) : Int :=
  match rnd with
  | .zero => if 0 ≤ x then ⌊x⌋ else ⌈x⌉
  | .inf => if 0 ≤ x then ⌈x⌉ else ⌊x⌋
  | .down => ⌊x⌋
  | .up => ⌈x⌉
  | .nearInf => if 0 ≤ x then ⌊x + 1 / 2⌋ else ⌈x - 1 / 2⌉

/-- A result beyond the range is given as `INT64_MIN`. -/
def saturate (q : Int) : Int :=
  if |q| ≤ int64Max then q else int64Min

theorem round_neg (rnd : AVRounding) {x : ℚ} (hx : 0 ≤ x) : rnd.round (-x) = -rnd.flip.round x := by
  rcases eq_or_lt_of_le hx with rfl | hpos
  · cases rnd with
    | nearInf =>
      have hfloor : ⌊(0 : ℚ) + 1 / 2⌋ = 0 := by
        rw [Int.floor_eq_iff]
        norm_num
      have hzero : AVRounding.nearInf.round 0 = 0 := by
        rw [AVRounding.round, if_pos le_rfl, hfloor]
      show AVRounding.nearInf.round (-0) = -AVRounding.nearInf.round 0
      rw [neg_zero, hzero, neg_zero]
    | _ => simp [AVRounding.round, AVRounding.flip]
  · have hneg : ¬ 0 ≤ -x := by linarith
    have hhalf : -x - 1 / 2 = -(x + 1 / 2) := by ring
    cases rnd <;>
      simp only [AVRounding.round, AVRounding.flip, if_neg hneg, if_pos hx, hhalf, Int.ceil_neg,
        Int.floor_neg]

variable {c : Int}

theorem floor_div {p : Int} (hc : 0 < c) : ⌊(p : ℚ) / c⌋ = p / c := by
  have hcq : (0 : ℚ) < c := by exact_mod_cast hc
  rw [Int.floor_eq_iff, le_div_iff₀ hcq, div_lt_iff₀ hcq]
  constructor
  · exact_mod_cast Int.ediv_mul_le p hc.ne'
  · exact_mod_cast Int.lt_ediv_add_one_mul_self p hc

theorem ceil_div {p : Int} (hc : 0 < c) : ⌈(p : ℚ) / c⌉ = (p + (c - 1)) / c := by
  have hcq : (0 : ℚ) < c := by exact_mod_cast hc
  have hlo := Int.ediv_mul_le (p + (c - 1)) hc.ne'
  have hhi := Int.lt_ediv_add_one_mul_self (p + (c - 1)) hc
  rw [Int.ceil_eq_iff, lt_div_iff₀ hcq, div_le_iff₀ hcq]
  constructor
  · have : ((p + (c - 1)) / c - 1) * c < p := by linarith
    exact_mod_cast this
  · have : p ≤ (p + (c - 1)) / c * c := by linarith
    exact_mod_cast this

theorem floor_div_add_half {p : Int} (hc : 0 < c) : ⌊(p : ℚ) / c + 1 / 2⌋ = (p + c / 2) / c := by
  have hcq : (c : ℚ) ≠ 0 := by exact_mod_cast hc.ne'
  have hsum : (p : ℚ) / c + 1 / 2 = ((2 * p + c : Int) : ℚ) / (2 * c : Int) := by
    push_cast
    field_simp
  have hhalf : (2 * p + c) / 2 = p + c / 2 := by lia
  rw [hsum, floor_div (by lia), ← Int.ediv_ediv_of_nonneg (by lia), hhalf]

theorem round_eq_ediv (rnd : AVRounding) {p : Int} (hp : 0 ≤ p) (hc : 0 < c) :
    rnd.round ((p : ℚ) / c) = (p + rnd.term c) / c := by
  have hnonneg : (0 : ℚ) ≤ (p : ℚ) / c :=
    div_nonneg (by exact_mod_cast hp) (by exact_mod_cast hc.le)
  cases rnd with
  | zero => rw [AVRounding.round, if_pos hnonneg, floor_div hc, AVRounding.term, add_zero]
  | inf => rw [AVRounding.round, if_pos hnonneg, ceil_div hc, AVRounding.term]
  | down => rw [AVRounding.round, floor_div hc, AVRounding.term, add_zero]
  | up => rw [AVRounding.round, ceil_div hc, AVRounding.term]
  | nearInf => rw [AVRounding.round, if_pos hnonneg, floor_div_add_half hc, AVRounding.term]

theorem term_nonneg (rnd : AVRounding) (hc : 0 < c) : 0 ≤ rnd.term c ∧ rnd.term c < c := by
  cases rnd <;> simp only [AVRounding.term] <;> lia

/-! ## Long multiplication and division -/

/-- The number made of a high and a low word. -/
def wide (hi lo : UInt64) : Nat :=
  hi.toNat * 2 ^ 64 + lo.toNat

theorem wide_add {hi : UInt64} (lo r : UInt64) (h : hi.toNat + 1 < 2 ^ 64) :
    wide (hi + if lo + r < r then 1 else 0) (lo + r) = wide hi lo + r.toNat := by
  have hlo := lo.toNat_lt
  have hr := r.toNat_lt
  have hsum : (lo + r).toNat = (lo.toNat + r.toNat) % 2 ^ 64 := UInt64.toNat_add lo r
  unfold wide
  by_cases hcarry : lo + r < r
  · have hcarry' := UInt64.lt_iff_toNat_lt.mp hcarry
    have hhi : (hi + 1).toNat = hi.toNat + 1 := by
      rw [UInt64.toNat_add]
      exact Nat.mod_eq_of_lt h
    rw [if_pos hcarry, hhi, hsum]
    lia
  · have hcarry' : ¬ (lo + r).toNat < r.toNat := fun hlt =>
      hcarry (UInt64.lt_iff_toNat_lt.mpr hlt)
    rw [if_neg hcarry, UInt64.add_zero, hsum]
    lia

theorem toNat_low (a : UInt64) : (a &&& 0xFFFFFFFF).toNat = a.toNat % 2 ^ 32 := by
  rw [UInt64.toNat_and]
  exact Nat.and_two_pow_sub_one_eq_mod a.toNat 32

theorem toNat_high (a : UInt64) : (a >>> 32).toNat = a.toNat / 2 ^ 32 := by
  rw [UInt64.toNat_shiftRight]
  exact Nat.shiftRight_eq_div_pow a.toNat 32

/-- The product put together from those of the halves. -/
theorem wide_mul {a b : UInt64} (ha : a.toNat < 2 ^ 63) (hb : b.toNat < 2 ^ 63) :
    let a0 := a &&& 0xFFFFFFFF
    let a1 := a >>> 32
    let b0 := b &&& 0xFFFFFFFF
    let b1 := b >>> 32
    let t1 := a0 * b1 + a1 * b0
    let t1a := t1 <<< 32
    wide (a1 * b1 + (t1 >>> 32) + if a0 * b0 + t1a < t1a then 1 else 0) (a0 * b0 + t1a) =
      a.toNat * b.toNat := by
  intro a0 a1 b0 b1 t1 t1a
  have hsplita : a.toNat = a1.toNat * 2 ^ 32 + a0.toNat := by
    rw [toNat_low, toNat_high]
    lia
  have hsplitb : b.toNat = b1.toNat * 2 ^ 32 + b0.toNat := by
    rw [toNat_low, toNat_high]
    lia
  have ha0 : a0.toNat ≤ 2 ^ 32 - 1 := by
    rw [toNat_low]
    lia
  have hb0 : b0.toNat ≤ 2 ^ 32 - 1 := by
    rw [toNat_low]
    lia
  have ha1 : a1.toNat ≤ 2 ^ 31 - 1 := by
    rw [toNat_high]
    lia
  have hb1 : b1.toNat ≤ 2 ^ 31 - 1 := by
    rw [toNat_high]
    lia
  -- none of the partial products wraps
  have h01 := Nat.mul_le_mul ha0 hb1
  have h10 := Nat.mul_le_mul ha1 hb0
  have h00 := Nat.mul_le_mul ha0 hb0
  have h11 := Nat.mul_le_mul ha1 hb1
  have ht1 : t1.toNat = a0.toNat * b1.toNat + a1.toNat * b0.toNat := by
    rw [UInt64.toNat_add, UInt64.toNat_mul, UInt64.toNat_mul]
    lia
  have hlo : (a0 * b0).toNat = a0.toNat * b0.toNat := by
    rw [UInt64.toNat_mul]
    lia
  have ht1a : t1a.toNat = t1.toNat % 2 ^ 32 * 2 ^ 32 := by
    have hshift : t1a.toNat = t1.toNat <<< 32 % 2 ^ 64 := UInt64.toNat_shiftLeft t1 32
    rw [hshift, Nat.shiftLeft_eq]
    lia
  have hhi : (a1 * b1 + (t1 >>> 32)).toNat = a1.toNat * b1.toNat + t1.toNat / 2 ^ 32 := by
    rw [UInt64.toNat_add, UInt64.toNat_mul, toNat_high t1]
    lia
  rw [wide_add _ _ (by lia), wide, hlo, hhi, ht1a, hsplita, hsplitb]
  have hmiddle := Nat.div_add_mod t1.toNat (2 ^ 32)
  calc (a1.toNat * b1.toNat + t1.toNat / 2 ^ 32) * 2 ^ 64 + a0.toNat * b0.toNat +
        t1.toNat % 2 ^ 32 * 2 ^ 32
      = a1.toNat * b1.toNat * 2 ^ 64 + (2 ^ 32 * (t1.toNat / 2 ^ 32) + t1.toNat % 2 ^ 32) * 2 ^ 32 +
          a0.toNat * b0.toNat := by ring
    _ = (a1.toNat * 2 ^ 32 + a0.toNat) * (b1.toNat * 2 ^ 32 + b0.toNat) := by
        rw [hmiddle, ht1]
        ring

theorem rescaleDivStep_quotient (c a0 : UInt64) (i : Nat) (a1 t1 : UInt64) :
    ∃ q < 2, (rescaleDivStep c a0 i a1 t1).2.toNat = (2 * t1.toNat + q) % 2 ^ 64 := by
  unfold rescaleDivStep
  dsimp only
  split_ifs
  · refine ⟨1, by lia, ?_⟩
    rw [UInt64.toNat_add, UInt64.toNat_add]
    show ((t1.toNat + t1.toNat) % 2 ^ 64 + 1) % 2 ^ 64 = _
    lia
  · refine ⟨0, by lia, ?_⟩
    rw [UInt64.toNat_add]
    lia

theorem rescaleDivLoop_quotient (c a0 : UInt64) (i : Nat) (a1 t1 : UInt64) :
    ∃ q < 2 ^ i, (rescaleDivLoop c a0 i a1 t1).2.toNat = (t1.toNat * 2 ^ i + q) % 2 ^ 64 := by
  induction i generalizing a1 t1 with
  | zero =>
    refine ⟨0, by decide, ?_⟩
    rw [pow_zero, Nat.mul_one, Nat.add_zero, Nat.mod_eq_of_lt t1.toNat_lt]
    rfl
  | succ i ih =>
    obtain ⟨p, hp, hstep⟩ := rescaleDivStep_quotient c a0 i a1 t1
    obtain ⟨q, hq, hloop⟩ := ih (rescaleDivStep c a0 i a1 t1).1 (rescaleDivStep c a0 i a1 t1).2
    refine ⟨p * 2 ^ i + q, ?_, ?_⟩
    · rw [pow_succ]
      nlinarith
    · rw [rescaleDivLoop]
      show (rescaleDivLoop c a0 i (rescaleDivStep c a0 i a1 t1).1
        (rescaleDivStep c a0 i a1 t1).2).2.toNat = _
      rw [hloop, hstep, Nat.add_mod, Nat.mul_mod, Nat.mod_mod, ← Nat.mul_mod, ← Nat.add_mod]
      congr 1
      ring

variable {a1 : UInt64} {i : Nat}

theorem toNat_shiftIn (a0 : UInt64) (hi : i < 64) (ha1 : a1.toNat < 2 ^ 63) :
    (a1 + (a1 + ((a0 >>> UInt64.ofNat i) &&& 1))).toNat = 2 * a1.toNat + a0.toNat / 2 ^ i % 2 := by
  have hsize : i < UInt64.size := hi.trans (by decide)
  have hbit : ((a0 >>> UInt64.ofNat i) &&& 1).toNat = a0.toNat / 2 ^ i % 2 := by
    rw [UInt64.toNat_and, UInt64.toNat_shiftRight, UInt64.toNat_ofNat_of_lt' hsize,
      Nat.mod_eq_of_lt hi, Nat.shiftRight_eq_div_pow]
    exact Nat.and_one_is_mod _
  rw [UInt64.toNat_add, UInt64.toNat_add, hbit]
  lia

theorem rescaleDivStep_remainder {c : UInt64} (a0 : UInt64) (t1 : UInt64) (hi : i < 64)
    (hc : c.toNat < 2 ^ 63) (ha1 : a1.toNat < c.toNat) :
    ∃ q < 2, 2 * a1.toNat + a0.toNat / 2 ^ i % 2 =
        c.toNat * q + (rescaleDivStep c a0 i a1 t1).1.toNat ∧
      (rescaleDivStep c a0 i a1 t1).1.toNat < c.toNat ∧
      (rescaleDivStep c a0 i a1 t1).2.toNat = (2 * t1.toNat + q) % 2 ^ 64 := by
  have hshift := toNat_shiftIn a0 hi (ha1.trans hc)
  unfold rescaleDivStep
  dsimp only
  split_ifs with hle
  · have hle' := UInt64.le_iff_toNat_le.mp hle
    rw [UInt64.toNat_sub_of_le _ _ hle, hshift]
    refine ⟨1, by lia, by lia, by lia, ?_⟩
    rw [UInt64.toNat_add, UInt64.toNat_add]
    show ((t1.toNat + t1.toNat) % 2 ^ 64 + 1) % 2 ^ 64 = _
    lia
  · have hlt : ¬ c.toNat ≤ 2 * a1.toNat + a0.toNat / 2 ^ i % 2 := fun h =>
      hle (UInt64.le_iff_toNat_le.mpr (hshift ▸ h))
    rw [hshift]
    refine ⟨0, by lia, by lia, by lia, ?_⟩
    rw [UInt64.toNat_add]
    lia

/-- `i` steps divide what the remainder and the low bits make up. -/
theorem rescaleDivLoop_remainder {c : UInt64} (a0 : UInt64) (t1 : UInt64) (hi : i ≤ 64)
    (hc : c.toNat < 2 ^ 63) (ha1 : a1.toNat < c.toNat) :
    ∃ q < 2 ^ i, a1.toNat * 2 ^ i + a0.toNat % 2 ^ i =
        c.toNat * q + (rescaleDivLoop c a0 i a1 t1).1.toNat ∧
      (rescaleDivLoop c a0 i a1 t1).1.toNat < c.toNat ∧
      (rescaleDivLoop c a0 i a1 t1).2.toNat = (t1.toNat * 2 ^ i + q) % 2 ^ 64 := by
  induction i generalizing a1 t1 with
  | zero =>
    refine ⟨0, by decide, ?_, ha1, ?_⟩
    · rw [pow_zero, Nat.mul_one, Nat.mod_one, Nat.mul_zero, Nat.zero_add, Nat.add_zero]
      rfl
    · rw [pow_zero, Nat.mul_one, Nat.add_zero, Nat.mod_eq_of_lt t1.toNat_lt]
      rfl
  | succ i ih =>
    obtain ⟨p, hp, hdiv, hlt, hstep⟩ := rescaleDivStep_remainder a0 t1 hi hc ha1
    obtain ⟨⟨a1', t1'⟩, hres⟩ : ∃ res, res = rescaleDivStep c a0 i a1 t1 := ⟨_, rfl⟩
    rw [← hres] at hdiv hlt hstep
    obtain ⟨q, hq, hdiv', hlt', hloop⟩ := ih t1' (by lia) hlt
    have hunfold : rescaleDivLoop c a0 (i + 1) a1 t1 = rescaleDivLoop c a0 i a1' t1' := by
      rw [rescaleDivLoop, ← hres]
    have hlow : a0.toNat % 2 ^ (i + 1) = a0.toNat / 2 ^ i % 2 * 2 ^ i + a0.toNat % 2 ^ i := by
      rw [pow_succ, Nat.mod_mul, Nat.mul_comm (2 ^ i), Nat.add_comm]
    rw [hunfold]
    refine ⟨p * 2 ^ i + q, ?_, ?_, hlt', ?_⟩
    · rw [pow_succ]
      nlinarith
    · calc a1.toNat * 2 ^ (i + 1) + a0.toNat % 2 ^ (i + 1)
          = (2 * a1.toNat + a0.toNat / 2 ^ i % 2) * 2 ^ i + a0.toNat % 2 ^ i := by
            rw [hlow, pow_succ]
            ring
        _ = c.toNat * p * 2 ^ i + (a1'.toNat * 2 ^ i + a0.toNat % 2 ^ i) := by
            rw [hdiv]
            ring
        _ = c.toNat * (p * 2 ^ i + q) + (rescaleDivLoop c a0 i a1' t1').1.toNat := by
            rw [hdiv']
            ring
    · rw [hloop, hstep, Nat.add_mod, Nat.mul_mod, Nat.mod_mod, ← Nat.mul_mod, ← Nat.add_mod]
      congr 1
      ring

/-- The division of a wide number: the quotient if it fits into a word, and else a number
beyond `INT64_MAX`. -/
theorem rescaleDivLoop_wide {c : UInt64} (a0 : UInt64) (t1 : UInt64) (hc : 0 < c.toNat)
    (hc' : c.toNat < 2 ^ 63) (ha1 : a1.toNat < 2 ^ 62) :
    (wide a1 a0 / c.toNat < 2 ^ 63 →
        (rescaleDivLoop c a0 64 a1 t1).2.toNat = wide a1 a0 / c.toNat) ∧
      (2 ^ 63 ≤ wide a1 a0 / c.toNat → 2 ^ 63 ≤ (rescaleDivLoop c a0 64 a1 t1).2.toNat) := by
  have ha0 := a0.toNat_lt
  by_cases hsmall : a1.toNat < c.toNat
  · obtain ⟨p, hp, hdiv, hlt, hloop⟩ :=
      rescaleDivLoop_remainder a0 t1 (Nat.le_refl 64) hc' hsmall
    have hquot : wide a1 a0 / c.toNat = p := by
      rw [Nat.mod_eq_of_lt ha0] at hdiv
      rw [wide, hdiv, Nat.add_comm, Nat.add_mul_div_left _ _ hc, Nat.div_eq_of_lt hlt, Nat.zero_add]
    have hq : (rescaleDivLoop c a0 64 a1 t1).2.toNat = p := by
      rw [hloop]
      lia
    rw [hq, hquot]
    exact ⟨fun _ => rfl, id⟩
  · -- the first bit of the quotient is set, and it is still there after 63 shifts
    have hbig : 2 ^ 64 ≤ wide a1 a0 / c.toNat := by
      rw [Nat.le_div_iff_mul_le hc, wide]
      nlinarith
    have hshift := toNat_shiftIn a0 (show 63 < 64 by decide)
      (ha1.trans (by decide))
    have hset : c ≤ a1 + (a1 + ((a0 >>> UInt64.ofNat 63) &&& 1)) := by
      rw [UInt64.le_iff_toNat_le, hshift]
      lia
    have hfirst : (rescaleDivStep c a0 63 a1 t1).2.toNat % 2 = 1 := by
      unfold rescaleDivStep
      dsimp only
      rw [if_pos hset, UInt64.toNat_add, UInt64.toNat_add]
      show ((t1.toNat + t1.toNat) % 2 ^ 64 + 1) % 2 ^ 64 % 2 = 1
      lia
    obtain ⟨p, hp, hloop⟩ := rescaleDivLoop_quotient c a0 63 (rescaleDivStep c a0 63 a1 t1).1
      (rescaleDivStep c a0 63 a1 t1).2
    have hunfold : rescaleDivLoop c a0 64 a1 t1 = rescaleDivLoop c a0 63
        (rescaleDivStep c a0 63 a1 t1).1 (rescaleDivStep c a0 63 a1 t1).2 := by
      rw [rescaleDivLoop]
    refine ⟨fun h => by lia, fun _ => ?_⟩
    rw [hunfold, hloop]
    lia

/-! ## The three paths -/

/-- The rounded quotient of a product that is not negative. -/
def quotient (a b c : Int) (rnd : AVRounding) : Int :=
  (a * b + rnd.term c) / c

theorem quotient_nonneg {a b : Int} (rnd : AVRounding) (ha : 0 ≤ a) (hb : 0 ≤ b) (hc : 0 < c) :
    0 ≤ quotient a b c rnd :=
  Int.ediv_nonneg (add_nonneg (mul_nonneg ha hb) (term_nonneg rnd hc).1) hc.le

theorem rescaleWide_tail {hi lo r c : UInt64} (t1 : UInt64)
    (hc : 0 < c.toNat) (hc' : c.toNat < 2 ^ 63) (hp : wide hi lo + r.toNat < 2 ^ 126) :
    (if int64Max < (rescaleDivLoop c (lo + r) 64 (hi + if lo + r < r then 1 else 0) t1).2.toNat
      then int64Min
      else (rescaleDivLoop c (lo + r) 64 (hi + if lo + r < r then 1 else 0) t1).2.toNat) =
      if (wide hi lo + r.toNat) / c.toNat < 2 ^ 63 then
        (((wide hi lo + r.toNat) / c.toNat : Nat) : Int)
      else int64Min := by
  have hhi : hi.toNat + 1 < 2 ^ 64 := by
    unfold wide at hp
    lia
  have hadd := wide_add lo r hhi
  obtain ⟨a1, ha1⟩ : ∃ a1, a1 = hi + if lo + r < r then 1 else 0 := ⟨_, rfl⟩
  rw [← ha1] at hadd ⊢
  have hhigh : a1.toNat < 2 ^ 62 := by
    rw [← hadd, wide] at hp
    lia
  obtain ⟨hfits, hbig⟩ := rescaleDivLoop_wide (lo + r) t1 hc hc' hhigh
  rw [hadd] at hfits hbig
  unfold int64Max
  by_cases hq : (wide hi lo + r.toNat) / c.toNat < 2 ^ 63
  · rw [if_pos hq, hfits hq, if_neg (by lia)]
  · have hlarge := hbig (by lia)
    rw [if_neg hq, if_pos (by lia)]

theorem rescaleWide_toNat {a b c r : UInt64} (ha : a.toNat < 2 ^ 63) (hb : b.toNat < 2 ^ 63)
    (hr : r.toNat < 2 ^ 63) (hc : 0 < c.toNat) (hc' : c.toNat < 2 ^ 63) :
    rescaleWide a b c r =
      if (a.toNat * b.toNat + r.toNat) / c.toNat < 2 ^ 63 then
        (((a.toNat * b.toNat + r.toNat) / c.toNat : Nat) : Int)
      else int64Min := by
  have hmul := wide_mul ha hb
  have hprod : a.toNat * b.toNat ≤ (2 ^ 63 - 1) * (2 ^ 63 - 1) :=
    Nat.mul_le_mul (by lia) (by lia)
  dsimp only at hmul
  rw [← hmul] at hprod ⊢
  unfold rescaleWide
  dsimp only
  exact rescaleWide_tail _ hc hc' (by lia)

/-- The wide path. -/
theorem rescaleWide_eq {a b : Int} (rnd : AVRounding) (ha : 0 ≤ a) (ha' : a ≤ int64Max) (hb : 0 ≤ b)
    (hb' : b ≤ int64Max) (hc : 0 < c) (hc' : c ≤ int64Max) :
    rescaleWide (UInt64.ofNat a.toNat) (UInt64.ofNat b.toNat) (UInt64.ofNat c.toNat)
        (UInt64.ofNat (rnd.term c).toNat) =
      if quotient a b c rnd ≤ int64Max then quotient a b c rnd else int64Min := by
  obtain ⟨hr, hr'⟩ := term_nonneg rnd hc
  unfold int64Max at ha' hb' hc' ⊢
  have hofNat (n : Int) (hn : 0 ≤ n) (hn' : n ≤ 2 ^ 63 - 1) :
      ((UInt64.ofNat n.toNat).toNat : Int) = n ∧ (UInt64.ofNat n.toNat).toNat < 2 ^ 63 := by
    have hsize : n.toNat < UInt64.size := by
      show n.toNat < 2 ^ 64
      lia
    rw [UInt64.toNat_ofNat_of_lt' hsize]
    lia
  obtain ⟨hua, hua'⟩ := hofNat a ha ha'
  obtain ⟨hub, hub'⟩ := hofNat b hb hb'
  obtain ⟨huc, huc'⟩ := hofNat c hc.le hc'
  obtain ⟨hur, hur'⟩ := hofNat (rnd.term c) hr (by lia)
  have hquot : ((((UInt64.ofNat a.toNat).toNat * (UInt64.ofNat b.toNat).toNat +
      (UInt64.ofNat (rnd.term c).toNat).toNat) / (UInt64.ofNat c.toNat).toNat : Nat) : Int) =
      quotient a b c rnd := by
    rw [quotient]
    push_cast
    rw [hua, hub, huc, hur]
  rw [rescaleWide_toNat hua' hub' hur' (by lia) huc', hquot]
  by_cases hfits : quotient a b c rnd ≤ 2 ^ 63 - 1
  · rw [if_pos hfits, if_pos (by lia)]
  · rw [if_neg hfits, if_neg (by lia)]

theorem quotient_split {a b : Int} (rnd : AVRounding) (hc : 0 < c) :
    quotient a b c rnd = a / c * b + (a % c * b + rnd.term c) / c := by
  have hsplit : a * b + rnd.term c = a % c * b + rnd.term c + a / c * b * c := by
    have h := Int.emod_add_mul_ediv a c
    calc a * b + rnd.term c = (a % c + c * (a / c)) * b + rnd.term c := by rw [h]
      _ = a % c * b + rnd.term c + a / c * b * c := by ring
  rw [quotient, hsplit, Int.add_mul_ediv_right _ _ hc.ne']
  ring

theorem remainder_bounds {a b : Int} (rnd : AVRounding) (hb : 0 ≤ b) (hb' : b ≤ intMax) (hc : 0 < c)
    (hc' : c ≤ intMax) :
    0 ≤ a % c ∧ 0 ≤ a % c * b ∧ a % c * b ≤ 2 ^ 62 ∧ 0 ≤ (a % c * b + rnd.term c) / c ∧
      (a % c * b + rnd.term c) / c ≤ b := by
  obtain ⟨hr, hr'⟩ := term_nonneg rnd hc
  have hmod := Int.emod_nonneg a hc.ne'
  have hmod' := Int.emod_lt_of_pos a hc
  unfold intMax at hb' hc'
  have hprod : 0 ≤ a % c * b := mul_nonneg hmod hb
  refine ⟨hmod, hprod, ?_, Int.ediv_nonneg (by lia) hc.le, ?_⟩
  · nlinarith
  · have hle : a % c * b ≤ (c - 1) * b := mul_le_mul_of_nonneg_right (by lia) hb
    have hlt : a % c * b + rnd.term c < (b + 1) * c := by nlinarith
    exact Int.lt_add_one_iff.mp ((Int.ediv_lt_iff_lt_mul hc).mpr hlt)

/-- For factors that are not negative every path gives the quotient, or `INT64_MIN` if it
does not fit. -/
theorem avRescaleNonneg_eq {a b : Int} (rnd : AVRounding) (ha : 0 ≤ a) (ha' : a ≤ int64Max)
    (hb : 0 ≤ b) (hb' : b ≤ int64Max) (hc : 0 < c) (hc' : c ≤ int64Max) :
    avRescaleNonneg a b c rnd =
      if quotient a b c rnd ≤ int64Max then quotient a b c rnd else int64Min := by
  obtain ⟨hr, hr'⟩ := term_nonneg rnd hc
  unfold avRescaleNonneg
  dsimp only
  by_cases hnarrow : b ≤ intMax ∧ c ≤ intMax
  · obtain ⟨hb32, hc32⟩ := hnarrow
    rw [if_pos ⟨hb32, hc32⟩]
    by_cases ha32 : a ≤ intMax
    · have hfits : quotient a b c rnd ≤ int64Max := by
        have hprod : a * b ≤ intMax * intMax := mul_le_mul ha32 hb32 hb (by decide)
        have hnonneg : 0 ≤ a * b + rnd.term c := add_nonneg (mul_nonneg ha hb) hr
        have hle : quotient a b c rnd ≤ a * b + rnd.term c := Int.ediv_le_self c hnonneg
        unfold intMax at hprod hc32
        unfold int64Max
        lia
      rw [if_pos ha32, if_pos hfits, quotient]
    · rw [if_neg ha32]
      obtain ⟨hmod, hprod, hprod', ha2, ha2'⟩ := remainder_bounds (a := a) rnd hb hb32 hc hc32
      rw [quotient_split rnd hc]
      obtain ⟨ad, had⟩ : ∃ ad, ad = a / c := ⟨_, rfl⟩
      obtain ⟨a2, ha2_eq⟩ : ∃ a2, a2 = (a % c * b + rnd.term c) / c := ⟨_, rfl⟩
      rw [← ha2_eq] at ha2 ha2' ⊢
      rw [← had]
      have hguard : (2 ^ 31 - 1 ≤ ad ∧ b ≠ 0 ∧ (int64Max - a2) / b < ad) ↔
          ¬ ad * b + a2 ≤ int64Max := by
        unfold intMax at hb32
        unfold int64Max
        constructor
        · rintro ⟨_, hb0, hlt⟩
          have hbpos : 0 < b := by lia
          have := (Int.ediv_lt_iff_lt_mul hbpos).mp hlt
          lia
        · intro hover
          -- the guard on the high part and the one on b lose nothing
          have had31 : 2 ^ 31 - 1 ≤ ad := by
            by_contra hsmall
            have : ad * b ≤ (2 ^ 31 - 2) * (2 ^ 31 - 1) :=
              (mul_le_mul_of_nonneg_right (by lia) hb).trans
                (mul_le_mul_of_nonneg_left hb32 (by norm_num))
            lia
          have hb0 : b ≠ 0 := by
            rintro rfl
            rw [mul_zero] at hover
            lia
          have hbpos : 0 < b := by lia
          exact ⟨had31, hb0, (Int.ediv_lt_iff_lt_mul hbpos).mpr (by lia)⟩
      by_cases hfits : ad * b + a2 ≤ int64Max
      · rw [if_neg (fun h => hguard.mp h hfits), if_pos hfits]
      · rw [if_pos (hguard.mpr hfits), if_neg hfits]
  · rw [if_neg hnarrow]
    exact rescaleWide_eq rnd ha ha' hb hb' hc hc'

/-! ## Overflow -/

/-- The result of a signed 64-bit operation, none if it overflows. -/
def int64Op (x : Int) : Option Int :=
  if int64Min ≤ x ∧ x ≤ int64Max then some x else none

theorem int64Op_eq {x : Int} (hlo : int64Min ≤ x) (hhi : x ≤ int64Max) : int64Op x = some x :=
  if_pos ⟨hlo, hhi⟩

theorem int64Op_nonneg {x : Int} (hlo : 0 ≤ x) (hhi : x ≤ int64Max) : int64Op x = some x :=
  int64Op_eq (le_trans (by decide) hlo) hhi

/-- The term added to the product, operation by operation. -/
def AVRounding.termChecked (rnd : AVRounding) (c : Int) : Option Int :=
  match rnd with
  | .nearInf => int64Op (c / 2)
  | .inf | .up => int64Op (c - 1)
  | .zero | .down => some 0

/-- The first path. -/
def rescaleNarrowChecked (a b c r : Int) : Option Int := do
  let ab ← int64Op (a * b)
  let sum ← int64Op (ab + r)
  int64Op (sum / c)

/-- `ad * b + a2`. -/
def rescaleSumChecked (ad b a2 : Int) : Option Int := do
  let adb ← int64Op (ad * b)
  int64Op (adb + a2)

/-- The guard of the second path and the result behind it. -/
def rescaleGuardChecked (ad b a2 : Int) : Option Int :=
  if 2 ^ 31 - 1 ≤ ad ∧ b ≠ 0 then do
    let room ← int64Op (int64Max - a2)
    let limit ← int64Op (room / b)
    if limit < ad then some int64Min else rescaleSumChecked ad b a2
  else rescaleSumChecked ad b a2

/-- The second path. -/
def rescaleSplitChecked (a b c r : Int) : Option Int := do
  let ad ← int64Op (a / c)
  let rest ← int64Op (a % c)
  let restb ← int64Op (rest * b)
  let sum ← int64Op (restb + r)
  let a2 ← int64Op (sum / c)
  rescaleGuardChecked ad b a2

/-- `av_rescale_rnd` for `a ≥ 0`, signed operation by signed operation.  The wide path is
unsigned. -/
def avRescaleNonnegChecked (a b c : Int) (rnd : AVRounding) : Option Int := do
  let r ← rnd.termChecked c
  if b ≤ intMax ∧ c ≤ intMax then
    if a ≤ intMax then rescaleNarrowChecked a b c r else rescaleSplitChecked a b c r
  else
    some (rescaleWide (UInt64.ofNat a.toNat) (UInt64.ofNat b.toNat) (UInt64.ofNat c.toNat)
      (UInt64.ofNat r.toNat))

/-- `av_rescale_rnd`, signed operation by signed operation. -/
def avRescaleRndChecked (a b c : Int) (rnd : AVRounding) (passMinmax : Bool) : Option Int :=
  if c ≤ 0 ∨ b < 0 then some int64Min
  else if passMinmax ∧ (a = int64Min ∨ a = int64Max) then some a
  else if a < 0 then do
    let negated ← int64Op (-max a (-int64Max))
    let x ← avRescaleNonnegChecked negated b c rnd.flip
    some (Int.bmod (-x) (2 ^ 64))
  else avRescaleNonnegChecked a b c rnd

theorem termChecked_eq (rnd : AVRounding) (hc : 0 < c) (hc' : c ≤ int64Max) :
    rnd.termChecked c = some (rnd.term c) := by
  cases rnd <;> simp only [AVRounding.termChecked, AVRounding.term] <;>
    exact int64Op_nonneg (by lia) (by lia)

theorem rescaleNarrowChecked_eq {a b : Int} (rnd : AVRounding) (ha : 0 ≤ a) (ha' : a ≤ intMax)
    (hb : 0 ≤ b) (hb' : b ≤ intMax) (hc : 0 < c) (hc' : c ≤ intMax) :
    rescaleNarrowChecked a b c (rnd.term c) = some ((a * b + rnd.term c) / c) := by
  obtain ⟨hr, hr'⟩ := term_nonneg rnd hc
  have hprod : a * b ≤ intMax * intMax := mul_le_mul ha' hb' hb (by decide)
  have hprod0 : 0 ≤ a * b := mul_nonneg ha hb
  have hquot0 : 0 ≤ (a * b + rnd.term c) / c := Int.ediv_nonneg (by lia) hc.le
  have hquot := Int.ediv_le_self c (show 0 ≤ a * b + rnd.term c by lia)
  have hmax : intMax * intMax + intMax ≤ int64Max := by decide
  rw [rescaleNarrowChecked, int64Op_nonneg hprod0 (by lia), Option.bind_eq_bind,
    Option.bind_some, int64Op_nonneg (by lia) (by lia), Option.bind_some,
    int64Op_nonneg hquot0 (by lia)]

theorem rescaleGuardChecked_eq {ad b a2 : Int} (had : 0 ≤ ad) (hb : 0 ≤ b) (hb' : b ≤ intMax)
    (ha2 : 0 ≤ a2) (ha2' : a2 ≤ b) :
    rescaleGuardChecked ad b a2 =
      some (if 2 ^ 31 - 1 ≤ ad ∧ b ≠ 0 ∧ (int64Max - a2) / b < ad then int64Min
        else ad * b + a2) := by
  have hprod0 : 0 ≤ ad * b := mul_nonneg had hb
  have hsum (hfits : ad * b + a2 ≤ int64Max) : rescaleSumChecked ad b a2 = some (ad * b + a2) := by
    rw [rescaleSumChecked, int64Op_nonneg hprod0 (by lia), Option.bind_eq_bind,
      Option.bind_some, int64Op_nonneg (by lia) hfits]
  have hmax : (2 ^ 31 - 2) * intMax + intMax ≤ int64Max := by decide
  have hroom0 : 0 ≤ int64Max - a2 := by
    have : intMax ≤ int64Max := by decide
    lia
  unfold rescaleGuardChecked
  by_cases hguard : 2 ^ 31 - 1 ≤ ad ∧ b ≠ 0
  · have hbpos : 0 < b := lt_of_le_of_ne hb (Ne.symm hguard.2)
    have hlimit := Int.ediv_le_self b hroom0
    rw [if_pos hguard, int64Op_nonneg hroom0 (by lia), Option.bind_eq_bind, Option.bind_some,
      int64Op_nonneg (Int.ediv_nonneg hroom0 hb) (by lia), Option.bind_some]
    by_cases hlt : (int64Max - a2) / b < ad
    · rw [if_pos hlt, if_pos ⟨hguard.1, hguard.2, hlt⟩]
    · have hfits : ad * b ≤ int64Max - a2 := (Int.le_ediv_iff_mul_le hbpos).mp (by lia)
      rw [if_neg hlt, if_neg (fun h => hlt h.2.2), hsum (by lia)]
  · have hfits : ad * b + a2 ≤ int64Max := by
      by_cases hb0 : b = 0
      · rw [hb0, mul_zero]
        lia
      · have had31 : ad ≤ 2 ^ 31 - 2 := by
          by_contra hlarge
          exact hguard ⟨by lia, hb0⟩
        have := mul_le_mul had31 hb' hb (by norm_num)
        lia
    rw [if_neg hguard, if_neg (fun h => hguard ⟨h.1, h.2.1⟩), hsum hfits]

theorem avRescaleNonnegChecked_eq {a b : Int} (rnd : AVRounding) (ha : 0 ≤ a) (ha' : a ≤ int64Max)
    (hb : 0 ≤ b) (hc : 0 < c) (hc' : c ≤ int64Max) :
    avRescaleNonnegChecked a b c rnd = some (avRescaleNonneg a b c rnd) := by
  obtain ⟨hr, hr'⟩ := term_nonneg rnd hc
  unfold avRescaleNonnegChecked avRescaleNonneg
  rw [termChecked_eq rnd hc hc', Option.bind_eq_bind, Option.bind_some]
  dsimp only
  by_cases hnarrow : b ≤ intMax ∧ c ≤ intMax
  · obtain ⟨hb32, hc32⟩ := hnarrow
    rw [if_pos (And.intro hb32 hc32), if_pos (And.intro hb32 hc32)]
    by_cases ha32 : a ≤ intMax
    · rw [if_pos ha32, if_pos ha32, rescaleNarrowChecked_eq rnd ha ha32 hb hb32 hc hc32]
    · obtain ⟨hmod, hprod, hprod', ha2, ha2'⟩ := remainder_bounds (a := a) rnd hb hb32 hc hc32
      have hmod' := Int.emod_lt_of_pos a hc
      have hdiv := Int.ediv_le_self c ha
      have hmax : 2 ^ 62 + intMax ≤ int64Max := by decide
      rw [if_neg ha32, if_neg ha32, rescaleSplitChecked,
        int64Op_nonneg (Int.ediv_nonneg ha hc.le) (by lia), Option.bind_eq_bind,
        Option.bind_some, int64Op_nonneg hmod (by lia), Option.bind_some,
        int64Op_nonneg hprod (by lia), Option.bind_some,
        int64Op_nonneg (by lia) (by lia), Option.bind_some,
        int64Op_nonneg ha2 (by lia), Option.bind_some,
        rescaleGuardChecked_eq (Int.ediv_nonneg ha hc.le) hb hb32 ha2 ha2']
  · rw [if_neg hnarrow, if_neg hnarrow]

/-! ## All inputs -/

theorem avRescaleRnd_args {a b : Int} {passMinmax : Bool} (ha : int64Min < a) (hb : 0 ≤ b)
    (hc : 0 < c) (hpass : passMinmax = true → a ≠ int64Max) :
    ¬(c ≤ 0 ∨ b < 0) ∧ ¬(passMinmax = true ∧ (a = int64Min ∨ a = int64Max)) ∧ -int64Max ≤ a := by
  refine ⟨by lia, ?_, ?_⟩
  · rintro ⟨hp, rfl | hmax⟩
    · exact lt_irrefl _ ha
    · exact hpass hp hmax
  · unfold int64Min at ha
    unfold int64Max
    lia

theorem avRescaleRndChecked_eq {a b : Int} (ha : int64Min < a) (ha' : a ≤ int64Max) (hb : 0 ≤ b)
    (hc : 0 < c) (hc' : c ≤ int64Max) (rnd : AVRounding) (passMinmax : Bool)
    (hpass : passMinmax = true → a ≠ int64Max) :
    avRescaleRndChecked a b c rnd passMinmax = some (avRescaleRnd a b c rnd passMinmax) := by
  obtain ⟨hargs, hpass', hneg64⟩ := avRescaleRnd_args ha hb hc hpass
  rw [avRescaleRndChecked, avRescaleRnd, if_neg hargs, if_neg hargs, if_neg hpass', if_neg hpass']
  by_cases hneg : a < 0
  · have hmax : -max a (-int64Max) = -a := by rw [max_eq_left hneg64]
    have hna : 0 ≤ -a := by lia
    have hna' : -a ≤ int64Max := by lia
    rw [if_pos hneg, if_pos hneg, hmax, int64Op_nonneg hna hna', Option.bind_eq_bind,
      Option.bind_some, avRescaleNonnegChecked_eq rnd.flip hna hna' hb hc hc', Option.bind_some]
  · rw [if_neg hneg, if_neg hneg, avRescaleNonnegChecked_eq rnd (by lia) ha' hb hc hc']

/-- The rounded quotient, or `INT64_MIN`. -/
theorem avRescaleRnd_eq {a b : Int} (ha : int64Min < a) (ha' : a ≤ int64Max) (hb : 0 ≤ b)
    (hb' : b ≤ int64Max) (hc : 0 < c) (hc' : c ≤ int64Max) (rnd : AVRounding) (passMinmax : Bool)
    (hpass : passMinmax = true → a ≠ int64Max) :
    avRescaleRnd a b c rnd passMinmax = saturate (rnd.round ((a : ℚ) * b / c)) := by
  obtain ⟨hargs, hpass', hneg64⟩ := avRescaleRnd_args ha hb hc hpass
  rw [avRescaleRnd, if_neg hargs, if_neg hpass']
  by_cases hneg : a < 0
  · have hmax : -max a (-int64Max) = -a := by rw [max_eq_left hneg64]
    have hna : 0 ≤ -a := by lia
    have hna' : -a ≤ int64Max := by lia
    have hquot0 := quotient_nonneg rnd.flip hna hb hc
    have hprod : (0 : ℚ) ≤ ((-a * b : Int) : ℚ) / c :=
      div_nonneg (by exact_mod_cast mul_nonneg hna hb) (by exact_mod_cast hc.le)
    have hround : rnd.round ((a : ℚ) * b / c) = -quotient (-a) b c rnd.flip := by
      have hx : (a : ℚ) * b / c = -(((-a * b : Int) : ℚ) / c) := by
        push_cast
        ring
      rw [hx, round_neg rnd hprod, round_eq_ediv rnd.flip (mul_nonneg hna hb) hc, quotient]
    rw [if_pos hneg, hmax, avRescaleNonneg_eq rnd.flip hna hna' hb hb' hc hc', hround, saturate,
      abs_neg, abs_of_nonneg hquot0]
    by_cases hfits : quotient (-a) b c rnd.flip ≤ int64Max
    · rw [if_pos hfits, if_pos hfits]
      unfold int64Max at hfits
      exact Int.bmod_eq_of_le_mul_two (by push_cast; lia) (by push_cast; lia)
    · rw [if_neg hfits, if_neg hfits]
      decide
  · have ha0 : 0 ≤ a := by lia
    have hquot0 := quotient_nonneg rnd ha0 hb hc
    have hround : rnd.round ((a : ℚ) * b / c) = quotient a b c rnd := by
      have hx : (a : ℚ) * b / c = ((a * b : Int) : ℚ) / c := by push_cast; rfl
      rw [hx, round_eq_ediv rnd (mul_nonneg ha0 hb) hc, quotient]
    rw [if_neg hneg, avRescaleNonneg_eq rnd ha0 ha' hb hb' hc hc', hround, saturate,
      abs_of_nonneg hquot0]

/-- On every input for which it is specified `av_rescale_rnd` computes, without overflow of
a signed operation, the rational `a * b / c` rounded as asked for, or `INT64_MIN` if that
does not fit. -/
theorem avRescaleRnd_exact {a b c : Int} (ha : int64Min < a) (ha' : a ≤ int64Max) (hb : 0 ≤ b)
    (hb' : b ≤ int64Max) (hc : 0 < c) (hc' : c ≤ int64Max) (rnd : AVRounding)
    (passMinmax : Bool) (hpass : passMinmax = true → a ≠ int64Max) :
    avRescaleRndChecked a b c rnd passMinmax = some (avRescaleRnd a b c rnd passMinmax) ∧
      avRescaleRnd a b c rnd passMinmax = saturate (rnd.round ((a : ℚ) * b / c)) :=
  ⟨avRescaleRndChecked_eq ha ha' hb hc hc' rnd passMinmax hpass,
    avRescaleRnd_eq ha ha' hb hb' hc hc' rnd passMinmax hpass⟩

/-- A quotient of the wide path, halfway between two integers. -/
theorem avRescaleRnd_exact_wide :
    avRescaleRndChecked (-3) (2 ^ 40) (2 ^ 41) .nearInf true =
        some (avRescaleRnd (-3) (2 ^ 40) (2 ^ 41) .nearInf true) ∧
      avRescaleRnd (-3) (2 ^ 40) (2 ^ 41) .nearInf true =
        saturate (AVRounding.nearInf.round (((-3 : Int) : ℚ) * (2 ^ 40 : Int) / (2 ^ 41 : Int))) :=
  avRescaleRnd_exact (by decide) (by decide) (by decide) (by decide) (by decide) (by decide)
    .nearInf true (by decide)

end FFmpeg.Libavutil
