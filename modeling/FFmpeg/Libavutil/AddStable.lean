import FFmpeg.Common.RoundedGrid
import FFmpeg.Libavutil.Times
import FFmpeg.Libavutil.Rational

/-!
# Adding increments

`av_add_stable` adds an increment of another time base to a timestamp.  It steps on the rounded grid
of the increment and carries the offset along, so that many additions stay near the exact time.
-/

namespace FFmpeg.Libavutil

/-- `av_sat_add64`. -/
def avSatAdd64 (a b : Int) : Int :=
  let tmp := Int.bmod (a + b) (2 ^ 64)
  if tmp = a + b then tmp else if tmp < 0 then int64Max else int64Min

/-- `av_add_stable`; the number of increments is stored as an `int`. -/
def avAddStable (tsTb : AVRational) (ts : Int) (incTb : AVRational) (inc : Int) : Int :=
  let incTb := if inc ≠ 1 then avMulQ incTb ⟨Int.bmod inc (2 ^ 32), 1⟩ else incTb
  let m := incTb.num * tsTb.den
  let d := incTb.den * tsTb.num
  if m.tmod d = 0 ∧ ts ≤ int64Max - m.tdiv d then ts + m.tdiv d
  else if m < d then ts
  else
    let old := avRescaleQ ts tsTb incTb
    let oldTs := avRescaleQ old incTb tsTb
    if old = int64Max ∨ old = avNoptsValue ∨ oldTs = avNoptsValue then ts
    else avSatAdd64 (avRescaleQ (old + 1) incTb tsTb) (ts - oldTs)

/-- One increment, added again and again. -/
def addedStable (tsTb : AVRational) (ts : Int) (incTb : AVRational) : Nat → Int
  | 0 => ts
  | n + 1 => avAddStable tsTb (addedStable tsTb ts incTb n) incTb 1

/-! ## The grid of the increment -/

/-- The multiple of the increment that is nearest to a timestamp. -/
def gridPoint (tsTb incTb : AVRational) (ts : Int) : Int :=
  AVRounding.nearInf.round (ts * tsTb.value / incTb.value)

/-- The timestamp nearest to a multiple of the increment. -/
def gridTs (tsTb incTb : AVRational) (k : Int) : Int :=
  AVRounding.nearInf.round (k * incTb.value / tsTb.value)

/-- Nothing saturates in one addition: not the sum, and no grid point that it is made from. -/
structure Unsaturated (tsTb incTb : AVRational) (ts : Int) : Prop where
  sum : ts + (gridTs tsTb incTb (gridPoint tsTb incTb ts + 1) -
    gridTs tsTb incTb (gridPoint tsTb incTb ts)) ≤ int64Max
  grid : ¬ incTb.den * tsTb.num ∣ incTb.num * tsTb.den →
    IsTimestamp (gridTs tsTb incTb (gridPoint tsTb incTb ts)) ∧
      IsTimestamp (gridTs tsTb incTb (gridPoint tsTb incTb ts + 1))

theorem round_nearInf (x : ℚ) : |(AVRounding.nearInf.round x : ℚ) - x| ≤ 1 / 2 := by
  unfold AVRounding.round
  dsimp only
  split
  · have hle := Int.floor_le (x + 1 / 2)
    have hlt := Int.lt_floor_add_one (x + 1 / 2)
    rw [abs_le]
    constructor <;> linarith
  · have hle := Int.le_ceil (x - 1 / 2)
    have hlt := Int.ceil_lt_add_one (x - 1 / 2)
    rw [abs_le]
    constructor <;> linarith

theorem round_intCast (k : Int) : AVRounding.nearInf.round (k : ℚ) = k := by
  have hnear := abs_le.1 (round_nearInf (k : ℚ))
  have hlow : (k : ℚ) - 1 < AVRounding.nearInf.round (k : ℚ) := by linarith [hnear.1]
  have hhigh : (AVRounding.nearInf.round (k : ℚ) : ℚ) < k + 1 := by linarith [hnear.2]
  have hlowInt : k - 1 < AVRounding.nearInf.round (k : ℚ) := by exact_mod_cast hlow
  have hhighInt : AVRounding.nearInf.round (k : ℚ) < k + 1 := by exact_mod_cast hhigh
  lia

variable {ts : Int} {tsTb incTb : AVRational} {n : Nat}

theorem AVRational.IsTimeBase.increment (hts : tsTb.IsTimeBase) (hinc : incTb.IsTimeBase) :
    ((incTb.num * tsTb.den : Int) : ℚ) / (incTb.den * tsTb.num : Int) =
      incTb.value / tsTb.value := by
  have hticks := hinc.ticks hts 1
  rw [Int.cast_one, one_mul, one_mul] at hticks
  rw [mul_comm incTb.den, hticks]

theorem increment_of_dvd (hts : tsTb.IsTimeBase) (hinc : incTb.IsTimeBase)
    (hdvd : incTb.den * tsTb.num ∣ incTb.num * tsTb.den) :
    ((incTb.num * tsTb.den).tdiv (incTb.den * tsTb.num) : ℚ) = incTb.value / tsTb.value := by
  have hd : ((incTb.den * tsTb.num : Int) : ℚ) ≠ 0 := by
    exact_mod_cast (mul_pos hinc.den_pos hts.num_pos).ne'
  rw [← hts.increment hinc, Int.tdiv_eq_ediv_of_dvd hdvd, Int.cast_div hdvd hd]

theorem gridTs_of_dvd (hts : tsTb.IsTimeBase) (hinc : incTb.IsTimeBase)
    (hdvd : incTb.den * tsTb.num ∣ incTb.num * tsTb.den) (k : Int) :
    gridTs tsTb incTb k = k * (incTb.num * tsTb.den).tdiv (incTb.den * tsTb.num) := by
  rw [gridTs, mul_div_assoc, ← increment_of_dvd hts hinc hdvd, ← Int.cast_mul, round_intCast]

theorem avAddStable_whole (hts : tsTb.IsTimeBase) (hinc : incTb.IsTimeBase)
    (hdvd : incTb.den * tsTb.num ∣ incTb.num * tsTb.den) (hsat : Unsaturated tsTb incTb ts) :
    avAddStable tsTb ts incTb 1 = ts + (incTb.num * tsTb.den).tdiv (incTb.den * tsTb.num) := by
  have hsum := hsat.sum
  rw [gridTs_of_dvd hts hinc hdvd, gridTs_of_dvd hts hinc hdvd] at hsum
  refine if_pos ⟨Int.tmod_eq_zero_of_dvd hdvd, ?_⟩
  show ts ≤ int64Max - (incTb.num * tsTb.den).tdiv (incTb.den * tsTb.num)
  linarith

/-! ## Fractions of ticks -/

theorem grid (hts : tsTb.IsTimeBase) (hinc : incTb.IsTimeBase) (hle : tsTb.value ≤ incTb.value)
    (hdvd : ¬ incTb.den * tsTb.num ∣ incTb.num * tsTb.den) :
    Common.RoundedGrid.Grid (incTb.value / tsTb.value) (gridTs tsTb incTb) := by
  have hnot : ∀ k : Int, incTb.value / tsTb.value ≠ k := by
    intro k hk
    have hd : ((incTb.den * tsTb.num : Int) : ℚ) ≠ 0 := by
      exact_mod_cast (mul_pos hinc.den_pos hts.num_pos).ne'
    rw [← hts.increment hinc, div_eq_iff hd] at hk
    refine hdvd (Dvd.intro_left k ?_)
    exact_mod_cast hk.symm
  constructor
  · have hone : 1 ≤ incTb.value / tsTb.value := by rwa [one_le_div hts.value_pos]
    exact lt_of_le_of_ne hone (fun h => hnot 1 (by rw [← h, Int.cast_one]))
  · exact hnot
  · intro k
    rw [gridTs, mul_div_assoc]
    exact round_nearInf _

theorem gridPoint_near (hts : tsTb.IsTimeBase) (hinc : incTb.IsTimeBase) (ts : Int) :
    |(ts : ℚ) - gridPoint tsTb incTb ts * (incTb.value / tsTb.value)| ≤
      incTb.value / tsTb.value / 2 := by
  have hR : 0 < incTb.value / tsTb.value := div_pos hinc.value_pos hts.value_pos
  have hnear := round_nearInf (ts * tsTb.value / incTb.value)
  have hscale : (ts : ℚ) - gridPoint tsTb incTb ts * (incTb.value / tsTb.value) =
      -((gridPoint tsTb incTb ts - ts * tsTb.value / incTb.value) *
        (incTb.value / tsTb.value)) := by
    have hv := hts.value_pos.ne'
    have hv' := hinc.value_pos.ne'
    field_simp
    ring
  rw [hscale, abs_neg, abs_mul, abs_of_pos hR, gridPoint]
  linarith [mul_le_mul_of_nonneg_right hnear hR.le]

/-- The grid points are fewer than the ticks, so they do not reach the end of the range. -/
theorem gridPoint_isTimestamp (hts : tsTb.IsTimeBase) (hinc : incTb.IsTimeBase)
    (hlt : incTb.den * tsTb.num < incTb.num * tsTb.den) (h : IsTimestamp ts) :
    int64Min < gridPoint tsTb incTb ts ∧ gridPoint tsTb incTb ts < int64Max := by
  obtain ⟨hm, hm'⟩ := hinc.cross hts
  have hd : 0 < incTb.den * tsTb.num := mul_pos hinc.den_pos hts.num_pos
  have hmax : incTb.num * tsTb.den < int64Max := by
    have hsquare : intMax * intMax < int64Max := by decide
    exact lt_of_le_of_lt (mul_le_mul hinc.num_le hts.den_le hts.den_pos.le (by decide)) hsquare
  have hnear := gridPoint_near hts hinc ts
  rw [← hts.increment hinc] at hnear
  generalize incTb.num * tsTb.den = m at *
  generalize incTb.den * tsTb.num = d at *
  generalize gridPoint tsTb incTb ts = p at *
  have hdq : (0 : ℚ) < d := by exact_mod_cast hd
  obtain ⟨hlow, hhigh⟩ : -m ≤ 2 * (ts * d - p * m) ∧ 2 * (ts * d - p * m) ≤ m := by
    have hscaled := mul_le_mul_of_nonneg_right hnear hdq.le
    rw [← abs_of_pos hdq, ← abs_mul, abs_of_pos hdq, abs_le] at hscaled
    have hcancel : ((ts : ℚ) - p * (m / d)) * d = ts * d - p * m := by
      field_simp
    have hhalf : (m : ℚ) / d / 2 * d = m / 2 := by
      field_simp
    rw [hcancel, hhalf] at hscaled
    constructor
    · have hq : (-m : ℚ) ≤ 2 * (ts * d - p * m) := by linarith [hscaled.1]
      exact_mod_cast hq
    · have hq : 2 * (ts * d - p * m : ℚ) ≤ m := by linarith [hscaled.2]
      exact_mod_cast hq
  obtain ⟨hmin, hmax'⟩ := h
  constructor
  · by_contra hle
    rw [not_lt] at hle
    have hbelow : p + 1 ≤ ts := by lia
    have hneg : p + 1 ≤ 0 := by
      have hnegative : int64Min + 1 ≤ 0 := by decide
      lia
    rcases le_or_gt 0 ts with hpos | hts0
    · have hticks := mul_nonneg hpos hd.le
      have hprod := mul_le_mul_of_nonneg_right hneg hm.le
      linarith
    · have hticks := mul_le_mul_of_nonpos_left hlt.le hts0.le
      have hprod := mul_le_mul_of_nonneg_right hbelow hm.le
      linarith
  · by_contra hle
    rw [not_lt] at hle
    have habove : ts ≤ p := by lia
    rcases le_or_gt 0 ts with hpos | hts0
    · -- as `d < m` the timestamp is at most half of `m`
      have hticks := mul_le_mul_of_nonneg_left (show d ≤ m - 1 by lia) hpos
      have hprod := mul_le_mul_of_nonneg_right habove hm.le
      have hhalf : 2 * ts ≤ m := by linarith
      have hfar := mul_le_mul_of_nonneg_right (show m + 1 ≤ p by lia) hm.le
      have hsmall := mul_le_mul_of_nonneg_right hhalf hd.le
      have hsquare := mul_le_mul_of_nonneg_left hlt.le hm.le
      linarith [mul_pos hm hm]
    · have hticks := mul_nonpos_of_nonpos_of_nonneg hts0.le hd.le
      have hpositive : 1 ≤ p := by
        have hpos : 1 ≤ int64Max := by decide
        lia
      have hprod := mul_le_mul_of_nonneg_right hpositive hm.le
      linarith

theorem avRescaleQ_gridPoint (hts : tsTb.IsTimeBase) (hinc : incTb.IsTimeBase)
    (hlt : incTb.den * tsTb.num < incTb.num * tsTb.den) (h : IsTimestamp ts) :
    avRescaleQ ts tsTb incTb = gridPoint tsTb incTb ts := by
  obtain ⟨hlow, hhigh⟩ := gridPoint_isTimestamp hts hinc hlt h
  rw [avRescaleQ, avRescaleQRnd_eq h hts hinc]
  exact saturate_of_isInt64 ⟨hlow.le, hhigh.le⟩

theorem avRescaleQ_gridTs (hts : tsTb.IsTimeBase) (hinc : incTb.IsTimeBase) {k : Int}
    (hk : IsTimestamp k) (h : IsTimestamp (gridTs tsTb incTb k)) :
    avRescaleQ k incTb tsTb = gridTs tsTb incTb k := by
  rw [avRescaleQ, avRescaleQRnd_eq hk hinc hts]
  exact saturate_of_isInt64 ⟨h.1.le, h.2⟩

theorem avSatAdd64_eq {a b : Int} (h : IsInt64 (a + b)) : avSatAdd64 a b = a + b := by
  obtain ⟨hlow, hhigh⟩ := h
  unfold int64Min at hlow
  unfold int64Max at hhigh
  have hfits : Int.bmod (a + b) (2 ^ 64) = a + b :=
    Int.bmod_eq_of_le_mul_two (by push_cast; lia) (by push_cast; lia)
  unfold avSatAdd64
  dsimp only
  rw [hfits, if_pos rfl]

theorem increment_lt (hts : tsTb.IsTimeBase) (hinc : incTb.IsTimeBase)
    (hle : tsTb.value ≤ incTb.value)
    (hdvd : ¬ incTb.den * tsTb.num ∣ incTb.num * tsTb.den) :
    incTb.den * tsTb.num < incTb.num * tsTb.den := by
  have hone := (grid hts hinc hle hdvd).one_lt
  have hd : (0 : ℚ) < (incTb.den * tsTb.num : Int) := by
    exact_mod_cast mul_pos hinc.den_pos hts.num_pos
  rw [← hts.increment hinc, one_lt_div hd] at hone
  exact_mod_cast hone

theorem gridTs_lt (hts : tsTb.IsTimeBase) (hinc : incTb.IsTimeBase)
    (hle : tsTb.value ≤ incTb.value) (k : Int) :
    gridTs tsTb incTb k < gridTs tsTb incTb (k + 1) := by
  by_cases hdvd : incTb.den * tsTb.num ∣ incTb.num * tsTb.den
  · have hpos : (0 : ℚ) < (incTb.num * tsTb.den).tdiv (incTb.den * tsTb.num) := by
      rw [increment_of_dvd hts hinc hdvd]
      exact div_pos hinc.value_pos hts.value_pos
    have hposInt : 0 < (incTb.num * tsTb.den).tdiv (incTb.den * tsTb.num) := by
      exact_mod_cast hpos
    rw [gridTs_of_dvd hts hinc hdvd, gridTs_of_dvd hts hinc hdvd, add_mul]
    linarith
  · have hgrid := grid hts hinc hle hdvd
    have hgap := (abs_lt.1 (hgrid.gap k)).1
    have hlt : (gridTs tsTb incTb k : ℚ) < gridTs tsTb incTb (k + 1) := by
      linarith [hgrid.one_lt]
    exact_mod_cast hlt

/-- One addition moves by the distance of the two grid points. -/
theorem avAddStable_grid (hts : tsTb.IsTimeBase) (hinc : incTb.IsTimeBase)
    (hle : tsTb.value ≤ incTb.value)
    (hdvd : ¬ incTb.den * tsTb.num ∣ incTb.num * tsTb.den) (h : IsTimestamp ts)
    (hsat : Unsaturated tsTb incTb ts) :
    avAddStable tsTb ts incTb 1 = gridTs tsTb incTb (gridPoint tsTb incTb ts + 1) +
      (ts - gridTs tsTb incTb (gridPoint tsTb incTb ts)) := by
  have hlt := increment_lt hts hinc hle hdvd
  obtain ⟨hlow, hhigh⟩ := gridPoint_isTimestamp hts hinc hlt h
  obtain ⟨hold, hnext⟩ := hsat.grid hdvd
  have hsum : IsInt64 (gridTs tsTb incTb (gridPoint tsTb incTb ts + 1) +
      (ts - gridTs tsTb incTb (gridPoint tsTb incTb ts))) := by
    have hlater := gridTs_lt hts hinc hle (gridPoint tsTb incTb ts)
    constructor
    · linarith [h.1]
    · linarith [hsat.sum]
  have htmod : ¬ (incTb.num * tsTb.den).tmod (incTb.den * tsTb.num) = 0 := by
    rwa [← Int.dvd_iff_tmod_eq_zero]
  have hone : (if (1 : Int) ≠ 1 then avMulQ incTb ⟨Int.bmod 1 (2 ^ 32), 1⟩ else incTb) = incTb :=
    if_neg (by simp)
  unfold avAddStable
  dsimp only
  rw [hone, if_neg (fun hand => htmod hand.1), if_neg hlt.not_gt,
    avRescaleQ_gridPoint hts hinc hlt h,
    avRescaleQ_gridTs hts hinc ⟨hlow, hhigh.le⟩ hold,
    avRescaleQ_gridTs hts hinc ⟨by lia, by lia⟩ hnext, if_neg, avSatAdd64_eq hsum]
  rintro (hend | hend | hend)
  · exact hhigh.ne hend
  · exact hlow.ne' hend
  · exact hold.1.ne' hend

theorem avAddStable_isTimestamp (hts : tsTb.IsTimeBase) (hinc : incTb.IsTimeBase)
    (hle : tsTb.value ≤ incTb.value) (h : IsTimestamp ts) (hsat : Unsaturated tsTb incTb ts) :
    IsTimestamp (avAddStable tsTb ts incTb 1) := by
  have hlater := gridTs_lt hts hinc hle (gridPoint tsTb incTb ts)
  have hsum := hsat.sum
  have heq : avAddStable tsTb ts incTb 1 = ts +
      (gridTs tsTb incTb (gridPoint tsTb incTb ts + 1) -
        gridTs tsTb incTb (gridPoint tsTb incTb ts)) := by
    by_cases hdvd : incTb.den * tsTb.num ∣ incTb.num * tsTb.den
    · rw [avAddStable_whole hts hinc hdvd hsat, gridTs_of_dvd hts hinc hdvd,
        gridTs_of_dvd hts hinc hdvd]
      ring
    · rw [avAddStable_grid hts hinc hle hdvd h hsat]
      ring
  rw [heq]
  constructor
  · linarith [h.1]
  · exact hsum

/-! ## Many additions -/

theorem addedStable_isTimestamp (hts : tsTb.IsTimeBase) (hinc : incTb.IsTimeBase)
    (hle : tsTb.value ≤ incTb.value) (h : IsTimestamp ts)
    (hsat : ∀ k < n, Unsaturated tsTb incTb (addedStable tsTb ts incTb k)) :
    IsTimestamp (addedStable tsTb ts incTb n) := by
  induction n with
  | zero => exact h
  | succ n ih =>
    exact avAddStable_isTimestamp hts hinc hle (ih (fun k hk => hsat k (by lia)))
      (hsat n (by lia))

theorem addedStable_whole (hts : tsTb.IsTimeBase) (hinc : incTb.IsTimeBase)
    (hdvd : incTb.den * tsTb.num ∣ incTb.num * tsTb.den)
    (hsat : ∀ k < n, Unsaturated tsTb incTb (addedStable tsTb ts incTb k)) :
    (addedStable tsTb ts incTb n : ℚ) = ts + n * (incTb.value / tsTb.value) := by
  induction n with
  | zero => simp [addedStable]
  | succ n ih =>
    rw [addedStable, avAddStable_whole hts hinc hdvd (hsat n (by lia)), Int.cast_add,
      ih (fun k hk => hsat k (by lia)), increment_of_dvd hts hinc hdvd]
    push_cast
    ring

/-- **No drift**: however often one increment of at least a tick is added, the sum is less than
three ticks from the exact one. -/
theorem avAddStable_drift (hts : tsTb.IsTimeBase) (hinc : incTb.IsTimeBase)
    (hle : tsTb.value ≤ incTb.value) (h : IsTimestamp ts)
    (hsat : ∀ k < n, Unsaturated tsTb incTb (addedStable tsTb ts incTb k)) :
    |(addedStable tsTb ts incTb n : ℚ) - (ts + n * incTb.value / tsTb.value)| < 3 := by
  rw [mul_div_assoc]
  by_cases hdvd : incTb.den * tsTb.num ∣ incTb.num * tsTb.den
  · rw [addedStable_whole hts hinc hdvd hsat, sub_self, abs_zero]
    norm_num
  · refine Common.RoundedGrid.Steps.drift (t := addedStable tsTb ts incTb) (N := n)
      (o := fun k => gridPoint tsTb incTb (addedStable tsTb ts incTb k)) ⟨?_, ?_⟩
      (grid hts hinc hle hdvd) le_rfl
    · exact fun k => gridPoint_near hts hinc _
    · intro k hk
      refine avAddStable_grid hts hinc hle hdvd ?_ (hsat k hk)
      exact addedStable_isTimestamp hts hinc hle h (fun j hj => hsat j (by lia))

/-- Two increments of two ticks and a half. -/
theorem avAddStable_drift_two :
    |(addedStable ⟨1, 10⟩ 1 ⟨1, 4⟩ 2 : ℚ) -
      ((1 : Int) + (2 : Nat) * AVRational.value ⟨1, 4⟩ / AVRational.value ⟨1, 10⟩)| < 3 := by
  have hbase : ∀ den : Int, 0 < den → den ≤ intMax → AVRational.IsTimeBase ⟨1, den⟩ :=
    fun den hpos hle => ⟨Int.one_pos, (by decide : (1 : Int) ≤ intMax), hpos, hle⟩
  refine avAddStable_drift (hbase 10 (by decide) (by decide)) (hbase 4 (by decide) (by decide))
    (by norm_num [AVRational.value]) (by decide) ?_
  intro k hk
  have hcases : k = 0 ∨ k = 1 := by lia
  rcases hcases with rfl | rfl
  · exact ⟨by decide +kernel, fun _ => by decide +kernel⟩
  · exact ⟨by decide +kernel, fun _ => by decide +kernel⟩

end FFmpeg.Libavutil
