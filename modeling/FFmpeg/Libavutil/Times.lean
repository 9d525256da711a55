import FFmpeg.Libavutil.MathematicsExact

/-!
# Times

A timestamp counts ticks of a time base.  Rescaling it to another time base rounds the exact
number of ticks, and `av_compare_ts` compares the exact times.
-/

namespace FFmpeg.Libavutil

/-- A positive time base, made of numbers of type `int`. -/
structure AVRational.IsTimeBase (q : AVRational) : Prop where
  num_pos : 0 < q.num
  num_le : q.num ≤ intMax
  den_pos : 0 < q.den
  den_le : q.den ≤ intMax

/-- The number that a fraction stands for. -/
def AVRational.value (q : AVRational) : ℚ := q.num / q.den

/-- A number of type `int64_t`. -/
def IsInt64 (x : Int) : Prop := int64Min ≤ x ∧ x ≤ int64Max

/-- A timestamp other than `INT64_MIN`. -/
def IsTimestamp (ts : Int) : Prop := int64Min < ts ∧ ts ≤ int64Max

instance (ts : Int) : Decidable (IsTimestamp ts) :=
  inferInstanceAs (Decidable (int64Min < ts ∧ ts ≤ int64Max))

theorem IsTimestamp.abs_le_max {x : Int} (h : IsTimestamp x) : |x| ≤ int64Max := by
  obtain ⟨hlo, hhi⟩ := h
  unfold int64Min at hlo
  unfold int64Max at hhi ⊢
  exact abs_le.2 ⟨by lia, by lia⟩

theorem saturate_of_isInt64 {q : Int} (h : IsInt64 q) : saturate q = q := by
  have hmin : int64Min = -int64Max - 1 := by decide
  obtain ⟨hlo, hhi⟩ := h
  unfold saturate
  by_cases hle : |q| ≤ int64Max
  · exact if_pos hle
  · rw [abs_le] at hle
    rw [if_neg (by rw [abs_le]; exact hle)]
    lia

variable {ts tsA tsB tsC : Int} {tb tb' tbA tbB tbC : AVRational}

theorem AVRational.IsTimeBase.value_pos (h : tb.IsTimeBase) : 0 < tb.value :=
  div_pos (by exact_mod_cast h.num_pos) (by exact_mod_cast h.den_pos)

theorem AVRational.IsTimeBase.cross (h : tb.IsTimeBase) (h' : tb'.IsTimeBase) :
    0 < tb.num * tb'.den ∧ tb.num * tb'.den ≤ int64Max := by
  have hmax : intMax * intMax ≤ int64Max := by decide
  refine ⟨mul_pos h.num_pos h'.den_pos, le_trans ?_ hmax⟩
  exact mul_le_mul h.num_le h'.den_le h'.den_pos.le (by decide)

theorem AVRational.IsTimeBase.ticks (h : tb.IsTimeBase) (h' : tb'.IsTimeBase) (ts : Int) :
    (ts : ℚ) * (tb.num * tb'.den : Int) / (tb'.num * tb.den : Int) = ts * tb.value / tb'.value := by
  have hnum' : (tb'.num : ℚ) ≠ 0 := by exact_mod_cast h'.num_pos.ne'
  have hden : (tb.den : ℚ) ≠ 0 := by exact_mod_cast h.den_pos.ne'
  have hden' : (tb'.den : ℚ) ≠ 0 := by exact_mod_cast h'.den_pos.ne'
  unfold AVRational.value
  push_cast
  field_simp

theorem avRescaleQRnd_eq (hts : IsTimestamp ts) (h : tb.IsTimeBase) (h' : tb'.IsTimeBase)
    (rnd : AVRounding) :
    avRescaleQRnd ts tb tb' rnd = saturate (rnd.round (ts * tb.value / tb'.value)) := by
  obtain ⟨hpos, hle⟩ := h.cross h'
  obtain ⟨hpos', hle'⟩ := h'.cross h
  rw [avRescaleQRnd, avRescaleRnd_eq hts.1 hts.2 hpos.le hle hpos' hle' rnd false (by simp),
    h.ticks h']

/-! ## Comparing times -/

/-- The timestamp, rescaled to the other time base, is an `int64_t`. -/
def Fits (ts : Int) (tb tb' : AVRational) : Prop :=
  IsInt64 ⌊(ts : ℚ) * tb.value / tb'.value⌋

/-- The order of two numbers, as -1, 0 or 1. -/
def order (x y : ℚ) : Int := if x < y then -1 else if y < x then 1 else 0

theorem order_swap (x y : ℚ) : order y x = -order x y := by
  unfold order
  rcases lt_trichotomy x y with h | h | h
  · simp [h, h.not_gt]
  · simp [h]
  · simp [h, h.not_gt]

theorem order_nonpos {x y : ℚ} : order x y ≤ 0 ↔ x ≤ y := by
  unfold order
  rcases lt_trichotomy x y with h | h | h
  · simp [h, h.le]
  · simp [h]
  · simp [h, h.not_gt]

theorem avRescaleRnd_down_lt (hts : IsTimestamp tsA) (hA : tbA.IsTimeBase) (hB : tbB.IsTimeBase)
    (hfits : Fits tsA tbA tbB) :
    avRescaleRnd tsA (tbA.num * tbB.den) (tbB.num * tbA.den) .down false < tsB ↔
      tsA * tbA.value < tsB * tbB.value := by
  have hdown := avRescaleQRnd_eq hts hA hB .down
  rw [avRescaleQRnd] at hdown
  rw [hdown, AVRounding.round, saturate_of_isInt64 hfits, Int.floor_lt, div_lt_iff₀ hB.value_pos]

theorem product_lt (hA : tbA.IsTimeBase) (hB : tbB.IsTimeBase) :
    tsA * (tbA.num * tbB.den) < tsB * (tbB.num * tbA.den) ↔ tsA * tbA.value < tsB * tbB.value := by
  have hdenA : (0 : ℚ) < tbA.den := by exact_mod_cast hA.den_pos
  have hdenB : (0 : ℚ) < tbB.den := by exact_mod_cast hB.den_pos
  have hcast : tsA * (tbA.num * tbB.den) < tsB * (tbB.num * tbA.den) ↔
      (tsA : ℚ) * tbA.num * tbB.den < tsB * tbB.num * tbA.den := by
    rw [mul_assoc, mul_assoc]
    exact_mod_cast Iff.rfl
  rw [hcast, AVRational.value, AVRational.value, ← mul_div_assoc, ← mul_div_assoc,
    div_lt_div_iff₀ hdenA hdenB]

theorem avCompareTs_eq_order (htsA : IsTimestamp tsA) (htsB : IsTimestamp tsB)
    (hA : tbA.IsTimeBase) (hB : tbB.IsTimeBase) (hfitsA : Fits tsA tbA tbB)
    (hfitsB : Fits tsB tbB tbA) :
    avCompareTs tsA tbA tsB tbB = order (tsA * tbA.value) (tsB * tbB.value) := by
  unfold avCompareTs order
  dsimp only
  split
  · -- everything is small enough for the products
    simp only [gt_iff_lt, product_lt hA hB, product_lt hB hA]
    rcases lt_trichotomy ((tsA : ℚ) * tbA.value) (tsB * tbB.value) with h | h | h
    · simp [h, h.not_gt]
    · simp [h]
    · simp [h, h.not_gt]
  · simp only [avRescaleRnd_down_lt htsA hA hB hfitsA, avRescaleRnd_down_lt htsB hB hA hfitsB]

/-- **The order of times**: `av_compare_ts` compares the exact times, so it changes its sign with
the order of its arguments, and it is transitive. -/
theorem avCompareTs_exact (htsA : IsTimestamp tsA) (htsB : IsTimestamp tsB)
    (htsC : IsTimestamp tsC) (hA : tbA.IsTimeBase) (hB : tbB.IsTimeBase) (hC : tbC.IsTimeBase)
    (hAB : Fits tsA tbA tbB) (hBA : Fits tsB tbB tbA) (hBC : Fits tsB tbB tbC)
    (hCB : Fits tsC tbC tbB) (hAC : Fits tsA tbA tbC) (hCA : Fits tsC tbC tbA) :
    avCompareTs tsA tbA tsB tbB = order (tsA * tbA.value) (tsB * tbB.value) ∧
      avCompareTs tsB tbB tsA tbA = -avCompareTs tsA tbA tsB tbB ∧
      (avCompareTs tsA tbA tsB tbB ≤ 0 → avCompareTs tsB tbB tsC tbC ≤ 0 →
        avCompareTs tsA tbA tsC tbC ≤ 0) := by
  have hab := avCompareTs_eq_order htsA htsB hA hB hAB hBA
  refine ⟨hab, ?_, ?_⟩
  · rw [hab, avCompareTs_eq_order htsB htsA hB hA hBA hAB, order_swap]
  · rw [hab, avCompareTs_eq_order htsB htsC hB hC hBC hCB,
      avCompareTs_eq_order htsA htsC hA hC hAC hCA]
    simp only [order_nonpos]
    exact le_trans

/-- Large timestamps in time bases that are close to each other, and a negative one. -/
theorem avCompareTs_exact_ticks :
    avCompareTs (2 ^ 40) ⟨1, 90000⟩ (2 ^ 40) ⟨1, 90001⟩ =
        order ((2 ^ 40 : Int) * AVRational.value ⟨1, 90000⟩)
          ((2 ^ 40 : Int) * AVRational.value ⟨1, 90001⟩) ∧
      avCompareTs (2 ^ 40) ⟨1, 90001⟩ (2 ^ 40) ⟨1, 90000⟩ =
        -avCompareTs (2 ^ 40) ⟨1, 90000⟩ (2 ^ 40) ⟨1, 90001⟩ ∧
      (avCompareTs (2 ^ 40) ⟨1, 90000⟩ (2 ^ 40) ⟨1, 90001⟩ ≤ 0 →
        avCompareTs (2 ^ 40) ⟨1, 90001⟩ (-1) ⟨1, 3⟩ ≤ 0 →
        avCompareTs (2 ^ 40) ⟨1, 90000⟩ (-1) ⟨1, 3⟩ ≤ 0) := by
  have hbase : ∀ den : Int, 0 < den → den ≤ intMax → AVRational.IsTimeBase ⟨1, den⟩ :=
    fun den hpos hle => ⟨Int.one_pos, (by decide : (1 : Int) ≤ intMax), hpos, hle⟩
  have hfits : ∀ (ts den den' : Int), 0 < den → int64Min ≤ ts * den' / den →
      ts * den' / den ≤ int64Max → Fits ts ⟨1, den⟩ ⟨1, den'⟩ := by
    intro ts den den' hpos hlo hhi
    have hticks : (ts : ℚ) * AVRational.value ⟨1, den⟩ / AVRational.value ⟨1, den'⟩ =
        ((ts * den' : Int) : ℚ) / den := by
      unfold AVRational.value
      push_cast
      rw [one_div, one_div, div_inv_eq_mul]
      ring
    rw [Fits, hticks, floor_div hpos]
    exact ⟨hlo, hhi⟩
  exact avCompareTs_exact (by decide +kernel) (by decide +kernel) (by decide +kernel)
    (hbase 90000 (by decide) (by decide)) (hbase 90001 (by decide) (by decide))
    (hbase 3 (by decide) (by decide)) (hfits _ _ _ (by decide) (by decide) (by decide))
    (hfits _ _ _ (by decide) (by decide) (by decide))
    (hfits _ _ _ (by decide) (by decide) (by decide))
    (hfits _ _ _ (by decide) (by decide) (by decide))
    (hfits _ _ _ (by decide) (by decide) (by decide))
    (hfits _ _ _ (by decide) (by decide) (by decide))

end FFmpeg.Libavutil
