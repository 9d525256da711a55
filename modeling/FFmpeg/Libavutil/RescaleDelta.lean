import FFmpeg.Libavutil.AddStable

/-!
# Rescaling with a sample position

`av_rescale_delta` turns a coarse timestamp into a position in samples.  The position before it,
`*last`, is kept as long as it can be the one of the timestamp; otherwise the timestamp decides.
-/

namespace FFmpeg.Libavutil

/-- `av_clip64`. -/
def avClip64 (a amin amax : Int) : Int :=
  if a < amin then amin else if amax < a then amax else a

/-- The arguments of one call of `av_rescale_delta`, without `*last`. -/
structure DeltaCall where
  inTb : AVRational
  inTs : Int
  fsTb : AVRational
  duration : Int
  outTb : AVRational
  deriving DecidableEq, Repr

/-- The lower end `a` of the positions that the timestamp can mean. -/
def DeltaCall.low (c : DeltaCall) : Int :=
  avRescaleQRnd (2 * c.inTs - 1) c.inTb c.fsTb .down >>> (1 : Nat)

/-- The upper end `b`. -/
def DeltaCall.high (c : DeltaCall) : Int :=
  (avRescaleQRnd (2 * c.inTs + 1) c.inTb c.fsTb .up + 1) >>> (1 : Nat)

/-- `simple_round`. -/
def DeltaCall.simpleRound (c : DeltaCall) : Int × Int :=
  (avRescaleQ c.inTs c.inTb c.outTb, avRescaleQ c.inTs c.inTb c.fsTb + c.duration)

/-- `av_rescale_delta`: what it returns and the new `*last`, if no assertion fails. -/
def avRescaleDelta (c : DeltaCall) (last : Int) : Option (Int × Int) :=
  if c.inTs = avNoptsValue ∨ c.duration < 0 then none
  else if last = avNoptsValue ∨ c.duration = 0 ∨
      c.inTb.num * c.outTb.den ≤ c.outTb.num * c.inTb.den then
    some c.simpleRound
  else
    let a := c.low
    let b := c.high
    if last < 2 * a - b ∨ 2 * b - a < last then some c.simpleRound
    else
      let this := avClip64 last a b
      some (avRescaleQ this c.fsTb c.outTb, this + c.duration)

/-! ## One call -/

/-- The length of an input tick, in samples. -/
def DeltaCall.tick (c : DeltaCall) : ℚ := c.inTb.value / c.fsTb.value

/-- Positive time bases, the input tick coarser than the output tick, a duration, and a timestamp
whose ends are in the exact range. -/
structure DeltaCall.Valid (c : DeltaCall) : Prop where
  inTb : c.inTb.IsTimeBase
  fsTb : c.fsTb.IsTimeBase
  outTb : c.outTb.IsTimeBase
  coarser : c.outTb.value < c.inTb.value
  duration : 1 ≤ c.duration
  inTs : IsTimestamp c.inTs
  lower : IsTimestamp (2 * c.inTs - 1)
  upper : IsTimestamp (2 * c.inTs + 1)
  low : IsTimestamp ⌊((2 * c.inTs - 1 : Int) : ℚ) * c.inTb.value / c.fsTb.value⌋
  high : IsTimestamp ⌈((2 * c.inTs + 1 : Int) : ℚ) * c.inTb.value / c.fsTb.value⌉

/-- What a call does with `last`, where it returns `out.1` and leaves `out.2` in `*last`: the
position that is used is near the timestamp, and it is `last` if the timestamp can mean it.  Within
the reset window the position is rescaled. -/
structure DeltaCall.Keeps (c : DeltaCall) (last : Int) (out : Int × Int) : Prop where
  near : |(out.2 : ℚ) - c.duration - c.inTs * c.tick| ≤ c.tick / 2 + 1
  exact : c.low ≤ last → last ≤ c.high → out.2 - c.duration = last ∧
    out.1 = saturate (AVRounding.nearInf.round (last * c.fsTb.value / c.outTb.value))
  clipped : last ≠ avNoptsValue → 2 * c.low - c.high ≤ last → last ≤ 2 * c.high - c.low →
    out.2 - c.duration = avClip64 last c.low c.high ∧
    out.1 = saturate (AVRounding.nearInf.round
      ((out.2 - c.duration : Int) * c.fsTb.value / c.outTb.value))

variable {c : DeltaCall} {last : Int} {calls : List DeltaCall}

theorem avClip64_bounds {a b : Int} (hab : a ≤ b) (x : Int) :
    a ≤ avClip64 x a b ∧ avClip64 x a b ≤ b := by
  unfold avClip64
  split
  · exact ⟨le_rfl, hab⟩
  · split <;> lia

theorem avClip64_of_mem {a b x : Int} (ha : a ≤ x) (hb : x ≤ b) : avClip64 x a b = x := by
  rw [avClip64, if_neg ha.not_gt, if_neg hb.not_gt]

theorem DeltaCall.Valid.low_eq (h : c.Valid) :
    c.low = ⌊((2 * c.inTs - 1 : Int) : ℚ) * c.inTb.value / c.fsTb.value⌋ / 2 := by
  rw [DeltaCall.low, avRescaleQRnd_eq h.lower h.inTb h.fsTb, AVRounding.round,
    saturate_of_isInt64 ⟨h.low.1.le, h.low.2⟩, Int.shiftRight_eq_div_pow]
  rfl

theorem DeltaCall.Valid.high_eq (h : c.Valid) :
    c.high = (⌈((2 * c.inTs + 1 : Int) : ℚ) * c.inTb.value / c.fsTb.value⌉ + 1) / 2 := by
  rw [DeltaCall.high, avRescaleQRnd_eq h.upper h.inTb h.fsTb, AVRounding.round,
    saturate_of_isInt64 ⟨h.high.1.le, h.high.2⟩, Int.shiftRight_eq_div_pow]
  rfl

theorem DeltaCall.Valid.low_bounds (h : c.Valid) :
    (c.inTs - 1 / 2 : ℚ) * c.tick - 1 < c.low ∧ (c.low : ℚ) ≤ (c.inTs - 1 / 2) * c.tick := by
  have hlow := h.low_eq
  have hfloor := Int.floor_le (((2 * c.inTs - 1 : Int) : ℚ) * c.inTb.value / c.fsTb.value)
  have hfloor' := Int.lt_floor_add_one (((2 * c.inTs - 1 : Int) : ℚ) * c.inTb.value / c.fsTb.value)
  generalize ⌊((2 * c.inTs - 1 : Int) : ℚ) * c.inTb.value / c.fsTb.value⌋ = x at hlow hfloor hfloor'
  have hhalf : 2 * c.low ≤ x ∧ x ≤ 2 * c.low + 1 := by lia
  have hhalf1 : (2 * c.low : ℚ) ≤ x := by exact_mod_cast hhalf.1
  have hhalf2 : (x : ℚ) ≤ 2 * c.low + 1 := by exact_mod_cast hhalf.2
  rw [mul_div_assoc] at hfloor hfloor'
  push_cast at hfloor hfloor'
  rw [DeltaCall.tick]
  constructor <;> linarith

theorem DeltaCall.Valid.high_bounds (h : c.Valid) :
    (c.inTs + 1 / 2 : ℚ) * c.tick ≤ c.high ∧ (c.high : ℚ) < (c.inTs + 1 / 2) * c.tick + 1 := by
  have hhigh := h.high_eq
  have hceil := Int.le_ceil (((2 * c.inTs + 1 : Int) : ℚ) * c.inTb.value / c.fsTb.value)
  have hceil' := Int.ceil_lt_add_one (((2 * c.inTs + 1 : Int) : ℚ) * c.inTb.value / c.fsTb.value)
  generalize ⌈((2 * c.inTs + 1 : Int) : ℚ) * c.inTb.value / c.fsTb.value⌉ = x at hhigh hceil hceil'
  have hhalf : x ≤ 2 * c.high ∧ 2 * c.high ≤ x + 1 := by lia
  have hhalf1 : (x : ℚ) ≤ 2 * c.high := by exact_mod_cast hhalf.1
  have hhalf2 : (2 * c.high : ℚ) ≤ x + 1 := by exact_mod_cast hhalf.2
  rw [mul_div_assoc] at hceil hceil'
  push_cast at hceil hceil'
  rw [DeltaCall.tick]
  constructor <;> linarith

theorem DeltaCall.Valid.tick_pos (h : c.Valid) : 0 < c.tick :=
  div_pos h.inTb.value_pos h.fsTb.value_pos

theorem DeltaCall.Valid.low_le_high (h : c.Valid) : c.low ≤ c.high := by
  have hlow := h.low_bounds.2
  have hhigh := h.high_bounds.1
  have htick := h.tick_pos
  have hle : (c.low : ℚ) ≤ c.high := by linarith
  exact_mod_cast hle

theorem DeltaCall.Valid.isTimestamp (h : c.Valid) {x : Int} (hlow : c.low ≤ x)
    (hhigh : x ≤ c.high) : IsTimestamp x ∧ x ≠ avNoptsValue := by
  have hmin := h.low.1
  have hmax := h.high.2
  rw [h.low_eq] at hlow
  rw [h.high_eq] at hhigh
  unfold IsTimestamp avNoptsValue
  unfold int64Min at hmin ⊢
  unfold int64Max at hmax ⊢
  lia

theorem DeltaCall.Valid.window (h : c.Valid) (hlow : c.low ≤ last) (hhigh : last ≤ c.high) :
    2 * c.low - c.high ≤ last ∧ last ≤ 2 * c.high - c.low := by
  have hle := h.low_le_high
  constructor <;> lia

theorem DeltaCall.Valid.simpleRound_near (h : c.Valid) :
    |((avRescaleQ c.inTs c.inTb c.fsTb : Int) : ℚ) - c.inTs * c.tick| ≤ 1 / 2 := by
  have hnear := round_nearInf (c.inTs * c.inTb.value / c.fsTb.value)
  rw [mul_div_assoc, ← DeltaCall.tick] at hnear
  obtain ⟨hbelow, habove⟩ := abs_le.1 hnear
  have htick := h.tick_pos
  have hlow : c.low ≤ AVRounding.nearInf.round (c.inTs * c.tick) := by
    have hlt : (c.low : ℚ) < AVRounding.nearInf.round (c.inTs * c.tick) + 1 := by
      linarith [h.low_bounds.2]
    have hltInt : c.low < AVRounding.nearInf.round (c.inTs * c.tick) + 1 := by exact_mod_cast hlt
    lia
  have hhigh : AVRounding.nearInf.round (c.inTs * c.tick) ≤ c.high := by
    have hlt : (AVRounding.nearInf.round (c.inTs * c.tick) : ℚ) < c.high + 1 := by
      linarith [h.high_bounds.1]
    have hltInt : AVRounding.nearInf.round (c.inTs * c.tick) < c.high + 1 := by exact_mod_cast hlt
    lia
  obtain ⟨hfits, -⟩ := h.isTimestamp hlow hhigh
  rw [avRescaleQ, avRescaleQRnd_eq h.inTs h.inTb h.fsTb, mul_div_assoc, ← DeltaCall.tick,
    saturate_of_isInt64 ⟨hfits.1.le, hfits.2⟩]
  exact hnear

theorem DeltaCall.Valid.finer (h : c.Valid) :
    ¬ (c.duration = 0 ∨ c.inTb.num * c.outTb.den ≤ c.outTb.num * c.inTb.den) := by
  rintro (hzero | hle)
  · have hduration := h.duration
    lia
  · have hden : (0 : ℚ) < c.inTb.den := by exact_mod_cast h.inTb.den_pos
    have hden' : (0 : ℚ) < c.outTb.den := by exact_mod_cast h.outTb.den_pos
    have hcoarser := h.coarser
    rw [AVRational.value, AVRational.value, div_lt_div_iff₀ hden' hden] at hcoarser
    have hlt : c.outTb.num * c.inTb.den < c.inTb.num * c.outTb.den := by exact_mod_cast hcoarser
    lia

/-- One call, with whatever `last` is. -/
theorem avRescaleDelta_keeps (h : c.Valid) (last : Int) :
    ∃ out, avRescaleDelta c last = some out ∧ c.Keeps last out := by
  have hassert : ¬ (c.inTs = avNoptsValue ∨ c.duration < 0) := by
    rintro (hnopts | hneg)
    · exact h.inTs.1.ne' hnopts
    · have hduration := h.duration
      lia
  have htick := h.tick_pos
  have hlowHigh := h.low_le_high
  unfold avRescaleDelta
  rw [if_neg hassert]
  by_cases hreset : last = avNoptsValue ∨ last < 2 * c.low - c.high ∨ 2 * c.high - c.low < last
  · -- the timestamp decides
    refine ⟨c.simpleRound, ?_, ?_, ?_, ?_⟩
    · rcases hreset with hnopts | houtside
      · exact if_pos (Or.inl hnopts)
      · split
        · rfl
        · exact if_pos houtside
    · have hnear := h.simpleRound_near
      have hposition : (c.simpleRound.2 : ℚ) - c.duration = avRescaleQ c.inTs c.inTb c.fsTb := by
        rw [DeltaCall.simpleRound]
        push_cast
        ring
      rw [hposition]
      linarith
    · intro hlow hhigh
      have hwindow := h.window hlow hhigh
      have hnopts := (h.isTimestamp hlow hhigh).2
      lia
    · intro hnopts hbelow habove
      lia
  · -- the position before decides
    rw [not_or, not_or, not_lt, not_lt] at hreset
    obtain ⟨hnopts, hbelow, habove⟩ := hreset
    obtain ⟨hclipLow, hclipHigh⟩ := avClip64_bounds hlowHigh last
    have hrescale : avRescaleQ (avClip64 last c.low c.high) c.fsTb c.outTb =
        saturate (AVRounding.nearInf.round
          (avClip64 last c.low c.high * c.fsTb.value / c.outTb.value)) := by
      rw [avRescaleQ, avRescaleQRnd_eq (h.isTimestamp hclipLow hclipHigh).1 h.fsTb h.outTb]
    refine ⟨(avRescaleQ (avClip64 last c.low c.high) c.fsTb c.outTb,
      avClip64 last c.low c.high + c.duration), ?_, ?_, ?_, ?_⟩
    · rw [if_neg (fun hand => hand.elim hnopts h.finer)]
      exact if_neg (by lia)
    · have hlowBound := h.low_bounds.1
      have hhighBound := h.high_bounds.2
      have hlowQ : (c.low : ℚ) ≤ avClip64 last c.low c.high := by exact_mod_cast hclipLow
      have hhighQ : (avClip64 last c.low c.high : ℚ) ≤ c.high := by exact_mod_cast hclipHigh
      push_cast
      rw [abs_le]
      constructor <;> linarith
    · intro hlow hhigh
      rw [avClip64_of_mem hlow hhigh] at hrescale ⊢
      exact ⟨add_sub_cancel_right last c.duration, hrescale⟩
    · intro _ _ _
      refine ⟨add_sub_cancel_right _ c.duration, ?_⟩
      rw [hrescale]
      simp

/-! ## Many calls -/

/-- A run of calls on one `*last`, each of which keeps its position. -/
inductive DeltaRun : Int → List DeltaCall → Prop
  | nil (last : Int) : DeltaRun last []
  | cons {last : Int} {c : DeltaCall} {calls : List DeltaCall} (out : Int × Int)
      (hcall : avRescaleDelta c last = some out) (hkeeps : c.Keeps last out)
      (hrest : DeltaRun out.2 calls) : DeltaRun last (c :: calls)

/-- **No drift and no tear**: in every run of calls, from any `*last`, each position is within half
an input tick and one sample of its timestamp, the position before is kept whenever the timestamp
can mean it, and the position is what is rescaled to the output time base. -/
theorem avRescaleDelta_run (h : ∀ c ∈ calls, c.Valid) : DeltaRun last calls := by
  induction calls generalizing last with
  | nil => exact DeltaRun.nil last
  | cons c calls ih =>
    obtain ⟨out, hcall, hkeeps⟩ := avRescaleDelta_keeps (h c (by simp)) last
    exact DeltaRun.cons out hcall hkeeps (ih (fun c' hc => h c' (by simp [hc])))

/-- Two packets of 1152 samples at 44100 Hz, with timestamps in milliseconds. -/
theorem avRescaleDelta_run_mp3 :
    DeltaRun avNoptsValue
      [⟨⟨1, 1000⟩, 26, ⟨1, 44100⟩, 1152, ⟨1, 90000⟩⟩,
        ⟨⟨1, 1000⟩, 52, ⟨1, 44100⟩, 1152, ⟨1, 90000⟩⟩] := by
  have hbase : ∀ den : Int, 0 < den → den ≤ intMax → AVRational.IsTimeBase ⟨1, den⟩ :=
    fun den hpos hle => ⟨Int.one_pos, (by decide : (1 : Int) ≤ intMax), hpos, hle⟩
  have hvalid : ∀ ts : Int, (ts = 26 ∨ ts = 52) →
      DeltaCall.Valid ⟨⟨1, 1000⟩, ts, ⟨1, 44100⟩, 1152, ⟨1, 90000⟩⟩ := by
    rintro ts (rfl | rfl)
    all_goals
      exact ⟨hbase 1000 (by decide) (by decide), hbase 44100 (by decide) (by decide),
        hbase 90000 (by decide) (by decide), by norm_num [AVRational.value], by decide, by decide,
        by decide, by decide, by decide +kernel, by decide +kernel⟩
  refine avRescaleDelta_run ?_
  intro c hc
  simp only [List.mem_cons, List.not_mem_nil, or_false] at hc
  rcases hc with rfl | rfl
  · exact hvalid 26 (Or.inl rfl)
  · exact hvalid 52 (Or.inr rfl)

/-! ## A finer time base and back -/

theorem eq_of_near {k m : Int} (h : |(k : ℚ) - m| < 1) : k = m :=
  sub_eq_zero.1 (Int.abs_lt_one_iff.1 (by exact_mod_cast h))

/-- A timestamp comes back from a finer time base, unless it does not fit there. -/
theorem avRescaleQ_finer {a : Int} {bq cq : AVRational} (hbq : bq.IsTimeBase) (hcq : cq.IsTimeBase)
    (ha : IsTimestamp a) (hfiner : cq.value ≤ bq.value)
    (hfits : avRescaleQ a bq cq ≠ avNoptsValue) :
    avRescaleQ (avRescaleQ a bq cq) cq bq = a := by
  obtain ⟨n, hn⟩ : ∃ n, n = gridTs cq bq a := ⟨_, rfl⟩
  have hscaled : avRescaleQ a bq cq = saturate n := by
    rw [avRescaleQ, avRescaleQRnd_eq ha hbq hcq, hn, gridTs]
  have hrange : |n| ≤ int64Max := by
    by_contra hlarge
    exact hfits (by rw [hscaled, saturate, if_neg hlarge]; rfl)
  have hts : IsTimestamp n := by
    obtain ⟨hlow, hhigh⟩ := abs_le.1 hrange
    exact ⟨by unfold int64Min; unfold int64Max at hlow; omega, hhigh⟩
  have hpos : 0 < cq.value := div_pos (by exact_mod_cast hcq.num_pos) (by exact_mod_cast hcq.den_pos)
  have hpos' : 0 < bq.value := hpos.trans_le hfiner
  have hnear : |(n : ℚ) - a * bq.value / cq.value| ≤ 1 / 2 := hn ▸ round_nearInf _
  have hround : gridTs bq cq n = a := by
    rcases eq_or_lt_of_le hfiner with heq | hlt
    · rw [heq, mul_div_cancel_right₀ _ hpos'.ne'] at hnear
      rw [gridTs, heq, mul_div_cancel_right₀ _ hpos'.ne', round_intCast]
      exact eq_of_near (hnear.trans_lt (by norm_num))
    · -- what was rounded away is less than half a tick of the coarser base
      have hratio : 0 < cq.value / bq.value ∧ cq.value / bq.value < 1 :=
        ⟨div_pos hpos hpos', (div_lt_one hpos').2 hlt⟩
      have hback : |(n : ℚ) * cq.value / bq.value - a| < 1 / 2 := by
        have hfactor : (n : ℚ) * cq.value / bq.value - a =
            (n - a * bq.value / cq.value) * (cq.value / bq.value) := by
          field_simp
        rw [hfactor, abs_mul, abs_of_pos hratio.1]
        nlinarith
      have hnear' : |(gridTs bq cq n : ℚ) - n * cq.value / bq.value| ≤ 1 / 2 := round_nearInf _
      exact eq_of_near ((abs_sub_le _ (n * cq.value / bq.value) _).trans_lt (by linarith))
  rw [hscaled, saturate, if_pos hrange, avRescaleQ_gridTs hbq hcq hts (hround.symm ▸ ha), hround]

/-- Milliseconds go through a clock of 90000 Hz. -/
theorem avRescaleQ_finer_clock :
    avRescaleQ (avRescaleQ 26 ⟨1, 1000⟩ ⟨1, 90000⟩) ⟨1, 90000⟩ ⟨1, 1000⟩ = 26 :=
  avRescaleQ_finer (by constructor <;> decide) (by constructor <;> decide) (by decide)
    (by norm_num [AVRational.value]) (by decide +kernel)

end FFmpeg.Libavutil
