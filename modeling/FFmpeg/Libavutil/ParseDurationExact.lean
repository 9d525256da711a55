import FFmpeg.Libavutil.ParseDurationReads

/-!
# The texts of durations

The texts that `av_parse_time` takes for a duration, and what it computes for them.  They are those
of the documentation and two more kinds: a number with white space or a sign of its own, because
`strtoll` skips these, and a point that is not followed by a digit.
-/

namespace FFmpeg.Libavutil.ParseUtils

open Common

/-! ## The range -/

theorem scaleTime_nonneg {t scale micros : Int} (negative : Bool) (ht : 0 ≤ t) (hscale : 0 < scale)
    (h0 : 0 ≤ micros) (hmicros : micros ≤ int64Max) :
    scaleTime negative t scale micros = if int64Max < t * scale + micros then some (failed .erange)
      else some (0, if negative then -(t * scale + micros) else t * scale + micros) := by
  have hprod : 0 ≤ t * scale := mul_nonneg ht hscale.le
  have hmin : int64Min = -int64Max - 1 := by decide
  have hmax : 0 ≤ int64Max := by decide
  rw [scaleTime, Int.tdiv_eq_ediv_of_nonneg hmax]
  by_cases hlarge : int64Max / scale < t
  · have hover := Int.lt_mul_of_ediv_lt hscale hlarge
    rw [if_pos hlarge, if_pos (by lia)]
  · have hfits : t * scale ≤ int64Max := by
      have hle := mul_le_mul_of_nonneg_right (not_lt.1 hlarge) hscale.le
      exact hle.trans (Int.ediv_mul_le _ hscale.ne')
    rw [if_neg hlarge, int64Op_nonneg hprod hfits, Option.bind_eq_bind, Option.bind_some,
      int64Op_nonneg (by lia) (by lia), Option.bind_some]
    by_cases hover : int64Max < t * scale + micros
    · rw [if_pos hover, if_pos (by lia)]
    · rw [if_neg hover, if_neg (by lia), int64Op_nonneg (by lia) (by lia),
        Option.bind_some, int64Op_eq (by split <;> lia) (by split <;> lia), Option.bind_some]

/-- A negative count is never refused. -/
theorem scaleTime_neg {t scale micros : Int} (negative : Bool) (ht : t < 0) (hscale : 0 < scale)
    (h0 : 0 ≤ micros) (hmicros : micros ≤ int64Max) :
    scaleTime negative t scale micros = none ∨
      ∃ value, scaleTime negative t scale micros = some (0, value) := by
  have hprod : t * scale < 0 := mul_neg_of_neg_of_pos ht hscale
  have hmax : 0 ≤ int64Max := by decide
  have hroom : 0 ≤ int64Max / scale := Int.ediv_nonneg hmax hscale.le
  rw [scaleTime, Int.tdiv_eq_ediv_of_nonneg hmax, if_neg (by lia)]
  cases hop : int64Op (t * scale) with
  | none => exact Or.inl rfl
  | some t' =>
    obtain rfl : t * scale = t' := by
      unfold int64Op at hop
      split at hop
      · cases hop
        rfl
      · cases hop
    rw [Option.bind_eq_bind, Option.bind_some, int64Op_nonneg (by lia) (by lia),
      Option.bind_some, if_neg (by lia)]
    cases hsum : int64Op (t * scale + micros) with
    | none => exact Or.inl rfl
    | some sum =>
      rw [Option.bind_some]
      cases hvalue : int64Op (if negative then -sum else sum) with
      | none => exact Or.inl rfl
      | some value => exact Or.inr ⟨value, rfl⟩

/-! ## Texts -/

/-- A text that is taken for a duration. -/
structure DurationText where
  negative : Bool
  body : Body
  fraction : Option Bytes
  unit : DurationUnit
  deriving DecidableEq, Repr

/-- What is behind the sign. -/
def DurationText.unsigned (d : DurationText) : Bytes := d.body.text ++ tailText d.fraction d.unit

def DurationText.text (d : DurationText) : Bytes :=
  if d.negative then 45 :: d.unsigned else d.unsigned

/-- The microseconds, truncated, without the sign. -/
def DurationText.micros (d : DurationText) : Int :=
  ⌊((d.body.value : ℚ) + numberFrom 0 (d.fraction.getD []) / 10 ^ (d.fraction.getD []).length) *
    d.unit.scale⌋

/-- The duration in microseconds. -/
def DurationText.value (d : DurationText) : Int := if d.negative then -d.micros else d.micros

/-- The parts are valid, and a minus in front is not taken for the one of the count. -/
structure DurationText.Valid (d : DurationText) : Prop where
  body : d.body.Valid
  fraction : ValidFraction d.fraction
  sign : d.negative = false → d.body.text.head? ≠ some 45

/-- The texts of the documentation: there is nothing in front of a count, and a digit behind the
point. -/
def DurationText.Documented (d : DurationText) : Prop :=
  (∀ blank sign digits, d.body = .count blank sign digits → blank = [] ∧ sign = none) ∧
    d.fraction ≠ some []

/-- The count and the microseconds are in range. -/
def DurationText.InRange (d : DurationText) : Prop :=
  int64Min ≤ d.body.value ∧ d.micros ≤ int64Max

variable {d e : DurationText} {rest : Bytes} {c : UInt8}

theorem scale_pos (unit : DurationUnit) : 0 < unit.scale ∧ unit.scale ≤ 10 ^ 6 := by
  cases unit <;> decide

theorem DurationText.micros_eq (d : DurationText) :
    d.micros = d.body.value * d.unit.scale + fractionMicros d.fraction d.unit := by
  have hsplit : ((d.body.value : ℚ) +
      numberFrom 0 (d.fraction.getD []) / 10 ^ (d.fraction.getD []).length) * d.unit.scale =
      (d.body.value * d.unit.scale : Int) +
        ((numberFrom 0 (d.fraction.getD []) * d.unit.scale : Int) : ℚ) /
          ((10 ^ (d.fraction.getD []).length : Int) : ℚ) := by
    push_cast
    ring
  rw [micros, hsplit, Int.floor_intCast_add, floor_div (by positivity), fractionMicros]

theorem fractionMicros_bounds {fraction : Option Bytes} (h : ValidFraction fraction)
    (unit : DurationUnit) :
    0 ≤ fractionMicros fraction unit ∧ fractionMicros fraction unit < unit.scale := by
  have hf : ∀ c ∈ fraction.getD [], avIsdigit c = true := by
    cases fraction with
    | none => simp
    | some f => exact h f rfl
  have hscale : ∃ k : Nat, unit.scale = 10 ^ k := by
    cases unit with
    | none => exact ⟨6, rfl⟩
    | s => exact ⟨6, rfl⟩
    | ms => exact ⟨3, rfl⟩
    | us => exact ⟨0, rfl⟩
  obtain ⟨k, hk⟩ := hscale
  rw [fractionMicros, hk]
  exact fraction_lt hf k

theorem Body.Valid.text_ne_nil {body : Body} (h : body.Valid) : body.text ≠ [] := by
  cases body with
  | clock hour min sec => cases hour <;> simp [Body.text]
  | count blank sign digits =>
    have hne := h.2.2.ne_nil
    simp [Body.text, hne]

theorem DurationText.Valid.text_head (h : d.Valid) :
    d.text.head? = some 45 ↔ d.negative = true := by
  unfold text unsigned
  cases hneg : d.negative with
  | true => simp
  | false =>
    have hsign := h.sign hneg
    obtain ⟨b, rest, hb⟩ := List.exists_cons_of_ne_nil h.body.text_ne_nil
    rw [hb] at hsign ⊢
    simpa using hsign

theorem clock_isInt64 {hour : Option Bytes} {min sec : Bytes}
    (h : (Body.clock hour min sec).Valid) : IsInt64 (Body.clock hour min sec).value := by
  have hbounds := clock_bounds h
  rw [Body.value]
  unfold IsInt64 int64Min int64Max
  lia

/-- What a text of this shape is turned into. -/
theorem avParseTimeDuration_text (h : d.Valid) :
    (¬ d.InRange ∧ avParseTimeDuration d.text = some (failed .erange)) ∨
      (IsInt64 d.body.value ∧ avParseTimeDuration d.text =
        scaleTime d.negative d.body.value d.unit.scale (fractionMicros d.fraction d.unit)) := by
  have hsign : decide (d.text.head? = some 45) = d.negative := by
    rw [Bool.eq_iff_iff, decide_eq_true_iff]
    exact h.text_head
  have hp : (if d.negative then d.text.tail else d.text) = d.unsigned := by
    unfold DurationText.text
    cases d.negative <;> rfl
  have hends := tail_ends d.fraction d.unit
  unfold avParseTimeDuration
  dsimp only
  rw [hsign, hp]
  have hmicros := d.micros_eq
  unfold DurationText.unsigned DurationText.InRange
  obtain ⟨negative, body, fraction, unit⟩ := d
  dsimp only at *
  cases body with
  | clock hour min sec =>
    right
    obtain ⟨dt, hclock, hseconds⟩ := parseClock_clock h.body hends
    refine ⟨clock_isInt64 h.body, ?_⟩
    rw [hclock]
    dsimp only
    rw [hseconds, Option.bind_eq_bind, Option.bind_some, parseTail_tail h.fraction]
  | count blank sign digits =>
    have hnone := parseClock_count h.body hends
    obtain ⟨value, erange, hread, herange, hvalue⟩ := strtoll_count h.body hends.noDigit
    rcases hrun : parseClock ((Body.count blank sign digits).text ++ tailText fraction unit)
      with ⟨dt, q⟩
    rw [hrun] at hnone
    dsimp only at hnone ⊢
    subst hnone
    dsimp only
    rw [hread]
    dsimp only
    have hmoved : tailText fraction unit ≠
        (Body.count blank sign digits).text ++ tailText fraction unit := by
      intro heq
      have hlength := congrArg List.length heq
      have hpos : 0 < (Body.count blank sign digits).text.length :=
        List.length_pos_iff.2 h.body.text_ne_nil
      rw [List.length_append] at hlength
      lia
    rw [if_neg hmoved]
    by_cases hfits : IsInt64 (Body.count blank sign digits).value
    · right
      refine ⟨hfits, ?_⟩
      rw [if_neg (fun htrue => (herange.1 htrue) hfits), hvalue hfits, parseTail_tail h.fraction]
    · left
      rw [if_pos (herange.2 hfits)]
      refine ⟨?_, rfl⟩
      rintro ⟨hlow, hhigh⟩
      refine hfits ⟨hlow, ?_⟩
      -- the microseconds are at least as many as the seconds
      by_contra hbig
      have hpos : 0 ≤ int64Max := by decide
      have hscaled := le_mul_of_one_le_right (a := (Body.count blank sign digits).value)
        (by lia) (scale_pos unit).1
      have hfraction : 0 ≤ fractionMicros fraction unit :=
        (fractionMicros_bounds h.fraction unit).1
      lia

theorem text_inRange (h : d.Valid) (hin : d.InRange) :
    (avParseTimeDuration d.text = none ∨ ∃ value, avParseTimeDuration d.text = some (0, value)) ∧
      (0 ≤ d.body.value → avParseTimeDuration d.text = some (0, d.value)) := by
  obtain ⟨hfraction, hfraction'⟩ := fractionMicros_bounds h.fraction d.unit
  obtain ⟨hscale, hscale'⟩ := scale_pos d.unit
  have hmax : (10 : Int) ^ 6 ≤ int64Max := by decide
  rcases avParseTimeDuration_text h with ⟨hout, -⟩ | ⟨-, hrun⟩
  · exact absurd hin hout
  · have hin' := hin.2
    rw [d.micros_eq] at hin'
    have hexact : 0 ≤ d.body.value → avParseTimeDuration d.text = some (0, d.value) := by
      intro hnonneg
      rw [hrun, scaleTime_nonneg d.negative hnonneg hscale hfraction (by lia),
        if_neg (by lia), DurationText.value, d.micros_eq]
    refine ⟨?_, hexact⟩
    rcases lt_or_ge d.body.value 0 with hneg | hnonneg
    · rw [hrun]
      exact scaleTime_neg d.negative hneg hscale hfraction (by lia)
    · exact Or.inr ⟨d.value, hexact hnonneg⟩

theorem text_outOfRange (h : d.Valid) (hout : ¬ d.InRange) :
    avParseTimeDuration d.text = some (failed .erange) := by
  obtain ⟨hfraction, hfraction'⟩ := fractionMicros_bounds h.fraction d.unit
  obtain ⟨hscale, hscale'⟩ := scale_pos d.unit
  have hmax : (10 : Int) ^ 6 ≤ int64Max := by decide
  rcases avParseTimeDuration_text h with ⟨-, hrun⟩ | ⟨hfits, hrun⟩
  · exact hrun
  · have hbig : int64Max < d.body.value * d.unit.scale + fractionMicros d.fraction d.unit := by
      by_contra hle
      refine hout ⟨hfits.1, ?_⟩
      rw [d.micros_eq]
      exact not_lt.1 hle
    have hnonneg : 0 ≤ d.body.value := by
      by_contra hneg
      have hprod := mul_neg_of_neg_of_pos (not_le.1 hneg) hscale
      lia
    rw [hrun, scaleTime_nonneg d.negative hnonneg hscale hfraction (by lia), if_pos hbig]

/-- Every other text is refused. -/
theorem avParseTimeDuration_inv (s : Bytes) :
    (∃ error, avParseTimeDuration s = some (failed error)) ∨
      ∃ d : DurationText, d.Valid ∧ d.text = s := by
  -- what is known once the body was read
  have hbody : ∀ (negative : Bool) (p : Bytes) (body : Body) (t : Int) (q : Bytes),
      (if negative then s = 45 :: p else s = p ∧ p.head? ≠ some 45) → body.Valid →
      p = body.text ++ q → (∃ error, parseTail negative t q = some (failed error)) ∨
        ∃ d : DurationText, d.Valid ∧ d.text = s := by
    intro negative p body t q hs hvalid hp
    rcases parseTail_inv negative t q with herror | ⟨fraction, unit, hfraction, rfl⟩
    · exact Or.inl ⟨_, herror⟩
    · refine Or.inr ⟨⟨negative, body, fraction, unit⟩, ⟨hvalid, hfraction, ?_⟩, ?_⟩
      · rintro rfl
        obtain ⟨b, rest, hb⟩ := List.exists_cons_of_ne_nil hvalid.text_ne_nil
        have hhead := hs.2
        rw [hp, hb] at hhead
        rw [hb]
        simpa using hhead
      · unfold DurationText.text DurationText.unsigned
        cases negative with
        | true =>
          rw [if_pos rfl] at hs
          rw [hs, hp]
          rfl
        | false => exact (hs.1.trans hp).symm
  unfold avParseTimeDuration
  dsimp only
  have hsign : if decide (s.head? = some 45) = true then
      s = 45 :: (if decide (s.head? = some 45) = true then s.tail else s) else
      s = (if decide (s.head? = some 45) = true then s.tail else s) ∧
        (if decide (s.head? = some 45) = true then s.tail else s).head? ≠ some 45 := by
    by_cases hminus : s.head? = some 45
    · obtain ⟨p, rfl⟩ := List.head?_eq_some_iff.1 hminus
      simp
    · simp [hminus]
  generalize (if decide (s.head? = some 45) = true then s.tail else s) = p at hsign ⊢
  generalize decide (s.head? = some 45) = negative at hsign ⊢
  rcases hclock : parseClock p with ⟨dt, q⟩
  cases q with
  | some q =>
    obtain ⟨hour, min, sec, hvalid, hp, hseconds⟩ := parseClock_inv hclock
    dsimp only
    rw [hseconds, Option.bind_eq_bind, Option.bind_some]
    exact hbody negative p _ _ q hsign hvalid hp
  | none =>
    dsimp only
    rcases strtoll_inv p with hnothing | ⟨blank, sign, digits, hvalid, hp, -⟩
    · rw [if_pos hnothing]
      exact Or.inl ⟨_, rfl⟩
    · split
      · exact Or.inl ⟨_, rfl⟩
      · split
        · exact Or.inl ⟨_, rfl⟩
        · exact hbody negative p _ _ _ hsign hvalid hp

/-! ## All texts -/

/-- What is promised: no overflow, and an error or a text of the documentation with its value. -/
def ParsesDuration (s : Bytes) : Prop :=
  ∃ ret timeval, avParseTimeDuration s = some (ret, timeval) ∧
    (ret < 0 ∧ timeval = int64Min ∨
      ret = 0 ∧ ∃ d : DurationText, d.Valid ∧ d.Documented ∧ d.text = s ∧ timeval = d.value)

/-- A text of a count with white space or a sign of its own, or of a point without digits, that is
in range otherwise. -/
def Misread (s : Bytes) : Prop :=
  ∃ d : DurationText, d.Valid ∧ ¬ d.Documented ∧ d.InRange ∧ d.text = s

theorem Documented.head (h : d.Valid) (hdoc : d.Documented) :
    ∃ c rest, d.body.text = c :: rest ∧ avIsdigit c = true := by
  have hnumber : ∀ {ds : Bytes} {len : Nat} (r : Bytes), IsNumber ds len →
      ∃ c rest, ds ++ r = c :: rest ∧ avIsdigit c = true := by
    intro ds len r hds
    obtain ⟨c, ds, rfl⟩ := List.exists_cons_of_ne_nil hds.ne_nil
    exact ⟨c, ds ++ r, rfl, hds.digits c (by simp)⟩
  have hvalid := h.body
  have hplain := hdoc.1
  cases hbody : d.body with
  | clock hour min sec =>
    rw [hbody] at hvalid
    cases hour with
    | none => exact hnumber _ hvalid.2.1
    | some hour => exact hnumber _ (hvalid.1 hour rfl)
  | count blank sign digits =>
    obtain ⟨rfl, rfl⟩ := hplain blank sign digits hbody
    rw [hbody] at hvalid
    have hfirst := hnumber [] hvalid.2.2
    rw [List.append_nil] at hfirst
    simpa [Body.text] using hfirst

theorem Body.Valid.plain {blank digits : Bytes} {sign : Option UInt8}
    (h : (Body.count blank sign digits).Valid) (hc : avIsdigit c = true)
    (htext : ((Body.count blank sign digits).text ++ rest).head? = some c) :
    blank = [] ∧ sign = none := by
  obtain ⟨hblank, hsign, -⟩ := h
  cases blank with
  | cons b blank =>
    obtain rfl : b = c := by simpa [Body.text] using htext
    rw [not_digit_of_isspace (hblank b (by simp))] at hc
    cases hc
  | nil =>
    rcases hsign with rfl | rfl | rfl
    · exact ⟨rfl, rfl⟩
    · obtain rfl : 43 = c := by simpa [Body.text] using htext
      exact absurd hc (by decide)
    · obtain rfl : 45 = c := by simpa [Body.text] using htext
      exact absurd hc (by decide)

theorem Body.Valid.point_not_mem {body : Body} (h : body.Valid) : (46 : UInt8) ∉ body.text := by
  have hdigits : ∀ {ds : Bytes} {len : Nat}, IsNumber ds len → (46 : UInt8) ∉ ds := by
    intro ds len hds hmem
    exact absurd (hds.digits 46 hmem) (by decide)
  cases body with
  | clock hour min sec =>
    obtain ⟨hhour, hmin, -, hsec, -⟩ := h
    cases hour with
    | none => simp [Body.text, hdigits hmin, hdigits hsec]
    | some hour => simp [Body.text, hdigits hmin, hdigits hsec, hdigits (hhour hour rfl)]
  | count blank sign digits =>
    obtain ⟨hblank, hsign, hnum⟩ := h
    have hspace : (46 : UInt8) ∉ blank := fun hmem => absurd (hblank 46 hmem) (by decide)
    rcases hsign with rfl | rfl | rfl <;> simp [Body.text, hspace, hdigits hnum]

theorem DurationText.Valid.from_point (h : d.Valid) :
    d.unsigned.dropWhile (· != 46) = match d.fraction with
      | none => []
      | some f => 46 :: (f ++ d.unit.text) := by
  have hbody : ∀ c ∈ d.body.text, (c != 46) = true := by
    intro c hc
    rw [bne_iff_ne]
    rintro rfl
    exact h.body.point_not_mem hc
  rw [DurationText.unsigned, List.dropWhile_append_of_pos hbody]
  cases d.fraction with
  | none => cases d.unit <;> rfl
  | some f => rfl

/-- A text is not both documented and not. -/
theorem documented_unique (hd : d.Valid) (he : e.Valid) (hdoc : d.Documented)
    (htext : d.text = e.text) : e.Documented := by
  have hsign : d.negative = e.negative := by
    rw [Bool.eq_iff_iff, ← hd.text_head, ← he.text_head, htext]
  have hunsigned : d.unsigned = e.unsigned := by
    unfold DurationText.text at htext
    rw [hsign] at htext
    cases hneg : e.negative with
    | true => simpa [hneg] using htext
    | false => simpa [hneg] using htext
  constructor
  · intro blank sign digits hbody
    obtain ⟨c, rest, hhead, hc⟩ := Documented.head hd hdoc
    have hvalid := he.body
    rw [hbody] at hvalid
    have hfirst : (e.body.text ++ tailText e.fraction e.unit).head? = some c := by
      show e.unsigned.head? = _
      rw [← hunsigned, DurationText.unsigned, hhead]
      rfl
    rw [hbody] at hfirst
    exact hvalid.plain hc hfirst
  · intro hempty
    have hpoint := he.from_point
    rw [← hunsigned, hd.from_point, hempty] at hpoint
    cases hfraction : d.fraction with
    | none =>
      rw [hfraction] at hpoint
      cases hpoint
    | some f =>
      rw [hfraction] at hpoint
      cases f with
      | nil => exact hdoc.2 hfraction
      | cons c f =>
        simp only [List.nil_append, List.cons_append, List.cons.injEq, true_and] at hpoint
        have hdigit := hd.fraction _ hfraction c (by simp)
        rw [unit_noDigit e.unit c (by rw [← hpoint]; rfl)] at hdigit
        cases hdigit

theorem Documented.nonneg (h : d.Valid) (hdoc : d.Documented) : 0 ≤ d.body.value := by
  have hvalid := h.body
  cases hbody : d.body with
  | clock hour min sec =>
    rw [hbody] at hvalid
    have hbounds := clock_bounds hvalid
    rw [Body.value]
    lia
  | count blank sign digits =>
    obtain ⟨rfl, rfl⟩ := hdoc.1 blank sign digits hbody
    rw [hbody] at hvalid
    exact (numberFrom_bounds hvalid.2.2.digits).1

/-- **Durations**: a text is parsed as promised exactly if it is not one that `strtoll` or the
decimal part takes although it is not documented. -/
theorem avParseTimeDuration_iff (s : Bytes) : ParsesDuration s ↔ ¬ Misread s := by
  constructor
  · rintro ⟨ret, timeval, hrun, hresult⟩ ⟨e, he, hnot, hin, rfl⟩
    rcases hresult with ⟨hneg, -⟩ | ⟨-, d, hd, hdoc, htext, -⟩
    · rcases (text_inRange he hin).1 with hnone | ⟨value, hvalue⟩
      · rw [hnone] at hrun
        cases hrun
      · rw [hvalue] at hrun
        cases hrun
        exact absurd hneg (lt_irrefl 0)
    · exact hnot (documented_unique hd he hdoc htext)
  · intro hnot
    have hfailed : ∀ error : AVERROR, avParseTimeDuration s = some (failed error) →
        ParsesDuration s := by
      intro error herror
      exact ⟨error.toInt, int64Min, herror, Or.inl ⟨by cases error <;> decide, rfl⟩⟩
    rcases avParseTimeDuration_inv s with ⟨error, herror⟩ | ⟨d, hd, rfl⟩
    · exact hfailed error herror
    · by_cases hin : d.InRange
      · have hdoc : d.Documented := by
          by_contra hundoc
          exact hnot ⟨d, hd, hundoc, hin, rfl⟩
        exact ⟨0, d.value, (text_inRange hd hin).2 (Documented.nonneg hd hdoc),
          Or.inr ⟨rfl, d, hd, hdoc, rfl, rfl⟩⟩
      · exact hfailed .erange (text_outOfRange hd hin)

/-- A second minus makes the scaled count overflow, or turns the duration around. -/
theorem avParseTimeDuration_minus :
    ¬ ParsesDuration "--9223372036854775807".toUTF8.toList ∧
      avParseTimeDuration "--5".toUTF8.toList = some (0, 5000000) := by
  refine ⟨?_, by decide +kernel⟩
  rintro ⟨ret, timeval, hrun, -⟩
  have hnone : avParseTimeDuration "--9223372036854775807".toUTF8.toList = none := by
    decide +kernel
  rw [hnone] at hrun
  cases hrun

end FFmpeg.Libavutil.ParseUtils
