import FFmpeg.Common.Calendar
import FFmpeg.Libavutil.ParseUtils

/-!
# Counting days

`av_timegm` moves January and February to the end of the year before, and counts the days in closed
form with the divisions of C, which round to zero.
-/

namespace FFmpeg.Libavutil.ParseUtils

open Common.Calendar

/-- The first day that is counted. -/
def epoch : Date := ⟨1970, 1, 1, by decide, by decide, by decide, by decide⟩

/-- The broken-down time of a date and a time of day. -/
def Tm.ofDate (d : Date) (hour min sec : Int) : Tm :=
  { sec, min, hour, mday := d.day, mon := d.month - 1, year := d.year - 1900 }

/-- The seconds from the epoch in the calendar. -/
def seconds (d : Date) (hour min sec : Int) : Int :=
  86400 * (d.number - epoch.number) + 3600 * hour + 60 * min + sec

/-- The dates that would be in the year before year 0. -/
def FirstMonths (d : Date) : Prop := d.year = 0 ∧ d.month ≤ 2

instance (d : Date) : Decidable (FirstMonths d) :=
  inferInstanceAs (Decidable (d.year = 0 ∧ d.month ≤ 2))

variable {d : Date} {hour min sec : Int}

theorem monthsLength_eq (y : Nat) {m : Nat} (hm : 1 ≤ m) (hm' : m ≤ 12) :
    monthsLength y (m - 1) = if m ≤ 2 then 31 * (m - 1)
      else (153 * m - 457) / 5 + 59 + if IsLeap y then 1 else 0 := by
  by_cases h : IsLeap y
  · interval_cases m <;> simp [monthsLength, monthLength, h]
  · interval_cases m <;> simp [monthsLength, monthLength, h]

theorem epoch_number : epoch.number = 719528 := by
  have hyears := yearsLength_eq 1970
  simp only [Date.number, epoch, Nat.sub_self, monthsLength]
  lia

/-- The first two months of year 0 are one day late. -/
theorem avTimegm_eq (d : Date) (hour min sec : Int) :
    avTimegm (Tm.ofDate d hour min sec) =
      seconds d hour min sec + if FirstMonths d then 86400 else 0 := by
  have hyears := yearsLength_eq d.year
  have hmonths := monthsLength_eq d.year d.month_pos d.month_le
  have hpos := d.day_pos
  have hmonthPos := d.month_pos
  have hmonthLe := d.month_le
  rw [seconds, epoch_number, Date.number, avTimegm, Tm.ofDate]
  dsimp only
  generalize yearsLength d.year = years at *
  generalize monthsLength d.year (d.month - 1) = months at *
  have htdiv : ∀ a b : Int, 0 ≤ a → a.tdiv b = a / b := fun a b ha =>
    Int.tdiv_eq_ediv_of_nonneg ha
  rw [htdiv (153 * _ - 457) 5 (by split <;> omega)]
  by_cases hearly : d.month ≤ 2
  · rw [if_pos hearly] at hmonths
    rw [if_pos (by omega), if_pos (by omega)]
    by_cases hzero : d.year = 0
    · -- the division of -1 rounds up to 0
      rw [if_pos (show FirstMonths d from ⟨hzero, hearly⟩), hzero]
      rw [hzero] at hyears
      have hdivs : Int.tdiv ((0 : Nat) - 1900 + 1900 - 1) 4 = 0 ∧
          Int.tdiv ((0 : Nat) - 1900 + 1900 - 1) 100 = 0 ∧
          Int.tdiv ((0 : Nat) - 1900 + 1900 - 1) 400 = 0 := by decide
      rw [hdivs.1, hdivs.2.1, hdivs.2.2]
      omega
    · rw [if_neg (fun h : FirstMonths d => hzero h.1), htdiv _ 4 (by omega), htdiv _ 100 (by omega),
        htdiv _ 400 (by omega)]
      omega
  · rw [if_neg hearly] at hmonths
    rw [if_neg (by omega), if_neg (by omega), if_neg (fun h : FirstMonths d => hearly h.2),
      htdiv _ 4 (by omega), htdiv _ 100 (by omega), htdiv _ 400 (by omega)]
    by_cases hleap : IsLeap d.year
    · rw [if_pos hleap] at hmonths
      unfold IsLeap at hleap
      omega
    · rw [if_neg hleap] at hmonths
      unfold IsLeap at hleap
      omega

theorem next_not_firstMonths (h : ¬ FirstMonths d) : ¬ FirstMonths d.next := by
  have hpos := d.month_pos
  unfold FirstMonths at *
  unfold Date.next
  split
  · exact h
  · split
    · dsimp only
      lia
    · dsimp only
      lia

/-- **Days are counted as in the calendar** exactly outside of January and February of year 0; there
a later date has a later time, and adjacent days are 86400 seconds apart. -/
theorem avTimegm_iff (d : Date) (hour min sec : Int) :
    (avTimegm (Tm.ofDate d hour min sec) = seconds d hour min sec ↔ ¬ FirstMonths d) ∧
      (¬ FirstMonths d →
        avTimegm (Tm.ofDate d.next hour min sec) = avTimegm (Tm.ofDate d hour min sec) + 86400 ∧
          ∀ d', ¬ FirstMonths d' → d.Before d' →
            avTimegm (Tm.ofDate d hour min sec) < avTimegm (Tm.ofDate d' hour min sec)) := by
  refine ⟨?_, ?_⟩
  · rw [avTimegm_eq]
    by_cases h : FirstMonths d
    · simp [h]
    · simp [h]
  · intro h
    constructor
    · rw [avTimegm_eq, avTimegm_eq, if_neg h, if_neg (next_not_firstMonths h), seconds, seconds,
        d.number_next]
      push_cast
      ring
    · intro d' h' hbefore
      have hlt := hbefore.number_lt
      rw [avTimegm_eq, avTimegm_eq, if_neg h, if_neg h', seconds, seconds]
      lia

/-- The first day of the calendar. -/
def firstDay : Date := ⟨0, 1, 1, by decide, by decide, by decide, by decide⟩

/-- It is taken for the second. -/
theorem avTimegm_firstDay :
    avTimegm (Tm.ofDate firstDay 0 0 0) = -62167132800 ∧ seconds firstDay 0 0 0 = -62167219200 := by
  have hseconds : seconds firstDay 0 0 0 = -62167219200 := by
    rw [seconds, epoch_number]
    rfl
  refine ⟨?_, hseconds⟩
  rw [avTimegm_eq, hseconds]
  rfl

end FFmpeg.Libavutil.ParseUtils
