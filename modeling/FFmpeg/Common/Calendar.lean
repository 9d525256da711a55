import Mathlib.Tactic

/-!
# The Gregorian calendar

Dates of the proleptic Gregorian calendar from year 0 on, numbered by the days before them.
-/

namespace FFmpeg.Common.Calendar

/-- Every fourth year, except for the centuries that are not divisible by 400. -/
def IsLeap (y : Nat) : Prop := y % 4 = 0 ∧ y % 100 ≠ 0 ∨ y % 400 = 0

instance (y : Nat) : Decidable (IsLeap y) :=
  inferInstanceAs (Decidable (y % 4 = 0 ∧ y % 100 ≠ 0 ∨ y % 400 = 0))

/-- The days of a month, 1 to 12. -/
def monthLength (y m : Nat) : Nat :=
  if m = 2 then if IsLeap y then 29 else 28
  else if m = 4 ∨ m = 6 ∨ m = 9 ∨ m = 11 then 30
  else 31

/-- The days of a year. -/
def yearLength (y : Nat) : Nat := if IsLeap y then 366 else 365

/-- The days of the first `m` months of a year. -/
def monthsLength (y : Nat) : Nat → Nat
  | 0 => 0
  | m + 1 => monthsLength y m + monthLength y (m + 1)

/-- The days of the years before `y`. -/
def yearsLength : Nat → Nat
  | 0 => 0
  | y + 1 => yearsLength y + yearLength y

/-- A date. -/
@[ext] structure Date where
  year : Nat
  month : Nat
  day : Nat
  month_pos : 1 ≤ month
  month_le : month ≤ 12
  day_pos : 1 ≤ day
  day_le : day ≤ monthLength year month

/-- The days from the first of January of year 0. -/
def Date.number (d : Date) : Nat :=
  yearsLength d.year + monthsLength d.year (d.month - 1) + (d.day - 1)

/-- One date is before another. -/
def Date.Before (a b : Date) : Prop :=
  a.year < b.year ∨ a.year = b.year ∧ (a.month < b.month ∨ a.month = b.month ∧ a.day < b.day)

theorem monthLength_pos (y m : Nat) : 1 ≤ monthLength y m := by
  unfold monthLength
  split
  · split <;> lia
  · split <;> lia

theorem monthsLength_twelve (y : Nat) : monthsLength y 12 = yearLength y := by
  unfold yearLength
  by_cases h : IsLeap y
  · simp [monthsLength, monthLength, h]
  · simp [monthsLength, monthLength, h]

theorem monthsLength_mono (y : Nat) {m n : Nat} (h : m ≤ n) :
    monthsLength y m ≤ monthsLength y n := by
  induction h with
  | refl => exact le_rfl
  | step _ ih => exact ih.trans (Nat.le_add_right _ _)

theorem yearsLength_mono {y z : Nat} (h : y ≤ z) : yearsLength y ≤ yearsLength z := by
  induction h with
  | refl => exact le_rfl
  | step _ ih => exact ih.trans (Nat.le_add_right _ _)

theorem yearsLength_eq (y : Nat) :
    yearsLength y + (y + 99) / 100 = 365 * y + (y + 3) / 4 + (y + 399) / 400 := by
  induction y with
  | zero => rfl
  | succ y ih =>
    rw [yearsLength, yearLength]
    by_cases h : IsLeap y
    · rw [if_pos h]
      unfold IsLeap at h
      omega
    · rw [if_neg h]
      unfold IsLeap at h
      omega

theorem Date.number_lt_month (d : Date) :
    d.number < yearsLength d.year + monthsLength d.year d.month := by
  have hstep : monthsLength d.year d.month =
      monthsLength d.year (d.month - 1) + monthLength d.year d.month := by
    obtain ⟨m, hm⟩ : ∃ m, d.month = m + 1 := ⟨d.month - 1, by have := d.month_pos; lia⟩
    rw [hm]
    rfl
  have hpos := d.day_pos
  have hle := d.day_le
  rw [Date.number, hstep]
  lia

theorem Date.months_le_number (d : Date) {m : Nat} (h : m < d.month) :
    yearsLength d.year + monthsLength d.year m ≤ d.number := by
  have hmono := monthsLength_mono d.year (show m ≤ d.month - 1 by lia)
  rw [Date.number]
  lia

theorem Date.Before.number_lt {a b : Date} (h : a.Before b) : a.number < b.number := by
  rcases h with hyear | ⟨hyear, hmonth | ⟨hmonth, hday⟩⟩
  · have hmonths := monthsLength_mono a.year a.month_le
    have hyears : yearsLength (a.year + 1) ≤ yearsLength b.year := yearsLength_mono hyear
    rw [monthsLength_twelve] at hmonths
    calc a.number < yearsLength a.year + monthsLength a.year a.month := a.number_lt_month
      _ ≤ yearsLength a.year + yearLength a.year := Nat.add_le_add_left hmonths _
      _ ≤ yearsLength b.year := hyears
      _ ≤ b.number := (Nat.le_add_right _ _).trans (Nat.le_add_right _ _)
  · have hlater := b.months_le_number hmonth
    rw [← hyear] at hlater
    exact lt_of_lt_of_le a.number_lt_month hlater
  · have hpos := a.day_pos
    rw [Date.number, Date.number, hyear, hmonth]
    lia

/-- The day after a date. -/
def Date.next (d : Date) : Date :=
  if hday : d.day < monthLength d.year d.month then
    { d with day := d.day + 1, day_pos := by lia, day_le := hday }
  else if hmonth : d.month < 12 then
    ⟨d.year, d.month + 1, 1, by lia, hmonth, le_rfl, monthLength_pos _ _⟩
  else
    ⟨d.year + 1, 1, 1, le_rfl, by norm_num, le_rfl, monthLength_pos _ _⟩

theorem Date.number_next (d : Date) : d.next.number = d.number + 1 := by
  have hpos := d.day_pos
  have hle := d.day_le
  have hmonthPos := d.month_pos
  have hmonthLe := d.month_le
  unfold Date.next
  split
  · simp only [Date.number]
    lia
  · obtain ⟨m, hm⟩ : ∃ m, d.month = m + 1 := ⟨d.month - 1, by lia⟩
    have hday : d.day = monthLength d.year d.month := by lia
    rw [hm] at hday
    have hlength := monthLength_pos d.year (m + 1)
    split
    · simp only [Date.number, hm, hday, Nat.add_sub_cancel, monthsLength]
      lia
    · have htwelve := monthsLength_twelve d.year
      have hlast : m = 11 := by lia
      subst hlast
      rw [monthsLength] at htwelve
      have hnone : monthsLength (d.year + 1) 0 = 0 := rfl
      simp only [Date.number, hm, hday, Nat.add_sub_cancel, Nat.sub_self, yearsLength, hnone]
      lia

end FFmpeg.Common.Calendar
