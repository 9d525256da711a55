import Mathlib.Tactic

/-!
# Steps on a rounded grid

The points `k * R` of a grid are rounded to integers `g k`.  A place moves by the distance of the
two rounded points around the grid point that is nearest to it.  Its offset from the grid is carried
along, and the nearest grid point may move by none or by two instead of one.  The first such turn
fixes a half point of the grid, and from then on the place stays near the exact steps from there:
when it is below it can only turn up, and when it is above it can only turn down.
-/

namespace FFmpeg.Common.RoundedGrid

variable {R : ℚ} {g : ℤ → ℤ} {t o : ℕ → ℤ} {c : ℤ} {n N : ℕ}

/-- The rounded points of a grid whose distance is above one and not an integer. -/
structure Grid (R : ℚ) (g : ℤ → ℤ) : Prop where
  one_lt : 1 < R
  not_int : ∀ k : ℤ, R ≠ k
  near : ∀ k, |(g k : ℚ) - k * R| ≤ 1 / 2

/-- The places `t` of the first `N` steps, and the grid points `o` nearest to them. -/
structure Steps (R : ℚ) (g : ℤ → ℤ) (t o : ℕ → ℤ) (N : ℕ) : Prop where
  near : ∀ n, |(t n : ℚ) - o n * R| ≤ R / 2
  next : ∀ n < N, t (n + 1) = g (o n + 1) + (t n - g (o n))

theorem Grid.lower (h : Grid R g) (k : ℤ) : k * R - 1 / 2 ≤ g k := by
  have hnear := (abs_le.1 (h.near k)).1
  linarith

theorem Grid.upper (h : Grid R g) (k : ℤ) : g k ≤ k * R + 1 / 2 := by
  have hnear := (abs_le.1 (h.near k)).2
  linarith

theorem Grid.gap (h : Grid R g) (k : ℤ) : |(g (k + 1) : ℚ) - g k - R| < 1 := by
  have hlower := h.lower k
  have hupper := h.upper k
  have hlower' := h.lower (k + 1)
  have hupper' := h.upper (k + 1)
  push_cast at hlower' hupper'
  have hle : |(g (k + 1) : ℚ) - g k - R| ≤ 1 := abs_le.2 ⟨by linarith, by linarith⟩
  refine lt_of_le_of_ne hle ?_
  intro hone
  -- a whole step would make the distance of the grid an integer
  rcases eq_or_eq_neg_of_abs_eq hone with heq | heq
  · refine h.not_int (g (k + 1) - g k - 1) ?_
    push_cast
    linarith
  · refine h.not_int (g (k + 1) - g k + 1) ?_
    push_cast
    linarith

theorem Steps.lower (h : Steps R g t o N) (n : ℕ) : o n * R - R / 2 ≤ t n := by
  have hnear := (abs_le.1 (h.near n)).1
  linarith

theorem Steps.upper (h : Steps R g t o N) (n : ℕ) : t n ≤ o n * R + R / 2 := by
  have hnear := (abs_le.1 (h.near n)).2
  linarith

theorem Steps.next_eq (h : Steps R g t o N) (hn : n < N) :
    (t (n + 1) : ℚ) = g (o n + 1) + (t n - g (o n)) := by
  rw [h.next n hn]
  push_cast
  ring

theorem Steps.index (h : Steps R g t o N) (hg : Grid R g) (hn : n < N) :
    o (n + 1) = o n ∨ o (n + 1) = o n + 1 ∨ o (n + 1) = o n + 2 := by
  have hR := hg.one_lt
  have hnext := h.next_eq hn
  have hlow : (-2 : ℚ) < o (n + 1) - o n - 1 := by
    have hfar : -R - 1 ≤ ((o (n + 1) : ℚ) - o n - 1) * R := by
      have hpoint := hg.lower (o n + 1)
      push_cast at hpoint
      linarith [h.lower n, h.upper (n + 1), hg.upper (o n)]
    by_contra hle
    have hscaled := mul_le_mul_of_nonneg_right (not_lt.1 hle) (by linarith : (0 : ℚ) ≤ R)
    linarith
  have hhigh : (o (n + 1) : ℚ) - o n - 1 < 2 := by
    have hfar : ((o (n + 1) : ℚ) - o n - 1) * R ≤ R + 1 := by
      have hpoint := hg.upper (o n + 1)
      push_cast at hpoint
      linarith [h.upper n, h.lower (n + 1), hg.lower (o n)]
    by_contra hle
    have hscaled := mul_le_mul_of_nonneg_right (not_lt.1 hle) (by linarith : (0 : ℚ) ≤ R)
    linarith
  have hlowInt : -2 < o (n + 1) - o n - 1 := by exact_mod_cast hlow
  have hhighInt : o (n + 1) - o n - 1 < 2 := by exact_mod_cast hhigh
  lia

theorem Steps.same (h : Steps R g t o N) (hn : n < N) (hindex : o (n + 1) = o n + 1) :
    t (n + 1) - g (o (n + 1)) = t n - g (o n) := by
  rw [hindex, h.next n hn]
  ring

theorem Steps.up (h : Steps R g t o N) (hg : Grid R g) (hn : n < N)
    (hindex : o (n + 1) = o n + 2) :
    R / 2 - 1 / 2 ≤ (t n : ℚ) - g (o n) ∧ (t (n + 1) : ℚ) - g (o (n + 1)) < 3 / 2 - R / 2 := by
  have hnext := h.next_eq hn
  have hnear := h.lower (n + 1)
  have hpoint := hg.upper (o n + 1)
  have hgap := (abs_lt.1 (hg.gap (o n + 1))).1
  rw [hindex] at hnear ⊢
  rw [show o n + 1 + 1 = o n + 2 by ring] at hgap
  push_cast at hnear hpoint
  constructor
  · linarith
  · linarith [h.upper n, hg.lower (o n)]

theorem Steps.down (h : Steps R g t o N) (hg : Grid R g) (hn : n < N)
    (hindex : o (n + 1) = o n) :
    (t n : ℚ) - g (o n) ≤ 1 / 2 - R / 2 ∧ R / 2 - 3 / 2 < (t (n + 1) : ℚ) - g (o (n + 1)) := by
  have hnext := h.next_eq hn
  have hnear := h.upper (n + 1)
  have hpoint := hg.lower (o n + 1)
  have hgap := (abs_lt.1 (hg.gap (o n))).1
  rw [hindex] at hnear ⊢
  push_cast at hpoint
  constructor
  · linarith
  · linarith [h.lower n, hg.upper (o n)]

/-- No turn so far. -/
structure Steady (g : ℤ → ℤ) (t o : ℕ → ℤ) (n : ℕ) : Prop where
  index : o n = o 0 + n
  offset : t n - g (o n) = t 0 - g (o 0)

/-- There was a turn, at the half point above `c * R`: the place is below that half point and high
above the grid, or above it and low. -/
structure Turned (R : ℚ) (g : ℤ → ℤ) (t o : ℕ → ℤ) (c : ℤ) (n : ℕ) : Prop where
  start : |(t 0 : ℚ) - (c + 1 / 2) * R| ≤ 1
  side : o n = c + n ∧ R / 2 - 3 / 2 < (t n : ℚ) - g (o n) ∨
    o n = c + n + 1 ∧ (t n : ℚ) - g (o n) < 3 / 2 - R / 2

theorem offset_nonneg {d : ℤ} (hR : 1 < R) (h : R / 2 - 3 / 2 < (d : ℚ)) : 0 ≤ d := by
  have hlt : (-1 : ℚ) < d := by linarith
  have hltInt : -1 < d := by exact_mod_cast hlt
  lia

theorem offset_nonpos {d : ℤ} (hR : 1 < R) (h : (d : ℚ) < 3 / 2 - R / 2) : d ≤ 0 := by
  have hlt : (d : ℚ) < 1 := by linarith
  have hltInt : d < 1 := by exact_mod_cast hlt
  lia

/-- The first turn. -/
theorem Steady.step (hs : Steady g t o n) (h : Steps R g t o N) (hg : Grid R g) (hn : n < N) :
    Steady g t o (n + 1) ∨ ∃ c, Turned R g t o c (n + 1) := by
  have hoffset : (t n : ℚ) - g (o n) = t 0 - g (o 0) := by exact_mod_cast hs.offset
  rcases h.index hg hn with hdown | hsame | hup
  · right
    obtain ⟨hfrom, hto⟩ := h.down hg hn hdown
    refine ⟨o 0 - 1, ?_, ?_⟩
    · push_cast
      rw [abs_le]
      constructor
      · linarith [h.lower 0]
      · linarith [hg.upper (o 0)]
    · left
      refine ⟨?_, hto⟩
      rw [hdown, hs.index]
      push_cast
      ring
  · left
    constructor
    · rw [hsame, hs.index]
      push_cast
      ring
    · rw [h.same hn hsame, hs.offset]
  · right
    obtain ⟨hfrom, hto⟩ := h.up hg hn hup
    refine ⟨o 0, ?_, ?_⟩
    · rw [abs_le]
      constructor
      · linarith [hg.lower (o 0)]
      · linarith [h.upper 0]
    · right
      refine ⟨?_, hto⟩
      rw [hup, hs.index]
      push_cast
      ring

/-- Below the half point there is no turn down, and above it no turn up. -/
theorem Turned.step (ht : Turned R g t o c n) (h : Steps R g t o N) (hg : Grid R g) (hn : n < N) :
    Turned R g t o c (n + 1) := by
  have hR := hg.one_lt
  refine ⟨ht.start, ?_⟩
  rcases ht.side with ⟨hindex, hhigh⟩ | ⟨hindex, hlow⟩
  · have hpos : (0 : ℚ) ≤ (t n : ℚ) - g (o n) := by
      exact_mod_cast offset_nonneg (d := t n - g (o n)) hR (by push_cast; exact hhigh)
    rcases h.index hg hn with hdown | hsame | hup
    · have hfrom := (h.down hg hn hdown).1
      linarith
    · left
      have hkeep : (t (n + 1) : ℚ) - g (o (n + 1)) = t n - g (o n) := by
        exact_mod_cast h.same hn hsame
      refine ⟨?_, by rw [hkeep]; exact hhigh⟩
      rw [hsame, hindex]
      push_cast
      ring
    · right
      refine ⟨?_, (h.up hg hn hup).2⟩
      rw [hup, hindex]
      push_cast
      ring
  · have hneg : (t n : ℚ) - g (o n) ≤ 0 := by
      exact_mod_cast offset_nonpos (d := t n - g (o n)) hR (by push_cast; exact hlow)
    rcases h.index hg hn with hdown | hsame | hup
    · left
      refine ⟨?_, (h.down hg hn hdown).2⟩
      rw [hdown, hindex]
      push_cast
      ring
    · right
      have hkeep : (t (n + 1) : ℚ) - g (o (n + 1)) = t n - g (o n) := by
        exact_mod_cast h.same hn hsame
      refine ⟨?_, by rw [hkeep]; exact hlow⟩
      rw [hsame, hindex]
      push_cast
      ring
    · have hfrom := (h.up hg hn hup).1
      linarith

theorem Steps.turns (h : Steps R g t o N) (hg : Grid R g) (hn : n ≤ N) :
    Steady g t o n ∨ ∃ c, Turned R g t o c n := by
  induction n with
  | zero => exact Or.inl ⟨by simp, rfl⟩
  | succ n ih =>
    rcases ih (by lia) with hs | ⟨c, ht⟩
    · exact hs.step h hg (by lia)
    · exact Or.inr ⟨c, ht.step h hg (by lia)⟩

theorem Steady.near (hs : Steady g t o n) (hg : Grid R g) :
    |(t n : ℚ) - (t 0 + n * R)| ≤ 1 := by
  have hoffset : (t n : ℚ) - g (o n) = t 0 - g (o 0) := by exact_mod_cast hs.offset
  have hlower := hg.lower (o n)
  have hupper := hg.upper (o n)
  rw [hs.index] at hlower hupper hoffset
  push_cast at hlower hupper
  rw [abs_le]
  constructor
  · linarith [hg.upper (o 0)]
  · linarith [hg.lower (o 0)]

theorem Turned.near (ht : Turned R g t o c n) (h : Steps R g t o N) (hg : Grid R g) :
    |(t n : ℚ) - (t 0 + n * R)| < 3 := by
  obtain ⟨hstart, hstart'⟩ := abs_le.1 ht.start
  have hlower := hg.lower (o n)
  have hupper := hg.upper (o n)
  have hbelow := h.lower n
  have habove := h.upper n
  rw [abs_lt]
  rcases ht.side with ⟨hindex, hhigh⟩ | ⟨hindex, hlow⟩
  · rw [hindex] at hlower hupper hbelow habove hhigh
    push_cast at hlower hupper hbelow habove
    constructor <;> linarith
  · rw [hindex] at hlower hupper hbelow habove hlow
    push_cast at hlower hupper hbelow habove
    constructor <;> linarith

/-- **No drift**: however many steps are made, the place is less than three off. -/
theorem Steps.drift (h : Steps R g t o N) (hg : Grid R g) (hn : n ≤ N) :
    |(t n : ℚ) - (t 0 + n * R)| < 3 := by
  rcases h.turns hg hn with hs | ⟨c, ht⟩
  · exact lt_of_le_of_lt (hs.near hg) (by norm_num)
  · exact ht.near h hg

end FFmpeg.Common.RoundedGrid
