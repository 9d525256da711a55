import FFmpeg.Libavutil.Times

/-!
# The nearest fraction

`av_find_nearest_q_idx` of `libavutil/rational.c` keeps the nearest fraction of a list.  Two
candidates are compared through their median, which is rescaled twice: rounded up it is above the
numerator, and rounded down it is below the numerator, exactly when the median is.
-/

namespace FFmpeg.Libavutil

/-- `av_cmp_q`. -/
def avCmpQ (a b : AVRational) : Int :=
  let tmp := a.num * b.den - b.num * a.den
  if tmp ≠ 0 then
    if (decide (tmp < 0) ^^ decide (a.den < 0)) ^^ decide (b.den < 0) then -1 else 1
  else if b.den ≠ 0 ∧ a.den ≠ 0 then 0
  else if a.num ≠ 0 ∧ b.num ≠ 0 then (a.num >>> (31 : Nat)) - (b.num >>> (31 : Nat))
  else -2 ^ 31

/-- `av_nearer_q`. -/
def avNearerQ (q q1 q2 : AVRational) : Int :=
  let a := q1.num * q2.den + q2.num * q1.den
  let b := 2 * q1.den * q2.den
  let xUp := avRescaleRnd a q.den b .up false
  let xDown := avRescaleRnd a q.den b .down false
  ((if q.num < xUp then 1 else 0) - (if xDown < q.num then 1 else 0)) * avCmpQ q2 q1

/-- The loop of `av_find_nearest_q_idx`, from index `i` on. -/
def findNearestLoop (q : AVRational) (qList : List AVRational) : List AVRational → Nat → Nat → Nat
  | [], _, nearestQIdx => nearestQIdx
  | x :: rest, i, nearestQIdx =>
    if x.den ≠ 0 then
      if 0 < avNearerQ q x (qList.getD nearestQIdx x) then findNearestLoop q qList rest (i + 1) i
      else findNearestLoop q qList rest (i + 1) nearestQIdx
    else nearestQIdx

/-- `av_find_nearest_q_idx`. -/
def avFindNearestQIdx (q : AVRational) (qList : List AVRational) : Nat :=
  findNearestLoop q qList qList 0 0

/-- A fraction with a positive denominator, of numbers below `2 ^ 30`. -/
structure AVRational.IsSmall (q : AVRational) : Prop where
  num_lt : |q.num| < 2 ^ 30
  den_pos : 0 < q.den
  den_lt : q.den < 2 ^ 30

variable {q q1 q2 a b : AVRational}

theorem AVRational.IsSmall.den_pos' (h : q.IsSmall) : (0 : ℚ) < q.den := by
  exact_mod_cast h.den_pos

theorem AVRational.IsSmall.abs_value_lt (h : q.IsSmall) : |q.value| < 2 ^ 30 := by
  have hden : (1 : ℚ) ≤ q.den := by exact_mod_cast h.den_pos
  have hnum : |(q.num : ℚ)| < 2 ^ 30 := by exact_mod_cast h.num_lt
  rw [AVRational.value, abs_div, abs_of_pos h.den_pos']
  exact (div_le_self (abs_nonneg _) hden).trans_lt hnum

/-! ## Comparing -/

theorem value_lt_iff (ha : 0 < a.den) (hb : 0 < b.den) :
    a.value < b.value ↔ a.num * b.den - b.num * a.den < 0 := by
  have ha' : (0 : ℚ) < a.den := by exact_mod_cast ha
  have hb' : (0 : ℚ) < b.den := by exact_mod_cast hb
  rw [AVRational.value, AVRational.value, div_lt_div_iff₀ ha' hb', sub_neg]
  exact_mod_cast Iff.rfl

theorem avCmpQ_eq (ha : 0 < a.den) (hb : 0 < b.den) :
    avCmpQ a b = if a.value < b.value then -1 else if b.value < a.value then 1 else 0 := by
  have hlt := value_lt_iff ha hb
  have hgt := value_lt_iff hb ha
  have hneg : ¬ a.den < 0 ∧ ¬ b.den < 0 := ⟨by lia, by lia⟩
  rw [avCmpQ]
  simp only [decide_eq_false hneg.1, decide_eq_false hneg.2, Bool.xor_false, decide_eq_true_eq, hlt,
    hgt]
  split_ifs <;> lia

/-! ## The median -/

theorem median_eq (hq1 : q1.IsSmall) (hq2 : q2.IsSmall) :
    ((q1.num * q2.den + q2.num * q1.den : Int) : ℚ) * q.den / (2 * q1.den * q2.den : Int) =
      (q1.value + q2.value) / 2 * q.den := by
  have h1 := hq1.den_pos'.ne'
  have h2 := hq2.den_pos'.ne'
  rw [AVRational.value, AVRational.value]
  push_cast
  field_simp

/-- The rescaling of the median rounds as it is asked to. -/
theorem avRescaleRnd_median (hq : q.IsSmall) (hq1 : q1.IsSmall) (hq2 : q2.IsSmall)
    (rnd : AVRounding) (hfits : IsInt64 (rnd.round ((q1.value + q2.value) / 2 * q.den))) :
    avRescaleRnd (q1.num * q2.den + q2.num * q1.den) q.den (2 * q1.den * q2.den) rnd false =
      rnd.round ((q1.value + q2.value) / 2 * q.den) := by
  obtain ⟨hlo1, hhi1⟩ := abs_lt.1 hq1.num_lt
  obtain ⟨hlo2, hhi2⟩ := abs_lt.1 hq2.num_lt
  have hpos1 := hq1.den_pos
  have hpos2 := hq2.den_pos
  have hlt1 := hq1.den_lt
  have hlt2 := hq2.den_lt
  have hproduct : |q1.num * q2.den| ≤ 2 ^ 60 ∧ |q2.num * q1.den| ≤ 2 ^ 60 := by
    rw [abs_mul, abs_mul, abs_of_pos hpos1, abs_of_pos hpos2]
    constructor
    · nlinarith [hq1.num_lt, abs_nonneg q1.num]
    · nlinarith [hq2.num_lt, abs_nonneg q2.num]
  obtain ⟨hleft, hright⟩ := hproduct
  rw [abs_le] at hleft hright
  have hb : 0 < 2 * q1.den * q2.den ∧ 2 * q1.den * q2.den ≤ 2 ^ 61 := by
    constructor
    · positivity
    · nlinarith
  have hden := hq.den_lt
  have hexact := avRescaleRnd_eq (a := q1.num * q2.den + q2.num * q1.den) (b := q.den)
    (c := 2 * q1.den * q2.den) (by unfold int64Min; lia) (by unfold int64Max; lia)
    hq.den_pos.le (by unfold int64Max; lia) hb.1 (by unfold int64Max; lia) rnd false nofun
  rw [hexact, median_eq hq1 hq2, saturate_of_isInt64 hfits]

theorem abs_median_lt (hq : q.IsSmall) (hq1 : q1.IsSmall) (hq2 : q2.IsSmall) :
    |(q1.value + q2.value) / 2 * q.den| < 2 ^ 60 := by
  have h1 := hq1.abs_value_lt
  have h2 := hq2.abs_value_lt
  have hden : (q.den : ℚ) < 2 ^ 30 := by exact_mod_cast hq.den_lt
  have hmedian : |(q1.value + q2.value) / 2| < 2 ^ 30 := by
    rw [abs_lt] at h1 h2 ⊢
    constructor <;> linarith
  rw [abs_mul, abs_of_pos hq.den_pos']
  calc |(q1.value + q2.value) / 2| * q.den
      < 2 ^ 30 * 2 ^ 30 := mul_lt_mul'' hmedian hden (abs_nonneg _) hq.den_pos'.le
    _ = 2 ^ 60 := by norm_num

theorem abs_sub_lt_iff_median {x u v : ℚ} :
    |x - u| < |x - v| ↔ x < (u + v) / 2 ∧ u < v ∨ (u + v) / 2 < x ∧ v < u := by
  have hfactor : (x - u) ^ 2 - (x - v) ^ 2 = (v - u) * (2 * x - (u + v)) := by ring
  rw [← sq_lt_sq, ← sub_neg, hfactor, mul_neg_iff]
  constructor
  · rintro (⟨hv, hx⟩ | ⟨hv, hx⟩)
    · exact Or.inl ⟨by linarith, by linarith⟩
    · exact Or.inr ⟨by linarith, by linarith⟩
  · rintro (⟨hx, hv⟩ | ⟨hx, hv⟩)
    · exact Or.inl ⟨by linarith, by linarith⟩
    · exact Or.inr ⟨by linarith, by linarith⟩

theorem value_mul_den (hq : q.IsSmall) : q.value * q.den = q.num :=
  div_mul_cancel₀ _ hq.den_pos'.ne'

/-- `av_nearer_q` is positive exactly when the first candidate is nearer. -/
theorem avNearerQ_pos_iff (hq : q.IsSmall) (hq1 : q1.IsSmall) (hq2 : q2.IsSmall) :
    0 < avNearerQ q q1 q2 ↔ |q.value - q1.value| < |q.value - q2.value| := by
  obtain ⟨hlo, hhi⟩ := abs_lt.1 (abs_median_lt hq hq1 hq2)
  have hpos := hq.den_pos'
  have hnum := value_mul_den hq
  have hceil : -2 ^ 60 ≤ ⌈(q1.value + q2.value) / 2 * q.den⌉ ∧
      ⌈(q1.value + q2.value) / 2 * q.den⌉ ≤ 2 ^ 60 := by
    constructor
    · rw [Int.le_ceil_iff]
      push_cast
      linarith
    · rw [Int.ceil_le]
      push_cast
      exact hhi.le
  have hfloor : -2 ^ 60 ≤ ⌊(q1.value + q2.value) / 2 * q.den⌋ ∧
      ⌊(q1.value + q2.value) / 2 * q.den⌋ ≤ 2 ^ 60 := by
    constructor
    · rw [Int.le_floor]
      push_cast
      exact hlo.le
    · exact (Int.floor_le_ceil _).trans hceil.2
  have hup := avRescaleRnd_median hq hq1 hq2 .up
    ⟨by simp only [AVRounding.round]; unfold int64Min; lia,
      by simp only [AVRounding.round]; unfold int64Max; lia⟩
  have hdown := avRescaleRnd_median hq hq1 hq2 .down
    ⟨by simp only [AVRounding.round]; unfold int64Min; lia,
      by simp only [AVRounding.round]; unfold int64Max; lia⟩
  simp only [AVRounding.round] at hup hdown
  -- the roundings are compared with the numerator as the median is with the fraction
  have habove : q.num < ⌈(q1.value + q2.value) / 2 * q.den⌉ ↔
      q.value < (q1.value + q2.value) / 2 := by
    rw [Int.lt_ceil, ← hnum, mul_lt_mul_iff_of_pos_right hpos]
  have hbelow : ⌊(q1.value + q2.value) / 2 * q.den⌋ < q.num ↔
      (q1.value + q2.value) / 2 < q.value := by
    rw [Int.floor_lt, ← hnum, mul_lt_mul_iff_of_pos_right hpos]
  rw [avNearerQ]
  simp only [hup, hdown, habove, hbelow, avCmpQ_eq hq2.den_pos hq1.den_pos]
  rw [abs_sub_lt_iff_median]
  rcases lt_trichotomy q.value ((q1.value + q2.value) / 2) with hm | hm | hm
  · rcases lt_trichotomy q1.value q2.value with h | h | h
    · simp [hm, h, hm.not_gt, h.not_gt]
    · simp [h]
    · simp [hm, h, hm.not_gt, h.not_gt]
  · simp [← hm]
  · rcases lt_trichotomy q1.value q2.value with h | h | h
    · simp [hm, h, hm.not_gt, h.not_gt]
    · simp [h]
    · simp [hm, h, hm.not_gt, h.not_gt]

/-! ## The list -/

variable {l seen rest : List AVRational} {i best : Nat}

/-- The fraction at `best` is a nearest one of `seen`. -/
structure Nearest (q : AVRational) (seen : List AVRational) (best : Nat) : Prop where
  lt : best < seen.length
  le : ∀ x ∈ seen, |q.value - (seen[best]).value| ≤ |q.value - x.value|

theorem Nearest.concat (h : Nearest q seen best) (x : AVRational) :
    Nearest q (seen ++ [x])
      (if |q.value - x.value| < |q.value - (seen.getD best x).value| then seen.length
        else best) := by
  have hbest := h.lt
  have hget : seen.getD best x = seen[best] := by
    rw [List.getD_eq_getElem?_getD, List.getElem?_eq_getElem hbest, Option.getD_some]
  rw [hget]
  split
  · rename_i hlt
    refine ⟨by simp, ?_⟩
    intro y hy
    rw [List.getElem_concat_length rfl]
    rcases List.mem_append.1 hy with hy | hy
    · exact hlt.le.trans (h.le y hy)
    · rw [List.mem_singleton.1 hy]
  · rename_i hge
    refine ⟨by rw [List.length_append]; lia, ?_⟩
    intro y hy
    rw [List.getElem_append_left hbest]
    rcases List.mem_append.1 hy with hy | hy
    · exact h.le y hy
    · rw [List.mem_singleton.1 hy]
      exact not_lt.1 hge

variable {last : AVRational}

@[simp] theorem findNearestLoop_end (hlast : last.den = 0) (l : List AVRational) :
    findNearestLoop q l (last :: rest) i best = best := by
  rw [findNearestLoop, if_neg (not_not.2 hlast)]

/-- The loop goes through the list up to the denominator 0. -/
theorem findNearestLoop_nearest (hq : q.IsSmall) (hl : ∀ x ∈ l, x.IsSmall) (hlast : last.den = 0)
    (hseen : ∀ x ∈ seen, x.IsSmall) (hbest : Nearest q seen best) :
    Nearest q (seen ++ l)
      (findNearestLoop q (seen ++ (l ++ last :: rest)) (l ++ last :: rest) seen.length best) := by
  induction l generalizing seen best with
  | nil =>
    rw [List.nil_append, findNearestLoop_end hlast, List.append_nil]
    exact hbest
  | cons x l ih =>
    have hx := hl x List.mem_cons_self
    have hlt := hbest.lt
    have hget : (seen ++ (x :: l ++ last :: rest)).getD best x = seen.getD best x := by
      rw [List.getD_eq_getElem?_getD, List.getD_eq_getElem?_getD, List.getElem?_append_left hlt]
    have hnearest : (seen.getD best x).IsSmall := by
      rw [List.getD_eq_getElem?_getD, List.getElem?_eq_getElem hlt, Option.getD_some]
      exact hseen _ (List.getElem_mem hlt)
    have hseen' : ∀ y ∈ seen ++ [x], y.IsSmall := by
      intro y hy
      rcases List.mem_append.1 hy with hy | hy
      · exact hseen y hy
      · rw [List.mem_singleton.1 hy]
        exact hx
    have hstep := ih (fun y hy => hl y (List.mem_cons_of_mem x hy)) hseen' (hbest.concat x)
    rw [List.append_assoc, List.append_assoc, List.length_append, List.length_singleton] at hstep
    rw [List.cons_append, findNearestLoop, if_pos hx.den_pos.ne']
    rw [List.cons_append] at hget
    rw [hget]
    simp only [avNearerQ_pos_iff hq hx hnearest]
    split
    · rename_i hlt
      rw [if_pos hlt] at hstep
      exact hstep
    · rename_i hge
      rw [if_neg hge] at hstep
      exact hstep

/-- **The index that is returned is that of a nearest fraction of the list.** -/
theorem avFindNearestQIdx_nearest (hq : q.IsSmall) (hne : l ≠ []) (hl : ∀ x ∈ l, x.IsSmall)
    {last : AVRational} (hlast : last.den = 0) (rest : List AVRational) :
    ∃ h : avFindNearestQIdx q (l ++ last :: rest) < l.length,
      ∀ j (hj : j < l.length),
        |q.value - (l[avFindNearestQIdx q (l ++ last :: rest)]).value| ≤
          |q.value - (l[j]).value| := by
  obtain ⟨x, l, rfl⟩ := List.exists_cons_of_ne_nil hne
  have hx := hl x List.mem_cons_self
  have hfirst : Nearest q [x] 0 := by
    refine ⟨Nat.one_pos, ?_⟩
    intro y hy
    rw [List.mem_singleton.1 hy]
    exact le_rfl
  have hseen : ∀ y ∈ [x], y.IsSmall := by
    intro y hy
    rw [List.mem_singleton.1 hy]
    exact hx
  have hrun : Nearest q ([x] ++ l)
      (findNearestLoop q ([x] ++ (l ++ last :: rest)) (l ++ last :: rest) [x].length 0) :=
    findNearestLoop_nearest hq (fun y hy => hl y (List.mem_cons_of_mem x hy)) hlast hseen
      hfirst
  -- the first fraction is not nearer than itself
  have hstart : avFindNearestQIdx q (x :: l ++ last :: rest) =
      findNearestLoop q ([x] ++ (l ++ last :: rest)) (l ++ last :: rest) 1 0 := by
    rw [avFindNearestQIdx, List.cons_append, findNearestLoop, if_pos hx.den_pos.ne',
      List.getD_cons_zero, if_neg]
    · rfl
    · rw [avNearerQ_pos_iff hq hx hx]
      exact lt_irrefl _
  rw [List.length_singleton, ← hstart] at hrun
  exact ⟨hrun.lt, fun j hj => hrun.le _ (List.getElem_mem hj)⟩

/-- One third among three fractions; the last two are nearest. -/
theorem avFindNearestQIdx_nearest_third :
    ∃ h : avFindNearestQIdx ⟨1, 3⟩ ([⟨1, 1⟩, ⟨1, 4⟩, ⟨5, 12⟩] ++ ⟨0, 0⟩ :: []) <
        [(⟨1, 1⟩ : AVRational), ⟨1, 4⟩, ⟨5, 12⟩].length,
      ∀ j (hj : j < [(⟨1, 1⟩ : AVRational), ⟨1, 4⟩, ⟨5, 12⟩].length),
        |(⟨1, 3⟩ : AVRational).value - ([(⟨1, 1⟩ : AVRational), ⟨1, 4⟩, ⟨5, 12⟩][
          avFindNearestQIdx ⟨1, 3⟩ ([⟨1, 1⟩, ⟨1, 4⟩, ⟨5, 12⟩] ++ ⟨0, 0⟩ :: [])]).value| ≤
        |(⟨1, 3⟩ : AVRational).value - ([(⟨1, 1⟩ : AVRational), ⟨1, 4⟩, ⟨5, 12⟩][j]).value| :=
  avFindNearestQIdx_nearest ⟨by simp, by simp, by simp⟩ (by simp)
    (by
      intro x hx
      simp only [List.mem_cons, List.not_mem_nil, or_false] at hx
      rcases hx with rfl | rfl | rfl <;>
        exact ⟨by norm_num [abs_of_pos], by norm_num, by norm_num⟩)
    rfl []

end FFmpeg.Libavutil
