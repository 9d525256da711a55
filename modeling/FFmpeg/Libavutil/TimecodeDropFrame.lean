import FFmpeg.Libavutil.Timecode

/-!
# Drop frame labels count every frame once

A drop frame label leaves out the first frame numbers of every minute but each tenth.  Ten minutes
have nine such gaps, and a minute behind a gap starts where the frame counter of the label has been
moved on, so the frames and the labels correspond one to one and in order.
-/

namespace FFmpeg.Libavutil.Timecode

open Common ParseUtils

variable {tc : AVTimecode} {framenum : Int} {fps a a' b c n n' : Nat}

/-! ## The fields of a frame number -/

/-- The label of a frame number. -/
def labelOf (wrap : Bool) (fps a : Nat) : Label :=
  ⟨if wrap then a / (fps * 3600) % 24 else a / (fps * 3600), a / (fps * 60) % 60, a / fps % 60,
    a % fps⟩

theorem intOp_nat (h : (n : Int) ≤ intMax) : intOp n = some (n : Int) :=
  intOp_eq (Int.natCast_nonneg n) h

theorem toInt32_nat (h : (n : Int) ≤ intMax) : toInt32 n = n := by
  have hmax : intMax = 2 ^ 31 - 1 := rfl
  exact toInt32_eq (by omega) (by omega)

theorem toNat_tdiv (m n : Nat) : ((m : Int).tdiv n).toNat = m / n := by
  rw [← Int.ofNat_tdiv, Int.toNat_natCast]

theorem toNat_tdiv_tmod (m n k : Nat) : (((m : Int).tdiv n).tmod k).toNat = m / n % k := by
  rw [← Int.ofNat_tdiv, ← Int.ofNat_tmod, Int.toNat_natCast]

theorem toNat_tmod (m n : Nat) : ((m : Int).tmod n).toNat = m % n := by
  rw [← Int.ofNat_tmod, Int.toNat_natCast]

theorem labelOf_eq (wrap : Bool) (fps a : Nat) :
    (⟨(if wrap then ((a : Int).tdiv (fps * 3600 : Nat)).tmod 24
        else (a : Int).tdiv (fps * 3600 : Nat)).toNat,
      (((a : Int).tdiv (fps * 60 : Nat)).tmod 60).toNat, (((a : Int).tdiv fps).tmod 60).toNat,
      ((a : Int).tmod fps).toNat⟩ : Label) = labelOf wrap fps a := by
  have hhour := toNat_tdiv_tmod a (fps * 3600) 24
  have hminute := toNat_tdiv_tmod a (fps * 60) 60
  have hsecond := toNat_tdiv_tmod a fps 60
  push_cast at hhour hminute hsecond ⊢
  cases wrap with
  | true =>
    rw [labelOf, if_pos rfl, if_pos rfl, hhour, hminute, hsecond, toNat_tmod]
  | false =>
    have hhours := toNat_tdiv a (fps * 3600)
    push_cast at hhours
    rw [labelOf, if_neg Bool.false_ne_true, if_neg Bool.false_ne_true, hhours, hminute, hsecond,
      toNat_tmod]

theorem avTimecodeMakeString_eq {x : Int} (hadjusted : adjusted tc framenum = some x)
    (hx : (x.natAbs : Int) ≤ intMax) (hfps : 0 < tc.fps)
    (hmax : ((tc.fps * 3600 : Nat) : Int) ≤ intMax) :
    avTimecodeMakeString tc framenum =
      some (snprintf ((if (decide (x < 0) && tc.flags.allownegative) = true then [45] else []) ++
        (labelOf tc.flags.hours24max tc.fps x.natAbs).text (separator tc.flags.dropframe))) := by
  have hrate : toInt32 tc.fps = tc.fps := toInt32_nat (by omega)
  have hminute : intOp ((tc.fps : Int) * 60) = some ((tc.fps * 60 : Nat) : Int) := by
    have hop := intOp_nat (n := tc.fps * 60) (by omega)
    push_cast at hop ⊢
    exact hop
  have hhour : intOp ((tc.fps : Int) * 3600) = some ((tc.fps * 3600 : Nat) : Int) := by
    have hop := intOp_nat hmax
    push_cast at hop ⊢
    exact hop
  have hne : ¬ (tc.fps : Int) = 0 := by omega
  simp only [avTimecodeMakeString, hadjusted, hrate, hminute, hhour, Option.bind_eq_bind,
    Option.bind_some, if_neg hne]
  by_cases hneg : x < 0
  · have habs : -x = (x.natAbs : Int) := by omega
    rw [if_pos hneg, habs, intOp_nat hx, Option.bind_some, labelOf_eq]
  · have habs : x.natAbs = x.toNat := by omega
    have hcast : x = (x.toNat : Int) := by omega
    rw [if_neg hneg, habs]
    rw [← labelOf_eq tc.flags.hours24max tc.fps x.toNat, ← hcast]

/-- Later frame numbers have later labels. -/
def Label.Earlier (l l' : Label) : Prop :=
  l.hh < l'.hh ∨ l.hh = l'.hh ∧ (l.mm < l'.mm ∨ l.mm = l'.mm ∧
    (l.ss < l'.ss ∨ l.ss = l'.ss ∧ l.ff < l'.ff))

theorem earlier_labelOf (fps : Nat) (h : a < a') :
    (labelOf false fps a).Earlier (labelOf false fps a') := by
  have hminute : ∀ x, x / (fps * 60) = x / fps / 60 := fun x => (Nat.div_div_eq_div_mul _ _ _).symm
  have hhour : ∀ x, x / (fps * 3600) = x / fps / 3600 := fun x =>
    (Nat.div_div_eq_div_mul _ _ _).symm
  have hle : a / fps ≤ a' / fps := Nat.div_le_div_right (Nat.le_of_lt h)
  have hsplit := Nat.div_add_mod a fps
  have hsplit' := Nat.div_add_mod a' fps
  unfold Label.Earlier labelOf
  simp only [Bool.false_eq_true, if_false, hminute, hhour]
  rcases Nat.lt_or_eq_of_le hle with hlt | heq
  · omega
  · rw [heq] at hsplit ⊢
    omega

/-! ## The numbering -/

/-- How far the labels have moved on at a frame; `30 * c` is the frame rate. -/
def dropCount (c n : Nat) : Nat :=
  18 * c * (n / (17982 * c)) + 2 * c * ((n % (17982 * c) - 2 * c) / (1798 * c))

theorem avTimecodeAdjust_nat (hc : c = 1 ∨ c = 2) (n : Nat) :
    avTimecodeAdjustNtscFramenum2 n (30 * c : Nat) = toInt32 ((n + dropCount c n : Nat) : Int) := by
  have hdrop : ∀ m e f : Nat, 0 < f → e < f →
      ((m : Int) - e).tdiv f = (((m - e) / f : Nat) : Int) := by
    intro m e f hf he
    rcases Nat.le_total e m with h | h
    · rw [← Nat.cast_sub h]
      exact (Int.ofNat_tdiv _ _).symm
    · -- a small negative number is rounded up
      have hneg : (m : Int) - e = -((e - m : Nat) : Int) := by omega
      rw [hneg, Int.neg_tdiv, ← Int.ofNat_tdiv, Nat.div_eq_of_lt (by omega),
        Nat.sub_eq_zero_of_le h, Nat.zero_div]
      rfl
  have hadjust : ∀ e f : Nat, 0 < f / 10 → e < f / 10 → adjustDrop n e f =
      toInt32 ((n + (9 * e * (n / f) + e * ((n % f - e) / (f / 10))) : Nat) : Int) := by
    intro e f hf he
    have hd : (n : Int).tdiv f = ((n / f : Nat) : Int) := (Int.ofNat_tdiv _ _).symm
    have hm : (n : Int).tmod f = ((n % f : Nat) : Int) := (Int.ofNat_tmod _ _).symm
    have hten : (f : Int).tdiv 10 = ((f / 10 : Nat) : Int) := (Int.ofNat_tdiv _ 10).symm
    rw [adjustDrop, hd, hm, hten, hdrop _ e _ hf he]
    congr 1
    push_cast
    ring
  rcases hc with rfl | rfl
  · exact hadjust 2 17982 (by decide) (by decide)
  · exact hadjust 4 35964 (by decide) (by decide)

theorem exists_minutes (hc : c = 1 ∨ c = 2) (n : Nat) :
    ∃ d k r, k ≤ 9 ∧ r < 1800 * c ∧ (k = 0 ∨ 2 * c ≤ r) ∧ n = 17982 * c * d + 1798 * c * k + r ∧
      n + dropCount c n = 18000 * c * d + 1800 * c * k + r := by
  rcases hc with rfl | rfl
  · exact ⟨n / 17982, (n % 17982 - 2) / 1798, n % 17982 - 1798 * ((n % 17982 - 2) / 1798),
      by omega, by omega, by omega, by omega, by unfold dropCount; omega⟩
  · exact ⟨n / 35964, (n % 35964 - 4) / 3596, n % 35964 - 3596 * ((n % 35964 - 4) / 3596),
      by omega, by omega, by omega, by omega, by unfold dropCount; omega⟩

/-- A label of the drop frame numbering: the first frame numbers of a minute are left out, unless it
is a tenth one. -/
structure Label.Drop (c : Nat) (l : Label) : Prop where
  mm : l.mm < 60
  ss : l.ss < 60
  ff : l.ff < 30 * c
  kept : l.ss = 0 → l.ff < 2 * c → l.mm % 10 = 0

/-- The frame number of a label. -/
def Label.value (fps : Nat) (l : Label) : Nat := ((l.hh * 60 + l.mm) * 60 + l.ss) * fps + l.ff

variable {l : Label}

theorem labelOf_value (hmm : l.mm < 60) (hss : l.ss < 60) (hff : l.ff < fps) :
    labelOf false fps (l.value fps) = l := by
  have hminute : ∀ x, x / (fps * 60) = x / fps / 60 := fun x => (Nat.div_div_eq_div_mul _ _ _).symm
  have hhour : ∀ x, x / (fps * 3600) = x / fps / 3600 := fun x =>
    (Nat.div_div_eq_div_mul _ _ _).symm
  have hdiv : l.value fps / fps = (l.hh * 60 + l.mm) * 60 + l.ss := by
    rw [Label.value, Nat.mul_comm, Nat.mul_add_div (by omega), Nat.div_eq_of_lt hff, Nat.add_zero]
  have hmod : l.value fps % fps = l.ff := by
    rw [Label.value, Nat.mul_comm, Nat.mul_add_mod, Nat.mod_eq_of_lt hff]
  obtain ⟨hh, mm, ss, ff⟩ := l
  dsimp only at hmm hss hff hdiv hmod
  simp only [labelOf, Bool.false_eq_true, if_false, hminute, hhour, hdiv, hmod, Label.mk.injEq,
    and_true]
  omega

theorem value_labelOf (fps a : Nat) : (labelOf false fps a).value fps = a := by
  have hminute : a / (fps * 60) = a / fps / 60 := (Nat.div_div_eq_div_mul _ _ _).symm
  have hhour : a / (fps * 3600) = a / fps / 3600 := (Nat.div_div_eq_div_mul _ _ _).symm
  have hseconds : (a / fps / 3600 * 60 + a / fps / 60 % 60) * 60 + a / fps % 60 = a / fps := by
    omega
  simp only [labelOf, Label.value, Bool.false_eq_true, if_false, hminute, hhour, hseconds]
  rw [Nat.mul_comm]
  exact Nat.div_add_mod a fps

theorem minutes_labelOf (fps a : Nat) :
    60 * (labelOf false fps a).hh + (labelOf false fps a).mm = a / (fps * 60) := by
  have hhour : a / (fps * 3600) = a / (fps * 60) / 60 := by
    rw [Nat.div_div_eq_div_mul, Nat.mul_assoc]
  simp only [labelOf, Bool.false_eq_true, if_false, hhour]
  omega

/-- The frame with a label. -/
def frameOf (c : Nat) (l : Label) : Nat :=
  l.value (30 * c) - 2 * c * (60 * l.hh + l.mm - (60 * l.hh + l.mm) / 10)

theorem drop_labelOf (hc : c = 1 ∨ c = 2) (n : Nat) :
    (labelOf false (30 * c) (n + dropCount c n)).Drop c ∧
      frameOf c (labelOf false (30 * c) (n + dropCount c n)) = n := by
  obtain ⟨d, k, r, hk, hr, hgap, hn, ha⟩ := exists_minutes hc n
  obtain ⟨a, hsum⟩ : ∃ a, a = n + dropCount c n := ⟨_, rfl⟩
  have hvalue := value_labelOf (30 * c) a
  have hminutes := minutes_labelOf (30 * c) a
  rw [← hsum] at ha ⊢
  rw [frameOf, hvalue, hminutes]
  have htminutes : a / (30 * c * 60) = 10 * d + k := by
    rcases hc with rfl | rfl <;> omega
  constructor
  · have hsecond : a / (30 * c) % 60 = r / (30 * c) := by
      rcases hc with rfl | rfl <;> omega
    have hframe : a % (30 * c) = r % (30 * c) := by
      rcases hc with rfl | rfl <;> omega
    rcases hc with rfl | rfl
    · constructor <;> simp only [labelOf, htminutes, hsecond, hframe] <;> omega
    · constructor <;> simp only [labelOf, htminutes, hsecond, hframe] <;> omega
  · rw [htminutes]
    rcases hc with rfl | rfl <;> omega

/-- Every drop frame label is that of a frame. -/
theorem frameOf_add_dropCount (hc : c = 1 ∨ c = 2) (h : l.Drop c) :
    frameOf c l + dropCount c (frameOf c l) = l.value (30 * c) := by
  obtain ⟨t, ht⟩ : ∃ t, t = 60 * l.hh + l.mm := ⟨_, rfl⟩
  obtain ⟨r, hr⟩ : ∃ r, r = l.ss * (30 * c) + l.ff := ⟨_, rfl⟩
  have hmm := h.mm
  have hss := h.ss
  have hff := h.ff
  have hkept := h.kept
  have hvalue : l.value (30 * c) = 1800 * c * t + r := by
    rw [Label.value, ht, hr]
    ring
  have hgap : t % 10 = 0 ∨ 2 * c ≤ r := by
    by_contra hcontra
    have hzero : l.ss = 0 := by
      rcases hc with rfl | rfl <;> omega
    rw [hzero] at hr
    omega
  have hsmall : r < 1800 * c := by
    rcases hc with rfl | rfl <;> omega
  obtain ⟨d, k, rfl, hk⟩ : ∃ d k, t = 10 * d + k ∧ k < 10 :=
    ⟨t / 10, t % 10, by omega, by omega⟩
  obtain ⟨n, hn⟩ : ∃ n, n = 17982 * c * d + 1798 * c * k + r := ⟨_, rfl⟩
  have hframe : frameOf c l = n := by
    rw [frameOf, hvalue, ← ht, hn]
    rcases hc with rfl | rfl <;> omega
  have htens : n / (17982 * c) = d := by
    rcases hc with rfl | rfl <;> omega
  have hrest : n % (17982 * c) = 1798 * c * k + r := by
    rcases hc with rfl | rfl <;> omega
  have hminute : (1798 * c * k + r - 2 * c) / (1798 * c) = k := by
    rcases hc with rfl | rfl <;> omega
  rw [hframe, hvalue, dropCount, htens, hrest, hminute, hn]
  ring

/-! ## The string and back -/

/-- What a drop frame timecode with a start of zero is asked for. -/
structure DropFrame (c : Nat) (tc : AVTimecode) : Prop where
  fps : tc.fps = 30 * c
  drop : tc.flags.dropframe = true
  start : tc.start = 0

theorem adjusted_drop (hc : c = 1 ∨ c = 2) (htc : DropFrame c tc)
    (hn : ((n + dropCount c n : Nat) : Int) ≤ intMax) :
    adjusted tc n = some ((n + dropCount c n : Nat) : Int) := by
  have hsmall : (n : Int) ≤ intMax := by omega
  have hrate : toInt32 tc.fps = (30 * c : Nat) := by
    have hmax : intMax = 2 ^ 31 - 1 := rfl
    rw [htc.fps]
    exact toInt32_nat (by omega)
  rw [adjusted, htc.start, add_zero, intOp_nat hsmall, htc.drop, hrate]
  simp only [Option.bind_eq_bind, Option.bind_some, if_true]
  rw [avTimecodeAdjust_nat hc, toInt32_nat hn]

theorem small_labelOf (wrap : Bool) (fps : Nat) (h : (a : Int) ≤ intMax) :
    (labelOf wrap fps a).Small := by
  have hle : ∀ m : Nat, m ≤ a → (m : Int) ≤ intMax := fun m hm => by omega
  constructor
  · apply hle
    cases wrap with
    | true => exact (Nat.mod_le _ _).trans (Nat.div_le_self _ _)
    | false => exact Nat.div_le_self _ _
  · exact hle _ ((Nat.mod_le _ _).trans (Nat.div_le_self _ _))
  · exact hle _ ((Nat.mod_le _ _).trans (Nat.div_le_self _ _))
  · exact hle _ (Nat.mod_le _ _)

theorem snprintf_labelOf (sign : Bytes) (hsign : sign.length ≤ 1) (wrap : Bool) (s : UInt8)
    (ha : (a : Int) ≤ intMax) (hfps : 0 < fps) (hff : fps < 10 ^ 6)
    (hhour : wrap = true ∨ 30 ≤ fps) :
    snprintf (sign ++ (labelOf wrap fps a).text s) = sign ++ (labelOf wrap fps a).text s := by
  have hmax : intMax = 2 ^ 31 - 1 := rfl
  have hmm : (twoDigits (labelOf wrap fps a).mm).length ≤ 2 :=
    length_twoDigits_le (Nat.le_refl 2) ((Nat.mod_lt _ (by decide)).trans (by decide))
  have hss : (twoDigits (labelOf wrap fps a).ss).length ≤ 2 :=
    length_twoDigits_le (Nat.le_refl 2) ((Nat.mod_lt _ (by decide)).trans (by decide))
  have hframes : (twoDigits (labelOf wrap fps a).ff).length ≤ 6 :=
    length_twoDigits_le (by decide) ((Nat.mod_lt _ hfps).trans hff)
  have hhours : (twoDigits (labelOf wrap fps a).hh).length ≤ 5 := by
    refine length_twoDigits_le (by decide) ?_
    cases wrap with
    | true => exact (Nat.mod_lt _ (by decide)).trans (by decide)
    | false =>
      have hrate : 30 ≤ fps := hhour.resolve_left Bool.false_ne_true
      have hle : a / (fps * 3600) ≤ a / 108000 := Nat.div_le_div_left (by omega) (by decide)
      show a / (fps * 3600) < _
      omega
  exact snprintf_text hsign (by omega)

theorem makeString_drop (hc : c = 1 ∨ c = 2) (htc : DropFrame c tc)
    (hwrap : tc.flags.hours24max = false) (hn : ((n + dropCount c n : Nat) : Int) ≤ intMax) :
    avTimecodeMakeString tc n = some ((labelOf false (30 * c) (n + dropCount c n)).text 59) := by
  have hmax : intMax = 2 ^ 31 - 1 := rfl
  have hfps := htc.fps
  have hstring := avTimecodeMakeString_eq (adjusted_drop hc htc hn)
    (by rw [Int.natAbs_natCast]; exact hn) (by omega) (by omega)
  have hpos : ¬ ((n + dropCount c n : Nat) : Int) < 0 := by omega
  have hfits := snprintf_labelOf [] (by decide) false 59 hn (show 0 < 30 * c by omega)
    (by omega) (Or.inr (by omega))
  rw [hstring, hwrap, htc.drop, hfps, Int.natAbs_natCast, decide_eq_false hpos, Bool.false_and,
    if_neg Bool.false_ne_true]
  exact congrArg some hfits

theorem initFromLabel_ok {hh mm ss ff start : Int} (hcheck : checkTimecode tc = .ok ())
    (hstart : labelStart tc hh mm ss ff = some start) :
    initFromLabel tc hh mm ss ff = some (.ok { tc with start := start }) := by
  unfold initFromLabel
  rw [hcheck, hstart]
  rfl

variable {rate : AVRational}

theorem avTimecodeInitFromString_eq {str : Bytes} {hh mm ss ff fps : Int} {s : UInt8}
    (hscan : scanLabel str = some (some (hh, mm, ss, s, ff)))
    (hrate : fpsFromFrameRate rate = some fps) :
    avTimecodeInitFromString rate str =
      initFromLabel ⟨0, { dropframe := s ≠ 58 }, rate, toUint32 fps⟩ hh mm ss ff := by
  unfold avTimecodeInitFromString
  rw [hscan, hrate]

theorem labelStart_eq {hh mm ss ff hours minutes sum seconds dropped : Int}
    (hdrop : tc.flags.dropframe = true) (hhours : intOp (hh * 3600) = some hours)
    (hminutes : intOp (mm * 60) = some minutes) (hsum : intOp (hours + minutes) = some sum)
    (hseconds : intOp (sum + ss) = some seconds)
    (hdropped : droppedFrames tc.fps hh mm = some dropped) :
    labelStart tc hh mm ss ff = intOp (toInt32 (seconds * tc.fps + ff) - dropped) := by
  rw [labelStart, hhours, hdrop, hdropped, Option.bind_eq_bind, Option.bind_some, hminutes,
    Option.bind_some, hsum, Option.bind_some, hseconds, Option.bind_some, if_pos rfl,
    Option.bind_some]

theorem droppedFrames_eq {hh mm hours tmins minutes : Int} (hhours : intOp (60 * hh) = some hours)
    (hsum : intOp (hours + mm) = some tmins)
    (hminutes : intOp (tmins - tmins.tdiv 10) = some minutes) :
    droppedFrames fps hh mm = intOp ((if fps = 30 then 2 else 4) * minutes) := by
  rw [droppedFrames, hhours, Option.bind_eq_bind, Option.bind_some, hsum, Option.bind_some,
    hminutes, Option.bind_some]

theorem intOp_cast {x : Int} (hx : x = n) (h : (n : Int) ≤ intMax) : intOp x = some (n : Int) := by
  rw [hx, intOp_nat h]

/-- The start that a drop frame label sets. -/
theorem labelStart_drop (hc : c = 1 ∨ c = 2) (hn : ((n + dropCount c n : Nat) : Int) ≤ intMax)
    (htc : tc.fps = 30 * c) (hdrop : tc.flags.dropframe = true)
    (hl : l = labelOf false (30 * c) (n + dropCount c n)) :
    labelStart tc l.hh l.mm l.ss l.ff = some (n : Int) := by
  obtain ⟨a, ha⟩ : ∃ a, a = n + dropCount c n := ⟨_, rfl⟩
  have hvalue := value_labelOf (30 * c) a
  have hminutes := minutes_labelOf (30 * c) a
  have hframe := (drop_labelOf hc n).2
  rw [← ha] at hn hframe hl
  rw [← hl] at hvalue hminutes hframe
  have hop : ∀ {x : Int} {m : Nat}, x = m → m ≤ a → intOp x = some (m : Int) :=
    fun hx hm => intOp_cast hx (by omega)
  have hsmall : l.hh * 3600 + l.mm * 60 + l.ss ≤ a := by
    rw [← hvalue, Label.value]
    have hle := Nat.le_mul_of_pos_right ((l.hh * 60 + l.mm) * 60 + l.ss) (show 0 < 30 * c by omega)
    omega
  have hclock : l.hh * 3600 + l.mm * 60 ≤ a := Nat.le_of_add_right_le hsmall
  have hhours := hop (x := (l.hh : Int) * 3600) (m := l.hh * 3600) (by push_cast; ring)
    (Nat.le_of_add_right_le hclock)
  have hmins := hop (x := (l.mm : Int) * 60) (m := l.mm * 60) (by push_cast; ring)
    (Nat.le_of_add_left_le hclock)
  have hsum := hop (Nat.cast_add (l.hh * 3600) (l.mm * 60)).symm hclock
  have hseconds := hop (Nat.cast_add (l.hh * 3600 + l.mm * 60) l.ss).symm hsmall
  -- the minutes, and the frame numbers that they leave out
  obtain ⟨t, ht⟩ : ∃ t, t = 60 * l.hh + l.mm := ⟨_, rfl⟩
  rw [frameOf, hvalue, ← ht] at hframe
  have hgaps : 2 * c * (t - t / 10) ≤ a := by
    rw [← ht] at hminutes
    rcases hc with rfl | rfl <;> omega
  have hfactor : (if 30 * c = 30 then 2 else 4 : Int) = (2 * c : Nat) := by
    rcases hc with rfl | rfl <;> rfl
  have hdropped : droppedFrames tc.fps l.hh l.mm = some ((2 * c * (t - t / 10) : Nat) : Int) := by
    have htminutes := hop (x := (60 * l.hh : Nat) + (l.mm : Int)) (m := t)
      (by rw [ht, Nat.cast_add]) (by omega)
    have hkept := hop (x := (t : Int) - (t : Int).tdiv 10) (m := t - t / 10)
      (by rw [show (t : Int).tdiv 10 = ((t / 10 : Nat) : Int) from (Int.ofNat_tdiv t 10).symm,
        Nat.cast_sub (Nat.div_le_self t 10)]) (by omega)
    rw [htc, droppedFrames_eq (hop (by push_cast; ring) (by omega)) htminutes hkept, hfactor,
      ← Nat.cast_mul]
    exact hop rfl hgaps
  have hstart : ((l.hh * 3600 + l.mm * 60 + l.ss : Nat) : Int) * ((30 * c : Nat) : Int) +
      (l.ff : Int) = (a : Int) := by
    rw [← hvalue, Label.value]
    push_cast
    ring
  rw [labelStart_eq hdrop hhours hmins hsum hseconds hdropped, htc, hstart, toInt32_nat hn]
  exact hop (by rw [← hframe, Nat.cast_sub hgaps]) (by omega)

theorem initFromString_drop (hc : c = 1 ∨ c = 2) (hn : ((n + dropCount c n : Nat) : Int) ≤ intMax)
    (hrate : fpsFromFrameRate rate = some ((30 * c : Nat) : Int)) :
    avTimecodeInitFromString rate ((labelOf false (30 * c) (n + dropCount c n)).text 59) =
      some (.ok ⟨n, { dropframe := true }, rate, 30 * c⟩) := by
  have hmax : intMax = 2 ^ 31 - 1 := rfl
  have hscan := scanLabel_text (small_labelOf false (30 * c) hn) (c := 59) (by decide)
  have hunsigned : toUint32 ((30 * c : Nat) : Int) = 30 * c := by
    rcases hc with rfl | rfl <;> rfl
  have hint : toInt32 ((30 * c : Nat) : Int) = (30 * c : Nat) := toInt32_nat (by omega)
  have hcheck : checkTimecode ⟨0, { dropframe := true }, rate, 30 * c⟩ = .ok () := by
    unfold checkTimecode
    dsimp only
    rw [hint, if_neg (by omega), if_neg (by omega)]
  have hflag : (decide ((59 : UInt8) ≠ 58)) = true := by decide
  rw [avTimecodeInitFromString_eq hscan hrate, hunsigned, hflag,
    initFromLabel_ok hcheck (labelStart_drop hc hn rfl rfl rfl)]

theorem add_dropCount_lt (hc : c = 1 ∨ c = 2) (h : n < n') :
    n + dropCount c n < n' + dropCount c n' := by
  unfold dropCount
  rcases hc with rfl | rfl
  · omega
  · omega

/-- Drop frame labels and frames correspond one to one: as long as the label's own number fits, a
frame has a label of the numbering, which sets a timecode to start at this frame; a later frame has
a later label; and every label is that of a frame. -/
theorem avTimecodeMakeString_dropFrame (hc : c = 1 ∨ c = 2) (htc : DropFrame c tc)
    (hwrap : tc.flags.hours24max = false) :
    (∀ n : Nat, ((n + dropCount c n : Nat) : Int) ≤ intMax →
      ∃ l : Label, avTimecodeMakeString tc n = some (l.text 59) ∧ l.Drop c ∧
        ∀ rate : AVRational, fpsFromFrameRate rate = some ((30 * c : Nat) : Int) →
          avTimecodeInitFromString rate (l.text 59) =
            some (.ok ⟨n, { dropframe := true }, rate, 30 * c⟩)) ∧
    (∀ n n' : Nat, n < n' → ((n' + dropCount c n' : Nat) : Int) ≤ intMax →
      ∃ l l' : Label, avTimecodeMakeString tc n = some (l.text 59) ∧
        avTimecodeMakeString tc n' = some (l'.text 59) ∧ l.Earlier l') ∧
    (∀ l : Label, l.Drop c → ((l.value (30 * c) : Nat) : Int) ≤ intMax →
      ∃ n : Nat, ((n + dropCount c n : Nat) : Int) ≤ intMax ∧
        avTimecodeMakeString tc n = some (l.text 59)) := by
  refine ⟨fun n hn => ?_, fun n n' hlt hn' => ?_, fun l hl hmax => ?_⟩
  · exact ⟨_, makeString_drop hc htc hwrap hn, (drop_labelOf hc n).1,
      fun rate hrate => initFromString_drop hc hn hrate⟩
  · have hlabels := add_dropCount_lt hc hlt
    have hn : ((n + dropCount c n : Nat) : Int) ≤ intMax :=
      (Int.ofNat_le.2 (Nat.le_of_lt hlabels)).trans hn'
    exact ⟨_, _, makeString_drop hc htc hwrap hn, makeString_drop hc htc hwrap hn',
      earlier_labelOf (30 * c) hlabels⟩
  · have hvalue := frameOf_add_dropCount hc hl
    have hn : ((frameOf c l + dropCount c (frameOf c l) : Nat) : Int) ≤ intMax := by
      rw [hvalue]
      exact hmax
    have hstring := makeString_drop hc htc hwrap hn
    rw [hvalue, labelOf_value hl.mm hl.ss hl.ff] at hstring
    exact ⟨_, hn, hstring⟩

/-- The first frame of the second minute of 29.97 frames a second. -/
theorem avTimecodeMakeString_dropFrame_minute :
    ∃ l : Label, avTimecodeMakeString ⟨0, { dropframe := true }, ⟨30000, 1001⟩, 30⟩ 1800 =
        some (l.text 59) ∧ l.Drop 1 ∧
      avTimecodeInitFromString ⟨30000, 1001⟩ (l.text 59) =
        some (.ok ⟨1800, { dropframe := true }, ⟨30000, 1001⟩, 30⟩) := by
  have htc : DropFrame 1 ⟨0, { dropframe := true }, ⟨30000, 1001⟩, 30⟩ := ⟨rfl, rfl, rfl⟩
  obtain ⟨l, hstring, hdrop, hinit⟩ :=
    (avTimecodeMakeString_dropFrame (Or.inl rfl) htc rfl).1 1800 (by decide)
  exact ⟨l, hstring, hdrop, hinit ⟨30000, 1001⟩ (by decide)⟩

end FFmpeg.Libavutil.Timecode
