import FFmpeg.Libavutil.ParseUtils
import FFmpeg.Libavutil.Times

/-!
# Reading the parts of a duration

What `av_small_strptime`, `strtoll` and the decimal part take of a text, in both directions: a text
of this shape is read to its end, and whatever is read has this shape.
-/

namespace FFmpeg.Libavutil.ParseUtils

open Common

/-! ## Numbers -/

/-- The text does not go on with a digit. -/
def NoDigit (p : Bytes) : Prop := ∀ c, p.head? = some c → avIsdigit c = false

/-- A number of at most `len` digits. -/
structure IsNumber (ds : Bytes) (len : Nat) : Prop where
  digits : ∀ c ∈ ds, avIsdigit c = true
  ne_nil : ds ≠ []
  length_le : ds.length ≤ len

variable {p ds rest fmt : Bytes} {dt : Tm} {len : Nat} {val nMin nMax : Int} {c : UInt8}

theorem digit_bounds (h : avIsdigit c = true) : 0 ≤ digit c ∧ digit c ≤ 9 := by
  simp only [avIsdigit, Bool.and_eq_true, decide_eq_true_eq, UInt8.le_iff_toNat_le] at h
  obtain ⟨hlow, hhigh⟩ := h
  have hlow' : 48 ≤ c.toNat := hlow
  have hhigh' : c.toNat ≤ 57 := hhigh
  unfold digit
  lia

theorem numberFrom_eq (val : Int) (ds : Bytes) :
    numberFrom val ds = val * 10 ^ ds.length + numberFrom 0 ds := by
  induction ds generalizing val with
  | nil => simp [numberFrom]
  | cons c ds ih =>
    have hcons : ∀ v, numberFrom v (c :: ds) = numberFrom (v * 10 + digit c) ds := fun _ => rfl
    rw [hcons, hcons, ih, ih (0 * 10 + digit c), List.length_cons]
    ring

theorem numberFrom_cons (c : UInt8) (ds : Bytes) :
    numberFrom 0 (c :: ds) = digit c * 10 ^ ds.length + numberFrom 0 ds := by
  rw [show numberFrom 0 (c :: ds) = numberFrom (0 * 10 + digit c) ds from rfl, numberFrom_eq,
    zero_mul, zero_add]

theorem numberFrom_bounds (h : ∀ c ∈ ds, avIsdigit c = true) :
    0 ≤ numberFrom 0 ds ∧ numberFrom 0 ds < 10 ^ ds.length := by
  induction ds with
  | nil => simp [numberFrom]
  | cons c ds ih =>
    obtain ⟨hlow, hhigh⟩ := digit_bounds (h c (by simp))
    obtain ⟨ihLow, ihHigh⟩ := ih (fun d hd => h d (by simp [hd]))
    have hpow : (0 : Int) < 10 ^ ds.length := by positivity
    rw [numberFrom_cons, List.length_cons, pow_succ]
    constructor
    · positivity
    · nlinarith

theorem dateGetNumLoop_digits (hds : ∀ c ∈ ds, avIsdigit c = true) (hlen : ds.length ≤ len)
    (hstop : ds.length = len ∨ NoDigit rest) (val : Int) :
    dateGetNumLoop len (ds ++ rest) val = (rest, numberFrom val ds) := by
  induction ds generalizing len val with
  | nil =>
    cases len with
    | zero => rfl
    | succ n =>
      cases rest with
      | nil => rfl
      | cons b rest =>
        have hb : avIsdigit b = false := by
          rcases hstop with hzero | hno
          · simp at hzero
          · exact hno b rfl
        simp [dateGetNumLoop, hb, numberFrom]
  | cons c ds ih =>
    cases len with
    | zero => simp at hlen
    | succ n =>
      simp only [List.length_cons, Nat.add_le_add_iff_right, Nat.add_right_cancel_iff] at hlen hstop
      have hstep := ih (fun d hd => hds d (by simp [hd])) hlen hstop (val * 10 + digit c)
      simpa [dateGetNumLoop, hds c (by simp), numberFrom] using hstep

theorem exists_digits (p : Bytes) (len : Nat) :
    ∃ ds rest, p = ds ++ rest ∧ (∀ c ∈ ds, avIsdigit c = true) ∧ ds.length ≤ len ∧
      (ds.length = len ∨ NoDigit rest) := by
  induction p generalizing len with
  | nil => exact ⟨[], [], rfl, by simp, by simp, Or.inr (by simp [NoDigit])⟩
  | cons c p ih =>
    cases len with
    | zero => exact ⟨[], c :: p, rfl, by simp, by simp, Or.inl rfl⟩
    | succ n =>
      by_cases hc : avIsdigit c = true
      · obtain ⟨ds, rest, rfl, hds, hlen, hstop⟩ := ih n
        refine ⟨c :: ds, rest, rfl, ?_, by simpa using hlen, by simpa using hstop⟩
        intro d hd
        rcases List.mem_cons.1 hd with rfl | hd
        · exact hc
        · exact hds d hd
      · refine ⟨[], c :: p, rfl, by simp, by simp, Or.inr ?_⟩
        intro d hd
        obtain rfl : c = d := by simpa using hd
        simpa using hc

theorem dateGetNum_digits (h : IsNumber ds len) (hstop : ds.length = len ∨ NoDigit rest)
    (hmin : nMin ≤ numberFrom 0 ds) (hmax : numberFrom 0 ds ≤ nMax) :
    dateGetNum (ds ++ rest) nMin nMax len = some (rest, numberFrom 0 ds) := by
  have hne : rest ≠ ds ++ rest := by
    intro heq
    have hlength := congrArg List.length heq
    have hpos := List.length_pos_iff.2 h.ne_nil
    rw [List.length_append] at hlength
    lia
  rw [dateGetNum, dateGetNumLoop_digits h.digits h.length_le hstop]
  dsimp only
  rw [if_neg hne, if_neg (by lia)]

theorem dateGetNum_some (h : dateGetNum p nMin nMax len = some (rest, val)) :
    ∃ ds, p = ds ++ rest ∧ IsNumber ds len ∧ (ds.length = len ∨ NoDigit rest) ∧
      val = numberFrom 0 ds ∧ nMin ≤ val ∧ val ≤ nMax := by
  obtain ⟨ds, rest', rfl, hds, hlen, hstop⟩ := exists_digits p len
  rw [dateGetNum, dateGetNumLoop_digits hds hlen hstop] at h
  dsimp only at h
  split at h
  · cases h
  · rename_i hne
    split at h
    · cases h
    · rename_i hrange
      cases h
      refine ⟨ds, rfl, ⟨hds, ?_, hlen⟩, hstop, rfl, by lia, by lia⟩
      rintro rfl
      exact hne rfl

/-! ## Formats -/

theorem strptime_conversion (c : UInt8) (fmt p : Bytes) (dt : Tm) :
    strptimeLoop conversion (37 :: c :: fmt) p dt = match conversion c p dt with
      | (dt, none) => (dt, none)
      | (dt, some p) => strptimeLoop conversion fmt p dt := by
  rw [strptimeLoop.eq_def]
  rfl

/-- A conversion that reads a number into a field. -/
structure Reads (c : UInt8) (nMax : Int) (len : Nat) (set : Tm → Int → Tm) : Prop where
  eq : ∀ p dt, conversion c p dt = store dt (set dt) (dateGetNum p 0 nMax len)

theorem reads_hour : Reads 74 intMax 4 fun dt val => { dt with hour := val } := ⟨fun _ _ => rfl⟩

theorem reads_min : Reads 77 59 2 fun dt val => { dt with min := val } := ⟨fun _ _ => rfl⟩

theorem reads_sec : Reads 83 59 2 fun dt val => { dt with sec := val } := ⟨fun _ _ => rfl⟩

section Reads

variable {set : Tm → Int → Tm}

theorem Reads.some (h : Reads c nMax len set) (hds : IsNumber ds len)
    (hstop : ds.length = len ∨ NoDigit rest) (hmax : numberFrom 0 ds ≤ nMax) :
    strptimeLoop conversion (37 :: c :: fmt) (ds ++ rest) dt =
      strptimeLoop conversion fmt rest (set dt (numberFrom 0 ds)) := by
  rw [strptime_conversion, h.eq, dateGetNum_digits hds hstop (numberFrom_bounds hds.digits).1 hmax]
  rfl

theorem Reads.none (h : Reads c nMax len set) (hno : dateGetNum p 0 nMax len = none) :
    strptimeLoop conversion (37 :: c :: fmt) p dt = (dt, none) := by
  rw [strptime_conversion, h.eq, hno]
  rfl

theorem Reads.inv (h : Reads c nMax len set) {dt' : Tm} {q : Bytes}
    (hrun : strptimeLoop conversion (37 :: c :: fmt) p dt = (dt', Option.some q)) :
    ∃ ds rest, p = ds ++ rest ∧ IsNumber ds len ∧ numberFrom 0 ds ≤ nMax ∧
      (ds.length = len ∨ NoDigit rest) ∧
      strptimeLoop conversion fmt rest (set dt (numberFrom 0 ds)) = (dt', Option.some q) := by
  cases hnum : dateGetNum p 0 nMax len with
  | none =>
    rw [h.none hnum] at hrun
    cases hrun
  | some r =>
    obtain ⟨rest, val⟩ := r
    obtain ⟨ds, rfl, hds, hstop, rfl, hmin, hmax⟩ := dateGetNum_some hnum
    rw [h.some hds hstop hmax] at hrun
    exact ⟨ds, rest, rfl, hds, hmax, hstop, hrun⟩

end Reads

theorem strptime_colon (p : Bytes) :
    strptimeLoop conversion (58 :: fmt) (58 :: p) dt = strptimeLoop conversion fmt p dt := by
  rw [strptimeLoop.eq_def]
  dsimp only
  rw [if_pos (by decide), if_neg (by decide)]
  exact if_neg (by simp)

theorem strptime_noColon (h : p.head? ≠ some 58) :
    strptimeLoop conversion (58 :: fmt) p dt = (dt, none) := by
  rw [strptimeLoop.eq_def]
  dsimp only
  rw [if_pos (by decide), if_neg (by decide)]
  cases p with
  | nil => rfl
  | cons b p => exact if_pos (by simpa using h)

variable {q : Bytes}

theorem strptime_colon_inv {dt' : Tm}
    (hrun : strptimeLoop conversion (58 :: fmt) p dt = (dt', some q)) :
    ∃ rest, p = 58 :: rest ∧ strptimeLoop conversion fmt rest dt = (dt', some q) := by
  by_cases h : p.head? = some 58
  · obtain ⟨rest, rfl⟩ := List.head?_eq_some_iff.1 h
    rw [strptime_colon] at hrun
    exact ⟨rest, rfl, hrun⟩
  · rw [strptime_noColon h] at hrun
    cases hrun

/-! ## The clock -/

/-- The part of a duration in front of the decimal part: `[[H:]MM:]SS`, or a count of seconds as
`strtoll` reads it. -/
inductive Body
  | clock (hour : Option Bytes) (min sec : Bytes)
  | count (blank : Bytes) (sign : Option UInt8) (digits : Bytes)
  deriving DecidableEq, Repr

def Body.text : Body → Bytes
  | .clock none min sec => min ++ 58 :: sec
  | .clock (some hour) min sec => hour ++ 58 :: (min ++ 58 :: sec)
  | .count blank sign digits => blank ++ (sign.toList ++ digits)

/-- The seconds. -/
def Body.value : Body → Int
  | .clock hour min sec =>
    numberFrom 0 (hour.getD []) * 3600 + numberFrom 0 min * 60 + numberFrom 0 sec
  | .count _ sign digits => if sign = some 45 then -numberFrom 0 digits else numberFrom 0 digits

/-- Numbers of the right length, and less than sixty minutes and seconds. -/
def Body.Valid : Body → Prop
  | .clock hour min sec =>
    (∀ h, hour = some h → IsNumber h 4) ∧ IsNumber min 2 ∧ numberFrom 0 min ≤ 59 ∧
      IsNumber sec 2 ∧ numberFrom 0 sec ≤ 59
  | .count blank sign digits =>
    (∀ c ∈ blank, avIsspace c = true) ∧ (sign = none ∨ sign = some 43 ∨ sign = some 45) ∧
      IsNumber digits digits.length

/-- What may follow the body: neither a digit nor a colon. -/
structure Ends (q : Bytes) : Prop where
  noDigit : NoDigit q
  noColon : q.head? ≠ some 58

theorem noDigit_cons (h : avIsdigit c = false) (p : Bytes) : NoDigit (c :: p) := by
  intro d hd
  obtain rfl : c = d := by simpa using hd
  exact h

theorem IsNumber.mono {len' : Nat} (h : IsNumber ds len) (hle : len ≤ len') : IsNumber ds len' :=
  ⟨h.digits, h.ne_nil, h.length_le.trans hle⟩

theorem IsNumber.lt (h : IsNumber ds len) : numberFrom 0 ds < 10 ^ len :=
  lt_of_lt_of_le (numberFrom_bounds h.digits).2 (pow_le_pow_right₀ (by norm_num) h.length_le)

variable {hour : Option Bytes}

theorem clock_bounds {min sec : Bytes} (h : (Body.clock hour min sec).Valid) :
    (0 ≤ numberFrom 0 (hour.getD []) ∧ numberFrom 0 (hour.getD []) < 10 ^ 4) ∧
      (0 ≤ numberFrom 0 min ∧ numberFrom 0 min ≤ 59) ∧
      (0 ≤ numberFrom 0 sec ∧ numberFrom 0 sec ≤ 59) := by
  obtain ⟨hhour, hmin, hmin59, hsec, hsec59⟩ := h
  refine ⟨?_, ⟨(numberFrom_bounds hmin.digits).1, hmin59⟩, (numberFrom_bounds hsec.digits).1,
    hsec59⟩
  cases hour with
  | none => simp [numberFrom]
  | some hour => exact ⟨(numberFrom_bounds (hhour hour rfl).digits).1, (hhour hour rfl).lt⟩

theorem clockSeconds_eq {min sec : Bytes} (h : (Body.clock hour min sec).Valid)
    (hhour : dt.hour = numberFrom 0 (hour.getD [])) (hmin : dt.min = numberFrom 0 min)
    (hsec : dt.sec = numberFrom 0 sec) :
    clockSeconds dt = some (Body.clock hour min sec).value := by
  obtain ⟨⟨hhour0, hhourMax⟩, ⟨hmin0, hminMax⟩, hsec0, hsecMax⟩ := clock_bounds h
  rw [← hhour] at hhour0 hhourMax
  rw [← hmin] at hmin0 hminMax
  rw [← hsec] at hsec0 hsecMax
  have hop : ∀ x : Int, 0 ≤ x → x < 10 ^ 8 → intOp x = some x := by
    intro x h0 h1
    exact intOp_eq h0 (by unfold intMax; lia)
  rw [clockSeconds, hop _ (by lia) (by lia), Option.bind_eq_bind, Option.bind_some,
    hop _ (by lia) (by lia), Option.bind_some, hop _ (by lia) (by lia), Option.bind_some,
    hop _ (by lia) (by lia), Body.value, hhour, hmin, hsec]

/-- The text of a clock gives its fields, and what follows it is left. -/
theorem parseClock_clock {min sec : Bytes} (h : (Body.clock hour min sec).Valid) (hq : Ends q) :
    ∃ dt, parseClock ((Body.clock hour min sec).text ++ q) = (dt, some q) ∧
      clockSeconds dt = some (Body.clock hour min sec).value := by
  have hvalid := h
  obtain ⟨hhour, hmin, hmin59, hsec, hsec59⟩ := h
  have hcolon : ∀ p, NoDigit (58 :: p) := noDigit_cons (by decide)
  cases hour with
  | some hour =>
    have hnum := hhour hour rfl
    have hlt := hnum.lt
    have hpos := (numberFrom_bounds hnum.digits).1
    have htext : (Body.clock (some hour) min sec).text ++ q =
        hour ++ 58 :: (min ++ 58 :: (sec ++ q)) := by
      simp [Body.text]
    have hrun : avSmallStrptime (hour ++ 58 :: (min ++ 58 :: (sec ++ q))) jmsFmt {} =
        ({ hour := numberFrom 0 hour, min := numberFrom 0 min, sec := numberFrom 0 sec },
          some q) := by
      rw [avSmallStrptime, jmsFmt,
        reads_hour.some hnum (Or.inr (hcolon _)) (by unfold intMax; lia), strptime_colon,
        reads_min.some hmin (Or.inr (hcolon _)) hmin59, strptime_colon,
        reads_sec.some hsec (Or.inr hq.noDigit) hsec59]
      rfl
    refine ⟨{ hour := numberFrom 0 hour, min := numberFrom 0 min, sec := numberFrom 0 sec },
      ?_, clockSeconds_eq hvalid rfl rfl rfl⟩
    rw [htext, parseClock, hrun]
  | none =>
    have hlt := hmin.lt
    have htext : (Body.clock none min sec).text ++ q = min ++ 58 :: (sec ++ q) := by
      simp [Body.text]
    -- the minutes are taken for hours first
    have hfirst : avSmallStrptime (min ++ 58 :: (sec ++ q)) jmsFmt {} =
        ({ hour := numberFrom 0 min, min := numberFrom 0 sec }, none) := by
      rw [avSmallStrptime, jmsFmt, reads_hour.some (hmin.mono (by norm_num)) (Or.inr (hcolon _))
        (by unfold intMax; lia), strptime_colon,
        reads_min.some hsec (Or.inr hq.noDigit) hsec59, strptime_noColon hq.noColon]
    have hsecond : ∀ dt, avSmallStrptime (min ++ 58 :: (sec ++ q)) msFmt dt =
        ({ dt with min := numberFrom 0 min, sec := numberFrom 0 sec }, some q) := by
      intro dt
      rw [avSmallStrptime, msFmt, reads_min.some hmin (Or.inr (hcolon _)) hmin59, strptime_colon,
        reads_sec.some hsec (Or.inr hq.noDigit) hsec59]
      rfl
    refine ⟨{ hour := 0, min := numberFrom 0 min, sec := numberFrom 0 sec }, ?_,
      clockSeconds_eq hvalid rfl rfl rfl⟩
    rw [htext, parseClock, hfirst]
    dsimp only
    rw [hsecond]

/-- What is taken for a clock is one. -/
theorem parseClock_inv (h : parseClock p = (dt, some q)) :
    ∃ hour min sec, (Body.clock hour min sec).Valid ∧ p = (Body.clock hour min sec).text ++ q ∧
      clockSeconds dt = some (Body.clock hour min sec).value := by
  rw [parseClock] at h
  rcases hfirst : avSmallStrptime p jmsFmt {} with ⟨dt', q'⟩
  rw [hfirst] at h
  cases q' with
  | some q' =>
    dsimp only at h
    cases h
    obtain ⟨hour, p1, rfl, hhour, -, -, h1⟩ := reads_hour.inv hfirst
    obtain ⟨p2, rfl, h2⟩ := strptime_colon_inv h1
    obtain ⟨min, p3, rfl, hmin, hmin59, -, h3⟩ := reads_min.inv h2
    obtain ⟨p4, rfl, h4⟩ := strptime_colon_inv h3
    obtain ⟨sec, p5, rfl, hsec, hsec59, -, h5⟩ := reads_sec.inv h4
    rw [strptimeLoop] at h5
    cases h5
    have hvalid : (Body.clock (some hour) min sec).Valid := by
      refine ⟨?_, hmin, hmin59, hsec, hsec59⟩
      intro h hh
      cases hh
      exact hhour
    exact ⟨some hour, min, sec, hvalid, by simp [Body.text], clockSeconds_eq hvalid rfl rfl rfl⟩
  | none =>
    dsimp only at h
    rcases hsecond : avSmallStrptime p msFmt dt' with ⟨dt2, q2⟩
    rw [hsecond] at h
    cases h
    obtain ⟨min, p3, rfl, hmin, hmin59, -, h3⟩ := reads_min.inv hsecond
    obtain ⟨p4, rfl, h4⟩ := strptime_colon_inv h3
    obtain ⟨sec, p5, rfl, hsec, hsec59, -, h5⟩ := reads_sec.inv h4
    rw [strptimeLoop] at h5
    cases h5
    have hvalid : (Body.clock none min sec).Valid := ⟨by simp, hmin, hmin59, hsec, hsec59⟩
    exact ⟨none, min, sec, hvalid, by simp [Body.text], clockSeconds_eq hvalid rfl rfl rfl⟩

theorem digits_unique {es rest' : Bytes} (hds : ∀ c ∈ ds, avIsdigit c = true)
    (hes : ∀ c ∈ es, avIsdigit c = true) (hrest : NoDigit rest) (hrest' : NoDigit rest')
    (heq : ds ++ rest = es ++ rest') : ds = es ∧ rest = rest' := by
  induction ds generalizing es with
  | nil =>
    cases es with
    | nil => exact ⟨rfl, heq⟩
    | cons e es =>
      have hdigit := hes e (by simp)
      rw [List.nil_append, List.cons_append] at heq
      rw [hrest e (by rw [heq]; rfl)] at hdigit
      cases hdigit
  | cons d ds ih =>
    cases es with
    | nil =>
      have hdigit := hds d (by simp)
      rw [List.nil_append, List.cons_append] at heq
      rw [hrest' d (by rw [← heq]; rfl)] at hdigit
      cases hdigit
    | cons e es =>
      simp only [List.cons_append, List.cons.injEq] at heq
      obtain ⟨rfl, htail⟩ := heq
      obtain ⟨rfl, rfl⟩ := ih (fun c hc => hds c (by simp [hc]))
        (fun c hc => hes c (by simp [hc])) htail
      exact ⟨rfl, rfl⟩

theorem clock_text {min sec : Bytes} (h : (Body.clock hour min sec).Valid) :
    ∃ ds r, (Body.clock hour min sec).text = ds ++ 58 :: r ∧
      (∀ c ∈ ds, avIsdigit c = true) ∧ ds ≠ [] := by
  obtain ⟨hhour, hmin, -⟩ := h
  cases hour with
  | none => exact ⟨min, sec, rfl, hmin.digits, hmin.ne_nil⟩
  | some hour => exact ⟨hour, _, rfl, (hhour hour rfl).digits, (hhour hour rfl).ne_nil⟩

theorem not_digit_of_isspace (h : avIsspace c = true) : avIsdigit c = false := by
  simp only [avIsspace, Bool.or_eq_true, beq_iff_eq, Bool.and_eq_true, decide_eq_true_eq] at h
  simp only [avIsdigit, Bool.and_eq_false_iff, decide_eq_false_iff_not]
  left
  rcases h with rfl | ⟨-, hle⟩
  · decide
  · intro hge
    have hnever : (48 : UInt8) ≤ 13 := UInt8.le_trans hge hle
    exact absurd hnever (by decide)

variable {sign : Option UInt8}

/-- A count does not have one. -/
theorem parseClock_count {blank digits : Bytes} (h : (Body.count blank sign digits).Valid)
    (hq : Ends q) :
    (parseClock ((Body.count blank sign digits).text ++ q)).2 = none := by
  obtain ⟨hblank, hsign, hdigits⟩ := h
  rcases hrun : parseClock ((Body.count blank sign digits).text ++ q) with ⟨dt, q'⟩
  cases q' with
  | none => rfl
  | some q' =>
    obtain ⟨hour, min, sec, hvalid, htext, -⟩ := parseClock_inv hrun
    obtain ⟨ds, r, hclock, hds, hne⟩ := clock_text hvalid
    obtain ⟨d, ds', rfl⟩ := List.exists_cons_of_ne_nil hne
    rw [hclock] at htext
    simp only [Body.text, List.append_assoc, List.cons_append] at htext
    have hd := hds d (by simp)
    exfalso
    cases blank with
    | cons b blank =>
      simp only [List.cons_append, List.cons.injEq] at htext
      rw [← htext.1, not_digit_of_isspace (hblank b (by simp))] at hd
      cases hd
    | nil =>
      rw [List.nil_append] at htext
      rcases hsign with rfl | rfl | rfl
      · have hunique := digits_unique hdigits.digits hds hq.noDigit
          (noDigit_cons (show avIsdigit 58 = false by decide) (r ++ q'))
          (by simpa using htext)
        exact hq.noColon (by rw [hunique.2]; rfl)
      · simp only [Option.toList_some, List.cons_append, List.nil_append, List.cons.injEq] at htext
        rw [← htext.1] at hd
        exact absurd hd (by decide)
      · simp only [Option.toList_some, List.cons_append, List.nil_append, List.cons.injEq] at htext
        rw [← htext.1] at hd
        exact absurd hd (by decide)

/-! ## Counts of seconds -/

theorem takeWhile_digits (hds : ∀ c ∈ ds, avIsdigit c = true) (hrest : NoDigit rest) :
    (ds ++ rest).takeWhile avIsdigit = ds := by
  rw [List.takeWhile_append_of_pos hds]
  cases rest with
  | nil => simp
  | cons c rest => simp [hrest c rfl]

theorem dropWhile_digits (hds : ∀ c ∈ ds, avIsdigit c = true) (hrest : NoDigit rest) :
    (ds ++ rest).dropWhile avIsdigit = rest := by
  rw [List.dropWhile_append_of_pos hds]
  cases rest with
  | nil => rfl
  | cons c rest => simp [hrest c rfl]

/-- The number is read, or it is out of range. -/
theorem strtoll_count {blank digits : Bytes} (h : (Body.count blank sign digits).Valid)
    (hq : NoDigit q) :
    ∃ value erange, strtoll ((Body.count blank sign digits).text ++ q) = ⟨value, q, erange⟩ ∧
      (erange = true ↔ ¬ IsInt64 (Body.count blank sign digits).value) ∧
      (IsInt64 (Body.count blank sign digits).value →
        value = (Body.count blank sign digits).value) := by
  obtain ⟨hblank, hsign, hdigits⟩ := h
  obtain ⟨d, ds, rfl⟩ := List.exists_cons_of_ne_nil hdigits.ne_nil
  have hd := hdigits.digits d (by simp)
  have hspace : ∀ c, avIsspace c = true → avIsdigit c = false := fun c => not_digit_of_isspace
  have htext : (Body.count blank sign (d :: ds)).text ++ q =
      blank ++ (sign.toList ++ (d :: ds ++ q)) := by
    simp [Body.text]
  -- neither a sign nor a digit is white space
  have hskip : (blank ++ (sign.toList ++ (d :: ds ++ q))).dropWhile avIsspace =
      sign.toList ++ (d :: ds ++ q) := by
    rw [List.dropWhile_append_of_pos hblank]
    have hdspace : avIsspace d = false := by
      by_contra hcontra
      rw [hspace d (by simpa using hcontra)] at hd
      cases hd
    rcases hsign with rfl | rfl | rfl
    · simp [hdspace]
    · rfl
    · rfl
  have hsigned : sign = some 45 ↔ (sign.toList ++ (d :: ds ++ q)).head? = some 45 := by
    rcases hsign with rfl | rfl | rfl
    · simp only [Option.toList_none, List.nil_append, List.cons_append, List.head?_cons,
        Option.some.injEq, reduceCtorEq, false_iff]
      rintro rfl
      exact absurd hd (by decide)
    · simp
    · simp
  have hrest : (if (sign.toList ++ (d :: ds ++ q)).head? = some 45 ∨
      (sign.toList ++ (d :: ds ++ q)).head? = some 43 then
        (sign.toList ++ (d :: ds ++ q)).tail
      else sign.toList ++ (d :: ds ++ q)) = d :: ds ++ q := by
    rcases hsign with rfl | rfl | rfl
    · refine if_neg ?_
      simp only [Option.toList_none, List.nil_append, List.cons_append, List.head?_cons,
        Option.some.injEq]
      rintro (rfl | rfl)
      · exact absurd hd (by decide)
      · exact absurd hd (by decide)
    · simp
    · simp
  have hmin : int64Min ≤ 0 := by decide
  have hmax : 0 ≤ int64Max := by decide
  rw [htext, strtoll, hskip, hrest, takeWhile_digits hdigits.digits hq,
    dropWhile_digits hdigits.digits hq, if_neg hdigits.ne_nil]
  simp only [← hsigned]
  have hvalue : (if sign = some 45 then -numberFrom 0 (d :: ds) else numberFrom 0 (d :: ds)) =
      (Body.count blank sign (d :: ds)).value := rfl
  rw [hvalue]
  generalize (Body.count blank sign (d :: ds)).value = v
  unfold IsInt64
  by_cases hbig : int64Max < v
  · rw [if_pos hbig]
    exact ⟨_, _, rfl, by simp [hbig.not_ge], fun h => absurd h.2 hbig.not_ge⟩
  · rw [if_neg hbig]
    by_cases hsmall : v < int64Min
    · rw [if_pos hsmall]
      exact ⟨_, _, rfl, by simp [hsmall.not_ge], fun h => absurd h.1 hsmall.not_ge⟩
    · rw [if_neg hsmall]
      exact ⟨_, _, rfl, by simp [not_lt.1 hbig, not_lt.1 hsmall], fun _ => rfl⟩

/-- What `strtoll` reads is a count. -/
theorem strtoll_inv (p : Bytes) :
    (strtoll p).rest = p ∨ ∃ blank sign digits, (Body.count blank sign digits).Valid ∧
      p = (Body.count blank sign digits).text ++ (strtoll p).rest ∧ NoDigit (strtoll p).rest := by
  have hblank : ∀ c ∈ p.takeWhile avIsspace, avIsspace c = true := fun c hc =>
    List.mem_takeWhile_imp hc
  have hsplit := List.takeWhile_append_dropWhile (p := avIsspace) (l := p)
  unfold strtoll
  dsimp only
  generalize p.takeWhile avIsspace = blank at *
  generalize p.dropWhile avIsspace = q at *
  obtain ⟨sign, r, hsign, hq, hr⟩ : ∃ (sign : Option UInt8) (r : Bytes),
      (sign = none ∨ sign = some 43 ∨ sign = some 45) ∧ q = sign.toList ++ r ∧
        (if q.head? = some 45 ∨ q.head? = some 43 then q.tail else q) = r := by
    by_cases h : q.head? = some 45 ∨ q.head? = some 43
    · rw [if_pos h]
      rcases h with hminus | hplus
      · obtain ⟨r, rfl⟩ := List.head?_eq_some_iff.1 hminus
        exact ⟨some 45, r, by simp, rfl, rfl⟩
      · obtain ⟨r, rfl⟩ := List.head?_eq_some_iff.1 hplus
        exact ⟨some 43, r, by simp, rfl, rfl⟩
    · rw [if_neg h]
      exact ⟨none, q, by simp, rfl, rfl⟩
  rw [hr]
  have hdigits : ∀ c ∈ r.takeWhile avIsdigit, avIsdigit c = true := fun c hc =>
    List.mem_takeWhile_imp hc
  have hrsplit := List.takeWhile_append_dropWhile (p := avIsdigit) (l := r)
  have hno : NoDigit (r.dropWhile avIsdigit) := by
    intro c hc
    have hnot := List.head?_dropWhile_not avIsdigit r
    rw [hc] at hnot
    simpa using hnot
  generalize r.takeWhile avIsdigit = digits at *
  generalize r.dropWhile avIsdigit = rest at *
  by_cases hnil : digits = []
  · left
    rw [if_pos hnil]
  · right
    rw [if_neg hnil]
    refine ⟨blank, sign, digits, ⟨hblank, hsign, hdigits, hnil, le_rfl⟩, ?_⟩
    have hp : p = (Body.count blank sign digits).text ++ rest := by
      rw [← hsplit, hq, ← hrsplit]
      simp [Body.text]
    generalize (if q.head? = some 45 then -numberFrom 0 digits else numberFrom 0 digits) = n
    split
    · exact ⟨hp, hno⟩
    · split
      · exact ⟨hp, hno⟩
      · exact ⟨hp, hno⟩

/-! ## The decimal part and the unit -/

/-- The unit at the end. -/
inductive DurationUnit
  | none | s | ms | us
  deriving DecidableEq, Repr

def DurationUnit.text : DurationUnit → Bytes
  | .none => []
  | .s => [115]
  | .ms => [109, 115]
  | .us => [117, 115]

/-- The microseconds of the unit. -/
def DurationUnit.scale : DurationUnit → Int
  | .none => 1000000
  | .s => 1000000
  | .ms => 1000
  | .us => 1

/-- A point and digits behind it, then the unit. -/
def tailText (fraction : Option Bytes) (unit : DurationUnit) : Bytes :=
  match fraction with
  | none => unit.text
  | some f => 46 :: (f ++ unit.text)

/-- The part of the unit that the digits behind the point stand for, truncated. -/
def fractionMicros (fraction : Option Bytes) (unit : DurationUnit) : Int :=
  numberFrom 0 (fraction.getD []) * unit.scale / 10 ^ (fraction.getD []).length

/-- Digits, if there is a point. -/
def ValidFraction (fraction : Option Bytes) : Prop :=
  ∀ f, fraction = some f → ∀ c ∈ f, avIsdigit c = true

theorem unit_noDigit (unit : DurationUnit) : NoDigit unit.text := by
  cases unit with
  | none => simp [NoDigit, DurationUnit.text]
  | s => exact noDigit_cons (by decide) []
  | ms => exact noDigit_cons (by decide) [115]
  | us => exact noDigit_cons (by decide) [115]

theorem tail_ends (fraction : Option Bytes) (unit : DurationUnit) :
    Ends (tailText fraction unit) := by
  cases fraction with
  | some f => exact ⟨noDigit_cons (by decide) _, by simp [tailText]⟩
  | none =>
    refine ⟨unit_noDigit unit, ?_⟩
    cases unit <;> simp [tailText, DurationUnit.text]

/-- The weight of a digit: a power of ten, and at last zero. -/
def weight (k : Nat) : Int := if k = 0 then 0 else 10 ^ (k - 1)

/-- The loop truncates the digits behind the point. -/
theorem fractionLoop_eq {f : Bytes} {k : Nat} {micros : Int} (hf : ∀ c ∈ f, avIsdigit c = true)
    (hq : NoDigit q) (h0 : 0 ≤ micros) (hk : micros + 10 ^ k ≤ 10 ^ 6) :
    fractionLoop (weight k) (f ++ q) micros =
      some (micros + numberFrom 0 f * 10 ^ k / 10 ^ f.length, f.drop k ++ q) := by
  induction f generalizing k micros with
  | nil =>
    cases q with
    | nil => simp [fractionLoop, numberFrom]
    | cons c q => simp [fractionLoop, numberFrom, hq c rfl]
  | cons c f ih =>
    have hc := hf c (by simp)
    obtain ⟨hlow, hhigh⟩ := digit_bounds hc
    have hrest : ∀ d ∈ f, avIsdigit d = true := fun d hd => hf d (by simp [hd])
    cases k with
    | zero =>
      have hsmall := numberFrom_bounds hf
      rw [pow_zero, mul_one, Int.ediv_eq_zero_of_lt hsmall.1 hsmall.2]
      simp [fractionLoop, weight]
    | succ k =>
      have hpow : (0 : Int) < 10 ^ k := by positivity
      have hterm : 10 ^ k * digit c ≤ 10 ^ k * 9 := mul_le_mul_of_nonneg_left hhigh hpow.le
      have hterm0 : 0 ≤ 10 ^ k * digit c := mul_nonneg hpow.le hlow
      have hmax : (10 : Int) ^ 6 ≤ intMax := by decide
      rw [pow_succ] at hk
      have hnext : ((10 : Int) ^ k).tdiv 10 = weight k := by
        cases k with
        | zero => rfl
        | succ k =>
          rw [pow_succ, Int.mul_tdiv_cancel _ (by norm_num)]
          rfl
      have hvalue : numberFrom 0 (c :: f) * 10 ^ (k + 1) / 10 ^ (c :: f).length =
          10 ^ k * digit c + numberFrom 0 f * 10 ^ k / 10 ^ f.length := by
        have hlen : (10 : Int) ^ f.length ≠ 0 := by positivity
        rw [numberFrom_cons, List.length_cons, pow_succ, pow_succ, ← mul_assoc,
          Int.mul_ediv_mul_of_pos_left _ _ (by norm_num)]
        rw [show (digit c * 10 ^ f.length + numberFrom 0 f) * 10 ^ k =
          numberFrom 0 f * 10 ^ k + 10 ^ k * digit c * 10 ^ f.length by ring,
          Int.add_mul_ediv_right _ _ hlen]
        ring
      have hstep := @ih k (micros + 10 ^ k * digit c) hrest (by lia) (by lia)
      rw [hvalue, List.cons_append, fractionLoop, weight, if_neg (Nat.succ_ne_zero k),
        Nat.add_sub_cancel, if_neg (by simp [hc]; lia), intOp_eq hterm0 (by lia),
        Option.bind_eq_bind, Option.bind_some, intOp_eq (by lia) (by lia), Option.bind_some,
        hnext, hstep]
      simp [add_assoc]

theorem fraction_lt {f : Bytes} (hf : ∀ c ∈ f, avIsdigit c = true) (k : Nat) :
    0 ≤ numberFrom 0 f * 10 ^ k / 10 ^ f.length ∧
      numberFrom 0 f * 10 ^ k / 10 ^ f.length < 10 ^ k := by
  obtain ⟨hlow, hhigh⟩ := numberFrom_bounds hf
  have hlen : (0 : Int) < 10 ^ f.length := by positivity
  have hpow : (0 : Int) < 10 ^ k := by positivity
  constructor
  · exact Int.ediv_nonneg (mul_nonneg hlow hpow.le) hlen.le
  · rw [Int.ediv_lt_iff_lt_mul hlen, mul_comm (10 ^ k)]
    exact mul_lt_mul_of_pos_right hhigh hpow

variable {fraction : Option Bytes}

theorem fractionPart_tail (h : ValidFraction fraction) (unit : DurationUnit) :
    fractionPart (tailText fraction unit) =
      some (numberFrom 0 (fraction.getD []) * 10 ^ 6 / 10 ^ (fraction.getD []).length,
        unit.text) := by
  cases fraction with
  | none => cases unit <;> rfl
  | some f =>
    have hf := h f rfl
    have hloop := fractionLoop_eq (k := 6) hf (unit_noDigit unit) le_rfl (by norm_num)
    rw [show weight 6 = 100000 from rfl, zero_add] at hloop
    rw [tailText, fractionPart]
    simp only [List.head?_cons, List.tail_cons, if_true]
    rw [hloop, Option.bind_eq_bind, Option.bind_some]
    have hskip : (f.drop 6 ++ unit.text).dropWhile avIsdigit = unit.text :=
      dropWhile_digits (fun c hc => hf c (List.mem_of_mem_drop hc)) (unit_noDigit unit)
    simp [hskip]

theorem unitPart_text {f : Bytes} (hf : ∀ c ∈ f, avIsdigit c = true) (unit : DurationUnit) :
    unitPart (numberFrom 0 f * 10 ^ 6 / 10 ^ f.length) unit.text =
      (unit.scale, numberFrom 0 f * unit.scale / 10 ^ f.length, []) := by
  cases unit with
  | none => rfl
  | s => rfl
  | ms =>
    have hthousand : (numberFrom 0 f * 10 ^ 6 / 10 ^ f.length).tdiv 1000 =
        numberFrom 0 f * 1000 / 10 ^ f.length := by
      have hlen : (0 : Int) ≤ 10 ^ f.length := by positivity
      rw [Int.tdiv_eq_ediv_of_nonneg (fraction_lt hf 6).1, Int.ediv_ediv_of_nonneg hlen,
        show numberFrom 0 f * 10 ^ 6 = numberFrom 0 f * 1000 * 1000 by ring,
        Int.mul_ediv_mul_of_pos_left _ _ (by norm_num)]
    rw [DurationUnit.scale, ← hthousand]
    rfl
  | us =>
    have hzero := Int.ediv_eq_zero_of_lt (numberFrom_bounds hf).1 (numberFrom_bounds hf).2
    show (1, 0, []) = (1, numberFrom 0 f * 1 / 10 ^ f.length, [])
    rw [mul_one, hzero]

theorem parseTail_tail (h : ValidFraction fraction) (unit : DurationUnit) (negative : Bool)
    (t : Int) :
    parseTail negative t (tailText fraction unit) =
      scaleTime negative t unit.scale (fractionMicros fraction unit) := by
  have hf : ∀ c ∈ fraction.getD [], avIsdigit c = true := by
    cases fraction with
    | none => simp
    | some f => exact h f rfl
  rw [parseTail, fractionPart_tail h, Option.bind_eq_bind, Option.bind_some]
  dsimp only
  rw [unitPart_text hf]
  exact if_neg (fun hne => hne rfl)

/-- Any other text is refused. -/
theorem parseTail_inv (negative : Bool) (t : Int) (q : Bytes) :
    parseTail negative t q = some (failed .einval) ∨
      ∃ fraction unit, ValidFraction fraction ∧ q = tailText fraction unit := by
  obtain ⟨fraction, micros, r, hvalid, hq, hpart⟩ : ∃ fraction micros r, ValidFraction fraction ∧
      (∀ unit : DurationUnit, r = unit.text → q = tailText fraction unit) ∧
        fractionPart q = some (micros, r) := by
    by_cases hpoint : q.head? = some 46
    · obtain ⟨q, rfl⟩ := List.head?_eq_some_iff.1 hpoint
      obtain ⟨f, r, rfl, hf, -, hstop⟩ := exists_digits q q.length
      have hno : NoDigit r := by
        rcases hstop with hlen | hno
        · -- everything was a digit
          rw [List.length_append] at hlen
          obtain rfl : r = [] := List.length_eq_zero_iff.1 (by lia)
          simp [NoDigit]
        · exact hno
      have hloop := fractionLoop_eq (k := 6) hf hno le_rfl (by norm_num)
      rw [show weight 6 = 100000 from rfl] at hloop
      refine ⟨some f, 0 + numberFrom 0 f * 10 ^ 6 / 10 ^ f.length, r, ?_, ?_, ?_⟩
      · intro f' hf'
        cases hf'
        exact hf
      · rintro unit rfl
        rfl
      · rw [fractionPart, if_pos hpoint, List.tail_cons, hloop, Option.bind_eq_bind,
          Option.bind_some]
        dsimp only
        rw [dropWhile_digits (fun c hc => hf c (List.mem_of_mem_drop hc)) hno]
    · refine ⟨none, 0, q, by simp [ValidFraction], fun unit h => h, ?_⟩
      rw [fractionPart, if_neg hpoint]
  rw [parseTail, hpart, Option.bind_eq_bind, Option.bind_some]
  have hunit : (unitPart micros r).2.2 = [] → ∃ unit : DurationUnit, r = unit.text := by
    intro hnil
    unfold unitPart at hnil
    have htake := List.take_append_drop 2 r
    split at hnil
    · rename_i hms
      dsimp only at hnil
      rw [hms, hnil] at htake
      exact ⟨.ms, htake.symm⟩
    · split at hnil
      · rename_i hus
        dsimp only at hnil
        rw [hus, hnil] at htake
        exact ⟨.us, htake.symm⟩
      · split at hnil
        · rename_i hs
          obtain ⟨r, rfl⟩ := List.head?_eq_some_iff.1 hs
          obtain rfl : r = [] := hnil
          exact ⟨.s, rfl⟩
        · exact ⟨.none, hnil⟩
  by_cases hnil : (unitPart micros r).2.2 = []
  · obtain ⟨unit, hr⟩ := hunit hnil
    exact Or.inr ⟨fraction, unit, hvalid, hq unit hr⟩
  · exact Or.inl (if_pos hnil)

end FFmpeg.Libavutil.ParseUtils
