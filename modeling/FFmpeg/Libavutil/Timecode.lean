import FFmpeg.Libavutil.ParseUtils
import FFmpeg.Libavutil.ParseDurationReads

/-!
# Timecodes

The labels of `libavutil/timecode.c`: as a string, as the binary word of SMPTE 12M, and read back by
`sscanf`.  A result that is missing means that a signed operation overflows, that a number does not
fit its `int`, or that a division is by zero.  The text of the log messages is left out.
-/

namespace FFmpeg.Libavutil.Timecode

open Common ParseUtils

/-- `enum AVTimecodeFlag`. -/
structure AVTimecodeFlags where
  dropframe : Bool := false
  hours24max : Bool := false
  allownegative : Bool := false
  deriving DecidableEq, Repr

/-- `AVTimecode`; `fps` is unsigned. -/
structure AVTimecode where
  start : Int
  flags : AVTimecodeFlags
  rate : AVRational
  fps : Nat
  deriving DecidableEq, Repr

/-! ## Labels -/

/-- The frames that a drop frame label leaves out, and the frames of ten minutes. -/
def adjustDrop (framenum dropFrames framesPer10mins : Int) : Int :=
  let d := framenum.tdiv framesPer10mins
  let m := framenum.tmod framesPer10mins
  toInt32 (framenum + 9 * dropFrames * d +
    dropFrames * (m - dropFrames).tdiv (framesPer10mins.tdiv 10))

/-- `av_timecode_adjust_ntsc_framenum2`. -/
def avTimecodeAdjustNtscFramenum2 (framenum fps : Int) : Int :=
  if fps = 30 then adjustDrop framenum 2 17982
  else if fps = 60 then adjustDrop framenum 4 35964
  else framenum

/-- The number of a frame, counted from the label zero. -/
def adjusted (tc : AVTimecode) (framenum : Int) : Option Int := do
  let framenum ← intOp (framenum + tc.start)
  some (if tc.flags.dropframe then avTimecodeAdjustNtscFramenum2 framenum (toInt32 tc.fps)
    else framenum)

/-- The fields of a label. -/
structure Label where
  hh : Nat
  mm : Nat
  ss : Nat
  ff : Nat
  deriving DecidableEq, Repr

/-- The word of SMPTE 12M: the drop frame flag and the digits of the fields.  What a shift moves out
of the word is lost. -/
def smpteWord (drop : Bool) (l : Label) : Nat :=
  ((if drop then 1 else 0) <<< 30 ||| (l.ff / 10) <<< 28 ||| (l.ff % 10) <<< 24 |||
    (l.ss / 10) <<< 20 ||| (l.ss % 10) <<< 16 ||| (l.mm / 10) <<< 12 ||| (l.mm % 10) <<< 8 |||
    (l.hh / 10) <<< 4 ||| (l.hh % 10)) % 2 ^ 32

/-- `av_timecode_get_smpte_from_framenum`, for a rate that fits an `int`. -/
def avTimecodeGetSmpteFromFramenum (tc : AVTimecode) (framenum : Int) : Option Nat := do
  let framenum ← adjusted tc framenum
  let framenum := toUint32 framenum
  let fps := tc.fps
  if fps = 0 ∨ fps * 60 % 2 ^ 32 = 0 ∨ fps * 3600 % 2 ^ 32 = 0 then none
  else
    let ff := framenum % fps
    let ss := framenum / fps % 60
    let mm := framenum / (fps * 60 % 2 ^ 32) % 60
    let hh := framenum / (fps * 3600 % 2 ^ 32) % 24
    some (smpteWord tc.flags.dropframe ⟨hh, mm, ss, ff⟩)

/-- A number in decimal digits. -/
def decimal (n : Nat) : Bytes := (Nat.toDigits 10 n).map fun ch => UInt8.ofNat ch.toNat

/-- `%02d`, for numbers that are not negative. -/
def twoDigits (n : Nat) : Bytes := if n < 10 then 48 :: decimal n else decimal n

/-- `%02d:%02d:%02d%c%02d`. -/
def Label.text (l : Label) (c : UInt8) : Bytes :=
  twoDigits l.hh ++ [58] ++ twoDigits l.mm ++ [58] ++ twoDigits l.ss ++ [c] ++ twoDigits l.ff

/-- The separator in front of the frames. -/
def separator (drop : Bool) : UInt8 := if drop then 59 else 58

/-- `snprintf` into `AV_TIMECODE_STR_SIZE` bytes. -/
def snprintf (text : Bytes) : Bytes := text.take 22

/-- `av_timecode_make_string`. -/
def avTimecodeMakeString (tc : AVTimecode) (framenum : Int) : Option Bytes := do
  let fps := toInt32 tc.fps
  let framenum ← adjusted tc framenum
  let neg : Bool := framenum < 0 && tc.flags.allownegative
  let framenum ← if framenum < 0 then intOp (-framenum) else some framenum
  let perMinute ← intOp (fps * 60)
  let perHour ← intOp (fps * 3600)
  if fps = 0 then none
  else
    let ff := framenum.tmod fps
    let ss := (framenum.tdiv fps).tmod 60
    let mm := (framenum.tdiv perMinute).tmod 60
    let hh := framenum.tdiv perHour
    let hh := if tc.flags.hours24max then hh.tmod 24 else hh
    let label : Label := ⟨hh.toNat, mm.toNat, ss.toNat, ff.toNat⟩
    some (snprintf ((if neg then [45] else []) ++ label.text (separator tc.flags.dropframe)))

/-- `bcd2uint`. -/
def bcd2uint (bcd : Nat) : Nat :=
  let low := bcd &&& 0xF
  let high := bcd >>> 4
  if 9 < low ∨ 9 < high then 0 else low + 10 * high

/-- `av_timecode_make_smpte_tc_string`. -/
def avTimecodeMakeSmpteTcString (tcsmpte : Nat) (preventDf : Bool) : Bytes :=
  let hh := bcd2uint (tcsmpte &&& 0x3F)
  let mm := bcd2uint ((tcsmpte >>> 8) &&& 0x7F)
  let ss := bcd2uint ((tcsmpte >>> 16) &&& 0x7F)
  let ff := bcd2uint ((tcsmpte >>> 24) &&& 0x3F)
  let drop : Bool := tcsmpte &&& (1 <<< 30) ≠ 0 && !preventDf
  snprintf ((⟨hh, mm, ss, ff⟩ : Label).text (separator drop))

/-! ## Reading a label -/

/-- `%d`: the number goes on to the next conversion; `some none` where none can be read. -/
def scanNumber {α : Type} (p : Bytes) (next : Int → Bytes → Option (Option α)) :
    Option (Option α) :=
  let r := strtoll p
  if r.rest = p then some none
  else if r.value < -2 ^ 31 ∨ intMax < r.value then none
  else next r.value r.rest

/-- `%c`. -/
def scanChar {α : Type} (p : Bytes) (next : UInt8 → Bytes → Option (Option α)) :
    Option (Option α) :=
  match p with
  | [] => some none
  | c :: p => next c p

/-- A colon of the format. -/
def scanColon {α : Type} (p : Bytes) (next : Bytes → Option (Option α)) : Option (Option α) :=
  scanChar p fun c p => if c = 58 then next p else some none

/-- `sscanf` with `%d:%d:%d%c%d`: the hours, minutes, seconds, the separator and the frames;
`some none` where fewer than five conversions succeed. -/
def scanLabel (str : Bytes) : Option (Option (Int × Int × Int × UInt8 × Int)) :=
  scanNumber str fun hh p => scanColon p fun p => scanNumber p fun mm p => scanColon p fun p =>
    scanNumber p fun ss p => scanChar p fun c p => scanNumber p fun ff _ =>
      some (some (hh, mm, ss, c, ff))

/-- `fps_from_frame_rate`. -/
def fpsFromFrameRate (rate : AVRational) : Option Int := do
  if rate.den = 0 ∨ rate.num = 0 then some (-1)
  else
    let sum ← intOp (rate.num + rate.den.tdiv 2)
    intOp (sum.tdiv rate.den)

/-- `check_timecode`. -/
def checkTimecode (tc : AVTimecode) : Except AVERROR Unit :=
  if toInt32 tc.fps ≤ 0 then .error .einval
  else if tc.flags.dropframe = true ∧ tc.fps ≠ 30 ∧ tc.fps ≠ 60 then .error .einval
  else .ok ()

/-- The frames that a label counts and the drop frame numbering does not. -/
def droppedFrames (fps : Nat) (hh mm : Int) : Option Int := do
  let hours ← intOp (60 * hh)
  let tmins ← intOp (hours + mm)
  let minutes ← intOp (tmins - tmins.tdiv 10)
  intOp ((if fps = 30 then 2 else 4) * minutes)

/-- The start that a label sets, at the end of `av_timecode_init_from_string`. -/
def labelStart (tc : AVTimecode) (hh mm ss ff : Int) : Option Int := do
  let hours ← intOp (hh * 3600)
  let minutes ← intOp (mm * 60)
  let sum ← intOp (hours + minutes)
  let seconds ← intOp (sum + ss)
  let start := toInt32 (seconds * tc.fps + ff)
  if tc.flags.dropframe then
    let dropped ← droppedFrames tc.fps hh mm
    intOp (start - dropped)
  else some start

/-- The check of `av_timecode_init_from_string`, and the start behind it. -/
def initFromLabel (tc : AVTimecode) (hh mm ss ff : Int) : Option (Except AVERROR AVTimecode) :=
  match checkTimecode tc with
  | .error e => some (.error e)
  | .ok _ => (labelStart tc hh mm ss ff).map fun start => .ok { tc with start := start }

/-- `av_timecode_init_from_string`. -/
def avTimecodeInitFromString (rate : AVRational) (str : Bytes) :
    Option (Except AVERROR AVTimecode) :=
  match scanLabel str with
  | none => none
  | some none => some (.error .invalidData)
  | some (some (hh, mm, ss, c, ff)) =>
    match fpsFromFrameRate rate with
    | none => none
    | some fps => initFromLabel ⟨0, { dropframe := c ≠ 58 }, rate, toUint32 fps⟩ hh mm ss ff

/-! ## Labels are read back

The fields of a label stand in its text in decimal digits, with colons and a separator between
them, so `sscanf` finds them again and two labels with one text are the same. -/

variable {rest : Bytes} {n k : Nat}

/-! ## Numbers -/

theorem avIsdigit_ofNat {ch : Char} (h : ch.isDigit = true) :
    avIsdigit (UInt8.ofNat ch.toNat) = true ∧
      digit (UInt8.ofNat ch.toNat) = ((ch.toNat - 48 : Nat) : Int) := by
  have hrange : 48 ≤ ch.toNat ∧ ch.toNat ≤ 57 := by
    simp only [Char.isDigit, Bool.and_eq_true, decide_eq_true_eq, ge_iff_le,
      UInt32.le_iff_toNat_le] at h
    exact h
  have hbyte : (UInt8.ofNat ch.toNat).toNat = ch.toNat := by
    rw [UInt8.toNat_ofNat', Nat.mod_eq_of_lt (by lia)]
  constructor
  · simp only [avIsdigit, Bool.and_eq_true, decide_eq_true_eq, UInt8.le_iff_toNat_le, hbyte]
    exact hrange
  · rw [digit, hbyte]
    lia

theorem decimal_digits (n : Nat) : ∀ c ∈ decimal n, avIsdigit c = true := by
  intro c hc
  obtain ⟨ch, hch, rfl⟩ := List.mem_map.1 hc
  exact (avIsdigit_ofNat (Nat.isDigit_of_mem_toDigits (by decide) (by decide) hch)).1

theorem numberFrom_decimal (n : Nat) : numberFrom 0 (decimal n) = n := by
  have hfold : ∀ (l : List Char) (init : Nat), (∀ ch ∈ l, ch.isDigit = true) →
      numberFrom (init : Int) (l.map fun ch => UInt8.ofNat ch.toNat) =
        (Nat.ofDigitChars 10 l init : Nat) := by
    intro l
    induction l with
    | nil => intro init _; simp [numberFrom]
    | cons ch l ih =>
      intro init hl
      have hdigit := (avIsdigit_ofNat (hl ch (by simp))).2
      have hnext := ih (10 * init + (ch.toNat - 48)) (fun d hd => hl d (by simp [hd]))
      have hvalue : (init : Int) * 10 + ((ch.toNat - 48 : Nat) : Int) =
          ((10 * init + (ch.toNat - 48) : Nat) : Int) := by
        push_cast
        ring
      rw [Nat.ofDigitChars_cons, List.map_cons]
      show numberFrom ((init : Int) * 10 + digit _) _ = _
      rw [hdigit, hvalue, hnext]
      rfl
  have hdigits : ∀ ch ∈ Nat.toDigits 10 n, ch.isDigit = true := fun ch hch =>
    Nat.isDigit_of_mem_toDigits (by decide) (by decide) hch
  have hvalue := hfold (Nat.toDigits 10 n) 0 hdigits
  rw [Nat.ofDigitChars_ten_toDigits] at hvalue
  exact hvalue

theorem decimal_ne_nil (n : Nat) : decimal n ≠ [] := by
  simp [decimal, Nat.toDigits_ne_nil]

theorem length_decimal_le (hk : 0 < k) : (decimal n).length ≤ k ↔ n < 10 ^ k := by
  rw [decimal, List.length_map]
  exact Nat.length_toDigits_le_iff (by decide) hk

/-! ## Fields -/

theorem twoDigits_digits (n : Nat) : ∀ c ∈ twoDigits n, avIsdigit c = true := by
  intro c hc
  unfold twoDigits at hc
  split_ifs at hc
  · rcases List.mem_cons.1 hc with rfl | hc
    · decide
    · exact decimal_digits n c hc
  · exact decimal_digits n c hc

theorem twoDigits_ne_nil (n : Nat) : twoDigits n ≠ [] := by
  unfold twoDigits
  split_ifs
  · exact List.cons_ne_nil _ _
  · exact decimal_ne_nil n

theorem numberFrom_twoDigits (n : Nat) : numberFrom 0 (twoDigits n) = n := by
  unfold twoDigits
  split_ifs
  · exact numberFrom_decimal n
  · exact numberFrom_decimal n

theorem length_twoDigits_le (hk : 2 ≤ k) (h : n < 10 ^ k) : (twoDigits n).length ≤ k := by
  unfold twoDigits
  split_ifs with hsmall
  · have hone : (decimal n).length ≤ 1 := (length_decimal_le (by decide)).2 hsmall
    rw [List.length_cons]
    lia
  · exact (length_decimal_le (by lia)).2 h

/-- `%d` reads a field, and what follows it is left. -/
theorem scanNumber_twoDigits {α : Type} (next : Int → Bytes → Option (Option α))
    (hn : (n : Int) ≤ intMax) (hrest : NoDigit rest) :
    scanNumber (twoDigits n ++ rest) next = next n rest := by
  have hvalid : (Body.count [] none (twoDigits n)).Valid :=
    ⟨by simp, Or.inl rfl, twoDigits_digits n, twoDigits_ne_nil n, Nat.le_refl _⟩
  have hvalue : (Body.count [] none (twoDigits n)).value = n := numberFrom_twoDigits n
  obtain ⟨value, erange, hread, -, hexact⟩ := strtoll_count hvalid hrest
  have hint : IsInt64 (n : Int) := by
    have hmin : int64Min = -2 ^ 63 := rfl
    have hmax : int64Max = 2 ^ 63 - 1 := rfl
    have hint : intMax = 2 ^ 31 - 1 := rfl
    constructor
    · lia
    · lia
  rw [hvalue] at hexact
  have htext : (Body.count [] none (twoDigits n)).text ++ rest = twoDigits n ++ rest := by
    simp [Body.text]
  have hmoved : rest ≠ twoDigits n ++ rest := by
    intro heq
    have hlength := congrArg List.length heq
    rw [List.length_append] at hlength
    have hpos := List.length_pos_iff.2 (twoDigits_ne_nil n)
    lia
  rw [htext] at hread
  unfold scanNumber
  rw [hread]
  dsimp only
  rw [hexact hint, if_neg hmoved, if_neg (by lia)]

/-- The fields of a label are small enough for `int`. -/
structure Label.Small (l : Label) : Prop where
  hh : (l.hh : Int) ≤ intMax
  mm : (l.mm : Int) ≤ intMax
  ss : (l.ss : Int) ≤ intMax
  ff : (l.ff : Int) ≤ intMax

theorem scanLabel_text {l : Label} (h : l.Small) {c : UInt8} (hc : avIsdigit c = false) :
    scanLabel (l.text c) =
      some (some ((l.hh : Int), (l.mm : Int), (l.ss : Int), c, (l.ff : Int))) := by
  have htext : l.text c = twoDigits l.hh ++ 58 :: (twoDigits l.mm ++ 58 :: (twoDigits l.ss ++
      c :: (twoDigits l.ff ++ []))) := by
    simp [Label.text]
  have hcolon : ∀ p, NoDigit (58 :: p) := noDigit_cons (by decide)
  have hend : NoDigit [] := fun c hc => by simp at hc
  rw [htext, scanLabel, scanNumber_twoDigits _ h.hh (hcolon _)]
  dsimp only [scanColon, scanChar]
  rw [if_pos rfl, scanNumber_twoDigits _ h.mm (hcolon _)]
  dsimp only
  rw [if_pos rfl, scanNumber_twoDigits _ h.ss (noDigit_cons hc _)]
  dsimp only
  rw [scanNumber_twoDigits _ h.ff hend]

theorem text_inj {l l' : Label} (h : l.Small) (h' : l'.Small) {c c' : UInt8}
    (hc : avIsdigit c = false) (hc' : avIsdigit c' = false) (heq : l.text c = l'.text c') :
    l = l' ∧ c = c' := by
  have hread := scanLabel_text h hc
  rw [heq, scanLabel_text h' hc'] at hread
  obtain ⟨hh, mm, ss, ff⟩ := l
  obtain ⟨hh', mm', ss', ff'⟩ := l'
  simp only [Option.some.injEq, Prod.mk.injEq, Nat.cast_inj] at hread
  obtain ⟨rfl, rfl, rfl, rfl, rfl⟩ := hread
  exact ⟨rfl, rfl⟩

theorem snprintf_text {l : Label} {sign : Bytes} {c : UInt8} (hsign : sign.length ≤ 1)
    (h : (twoDigits l.hh).length + (twoDigits l.mm).length + (twoDigits l.ss).length +
      (twoDigits l.ff).length ≤ 18) :
    snprintf (sign ++ l.text c) = sign ++ l.text c := by
  apply List.take_of_length_le
  simp only [Label.text, List.length_append, List.length_singleton]
  lia

end FFmpeg.Libavutil.Timecode
