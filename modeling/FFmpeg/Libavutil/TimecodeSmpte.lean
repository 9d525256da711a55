import Mathlib.Data.Nat.Bitwise
import FFmpeg.Libavutil.TimecodeDropFrame

/-!
# The binary timecode and the string

The word of SMPTE 12M has two bits for the tens of the frames.  A fourth ten falls into the flag of
drop frame numbering, and a second fourth one out of the word, so the word says the same as the
string for the first forty frames of a second only.
-/

namespace FFmpeg.Libavutil.Timecode

open Common ParseUtils

variable {tc : AVTimecode} {framenum : Int} {fps a b : Nat} {l : Label}

/-! ## The word -/

theorem shiftLeft_or_shiftLeft {u j : Nat} (hu : u < 2 ^ j) (y k : Nat) :
    y <<< (j + k) ||| u <<< k = (y <<< j + u) <<< k := by
  rw [Nat.shiftLeft_add, ← Nat.shiftLeft_or_distrib, Nat.shiftLeft_add_eq_or_of_lt hu]

/-- The bits above the units of the frames. -/
def smpteHead (drop : Bool) (ff : Nat) : Nat := (if drop then 1 else 0) <<< 2 ||| ff / 10

/-- The two digits of a field. -/
def bcd (n : Nat) : Nat := 16 * (n / 10) + n % 10

theorem smpteWord_eq (drop : Bool) (hhh : l.hh < 24) (hmm : l.mm < 60) (hss : l.ss < 60) :
    smpteWord drop l = ((((smpteHead drop l.ff * 16 + l.ff % 10) * 256 + bcd l.ss) * 256 +
      bcd l.mm) * 256 + bcd l.hh) % 2 ^ 32 := by
  have hhead : ∀ x y : Nat, x <<< 30 ||| y <<< 28 = (x <<< 2 ||| y) <<< 28 := fun x y => by
    rw [Nat.shiftLeft_or_distrib, ← Nat.shiftLeft_add]
  have hdigit : ∀ {u : Nat} (y k : Nat), u < 10 → y <<< (4 + k) ||| u <<< k = (y * 16 + u) <<< k :=
    fun y k hu => by rw [shiftLeft_or_shiftLeft (j := 4) (by lia), Nat.shiftLeft_eq y 4]
  rw [smpteWord, hhead, hdigit _ 24 (by lia), hdigit _ 20 (by lia), hdigit _ 16 (by lia),
    hdigit _ 12 (by lia), hdigit _ 8 (by lia), hdigit _ 4 (by lia),
    ← Nat.shiftLeft_add_eq_or_of_lt (by lia), Nat.shiftLeft_eq _ 4, ← smpteHead, bcd, bcd, bcd]
  congr 1
  lia

theorem smpteHead_mod (drop : Bool) (ff : Nat) : smpteHead drop ff % 4 = ff / 10 % 4 := by
  rw [smpteHead, show (4 : Nat) = 2 ^ 2 from rfl, Nat.or_mod_two_pow]
  cases drop
  · simp
  · simp

theorem testBit_smpteHead (drop : Bool) (ff : Nat) :
    (smpteHead drop ff).testBit 2 = (drop || decide (ff / 40 % 2 = 1)) := by
  have htens : (ff / 10).testBit 2 = decide (ff / 40 % 2 = 1) := by
    rw [Nat.testBit_eq_decide_div_mod_eq, Nat.div_div_eq_div_mul]
  rw [smpteHead, Nat.testBit_or, htens]
  cases drop with
  | false => simp
  | true => rfl

theorem bcd2uint_bcd {n : Nat} (h : n < 100) : bcd2uint (bcd n) = n := by
  have hand : bcd n &&& 0xF = n % 10 := by
    rw [show (0xF : Nat) = 2 ^ 4 - 1 from rfl, Nat.and_two_pow_sub_one_eq_mod, bcd]
    lia
  have hshift : bcd n >>> 4 = n / 10 := by
    rw [Nat.shiftRight_eq_div_pow, bcd]
    lia
  unfold bcd2uint
  rw [hand, hshift]
  dsimp only
  rw [if_neg (by lia)]
  lia

theorem bcd_lt {n k : Nat} (h : n < 10 * k) : bcd n < 16 * k := by
  unfold bcd
  omega

/-- What the word of a label reads as. -/
theorem avTimecodeMakeSmpteTcString_smpteWord (drop : Bool) (hhh : l.hh < 24) (hmm : l.mm < 60)
    (hss : l.ss < 60) :
    avTimecodeMakeSmpteTcString (smpteWord drop l) false =
      ({ l with ff := l.ff % 40 } : Label).text
        (separator (drop || decide (l.ff / 40 % 2 = 1))) := by
  have hword := smpteWord_eq drop hhh hmm hss
  have hmod := smpteHead_mod drop l.ff
  have hbit := testBit_smpteHead drop l.ff
  rw [Nat.testBit_eq_decide_div_mod_eq] at hbit
  generalize smpteHead drop l.ff = head at hword hmod hbit
  generalize smpteWord drop l = word at hword ⊢
  have hfield : ∀ k m : Nat, (word >>> k) &&& (2 ^ m - 1) = word / 2 ^ k % 2 ^ m := fun k m => by
    rw [Nat.and_two_pow_sub_one_eq_mod, Nat.shiftRight_eq_div_pow]
  have hh := bcd_lt (n := l.hh) (k := 3) (by omega)
  have hm := bcd_lt (n := l.mm) (k := 6) (by omega)
  have hs := bcd_lt (n := l.ss) (k := 6) (by omega)
  have hhours : word &&& 0x3F = bcd l.hh := by
    rw [show (0x3F : Nat) = 2 ^ 6 - 1 from rfl, Nat.and_two_pow_sub_one_eq_mod]
    omega
  have hminutes : (word >>> 8) &&& 0x7F = bcd l.mm := by
    rw [show (0x7F : Nat) = 2 ^ 7 - 1 from rfl, hfield]
    omega
  have hseconds : (word >>> 16) &&& 0x7F = bcd l.ss := by
    rw [show (0x7F : Nat) = 2 ^ 7 - 1 from rfl, hfield]
    omega
  have hunits : word / 2 ^ 24 = (head * 16 + l.ff % 10) % 2 ^ 8 := by omega
  have hframes : (word >>> 24) &&& 0x3F = bcd (l.ff % 40) := by
    rw [show (0x3F : Nat) = 2 ^ 6 - 1 from rfl, hfield, hunits, bcd]
    omega
  have hflag : decide (word &&& (1 <<< 30) ≠ 0) = (drop || decide (l.ff / 40 % 2 = 1)) := by
    have htest : word.testBit 30 = decide (word / 2 ^ 30 % 2 = 1) :=
      Nat.testBit_eq_decide_div_mod_eq
    have hsame : word / 2 ^ 30 % 2 = head / 2 ^ 2 % 2 := by
      have hdiv : word / 2 ^ 30 = word / 2 ^ 24 / 2 ^ 6 := by
        rw [Nat.div_div_eq_div_mul, ← pow_add]
      rw [hdiv, hunits]
      omega
    rw [← hbit, ← hsame, ← htest, Nat.one_shiftLeft, Nat.and_two_pow]
    cases word.testBit 30
    · simp
    · simp
  have hshort : ∀ {m : Nat}, m < 10 ^ 2 → (twoDigits m).length ≤ 2 := fun hm =>
    length_twoDigits_le (Nat.le_refl 2) hm
  have hlength : (twoDigits l.hh).length + (twoDigits l.mm).length + (twoDigits l.ss).length +
      (twoDigits (l.ff % 40)).length ≤ 18 := by
    have hfour := Nat.add_le_add (Nat.add_le_add (Nat.add_le_add (hshort (m := l.hh) (by omega))
      (hshort (m := l.mm) (by omega))) (hshort (m := l.ss) (by omega)))
      (hshort (m := l.ff % 40) (by omega))
    exact hfour.trans (by decide)
  unfold avTimecodeMakeSmpteTcString
  dsimp only
  rw [hhours, hminutes, hseconds, hframes, hflag, bcd2uint_bcd (by omega), bcd2uint_bcd (by omega),
    bcd2uint_bcd (by omega), bcd2uint_bcd (by omega), Bool.not_false, Bool.and_true]
  exact snprintf_text (l := { l with ff := l.ff % 40 }) (show ([] : Bytes).length ≤ 1 by decide)
    hlength

/-! ## The numbers of the labels -/

/-- The number that a label counts. -/
def labelNumber (tc : AVTimecode) (framenum : Int) : Nat :=
  let n := (framenum + tc.start).toNat
  if tc.flags.dropframe then n + dropCount (tc.fps / 30) n else n

/-- A timecode that `check_timecode` accepts. -/
structure Valid (tc : AVTimecode) : Prop where
  pos : 0 < tc.fps
  int : (tc.fps : Int) ≤ intMax
  drop : tc.flags.dropframe = true → tc.fps = 30 ∨ tc.fps = 60

theorem toInt32_of_gt (hlow : intMax < a) (ha : a < 2 ^ 32) : toInt32 a = a - 2 ^ 32 := by
  have hmax : intMax = 2 ^ 31 - 1 := rfl
  have hmod : (a : Int) % ((2 ^ 32 : Nat) : Int) = a := Int.emod_eq_of_lt (by lia) (by lia)
  rw [toInt32, BitVec.toInt_ofInt, Int.bmod_def, hmod, if_neg (by lia)]
  rfl

theorem toUint32_toInt32 (ha : a < 2 ^ 32) : toUint32 (toInt32 a) = a := by
  rw [toUint32, toInt32, BitVec.ofInt_toInt, BitVec.toNat_ofInt]
  lia

theorem valid_of_checkTimecode (hfps : tc.fps < 2 ^ 32) (h : checkTimecode tc = .ok ()) :
    Valid tc := by
  unfold checkTimecode at h
  split_ifs at h with hrate hdrop
  have hint : (tc.fps : Int) ≤ intMax := by
    by_contra hlarge
    have hneg := toInt32_of_gt (by lia) hfps
    lia
  rw [toInt32_nat hint] at hrate
  refine ⟨by lia, hint, fun hflag => ?_⟩
  by_contra hother
  rw [not_or] at hother
  exact hdrop ⟨hflag, hother⟩

theorem labelNumber_lt (htc : Valid tc) (hmax : framenum + tc.start ≤ intMax) :
    labelNumber tc framenum < 2 ^ 32 := by
  have hint : intMax = 2 ^ 31 - 1 := rfl
  unfold labelNumber dropCount
  dsimp only
  split_ifs with hdrop
  · rcases htc.drop hdrop with hfps | hfps
    · rw [hfps]
      lia
    · rw [hfps]
      lia
  · lia

theorem adjusted_labelNumber (htc : Valid tc) (hstart : 0 ≤ framenum + tc.start)
    (hmax : framenum + tc.start ≤ intMax) :
    adjusted tc framenum = some (toInt32 (labelNumber tc framenum)) := by
  obtain ⟨n, hn⟩ : ∃ n : Nat, framenum + tc.start = n := Int.eq_ofNat_of_zero_le hstart
  rw [hn] at hmax
  rw [adjusted, labelNumber, hn, intOp_nat hmax, Option.bind_eq_bind, Option.bind_some,
    toInt32_nat htc.int, Int.toNat_natCast]
  cases hdrop : tc.flags.dropframe with
  | false =>
    rw [if_neg Bool.false_ne_true, if_neg Bool.false_ne_true, toInt32_nat hmax]
  | true =>
    rw [if_pos rfl, if_pos rfl]
    congr 1
    rcases htc.drop hdrop with hfps | hfps
    · rw [hfps]
      exact avTimecodeAdjust_nat (Or.inl rfl) n
    · rw [hfps]
      exact avTimecodeAdjust_nat (Or.inr rfl) n

theorem avTimecodeGetSmpte_eq {x : Int} (hadjusted : adjusted tc framenum = some x)
    (hfps : 0 < tc.fps) (hmax : ((tc.fps * 3600 : Nat) : Int) ≤ intMax) :
    avTimecodeGetSmpteFromFramenum tc framenum =
      some (smpteWord tc.flags.dropframe (labelOf true tc.fps (toUint32 x))) := by
  have hint : intMax = 2 ^ 31 - 1 := rfl
  have hminute : tc.fps * 60 % 2 ^ 32 = tc.fps * 60 := Nat.mod_eq_of_lt (by lia)
  have hhour : tc.fps * 3600 % 2 ^ 32 = tc.fps * 3600 := Nat.mod_eq_of_lt (by lia)
  unfold avTimecodeGetSmpteFromFramenum
  rw [hadjusted, Option.bind_eq_bind, Option.bind_some]
  dsimp only
  rw [hminute, hhour, if_neg (by lia)]
  rfl

theorem labelOf_day (fps a : Nat) : labelOf true fps a = labelOf false fps (a % (fps * 86400)) := by
  have hhour : a % (fps * 86400) / (fps * 3600) = a / (fps * 3600) % 24 := by
    rw [show fps * 86400 = fps * 3600 * 24 by ring, Nat.mod_mul_right_div_self]
  have hminute : a % (fps * 86400) / (fps * 60) % 60 = a / (fps * 60) % 60 := by
    rw [show fps * 86400 = fps * 60 * 1440 by ring, Nat.mod_mul_right_div_self]
    lia
  have hsecond : a % (fps * 86400) / fps % 60 = a / fps % 60 := by
    rw [Nat.mod_mul_right_div_self]
    lia
  simp only [labelOf, Bool.false_eq_true, if_true, if_false, hhour, hminute, hsecond,
    Nat.mod_mul_right_mod]

/-- The number with a label whose frames the word has cut. -/
theorem labelOf_eq_cut (hfps : 0 < fps) :
    labelOf true fps b = { labelOf true fps a with ff := (labelOf true fps a).ff % 40 } ↔
      b % (fps * 86400) + 40 * (a % fps / 40) = a % (fps * 86400) := by
  have hff : a % (fps * 86400) % fps = a % fps := Nat.mod_mul_right_mod a fps 86400
  rw [labelOf_day fps a, labelOf_day fps b, ← hff]
  generalize a % (fps * 86400) = a
  generalize b % (fps * 86400) = b
  obtain ⟨l, hl⟩ : ∃ l : Label,
      l = { labelOf false fps a with ff := (labelOf false fps a).ff % 40 } := ⟨_, rfl⟩
  have hcut : l.value fps + 40 * (a % fps / 40) = a := by
    have hvalue := value_labelOf fps a
    rw [hl]
    unfold Label.value at hvalue ⊢
    have hsplit := Nat.mod_add_div (labelOf false fps a).ff 40
    rw [Nat.add_assoc]
    exact (congrArg _ hsplit).trans hvalue
  rw [← hl]
  constructor
  · intro h
    rw [← value_labelOf fps b, h, hcut]
  · intro h
    have hb : b = l.value fps := by lia
    have hlt : (labelOf false fps a).ff < fps := Nat.mod_lt _ hfps
    rw [hb]
    refine labelOf_value ?_ ?_ ?_
    · rw [hl]
      exact Nat.mod_lt _ (by decide)
    · rw [hl]
      exact Nat.mod_lt _ (by decide)
    · rw [hl]
      exact (Nat.mod_le _ _).trans_lt hlt

theorem small_wrapped (hfps : 0 < fps) (hint : (fps : Int) ≤ intMax) (a k : Nat) :
    ({ labelOf true fps a with ff := (labelOf true fps a).ff % k } : Label).Small := by
  have hmax : intMax = 2 ^ 31 - 1 := rfl
  have hhh : (labelOf true fps a).hh < 24 := Nat.mod_lt _ (by decide)
  have hmm : (labelOf true fps a).mm < 60 := Nat.mod_lt _ (by decide)
  have hss : (labelOf true fps a).ss < 60 := Nat.mod_lt _ (by decide)
  have hff : (labelOf true fps a).ff % k < fps := (Nat.mod_le _ _).trans_lt (Nat.mod_lt _ hfps)
  constructor
  · show ((labelOf true fps a).hh : Int) ≤ intMax
    lia
  · show ((labelOf true fps a).mm : Int) ≤ intMax
    lia
  · show ((labelOf true fps a).ss : Int) ≤ intMax
    lia
  · show (((labelOf true fps a).ff % k : Nat) : Int) ≤ intMax
    lia

theorem text_ne_sign (l : Label) (c : UInt8) (p : Bytes) : l.text c ≠ 45 :: p := by
  intro h
  obtain ⟨d, ds, hhh⟩ := List.exists_cons_of_ne_nil (twoDigits_ne_nil l.hh)
  have hdigit := twoDigits_digits l.hh d (by simp [hhh])
  rw [Label.text, hhh] at h
  simp only [List.cons_append, List.cons.injEq] at h
  rw [h.1] at hdigit
  exact absurd hdigit (by decide)

/-! ## The word and the string -/

/-- The word of a frame reads as the string of it. -/
def SaysSame (tc : AVTimecode) (framenum : Int) : Prop :=
  ∃ text word, avTimecodeMakeString tc framenum = some text ∧
    avTimecodeGetSmpteFromFramenum tc framenum = some word ∧
    avTimecodeMakeSmpteTcString word false = text

theorem le_of_intOp {y z : Int} (h : intOp y = some z) : y ≤ intMax := by
  have hint : intMax = 2 ^ 31 - 1 := rfl
  unfold intOp at h
  split_ifs at h with hrange
  lia

/-- What a string needs. -/
theorem avTimecodeMakeString_some {text : Bytes} (hrate : toInt32 tc.fps = tc.fps)
    (h : avTimecodeMakeString tc framenum = some text) :
    ∃ x, adjusted tc framenum = some x ∧ (x < 0 → -x ≤ intMax) ∧
      ((tc.fps * 3600 : Nat) : Int) ≤ intMax := by
  unfold avTimecodeMakeString at h
  simp only [Option.bind_eq_bind, Option.bind_eq_some_iff] at h
  obtain ⟨x, hx, h⟩ := h
  have hhour : ∀ {hours : Int}, intOp (toInt32 tc.fps * 3600) = some hours →
      ((tc.fps * 3600 : Nat) : Int) ≤ intMax := by
    intro hours hhours
    have hle := le_of_intOp hhours
    rw [hrate] at hle
    push_cast
    exact hle
  by_cases hneg : x < 0
  · rw [if_pos hneg] at h
    simp only [Option.bind_eq_some_iff] at h
    obtain ⟨y, hy, minutes, -, hours, hhours, -⟩ := h
    exact ⟨x, hx, fun _ => le_of_intOp hy, hhour hhours⟩
  · rw [if_neg hneg] at h
    simp only [Option.bind_eq_some_iff] at h
    obtain ⟨y, hy, minutes, -, hours, hhours, -⟩ := h
    exact ⟨x, hx, fun hlt => absurd hlt hneg, hhour hhours⟩

/-- Both read the same where no sign is written, the labels agree and the flag is what it was. -/
theorem saysSame_iff (htc : Valid tc) (hwrap : tc.flags.hours24max = true) {x : Int}
    (hadjusted : adjusted tc framenum = some x) (hx : (x.natAbs : Int) ≤ intMax)
    (hmax : ((tc.fps * 3600 : Nat) : Int) ≤ intMax) :
    SaysSame tc framenum ↔ (decide (x < 0) && tc.flags.allownegative) = false ∧
      labelOf true tc.fps x.natAbs =
        { labelOf true tc.fps (toUint32 x) with ff := (labelOf true tc.fps (toUint32 x)).ff % 40 } ∧
      (tc.flags.dropframe || decide ((labelOf true tc.fps (toUint32 x)).ff / 40 % 2 = 1)) =
        tc.flags.dropframe := by
  have hint : intMax = 2 ^ 31 - 1 := rfl
  have hpos := htc.pos
  have hstring := avTimecodeMakeString_eq hadjusted hx hpos hmax
  have hword := avTimecodeGetSmpte_eq hadjusted hpos hmax
  rw [hwrap, snprintf_labelOf _ (by split_ifs <;> decide) true _ hx hpos (by omega) (Or.inl rfl)]
    at hstring
  have hread := avTimecodeMakeSmpteTcString_smpteWord (l := labelOf true tc.fps (toUint32 x))
    tc.flags.dropframe (Nat.mod_lt _ (by decide)) (Nat.mod_lt _ (by decide))
    (Nat.mod_lt _ (by decide))
  constructor
  · rintro ⟨text, word, htext, hget, hsame⟩
    rw [hstring, Option.some.injEq] at htext
    rw [hword, Option.some.injEq] at hget
    rw [← hget, hread, ← htext] at hsame
    cases hsign : decide (x < 0) && tc.flags.allownegative with
    | true =>
      rw [hsign, if_pos rfl] at hsame
      exact absurd hsame (text_ne_sign _ _ _)
    | false =>
      rw [hsign, if_neg Bool.false_ne_true] at hsame
      have hsep : ∀ d : Bool, avIsdigit (separator d) = false := by decide
      have hflag : ∀ d d' : Bool, separator d = separator d' → d = d' := by decide
      obtain ⟨hlabel, hseparator⟩ := text_inj (small_wrapped hpos htc.int _ 40)
        (small_labelOf true tc.fps hx) (hsep _) (hsep _) hsame
      exact ⟨rfl, hlabel.symm, hflag _ _ hseparator⟩
  · rintro ⟨hsign, hlabel, hflag⟩
    refine ⟨_, _, hstring, hword, ?_⟩
    rw [hread, hsign, if_neg Bool.false_ne_true, hflag, hlabel]
    rfl

theorem saysSame_of_le (htc : Valid tc) (hwrap : tc.flags.hours24max = true)
    (hadjusted : adjusted tc framenum = some (a : Int)) (ha : (a : Int) ≤ intMax)
    (hmax : ((tc.fps * 3600 : Nat) : Int) ≤ intMax) :
    SaysSame tc framenum ↔ a % tc.fps < 40 := by
  have hnumber : toUint32 (a : Int) = a := by
    have hint : intMax = 2 ^ 31 - 1 := rfl
    rw [toUint32, BitVec.toNat_ofInt]
    lia
  have hneg : ¬ (a : Int) < 0 := by lia
  have hff : (labelOf true tc.fps a).ff = a % tc.fps := rfl
  rw [saysSame_iff htc hwrap hadjusted (by rw [Int.natAbs_natCast]; exact ha) hmax, hnumber,
    Int.natAbs_natCast, decide_eq_false hneg, Bool.false_and, and_iff_right rfl, hff]
  constructor
  · rintro ⟨hlabel, -⟩
    have hframes : a % tc.fps = a % tc.fps % 40 := congrArg Label.ff hlabel
    exact hframes ▸ Nat.mod_lt _ (by decide)
  · intro hlt
    have hodd : ¬ a % tc.fps / 40 % 2 = 1 := by
      rw [Nat.div_eq_of_lt hlt]
      decide
    rw [Nat.mod_eq_of_lt hlt, decide_eq_false hodd, Bool.or_false]
    exact ⟨rfl, rfl⟩

theorem saysSame_of_gt (htc : Valid tc) (hwrap : tc.flags.hours24max = true)
    (hdrop : tc.flags.dropframe = true) (hadjusted : adjusted tc framenum = some (toInt32 a))
    (hlow : 2 ^ 31 < a) (ha : a < 2 ^ 32) (hmax : ((tc.fps * 3600 : Nat) : Int) ≤ intMax) :
    SaysSame tc framenum ↔ tc.flags.allownegative = false ∧
      (2 ^ 32 - a) % (tc.fps * 86400) + 40 * (a % tc.fps / 40) = a % (tc.fps * 86400) := by
  have hint : intMax = 2 ^ 31 - 1 := rfl
  have hx := toInt32_of_gt (by lia) ha
  have habs : (toInt32 a).natAbs = 2 ^ 32 - a := by lia
  have hneg : toInt32 a < 0 := by lia
  rw [saysSame_iff htc hwrap hadjusted (by rw [habs]; lia) hmax, habs, toUint32_toInt32 ha,
    labelOf_eq_cut htc.pos, decide_eq_true hneg, hdrop, Bool.true_and, Bool.true_or,
    eq_self_iff_true, and_true]

/-- The binary timecode says the same as the string where no number overflows and the frames stand
below forty; and where the number of the label has become negative, but the labels of it and of the
unsigned one coincide. -/
theorem avTimecodeGetSmpteFromFramenum_sameString (hfps : tc.fps < 2 ^ 32)
    (hcheck : checkTimecode tc = .ok ()) (hwrap : tc.flags.hours24max = true)
    (hstart : 0 ≤ framenum + tc.start) :
    SaysSame tc framenum ↔ framenum + tc.start ≤ intMax ∧ ((tc.fps * 3600 : Nat) : Int) ≤ intMax ∧
      ((labelNumber tc framenum : Int) ≤ intMax ∧ labelNumber tc framenum % tc.fps < 40 ∨
        2 ^ 31 < labelNumber tc framenum ∧ tc.flags.allownegative = false ∧
          (2 ^ 32 - labelNumber tc framenum) % (tc.fps * 86400) +
            40 * (labelNumber tc framenum % tc.fps / 40) =
              labelNumber tc framenum % (tc.fps * 86400)) := by
  have hint : intMax = 2 ^ 31 - 1 := rfl
  have htc := valid_of_checkTimecode hfps hcheck
  have hrate := toInt32_nat htc.int
  -- both need the sum, and the string the seconds of an hour
  have hneeds : SaysSame tc framenum → framenum + tc.start ≤ intMax ∧
      ((tc.fps * 3600 : Nat) : Int) ≤ intMax ∧
      ∀ x, adjusted tc framenum = some x → x < 0 → -x ≤ intMax := by
    rintro ⟨text, word, htext, -, -⟩
    obtain ⟨x, hx, hneg, hmax⟩ := avTimecodeMakeString_some hrate htext
    refine ⟨?_, hmax, fun y hy => ?_⟩
    · obtain ⟨y, hy, -⟩ := Option.bind_eq_some_iff.1 hx
      exact le_of_intOp hy
    · rw [hx, Option.some.injEq] at hy
      exact hy ▸ hneg
  by_cases hbounds : framenum + tc.start ≤ intMax ∧ ((tc.fps * 3600 : Nat) : Int) ≤ intMax
  · obtain ⟨hsum, hmax⟩ := hbounds
    have hlt := labelNumber_lt htc hsum
    have hadjusted := adjusted_labelNumber htc hstart hsum
    have hwide : intMax < labelNumber tc framenum → tc.flags.dropframe = true := by
      intro hlarge
      by_contra hdrop
      unfold labelNumber at hlarge
      rw [if_neg hdrop] at hlarge
      lia
    generalize labelNumber tc framenum = a at hlt hadjusted hwide ⊢
    by_cases ha : (a : Int) ≤ intMax
    · have hlow : ¬ 2 ^ 31 < a := by lia
      rw [toInt32_nat ha] at hadjusted
      rw [saysSame_of_le htc hwrap hadjusted ha hmax]
      simp only [hsum, hmax, ha, hlow, true_and, false_and, or_false]
    · have hdrop := hwide (by lia)
      by_cases hlow : 2 ^ 31 < a
      · rw [saysSame_of_gt htc hwrap hdrop hadjusted hlow hlt hmax]
        simp only [hsum, hmax, ha, hlow, true_and, false_and, false_or]
      · -- the number is the one whose negation overflows
        have hnot : ¬ SaysSame tc framenum := fun h => by
          have hx := toInt32_of_gt (show intMax < a by lia) hlt
          have hneg := (hneeds h).2.2 _ hadjusted
          lia
        simp only [hnot, ha, hlow, false_and, or_false, and_false]
  · have hnot : ¬ SaysSame tc framenum := fun h => hbounds ⟨(hneeds h).1, (hneeds h).2.1⟩
    constructor
    · intro h
      exact absurd h hnot
    · rintro ⟨hsum, hmax, -⟩
      exact absurd ⟨hsum, hmax⟩ hbounds

/-- The forty-sixth frame of a second reads as the sixth one of the drop frame numbering. -/
theorem avTimecodeGetSmpteFromFramenum_fifty :
    ∃ tc : AVTimecode, checkTimecode tc = .ok () ∧ tc.flags.hours24max = true ∧ tc.fps = 50 ∧
      avTimecodeMakeString tc 45 = some "00:00:00:45".toUTF8.toList ∧
      (avTimecodeGetSmpteFromFramenum tc 45).map (avTimecodeMakeSmpteTcString · false) =
        some "00:00:00;05".toUTF8.toList ∧ ¬ SaysSame tc 45 := by
  have hstring : avTimecodeMakeString ⟨0, { hours24max := true }, ⟨50, 1⟩, 50⟩ 45 =
      some "00:00:00:45".toUTF8.toList := by decide +kernel
  have hword : (avTimecodeGetSmpteFromFramenum ⟨0, { hours24max := true }, ⟨50, 1⟩, 50⟩ 45).map
      (avTimecodeMakeSmpteTcString · false) = some "00:00:00;05".toUTF8.toList := by decide +kernel
  refine ⟨⟨0, { hours24max := true }, ⟨50, 1⟩, 50⟩, by decide +kernel, rfl, rfl, hstring, hword, ?_⟩
  rintro ⟨text, word, htext, hget, hsame⟩
  rw [hget, Option.map_some, hsame, ← htext, hstring] at hword
  exact absurd hword (by decide +kernel)

theorem avTimecodeGetSmpteFromFramenum_sameString_film :
    SaysSame ⟨0, { hours24max := true }, ⟨24, 1⟩, 24⟩ 45 :=
  (avTimecodeGetSmpteFromFramenum_sameString (by decide) (by decide +kernel) rfl (by decide)).2
    (by decide +kernel)

end FFmpeg.Libavutil.Timecode
