import FFmpeg.Libavcodec.RangeCoder

/-!
# The range decoder gets what was put

What the encoder has written, what is outstanding and `low` are the digits of one number,
the lower end of an interval, and every bit narrows this interval.  The bytes that are
written in the end, with zeros behind them, are the digits of a number in the last interval
and so in all of them.  The decoder keeps the difference of this number, as far as it has
been read, to the lower end of the encoder's interval.
-/

namespace FFmpeg.Libavcodec.RangeCoder

open Common

/-! ## Numbers of bytes -/

theorem getBE_append_ones (l : Bytes) (n : Nat) :
    getBE (l ++ List.replicate n 0xFF) = getBE l * 256 ^ n + (256 ^ n - 1) := by
  induction n with
  | zero => simp
  | succ n ih =>
    have hpos : 0 < 256 ^ n := by positivity
    rw [List.replicate_succ', ← List.append_assoc, getBE_concat, ih, Nat.pow_succ, ← Nat.mul_assoc]
    show _ * 256 + 255 = _
    lia

theorem getBE_append_zeros (l : Bytes) (n : Nat) :
    getBE (l ++ List.replicate n 0) = getBE l * 256 ^ n := by
  induction n with
  | zero => simp
  | succ n ih =>
    rw [List.replicate_succ', ← List.append_assoc, getBE_concat, ih, Nat.pow_succ, ← Nat.mul_assoc]
    exact Nat.add_zero _

/-- The number of the first `m` bytes, with zeros behind the end. -/
def leading (bytes : Bytes) (m : Nat) : Nat := getBE (window bytes 0 m)

theorem leading_succ (bytes : Bytes) (m : Nat) :
    leading bytes (m + 1) = leading bytes m * 256 + (bytes.getD m 0).toNat := by
  rw [leading, window, List.range_succ, List.map_append, List.map_singleton, getBE_concat,
    Nat.zero_add]
  rfl

theorem window_length (bytes : Bytes) : window bytes 0 bytes.length = bytes := by
  apply List.ext_getElem
  · rw [window, List.length_map, List.length_range]
  · intro i hi hi'
    simp [window, List.getD_eq_getElem?_getD, hi']

/-! ## The interval of the encoder -/

/-- The digits in front of `low`. -/
def RangeEncoder.digits (c : RangeEncoder) : Nat :=
  match c.outstandingByte with
  | none => 0
  | some b =>
    (getBE c.bytestream * 256 + b) * 256 ^ c.outstandingCount + (256 ^ c.outstandingCount - 1)

/-- The lower end of the interval. -/
def RangeEncoder.value (c : RangeEncoder) : Nat := c.digits * 2 ^ 16 + c.low

/-- The number of digits in front of `low`. -/
def RangeEncoder.shifts (c : RangeEncoder) : Nat :=
  match c.outstandingByte with
  | none => 0
  | some _ => c.bytestream.length + 1 + c.outstandingCount

/-- The encoder can be shifted without losing a carry. -/
structure Shiftable (c : RangeEncoder) : Prop where
  empty : c.outstandingByte = none → c.low < 0x10000 ∧ c.bytestream = [] ∧ c.outstandingCount = 0
  outstanding : ∀ b, c.outstandingByte = some b →
    b ≤ 0xFF ∧ c.low < 0x20000 ∧ (b = 0xFF → c.low < 0x10000)

variable {c : RangeEncoder}

/-- A carry goes into a byte that is not 0xFF. -/
def RangeEncoder.CarryFits (c : RangeEncoder) : Prop :=
  ∀ b, c.range < 0x100 → c.outstandingByte = some b → 0x10000 ≤ c.low → b + 1 ≤ 0xFF

theorem Shiftable.carryFits (h : Shiftable c) : c.CarryFits := by
  intro b _ hb hcarry
  obtain ⟨hbyte, -, hones⟩ := h.outstanding b hb
  by_contra hover
  have hlow := hones (by lia)
  lia

theorem and_mask (low : Nat) : (low &&& 0xFF) <<< 8 = low % 256 * 256 := by
  rw [Nat.shiftLeft_eq]
  congr 1
  exact Nat.and_two_pow_sub_one_eq_mod low 8

/-- A round moves everything up by one digit. -/
theorem Shiftable.shift (h : Shiftable c) :
    c.shift.value = 256 * c.value ∧ c.shift.shifts = c.shifts + 1 ∧
      c.shift.low = c.low % 256 * 256 ∧ c.shift.range = c.range * 256 ∧
      ∃ b, c.shift.outstandingByte = some b ∧ b ≤ 0xFF := by
  obtain ⟨low, range, count, ob, written⟩ := c
  have hmask := and_mask low
  have hshift : low >>> 8 = low / 256 := Nat.shiftRight_eq_div_pow low 8
  cases ob with
  | none =>
    obtain ⟨hlow, hwritten, hcount⟩ := h.empty rfl
    dsimp only at hlow hwritten hcount
    subst hwritten
    subst hcount
    refine ⟨?_, rfl, hmask, Nat.shiftLeft_eq range 8, _, rfl, ?_⟩
    · simp only [RangeEncoder.shift, RangeEncoder.value, RangeEncoder.digits, hmask, hshift]
      simp [getBE]
      lia
    · rw [hshift]
      lia
  | some b =>
    obtain ⟨hbyte, hlow, hones⟩ := h.outstanding b rfl
    dsimp only at hlow hones
    have hpos : 0 < 256 ^ count := by positivity
    have hb : (UInt8.ofNat b).toNat = b := by
      rw [UInt8.toNat_ofNat']
      lia
    obtain ⟨digits, hold⟩ : ∃ digits, digits =
        (getBE written * 256 + b) * 256 ^ count + (256 ^ count - 1) := ⟨_, rfl⟩
    unfold RangeEncoder.shift RangeEncoder.value RangeEncoder.digits RangeEncoder.shifts
    dsimp only
    by_cases hsmall : low ≤ 0xFF00
    · rw [if_pos hsmall]
      dsimp only
      rw [hmask, hshift, Nat.shiftLeft_eq]
      refine ⟨?_, ?_, rfl, rfl, low / 256, rfl, by lia⟩
      · rw [List.append_cons, getBE_append_ones, getBE_concat, hb, ← hold]
        lia
      · rw [List.length_append, List.length_cons, List.length_replicate]
        lia
    · rw [if_neg hsmall]
      by_cases hcarry : 0x10000 ≤ low
      · -- the carry runs through the outstanding bytes
        have hb' : (UInt8.ofNat (b + 1)).toNat = b + 1 := by
          rw [UInt8.toNat_ofNat']
          lia
        have htop : (low / 256) &&& 0xFF = low / 256 % 256 :=
          Nat.and_two_pow_sub_one_eq_mod (low / 256) 8
        rw [if_pos hcarry]
        dsimp only
        rw [hmask, hshift, Nat.shiftLeft_eq]
        refine ⟨?_, ?_, rfl, rfl, _, rfl, by lia⟩
        · have hdigits : (getBE written * 256 + (b + 1)) * 256 ^ count =
              (getBE written * 256 + b) * 256 ^ count + (256 ^ count - 1) + 1 := by
            rw [← Nat.add_assoc, Nat.add_mul]
            lia
          rw [List.append_cons, getBE_append_zeros, getBE_concat, hb', hdigits, htop]
          rw [← hold]
          lia
        · rw [List.length_append, List.length_cons, List.length_replicate]
          lia
      · rw [if_neg hcarry]
        dsimp only
        rw [hmask, Nat.shiftLeft_eq]
        refine ⟨?_, by lia, rfl, rfl, b, rfl, hbyte⟩
        have hdigits : (getBE written * 256 + b) * 256 ^ (count + 1) + (256 ^ (count + 1) - 1) =
            digits * 256 + 255 := by
          rw [hold, Nat.pow_succ, ← Nat.mul_assoc]
          lia
        have hmoved : ∀ digits', digits' = digits * 256 + 255 →
            digits' * 2 ^ 16 + low % 256 * 256 = 256 * (digits * 2 ^ 16 + low) := by
          intro digits' hdigits'
          lia
        rw [← hold]
        exact hmoved _ hdigits

/-- Where the outstanding byte becomes 0xFF. -/
theorem shift_ones (h : c.shift.outstandingByte = some 0xFF) :
    (c.outstandingByte = none ∧ 0xFF00 ≤ c.low) ∨ c.low = 0xFF00 ∨ 0x1FF00 ≤ c.low ∨
      (c.outstandingByte = some 0xFF ∧ 0xFF00 < c.low ∧ c.low < 0x10000) := by
  obtain ⟨low, range, count, ob, written⟩ := c
  have hshift : low >>> 8 = low / 256 := Nat.shiftRight_eq_div_pow low 8
  cases ob with
  | none =>
    have htop : low >>> 8 = 0xFF := Option.some.inj h
    exact .inl ⟨rfl, by dsimp only; lia⟩
  | some b =>
    unfold RangeEncoder.shift at h
    dsimp only at h ⊢
    by_cases hsmall : low ≤ 0xFF00
    · rw [if_pos hsmall] at h
      have htop : low >>> 8 = 0xFF := Option.some.inj h
      exact .inr (.inl (by lia))
    · rw [if_neg hsmall] at h
      by_cases hcarry : 0x10000 ≤ low
      · rw [if_pos hcarry] at h
        have htop : low >>> 8 &&& 0xFF = 0xFF := Option.some.inj h
        have hmask : low >>> 8 &&& 0xFF = low >>> 8 % 256 :=
          Nat.and_two_pow_sub_one_eq_mod (low >>> 8) 8
        rw [hmask, hshift] at htop
        refine .inr (.inr (.inl ?_))
        lia
      · rw [if_neg hcarry] at h
        exact .inr (.inr (.inr ⟨h, by lia, by lia⟩))

/-- The interval stays below the next carry: of 0xFF bytes, and of the first byte. -/
structure Fits (c : RangeEncoder) : Prop where
  range_pos : 0 < c.range
  range_le : c.range ≤ 0xFF00
  empty : c.outstandingByte = none →
    c.low + c.range ≤ 0xFF00 ∧ c.bytestream = [] ∧ c.outstandingCount = 0
  outstanding : ∀ b, c.outstandingByte = some b →
    b ≤ 0xFF ∧ c.low + c.range ≤ 0x1FE00 ∧ (b = 0xFF → c.low + c.range ≤ 0x10000)

theorem fits_init : Fits ffInitRangeEncoder where
  range_pos := by decide
  range_le := by decide
  empty := fun _ => ⟨by decide, rfl, rfl⟩
  outstanding := fun b hb => by cases hb

theorem Fits.shiftable (h : Fits c) : Shiftable c := by
  have hpos := h.range_pos
  refine ⟨fun hnone => ?_, fun b hb => ?_⟩
  · obtain ⟨hsum, hwritten, hcount⟩ := h.empty hnone
    exact ⟨by lia, hwritten, hcount⟩
  · obtain ⟨hbyte, hsum, hones⟩ := h.outstanding b hb
    exact ⟨hbyte, by lia, fun hb => by have hsum := hones hb; lia⟩

theorem Fits.shift (h : Fits c) (hsmall : c.range < 0x100) : Fits c.shift := by
  obtain ⟨-, -, hlow, hrange, b, hb, hbyte⟩ := h.shiftable.shift
  have hpos := h.range_pos
  refine ⟨by lia, by lia, fun hnone => ?_, fun b' hb' => ?_⟩
  · rw [hb] at hnone
    cases hnone
  · obtain rfl : b = b' := Option.some.inj (hb.symm.trans hb')
    refine ⟨hbyte, by lia, fun hones => ?_⟩
    rw [hones] at hb
    rcases shift_ones hb with ⟨hnone, hle⟩ | heq | hle | ⟨hsome, hlt, hless⟩
    · have hsum := (h.empty hnone).1
      lia
    · lia
    · cases hob : c.outstandingByte with
      | none =>
        have hsum := (h.empty hob).1
        lia
      | some b₀ =>
        have hsum := (h.outstanding b₀ hob).2.1
        lia
    · have hsum := (h.outstanding 0xFF hsome).2.2 rfl
      lia

/-- What `renorm_encoder` does: nothing, or one round. -/
structure Renormed (c c' : RangeEncoder) : Prop where
  fits : Fits c'
  range_ge : 0x100 ≤ c'.range
  moved : (c' = c ∧ 0x100 ≤ c.range) ∨
    (c.range < 0x100 ∧ c'.value = 256 * c.value ∧ c'.shifts = c.shifts + 1 ∧
      c'.range = c.range * 256)

theorem Fits.renorm (h : Fits c) : ∃ c', renormEncoder c = some c' ∧ Renormed c c' := by
  have hpos := h.range_pos
  unfold renormEncoder renormLoop
  split_ifs with hsmall
  · obtain ⟨hvalue, hshifts, -, hrange, -⟩ := h.shiftable.shift
    unfold renormLoop
    rw [if_neg (by lia)]
    exact ⟨_, rfl, h.shift hsmall, by lia, .inr ⟨hsmall, hvalue, hshifts, hrange⟩⟩
  · exact ⟨c, rfl, h, by lia, .inl ⟨rfl, by lia⟩⟩

/-- The part of a range for a bit 1. -/
def part (range : Nat) (state : UInt8) : Nat := (range * state.toNat) >>> 8

variable {state : UInt8}

theorem part_bounds {range : Nat} (hrange : 0x100 ≤ range) (hstate : state ≠ 0) :
    0 < part range state ∧ part range state < range := by
  have hpos : 0 < state.toNat := by
    rw [Nat.pos_iff_ne_zero]
    intro hzero
    exact hstate (UInt8.toNat_inj.mp hzero)
  have hmax := state.toNat_lt
  rw [part, Nat.shiftRight_eq_div_pow]
  constructor
  · apply Nat.div_pos _ (by decide)
    nlinarith
  · apply Nat.div_lt_of_lt_mul
    nlinarith

/-- A bit takes a part of the interval. -/
structure Narrows (c c' : RangeEncoder) (state : UInt8) (bit : Bool) : Prop where
  fits : Fits c'
  shifts : c'.shifts = c.shifts
  value : c'.value = c.value + if bit then c.range - part c.range state else 0
  range : c'.range = if bit then part c.range state else c.range - part c.range state

theorem Fits.narrow (h : Fits c) (hrange : 0x100 ≤ c.range) (hstate : state ≠ 0) (bit : Bool) :
    Narrows c (c.narrow state bit) state bit := by
  obtain ⟨hpos, hlt⟩ := part_bounds hrange hstate
  have hle := h.range_le
  cases bit with
  | false =>
    have heq : c.narrow state false = { c with range := c.range - part c.range state } := rfl
    rw [heq]
    refine ⟨⟨?_, ?_, fun hnone => ?_, fun b hb => ?_⟩, rfl, ?_, rfl⟩
    · dsimp only
      lia
    · dsimp only
      lia
    · obtain ⟨hsum, hrest⟩ := h.empty hnone
      exact ⟨by dsimp only; lia, hrest⟩
    · obtain ⟨hbyte, hsum, hones⟩ := h.outstanding b hb
      exact ⟨hbyte, by dsimp only; lia, fun hb => by have hsum := hones hb; dsimp only; lia⟩
    · rw [if_neg Bool.false_ne_true, Nat.add_zero]
      rfl
  | true =>
    have heq : c.narrow state true =
        { c with low := c.low + (c.range - part c.range state), range := part c.range state } := rfl
    rw [heq]
    refine ⟨⟨?_, ?_, fun hnone => ?_, fun b hb => ?_⟩, rfl, ?_, rfl⟩
    · exact hpos
    · dsimp only
      lia
    · obtain ⟨hsum, hrest⟩ := h.empty hnone
      exact ⟨by dsimp only; lia, hrest⟩
    · obtain ⟨hbyte, hsum, hones⟩ := h.outstanding b hb
      exact ⟨hbyte, by dsimp only; lia, fun hb => by have hsum := hones hb; dsimp only; lia⟩
    · show c.digits * 2 ^ 16 + (c.low + (c.range - part c.range state)) =
        c.digits * 2 ^ 16 + c.low + (c.range - part c.range state)
      lia

/-! ## The bytes in the end -/

/-- The first bytes of `bytes` are in the interval. -/
structure Contains (bytes : Bytes) (c : RangeEncoder) : Prop where
  ge : c.value ≤ leading bytes (c.shifts + 2)
  lt : leading bytes (c.shifts + 2) < c.value + c.range

variable {c' : RangeEncoder} {bytes : Bytes} {tables : RacTables} {state : UInt8} {bit : Bool}

theorem Renormed.contains (h : Renormed c c') (hin : Contains bytes c') : Contains bytes c := by
  obtain ⟨hge, hlt⟩ := hin
  rcases h.moved with ⟨rfl, -⟩ | ⟨-, hvalue, hshifts, hrange⟩
  · exact ⟨hge, hlt⟩
  · have hnext := leading_succ bytes (c.shifts + 2)
    have hplace : c'.shifts + 2 = c.shifts + 2 + 1 := by lia
    rw [hplace] at hge hlt
    have hbyte := (bytes.getD (c.shifts + 2) 0).toNat_lt
    constructor <;> lia

theorem Narrows.contains (h : Narrows c c' state bit) (hle : part c.range state ≤ c.range)
    (hin : Contains bytes c') : Contains bytes c := by
  obtain ⟨hge, hlt⟩ := hin
  have hshifts := h.shifts
  have hvalue := h.value
  have hrange := h.range
  rw [hshifts] at hge hlt
  constructor
  · lia
  · cases bit <;> simp at hvalue hrange <;> lia

/-- A bit that is put. -/
structure Puts (tables : RacTables) (c c' : RangeEncoder) (state : UInt8) (bit : Bool) : Prop where
  narrows : Narrows c (c.narrow state bit) state bit
  renormed : Renormed (c.narrow state bit) c'
  put : putRac tables c state bit = some (c', tables.next state bit)

theorem Fits.putRac (tables : RacTables) (h : Fits c) (hrange : 0x100 ≤ c.range)
    (hstate : state ≠ 0) (bit : Bool) : ∃ c', Puts tables c c' state bit := by
  have hnarrow := h.narrow hrange hstate bit
  obtain ⟨c', heq, hrenorm⟩ := hnarrow.fits.renorm
  refine ⟨c', hnarrow, hrenorm, ?_⟩
  rw [RangeCoder.putRac, heq]
  rfl

theorem Puts.contains (h : Puts tables c c' state bit) (hrange : 0x100 ≤ c.range)
    (hstate : state ≠ 0) (hin : Contains bytes c') : Contains bytes c :=
  h.narrows.contains (part_bounds hrange hstate).2.le (h.renormed.contains hin)

theorem shift_outstandingCount {b : Nat} (hb : c.outstandingByte = some b)
    (hlow : c.low ≤ 0xFF00) : c.shift.outstandingCount = 0 := by
  unfold RangeEncoder.shift
  rw [hb]
  dsimp only
  rw [if_pos hlow]

theorem value_of_flushed {b : Nat} (hb : c.outstandingByte = some b)
    (hcount : c.outstandingCount = 0) (hlow : c.low = 0) :
    c.value = (getBE c.bytestream * 256 + b) * 2 ^ 16 ∧ c.shifts = c.bytestream.length + 1 := by
  unfold RangeEncoder.value RangeEncoder.digits RangeEncoder.shifts
  rw [hb, hcount, hlow]
  dsimp only
  rw [Nat.pow_zero, Nat.mul_one, Nat.sub_self, Nat.add_zero, Nat.add_zero]
  exact ⟨rfl, rfl⟩

theorem leading_length_succ (bytes : Bytes) :
    leading bytes (bytes.length + 1) = getBE bytes * 256 := by
  have hzero : bytes.getD bytes.length 0 = 0 := by
    rw [List.getD_eq_getElem?_getD, List.getElem?_eq_none le_rfl]
    rfl
  rw [leading_succ, hzero, leading, window_length]
  exact Nat.add_zero _

/-- The two last rounds write all digits of `low + 0xFF` but the last one. -/
theorem Fits.collapse (h : Fits c) (hrange : 0x100 ≤ c.range) :
    ∃ c₁ c₂, renormEncoder c.collapse = some c₁ ∧ renormEncoder c₁.minimize = some c₂ ∧
      Shiftable c.collapse ∧ Shiftable c₁.minimize ∧
      c₂.low = 0 ∧ 0x100 ≤ c₂.range ∧ Contains c₂.bytestream c := by
  have hfirst : Shiftable c.collapse := by
    refine ⟨fun hnone => ?_, fun b hb => ?_⟩
    · obtain ⟨hsum, hrest⟩ := h.empty hnone
      exact ⟨show c.low + 0xFF < 0x10000 by lia, hrest⟩
    · obtain ⟨hbyte, hsum, hones⟩ := h.outstanding b hb
      refine ⟨hbyte, show c.low + 0xFF < 0x20000 by lia, fun hb => ?_⟩
      have hsum := hones hb
      show c.low + 0xFF < 0x10000
      lia
  obtain ⟨hvalue₁, hshifts₁, hlow₁, hrange₁, b₁, hb₁, hbyte₁⟩ := hfirst.shift
  have hsecond : Shiftable c.collapse.shift.minimize := by
    refine ⟨fun hnone => ?_, fun b hb => ?_⟩
    · cases hb₁.symm.trans hnone
    · cases hb₁.symm.trans hb
      refine ⟨hbyte₁, ?_, fun _ => ?_⟩
      · show c.collapse.shift.low < 0x20000
        lia
      · show c.collapse.shift.low < 0x10000
        lia
  obtain ⟨hvalue₂, hshifts₂, hlow₂, hrange₂, b₂, hb₂, hbyte₂⟩ := hsecond.shift
  have hlast : c.collapse.shift.minimize.shift.low = 0 := by
    have hzero : c.collapse.shift.minimize.low = c.collapse.shift.low := rfl
    lia
  have hwide₁ : c.collapse.range = 0xFF := rfl
  have hwide₂ : c.collapse.shift.minimize.range = 0xFF := rfl
  refine ⟨c.collapse.shift, c.collapse.shift.minimize.shift, ?_, ?_, hfirst, hsecond, hlast, ?_, ?_⟩
  · unfold renormEncoder renormLoop
    rw [if_pos (by lia), renormLoop, if_neg (by lia)]
  · unfold renormEncoder renormLoop
    rw [if_pos (by lia), renormLoop, if_neg (by lia)]
  · lia
  · -- the bytes are the digits in front of the last one
    have hcount := shift_outstandingCount (c := c.collapse.shift.minimize) hb₁ (by
      show c.collapse.shift.low ≤ 0xFF00
      lia)
    obtain ⟨hvalue, hshifts⟩ := value_of_flushed hb₂ hcount hlast
    have hsame : c.collapse.shift.minimize.value = c.collapse.shift.value := rfl
    have hsame' : c.collapse.shift.minimize.shifts = c.collapse.shift.shifts := rfl
    have hsum : c.collapse.value = c.value + 0xFF := (Nat.add_assoc _ _ _).symm
    have hsum' : c.collapse.shifts = c.shifts := rfl
    have hlength : c.shifts + 2 = c.collapse.shift.minimize.shift.bytestream.length + 1 := by lia
    constructor
    · rw [hlength, leading_length_succ]
      lia
    · rw [hlength, leading_length_succ]
      lia

/-! ## The decoder -/

/-- The decoder is where the encoder has been: it knows how far above the lower end of the
interval the number is, as far as it has been read. -/
structure Matches (bytes : Bytes) (c : RangeEncoder) (d : RangeDecoder) : Prop where
  low_eq : d.low + c.value = leading bytes (c.shifts + 2)
  range_eq : d.range = c.range
  buffer_eq : d.buffer = bytes
  bytestreamEnd_eq : d.bytestreamEnd = bytes.length
  bytestream_eq : d.bytestream = max 2 (min (c.shifts + 2) bytes.length)

variable {d : RangeDecoder}

theorem value_init : ffInitRangeEncoder.value = 0 := by decide

theorem matches_init (hin : Contains bytes ffInitRangeEncoder) :
    Matches bytes ffInitRangeEncoder (ffInitRangeDecoder bytes bytes.length) := by
  have hlt : leading bytes 2 < 0xFF00 := by
    have hupper := hin.lt
    rw [value_init] at hupper
    exact hupper
  have hsmall : ¬ 0xFF00 ≤ getBE (window bytes 0 2) := Nat.not_le.mpr hlt
  unfold ffInitRangeDecoder
  dsimp only
  rw [if_neg hsmall, if_neg hsmall]
  refine ⟨?_, rfl, rfl, rfl, ?_⟩
  · rw [value_init]
    exact Nat.add_zero _
  · show 2 = max 2 (min (0 + 2) bytes.length)
    lia

/-- `refill` follows `renorm_encoder`. -/
theorem Matches.refill (h : Matches bytes c d) (hc : Renormed c c') :
    Matches bytes c' d.refill := by
  obtain ⟨hlow, hrange, hbuffer, hend, hplace⟩ := h
  unfold RangeDecoder.refill
  rcases hc.moved with ⟨rfl, hwide⟩ | ⟨hsmall, hvalue, hshifts, hrange'⟩
  · rw [if_neg (by lia)]
    exact ⟨hlow, hrange, hbuffer, hend, hplace⟩
  · rw [if_pos (by lia)]
    have hnext := leading_succ bytes (c.shifts + 2)
    have hsteps : c'.shifts + 2 = c.shifts + 2 + 1 := by lia
    dsimp only
    rw [Nat.shiftLeft_eq, Nat.shiftLeft_eq]
    split_ifs with hmore
    · have hbyte : d.buffer.getD d.bytestream 0 = bytes.getD (c.shifts + 2) 0 := by
        have hat : d.bytestream = c.shifts + 2 := by lia
        rw [hbuffer, hat]
      refine ⟨?_, ?_, hbuffer, hend, ?_⟩
      · dsimp only
        rw [hsteps, hnext, hbyte]
        lia
      · dsimp only
        lia
      · dsimp only
        lia
    · have hbyte : bytes.getD (c.shifts + 2) 0 = 0 := by
        rw [List.getD_eq_getElem?_getD, List.getElem?_eq_none (by lia)]
        rfl
      have hzero : (bytes.getD (c.shifts + 2) 0).toNat = 0 := by rw [hbyte]; rfl
      refine ⟨?_, ?_, hbuffer, hend, ?_⟩
      · dsimp only
        rw [hsteps, hnext, hzero]
        lia
      · dsimp only
        lia
      · dsimp only
        lia

/-- The bit that was put is got. -/
theorem Puts.getRac (hput : Puts tables c c' state bit) (h : Matches bytes c d)
    (hin : Contains bytes c') :
    ∃ d', getRac tables d state = (bit, d', tables.next state bit) ∧ Matches bytes c' d' := by
  obtain ⟨hge, hlt⟩ := hput.renormed.contains hin
  have hlow := h.low_eq
  have hrange := h.range_eq
  have hshifts := hput.narrows.shifts
  have hvalue := hput.narrows.value
  have hpart : (d.range * state.toNat) >>> 8 = part c.range state := by rw [hrange]; rfl
  have hnarrow := hput.narrows.range
  rw [hshifts] at hge hlt
  unfold RangeCoder.getRac
  dsimp only
  rw [hpart]
  cases bit with
  | false =>
    rw [if_neg Bool.false_ne_true] at hvalue hnarrow
    rw [if_pos (by lia)]
    refine ⟨_, rfl, Matches.refill ⟨?_, ?_, h.buffer_eq, h.bytestreamEnd_eq, ?_⟩ hput.renormed⟩
    · dsimp only
      rw [hshifts]
      lia
    · rw [hnarrow, hrange]
    · rw [hshifts]
      exact h.bytestream_eq
  | true =>
    rw [if_pos rfl] at hvalue hnarrow
    rw [if_neg (by lia)]
    refine ⟨_, rfl, Matches.refill ⟨?_, ?_, h.buffer_eq, h.bytestreamEnd_eq, ?_⟩ hput.renormed⟩
    · dsimp only
      rw [hshifts]
      lia
    · exact hnarrow.symm
    · rw [hshifts]
      exact h.bytestream_eq

/-! ## Sequences of bits -/

variable {ι : Type}

theorem lastEncoder_cons (c : RangeEncoder) (step : PutStep ι) (steps : List (PutStep ι)) :
    lastEncoder c (step :: steps) = lastEncoder step.after steps := by
  cases steps with
  | nil => rfl
  | cons next steps => rw [lastEncoder, lastEncoder, List.getLast?_cons_cons,
      List.getLast?_eq_some_getLast (List.cons_ne_nil next steps)]; rfl

variable [DecidableEq ι]

/-- What holds of the steps of an encoder, for what is written later. -/
structure Codes (tables : RacTables) (c : RangeEncoder) (states : ι → UInt8)
    (symbols : List (ι × Bool)) (steps : List (PutStep ι)) : Prop where
  put : putRacs tables c states symbols = some steps
  fits : Fits (lastEncoder c steps)
  range_ge : 0x100 ≤ (lastEncoder c steps).range
  ranges_ge : ∀ step ∈ steps, 0x100 ≤ step.after.range
  carries : ∀ step ∈ steps, step.narrowed.CarryFits
  contains : ∀ bytes, Contains bytes (lastEncoder c steps) → Contains bytes c
  get : ∀ bytes d, Contains bytes (lastEncoder c steps) → Matches bytes c d →
    (getRacs tables d states (symbols.map Prod.fst)).map GetStep.bit = symbols.map Prod.snd ∧
      (getRacs tables d states (symbols.map Prod.fst)).map GetStep.states =
        steps.map PutStep.states ∧
      ∀ step ∈ getRacs tables d states (symbols.map Prod.fst), 0x100 ≤ step.after.range

/-- A run of the encoder, bit by bit. -/
theorem Fits.putRacs (tables : RacTables) {symbols : List (ι × Bool)} {states : ι → UInt8}
    (h : Fits c) (hrange : 0x100 ≤ c.range) (hstates : StatesNonzero tables states symbols) :
    ∃ steps, Codes tables c states symbols steps := by
  induction symbols generalizing c states with
  | nil => exact ⟨[], rfl, h, hrange, by simp, by simp, fun _ hin => hin, by simp [getRacs]⟩
  | cons symbol symbols ih =>
    obtain ⟨i, bit⟩ := symbol
    obtain ⟨hstate, hstates⟩ := hstates
    obtain ⟨c', hput⟩ := h.putRac tables hrange hstate bit
    obtain ⟨steps, hcodes⟩ := ih hput.renormed.fits hput.renormed.range_ge hstates
    have hlast := lastEncoder_cons c (⟨c.narrow (states i) bit, c',
      Function.update states i (tables.next (states i) bit)⟩ : PutStep ι) steps
    refine ⟨_ :: steps, ?_, hlast ▸ hcodes.fits, hlast ▸ hcodes.range_ge, ?_, ?_, ?_, ?_⟩
    · rw [RangeCoder.putRacs, hput.put]
      simp only [Option.bind_eq_bind, Option.bind_some, hcodes.put]
    · intro step hstep
      rcases List.mem_cons.mp hstep with rfl | hstep
      · exact hput.renormed.range_ge
      · exact hcodes.ranges_ge step hstep
    · intro step hstep
      rcases List.mem_cons.mp hstep with rfl | hstep
      · exact hput.narrows.fits.shiftable.carryFits
      · exact hcodes.carries step hstep
    · intro bytes hin
      rw [hlast] at hin
      exact hput.contains hrange hstate (hcodes.contains bytes hin)
    · intro bytes d hin hmatches
      rw [hlast] at hin
      obtain ⟨d', hget, hmatches'⟩ := hput.getRac hmatches (hcodes.contains bytes hin)
      obtain ⟨hbits, hstates', hranges⟩ := hcodes.get bytes d' hin hmatches'
      simp only [List.map_cons, getRacs, hget, hbits, hstates', List.mem_cons, true_and]
      rintro step (rfl | hstep)
      · exact hmatches'.range_eq ▸ hput.renormed.range_ge
      · exact hranges step hstep

/-! ## The round trip -/

/-- The encoders that `ff_rac_terminate` calls `renorm_encoder` for. -/
def terminateRenorms (tables : RacTables) (version : Nat) (c : RangeEncoder) : List RangeEncoder :=
  (if version = 1 then [c.narrow 129 false] else []) ++
    (terminatorBit tables version c).toList.flatMap fun c =>
      c.collapse :: (renormEncoder c.collapse).toList.map RangeEncoder.minimize

/-- Terminating writes bytes that are in the interval. -/
theorem Fits.ffRacTerminate (tables : RacTables) (version : Nat) (h : Fits c)
    (hrange : 0x100 ≤ c.range) :
    ∃ c', ffRacTerminate tables version c = some c' ∧ c'.low = 0 ∧ 0x100 ≤ c'.range ∧
      Contains c'.bytestream c ∧ ∀ t ∈ terminateRenorms tables version c, t.CarryFits := by
  unfold RangeCoder.ffRacTerminate terminateRenorms terminatorBit
  by_cases hversion : version = 1
  · have hstate : (129 : UInt8) ≠ 0 := by decide
    obtain ⟨c₀, hput⟩ := h.putRac tables hrange hstate false
    obtain ⟨c₁, c₂, hfirst, hsecond, hcarry₁, hcarry₂, hlow, hwide, hin⟩ :=
      hput.renormed.fits.collapse hput.renormed.range_ge
    simp only [if_pos hversion, hput.put, Option.map_some, Option.bind_eq_bind, Option.bind_some,
      hfirst, hsecond]
    refine ⟨c₂, rfl, hlow, hwide, hput.contains hrange hstate hin, ?_⟩
    simp only [List.singleton_append, Option.toList_some, hfirst, List.flatMap_cons, List.flatMap_nil,
      List.append_nil, List.map_cons, List.map_nil, List.mem_cons, List.not_mem_nil, or_false]
    rintro t (rfl | rfl | rfl)
    · exact hput.narrows.fits.shiftable.carryFits
    · exact hcarry₁.carryFits
    · exact hcarry₂.carryFits
  · obtain ⟨c₁, c₂, hfirst, hsecond, hcarry₁, hcarry₂, hlow, hwide, hin⟩ := h.collapse hrange
    simp only [if_neg hversion, Option.bind_eq_bind, Option.bind_some, hfirst, hsecond]
    refine ⟨c₂, rfl, hlow, hwide, hin, ?_⟩
    simp only [List.nil_append, Option.toList_some, hfirst, List.flatMap_cons, List.flatMap_nil,
      List.append_nil, List.map_cons, List.map_nil, List.mem_cons, List.not_mem_nil, or_false]
    rintro t (rfl | rfl)
    · exact hcarry₁.carryFits
    · exact hcarry₂.carryFits

/-- What holds when the bits that have been put are got from the bytes that were written. -/
structure RoundTrips (tables : RacTables) (version : Nat) (states : ι → UInt8)
    (symbols : List (ι × Bool)) (steps : List (PutStep ι)) (terminated : RangeEncoder) : Prop where
  put_eq : putRacs tables ffInitRangeEncoder states symbols = some steps
  terminate_eq : ffRacTerminate tables version (lastEncoder ffInitRangeEncoder steps) = some terminated
  /-- the bits are the same, -/
  bits_eq : (getRacs tables (ffInitRangeDecoder terminated.bytestream terminated.bytestream.length)
    states (symbols.map Prod.fst)).map GetStep.bit = symbols.map Prod.snd
  /-- and so are the states after each of them; -/
  states_eq : (getRacs tables (ffInitRangeDecoder terminated.bytestream terminated.bytestream.length)
    states (symbols.map Prod.fst)).map GetStep.states = steps.map PutStep.states
  /-- no range becomes small, -/
  put_ranges : ∀ step ∈ steps, 0x100 ≤ step.after.range
  get_ranges : ∀ step ∈ getRacs tables
    (ffInitRangeDecoder terminated.bytestream terminated.bytestream.length) states
    (symbols.map Prod.fst), 0x100 ≤ step.after.range
  terminate_low : terminated.low = 0
  terminate_range : 0x100 ≤ terminated.range
  /-- and no carry is too large. -/
  put_carries : ∀ step ∈ steps, step.narrowed.CarryFits
  terminate_carries : ∀ t ∈ terminateRenorms tables version (lastEncoder ffInitRangeEncoder steps),
    t.CarryFits

/-- The range decoder gets what the range encoder put, whatever the tables are, as long as no
state becomes zero. -/
theorem getRacs_putRacs (tables : RacTables) (version : Nat) (states : ι → UInt8)
    (symbols : List (ι × Bool)) (hstates : StatesNonzero tables states symbols) :
    ∃ steps terminated, RoundTrips tables version states symbols steps terminated := by
  obtain ⟨steps, hcodes⟩ := fits_init.putRacs tables (by decide) hstates
  obtain ⟨terminated, hterminate, hlow, hrange, hin, hcarries⟩ :=
    hcodes.fits.ffRacTerminate tables version hcodes.range_ge
  have hmatches := matches_init (hcodes.contains _ hin)
  obtain ⟨hbits, hstates, hranges⟩ := hcodes.get _ _ hin hmatches
  exact ⟨steps, terminated, hcodes.put, hterminate, hbits, hstates, hcodes.ranges_ge, hranges, hlow,
    hrange, hcodes.carries, hcarries⟩

/-- Tables in which every bit moves the state to the middle. -/
def flatTables : RacTables := ⟨fun _ => 128, fun _ => 128⟩

theorem getRacs_putRacs_flat :
    ∃ steps terminated, RoundTrips flatTables 1 (fun _ : Bool => 200)
      [(true, true), (false, true), (true, false)] steps terminated :=
  getRacs_putRacs flatTables 1 (fun _ => 200) _ ⟨by decide, by decide, by decide, trivial⟩

end FFmpeg.Libavcodec.RangeCoder
