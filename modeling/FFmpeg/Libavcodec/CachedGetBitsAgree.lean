import Mathlib.Data.List.GetD
import FFmpeg.Libavcodec.CachedGetBits

/-!
# The two bit readers agree

The cache holds the bits of the memory from the position on, followed by zeros.  Every
number that either reader returns consists of the bits from the position on, so that both
return the same.
-/

namespace FFmpeg.Libavcodec.CachedGetBits

open Common Libavutil GetBits GetBitsStream

variable {order : BitOrder} {mem : Bytes} {bufferSize : Nat}

/-- The data, with zeros behind it. -/
structure Padded (order : BitOrder) (mem : Bytes) (bufferSize size : Nat) : Prop where
  size_le : size ≤ 8 * bufferSize
  bufferSize_le : bufferSize ≤ mem.length
  zero : ∀ i, 8 * bufferSize ≤ i → bitAt order mem i = false

/-- The cached reader is at the position `pos`. -/
structure CachedAt (order : BitOrder) (mem : Bytes) (bufferSize pos : Nat)
    (s : CachedGetBitContext) : Prop where
  buffer_eq : s.buffer = mem
  bufferSize_eq : s.bufferSize = bufferSize
  index_eq : s.index = pos + s.bitsLeft
  aligned : s.index % 8 = 0
  bitsLeft_le : s.bitsLeft ≤ 64
  cache_lt : s.cache < 2 ^ 64
  cache_bits : ∀ i < 64, s.cache.testBit (order.place 64 i) =
    (decide (i < s.bitsLeft) && bitAt order mem (pos + i))

variable {pos size : Nat} {s : CachedGetBitContext}

variable {n : Nat}

theorem testBit_of_lt {v i : Nat} (hv : v < 2 ^ n) (hi : n ≤ i) : v.testBit i = false :=
  Nat.testBit_lt_two_pow (hv.trans_le (Nat.pow_le_pow_right (by decide) hi))

/-- What is in the cache is shown; behind it there are zeros only, which is right at the end
of the data. -/
theorem CachedAt.showVal_isBits (h : CachedAt order mem bufferSize pos s)
    (hpadded : Padded order mem bufferSize size) (hn : n ≤ 64)
    (henough : n ≤ s.bitsLeft ∨ 8 * bufferSize ≤ s.index) :
    IsBits order mem pos n (showVal order s n) := by
  have hbit : ∀ i < n, s.cache.testBit (order.place 64 i) = bitAt order mem (pos + i) := by
    intro i hi
    rw [h.cache_bits i (by lia)]
    by_cases hin : i < s.bitsLeft
    · rw [decide_eq_true hin, Bool.true_and]
    · have hindex := h.index_eq
      rw [hpadded.zero (pos + i) (by lia), Bool.and_false]
  cases order with
  | lsbFirst =>
    have hmask : showVal .lsbFirst s n = s.cache % 2 ^ n := by
      rw [showVal, Nat.one_shiftLeft, Nat.and_two_pow_sub_one_eq_mod]
    rw [hmask]
    refine ⟨Nat.mod_lt _ (by positivity), fun i hi => ?_⟩
    show (s.cache % 2 ^ n).testBit i = _
    rw [Nat.testBit_mod_two_pow, decide_eq_true hi, Bool.true_and]
    exact hbit i hi
  | msbFirst =>
    refine ⟨?_, fun i hi => ?_⟩
    · show s.cache >>> (64 - n) < 2 ^ n
      rw [Nat.shiftRight_eq_div_pow]
      apply Nat.div_lt_of_lt_mul
      rw [← Nat.pow_add, Nat.sub_add_cancel hn]
      exact h.cache_lt
    · have hplace : 64 - n + (n - 1 - i) = 64 - 1 - i := by lia
      show (s.cache >>> (64 - n)).testBit (n - 1 - i) = _
      rw [Nat.testBit_shiftRight, hplace]
      exact hbit i hi

/-- Skipping bits of the cache. -/
theorem CachedAt.skipRemaining (h : CachedAt order mem bufferSize pos s) (hn : n ≤ s.bitsLeft) :
    CachedAt order mem bufferSize (pos + n) (skipRemaining order s n) := by
  have hindex := h.index_eq
  have hmax := h.bitsLeft_le
  have hleft : (s.bitsLeft + 2 ^ 32 - n) % 2 ^ 32 = s.bitsLeft - n := by lia
  refine ⟨h.buffer_eq, h.bufferSize_eq, ?_, h.aligned, ?_, ?_, fun i hi => ?_⟩
  · show s.index = pos + n + (s.bitsLeft + 2 ^ 32 - n) % 2 ^ 32
    lia
  · show (s.bitsLeft + 2 ^ 32 - n) % 2 ^ 32 ≤ 64
    lia
  · cases order with
    | lsbFirst =>
      exact (Nat.shiftRight_le s.cache n).trans_lt h.cache_lt
    | msbFirst => exact Nat.mod_lt _ (by decide)
  · show _ = (decide (i < (s.bitsLeft + 2 ^ 32 - n) % 2 ^ 32) && bitAt order mem (pos + n + i))
    rw [hleft]
    have hmoved : pos + n + i = pos + (n + i) := by lia
    have hless : decide (i < s.bitsLeft - n) = decide (n + i < s.bitsLeft) := by
      rw [decide_eq_decide]
      lia
    rw [hmoved, hless]
    by_cases hin : n + i < 64
    · rw [← h.cache_bits (n + i) hin]
      cases order with
      | lsbFirst =>
        show (s.cache >>> n).testBit i = _
        rw [Nat.testBit_shiftRight]
        rfl
      | msbFirst =>
        have hplace : 64 - 1 - i - n = 64 - 1 - (n + i) := by lia
        show ((s.cache <<< n) % 2 ^ 64).testBit (64 - 1 - i) = _
        rw [Nat.testBit_mod_two_pow, Nat.testBit_shiftLeft, decide_eq_true (by lia),
          decide_eq_true (by lia), hplace, Bool.true_and, Bool.true_and]
        rfl
    · rw [decide_eq_false (by lia), Bool.false_and]
      cases order with
      | lsbFirst =>
        show (s.cache >>> n).testBit i = _
        rw [Nat.testBit_shiftRight]
        exact testBit_of_lt h.cache_lt (by lia)
      | msbFirst =>
        show ((s.cache <<< n) % 2 ^ 64).testBit (64 - 1 - i) = _
        rw [Nat.testBit_mod_two_pow, Nat.testBit_shiftLeft,
          decide_eq_false (by lia : ¬ 64 - 1 - i ≥ n), Bool.false_and, Bool.and_false]

/-- Filling up the cache by 32 bits, unless the data has come to an end. -/
theorem CachedAt.refill32 (h : CachedAt order mem bufferSize pos s) (hleft : s.bitsLeft ≤ 32) :
    CachedAt order mem bufferSize pos (refill32 order s) ∧
      ((refill32 order s).bitsLeft = s.bitsLeft + 32 ∨
        (refill32 order s = s ∧ 8 * bufferSize ≤ s.index)) := by
  have hbyte : s.index >>> 3 = s.index / 8 := Nat.shiftRight_eq_div_pow s.index 3
  have haligned := h.aligned
  have hindex := h.index_eq
  have hsize := h.bufferSize_eq
  have hword := isBits_window order mem (s.index / 8) 4
  unfold CachedGetBits.refill32
  rw [hbyte, h.buffer_eq]
  generalize order.getBytes (window mem (s.index / 8) 4) = word at hword
  split_ifs with hend
  · exact ⟨h, .inr ⟨rfl, by lia⟩⟩
  · refine ⟨⟨rfl, h.bufferSize_eq, ?_, ?_, ?_, ?_, fun i hi => ?_⟩, .inl rfl⟩
    · dsimp only
      lia
    · dsimp only
      lia
    · dsimp only
      lia
    · cases order with
      | lsbFirst => exact Nat.or_lt_two_pow (Nat.mod_lt _ (by decide)) h.cache_lt
      | msbFirst => exact Nat.or_lt_two_pow h.cache_lt (Nat.mod_lt _ (by decide))
    · have hold := h.cache_bits i hi
      have hnew : s.bitsLeft ≤ i → i < s.bitsLeft + 32 →
          word.testBit (order.place 32 (i - s.bitsLeft)) = bitAt order mem (pos + i) := by
        intro hle hlt
        have hplace : 8 * (s.index / 8) + (i - s.bitsLeft) = pos + i := by lia
        rw [hword.testBit (i - s.bitsLeft) (by lia), hplace]
      have hlt := hword.lt
      cases order with
      | lsbFirst =>
        show ((word <<< s.bitsLeft) % 2 ^ 64 ||| s.cache).testBit i =
          (decide (i < s.bitsLeft + 32) && _)
        change s.cache.testBit i = _ at hold
        change _ → _ → word.testBit (i - s.bitsLeft) = _ at hnew
        rw [Nat.testBit_or, hold, Nat.testBit_mod_two_pow, Nat.testBit_shiftLeft,
          decide_eq_true hi, Bool.true_and]
        rcases lt_or_ge i s.bitsLeft with hin | hout
        · simp [hin, Nat.not_le.mpr hin, (by lia : i < s.bitsLeft + 32)]
        · rcases lt_or_ge i (s.bitsLeft + 32) with hin | hbehind
          · simp [hin, hout, Nat.not_lt.mpr hout, hnew hout hin]
          · have hzero := testBit_of_lt hlt (by lia : 8 * 4 ≤ i - s.bitsLeft)
            simp [Nat.not_lt.mpr hout, Nat.not_lt.mpr hbehind, hzero]
      | msbFirst =>
        show (s.cache ||| (word <<< (32 - s.bitsLeft)) % 2 ^ 64).testBit (64 - 1 - i) =
          (decide (i < s.bitsLeft + 32) && _)
        change s.cache.testBit (64 - 1 - i) = _ at hold
        change _ → _ → word.testBit (32 - 1 - (i - s.bitsLeft)) = _ at hnew
        rw [Nat.testBit_or, hold, Nat.testBit_mod_two_pow, Nat.testBit_shiftLeft,
          decide_eq_true (by lia : 64 - 1 - i < 64), Bool.true_and]
        rcases lt_or_ge i s.bitsLeft with hin | hout
        · have hzero := testBit_of_lt hlt (by lia : 8 * 4 ≤ 64 - 1 - i - (32 - s.bitsLeft))
          simp [hin, hzero, (by lia : i < s.bitsLeft + 32)]
        · rcases lt_or_ge i (s.bitsLeft + 32) with hin | hbehind
          · have hplace : 64 - 1 - i - (32 - s.bitsLeft) = 32 - 1 - (i - s.bitsLeft) := by lia
            rw [hplace, hnew hout hin, decide_eq_true (by lia : 64 - 1 - i ≥ 32 - s.bitsLeft)]
            simp [hin, Nat.not_lt.mpr hout]
          · rw [decide_eq_false (by lia : ¬ 64 - 1 - i ≥ 32 - s.bitsLeft)]
            simp [Nat.not_lt.mpr hout, Nat.not_lt.mpr hbehind]

theorem CachedAt.refill64 (h : CachedAt order mem bufferSize pos s) (hleft : s.bitsLeft = 0) :
    CachedAt order mem bufferSize pos (refill64 order s) ∧
      ((refill64 order s).bitsLeft = 64 ∨ (refill64 order s = s ∧ 8 * bufferSize ≤ s.index)) := by
  have hbyte : s.index >>> 3 = s.index / 8 := Nat.shiftRight_eq_div_pow s.index 3
  have haligned := h.aligned
  have hindex := h.index_eq
  have hsize := h.bufferSize_eq
  have hword := isBits_window order mem (s.index / 8) 8
  unfold CachedGetBits.refill64
  rw [hbyte, h.buffer_eq]
  split_ifs with hend
  · exact ⟨h, .inr ⟨rfl, by lia⟩⟩
  · refine ⟨⟨rfl, h.bufferSize_eq, ?_, ?_, le_rfl, hword.lt, fun i hi => ?_⟩, .inl rfl⟩
    · dsimp only
      lia
    · dsimp only
      lia
    · have hplace : 8 * (s.index / 8) + i = pos + i := by lia
      show (order.getBytes (window mem (s.index / 8) 8)).testBit (order.place 64 i) =
        (decide (i < 64) && _)
      rw [hword.testBit i hi, hplace, decide_eq_true hi, Bool.true_and]

/-! ## The calls of the cached reader -/

/-- A read of the cached reader: the bits from the position on, and the position behind them. -/
structure CachedReads (order : BitOrder) (mem : Bytes) (bufferSize pos n : Nat)
    (r : Nat × CachedGetBitContext) : Prop where
  value : IsBits order mem pos n r.1
  after : CachedAt order mem bufferSize (pos + n) r.2

theorem CachedAt.cachedGetBits (h : CachedAt order mem bufferSize pos s)
    (hpadded : Padded order mem bufferSize size) (hn : n ≤ 32) (hsize : pos + n ≤ size) :
    CachedReads order mem bufferSize pos n (cachedGetBits order s n) := by
  have hpad := hpadded.size_le
  have hindex := h.index_eq
  unfold CachedGetBits.cachedGetBits
  dsimp only
  by_cases hless : s.bitsLeft < n
  · obtain ⟨hfilled, henough | ⟨-, hend⟩⟩ := h.refill32 (by lia)
    · rw [if_pos hless, if_neg (by lia)]
      exact ⟨hfilled.showVal_isBits hpadded (by lia) (.inl (by lia)),
        hfilled.skipRemaining (by lia)⟩
    · lia
  · rw [if_neg hless]
    exact ⟨h.showVal_isBits hpadded (by lia) (.inl (by lia)), h.skipRemaining (by lia)⟩

theorem CachedAt.cachedGetBits1 (h : CachedAt order mem bufferSize pos s)
    (hpadded : Padded order mem bufferSize size) (hsize : pos + 1 ≤ size) :
    CachedReads order mem bufferSize pos 1 (cachedGetBits1 order s) := by
  have hpad := hpadded.size_le
  have hindex := h.index_eq
  unfold CachedGetBits.cachedGetBits1
  by_cases hempty : s.bitsLeft = 0
  · obtain ⟨hfilled, henough | ⟨-, hend⟩⟩ := h.refill64 hempty
    · rw [if_pos hempty]
      exact ⟨hfilled.showVal_isBits hpadded (by lia) (.inl (by lia)),
        hfilled.skipRemaining (by lia)⟩
    · lia
  · rw [if_neg hempty]
    exact ⟨h.showVal_isBits hpadded (by lia) (.inl (by lia)), h.skipRemaining (by lia)⟩

theorem CachedAt.cachedShowBits (h : CachedAt order mem bufferSize pos s)
    (hpadded : Padded order mem bufferSize size) (hn : n ≤ 32) :
    IsBits order mem pos n (cachedShowBits order s n).1 ∧
      CachedAt order mem bufferSize pos (cachedShowBits order s n).2 := by
  unfold CachedGetBits.cachedShowBits
  dsimp only
  by_cases hless : s.bitsLeft < n
  · rw [if_pos hless]
    obtain ⟨hfilled, henough | ⟨hsame, hend⟩⟩ := h.refill32 (by lia)
    · exact ⟨hfilled.showVal_isBits hpadded (by lia) (.inl (by lia)), hfilled⟩
    · rw [hsame]
      exact ⟨h.showVal_isBits hpadded (by lia) (.inr hend), h⟩
  · rw [if_neg hless]
    exact ⟨h.showVal_isBits hpadded (by lia) (.inl (by lia)), h⟩

theorem CachedAt.drop (h : CachedAt order mem bufferSize pos s) {skip : Nat}
    (hskip : skip % 8 = 0) :
    CachedAt order mem bufferSize (pos + s.bitsLeft + skip)
      { s with cache := 0, bitsLeft := 0, index := s.index + skip } := by
  have hindex := h.index_eq
  have haligned := h.aligned
  refine ⟨h.buffer_eq, h.bufferSize_eq, ?_, ?_, Nat.zero_le _, Nat.two_pow_pos 64, fun i _ => ?_⟩
  · dsimp only
    lia
  · dsimp only
    lia
  · simp

theorem CachedAt.cachedSkipBits (h : CachedAt order mem bufferSize pos s)
    (hpadded : Padded order mem bufferSize size) (hsize : pos + n ≤ size) :
    CachedAt order mem bufferSize (pos + n) (cachedSkipBits order s n) := by
  have hpad := hpadded.size_le
  have hindex := h.index_eq
  unfold CachedGetBits.cachedSkipBits
  by_cases hless : n < s.bitsLeft
  · rw [if_pos hless]
    exact h.skipRemaining hless.le
  · rw [if_neg hless]
    dsimp only
    -- whole bytes are skipped in the buffer only if there are many of them
    obtain ⟨skip, hskip⟩ : ∃ skip, skip =
        if 64 ≤ n - s.bitsLeft then (n - s.bitsLeft) / 8 * 8 else 0 := ⟨_, rfl⟩
    have hbytes : skip % 8 = 0 ∧ skip ≤ n - s.bitsLeft ∧ n - s.bitsLeft - skip < 64 := by
      split_ifs at hskip <;> lia
    rw [← hskip]
    obtain ⟨hfilled, henough⟩ := (h.drop hbytes.1).refill64 rfl
    split_ifs with hrest
    · -- there are more bits, as not all has been skipped yet
      have hall : pos + s.bitsLeft + skip + (n - s.bitsLeft - skip) = pos + n := by lia
      rcases henough with henough | ⟨-, hend⟩
      · have hafter := hfilled.skipRemaining (n := n - s.bitsLeft - skip) (by lia)
        rwa [hall] at hafter
      · dsimp only at hend
        lia
    · have hall : pos + s.bitsLeft + skip = pos + n := by lia
      rwa [hall] at hfilled

theorem CachedAt.cachedGetBitsCount (h : CachedAt order mem bufferSize pos s)
    (hpos : pos < 2 ^ 31) : cachedGetBitsCount s = pos := by
  have hindex := h.index_eq
  rw [CachedGetBits.cachedGetBitsCount, Int.bmod_def]
  split_ifs <;> lia

/-! ## The calls of the reader without a cache -/

/-- The reader without a cache is at the position `pos`. -/
structure PlainAt (mem : Bytes) (size pos : Nat) (t : GetBitContext) : Prop where
  buffer_eq : t.buffer = mem
  index_eq : t.index = pos
  sizeInBits_eq : t.sizeInBits = size
  sizeInBitsPlus8_eq : t.sizeInBitsPlus8 = size + 8

variable {config : Config} {t : GetBitContext}

theorem PlainAt.hasBits (h : PlainAt mem size pos t) (hpadded : Padded order mem bufferSize size)
    (hsize : pos + n ≤ size) : HasBits t n := by
  have hpad := hpadded.size_le
  have hmem := hpadded.bufferSize_le
  refine ⟨?_, ?_, ?_⟩
  · rw [h.buffer_eq, h.index_eq]
    lia
  · rw [h.index_eq, h.sizeInBits_eq]
    exact hsize
  · rw [h.sizeInBitsPlus8_eq, h.sizeInBits_eq]

theorem PlainAt.gets (h : PlainAt mem size pos t) (hpadded : Padded order mem bufferSize size)
    (hsize : pos + n ≤ size) {r : Nat × GetBitContext} (hr : Gets order t n r) :
    IsBits order mem pos n r.1 ∧ PlainAt mem size (pos + n) r.2 := by
  have hpad := hpadded.size_le
  have hmem := hpadded.bufferSize_le
  have hbits := hr.bits_eq
  rw [h.buffer_eq, h.index_eq] at hbits
  refine ⟨isBits_of_slice hr.value_lt (by lia) hbits, ?_⟩
  rw [hr.context_eq]
  exact ⟨h.buffer_eq, by rw [← h.index_eq], h.sizeInBits_eq, h.sizeInBitsPlus8_eq⟩

theorem PlainAt.showBits (h : PlainAt mem size pos t) (hn : n ≤ 25) :
    IsBits config.order mem pos n (showBits config t n) := by
  obtain ⟨hbits, hlt⟩ := showUbits_spec config t hn
  have hbyte : t.index >>> 3 = t.index / 8 := Nat.shiftRight_eq_div_pow t.index 3
  have hword := isBits_window config.order mem (pos / 8) 4
  rw [hbyte, h.buffer_eq, h.index_eq] at hbits
  refine ⟨hlt, fun i hi => ?_⟩
  have hbit := congrArg (fun l => l[i]?) hbits
  have hplace : 8 * (pos / 8) + (pos % 8 + i) = pos + i := by lia
  rw [getElem?_bits, if_pos hi, getElem?_slice, if_pos hi, getElem?_bits, if_pos (by lia)] at hbit
  rw [← hplace, ← hword.testBit (pos % 8 + i) (by lia)]
  exact Option.some.inj hbit

theorem PlainAt.skipBits (h : PlainAt mem size pos t) (hsize : pos + n ≤ size) :
    PlainAt mem size (pos + n) (skipBits config t n) := by
  have hindex := h.index_eq
  have hplus8 := h.sizeInBitsPlus8_eq
  refine ⟨h.buffer_eq, ?_, h.sizeInBits_eq, h.sizeInBitsPlus8_eq⟩
  unfold GetBits.skipBits skipCounter
  dsimp only
  split_ifs <;> lia

theorem getBits1_value (config : Config) (t : GetBitContext) :
    (getBits1 config t).1 = (bitAt config.order t.buffer t.index).toNat := by
  have hbyte : t.index >>> 3 = t.index / 8 := Nat.shiftRight_eq_div_pow t.index 3
  have hoffset : t.index &&& 7 = t.index % 8 := Nat.and_two_pow_sub_one_eq_mod t.index 3
  have hless : t.index % 8 < 8 := Nat.mod_lt _ (by decide)
  unfold GetBits.getBits1 bitAt
  dsimp only
  rw [hbyte, hoffset, Nat.toNat_testBit]
  generalize (t.buffer.getD (t.index / 8) 0).toNat = byte
  generalize t.index % 8 = k at hless
  cases config.order with
  | msbFirst =>
    show ((byte <<< k) % 2 ^ 8) >>> (8 - 1) = byte / 2 ^ (8 - 1 - k) % 2
    rw [Nat.shiftRight_eq_div_pow, Nat.shiftLeft_eq]
    interval_cases k <;> lia
  | lsbFirst =>
    show (byte >>> k) &&& 1 = byte / 2 ^ k % 2
    rw [Nat.and_one_is_mod, Nat.shiftRight_eq_div_pow]

theorem PlainAt.getBits1 (h : PlainAt mem size pos t) (hsize : pos + 1 ≤ size) :
    IsBits config.order mem pos 1 (getBits1 config t).1 ∧
      PlainAt mem size (pos + 1) (getBits1 config t).2 := by
  have hindex := h.index_eq
  have hplus8 := h.sizeInBitsPlus8_eq
  constructor
  · rw [getBits1_value, h.buffer_eq, hindex]
    refine ⟨Bool.toNat_lt _, fun i hi => ?_⟩
    obtain rfl : i = 0 := by lia
    have hplace : config.order.place 1 0 = 0 := by cases config.order <;> rfl
    rw [hplace, Nat.add_zero]
    cases bitAt config.order mem pos <;> rfl
  · refine ⟨h.buffer_eq, ?_, h.sizeInBits_eq, h.sizeInBitsPlus8_eq⟩
    unfold GetBits.getBits1
    dsimp only
    rw [if_pos (.inr (by lia))]
    lia

/-! ## Agreement -/

/-- A call returns the same from both readers, and both move by what it consumes. -/
theorem call_agrees (hpadded : Padded config.order mem bufferSize size) (hmax : size < 2 ^ 31)
    (ht : PlainAt mem size pos t) (hs : CachedAt config.order mem bufferSize pos s)
    {call : ReadCall} (hcall : call.Admissible) (hsize : pos + call.consumed ≤ size) :
    (plainCall config t call).1 = (cachedCall config.order s call).1 ∧
      PlainAt mem size (pos + call.consumed) (plainCall config t call).2 ∧
      CachedAt config.order mem bufferSize (pos + call.consumed)
        (cachedCall config.order s call).2 := by
  cases call with
  | getBits n =>
    obtain ⟨hvalue, hafter⟩ :=
      ht.gets hpadded hsize (getBits_gets config hcall.2 (ht.hasBits hpadded hsize))
    have hcached := hs.cachedGetBits hpadded (hcall.2.trans (by decide)) hsize
    exact ⟨congrArg (fun v : Nat => some (v : Int)) (hvalue.eq hcached.value), hafter,
      hcached.after⟩
  | getBits1 =>
    obtain ⟨hvalue, hafter⟩ := ht.getBits1 hsize
    have hcached := hs.cachedGetBits1 hpadded hsize
    exact ⟨congrArg (fun v : Nat => some (v : Int)) (hvalue.eq hcached.value), hafter,
      hcached.after⟩
  | showBits n =>
    obtain ⟨hcached, hafter⟩ := hs.cachedShowBits hpadded (hcall.2.trans (by decide))
    exact ⟨congrArg (fun v : Nat => some (v : Int)) ((ht.showBits hcall.2).eq hcached), ht, hafter⟩
  | skipBits n => exact ⟨rfl, ht.skipBits hsize, hs.cachedSkipBits hpadded hsize⟩
  | getBitsLong n =>
    obtain ⟨hvalue, hafter⟩ :=
      ht.gets hpadded hsize (getBitsLong_gets config hcall (ht.hasBits hpadded hsize))
    by_cases hzero : n = 0
    · subst hzero
      exact ⟨rfl, ht, hs⟩
    · have hcached := hs.cachedGetBits hpadded hcall hsize
      have hlong : cachedGetBitsLong config.order s n = cachedGetBits config.order s n :=
        if_neg hzero
      rw [← hlong] at hcached
      exact ⟨congrArg (fun v : Nat => some (v : Int)) (hvalue.eq hcached.value), hafter,
        hcached.after⟩
  | getBitsCount =>
    have hcount := hs.cachedGetBitsCount (by have h : pos + 0 ≤ size := hsize; lia)
    refine ⟨?_, ht, hs⟩
    show some (t.index : Int) = some (cachedGetBitsCount s)
    rw [hcount, ht.index_eq]

theorem returned_eq (hpadded : Padded config.order mem bufferSize size) (hmax : size < 2 ^ 31)
    {calls : List ReadCall} (hcalls : ∀ call ∈ calls, call.Admissible)
    (ht : PlainAt mem size pos t) (hs : CachedAt config.order mem bufferSize pos s)
    (hsize : pos + (calls.map ReadCall.consumed).sum ≤ size) :
    returned (plainCall config) t calls = returned (cachedCall config.order) s calls := by
  induction calls generalizing pos t s with
  | nil => rfl
  | cons call calls ih =>
    rw [List.map_cons, List.sum_cons] at hsize
    obtain ⟨hvalue, ht', hs'⟩ := call_agrees hpadded hmax ht hs
      (hcalls call (List.mem_cons_self ..)) (by lia)
    have hrest := ih (fun c hc => hcalls c (List.mem_cons_of_mem _ hc)) ht' hs' (by lia)
    rw [returned, returned, hvalue, hrest]

/-- A buffer with enough zeros behind the data of `bitSize` bits. -/
structure ZeroPadded (buffer : Bytes) (bitSize : Int) : Prop where
  length : (bitSize.toNat + 7) / 8 + avInputBufferPaddingSize ≤ buffer.length
  zero : ∀ i, (bitSize.toNat + 7) / 8 ≤ i → buffer.getD i 0 = 0

theorem ZeroPadded.padded {buffer : Bytes} {bitSize : Int} (h : ZeroPadded buffer bitSize)
    (order : BitOrder) : Padded order buffer ((bitSize.toNat + 7) / 8) bitSize.toNat := by
  have hlength := h.length
  refine ⟨by lia, by lia, fun i hi => ?_⟩
  rw [bitAt, h.zero (i / 8) (by lia)]
  exact Nat.zero_testBit _

theorem cachedAt_start (order : BitOrder) (buffer : Bytes) (size : Nat) :
    CachedAt order buffer ((size + 7) / 8) 0
      (refill64 order
        { buffer := buffer
          bufferSize := (size + 7) >>> 3
          cache := 0
          bitsLeft := 0
          index := 0
          sizeInBits := size
          sizeInBitsPlus8 := size + 8 }) := by
  have hshift : (size + 7) >>> 3 = (size + 7) / 8 := Nat.shiftRight_eq_div_pow _ 3
  refine (CachedAt.refill64 ?_ rfl).1
  exact ⟨rfl, hshift, rfl, rfl, Nat.zero_le _, Nat.two_pow_pos 64, fun i _ => by simp⟩

/-- As long as no more is consumed than the size in bits, the cached reader and the reader
without a cache return the same from every call. -/
theorem cached_agrees (config : Config) (buffer : Bytes) (bitSize : Int)
    (hbuffer : ZeroPadded buffer bitSize) (calls : List ReadCall)
    (hcalls : ∀ call ∈ calls, call.Admissible)
    (hsize : (calls.map ReadCall.consumed).sum ≤ (initGetBits buffer bitSize).1.sizeInBits) :
    returned (plainCall config) (initGetBits buffer bitSize).1 calls =
      returned (cachedCall config.order) (initCachedGetBits config.order buffer bitSize).1 calls := by
  unfold initGetBits at hsize ⊢
  unfold initCachedGetBits
  dsimp only
  split_ifs at hsize ⊢ with hrefused
  · have hpadded : Padded config.order [] 0 0 :=
      ⟨le_rfl, le_rfl, fun i _ => Nat.zero_testBit _⟩
    exact returned_eq hpadded (by decide) hcalls ⟨rfl, rfl, rfl, rfl⟩
      (cachedAt_start config.order [] 0) ((Nat.zero_add _).trans_le hsize)
  · have hmax : bitSize.toNat < 2 ^ 31 := by
      unfold intMax at hrefused
      lia
    exact returned_eq (hbuffer.padded config.order) hmax hcalls ⟨rfl, rfl, rfl, rfl⟩
      (cachedAt_start config.order buffer bitSize.toNat) ((Nat.zero_add _).trans_le hsize)

/-- Three bytes of data: a read across a refill, a look behind the end and a long read. -/
theorem cached_agrees_threeBytes :
    returned (plainCall ⟨.msbFirst, false⟩)
        (initGetBits ([0xA5, 0x0F, 0x3C] ++ List.replicate 64 0) 24).1
        [.getBits 5, .getBits1, .skipBits 3, .showBits 25, .getBitsLong 15, .getBitsCount] =
      returned (cachedCall .msbFirst)
        (initCachedGetBits .msbFirst ([0xA5, 0x0F, 0x3C] ++ List.replicate 64 0) 24).1
        [.getBits 5, .getBits1, .skipBits 3, .showBits 25, .getBitsLong 15, .getBitsCount] := by
  refine cached_agrees ⟨.msbFirst, false⟩ _ 24 ⟨by decide, fun i hi => ?_⟩ _ ?_ (by decide)
  · rw [List.getD_append_right _ _ _ _ hi, List.getD_eq_getElem?_getD, List.getElem?_replicate]
    split_ifs <;> rfl
  · intro call hcall
    fin_cases hcall <;> simp [ReadCall.Admissible]

end FFmpeg.Libavcodec.CachedGetBits
