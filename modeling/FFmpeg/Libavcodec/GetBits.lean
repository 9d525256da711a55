import FFmpeg.Common.Bits
import FFmpeg.Libavutil.Error

/-!
# The bit reader

`libavcodec/get_bits.h`, as it is and with `BITSTREAM_READER_LE`, without a cache between
calls.  The buffer is the memory from `buffer` on, with the padding behind the data; it
is read a word at a time.
-/

namespace FFmpeg
namespace Libavcodec
namespace GetBits

open Common Libavutil

/-- The order of the bits, and whether `UNCHECKED_BITSTREAM_READER` is set. -/
structure Config where
  order : BitOrder
  unchecked : Bool
  deriving DecidableEq, Repr

/-- `GetBitContext`, without `buffer_end`. -/
structure GetBitContext where
  buffer : Bytes
  index : Nat
  sizeInBits : Nat
  sizeInBitsPlus8 : Nat
  deriving DecidableEq, Repr

/-- `INT_MAX`. -/
def intMax : Nat := 2 ^ 31 - 1

/-- `AV_INPUT_BUFFER_PADDING_SIZE`. -/
def avInputBufferPaddingSize : Nat := 64

/-- `init_get_bits`: the context and the value returned. -/
def initGetBits (buffer : Bytes) (bitSize : Int) : GetBitContext × Int :=
  if bitSize ≥ intMax - max 7 (avInputBufferPaddingSize * 8) ∨ bitSize < 0 then
    ({ buffer := [], index := 0, sizeInBits := 0, sizeInBitsPlus8 := 8 }, AVERROR.invalidData.toInt)
  else
    ({ buffer := buffer
       index := 0
       sizeInBits := bitSize.toNat
       sizeInBitsPlus8 := bitSize.toNat + 8 }, 0)

variable (config : Config)

/-- `AV_RB32` or `AV_RL32`. -/
def loadWord (buffer : Bytes) (p : Nat) : Nat :=
  config.order.getBytes
    [buffer.getD p 0, buffer.getD (p + 1) 0, buffer.getD (p + 2) 0, buffer.getD (p + 3) 0]

/-- `UPDATE_CACHE`. -/
def updateCache (s : GetBitContext) : Nat :=
  match config.order with
  | .msbFirst => (loadWord config s.buffer (s.index >>> 3) <<< (s.index &&& 7)) % 2 ^ 32
  | .lsbFirst => loadWord config s.buffer (s.index >>> 3) >>> (s.index &&& 7)

/-- `zero_extend`. -/
def zeroExtend (val bits : Nat) : Nat := ((val <<< (32 - bits)) % 2 ^ 32) >>> (32 - bits)

/-- `sign_extend`; the shift to the right is that of an `int`. -/
def signExtend (val bits : Nat) : Int :=
  Int.bmod ((val <<< (32 - bits) : Nat) : Int) (2 ^ 32) / 2 ^ (32 - bits)

/-- `SHOW_UBITS`. -/
def showUbits (cache num : Nat) : Nat :=
  match config.order with
  | .msbFirst => cache >>> (32 - num)
  | .lsbFirst => zeroExtend cache num

/-- `SKIP_COUNTER`. -/
def skipCounter (s : GetBitContext) (num : Nat) : GetBitContext :=
  { s with
    index := if config.unchecked then s.index + num else min s.sizeInBitsPlus8 (s.index + num) }

/-- `get_bits`. -/
def getBits (s : GetBitContext) (n : Nat) : Nat × GetBitContext :=
  (showUbits config (updateCache config s) n, skipCounter config s n)

/-- `show_bits`. -/
def showBits (s : GetBitContext) (n : Nat) : Nat := showUbits config (updateCache config s) n

/-- `skip_bits`, for `n ≥ 0`. -/
def skipBits (s : GetBitContext) (n : Nat) : GetBitContext := skipCounter config s n

/-- `get_bits1`. -/
def getBits1 (s : GetBitContext) : Nat × GetBitContext :=
  let byte := (s.buffer.getD (s.index >>> 3) 0).toNat
  let result :=
    match config.order with
    | .msbFirst => ((byte <<< (s.index &&& 7)) % 2 ^ 8) >>> (8 - 1)
    | .lsbFirst => (byte >>> (s.index &&& 7)) &&& 1
  (result, { s with
    index := if config.unchecked ∨ s.index < s.sizeInBitsPlus8 then s.index + 1 else s.index })

/-- `get_bits_count`. -/
def getBitsCount (s : GetBitContext) : Int := s.index

/-- `MIN_CACHE_BITS`. -/
def minCacheBits : Nat := 25

/-- `get_bits_long`. -/
def getBitsLong (s : GetBitContext) (n : Nat) : Nat × GetBitContext :=
  if n = 0 then (0, s)
  else if n ≤ minCacheBits then getBits config s n
  else
    match config.order with
    | .lsbFirst =>
      let (ret, s) := getBits config s 16
      let (high, s) := getBits config s (n - 16)
      (ret ||| (high <<< 16) % 2 ^ 32, s)
    | .msbFirst =>
      let (ret, s) := getBits config s 16
      let (low, s) := getBits config s (n - 16)
      ((ret <<< (n - 16)) % 2 ^ 32 ||| low, s)

/-- `get_bits64`. -/
def getBits64 (s : GetBitContext) (n : Nat) : Nat × GetBitContext :=
  if n ≤ 32 then getBitsLong config s n
  else
    match config.order with
    | .lsbFirst =>
      let (ret, s) := getBitsLong config s 32
      let (high, s) := getBitsLong config s (n - 32)
      (ret ||| (high <<< 32) % 2 ^ 64, s)
    | .msbFirst =>
      let (ret, s) := getBitsLong config s (n - 32)
      let (low, s) := getBitsLong config s 32
      ((ret <<< 32) % 2 ^ 64 ||| low, s)

/-- `get_sbits_long`. -/
def getSbitsLong (s : GetBitContext) (n : Nat) : Int × GetBitContext :=
  if n = 0 then (0, s)
  else
    let (val, s) := getBitsLong config s n
    (signExtend val n, s)

end GetBits
end Libavcodec
end FFmpeg

/-! ## The bit reader reads a stream

A read of up to 25 bits takes them from one word of the buffer, and a wider read puts two
of them together.  As long as a read stays inside the data, its bits are the next ones of
the stream. -/

namespace FFmpeg
namespace Libavcodec
namespace GetBitsStream

open Common GetBits

variable {config : Config} {s : GetBitContext}

/-- The number and the context of a read of `n` bits. -/
structure Gets (order : BitOrder) (s : GetBitContext) (n : Nat) (r : Nat × GetBitContext) : Prop where
  value_lt : r.1 < 2 ^ n
  bits_eq : bits order n r.1 = slice (bitsOfBytes order s.buffer) s.index n
  context_eq : r.2 = { s with index := s.index + n }

/-- There are `n` more bits of data. -/
structure HasBits (s : GetBitContext) (n : Nat) : Prop where
  buffer : s.index + n ≤ 8 * s.buffer.length
  size : s.index + n ≤ s.sizeInBits
  plus8 : s.sizeInBitsPlus8 = s.sizeInBits + 8

variable {n : Nat}

theorem HasBits.mono {m : Nat} (h : HasBits s n) (hm : m ≤ n) : HasBits s m := by
  have hbuffer := h.buffer
  have hsize := h.size
  exact ⟨by lia, by lia, h.plus8⟩

theorem HasBits.after {a b : Nat} (h : HasBits s n) (hn : a + b ≤ n) :
    HasBits { s with index := s.index + a } b := by
  have hbuffer := h.buffer
  have hsize := h.size
  exact ⟨show s.index + a + b ≤ 8 * s.buffer.length by lia,
    show s.index + a + b ≤ s.sizeInBits by lia, h.plus8⟩

/-- The stretch of a word that a read shows. -/
theorem showUbits_spec (config : Config) (s : GetBitContext) (hn : n ≤ 25) :
    bits config.order n (showUbits config (updateCache config s) n) =
        slice (bits config.order 32 (loadWord config s.buffer (s.index >>> 3))) (s.index % 8) n ∧
      showUbits config (updateCache config s) n < 2 ^ n := by
  have hoffset : s.index &&& 7 = s.index % 8 := Nat.and_two_pow_sub_one_eq_mod s.index 3
  have htop : ∀ word : Nat, (word % 2 ^ 32) >>> (32 - n) < 2 ^ n := by
    intro word
    rw [Nat.shiftRight_eq_div_pow]
    apply Nat.div_lt_of_lt_mul
    rw [← Nat.pow_add, Nat.sub_add_cancel (by lia)]
    exact Nat.mod_lt _ (by positivity)
  unfold showUbits updateCache
  rw [hoffset]
  generalize loadWord config s.buffer (s.index >>> 3) = word
  have hk : s.index % 8 ≤ 7 := by lia
  generalize s.index % 8 = k at hk
  cases config.order with
  | msbFirst =>
    refine ⟨?_, htop _⟩
    apply List.ext_getElem?
    intro i
    rw [getElem?_bits, getElem?_slice, getElem?_bits]
    by_cases hi : i < n
    · have hplace : 32 - n + (n - 1 - i) - k = 32 - 1 - (k + i) := by lia
      show (if i < n then some ((((word <<< k) % 2 ^ 32) >>> (32 - n)).testBit (n - 1 - i)) else none) =
        if i < n then if k + i < 32 then some (word.testBit (32 - 1 - (k + i))) else none else none
      rw [if_pos hi, if_pos hi, if_pos (by lia), Nat.testBit_shiftRight, Nat.testBit_mod_two_pow,
        Nat.testBit_shiftLeft, decide_eq_true (by lia), decide_eq_true (by lia), hplace,
        Bool.true_and, Bool.true_and]
    · rw [if_neg hi, if_neg hi]
  | lsbFirst =>
    refine ⟨?_, htop _⟩
    apply List.ext_getElem?
    intro i
    rw [getElem?_bits, getElem?_slice, getElem?_bits]
    by_cases hi : i < n
    · have hplace : 32 - n + i - (32 - n) = i := by lia
      show (if i < n then some ((zeroExtend (word >>> k) n).testBit i) else none) =
        if i < n then if k + i < 32 then some (word.testBit (k + i)) else none else none
      rw [zeroExtend, if_pos hi, if_pos hi, if_pos (by lia), Nat.testBit_shiftRight,
        Nat.testBit_mod_two_pow, Nat.testBit_shiftLeft, decide_eq_true (by lia),
        decide_eq_true (by lia), hplace, Nat.testBit_shiftRight, Bool.true_and, Bool.true_and]
    · rw [if_neg hi, if_neg hi]

theorem getBits_gets (config : Config) (hn : n ≤ 25) (h : HasBits s n) :
    Gets config.order s n (getBits config s n) := by
  have hbuffer := h.buffer
  have hsize := h.size
  have hplus8 := h.plus8
  obtain ⟨hbits, hlt⟩ := showUbits_spec config s hn
  have hword : bits config.order 32 (loadWord config s.buffer (s.index >>> 3)) =
      bitsOfBytes config.order (window s.buffer (s.index >>> 3) 4) :=
    (bitsOfBytes_eq (window s.buffer (s.index >>> 3) 4)).symm
  have hbyte : s.index >>> 3 = s.index / 8 := Nat.shiftRight_eq_div_pow s.index 3
  refine ⟨hlt, ?_, ?_⟩
  · rw [getBits, hbits, hword, slice_window _ s.buffer (by lia) (by lia), hbyte, Nat.div_add_mod]
  · show skipCounter config s n = _
    unfold skipCounter
    split
    · rfl
    · rw [Nat.min_eq_right (by lia)]

theorem Gets.join_msbFirst {a b k : Nat} {r t : Nat × GetBitContext} (hk : a + b ≤ k)
    (hr : Gets .msbFirst s a r) (ht : Gets .msbFirst r.2 b t) :
    Gets .msbFirst s (a + b) ((r.1 <<< b) % 2 ^ k ||| t.1, t.2) := by
  have hcontext := hr.context_eq
  have hbits := ht.bits_eq
  have hnext := ht.context_eq
  rw [hcontext] at hbits hnext
  refine ⟨?_, ?_, hnext.trans ?_⟩
  · refine Nat.or_lt_two_pow ?_ (ht.value_lt.trans_le (Nat.pow_le_pow_right (by decide) (by lia)))
    refine (Nat.mod_le _ _).trans_lt ?_
    rw [Nat.shiftLeft_eq, Nat.pow_add]
    exact Nat.mul_lt_mul_of_pos_right hr.value_lt (by positivity)
  · rw [bits_join_msbFirst hk ht.value_lt, hr.bits_eq, hbits, slice_add]
  · rw [Nat.add_assoc]

theorem Gets.join_lsbFirst {a b k : Nat} {r t : Nat × GetBitContext} (hk : a + b ≤ k)
    (hr : Gets .lsbFirst s a r) (ht : Gets .lsbFirst r.2 b t) :
    Gets .lsbFirst s (a + b) (r.1 ||| (t.1 <<< a) % 2 ^ k, t.2) := by
  have hcontext := hr.context_eq
  have hbits := ht.bits_eq
  have hnext := ht.context_eq
  rw [hcontext] at hbits hnext
  refine ⟨?_, ?_, hnext.trans ?_⟩
  · refine Nat.or_lt_two_pow (hr.value_lt.trans_le (Nat.pow_le_pow_right (by decide) (by lia))) ?_
    refine (Nat.mod_le _ _).trans_lt ?_
    rw [Nat.shiftLeft_eq, Nat.add_comm, Nat.pow_add]
    exact Nat.mul_lt_mul_of_pos_right ht.value_lt (by positivity)
  · rw [bits_join_lsbFirst hk hr.value_lt, hr.bits_eq, hbits, slice_add]
  · rw [Nat.add_assoc]

theorem getBitsLong_gets (config : Config) (hn : n ≤ 32) (h : HasBits s n) :
    Gets config.order s n (getBitsLong config s n) := by
  unfold getBitsLong
  by_cases hzero : n = 0
  · subst hzero
    rw [if_pos rfl]
    exact ⟨Nat.one_pos, (slice_zero _ _).symm, rfl⟩
  · rw [if_neg hzero]
    by_cases hsmall : n ≤ minCacheBits
    · rw [if_pos hsmall]
      exact getBits_gets config hsmall h
    · have hmin : minCacheBits = 25 := rfl
      have hsplit : 16 + (n - 16) = n := by lia
      have hfirst := getBits_gets config (by decide : 16 ≤ 25)
        (h.mono (show 16 ≤ n by lia))
      have hsecond := getBits_gets config (show n - 16 ≤ 25 by lia)
        (h.after (a := 16) (b := n - 16) (by lia))
      rw [← hfirst.context_eq] at hsecond
      rw [if_neg hsmall]
      obtain ⟨order, unchecked⟩ := config
      cases order with
      | msbFirst =>
        have hjoin := hfirst.join_msbFirst (k := 32) (by lia) hsecond
        rw [hsplit] at hjoin
        exact hjoin
      | lsbFirst =>
        have hjoin := hfirst.join_lsbFirst (k := 32) (by lia) hsecond
        rw [hsplit] at hjoin
        exact hjoin

theorem getBits64_gets (config : Config) (hn : n ≤ 64) (h : HasBits s n) :
    Gets config.order s n (getBits64 config s n) := by
  unfold getBits64
  by_cases hsmall : n ≤ 32
  · rw [if_pos hsmall]
    exact getBitsLong_gets config hsmall h
  · rw [if_neg hsmall]
    obtain ⟨order, unchecked⟩ := config
    cases order with
    | msbFirst =>
      have hsplit : n - 32 + 32 = n := by lia
      have hfirst := getBitsLong_gets ⟨.msbFirst, unchecked⟩ (show n - 32 ≤ 32 by lia)
        (h.mono (by lia))
      have hsecond := getBitsLong_gets ⟨.msbFirst, unchecked⟩ (Nat.le_refl 32)
        (h.after (a := n - 32) (b := 32) (by lia))
      rw [← hfirst.context_eq] at hsecond
      have hjoin := hfirst.join_msbFirst (k := 64) (by lia) hsecond
      rw [hsplit] at hjoin
      exact hjoin
    | lsbFirst =>
      have hsplit : 32 + (n - 32) = n := by lia
      have hfirst := getBitsLong_gets ⟨.lsbFirst, unchecked⟩ (Nat.le_refl 32)
        (h.mono (by lia))
      have hsecond := getBitsLong_gets ⟨.lsbFirst, unchecked⟩ (show n - 32 ≤ 32 by lia)
        (h.after (a := 32) (b := n - 32) (by lia))
      rw [← hfirst.context_eq] at hsecond
      have hjoin := hfirst.join_lsbFirst (k := 64) (by lia) hsecond
      rw [hsplit] at hjoin
      exact hjoin

/-- `sign_extend` takes the number modulo `2 ^ bits`, around zero. -/
theorem signExtend_eq {val bits : Nat} (hpos : 0 < bits) (hbits : bits ≤ 32)
    (hval : val < 2 ^ bits) : signExtend val bits = Int.bmod val (2 ^ bits) := by
  obtain ⟨half, hhalf⟩ : ∃ half : Nat, half = 2 ^ (bits - 1) := ⟨_, rfl⟩
  obtain ⟨scale, hscale⟩ : ∃ scale : Nat, scale = 2 ^ (32 - bits) := ⟨_, rfl⟩
  have hrange : 2 ^ bits = 2 * half := by
    rw [hhalf, ← Nat.pow_succ']
    congr 1
    lia
  have hword : 2 ^ 32 = 2 * half * scale := by
    rw [← hrange, hscale, ← Nat.pow_add, Nat.add_sub_cancel' hbits]
  have hscalePos : 0 < scale := by rw [hscale]; positivity
  have hscale' : (2 : Int) ^ (32 - bits) = scale := by rw [hscale]; push_cast; rfl
  rw [hrange] at hval
  unfold signExtend
  rw [hword, hrange, hscale', Nat.shiftLeft_eq, ← hscale, Int.bmod_def, Int.bmod_def]
  have hlow : ((val * scale : Nat) : Int) % ((2 * half * scale : Nat) : Int) = val * scale := by
    rw [← Int.natCast_emod, Nat.mod_eq_of_lt (Nat.mul_lt_mul_of_pos_right hval hscalePos)]
    push_cast
    rfl
  have hlow' : (val : Int) % ((2 * half : Nat) : Int) = val := by
    rw [← Int.natCast_emod, Nat.mod_eq_of_lt hval]
  have hmiddle : (((2 * half * scale : Nat) : Int) + 1) / 2 = half * scale := by
    push_cast
    rw [Int.mul_assoc]
    lia
  have hmiddle' : (((2 * half : Nat) : Int) + 1) / 2 = half := by lia
  rw [hlow, hlow', hmiddle, hmiddle']
  have hpos : (0 : Int) < scale := by exact_mod_cast hscalePos
  by_cases hsign : (val : Int) < half
  · rw [if_pos hsign, if_pos (Int.mul_lt_mul_of_pos_right hsign hpos),
      Int.mul_ediv_cancel _ hpos.ne']
  · rw [if_neg hsign, if_neg (fun h => hsign (lt_of_mul_lt_mul_right h hpos.le))]
    push_cast
    rw [← Int.sub_mul, Int.mul_ediv_cancel _ hpos.ne']

theorem getSbitsLong_eq (hn : n ≤ 32) (h : HasBits s n) :
    getSbitsLong config s n =
      (Int.bmod (getBitsLong config s n).1 (2 ^ n), (getBitsLong config s n).2) := by
  have hlt := (getBitsLong_gets config hn h).value_lt
  unfold getSbitsLong
  by_cases hzero : n = 0
  · subst hzero
    rw [if_pos rfl]
    rfl
  · rw [if_neg hzero, ← signExtend_eq (Nat.pos_of_ne_zero hzero) hn hlt]

end GetBitsStream
end Libavcodec
end FFmpeg
