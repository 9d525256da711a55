import FFmpeg.Libavcodec.GetBits
import FFmpeg.Common.Run

/-!
# The bit reader with a cache between calls

`libavcodec/get_bits.h` with `CACHED_BITSTREAM_READER`, in safe mode and in both bit
orders: up to 64 bits are kept between the calls.  What is in front of the cached bits has
been read, so that the position is `index` less the number of cached bits.  As long as no
more is consumed than there is, every call returns what the reader without a cache does.
-/

namespace FFmpeg.Libavcodec.CachedGetBits

open Common Libavutil GetBits GetBitsStream

/-- `GetBitContext` of the cached reader; `bufferSize` is `buffer_end - buffer`, and
`bitsLeft` is unsigned. -/
structure CachedGetBitContext where
  buffer : Bytes
  bufferSize : Nat
  cache : Nat
  bitsLeft : Nat
  index : Nat
  sizeInBits : Nat
  sizeInBitsPlus8 : Nat
  deriving DecidableEq, Repr

variable (order : BitOrder)

/-- `refill_32`. -/
def refill32 (s : CachedGetBitContext) : CachedGetBitContext :=
  if s.bufferSize ≤ s.index >>> 3 then s
  else
    let word := order.getBytes (window s.buffer (s.index >>> 3) 4)
    { s with
      cache :=
        match order with
        | .lsbFirst => (word <<< s.bitsLeft) % 2 ^ 64 ||| s.cache
        | .msbFirst => s.cache ||| (word <<< (32 - s.bitsLeft)) % 2 ^ 64
      index := s.index + 32
      bitsLeft := s.bitsLeft + 32 }

/-- `refill_64`. -/
def refill64 (s : CachedGetBitContext) : CachedGetBitContext :=
  if s.bufferSize ≤ s.index >>> 3 then s
  else
    { s with
      cache := order.getBytes (window s.buffer (s.index >>> 3) 8)
      index := s.index + 64
      bitsLeft := 64 }

/-- `init_get_bits`: the context and the value returned. -/
def initCachedGetBits (buffer : Bytes) (bitSize : Int) : CachedGetBitContext × Int :=
  let refused := bitSize ≥ intMax - max 7 (avInputBufferPaddingSize * 8) ∨ bitSize < 0
  let size := if refused then 0 else bitSize.toNat
  (refill64 order
    { buffer := if refused then [] else buffer
      bufferSize := (size + 7) >>> 3
      cache := 0
      bitsLeft := 0
      index := 0
      sizeInBits := size
      sizeInBitsPlus8 := size + 8 },
    if refused then AVERROR.invalidData.toInt else 0)

/-- `skip_remaining`. -/
def skipRemaining (s : CachedGetBitContext) (n : Nat) : CachedGetBitContext :=
  { s with
    cache :=
      match order with
      | .lsbFirst => s.cache >>> n
      | .msbFirst => (s.cache <<< n) % 2 ^ 64
    bitsLeft := (s.bitsLeft + 2 ^ 32 - n) % 2 ^ 32 }

/-- `show_val`. -/
def showVal (s : CachedGetBitContext) (n : Nat) : Nat :=
  match order with
  | .lsbFirst => s.cache &&& ((1 <<< n) - 1)
  | .msbFirst => s.cache >>> (64 - n)

/-- `get_val`: what `show_val` shows, and then it is skipped. -/
def getVal (s : CachedGetBitContext) (n : Nat) : Nat × CachedGetBitContext :=
  (showVal order s n, skipRemaining order s n)

/-- `get_bits`. -/
def cachedGetBits (s : CachedGetBitContext) (n : Nat) : Nat × CachedGetBitContext :=
  let s :=
    if s.bitsLeft < n then
      let s := refill32 order s
      if s.bitsLeft < 32 then { s with bitsLeft := n } else s
    else s
  getVal order s n

/-- `show_bits`; the cache may be refilled. -/
def cachedShowBits (s : CachedGetBitContext) (n : Nat) : Nat × CachedGetBitContext :=
  let s := if s.bitsLeft < n then refill32 order s else s
  (showVal order s n, s)

/-- `skip_bits`, for `n ≥ 0`. -/
def cachedSkipBits (s : CachedGetBitContext) (n : Nat) : CachedGetBitContext :=
  if n < s.bitsLeft then skipRemaining order s n
  else
    let n := n - s.bitsLeft
    let skip := if 64 ≤ n then n / 8 * 8 else 0
    let s := refill64 order { s with cache := 0, bitsLeft := 0, index := s.index + skip }
    if n - skip ≠ 0 then skipRemaining order s (n - skip) else s

/-- `get_bits1`. -/
def cachedGetBits1 (s : CachedGetBitContext) : Nat × CachedGetBitContext :=
  getVal order (if s.bitsLeft = 0 then refill64 order s else s) 1

/-- `get_bits_long`. -/
def cachedGetBitsLong (s : CachedGetBitContext) (n : Nat) : Nat × CachedGetBitContext :=
  if n = 0 then (0, s) else cachedGetBits order s n

/-- `get_bits_count`: a difference of unsigned numbers, as an `int`. -/
def cachedGetBitsCount (s : CachedGetBitContext) : Int :=
  Int.bmod ((s.index : Int) - s.bitsLeft) (2 ^ 32)

/-! ## Calls -/

/-- The calls of a reader. -/
inductive ReadCall
  | getBits (n : Nat)
  | getBits1
  | showBits (n : Nat)
  | skipBits (n : Nat)
  | getBitsLong (n : Nat)
  | getBitsCount
  deriving DecidableEq, Repr

/-- The widths the calls are made for. -/
def ReadCall.Admissible : ReadCall → Prop
  | .getBits n => 1 ≤ n ∧ n ≤ 25
  | .showBits n => 1 ≤ n ∧ n ≤ 25
  | .getBitsLong n => n ≤ 32
  | .getBits1 | .skipBits _ | .getBitsCount => True

/-- The number of bits a call consumes. -/
def ReadCall.consumed : ReadCall → Nat
  | .getBits n | .skipBits n | .getBitsLong n => n
  | .getBits1 => 1
  | .showBits _ | .getBitsCount => 0

/-- A call of the reader without a cache: what it returns, if anything, and the context. -/
def plainCall (config : Config) (s : GetBitContext) : ReadCall → Option Int × GetBitContext
  | .getBits n => let (v, s) := GetBits.getBits config s n; (some v, s)
  | .getBits1 => let (v, s) := GetBits.getBits1 config s; (some v, s)
  | .showBits n => (some (GetBits.showBits config s n), s)
  | .skipBits n => (none, GetBits.skipBits config s n)
  | .getBitsLong n => let (v, s) := GetBits.getBitsLong config s n; (some v, s)
  | .getBitsCount => (some (GetBits.getBitsCount s), s)

/-- A call of the cached reader. -/
def cachedCall (s : CachedGetBitContext) : ReadCall → Option Int × CachedGetBitContext
  | .getBits n => let (v, s) := cachedGetBits order s n; (some v, s)
  | .getBits1 => let (v, s) := cachedGetBits1 order s; (some v, s)
  | .showBits n => let (v, s) := cachedShowBits order s n; (some v, s)
  | .skipBits n => (none, cachedSkipBits order s n)
  | .getBitsLong n => let (v, s) := cachedGetBitsLong order s n; (some v, s)
  | .getBitsCount => (some (cachedGetBitsCount s), s)

/-- What the calls return, one after the other. -/
def returned {σ : Type} (step : σ → ReadCall → Option Int × σ) : σ → List ReadCall →
    List (Option Int)
  | _, [] => []
  | s, call :: calls => (step s call).1 :: returned step (step s call).2 calls

end FFmpeg.Libavcodec.CachedGetBits
