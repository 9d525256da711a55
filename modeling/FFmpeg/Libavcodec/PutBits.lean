import FFmpeg.Common.Bits

/-!
# The bit writer

`libavcodec/put_bits.h`, as it is and with `BITSTREAM_WRITER_LE`, and `avpriv_copy_bits`
of `libavcodec/bitstream.c`.  Unsigned numbers of 32 and 64 bits are natural numbers, and
what may not fit is taken modulo `2 ^ 32`.  A failed assertion ends the program, as
`none`.
-/

namespace FFmpeg.Libavcodec.PutBits

open Common

/-- `PutBitContext`, without its size in bits.  `buf_ptr` is an offset into `buf`, and
`log` is what has been written to the log. -/
structure PutBitContext where
  bitBuf : Nat
  bitLeft : Nat
  buf : Bytes
  bufPtr : Nat
  log : List String
  deriving DecidableEq, Repr

/-- `INT_MAX`. -/
def intMax : Nat := 2 ^ 31 - 1

/-- `init_put_bits`, on a buffer of the size of `buffer`.  The size in bits is an `int`. -/
def initPutBits (buffer : Bytes) : Option PutBitContext :=
  if 8 * buffer.length ≤ intMax then
    some { bitBuf := 0, bitLeft := 32, buf := buffer, bufPtr := 0, log := [] }
  else none

/-- `put_bits_count`. -/
def putBitsCount (s : PutBitContext) : Int := (s.bufPtr : Int) * 8 + 32 - s.bitLeft

/-- `put_bits_left`. -/
def putBitsLeft (s : PutBitContext) : Int :=
  ((s.buf.length : Int) - s.bufPtr) * 8 - 32 + s.bitLeft

/-- `AV_WB32` or `AV_WL32` at `buf_ptr`, where there is room. -/
def storeWord (order : BitOrder) (s : PutBitContext) (bitBuf : Nat) : PutBitContext :=
  if (3 : Int) < (s.buf.length : Int) - s.bufPtr then
    { s with buf := overwrite s.buf s.bufPtr (order.putBytes 4 bitBuf), bufPtr := s.bufPtr + 4 }
  else { s with log := s.log ++ ["Internal error, put_bits buffer too small\n"] }

/-- `put_bits`. -/
def putBits (order : BitOrder) (s : PutBitContext) (n value : Nat) : PutBitContext :=
  match order with
  | .lsbFirst =>
    let bitBuf := s.bitBuf ||| (value <<< (32 - s.bitLeft)) % 2 ^ 32
    if s.bitLeft ≤ n then
      { storeWord .lsbFirst s bitBuf with
        bitBuf := value >>> s.bitLeft
        bitLeft := s.bitLeft + 32 - n }
    else { s with bitBuf := bitBuf, bitLeft := s.bitLeft - n }
  | .msbFirst =>
    if n < s.bitLeft then
      { s with bitBuf := (s.bitBuf <<< n) % 2 ^ 32 ||| value, bitLeft := s.bitLeft - n }
    else
      let bitBuf := (s.bitBuf <<< s.bitLeft) % 2 ^ 32 ||| value >>> (n - s.bitLeft)
      { storeWord .msbFirst s bitBuf with
        bitBuf := value
        bitLeft := s.bitLeft + 32 - n }

/-- `put_bits32`. -/
def putBits32 (order : BitOrder) (s : PutBitContext) (value : Nat) : PutBitContext :=
  match order with
  | .lsbFirst =>
    let bitBuf := s.bitBuf ||| (value <<< (32 - s.bitLeft)) % 2 ^ 32
    { storeWord .lsbFirst s bitBuf with bitBuf := value >>> s.bitLeft }
  | .msbFirst =>
    let bitBuf := (s.bitBuf <<< s.bitLeft) % 2 ^ 32 ||| value >>> (32 - s.bitLeft)
    { storeWord .msbFirst s bitBuf with bitBuf := value }

/-- `put_sbits`.  `value` is converted to `unsigned` and clipped by `av_mod_uintp2`. -/
def putSbits (order : BitOrder) (s : PutBitContext) (n : Nat) (value : Int) : PutBitContext :=
  putBits order s n ((value % 2 ^ 32).toNat &&& (2 ^ n - 1))

/-- `put_bits64`. -/
def putBits64 (order : BitOrder) (s : PutBitContext) (n value : Nat) : PutBitContext :=
  let lo := value &&& 0xffffffff
  let hi := value >>> 32
  if n < 32 then putBits order s n (value % 2 ^ 32)
  else if n = 32 then putBits32 order s (value % 2 ^ 32)
  else if n < 64 then
    match order with
    | .lsbFirst => putBits order (putBits32 order s lo) (n - 32) hi
    | .msbFirst => putBits32 order (putBits order s (n - 32) hi) lo
  else
    match order with
    | .lsbFirst => putBits32 order (putBits32 order s lo) hi
    | .msbFirst => putBits32 order (putBits32 order s hi) lo

/-- The loop of `flush_put_bits`. -/
def flushLoop (order : BitOrder) : Nat → PutBitContext → Option PutBitContext
  | 0, s => some s
  | rounds + 1, s =>
    if s.bitLeft < 32 then
      if s.bufPtr < s.buf.length then
        match order with
        | .lsbFirst =>
          flushLoop order rounds { s with
            buf := overwrite s.buf s.bufPtr [UInt8.ofNat s.bitBuf]
            bufPtr := s.bufPtr + 1
            bitBuf := s.bitBuf >>> 8
            bitLeft := s.bitLeft + 8 }
        | .msbFirst =>
          flushLoop order rounds { s with
            buf := overwrite s.buf s.bufPtr [UInt8.ofNat (s.bitBuf >>> 24)]
            bufPtr := s.bufPtr + 1
            bitBuf := (s.bitBuf <<< 8) % 2 ^ 32
            bitLeft := s.bitLeft + 8 }
      else none
    else some s

/-- `flush_put_bits`. -/
def flushPutBits (order : BitOrder) (s : PutBitContext) : Option PutBitContext := do
  let s :=
    match order with
    | .lsbFirst => s
    | .msbFirst =>
      if s.bitLeft < 32 then { s with bitBuf := (s.bitBuf <<< s.bitLeft) % 2 ^ 32 } else s
  let s ← flushLoop order 4 s
  return { s with bitLeft := 32, bitBuf := 0 }

/-- `skip_put_bytes`. -/
def skipPutBytes (s : PutBitContext) (n : Nat) : Option PutBitContext :=
  if (n : Int) ≤ (s.buf.length : Int) - s.bufPtr then some { s with bufPtr := s.bufPtr + n }
  else none

/-- `AV_RB16`. -/
def rb16 (src : Bytes) (i : Nat) : Nat := getBE [src.getD i 0, src.getD (i + 1) 0]

/-- The loop of `avpriv_copy_bits` up to a word of the stream; it takes three rounds at
most. -/
def copyToWord (src : Bytes) : Nat → PutBitContext → Nat → PutBitContext × Nat
  | 0, s, i => (s, i)
  | rounds + 1, s, i =>
    if putBitsCount s % 32 ≠ 0 then
      copyToWord src rounds (putBits .msbFirst s 8 (src.getD i 0).toNat) (i + 1)
    else (s, i)

/-- The part of `avpriv_copy_bits` that copies `words` pairs of bytes; `small` is
`CONFIG_SMALL`. -/
def copyWords (small : Bool) (s : PutBitContext) (src : Bytes) (words : Nat) :
    Option PutBitContext :=
  if small ∨ words < 16 ∨ putBitsCount s % 8 ≠ 0 then
    some ((List.range words).foldl (fun s i => putBits .msbFirst s 16 (rb16 src (2 * i))) s)
  else do
    let (s, i) := copyToWord src 4 s 0
    let s ← flushPutBits .msbFirst s
    skipPutBytes { s with buf := overwrite s.buf s.bufPtr (slice src i (2 * words - i)) }
      (2 * words - i)

/-- `avpriv_copy_bits`. -/
def avprivCopyBits (small : Bool) (s : PutBitContext) (src : Bytes) (length : Nat) :
    Option PutBitContext :=
  let words := length >>> 4
  let bits := length &&& 15
  if length = 0 then some s
  else if ¬ (length : Int) ≤ putBitsLeft s then none
  else
    (copyWords small s src words).map fun s =>
      putBits .msbFirst s bits (rb16 src (2 * words) >>> (16 - bits))

end FFmpeg.Libavcodec.PutBits
