import FFmpeg.Libavcodec.GetBits
import FFmpeg.Libavcodec.PutBits

/-!
# Golomb codes

`libavcodec/golomb.h`: the writers, and the readers that have no cache between calls.  A
reader holds a word of the stream in its cache, of which at least 25 bits are valid.  Unsigned
numbers of 32 bits are natural numbers.
-/

namespace FFmpeg.Libavcodec.Golomb

open Common GetBits PutBits

/-- `ff_ue_golomb_len`. -/
def ffUeGolombLen : List Nat :=
  [1, 3, 3, 5, 5, 5, 5, 7, 7, 7, 7, 7, 7, 7, 7, 9, 9, 9, 9, 9, 9, 9, 9, 9, 9, 9, 9, 9, 9, 9, 9,
   11, 11, 11, 11, 11, 11, 11, 11, 11, 11, 11, 11, 11, 11, 11, 11, 11, 11, 11, 11, 11, 11, 11, 11,
   11, 11, 11, 11, 11, 11, 11, 11, 13, 13, 13, 13, 13, 13, 13, 13, 13, 13, 13, 13, 13, 13, 13, 13,
   13, 13, 13, 13, 13, 13, 13, 13, 13, 13, 13, 13, 13, 13, 13, 13, 13, 13, 13, 13, 13, 13, 13, 13,
   13, 13, 13, 13, 13, 13, 13, 13, 13, 13, 13, 13, 13, 13, 13, 13, 13, 13, 13, 13, 13, 13, 13, 13,
   15, 15, 15, 15, 15, 15, 15, 15, 15, 15, 15, 15, 15, 15, 15, 15, 15, 15, 15, 15, 15, 15, 15, 15,
   15, 15, 15, 15, 15, 15, 15, 15, 15, 15, 15, 15, 15, 15, 15, 15, 15, 15, 15, 15, 15, 15, 15, 15,
   15, 15, 15, 15, 15, 15, 15, 15, 15, 15, 15, 15, 15, 15, 15, 15, 15, 15, 15, 15, 15, 15, 15, 15,
   15, 15, 15, 15, 15, 15, 15, 15, 15, 15, 15, 15, 15, 15, 15, 15, 15, 15, 15, 15, 15, 15, 15, 15,
   15, 15, 15, 15, 15, 15, 15, 15, 15, 15, 15, 15, 15, 15, 15, 15, 15, 15, 15, 15, 15, 15, 15, 15,
   15, 15, 15, 15, 15, 15, 15, 15, 17]

/-- `ff_golomb_vlc_len`. -/
def ffGolombVlcLen : List Nat :=
  [19, 17, 15, 15, 13, 13, 13, 13, 11, 11, 11, 11, 11, 11, 11, 11, 9, 9, 9, 9, 9, 9, 9, 9, 9, 9,
   9, 9, 9, 9, 9, 9, 7, 7, 7, 7, 7, 7, 7, 7, 7, 7, 7, 7, 7, 7, 7, 7, 7, 7, 7, 7, 7, 7, 7, 7, 7, 7,
   7, 7, 7, 7, 7, 7, 5, 5, 5, 5, 5, 5, 5, 5, 5, 5, 5, 5, 5, 5, 5, 5, 5, 5, 5, 5, 5, 5, 5, 5, 5, 5,
   5, 5, 5, 5, 5, 5, 5, 5, 5, 5, 5, 5, 5, 5, 5, 5, 5, 5, 5, 5, 5, 5, 5, 5, 5, 5, 5, 5, 5, 5, 5, 5,
   5, 5, 5, 5, 5, 5, 3, 3, 3, 3, 3, 3, 3, 3, 3, 3, 3, 3, 3, 3, 3, 3, 3, 3, 3, 3, 3, 3, 3, 3, 3, 3,
   3, 3, 3, 3, 3, 3, 3, 3, 3, 3, 3, 3, 3, 3, 3, 3, 3, 3, 3, 3, 3, 3, 3, 3, 3, 3, 3, 3, 3, 3, 3, 3,
   3, 3, 3, 3, 3, 3, 3, 3, 3, 3, 3, 3, 3, 3, 3, 3, 3, 3, 3, 3, 3, 3, 3, 3, 3, 3, 3, 3, 3, 3, 3, 3,
   3, 3, 3, 3, 3, 3, 3, 3, 3, 3, 3, 3, 3, 3, 3, 3, 3, 3, 3, 3, 3, 3, 3, 3, 3, 3, 3, 3, 3, 3, 3, 3,
   3, 3, 3, 3, 3, 3, 1, 1, 1, 1, 1, 1, 1, 1, 1, 1, 1, 1, 1, 1, 1, 1, 1, 1, 1, 1, 1, 1, 1, 1, 1, 1,
   1, 1, 1, 1, 1, 1, 1, 1, 1, 1, 1, 1, 1, 1, 1, 1, 1, 1, 1, 1, 1, 1, 1, 1, 1, 1, 1, 1, 1, 1, 1, 1,
   1, 1, 1, 1, 1, 1, 1, 1, 1, 1, 1, 1, 1, 1, 1, 1, 1, 1, 1, 1, 1, 1, 1, 1, 1, 1, 1, 1, 1, 1, 1, 1,
   1, 1, 1, 1, 1, 1, 1, 1, 1, 1, 1, 1, 1, 1, 1, 1, 1, 1, 1, 1, 1, 1, 1, 1, 1, 1, 1, 1, 1, 1, 1, 1,
   1, 1, 1, 1, 1, 1, 1, 1, 1, 1, 1, 1, 1, 1, 1, 1, 1, 1, 1, 1, 1, 1, 1, 1, 1, 1, 1, 1, 1, 1, 1, 1,
   1, 1, 1, 1, 1, 1, 1, 1, 1, 1, 1, 1, 1, 1, 1, 1, 1, 1, 1, 1, 1, 1, 1, 1, 1, 1, 1, 1, 1, 1, 1, 1,
   1, 1, 1, 1, 1, 1, 1, 1, 1, 1, 1, 1, 1, 1, 1, 1, 1, 1, 1, 1, 1, 1, 1, 1, 1, 1, 1, 1, 1, 1, 1, 1,
   1, 1, 1, 1, 1, 1, 1, 1, 1, 1, 1, 1, 1, 1, 1, 1, 1, 1, 1, 1, 1, 1, 1, 1, 1, 1, 1, 1, 1, 1, 1, 1,
   1, 1, 1, 1, 1, 1]

/-- `ff_se_golomb_vlc_code`. -/
def ffSeGolombVlcCode : List Int :=
  [17, 17, 17, 17, 17, 17, 17, 17, 16, 17, 17, 17, 17, 17, 17, 17, 8, -8, 9, -9, 10, -10, 11, -11,
   12, -12, 13, -13, 14, -14, 15, -15, 4, 4, 4, 4, -4, -4, -4, -4, 5, 5, 5, 5, -5, -5, -5, -5, 6,
   6, 6, 6, -6, -6, -6, -6, 7, 7, 7, 7, -7, -7, -7, -7, 2, 2, 2, 2, 2, 2, 2, 2, 2, 2, 2, 2, 2, 2,
   2, 2, -2, -2, -2, -2, -2, -2, -2, -2, -2, -2, -2, -2, -2, -2, -2, -2, 3, 3, 3, 3, 3, 3, 3, 3,
   3, 3, 3, 3, 3, 3, 3, 3, -3, -3, -3, -3, -3, -3, -3, -3, -3, -3, -3, -3, -3, -3, -3, -3, 1, 1,
   1, 1, 1, 1, 1, 1, 1, 1, 1, 1, 1, 1, 1, 1, 1, 1, 1, 1, 1, 1, 1, 1, 1, 1, 1, 1, 1, 1, 1, 1, 1, 1,
   1, 1, 1, 1, 1, 1, 1, 1, 1, 1, 1, 1, 1, 1, 1, 1, 1, 1, 1, 1, 1, 1, 1, 1, 1, 1, 1, 1, 1, 1, -1,
   -1, -1, -1, -1, -1, -1, -1, -1, -1, -1, -1, -1, -1, -1, -1, -1, -1, -1, -1, -1, -1, -1, -1, -1,
   -1, -1, -1, -1, -1, -1, -1, -1, -1, -1, -1, -1, -1, -1, -1, -1, -1, -1, -1, -1, -1, -1, -1, -1,
   -1, -1, -1, -1, -1, -1, -1, -1, -1, -1, -1, -1, -1, -1, -1, 0, 0, 0, 0, 0, 0, 0, 0, 0, 0, 0, 0,
   0, 0, 0, 0, 0, 0, 0, 0, 0, 0, 0, 0, 0, 0, 0, 0, 0, 0, 0, 0, 0, 0, 0, 0, 0, 0, 0, 0, 0, 0, 0, 0,
   0, 0, 0, 0, 0, 0, 0, 0, 0, 0, 0, 0, 0, 0, 0, 0, 0, 0, 0, 0, 0, 0, 0, 0, 0, 0, 0, 0, 0, 0, 0, 0,
   0, 0, 0, 0, 0, 0, 0, 0, 0, 0, 0, 0, 0, 0, 0, 0, 0, 0, 0, 0, 0, 0, 0, 0, 0, 0, 0, 0, 0, 0, 0, 0,
   0, 0, 0, 0, 0, 0, 0, 0, 0, 0, 0, 0, 0, 0, 0, 0, 0, 0, 0, 0, 0, 0, 0, 0, 0, 0, 0, 0, 0, 0, 0, 0,
   0, 0, 0, 0, 0, 0, 0, 0, 0, 0, 0, 0, 0, 0, 0, 0, 0, 0, 0, 0, 0, 0, 0, 0, 0, 0, 0, 0, 0, 0, 0, 0,
   0, 0, 0, 0, 0, 0, 0, 0, 0, 0, 0, 0, 0, 0, 0, 0, 0, 0, 0, 0, 0, 0, 0, 0, 0, 0, 0, 0, 0, 0, 0, 0,
   0, 0, 0, 0, 0, 0, 0, 0, 0, 0, 0, 0, 0, 0, 0, 0, 0, 0, 0, 0, 0, 0, 0, 0, 0, 0, 0, 0, 0, 0, 0, 0,
   0, 0, 0, 0, 0, 0, 0, 0, 0, 0, 0, 0, 0, 0, 0, 0, 0, 0, 0, 0]

/-- `av_log2`. -/
def avLog2 (v : Nat) : Nat := Nat.log2 v

/-- An `int` as an unsigned number. -/
def toUnsigned (v : Int) : Nat := (BitVec.ofInt 32 v).toNat

/-! ## Writing -/

/-- `set_ue_golomb`. -/
def setUeGolomb (pb : PutBitContext) (i : Nat) : PutBitContext :=
  if i < 256 then putBits .msbFirst pb (ffUeGolombLen.getD i 0) (i + 1)
  else
    let e := avLog2 (i + 1)
    putBits .msbFirst pb (2 * e + 1) (i + 1)

/-- `set_ue_golomb_long`. -/
def setUeGolombLong (pb : PutBitContext) (i : Nat) : PutBitContext :=
  if i < 256 then putBits .msbFirst pb (ffUeGolombLen.getD i 0) (i + 1)
  else
    let e := avLog2 (i + 1)
    putBits64 .msbFirst pb (2 * e + 1) (i + 1)

/-- `set_se_golomb`. -/
def setSeGolomb (pb : PutBitContext) (i : Int) : PutBitContext :=
  let i := 2 * i - 1
  setUeGolomb pb (if i < 0 then toUnsigned i ^^^ toUnsigned (-1) else i.toNat)

/-- `v = -2 * i - 1; v ^= (v >> 31)`. -/
def foldSign (i : Int) : Nat :=
  let v := BitVec.ofInt 32 (-2 * i - 1)
  (v ^^^ v.sshiftRight 31).toNat

/-- `set_ur_golomb`. -/
def setUrGolomb (pb : PutBitContext) (i k limit escLen : Nat) : PutBitContext :=
  let e := i >>> k
  if e < limit then putBits .msbFirst pb (e + k + 1) ((1 <<< k) + (i &&& ((1 <<< k) - 1)))
  else putBits .msbFirst pb (limit + escLen) (i - limit + 1)

/-- `while (e > 31) { put_bits(pb, 31, 0); e -= 31; }`, with the `e` that is left. -/
def putZeros : Nat → PutBitContext → Nat → PutBitContext × Nat
  | 0, pb, e => (pb, e)
  | rounds + 1, pb, e =>
    if 31 < e then putZeros rounds (putBits .msbFirst pb 31 0) (e - 31) else (pb, e)

/-- `set_ur_golomb_jpegls`. -/
def setUrGolombJpegls (pb : PutBitContext) (i k limit escLen : Nat) : PutBitContext :=
  let e := (i >>> k) + 1
  if e < limit then
    let (pb, e) := putZeros e pb e
    let pb := putBits .msbFirst pb e 1
    if k ≠ 0 then putSbits .msbFirst pb k i else pb
  else
    let (pb, limit) := putZeros limit pb limit
    let pb := putBits .msbFirst pb limit 1
    putBits .msbFirst pb escLen (i - 1)

/-- `set_sr_golomb`. -/
def setSrGolomb (pb : PutBitContext) (i : Int) (k limit escLen : Nat) : PutBitContext :=
  setUrGolomb pb (foldSign i) k limit escLen

/-- `set_sr_golomb_flac`. -/
def setSrGolombFlac (pb : PutBitContext) (i : Int) (k limit escLen : Nat) : PutBitContext :=
  setUrGolombJpegls pb (foldSign i) k limit escLen

/-! ## Reading

A reader is given as the value and the context that it leaves. -/

variable (config : Config)

/-- `show_bits_long`. -/
def showBitsLong (gb : GetBitContext) (n : Nat) : Nat :=
  if n ≤ minCacheBits then showBits config gb n else (getBitsLong config gb n).1

/-- `skip_bits_long`, for `n ≥ 0`. -/
def skipBitsLong (gb : GetBitContext) (n : Nat) : GetBitContext := skipCounter config gb n

/-- `get_ue_golomb_long`. -/
def getUeGolombLong (gb : GetBitContext) : Nat × GetBitContext :=
  let buf := showBitsLong config gb 32
  let log := 31 - avLog2 buf
  let gb := skipBitsLong config gb log
  let (value, gb) := getBitsLong config gb (log + 1)
  ((2 ^ 32 - 1 + value) % 2 ^ 32, gb)

/-- `get_se_golomb`. -/
def getSeGolomb (gb : GetBitContext) : Int × GetBitContext :=
  let buf := updateCache config gb
  if 1 <<< 27 ≤ buf then
    let buf := buf >>> (32 - 9)
    (ffSeGolombVlcCode.getD buf 0, skipCounter config gb (ffGolombVlcLen.getD buf 0))
  else
    let log := avLog2 buf
    let gb := skipCounter config gb (31 - log)
    let buf := updateCache config gb >>> log
    let gb := skipCounter config gb (32 - log)
    let sign := -BitVec.ofNat 32 (buf &&& 1)
    (((BitVec.ofNat 32 (buf >>> 1) ^^^ sign) - sign).toInt, gb)

/-- `get_ur_golomb`.  The number is the one of the `int` as an `unsigned`. -/
def getUrGolomb (gb : GetBitContext) (k limit escLen : Nat) : Nat × GetBitContext :=
  let buf := updateCache config gb
  let log := avLog2 buf
  if 31 - (limit : Int) < log then
    let buf := (buf >>> (log - k) + ((30 + 2 ^ 32 - log) <<< k)) % 2 ^ 32
    (buf, skipCounter config gb (32 + k - log))
  else
    let gb := skipCounter config gb limit
    let buf := showUbits config (updateCache config gb) escLen
    ((2 ^ 32 - 1 + buf + limit) % 2 ^ 32, skipCounter config gb escLen)

/-- The loop of `get_ur_golomb_jpegls` over whole caches of zeros; `none` where it returns -1
because the data has ended. -/
def skipZeroCaches (limit : Nat) : Nat → GetBitContext → Nat → GetBitContext × Option Nat
  | 0, gb, i => (gb, some i)
  | rounds + 1, gb, i =>
    if i + minCacheBits ≤ limit ∧ showUbits config (updateCache config gb) minCacheBits = 0 then
      if gb.sizeInBits ≤ gb.index then (gb, none)
      else skipZeroCaches limit rounds (skipCounter config gb minCacheBits) (i + minCacheBits)
    else (gb, some i)

/-- The loop of `get_ur_golomb_jpegls` over the zeros of one cache. -/
def skipZeroBits (limit : Nat) : Nat → Nat → GetBitContext → Nat → GetBitContext × Nat
  | 0, _, gb, i => (gb, i)
  | rounds + 1, cache, gb, i =>
    if i < limit ∧ showUbits config cache 1 = 0 then
      skipZeroBits limit rounds ((cache <<< 1) % 2 ^ 32) (skipCounter config gb 1) (i + 1)
    else (gb, i)

/-- The `k` bits of the remainder in `get_ur_golomb_jpegls`. -/
def showRemainder (gb : GetBitContext) (k : Nat) : Nat × GetBitContext :=
  if k ≠ 0 then
    if minCacheBits - 1 < k then
      let buf := (showUbits config (updateCache config gb) 16 <<< (k - 16)) % 2 ^ 32
      let gb := skipCounter config gb 16
      let buf := buf ||| showUbits config (updateCache config gb) (k - 16)
      (buf, skipCounter config gb (k - 16))
    else (showUbits config (updateCache config gb) k, skipCounter config gb k)
  else (0, gb)

/-- `get_ur_golomb_jpegls`.  The number is the one of the `int` as an `unsigned`. -/
def getUrGolombJpegls (gb : GetBitContext) (k limit escLen : Nat) : Nat × GetBitContext :=
  let buf := updateCache config gb
  let log := avLog2 buf
  if (32 - minCacheBits : Int) ≤ (log : Int) - k ∧ 32 - (log : Int) < limit then
    let buf := (buf >>> (log - k) + ((30 + 2 ^ 32 - log) <<< k)) % 2 ^ 32
    (buf, skipCounter config gb (32 + k - log))
  else
    match skipZeroCaches config limit limit gb 0 with
    | (gb, none) => (2 ^ 32 - 1, gb)
    | (gb, some i) =>
      let (gb, i) := skipZeroBits config limit limit (updateCache config gb) gb i
      let gb := skipCounter config gb 1
      if i + 1 < limit then
        let (buf, gb) := showRemainder config gb k
        ((buf + (i <<< k)) % 2 ^ 32, gb)
      else if i + 1 = limit then
        let buf := showUbits config (updateCache config gb) escLen
        ((buf + 1) % 2 ^ 32, skipCounter config gb escLen)
      else (2 ^ 32 - 1, gb)

/-- `(v >> 1) ^ -(v & 1)`. -/
def unfoldSign (v : Nat) : Int :=
  (BitVec.ofNat 32 (v >>> 1) ^^^ -BitVec.ofNat 32 (v &&& 1)).toInt

/-- `get_sr_golomb`. -/
def getSrGolomb (gb : GetBitContext) (k limit escLen : Nat) : Int × GetBitContext :=
  let (v, gb) := getUrGolomb config gb k limit escLen
  (unfoldSign v, gb)

/-- `get_sr_golomb_flac`. -/
def getSrGolombFlac (gb : GetBitContext) (k limit escLen : Nat) : Int × GetBitContext :=
  let (v, gb) := getUrGolombJpegls config gb k limit escLen
  (unfoldSign v, gb)

end FFmpeg.Libavcodec.Golomb
