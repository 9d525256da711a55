import FFmpeg.Libavcodec.PutBits

/-!
# Copying the data of a slice

`libavcodec/cbs_h2645.c`: `cbs_h2645_write_slice_data` puts the bits of a slice behind its
header, whatever the positions of the two are inside of a byte.  A function has no result
when an assertion fails; the ones of `put_bits` and of `skip_put_bytes` that are compiled
only at the highest level are checked too.  A `size_t` has 64 bits.
-/

namespace FFmpeg.Libavcodec.CbsH2645

open Common PutBits

/-- `AVERROR(ENOSPC)`. -/
inductive Failure
  | enospc
  deriving DecidableEq, Repr

/-- `MAX_UINT_BITS`. -/
def maxUintBits (length : Nat) : Nat := 2 ^ length - 1

/-- `ff_ctz`. -/
def ffCtz (v : Nat) : Nat := ((List.range 32).find? v.testBit).getD 32

/-- `put_bits`, with its assertion. -/
def putBitsAsserting (s : PutBitContext) (n value : Nat) : Option PutBitContext :=
  if n ≤ 31 ∧ value < 2 ^ n then some (putBits .msbFirst s n value) else none

/-- `skip_put_bytes`, with its assertions. -/
def skipPutBytesAsserting (s : PutBitContext) (n : Nat) : Option PutBitContext :=
  if putBitsCount s % 8 = 0 ∧ s.bitLeft = 32 then skipPutBytes s n else none

/-- `for (; rest > 4; rest -= 4, pos += 4)`, where `pos` holds the `rest` bytes. -/
def putWords : Bytes → PutBitContext → Bytes × PutBitContext
  | a :: b :: c :: d :: e :: pos, s =>
    putWords (e :: pos) (putBits32 .msbFirst s (getBE [a, b, c, d]))
  | pos, s => (pos, s)

/-- `for (; rest > 1; rest--, pos++)`. -/
def putBytes : Bytes → PutBitContext → Option (Bytes × PutBitContext)
  | a :: b :: pos, s => do putBytes (b :: pos) (← putBitsAsserting s 8 a.toNat)
  | pos, s => some (pos, s)

/-- What comes behind the label `rbsp_stop_one_bit`, with `byte` at `pos`. -/
def rbspStopOneBit (s : PutBitContext) (rest : Nat) (byte : UInt8) (dataBitStart : Nat) :
    Option PutBitContext := do
  let temp :=
    if rest ≠ 0 then byte.toNat else byte.toNat &&& maxUintBits (8 - dataBitStart % 8)
  if temp = 0 then none
  let i := ffCtz byte.toNat
  let temp := temp >>> i
  let i := if rest ≠ 0 then 8 - i else 8 - i - dataBitStart % 8
  let s ← putBitsAsserting s i temp
  if putBitsCount s % 8 ≠ 0 then putBitsAsserting s (8 - (putBitsCount s % 8).toNat) 0
  else some s

/-- What `cbs_h2645_write_slice_data` does behind the first byte; `pos` holds the `rest` bytes. -/
def writeRest (s : PutBitContext) (pos : Bytes) (dataBitStart : Nat) : Option PutBitContext :=
  if putBitsCount s % 8 = 0 then do
    let s ← flushPutBits .msbFirst s
    skipPutBytesAsserting { s with buf := overwrite s.buf s.bufPtr pos } pos.length
  else do
    let (pos, s) := putWords pos s
    let (pos, s) ← putBytes pos s
    rbspStopOneBit s 1 (pos.headD 0) dataBitStart

/-- `cbs_h2645_write_slice_data`. -/
def cbsH2645WriteSliceData (s : PutBitContext) (data : Bytes) (dataBitStart : Nat) :
    Option (Except Failure PutBitContext) :=
  let rest := data.length - (dataBitStart + 7) / 8
  let pos := data.drop (dataBitStart / 8)
  if data.length ≤ dataBitStart / 8 then none
  -- `put_bits_left` is an `int`, which is converted for the comparison
  else if putBitsLeft s % 2 ^ 64 < data.length * 8 + 8 then some (.error .enospc)
  else if rest = 0 then (rbspStopOneBit s 0 (pos.headD 0) dataBitStart).map .ok
  else if dataBitStart % 8 ≠ 0 then do
    let s ← putBitsAsserting s (8 - dataBitStart % 8)
      ((pos.headD 0).toNat &&& maxUintBits (8 - dataBitStart % 8))
    (writeRest s (pos.tail.take rest) dataBitStart).map .ok
  else (writeRest s (pos.take rest) dataBitStart).map .ok

end FFmpeg.Libavcodec.CbsH2645
