import FFmpeg.Common.File
import FFmpeg.Libavutil.Crc
import FFmpeg.Libavutil.Error
import FFmpeg.Libavutil.Mathematics
import FFmpeg.Libavutil.Tree

/-!
# NUT files

The data of `libavformat/nut.h` and `nut.c`, and what `nutenc.c` and `nutdec.c` write and
read with: numbers of variable length, and packets with checksums.  The writer's functions
give the bytes they write.  The reader's `AVIOContext` is the file with a position in it,
and the checksum over what has been read since a position; its buffer does not matter.
An `int64_t` is an `Int`, a `uint64_t` a `Nat` below `2 ^ 64`.
-/

namespace FFmpeg.Libavformat.Nut

open Common Libavutil Crc

/-! ## Data -/

def mainStartcode : Nat := 0x7A561F5F04AD + 0x4E4D * 2 ^ 48
def indexStartcode : Nat := 0xDD672F23E64E + 0x4E58 * 2 ^ 48
/-- `Syncpoint`. -/
structure Syncpoint where
  pos : Nat
  backPtr : Nat
  ts : Int
  deriving DecidableEq, Repr

/-- `FrameCode`. -/
structure FrameCode where
  flags : Nat
  streamId : Nat
  sizeMul : Nat
  sizeLsb : Nat
  ptsDelta : Int
  reservedCount : Nat
  headerIdx : Nat
  deriving DecidableEq, Repr

/-- A frame code of zeros. -/
def FrameCode.zero : FrameCode := ⟨0, 0, 0, 0, 0, 0, 0⟩

/-- The conversions to unsigned and signed integers of a width. -/
def toUnsigned (width : Nat) (n : Int) : Nat := (n % 2 ^ width).toNat

def toSigned (width : Nat) (n : Int) : Int := n.bmod (2 ^ width)

/-! ## Writing -/

/-- The loop of `get_v_length`; a `uint64_t` has at most nine more groups of seven bits. -/
def vLengthLoop : Nat → Nat → Nat → Nat
  | 0, _, i => i
  | rounds + 1, val, i => if val >>> 7 ≠ 0 then vLengthLoop rounds (val >>> 7) (i + 1) else i

/-- `get_v_length`. -/
def getVLength (val : Nat) : Nat := vLengthLoop 9 val 1

/-- The bytes of `put_v`, with this many in front of the last one. -/
def putVLoop : Nat → Nat → Bytes
  | 0, val => [UInt8.ofNat (val &&& 127)]
  | i + 1, val => (128 ||| UInt8.ofNat (val >>> (7 * (i + 1)))) :: putVLoop i val

/-- `put_v`. -/
def putV (val : Nat) : Bytes := putVLoop (getVLength val - 1) val

/-- `put_tt`, for the time base of this index. -/
def putTt (timeBase : List AVRational) (index : Nat) (val : Int) : Bytes :=
  putV (toUnsigned 64 (toUnsigned 64 val * timeBase.length + index))

/-- `put_s`. -/
def putS (val : Int) : Bytes := putV (toUnsigned 64 (2 * |val| - if val > 0 then 1 else 0))

/-- The checksum of bytes that are written, from `ffio_init_checksum(bc, ..., 0)` on. -/
def checksum (bytes : Bytes) : Nat := (avCrc avCrc32Ieee 0 0#32 bytes).toNat

/-- `put_packet`. -/
def putPacket (dynBuf : Bytes) (startcode : Nat) : Bytes :=
  let forwPtr := dynBuf.length + 4
  let header := putBE 8 startcode ++ putV forwPtr
  header ++ (if forwPtr > 4096 then putLE 4 (checksum header) else []) ++
    dynBuf ++ putLE 4 (checksum dynBuf)

/-! ## Reading -/

/-- The `AVIOContext` of a file that is read.  The checksum starts from `checksum` at
`checksumPtr`; without `update_checksum` there is none. -/
structure AVIOContext where
  content : Bytes
  pos : Nat
  eofReached : Bool
  updateChecksum : Bool
  checksum : BitVec 32
  checksumPtr : Nat
  deriving DecidableEq, Repr

/-- `avio_r8`. -/
def avioR8 (bc : AVIOContext) : UInt8 × AVIOContext :=
  match bc.content[bc.pos]? with
  | some b => (b, { bc with pos := bc.pos + 1 })
  | none => (0, { bc with eofReached := true })

/-- `avio_rb32`, `avio_rb64` and so on: the number in the next bytes. -/
def avioRB : Nat → AVIOContext → Nat × AVIOContext
  | 0, bc => (0, bc)
  | width + 1, bc =>
    let b := avioR8 bc
    let rest := avioRB width b.2
    (b.1.toNat * 256 ^ width + rest.1, rest.2)

/-- `avio_read`: what is there of so many bytes. -/
def avioRead (bc : AVIOContext) (size : Nat) : Bytes × AVIOContext :=
  let bytes := slice bc.content bc.pos size
  (bytes, { bc with
    pos := bc.pos + bytes.length
    eofReached := bc.eofReached || decide (bytes.length < size) })

/-- `avio_seek` to a position from the start. -/
def avioSeek (bc : AVIOContext) (offset : Int) : AVIOContext :=
  if offset < 0 then bc else { bc with pos := offset.toNat, eofReached := false }

/-- The loop of `ffio_read_varlen`; it ends at the end of the file at the latest. -/
def readVarlenLoop : Nat → Nat → AVIOContext → Nat × AVIOContext
  | 0, val, bc => (val, bc)
  | rounds + 1, val, bc =>
    let tmp := avioR8 bc
    let val := (val <<< 7 + (tmp.1 &&& 127).toNat) % 2 ^ 64
    if tmp.1 &&& 128 ≠ 0 then readVarlenLoop rounds val tmp.2 else (val, tmp.2)

/-- `ffio_read_varlen`. -/
def ffioReadVarlen (bc : AVIOContext) : Nat × AVIOContext :=
  readVarlenLoop (bc.content.length - bc.pos + 1) 0 bc

/-- `get_s`. -/
def getS (bc : AVIOContext) : Int × AVIOContext :=
  let v := ffioReadVarlen bc
  let s := toSigned 64 (v.1 + 1)
  (if s % 2 = 1 then -(s / 2) else s / 2, v.2)

/-- `ffio_init_checksum`, with `ff_crc04C11DB7_update` or `NULL`. -/
def ffioInitChecksum (bc : AVIOContext) (update : Bool) (checksum : BitVec 32) : AVIOContext :=
  if update then
    { bc with updateChecksum := true, checksum := checksum, checksumPtr := bc.pos }
  else { bc with updateChecksum := false }

/-- `ffio_get_checksum`; without `update_checksum` a null pointer is called. -/
def ffioGetChecksum (bc : AVIOContext) : Option (BitVec 32 × AVIOContext) :=
  if bc.updateChecksum then
    let bytes := slice bc.content bc.checksumPtr (bc.pos - bc.checksumPtr)
    let crc := avCrc avCrc32Ieee 0 bc.checksum bytes
    some (crc, { bc with updateChecksum := false, checksum := crc })
  else none

/-- `get_packetheader`: the size, or -1; the result is an `int`. -/
def getPacketheader (bc : AVIOContext) (calculateChecksum : Bool) (startcode : Nat) :
    Option (Int × AVIOContext) := do
  let bc := ffioInitChecksum bc true (avCrc avCrc32Ieee 0 0#32 (putBE 8 startcode))
  let size := ffioReadVarlen bc
  let bc := if toSigned 64 size.1 > 4096 then (avioRB 4 size.2).2 else size.2
  let checksum ← ffioGetChecksum bc
  if checksum.1 ≠ 0 ∧ toSigned 64 size.1 > 4096 then some (-1, checksum.2)
  else some (toSigned 32 size.1, ffioInitChecksum checksum.2 calculateChecksum 0#32)

/-- The loop of `skip_reserved`: whether the bytes are there. -/
def skipBytes : Nat → AVIOContext → Bool × AVIOContext
  | 0, bc => (true, bc)
  | n + 1, bc => if bc.eofReached then (false, bc) else skipBytes n (avioR8 bc).2

/-- `skip_reserved`: whether the position is reached from before it. -/
def skipReserved (bc : AVIOContext) (pos : Int) : Bool × AVIOContext :=
  if pos < bc.pos then (false, avioSeek bc pos) else skipBytes (pos - bc.pos).toNat bc

/-! ## Syncpoints -/

/-- `ff_nut_sp_pos_cmp`. -/
def ffNutSpPosCmp (va vb : Syncpoint) : Int :=
  toSigned 32 ((toUnsigned 64 (va.pos - vb.pos) >>> 32 : Nat) -
    (toUnsigned 64 (vb.pos - va.pos) >>> 32 : Nat))

/-- `ff_nut_add_sp`: the tree and `sp_count`. -/
def ffNutAddSp (syncpoints : AVTree Syncpoint) (spCount : Nat) (pos backPtr : Nat) (ts : Int) :
    AVTree Syncpoint × Nat :=
  ((avTreeInsert ffNutSpPosCmp syncpoints ⟨pos, backPtr, ts⟩ true).1, spCount + 1)

end FFmpeg.Libavformat.Nut
