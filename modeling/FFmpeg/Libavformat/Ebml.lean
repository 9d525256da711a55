import FFmpeg.Common.File
import FFmpeg.Libavformat.AvioSource
import FFmpeg.Libavutil.Error

/-!
# EBML numbers

The numbers, lengths and integers that `libavformat/matroskaenc.c` writes and
`libavformat/matroskadec.c` reads.  The writer's functions give the bytes they write, or nothing
where an assertion fails; a `uint64_t` is a number below `2 ^ 64` and an `int64_t` an `Int`.
-/

namespace FFmpeg.Libavformat.Ebml

open Common Libavutil AvioSource

/-! ## Writing -/

/-- `av_log2`, and `ff_log2_tab` for a byte. -/
def avLog2 (v : Nat) : Nat := Nat.log2 v

/-- An `int64_t` as a `uint64_t`, and back. -/
def toUint64 (v : Int) : Nat := (v % 2 ^ 64).toNat

def toInt64 (v : Nat) : Int := (v : Int).bmod (2 ^ 64)

/-- `ebml_id_size`. -/
def ebmlIdSize (id : Nat) : Nat := (avLog2 id + 7) / 8

/-- `put_ebml_id`. -/
def putEbmlId (id : Nat) : Bytes := putBE (ebmlIdSize id) id

/-- `put_ebml_size_unknown`. -/
def putEbmlSizeUnknown (bytes : Nat) : Option Bytes :=
  if bytes ≤ 8 then some (UInt8.ofNat (0x1FF >>> bytes) :: List.replicate (bytes - 1) 0xFF)
  else none

/-- The loop `while (num >>= shift) bytes++;`; a `uint64_t` is zero after so many rounds. -/
def sizeLoop (shift : Nat) : Nat → Nat → Nat → Nat
  | 0, _, bytes => bytes
  | rounds + 1, num, bytes =>
    if num >>> shift ≠ 0 then sizeLoop shift rounds (num >>> shift) (bytes + 1) else bytes

/-- `ebml_num_size`. -/
def ebmlNumSize (num : Nat) : Nat := sizeLoop 7 9 num 1

/-- `ebml_length_size`. -/
def ebmlLengthSize (length : Nat) : Nat := ebmlNumSize ((length + 1) % 2 ^ 64)

/-- `put_ebml_num`. -/
def putEbmlNum (num bytes : Nat) : Bytes := putBE bytes (num ||| 1 <<< (bytes * 7))

/-- `put_ebml_length`. -/
def putEbmlLength (length bytes : Nat) : Option Bytes :=
  let neededBytes := ebmlLengthSize length
  if length < (1 <<< 56) - 1 then
    let bytes := if bytes = 0 then neededBytes else bytes
    if neededBytes ≤ bytes then some (putEbmlNum length bytes) else none
  else none

/-- The bytes of the payload of `put_ebml_uint`. -/
def uintSize (val : Nat) : Nat := sizeLoop 8 7 val 1

/-- `put_ebml_uint`. -/
def putEbmlUint (elementid val : Nat) : Option Bytes := do
  let bytes := uintSize val
  let length ← putEbmlLength bytes 0
  some (putEbmlId elementid ++ length ++ putBE bytes val)

/-- The bytes of the payload of `put_ebml_sint`. -/
def sintSize (val : Int) : Nat := uintSize (toUint64 (2 * if val < 0 then ~~~val else val))

/-- `put_ebml_sint`. -/
def putEbmlSint (elementid : Nat) (val : Int) : Option Bytes := do
  let bytes := sintSize val
  let length ← putEbmlLength bytes 0
  some (putEbmlId elementid ++ length ++ putBE bytes (toUint64 val))

def ebmlIdVoid : Nat := 0xEC

/-- `put_ebml_void`. -/
def putEbmlVoid (size : Nat) : Option Bytes :=
  if 2 ≤ size then do
    let rest := if size < 10 then size - 2 else size - 9
    let length ← putEbmlLength rest (if size < 10 then 0 else 8)
    some (putEbmlId ebmlIdVoid ++ length ++ List.replicate rest 0)
  else none

/-- `ebml_master`. -/
structure EbmlMaster where
  pos : Nat
  sizebytes : Nat
  deriving DecidableEq, Repr

/-- `start_ebml_master`. -/
def startEbmlMaster (pb : GrowableFile UInt8) (elementid expectedsize : Nat) :
    Option (EbmlMaster × GrowableFile UInt8) := do
  let bytes := if expectedsize ≠ 0 then ebmlLengthSize expectedsize else 8
  let size ← putEbmlSizeUnknown bytes
  let pb := pb.write (putEbmlId elementid ++ size)
  some (⟨pb.position, bytes⟩, pb)

/-- `end_ebml_master`; nothing is done if `avio_seek` fails. -/
def endEbmlMaster (seekable : Bool) (pb : GrowableFile UInt8) (master : EbmlMaster) :
    Option (GrowableFile UInt8) :=
  let pos := pb.position
  if seekable then do
    let length ← putEbmlLength (pos - master.pos) master.sizebytes
    some (((pb.seek (master.pos - master.sizebytes)).write length).seek pos)
  else some pb

/-! ## Reading -/

/-- The loop that appends so many bytes to a `uint64_t`. -/
def appendBytes : Nat → Nat → AVIOContext → Nat × AVIOContext
  | 0, total, pb => (total, pb)
  | n + 1, total, pb =>
    let b := avioR8 pb
    appendBytes n ((total <<< 8 ||| b.1.toNat) % 2 ^ 64) b.2

/-- `ebml_read_num`: the bytes read and the number, from a context without read errors. -/
def ebmlReadNum (pb : AVIOContext) (maxSize : Nat) (eofForbidden : Bool) :
    Except AVERROR (Nat × Nat) × AVIOContext :=
  let first := avioR8 pb
  let total := first.1.toNat
  let read := 8 - avLog2 total
  if first.2.eofReached then (.error (if eofForbidden then .eio else .eof), first.2)
  else if total = 0 ∨ maxSize < read then (.error .invalidData, first.2)
  else
    let number := appendBytes (read - 1) (total ^^^ (1 <<< avLog2 total)) first.2
    if number.2.eofReached then (.error .eio, number.2) else (.ok (read, number.1), number.2)

def ebmlUnknownLength : Nat := 2 ^ 64 - 1

/-- `ebml_read_length`. -/
def ebmlReadLength (pb : AVIOContext) : Except AVERROR (Nat × Nat) × AVIOContext :=
  match ebmlReadNum pb 8 true with
  | (.ok (res, number), pb) =>
    (.ok (res, if (number + 1) % 2 ^ 64 = 1 <<< (7 * res) then ebmlUnknownLength else number), pb)
  | failed => failed

/-- `ebml_read_uint`. -/
def ebmlReadUint (pb : AVIOContext) (size : Nat) : Nat × AVIOContext := appendBytes size 0 pb

/-- `ebml_read_sint`. -/
def ebmlReadSint (pb : AVIOContext) (size : Nat) : Int × AVIOContext :=
  if size = 0 then (0, pb)
  else
    let first := avioR8 pb
    let num := appendBytes (size - 1) (toUint64 ((first.1.toNat : Int).bmod (2 ^ 8))) first.2
    (toInt64 num.1, num.2)

/-- `matroska_ebmlnum_sint`. -/
def matroskaEbmlnumSint (pb : AVIOContext) : Except AVERROR (Nat × Int) × AVIOContext :=
  match ebmlReadNum pb 8 true with
  | (.ok (res, unum), pb) => (.ok (res, toInt64 (toUint64 (unum - (2 ^ (7 * res - 1) - 1)))), pb)
  | (.error e, pb) => (.error e, pb)

end FFmpeg.Libavformat.Ebml
