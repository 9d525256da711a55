import FFmpeg.Common.Overwrite
import FFmpeg.Libavutil.Error
import FFmpeg.Libavutil.Mem

/-!
# Parsers

`ff_combine_frame` and the part of `av_parser_parse2` around it, of `libavcodec/parser.c`.  The
bytes that a caller passes can be read up to `AV_INPUT_BUFFER_PADDING_SIZE` bytes behind
`buf_size`.  A function has no result when it reads or writes outside of a buffer, or when an
assertion fails.
-/

namespace FFmpeg.Libavcodec.Parser

open Common Libavutil

def endNotFound : Int := -100

def avInputBufferPaddingSize : Nat := 64

/-- `ParseContext`; a null `buffer` is an empty one. -/
structure ParseContext where
  buffer : Bytes
  index : Nat
  lastIndex : Nat
  bufferSize : Nat
  state : BitVec 32
  overread : Nat
  overreadIndex : Int
  state64 : BitVec 64
  deriving DecidableEq, Repr

/-- A `ParseContext` of zeros. -/
def ParseContext.zero : ParseContext := ⟨[], 0, 0, 0, 0, 0, 0, 0⟩

/-- The loop that copies so many overread bytes to the front. -/
def copyOverread : Nat → ParseContext → Option ParseContext
  | 0, pc => some { pc with overread := 0 }
  | n + 1, pc =>
    if 0 ≤ pc.overreadIndex ∧ pc.overreadIndex < pc.buffer.length ∧ pc.index < pc.buffer.length then
      copyOverread n { pc with
        buffer := pc.buffer.set pc.index (pc.buffer.getD pc.overreadIndex.toNat 0)
        index := pc.index + 1
        overreadIndex := pc.overreadIndex + 1 }
    else none

/-- The loop that stores so many overread bytes in the state. -/
def storeOverread : Nat → ParseContext → Option ParseContext
  | 0, pc => some pc
  | n + 1, pc =>
    if n + 1 ≤ pc.lastIndex ∧ pc.lastIndex - (n + 1) < pc.buffer.length then
      let b := (pc.buffer.getD (pc.lastIndex - (n + 1)) 0).toNat
      storeOverread n { pc with
        state := pc.state <<< 8 ||| BitVec.ofNat 32 b
        state64 := pc.state64 <<< 8 ||| BitVec.ofNat 64 b
        overread := pc.overread + 1 }
    else none

/-- `memcpy` of the first bytes of `buf` to an index of the buffer. -/
def copyIn (pc : ParseContext) (buf : Bytes) (size : Nat) : Option ParseContext :=
  if size ≤ buf.length ∧ pc.index + size ≤ pc.buffer.length then
    some { pc with buffer := overwrite pc.buffer pc.index (buf.take size) }
  else none

/-- The start of the next frame, and what is behind it, is copied behind the held bytes. -/
def copyFrame (pc : ParseContext) (next : Int) (buf : Bytes) : Option ParseContext :=
  if next > -avInputBufferPaddingSize then
    copyIn pc buf (next + avInputBufferPaddingSize).toNat
  else some pc

/-- `*buf` and `*buf_size`. -/
structure Buf where
  bytes : Bytes
  size : Int
  deriving DecidableEq, Repr

/-- No end is found: the bytes are kept. -/
def keepBytes (malloc : Malloc) (pc : ParseContext) (buf : Bytes) (bufSize : Nat) :
    Option (Except AVERROR Int × Buf × ParseContext) :=
  let new := avFastRealloc malloc pc.buffer pc.bufferSize
    (bufSize + pc.index + avInputBufferPaddingSize)
  match new.1 with
  | none => some (.error .enomem, ⟨buf, bufSize⟩, { pc with index := 0, bufferSize := new.2 })
  | some newBuffer =>
    (copyIn { pc with buffer := newBuffer, bufferSize := new.2 } buf bufSize).map fun pc =>
      (.ok (-1), ⟨buf, bufSize⟩, { pc with index := pc.index + bufSize })

/-- The overread bytes of a frame that ends at `next`. -/
def setOverread (pc : ParseContext) (next : Int) : Option ParseContext :=
  if next < -8 then storeOverread 8 { pc with overread := pc.overread + (-8 - next).toNat }
  else storeOverread (-next).toNat pc

/-- The end is found: the frame is in the buffer, or in the bytes of the caller. -/
def outputFrame (malloc : Malloc) (pc : ParseContext) (next : Int) (buf : Bytes) :
    Option (Except AVERROR Int × Buf × ParseContext) :=
  let size := pc.index + next
  let pc := { pc with overreadIndex := size }
  if 0 < pc.index then
    let new := avFastRealloc malloc pc.buffer pc.bufferSize
      (next + pc.index + avInputBufferPaddingSize).toNat
    match new.1 with
    | none =>
      some (.error .enomem, ⟨buf, size⟩,
        { pc with overreadIndex := 0, index := 0, bufferSize := new.2 })
    | some newBuffer => do
      let copied ← copyFrame { pc with buffer := newBuffer, bufferSize := new.2 } next buf
      let pc ← setOverread { copied with index := 0 } next
      some (.ok 0, ⟨copied.buffer, size⟩, pc)
  else (setOverread pc next).map fun pc => (.ok 0, ⟨buf, size⟩, pc)

/-- `ff_combine_frame`. -/
def ffCombineFrame (malloc : Malloc) (pc : ParseContext) (next : Int) (buf : Bytes)
    (bufSize : Nat) : Option (Except AVERROR Int × Buf × ParseContext) := do
  let pc ← copyOverread pc.overread pc
  if next > bufSize then some (.error .einval, ⟨buf, bufSize⟩, pc)
  else
    let next := if bufSize = 0 ∧ next = endNotFound then 0 else next
    let pc := { pc with lastIndex := pc.index }
    if next = endNotFound then keepBytes malloc pc buf bufSize
    else if next < 0 ∧ pc.buffer = [] then none
    else outputFrame malloc pc next buf

/-! ## The caller -/

/-- A parser, the buffers that it has not been given yet, and `cur_offset`, the number of
bytes it has taken. -/
structure Parsing where
  pc : ParseContext
  bufs : List Bytes
  curOffset : Nat
  deriving DecidableEq, Repr

/-- A frame, and the position in the stream of the end that was chosen for it. -/
structure Frame where
  bytes : Bytes
  ends : Int
  deriving DecidableEq, Repr

/-- The current buffer; at the end of the stream it is empty. -/
def Parsing.buf (s : Parsing) : Bytes := s.bufs.headD []

/-- The buffers behind so many bytes of the current one. -/
def dropBuf (n : Nat) : List Bytes → List Bytes
  | [] => []
  | b :: bufs => if n < b.length then b.drop n :: bufs else bufs

/-- `av_parser_parse2` with a parser that calls `ff_combine_frame` with this `next`.  What can
be read behind the buffer is `padding`. -/
def avParserParse2 (malloc : Malloc) (padding : Bytes) (next : Int) (s : Parsing) :
    Option (Except AVERROR (Option Frame) × Parsing) := do
  let r ← ffCombineFrame malloc s.pc next (s.buf ++ padding) s.buf.length
  match r.1 with
  | .error e => some (.error e, ⟨r.2.2, dropBuf s.buf.length s.bufs, s.curOffset + s.buf.length⟩)
  | .ok ret =>
    if ret < 0 then
      some (.ok none, ⟨r.2.2, dropBuf s.buf.length s.bufs, s.curOffset + s.buf.length⟩)
    else
      let index := (max next 0).toNat
      let ends := if s.buf = [] ∧ next = endNotFound then (s.curOffset : Int)
        else s.curOffset + next
      some (.ok (some ⟨r.2.1.bytes.take r.2.1.size.toNat, ends⟩),
        ⟨r.2.2, dropBuf index s.bufs, s.curOffset + index⟩)

end FFmpeg.Libavcodec.Parser
