import Mathlib.Tactic
import FFmpeg.Common.Bytes
import FFmpeg.Common.Overwrite
import FFmpeg.Libavutil.Error
import FFmpeg.Libavutil.Mathematics
import FFmpeg.Libavutil.Mem

/-!
# Buffered input and output

The `AVIOContext` of `libavformat/aviobuf.c`, in read and in write mode, for
contexts without a checksum and without data markers.  The pointers into the
buffer are offsets from its start, and the callbacks work on a state of their
own, the data behind the source's `opaque` pointer.
-/

namespace FFmpeg.Libavformat.Avio

open Common Libavutil

/-- The `whence` argument of a seek. -/
inductive Whence
  | seekSet
  | seekCur
  | seekEnd
  | avseekSize
  deriving DecidableEq, Repr

/-- The callbacks of a context, on a state of type `ω`. -/
structure Callbacks (ω : Type) where
  readPacket : Option (ω → Nat → Except AVERROR Bytes × ω)
  writePacket : Option (ω → Bytes → Except AVERROR Nat × ω)
  seek : Option (ω → Int → Whence → Except AVERROR Int × ω)
  shortSeekGet : Option (ω → Int)

/-- `struct AVIOContext`.  `buf_ptr`, `buf_end` and `buf_ptr_max` are offsets into
`buffer`, `error` is `none` for 0, and `seekable` is `AVIO_SEEKABLE_NORMAL`. -/
structure AVIOContext (ω : Type) where
  buffer : Bytes
  bufPtr : Nat
  bufEnd : Nat
  bufPtrMax : Nat
  source : ω
  pos : Int
  eofReached : Bool
  error : Option AVERROR
  writeFlag : Bool
  direct : Bool
  seekable : Bool
  maxPacketSize : Nat
  origBufferSize : Nat
  shortSeekThreshold : Int
  deriving DecidableEq, Repr

/-- `IO_BUFFER_SIZE`. -/
def ioBufferSize : Nat := 32768

/-- `SHORT_SEEK_THRESHOLD`. -/
def defaultShortSeekThreshold : Int := 4096

variable {ω : Type}

/-- `s->buffer_size`. -/
def AVIOContext.bufferSize (s : AVIOContext ω) : Nat := s.buffer.length

/-- `ffio_init_context`. -/
def ffioInitContext (cb : Callbacks ω) (buffer : Bytes) (writeFlag : Bool) (source : ω) :
    AVIOContext ω :=
  let memory := cb.readPacket.isNone && !writeFlag
  { buffer := buffer
    bufPtr := 0
    bufEnd := if writeFlag || memory then buffer.length else 0
    bufPtrMax := 0
    source := source
    pos := if memory then buffer.length else 0
    eofReached := false
    error := none
    writeFlag := writeFlag
    direct := false
    seekable := cb.seek.isSome
    maxPacketSize := 0
    origBufferSize := buffer.length
    shortSeekThreshold := defaultShortSeekThreshold }

/-! ## Reading -/

/-- `read_packet_wrapper`: a read of nothing counts as the end of the file unless
the source is made of packets. -/
def readPacketWrapper (cb : Callbacks ω) (s : AVIOContext ω) (size : Nat) :
    Except AVERROR Bytes × ω :=
  match cb.readPacket with
  | none => (.error .einval, s.source)
  | some readPacket =>
    match readPacket s.source size with
    | (.ok [], source) => (if s.maxPacketSize = 0 then .error .eof else .ok [], source)
    | r => r

/-- `ffio_set_buf_size` in read mode: a new buffer without content. -/
def ffioSetBufSize (s : AVIOContext ω) (bufSize : Nat) : AVIOContext ω :=
  { s with
    buffer := List.replicate bufSize 0
    origBufferSize := bufSize
    bufPtr := 0
    bufPtrMax := 0
    bufEnd := if s.writeFlag then bufSize else 0 }

/-- The end of a read that put `ret` at offset `dst` of the buffer. -/
def AVIOContext.filled (s : AVIOContext ω) (dst : Nat) (ret : Except AVERROR Bytes × ω) :
    AVIOContext ω :=
  match ret with
  | (.error .eof, source) => { s with source := source, eofReached := true }
  | (.error e, source) => { s with source := source, eofReached := true, error := some e }
  | (.ok bytes, source) =>
    { s with
      source := source
      buffer := overwrite s.buffer dst bytes
      pos := s.pos + bytes.length
      bufPtr := dst
      bufEnd := dst + bytes.length }

/-- `fill_buffer`. -/
def fillBuffer (cb : Callbacks ω) (s : AVIOContext ω) : AVIOContext ω :=
  let maxBufferSize := if s.maxPacketSize ≠ 0 then s.maxPacketSize else ioBufferSize
  let dst := if s.bufEnd + maxBufferSize < s.bufferSize then s.bufEnd else 0
  let len := s.bufferSize - dst
  -- can't fill the buffer without read_packet, just set EOF if appropriate
  let s :=
    if cb.readPacket.isNone ∧ s.bufEnd ≤ s.bufPtr then { s with eofReached := true } else s
  if s.eofReached then s
  else if cb.readPacket.isSome ∧ s.origBufferSize ≠ 0 ∧ s.origBufferSize < s.bufferSize ∧
      s.origBufferSize ≤ len then
    -- make buffer smaller in case it ended up large after probing
    if dst = 0 ∧ s.bufPtr ≠ dst then
      let s := ffioSetBufSize s s.origBufferSize
      s.filled 0 (readPacketWrapper cb s s.origBufferSize)
    else s.filled dst (readPacketWrapper cb s s.origBufferSize)
  else s.filled dst (readPacketWrapper cb s len)

/-- `avio_feof`. -/
def avioFeof (cb : Callbacks ω) (s : AVIOContext ω) : Bool × AVIOContext ω :=
  let s := if s.eofReached then fillBuffer cb { s with eofReached := false } else s
  (s.eofReached, s)

/-- `avio_r8`. -/
def avioR8 (cb : Callbacks ω) (s : AVIOContext ω) : UInt8 × AVIOContext ω :=
  let s := if s.bufEnd ≤ s.bufPtr then fillBuffer cb s else s
  if s.bufPtr < s.bufEnd then (s.buffer.getD s.bufPtr 0, { s with bufPtr := s.bufPtr + 1 })
  else (0, s)

/-- The bytes `len` from `buf_ptr` on. -/
def AVIOContext.copyOut (s : AVIOContext ω) (len : Nat) : Bytes :=
  (s.buffer.drop s.bufPtr).take len

/-- The loop of `avio_read`: the bytes read for a request of `size` more.  Every
second round at least delivers a byte. -/
def avioReadLoop (cb : Callbacks ω) : Nat → Nat → AVIOContext ω → Bytes × AVIOContext ω
  | 0, _, s => ([], s)
  | rounds + 1, size, s =>
    if size = 0 then ([], s)
    else
      let len := min (s.bufEnd - s.bufPtr) size
      if len = 0 ∨ s.writeFlag then
        if s.direct ∨ s.bufferSize < size then
          -- bypass the buffer and read data directly
          match readPacketWrapper cb s size with
          | (.error .eof, source) => ([], { s with source := source, eofReached := true })
          | (.error e, source) =>
            ([], { s with source := source, eofReached := true, error := some e })
          | (.ok bytes, source) =>
            let (buf, s) := avioReadLoop cb rounds (size - bytes.length)
              { s with source := source, pos := s.pos + bytes.length, bufPtr := 0, bufEnd := 0 }
            (bytes ++ buf, s)
        else
          let s := fillBuffer cb s
          if s.bufEnd - s.bufPtr = 0 then ([], s) else avioReadLoop cb rounds size s
      else
        let bytes := s.copyOut len
        let (buf, s) := avioReadLoop cb rounds (size - len) { s with bufPtr := s.bufPtr + len }
        (bytes ++ buf, s)

/-- The return value of a read that got `buf`: nothing at all is an error or the
end of the file. -/
def readResult (cb : Callbacks ω) (buf : Bytes) (s : AVIOContext ω) :
    Except AVERROR Bytes × AVIOContext ω :=
  if buf = [] then
    match s.error with
    | some e => (.error e, s)
    | none =>
      match avioFeof cb s with
      | (true, s) => (.error .eof, s)
      | (false, s) => (.ok buf, s)
  else (.ok buf, s)

/-- `avio_read`. -/
def avioRead (cb : Callbacks ω) (s : AVIOContext ω) (size : Nat) :
    Except AVERROR Bytes × AVIOContext ω :=
  let (buf, s) := avioReadLoop cb (2 * size) size s
  readResult cb buf s

/-- `avio_read_partial`. -/
def avioReadPartial (cb : Callbacks ω) (s : AVIOContext ω) (size : Nat) :
    Except AVERROR Bytes × AVIOContext ω :=
  if cb.readPacket.isSome ∧ s.writeFlag then
    match readPacketWrapper cb s size with
    | (.error e, source) => (.error e, { s with source := source })
    | (.ok bytes, source) => (.ok bytes, { s with source := source, pos := s.pos + bytes.length })
  else
    let s :=
      if s.bufEnd - s.bufPtr = 0 then fillBuffer cb { s with bufPtr := 0, bufEnd := 0 } else s
    let len := min (s.bufEnd - s.bufPtr) size
    let buf := s.copyOut len
    readResult cb buf { s with bufPtr := s.bufPtr + len }

/-! ## Writing -/

/-- `writeout`. -/
def writeout (cb : Callbacks ω) (s : AVIOContext ω) (data : Bytes) : AVIOContext ω :=
  let s :=
    if s.error.isSome then s
    else
      match cb.writePacket with
      | none => s
      | some writePacket =>
        match writePacket s.source data with
        | (.error e, source) => { s with source := source, error := some e }
        | (.ok _, source) => { s with source := source }
  { s with pos := s.pos + data.length }

/-- `flush_buffer`. -/
def flushBuffer (cb : Callbacks ω) (s : AVIOContext ω) : AVIOContext ω :=
  let bufPtrMax := max s.bufPtr s.bufPtrMax
  let s :=
    if s.writeFlag ∧ 0 < bufPtrMax then writeout cb s (s.buffer.take bufPtrMax) else s
  { s with
    bufPtr := 0
    bufPtrMax := 0
    bufEnd := if s.writeFlag then s.bufEnd else 0 }

/-- A flush if the buffer is full. -/
def flushIfFull (cb : Callbacks ω) (s : AVIOContext ω) : AVIOContext ω :=
  if s.bufEnd ≤ s.bufPtr then flushBuffer cb s else s

/-- `avio_w8`. -/
def avioW8 (cb : Callbacks ω) (s : AVIOContext ω) (b : UInt8) : AVIOContext ω :=
  flushIfFull cb { s with buffer := overwrite s.buffer s.bufPtr [b], bufPtr := s.bufPtr + 1 }

/-- The loop of `avio_write`; every round but the first takes at least a byte of
`buf`, as the buffer has been flushed by then. -/
def avioWriteLoop (cb : Callbacks ω) : Nat → Bytes → AVIOContext ω → AVIOContext ω
  | 0, _, s => s
  | rounds + 1, buf, s =>
    if buf = [] then s
    else
      let len := min (s.bufEnd - s.bufPtr) buf.length
      let s := flushIfFull cb { s with
        buffer := overwrite s.buffer s.bufPtr (buf.take len)
        bufPtr := s.bufPtr + len }
      avioWriteLoop cb rounds (buf.drop len) s

/-! ## Seeking -/

/-- The loop of `avio_seek` that reads up to `offset`; every round gets a byte or
the end of the file. -/
def fillUpTo (cb : Callbacks ω) (offset : Int) : Nat → AVIOContext ω → AVIOContext ω
  | 0, s => s
  | rounds + 1, s =>
    if s.pos < offset ∧ ¬ s.eofReached then fillUpTo cb offset rounds (fillBuffer cb s) else s

/-- The threshold below which reading is preferred to seeking. -/
def shortSeek (cb : Callbacks ω) (s : AVIOContext ω) : Int :=
  match cb.shortSeekGet with
  | none => s.shortSeekThreshold
  | some shortSeekGet =>
    if shortSeekGet s.source ≤ 0 then s.shortSeekThreshold else shortSeekGet s.source

/-- The absolute position that the beginning of the buffer corresponds to. -/
def AVIOContext.bufferStart (s : AVIOContext ω) : Int :=
  s.pos - (if s.writeFlag then 0 else s.bufEnd)

/-- The seek callback with `SEEK_SET`; without one there is nothing to seek in. -/
def seekSource (cb : Callbacks ω) (source : ω) (offset : Int) : Except AVERROR Int × ω :=
  match cb.seek with
  | none => (.error .epipe, source)
  | some seek => seek source offset .seekSet

/-- The last branch of `avio_seek`: repositioning the resource itself. -/
def seekResource (cb : Callbacks ω) (s : AVIOContext ω) (offset : Int) :
    Except AVERROR Int × AVIOContext ω :=
  let s := if s.writeFlag then flushBuffer cb s else s
  match seekSource cb s.source offset with
  | (.error e, source) => (.error e, { s with source := source })
  | (.ok _, source) =>
    (.ok offset, { s with
      source := source
      bufEnd := if s.writeFlag then s.bufEnd else 0
      bufPtr := 0
      bufPtrMax := 0
      pos := offset
      eofReached := false })

/-- `avio_seek` to the absolute position `offset ≥ 0`.  The third branch rewinds by
half a buffer and starts over, and then finds the position in the buffer. -/
def avioSeekTo (cb : Callbacks ω) : Nat → AVIOContext ω → Int → Except AVERROR Int × AVIOContext ω
  | 0, s, _ => (.error .other, s)
  | depth + 1, s, offset =>
    let bufferSize := s.bufEnd
    let pos := s.bufferStart
    let offset1 := offset - pos
    let s := { s with bufPtrMax := max s.bufPtrMax s.bufPtr }
    if (¬ s.direct ∨ cb.seek.isNone) ∧ 0 ≤ offset1 ∧
        offset1 ≤ (if s.writeFlag then s.bufPtrMax else bufferSize) then
      -- can do the seek inside the buffer
      (.ok offset, { s with bufPtr := offset1.toNat, eofReached := false })
    else if (¬ s.seekable ∨ offset1 ≤ bufferSize + shortSeek cb s) ∧ ¬ s.writeFlag ∧
        0 ≤ offset1 ∧ (¬ s.direct ∨ cb.seek.isNone) then
      let s := fillUpTo cb offset ((offset - s.pos).toNat + 1) s
      if s.eofReached then (.error .eof, s)
      else
        (.ok offset, { s with
          bufPtr := (s.bufEnd - (s.pos - offset)).toNat, eofReached := false })
    else if ¬ s.writeFlag ∧ offset1 < 0 ∧ -offset1 < bufferSize / 2 ∧ cb.seek.isSome ∧
        0 < offset then
      let pos := pos - min ((bufferSize / 2 : Nat) : Int) pos
      match seekSource cb s.source pos with
      | (.error e, source) => (.error e, { s with source := source })
      | (.ok _, source) =>
        let s := { s with
          source := source, bufEnd := 0, bufPtr := 0, pos := pos, eofReached := false }
        avioSeekTo cb depth (fillBuffer cb s) offset
    else seekResource cb s offset

/-- `avio_seek`. -/
def avioSeek (cb : Callbacks ω) (s : AVIOContext ω) (offset : Int) (whence : Whence) :
    Except AVERROR Int × AVIOContext ω :=
  match whence with
  | .avseekSize =>
    match cb.seek with
    | none => (.error .enosys, s)
    | some seek =>
      let (ret, source) := seek s.source offset .avseekSize
      (ret, { s with source := source })
  | .seekEnd => (.error .einval, s)
  | .seekCur =>
    let offset1 := s.bufferStart + s.bufPtr
    if offset = 0 then (.ok offset1, s)
    else if offset > int64Max - offset1 then (.error .einval, s)
    else if offset + offset1 < 0 then (.error .einval, s)
    else avioSeekTo cb 2 s (offset + offset1)
  | .seekSet =>
    if offset < 0 then (.error .einval, s) else avioSeekTo cb 2 s offset

/-- `avio_skip`. -/
def avioSkip (cb : Callbacks ω) (s : AVIOContext ω) (offset : Int) :
    Except AVERROR Int × AVIOContext ω :=
  avioSeek cb s offset .seekCur

/-- `ffio_ensure_seekback`.  There is no result where the size overflows an `int64_t` or
the assertion fails. -/
def ffioEnsureSeekback (malloc : Malloc) (cb : Callbacks ω) (s : AVIOContext ω)
    (bufSize : Int) : Option (Except AVERROR Unit × AVIOContext ω) :=
  let maxBufferSize := if s.maxPacketSize ≠ 0 then s.maxPacketSize else ioBufferSize
  let filled := s.bufEnd
  let bufSize := bufSize + (s.bufPtr + maxBufferSize : Nat)
  if int64Max < bufSize then none
  else if bufSize < filled ∨ s.seekable ∨ cb.readPacket.isNone then some (.ok (), s)
  else if s.writeFlag then none
  else
    match avMalloc malloc bufSize.toNat with
    | none => some (.error .enomem, s)
    | some buffer =>
      some (.ok (), { s with buffer := overwrite buffer 0 (s.buffer.take filled) })

/-- `avio_flush`. -/
def avioFlush (cb : Callbacks ω) (s : AVIOContext ω) : AVIOContext ω :=
  let seekback : Int := if s.writeFlag then min 0 ((s.bufPtr : Int) - s.bufPtrMax) else 0
  let s := flushBuffer cb s
  if seekback ≠ 0 then (avioSeek cb s seekback .seekCur).2 else s

/-- `avio_write`. -/
def avioWrite (cb : Callbacks ω) (s : AVIOContext ω) (buf : Bytes) : AVIOContext ω :=
  if s.direct then writeout cb (avioFlush cb s) buf
  else avioWriteLoop cb (buf.length + 1) buf s

/-! ## Output in a dynamic buffer -/

/-- `struct DynBuffer`; the io buffer is the buffer of the context, and `buffer`
has the allocated size. -/
structure DynBuffer where
  pos : Nat
  size : Nat
  buffer : Bytes
  deriving DecidableEq, Repr

/-- `INT_MAX/2`, the largest size of a dynamic buffer. -/
def dynBufMax : Nat := 2 ^ 30 - 1

/-- The loop of `dyn_buf_write` that grows the allocated size by half. -/
def growAllocated (newSize : Nat) : Nat → Nat → Nat
  | 0, allocated => allocated
  | rounds + 1, allocated =>
    if allocated < newSize then
      growAllocated newSize rounds
        (if allocated = 0 then newSize else allocated + (allocated / 2 + 1))
    else allocated

/-- `dyn_buf_write`, when memory can be allocated. -/
def dynBufWrite (d : DynBuffer) (buf : Bytes) : Except AVERROR Nat × DynBuffer :=
  let newSize := (d.pos + buf.length) % 2 ^ 32
  if newSize < d.pos ∨ dynBufMax < newSize then (.error .other, d)
  else
    let allocated := growAllocated newSize newSize d.buffer.length
    let buffer := d.buffer ++ List.replicate (allocated - d.buffer.length) 0
    (.ok buf.length,
      { pos := newSize, size := max d.size newSize, buffer := overwrite buffer d.pos buf })

/-- `dyn_buf_seek`. -/
def dynBufSeek (d : DynBuffer) (offset : Int) (whence : Whence) : Except AVERROR Int × DynBuffer :=
  let offset :=
    match whence with
    | .seekCur => offset + d.pos
    | .seekEnd => offset + d.size
    | .seekSet | .avseekSize => offset
  if offset < 0 ∨ 0x7fffffff < offset then (.error .other, d)
  else (.ok 0, { d with pos := offset.toNat })

/-- The callbacks of a context from `avio_open_dyn_buf`. -/
def dynBufCallbacks : Callbacks DynBuffer where
  readPacket := none
  writePacket := some dynBufWrite
  seek := some dynBufSeek
  shortSeekGet := none

/-- `avio_open_dyn_buf`, when memory can be allocated. -/
def avioOpenDynBuf : AVIOContext DynBuffer :=
  ffioInitContext dynBufCallbacks (List.replicate 1024 0) true ⟨0, 0, []⟩

/-- `AV_INPUT_BUFFER_PADDING_SIZE`. -/
def avInputBufferPaddingSize : Nat := 64

/-- `avio_close_dyn_buf`: the size returned and the buffer. -/
def avioCloseDynBuf (s : AVIOContext DynBuffer) : Int × Bytes :=
  -- don't attempt to pad fixed-size packet buffers
  let padding := if s.maxPacketSize = 0 then avInputBufferPaddingSize else 0
  let s :=
    if s.maxPacketSize = 0 then
      avioWrite dynBufCallbacks s (List.replicate avInputBufferPaddingSize 0)
    else s
  let s := avioFlush dynBufCallbacks s
  (s.source.size - padding, s.source.buffer)

end FFmpeg.Libavformat.Avio
