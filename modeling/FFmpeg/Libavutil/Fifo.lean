import Mathlib.Tactic
import FFmpeg.Common.Bytes
import FFmpeg.Common.File
import FFmpeg.Common.Overwrite
import FFmpeg.Libavutil.Error
import FFmpeg.Libavutil.Mem

/-!
# Byte fifos

`AVFifoBuffer` of `libavutil/fifo.c`.  A pointer into the buffer is its offset,
and `rndx` and `wndx` are numbers below `2 ^ 32`.  A function with a loop gives
`none` where the loop of the source would not end.
-/

namespace FFmpeg.Libavutil

open Common

/-- `AVFifoBuffer`; `end` is the end of `buffer`. -/
structure AVFifoBuffer where
  buffer : Bytes
  rptr : Nat
  wptr : Nat
  rndx : Nat
  wndx : Nat
  deriving DecidableEq, Repr

/-- `fifo_alloc_common`. -/
def fifoAllocCommon (buffer : Bytes) : AVFifoBuffer where
  buffer := buffer
  rptr := 0
  wptr := 0
  rndx := 0
  wndx := 0

/-- `av_fifo_alloc`. -/
def avFifoAlloc (malloc : Malloc) (size : Nat) : Option AVFifoBuffer :=
  (avMalloc malloc size).map fifoAllocCommon

/-- `av_fifo_reset`. -/
def avFifoReset (f : AVFifoBuffer) : AVFifoBuffer :=
  { f with rptr := 0, wptr := 0, rndx := 0, wndx := 0 }

/-- `(uint32_t)(f->wndx - f->rndx)`. -/
def fifoCount (f : AVFifoBuffer) : Nat :=
  (f.wndx + (2 ^ 32 - f.rndx)) % 2 ^ 32

/-- `av_fifo_size`. -/
def avFifoSize (f : AVFifoBuffer) : Int :=
  Int.bmod (fifoCount f) (2 ^ 32)

/-- `av_fifo_space`. -/
def avFifoSpace (f : AVFifoBuffer) : Int :=
  f.buffer.length - avFifoSize f

/-! ## Reading -/

/-- `av_fifo_drain`. -/
def avFifoDrain (f : AVFifoBuffer) (size : Nat) : AVFifoBuffer :=
  let rptr := f.rptr + size
  { f with
    rptr := if f.buffer.length ≤ rptr then rptr - f.buffer.length else rptr
    rndx := (f.rndx + size) % 2 ^ 32 }

/-- The loop of `av_fifo_generic_read`.  The result is what is copied to `dest` or, piece
by piece, handed to `func`. -/
def avFifoReadLoop : Nat → AVFifoBuffer → Nat → Option (Bytes × AVFifoBuffer)
  | 0, _, _ => none
  | fuel + 1, f, bufSize =>
    let len := min (f.buffer.length - f.rptr) bufSize
    let dest := slice f.buffer f.rptr len
    let f := avFifoDrain f len
    if 0 < bufSize - len then
      (avFifoReadLoop fuel f (bufSize - len)).map fun r => (dest ++ r.1, r.2)
    else some (dest, f)

/-- `av_fifo_generic_read`.  A round that reads nothing is repeated for ever. -/
def avFifoGenericRead (f : AVFifoBuffer) (bufSize : Nat) : Option (Bytes × AVFifoBuffer) :=
  avFifoReadLoop (bufSize + 1) f bufSize

/-- The loop of `av_fifo_generic_peek`. -/
def avFifoPeekLoop (buffer : Bytes) : Nat → Nat → Nat → Option Bytes
  | 0, _, _ => none
  | fuel + 1, rptr, bufSize =>
    let len := min (buffer.length - rptr) bufSize
    let dest := slice buffer rptr len
    let rptr := rptr + len
    let rptr := if buffer.length ≤ rptr then rptr - buffer.length else rptr
    if 0 < bufSize - len then
      (avFifoPeekLoop buffer fuel rptr (bufSize - len)).map (dest ++ ·)
    else some dest

/-- `av_fifo_generic_peek`. -/
def avFifoGenericPeek (f : AVFifoBuffer) (bufSize : Nat) : Option Bytes :=
  avFifoPeekLoop f.buffer (bufSize + 1) f.rptr bufSize

/-- The loop of `av_fifo_generic_peek_at`, which tests its condition first. -/
def avFifoPeekAtLoop (buffer : Bytes) : Nat → Nat → Nat → Option Bytes
  | 0, _, _ => none
  | fuel + 1, rptr, bufSize =>
    if 0 < bufSize then
      let rptr := if buffer.length ≤ rptr then rptr - buffer.length else rptr
      let len := min (buffer.length - rptr) bufSize
      let dest := slice buffer rptr len
      (avFifoPeekAtLoop buffer fuel (rptr + len) (bufSize - len)).map (dest ++ ·)
    else some []

/-- `av_fifo_generic_peek_at`, for an offset inside the content. -/
def avFifoGenericPeekAt (f : AVFifoBuffer) (offset bufSize : Nat) : Option Bytes :=
  let rptr :=
    if f.buffer.length - f.rptr ≤ offset then f.rptr + offset - f.buffer.length
    else f.rptr + offset
  avFifoPeekAtLoop f.buffer (bufSize + 1) rptr bufSize

/-! ## Writing -/

/-- A block arrives at the write pointer, and `len` bytes of it count. -/
def fifoPut (f : AVFifoBuffer) (block : Bytes) (len : Nat) : AVFifoBuffer :=
  { f with
    buffer := overwrite f.buffer f.wptr block
    wptr := if f.buffer.length ≤ f.wptr + len then 0 else f.wptr + len
    wndx := (f.wndx + len) % 2 ^ 32 }

/-- The loop of `av_fifo_generic_write` that copies from `src`. -/
def avFifoCopyLoop : Nat → AVFifoBuffer → Bytes → Option AVFifoBuffer
  | 0, _, _ => none
  | fuel + 1, f, src =>
    let len := min (f.buffer.length - f.wptr) src.length
    let f := fifoPut f (src.take len) len
    if 0 < src.length - len then avFifoCopyLoop fuel f (src.drop len) else some f

/-- What a callback does when it is asked for some bytes. -/
structure Reply (ω : Type) where
  ret : Int
  /-- the bytes it puts at the given place -/
  block : Bytes
  next : ω

variable {ω : Type}

/-- The loop of `av_fifo_generic_write` with a callback whose context is `src`, which also
gives what is left of `size`. -/
def avFifoWriteLoop (func : ω → Nat → Reply ω) :
    Nat → AVFifoBuffer → ω → Nat → Option (Nat × ω × AVFifoBuffer)
  | 0, _, _, _ => none
  | fuel + 1, f, src, size =>
    let len := min (f.buffer.length - f.wptr) size
    let reply := func src len
    if reply.ret ≤ 0 then
      some (size, reply.next, { f with buffer := overwrite f.buffer f.wptr reply.block })
    else
      let f := fifoPut f reply.block reply.ret.toNat
      let size := size - reply.ret.toNat
      if 0 < size then avFifoWriteLoop func fuel f reply.next size
      else some (size, reply.next, f)

/-- `av_fifo_generic_write` without a callback. -/
def avFifoGenericWrite (f : AVFifoBuffer) (src : Bytes) : Option (Int × AVFifoBuffer) :=
  (avFifoCopyLoop (src.length + 1) f src).map fun f => (src.length, f)

/-- `av_fifo_generic_write` with a callback, whose last context is given back too. -/
def avFifoGenericWriteFunc (func : ω → Nat → Reply ω) (f : AVFifoBuffer) (src : ω)
    (size : Nat) : Option (Int × ω × AVFifoBuffer) :=
  (avFifoWriteLoop func (size + 1) f src size).map fun r => (size - r.1, r.2)

/-! ## Growing -/

/-- `av_fifo_realloc2`: the result and the fifo. -/
def avFifoRealloc2 (malloc : Malloc) (f : AVFifoBuffer) (newSize : Nat) :
    Option (Int × AVFifoBuffer) :=
  if f.buffer.length < newSize then
    match avFifoAlloc malloc newSize with
    | none => some (AVERROR.enomem.toInt, f)
    | some f2 =>
      let len := fifoCount f
      (avFifoGenericRead f len).map fun r =>
        (0, { f2 with
          buffer := overwrite f2.buffer 0 r.1
          wptr := f2.wptr + len
          wndx := f2.wndx + len })
  else some (0, f)

/-- `av_fifo_grow`. -/
def avFifoGrow (malloc : Malloc) (f : AVFifoBuffer) (size : Nat) : Option (Int × AVFifoBuffer) :=
  if (size + fifoCount f) % 2 ^ 32 < size then some (AVERROR.einval.toInt, f)
  else
    let size := (size + fifoCount f) % 2 ^ 32
    if f.buffer.length < size then
      avFifoRealloc2 malloc f (max size (2 * f.buffer.length % 2 ^ 32))
    else some (0, f)

end FFmpeg.Libavutil
