import FFmpeg.Common.Cells
import FFmpeg.Common.File
import FFmpeg.Libavutil.Error
import FFmpeg.Libavutil.Mem

/-!
# Reference-counted buffers

The `AVBuffer` of `libavutil/buffer.c` and the references to it.  Data blocks, buffers and
references live in memory cells.  A function has no result when the source would use
memory that has been freed, or copy from or to a place outside of a block.
-/

namespace FFmpeg.Libavutil.Buffer

open Common

variable {Arg Free : Type}

/-- An `AVBuffer`.  The two flags are the bits of `flags` and `flags_internal`. -/
structure AVBuffer (Arg Free : Type) where
  /-- the block the buffer describes -/
  data : Nat
  size : Int
  refcount : UInt32
  /-- `none` is `av_buffer_default_free` -/
  free : Option Free
  /-- its `opaque`, `none` where that is null -/
  arg : Option Arg
  /-- `AV_BUFFER_FLAG_READONLY` -/
  readonly : Bool
  /-- `BUFFER_FLAG_REALLOCATABLE` -/
  reallocatable : Bool
  deriving DecidableEq, Repr

/-- An `AVBufferRef`, whose `data` points to a place in a block. -/
structure AVBufferRef where
  buffer : Nat
  data : Nat
  offset : Nat
  size : Int
  deriving DecidableEq, Repr

/-- What happens to buffers: a buffer is created for whoever called, and its `free` is
called with its `opaque` and its block. -/
inductive Event (Arg Free : Type)
  | created (p : Nat) (free : Option Free) (arg : Option Arg)
  | freed (p : Nat) (free : Option Free) (arg : Option Arg) (data : Nat)
  deriving DecidableEq, Repr

/-- What the allocators give a call. -/
structure Memory where
  /-- for data -/
  data : Malloc
  /-- whether there is memory for an `AVBuffer` -/
  buffer : Bool
  /-- whether there is memory for an `AVBufferRef` -/
  ref : Bool

/-- The memory, and what happened so far. -/
structure State (Arg Free : Type) where
  blocks : Cells Bytes
  buffers : Cells (AVBuffer Arg Free)
  refs : Cells AVBufferRef
  events : List (Event Arg Free)

/-- What a call does. -/
structure Result (Arg Free : Type) where
  state : State Arg Free
  /-- the reference returned, or the one in the variable of the caller -/
  ref : Option Nat
  ret : Int

/-- The conversion of an `int` to `size_t`. -/
def sizeT (size : Int) : Nat :=
  (size % 2 ^ 64).toNat

/-- `n` bytes from a place in a block. -/
def readAt (blocks : Cells Bytes) (data offset n : Nat) : Option Bytes :=
  (blocks.load data).bind fun block =>
    if offset + n ≤ block.length then some (slice block offset n) else none

/-- Write bytes to a place in a block. -/
def writeAt (blocks : Cells Bytes) (data offset : Nat) (src : Bytes) : Option (Cells Bytes) :=
  (blocks.load data).bind fun block =>
    if offset + src.length ≤ block.length then
      some (blocks.store data (overwrite block offset src))
    else none

/-- `av_buffer_create`, the result of which is null where memory is short.
`av_buffer_realloc` sets `BUFFER_FLAG_REALLOCATABLE` on what it creates; otherwise
`reallocatable` is false. -/
def avBufferCreate (s : State Arg Free) (memory : Memory) (data : Nat) (size : Int)
    (free : Option Free) (arg : Option Arg) (readonly reallocatable : Bool) :
    State Arg Free × Option Nat :=
  if memory.buffer then
    let buf := s.buffers.next
    let buffers := s.buffers.alloc ⟨data, size, 1, free, arg, readonly, reallocatable⟩
    if memory.ref then
      ({ s with
          buffers := buffers
          refs := s.refs.alloc ⟨buf, data, 0, size⟩
          events := s.events ++ [.created buf free arg] },
        some s.refs.next)
    else ({ s with buffers := buffers.free buf }, none)
  else (s, none)

/-- A block and a buffer around it; the block is freed where there is no buffer.  This is
how `av_buffer_alloc` and `av_buffer_realloc` make a new buffer. -/
def createAround (s : State Arg Free) (memory : Memory) (block : Option Bytes) (size : Int)
    (reallocatable : Bool) : State Arg Free × Option Nat :=
  match block with
  | none => (s, none)
  | some block =>
    let data := s.blocks.next
    let r := avBufferCreate { s with blocks := s.blocks.alloc block } memory data size
      none none false reallocatable
    if r.2.isSome then r else ({ r.1 with blocks := r.1.blocks.free data }, none)

/-- `av_buffer_alloc`. -/
def avBufferAlloc (s : State Arg Free) (memory : Memory) (size : Int) :
    State Arg Free × Option Nat :=
  createAround s memory (avMalloc memory.data (sizeT size)) size false

/-- `av_realloc` of a block, which is empty for the null pointer. -/
def avReallocBlock (memory : Memory) (block : Bytes) (size : Int) : Option Bytes :=
  avRealloc memory.data block (if sizeT size = 0 then 1 else sizeT size)

/-- `av_buffer_realloc` of a null reference. -/
def avBufferReallocNull (s : State Arg Free) (memory : Memory) (size : Int) :
    State Arg Free × Option Nat :=
  createAround s memory (avReallocBlock memory [] size) size true

/-- `av_buffer_ref`. -/
def avBufferRef (s : State Arg Free) (memory : Memory) (p : Nat) :
    Option (State Arg Free × Option Nat) :=
  if memory.ref then
    (s.refs.load p).bind fun ref =>
      (s.buffers.load ref.buffer).map fun buf =>
        ({ s with
            refs := s.refs.alloc ref
            buffers := s.buffers.store ref.buffer { buf with refcount := buf.refcount + 1 } },
          some s.refs.next)
  else some (s, none)

/-- The call of `free` and the `av_freep` of a buffer. -/
def freeBuffer (s : State Arg Free) (b : Nat) (buf : AVBuffer Arg Free) : Option (State Arg Free) :=
  (s.blocks.load buf.data).map fun _ =>
    { s with
      blocks := s.blocks.free buf.data
      buffers := s.buffers.free b
      events := s.events ++ [.freed b buf.free buf.arg buf.data] }

/-- The `atomic_fetch_sub_explicit` of `buffer_replace` and what depends on it. -/
def bufferUnref (s : State Arg Free) (b : Nat) : Option (State Arg Free) :=
  (s.buffers.load b).bind fun buf =>
    if buf.refcount = 1 then freeBuffer s b buf
    else some { s with buffers := s.buffers.store b { buf with refcount := buf.refcount - 1 } }

/-- `buffer_replace`. -/
def bufferReplace (s : State Arg Free) (dst : Nat) (src : Option Nat) : Option (State Arg Free) :=
  (s.refs.load dst).bind fun ref =>
    match src with
    | some p =>
      (s.refs.load p).bind fun new =>
        bufferUnref { s with refs := (s.refs.store dst new).free p } ref.buffer
    | none => bufferUnref { s with refs := s.refs.free dst } ref.buffer

/-- `av_buffer_unref`. -/
def avBufferUnref (s : State Arg Free) (p : Nat) : Option (State Arg Free) :=
  bufferReplace s p none

/-- `av_buffer_is_writable`. -/
def avBufferIsWritable (s : State Arg Free) (p : Nat) : Option Bool :=
  (s.refs.load p).bind fun ref =>
    (s.buffers.load ref.buffer).map fun buf => !buf.readonly && buf.refcount == 1

/-- `memcpy(new->data, buf->data, n)` and `buffer_replace(pbuf, &new)`, where there is a new
reference. -/
def copyAndReplace (new : State Arg Free × Option Nat) (p : Nat) (buf : AVBufferRef) (n : Int) :
    Option (Result Arg Free) :=
  match new.2 with
  | none => some ⟨new.1, some p, AVERROR.enomem.toInt⟩
  | some q =>
    (new.1.refs.load q).bind fun newbuf =>
      (readAt new.1.blocks buf.data buf.offset n.toNat).bind fun src =>
        (writeAt new.1.blocks newbuf.data newbuf.offset src).bind fun blocks =>
          (bufferReplace { new.1 with blocks := blocks } p (some q)).map fun s =>
            ⟨s, some p, 0⟩

/-- `av_buffer_make_writable`. -/
def avBufferMakeWritable (s : State Arg Free) (memory : Memory) (p : Nat) :
    Option (Result Arg Free) :=
  (avBufferIsWritable s p).bind fun writable =>
    if writable then some ⟨s, some p, 0⟩
    else
      (s.refs.load p).bind fun buf =>
        copyAndReplace (avBufferAlloc s memory buf.size) p buf buf.size

/-- The end of `av_buffer_realloc`, where the block itself is reallocated.  The new block
need not be where the old one was. -/
def reallocInPlace (s : State Arg Free) (memory : Memory) (p : Nat) (ref : AVBufferRef)
    (buf : AVBuffer Arg Free) (size : Int) : Option (Result Arg Free) :=
  (s.blocks.load buf.data).map fun block =>
    match avReallocBlock memory block size with
    | none => ⟨s, some p, AVERROR.enomem.toInt⟩
    | some tmp =>
      let data := s.blocks.next
      ⟨{ s with
          blocks := (s.blocks.free buf.data).alloc tmp
          buffers := s.buffers.store ref.buffer { buf with data := data, size := size }
          refs := s.refs.store p { ref with data := data, offset := 0, size := size } },
        some p, 0⟩

/-- `av_buffer_realloc` of a reference. -/
def avBufferReallocRef (s : State Arg Free) (memory : Memory) (p : Nat) (size : Int) :
    Option (Result Arg Free) :=
  (s.refs.load p).bind fun ref =>
    if ref.size = size then some ⟨s, some p, 0⟩
    else
      (s.buffers.load ref.buffer).bind fun buf =>
        (avBufferIsWritable s p).bind fun writable =>
          if !buf.reallocatable || !writable || ref.data ≠ buf.data || ref.offset ≠ 0 then
            copyAndReplace (avBufferReallocNull s memory size) p ref (min size ref.size)
          else reallocInPlace s memory p ref buf size

/-- What a function that returns a reference does: null stands for a failed allocation. -/
def returned (r : State Arg Free × Option Nat) : Result Arg Free :=
  ⟨r.1, r.2, if r.2.isSome then 0 else AVERROR.enomem.toInt⟩

/-- `av_buffer_realloc`. -/
def avBufferRealloc (s : State Arg Free) (memory : Memory) (p : Option Nat) (size : Int) :
    Option (Result Arg Free) :=
  match p with
  | none => some (returned (avBufferReallocNull s memory size))
  | some p => avBufferReallocRef s memory p size

/-- Nothing has been allocated. -/
def initial : State Arg Free where
  blocks := .empty
  buffers := .empty
  refs := .empty
  events := []

/-- What somebody does with buffers. -/
inductive Action (Arg Free : Type)
  /-- wrap a block with this content -/
  | create (memory : Memory) (block : Bytes) (size : Int) (free : Option Free)
      (arg : Option Arg) (readonly : Bool)
  | alloc (memory : Memory) (size : Int)
  | ref (memory : Memory) (p : Nat)
  | unref (p : Nat)
  | makeWritable (memory : Memory) (p : Nat)
  | realloc (memory : Memory) (p : Option Nat) (size : Int)
  /-- let `data` and `size` of a reference describe another part of its buffer -/
  | describe (p : Nat) (offset : Nat) (size : Int)
  /-- write bytes behind the `data` of a reference -/
  | write (p : Nat) (offset : Nat) (src : Bytes)

/-- One step, where it does not use memory it must not use. -/
def step (s : State Arg Free) : Action Arg Free → Option (Result Arg Free)
  | .create memory block size free arg readonly =>
    some (returned (avBufferCreate { s with blocks := s.blocks.alloc block } memory
      s.blocks.next size free arg readonly false))
  | .alloc memory size => some (returned (avBufferAlloc s memory size))
  | .ref memory p => (avBufferRef s memory p).map returned
  | .unref p => (avBufferUnref s p).map fun s => ⟨s, none, 0⟩
  | .makeWritable memory p => avBufferMakeWritable s memory p
  | .realloc memory p size => avBufferRealloc s memory p size
  | .describe p offset size =>
    (s.refs.load p).bind fun ref =>
      (s.buffers.load ref.buffer).map fun buf =>
        ⟨{ s with refs := s.refs.store p ⟨ref.buffer, buf.data, offset, size⟩ }, some p, 0⟩
  | .write p offset src =>
    (s.refs.load p).bind fun ref =>
      (writeAt s.blocks ref.data (ref.offset + offset) src).map fun blocks =>
        ⟨{ s with blocks := blocks }, some p, 0⟩

end FFmpeg.Libavutil.Buffer
