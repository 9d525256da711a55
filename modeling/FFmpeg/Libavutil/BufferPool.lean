import FFmpeg.Common.LinkedList

/-!
# Buffer pools

The pool of `libavutil/buffer.c`.  The entries of a pool live in memory and the free
list goes through their `next` fields.  A function has no result when the source would
follow a null pointer or use memory that has been freed.
-/

namespace FFmpeg.Libavutil.BufferPool

open Common

variable {Data Arg Free : Type}

/-- The fields of an `AVBuffer` as the `alloc` of a pool makes it; `arg` is its
`opaque`. -/
structure AVBuffer (Data Arg Free : Type) where
  data : Data
  size : Int
  free : Free
  arg : Arg
  deriving DecidableEq, Repr

/-- `BufferPoolEntry`; its `next` is in the memory, and its `pool` is the one pool there
is. -/
structure BufferPoolEntry (Data Arg Free : Type) where
  data : Data
  arg : Arg
  free : Free
  deriving DecidableEq, Repr

/-- An `AVBuffer` with `pool_release_buffer` as its `free` and an entry as its
`opaque`. -/
structure PooledBuffer (Data : Type) where
  data : Data
  size : Int
  entry : Nat
  deriving DecidableEq, Repr

/-- `AVBufferPool`, as `av_buffer_pool_init` makes it without a `pool_free`. -/
structure AVBufferPool where
  pool : Option Nat
  refcount : UInt32
  size : Int
  deriving DecidableEq, Repr

/-- What happens to entries and to the pool.  `entryFreed` is the call of the entry's
`free` together with the `av_freep` of the entry. -/
inductive Event (Data Arg Free : Type)
  | entryAllocated (p : Nat) (buf : BufferPoolEntry Data Arg Free)
  | entryFreed (p : Nat) (buf : BufferPoolEntry Data Arg Free)
  /-- a buffer that got no entry went back to its own `free` -/
  | dropped (ret : AVBuffer Data Arg Free)
  | poolFreed
  deriving DecidableEq, Repr

/-- What the allocators give a call of `av_buffer_pool_get`. -/
structure Memory (Data Arg Free : Type) where
  /-- whether there is memory for what `av_buffer_create` allocates -/
  create : Bool
  /-- the result of the `alloc` of the pool -/
  alloc : Option (AVBuffer Data Arg Free)
  /-- whether there is memory for an entry -/
  entry : Bool

/-- The memory of the entries. -/
abbrev Entries (Data Arg Free : Type) := Heap (BufferPoolEntry Data Arg Free)

/-- What a call does. -/
structure Result (Data Arg Free : Type) where
  heap : Entries Data Arg Free
  /-- `none` once the pool has been freed -/
  pool : Option AVBufferPool
  ret : Option (PooledBuffer Data)
  events : List (Event Data Arg Free)

/-- `av_buffer_pool_init`. -/
def avBufferPoolInit (size : Int) : AVBufferPool where
  pool := none
  refcount := 1
  size := size

/-- The loop of `buffer_pool_free`. -/
def bufferPoolFreeLoop : Nat → Entries Data Arg Free → Option Nat →
    Option (Entries Data Arg Free × List (Event Data Arg Free))
  | 0, _, _ => none
  | _ + 1, heap, none => some (heap, [])
  | fuel + 1, heap, some p =>
    (heap.load p).bind fun buf =>
      (bufferPoolFreeLoop fuel (heap.free p) buf.next).map fun r =>
        (r.1, .entryFreed p buf.data :: r.2)

/-- `buffer_pool_free`. -/
def bufferPoolFree (heap : Entries Data Arg Free) (pool : AVBufferPool) :
    Option (Result Data Arg Free) :=
  (bufferPoolFreeLoop (heap.cells.length + 1) heap pool.pool).map fun r =>
    ⟨r.1, none, none, r.2 ++ [.poolFreed]⟩

/-- The `atomic_fetch_sub_explicit` of the reference count and what depends on it, with
which `av_buffer_pool_uninit` and `pool_release_buffer` end. -/
def poolUnref (heap : Entries Data Arg Free) (pool : AVBufferPool) :
    Option (Result Data Arg Free) :=
  if pool.refcount = 1 then bufferPoolFree heap pool
  else some ⟨heap, some { pool with refcount := pool.refcount - 1 }, none, []⟩

/-- `pool_release_buffer`. -/
def poolReleaseBuffer (heap : Entries Data Arg Free) (pool : AVBufferPool)
    (buf : PooledBuffer Data) : Option (Result Data Arg Free) :=
  (heap.setNext buf.entry pool.pool).bind fun heap =>
    poolUnref heap { pool with pool := some buf.entry }

/-- `pool_alloc_buffer`. -/
def poolAllocBuffer (heap : Entries Data Arg Free) (pool : AVBufferPool)
    (memory : Memory Data Arg Free) : Result Data Arg Free :=
  match memory.alloc with
  | none => ⟨heap, some pool, none, []⟩
  | some ret =>
    if memory.entry then
      let buf : BufferPoolEntry Data Arg Free := ⟨ret.data, ret.arg, ret.free⟩
      let (p, heap) := heap.alloc ⟨buf, none⟩
      ⟨heap, some pool, some ⟨ret.data, ret.size, p⟩, [.entryAllocated p buf]⟩
    else ⟨heap, some pool, none, [.dropped ret]⟩

/-- The locked section of `av_buffer_pool_get`. -/
def poolGetLocked (heap : Entries Data Arg Free) (pool : AVBufferPool)
    (memory : Memory Data Arg Free) : Option (Result Data Arg Free) :=
  match pool.pool with
  | some p =>
    (heap.load p).bind fun buf =>
      if memory.create then
        (heap.setNext p none).map fun heap =>
          ⟨heap, some { pool with pool := buf.next }, some ⟨buf.data.data, pool.size, p⟩, []⟩
      else some ⟨heap, some pool, none, []⟩
  | none => some (poolAllocBuffer heap pool memory)

/-- `atomic_fetch_add_explicit` of the reference count. -/
def poolRef (pool : AVBufferPool) : AVBufferPool :=
  { pool with refcount := pool.refcount + 1 }

/-- `av_buffer_pool_get`. -/
def avBufferPoolGet (heap : Entries Data Arg Free) (pool : AVBufferPool)
    (memory : Memory Data Arg Free) : Option (Result Data Arg Free) :=
  (poolGetLocked heap pool memory).map fun r =>
    if r.ret.isSome then { r with pool := r.pool.map poolRef } else r

/-- A pool, the pointer its owner has to it, the buffers somebody still refers to, and
what happened so far. -/
structure State (Data Arg Free : Type) where
  heap : Entries Data Arg Free
  /-- `none` once the pool has been freed -/
  pool : Option AVBufferPool
  /-- whether the owner's pointer is not null -/
  owned : Bool
  inUse : List (PooledBuffer Data)
  events : List (Event Data Arg Free)

/-- A pool nobody has used. -/
def initial (size : Int) : State Data Arg Free where
  heap := ⟨[]⟩
  pool := some (avBufferPoolInit size)
  owned := true
  inUse := []
  events := []

/-- What somebody does with a pool. -/
inductive Action (Data Arg Free : Type)
  | get (memory : Memory Data Arg Free)
  /-- the last reference to the buffer with this index goes away -/
  | release (i : Nat)
  | uninit

/-- One step, where somebody can take it.  Whoever calls `av_buffer_pool_get` has a pointer to
the pool; that need not be the owner's. -/
def step (s : State Data Arg Free) : Action Data Arg Free → Option (State Data Arg Free)
  | .get memory =>
    s.pool.bind fun pool =>
      (avBufferPoolGet s.heap pool memory).map fun r =>
        { s with
          heap := r.heap
          pool := r.pool
          inUse := s.inUse ++ r.ret.toList
          events := s.events ++ r.events }
  | .release i =>
    s.inUse[i]?.bind fun buf =>
      s.pool.bind fun pool =>
        (poolReleaseBuffer s.heap pool buf).map fun r =>
          { s with
            heap := r.heap
            pool := r.pool
            inUse := s.inUse.eraseIdx i
            events := s.events ++ r.events }
  | .uninit =>
    if s.owned then
      s.pool.bind fun pool =>
        (poolUnref s.heap pool).map fun r =>
          { s with
            heap := r.heap
            pool := r.pool
            owned := false
            events := s.events ++ r.events }
    else none

end FFmpeg.Libavutil.BufferPool
