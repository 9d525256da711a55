import Mathlib.Tactic
import FFmpeg.Common.Bytes
import FFmpeg.Common.File
import FFmpeg.Libavutil.Error
import FFmpeg.Libavutil.Tree

/-!
# The cache protocol

Reading and seeking in `libavformat/cache.c`.  The cache file, the inner
protocol and the memory are outside of this file: an `Outcome` says what they
answer during one call of `cache_read`, and the positions the source keeps for
them are separate from where they really stand.
-/

namespace FFmpeg.Libavformat.Cache

open Common Libavutil

/-! ## Surroundings -/

/-- The inner resource: its content, and the positions its seek function accepts.
Every position within the content is one of them. -/
structure Inner where
  content : Bytes
  reach : Int → Bool
  nonneg : ∀ pos, reach pos = true → 0 ≤ pos
  seekable : ∀ pos : Nat, pos ≤ content.length → reach pos = true

/-- What the surroundings answer during one call of `cache_read`. -/
structure Outcome where
  /-- whether `lseek` to an offset of the cache file succeeds -/
  seekSet : Bool
  /-- whether `lseek` to its end succeeds -/
  seekEnd : Bool
  /-- how many bytes a `read` of the cache file gives at most; 0 also stands for
  a failure -/
  readLen : Nat
  /-- how many bytes a `write` takes at most, or that it fails -/
  writeLen : Option Nat
  /-- whether the allocations succeed -/
  malloc : Bool
  /-- how many bytes the inner read gives at most; with 0 it reports the end -/
  innerLen : Nat

/-- The temporary file behind the descriptor, with its file offset. -/
structure TempFile where
  content : Bytes
  offset : Nat
  deriving DecidableEq, Repr

/-- `struct CacheEntry`. -/
structure CacheEntry where
  logicalPos : Nat
  physicalPos : Nat
  size : Int
  deriving DecidableEq, Repr

/-- `struct Context`.  The tree holds the entries themselves.  `innerOffset` is
where the inner resource really stands, and `clock` counts the calls of
`cache_read`. -/
structure Context where
  fd : TempFile
  root : AVTree CacheEntry
  logicalPos : Nat
  cachePos : Nat
  innerPos : Nat
  endPos : Nat
  isTrueEof : Bool
  innerOffset : Nat
  cacheHit : Nat
  cacheMiss : Nat
  readAheadLimit : Int
  clock : Nat
  deriving DecidableEq, Repr

/-- The context after `cache_open`. -/
def cacheOpen (readAheadLimit : Int) : Context where
  fd := ⟨[], 0⟩
  root := .nil
  logicalPos := 0
  cachePos := 0
  innerPos := 0
  endPos := 0
  isTrueEof := false
  innerOffset := 0
  cacheHit := 0
  cacheMiss := 0
  readAheadLimit := readAheadLimit
  clock := 0

/-! ## Entries -/

/-- `cmp` on a position and an entry. -/
def cmp (key : Nat) (entry : CacheEntry) : Int :=
  (if entry.logicalPos < key then 1 else 0) - (if key < entry.logicalPos then 1 else 0)

/-- The entry at the logical position or else the last one before it. -/
def Context.lookup (c : Context) : Option CacheEntry :=
  let (entry, next) := avTreeFind cmp c.logicalPos c.root ⟨none, none⟩
  entry.or next.next0

/-- Whether the entry ends at these positions, so that the bytes there continue it. -/
def CacheEntry.endsAt (entry : CacheEntry) (logicalPos physicalPos : Nat) : Bool :=
  decide ((entry.logicalPos : Int) + entry.size = logicalPos) &&
    decide ((entry.physicalPos : Int) + entry.size = physicalPos)

/-- `entry->size += ret`; the `int` wraps. -/
def CacheEntry.extend (entry : CacheEntry) (ret : Nat) : CacheEntry :=
  { entry with size := (entry.size + ret).bmod (2 ^ 32) }

/-- The end of `add_entry`, for `ret` bytes written at `pos` of the cache file. -/
def recordEntry (o : Outcome) (c : Context) (pos ret : Nat) : Except AVERROR Unit × Context :=
  let fresh : CacheEntry := ⟨c.logicalPos, pos, ret⟩
  match c.lookup.filter (·.endsAt c.logicalPos pos) with
  | some entry =>
    (.ok (), { c with root := c.root.map fun e => if e = entry then e.extend ret else e })
  | none =>
    if o.malloc then
      let (root, entryRet, _) :=
        avTreeInsert (fun a b => cmp a.logicalPos b) c.root fresh true
      (if entryRet.isSome ∧ entryRet ≠ some fresh then .error .other else .ok (),
        { c with root := root })
    else (.error .enomem, c)

/-- `add_entry`. -/
def addEntry (o : Outcome) (c : Context) (buf : Bytes) : Except AVERROR Unit × Context :=
  if o.seekEnd then
    let pos := c.fd.content.length
    match o.writeLen with
    | none => (.error .eio, { c with fd := ⟨c.fd.content, pos⟩, cachePos := pos })
    | some n =>
      let written := buf.take n
      let fd : TempFile := ⟨overwrite c.fd.content pos written, pos + written.length⟩
      recordEntry o { c with fd := fd, cachePos := pos + written.length } pos written.length
  else (.error .eio, c)

/-! ## Reading -/

/-- The first half of `cache_read`: what the cache file gives, which is nothing when
the position is not cached or the file fails. -/
def readCached (o : Outcome) (c : Context) (size : Nat) : Bytes × Context :=
  match c.lookup with
  | none => ([], c)
  | some entry =>
    let inBlockPos := c.logicalPos - entry.logicalPos
    let physicalTarget := entry.physicalPos + inBlockPos
    if inBlockPos < entry.size ∧ (c.cachePos = physicalTarget ∨ o.seekSet) then
      let offset := if c.cachePos ≠ physicalTarget then physicalTarget else c.fd.offset
      let bytes := slice c.fd.content offset
        (min o.readLen (min size (entry.size - inBlockPos).toNat))
      (bytes, { c with
        fd := ⟨c.fd.content, offset + bytes.length⟩
        cachePos := physicalTarget + bytes.length })
    else ([], c)

/-- The end of `cache_read` after the inner resource gave `bytes`. -/
def Context.received (o : Outcome) (c : Context) (bytes : Bytes) : Context :=
  let r := bytes.length
  let c := { c with
    innerOffset := c.innerOffset + r
    innerPos := c.innerPos + r
    cacheMiss := c.cacheMiss + 1 }
  let c := (addEntry o c bytes).2
  { c with logicalPos := c.logicalPos + r, endPos := max c.endPos (c.logicalPos + r) }

/-- The second half of `cache_read`: the inner resource is brought to the logical
position if `inner_pos` is elsewhere, and what it gives is added to the cache. -/
def readInner (inner : Inner) (o : Outcome) (c : Context) (size : Nat) :
    Except AVERROR Bytes × Context :=
  if c.logicalPos ≠ c.innerPos ∧ ¬ inner.reach c.logicalPos then (.error .einval, c)
  else
    let c := if c.logicalPos ≠ c.innerPos then
      { c with innerOffset := c.logicalPos, innerPos := c.logicalPos } else c
    match slice inner.content c.innerOffset (min o.innerLen size) with
    | [] => (.error .eof, { c with isTrueEof := c.isTrueEof || decide (0 < size) })
    | byte :: rest => (.ok (byte :: rest), c.received o (byte :: rest))

/-- `cache_read`. -/
def cacheRead (inner : Inner) (outcome : Nat → Outcome) (c : Context) (size : Nat) :
    Except AVERROR Bytes × Context :=
  let o := outcome c.clock
  let c := { c with clock := c.clock + 1 }
  match readCached o c size with
  | ([], c) => readInner inner o c size
  | (bytes, c) =>
    (.ok bytes, { c with
      logicalPos := c.logicalPos + bytes.length
      cacheHit := c.cacheHit + 1 })

/-! ## Seeking -/

/-- The `whence` arguments a reader gives. -/
inductive Whence
  | seekSet
  | seekCur
  deriving DecidableEq, Repr

/-- The size of the buffer that is read ahead into. -/
def readAheadSize : Nat := 32768

/-- The read-ahead loop of `cache_seek`, for at most `n` rounds.  Every round that
goes on reads a byte, so that `pos - logical_pos` rounds are enough. -/
def readAhead (inner : Inner) (outcome : Nat → Outcome) :
    Nat → Context → Nat → Except AVERROR Nat × Context
  | 0, c, _ => (.ok c.logicalPos, c)
  | n + 1, c, pos =>
    if c.logicalPos < pos then
      match cacheRead inner outcome c (min readAheadSize (pos - c.logicalPos)) with
      | (.error e, c) => (.error e, c)
      | (.ok _, c) => readAhead inner outcome n c pos
    else (.ok c.logicalPos, c)

/-- The position a seek asks for. -/
def Context.target (c : Context) (pos : Int) : Whence → Int
  | .seekSet => pos
  | .seekCur => pos + c.logicalPos

/-- Whether a failed seek to `pos` is made up for by reading. -/
def Context.readsAhead (c : Context) (pos : Int) : Bool :=
  c.logicalPos ≤ pos ∧ (pos - c.logicalPos ≤ c.readAheadLimit ∨ c.readAheadLimit < 0)

/-- `cache_seek` with `SEEK_SET` and `SEEK_CUR`.  The seek of the inner resource
leaves `inner_pos` as it was. -/
def cacheSeek (inner : Inner) (outcome : Nat → Outcome) (c : Context) (pos : Int)
    (whence : Whence) : Except AVERROR Nat × Context :=
  let pos := c.target pos whence
  if 0 ≤ pos ∧ pos < c.endPos then (.ok pos.toNat, { c with logicalPos := pos.toNat })
  else if inner.reach pos then
    (.ok pos.toNat, { c with
      innerOffset := pos.toNat
      logicalPos := pos.toNat
      endPos := max c.endPos pos.toNat })
  else if c.readsAhead pos then
    readAhead inner outcome (pos.toNat - c.logicalPos) c pos.toNat
  else (.error .einval, c)

/-- A call of the protocol. -/
inductive Call
  | read (size : Nat)
  | seek (pos : Int) (whence : Whence)
  deriving DecidableEq, Repr

/-- The context after a call. -/
def step (inner : Inner) (outcome : Nat → Outcome) (c : Context) : Call → Context
  | .read size => (cacheRead inner outcome c size).2
  | .seek pos whence => (cacheSeek inner outcome c pos whence).2

end FFmpeg.Libavformat.Cache
