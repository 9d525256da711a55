import FFmpeg.Common.Run
import FFmpeg.Libavutil.Error
import FFmpeg.Libavutil.Mathematics

/-!
# The index of a stream

`ff_add_index_entry`, `ff_reduce_index` and `ff_index_search_timestamp` of
`libavformat/utils.c`.  The entries are a list, in the order of the array.  An access
outside of the array has no result, and neither has a failed assertion.
-/

namespace FFmpeg.Libavformat.IndexEntries

open Libavutil

/-- `AVIndexEntry`, with the bit-fields `flags` and `size` as they are stored. -/
structure AVIndexEntry where
  pos : Int
  timestamp : Int
  flags : BitVec 2
  size : BitVec 30
  minDistance : Int
  deriving DecidableEq, Repr

/-- `flags & AVINDEX_KEYFRAME`. -/
def AVIndexEntry.keyframe (e : AVIndexEntry) : Bool := e.flags.getLsbD 0

/-- `flags & AVINDEX_DISCARD_FRAME`. -/
def AVIndexEntry.discardFrame (e : AVIndexEntry) : Bool := e.flags.getLsbD 1

/-- The flags `AVSEEK_FLAG_BACKWARD` and `AVSEEK_FLAG_ANY`. -/
structure SeekFlags where
  backward : Bool
  any : Bool
  deriving DecidableEq, Repr

/-- `entries[m]`. -/
def entryAt (entries : List AVIndexEntry) (m : Int) : Option AVIndexEntry :=
  if m < 0 then none else entries[m.toNat]?

/-! ## Searching -/

/-- The inner loop of the search: the next packet that is not discarded. -/
def skipDiscarded (entries : List AVIndexEntry) (wanted b : Int) : Nat → Int → Option Int
  | 0, _ => none
  | rounds + 1, m => do
    let e ← entryAt entries m
    if e.discardFrame ∧ m < b ∧ m < (entries.length : Int) - 1 then
      let next ← entryAt entries (m + 1)
      if m + 1 = b ∧ wanted ≤ next.timestamp then some (b - 1)
      else skipDiscarded entries wanted b rounds (m + 1)
    else some m

/-- The loop that brings `a` and `b` together. -/
def bisect (entries : List AVIndexEntry) (wanted : Int) : Nat → Int → Int → Option (Int × Int)
  | 0, _, _ => none
  | rounds + 1, a, b =>
    if 1 < b - a then do
      let m ← skipDiscarded entries wanted b entries.length ((a + b) / 2)
      let e ← entryAt entries m
      bisect entries wanted rounds (if e.timestamp ≤ wanted then m else a)
        (if wanted ≤ e.timestamp then m else b)
    else some (a, b)

/-- The loop to the nearest keyframe. -/
def toKeyframe (entries : List AVIndexEntry) (backward : Bool) : Nat → Int → Option Int
  | 0, _ => none
  | rounds + 1, m =>
    if 0 ≤ m ∧ m < entries.length then do
      let e ← entryAt entries m
      if e.keyframe then some m
      else toKeyframe entries backward rounds (if backward then m - 1 else m + 1)
    else some m

/-- `ff_index_search_timestamp`. -/
def ffIndexSearchTimestamp (entries : List AVIndexEntry) (wanted : Int) (flags : SeekFlags) :
    Option Int := do
  let nbEntries := entries.length
  -- optimize appending index entries at the end
  let last := entries.getLast?
  let a : Int := if last.any (fun e => e.timestamp < wanted) then nbEntries - 1 else -1
  let (a, b) ← bisect entries wanted (nbEntries + 1) a nbEntries
  let m := if flags.backward then a else b
  let m ← if flags.any then some m else toKeyframe entries flags.backward (nbEntries + 1) m
  if m = nbEntries then some (-1) else some m

/-! ## Changing the index -/

/-- `RELATIVE_TS_BASE`. -/
def relativeTsBase : Int := int64Max - 2 ^ 48

/-- `is_relative`. -/
def isRelative (ts : Int) : Bool := relativeTsBase - 2 ^ 48 < ts

/-- The timestamp an entry is kept under. -/
def indexTimestamp (timestamp : Int) : Int :=
  if isRelative timestamp then timestamp - relativeTsBase else timestamp

/-- `UINT_MAX / sizeof(AVIndexEntry)`. -/
def maxEntries : Nat := (2 ^ 32 - 1) / 24

/-- `ff_add_index_entry`: the return value and the entries after the call.  `memory` says
whether the array can be as large as needed. -/
def ffAddIndexEntry (memory : Bool) (entries : List AVIndexEntry)
    (pos timestamp size distance flags : Int) :
    Option (Except AVERROR Int × List AVIndexEntry) :=
  if maxEntries ≤ entries.length + 1 then some (.error .other, entries)
  else if timestamp = avNoptsValue then some (.error .einval, entries)
  else if size < 0 ∨ 0x3FFFFFFF < size then some (.error .einval, entries)
  else
    let timestamp := indexTimestamp timestamp
    if ¬ memory then some (.error .other, entries)
    else do
      let entry (distance : Int) : AVIndexEntry :=
        { pos := pos
          timestamp := timestamp
          flags := BitVec.ofInt 2 flags
          size := BitVec.ofInt 30 size
          minDistance := distance }
      let index ← ffIndexSearchTimestamp entries timestamp ⟨false, true⟩
      if index < 0 then
        if entries.getLast?.all (fun e => e.timestamp < timestamp) then
          some (.ok entries.length, entries ++ [entry distance])
        else none
      else
        let ie ← entryAt entries index
        if ie.timestamp ≠ timestamp then
          if ie.timestamp ≤ timestamp then some (.error .other, entries)
          else
            some (.ok index, entries.take index.toNat ++ entry distance :: entries.drop index.toNat)
        else
          -- do not reduce the distance
          let distance :=
            if ie.pos = pos ∧ distance < ie.minDistance then ie.minDistance else distance
          some (.ok index, entries.set index.toNat (entry distance))

/-- `pts_wrap_behavior`. -/
inductive PtsWrap
  | ignore
  | addOffset
  | subOffset
  deriving DecidableEq, Repr

/-- What the index needs of an `AVStream`. -/
structure AVStream where
  ptsWrapBehavior : PtsWrap
  ptsWrapReference : Int
  ptsWrapBits : Nat
  indexEntries : List AVIndexEntry
  deriving DecidableEq, Repr

/-- `wrap_timestamp`. -/
def wrapTimestamp (st : AVStream) (timestamp : Int) : Int :=
  if st.ptsWrapReference = avNoptsValue ∨ timestamp = avNoptsValue then timestamp
  else
    match st.ptsWrapBehavior with
    | .ignore => timestamp
    | .addOffset =>
      if timestamp < st.ptsWrapReference then (timestamp + 2 ^ st.ptsWrapBits).bmod (2 ^ 64)
      else timestamp
    | .subOffset =>
      if st.ptsWrapReference ≤ timestamp then (timestamp - 2 ^ st.ptsWrapBits).bmod (2 ^ 64)
      else timestamp

/-- `av_add_index_entry`: the return value and the stream after the call. -/
def avAddIndexEntry (memory : Bool) (st : AVStream) (pos timestamp size distance flags : Int) :
    Option (Except AVERROR Int × AVStream) := do
  let added ← ffAddIndexEntry memory st.indexEntries pos (wrapTimestamp st timestamp) size distance
    flags
  some (added.1, { st with indexEntries := added.2 })

/-- The loop of `ff_reduce_index`: every second entry. -/
def everySecond {α : Type} : List α → List α
  | [] => []
  | [e] => [e]
  | e :: _ :: entries => e :: everySecond entries

/-- `ff_reduce_index`, for the given `max_index_size`. -/
def ffReduceIndex (maxIndexSize : Nat) (entries : List AVIndexEntry) : List AVIndexEntry :=
  if maxIndexSize / 24 ≤ entries.length then everySecond entries else entries

end FFmpeg.Libavformat.IndexEntries
