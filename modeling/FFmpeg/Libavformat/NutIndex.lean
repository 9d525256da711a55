import FFmpeg.Libavformat.IndexEntries
import FFmpeg.Libavformat.Nut

/-!
# The index of a NUT file

`write_index` of `libavformat/nutenc.c` and `find_and_decode_index` of `nutdec.c`.  The
index has the positions of the syncpoints, and for every stream which syncpoints have a
keyframe behind them, in runs, with the timestamps of these keyframes.
-/

namespace FFmpeg.Libavformat.NutIndex

open Common Libavutil Crc Nut IndexEntries

/-! ## Writing -/

/-- What the muxer's `NUTContext` has for the index; `keyframe_pts` is given for each stream. -/
structure NUTContext where
  timeBase : List AVRational
  maxPts : Int
  maxPtsTb : Nat
  spCount : Nat
  syncpoints : AVTree Syncpoint
  keyframePts : List (List Int)

/-- The loop over the syncpoints, which looks for the one behind `dummy`; nothing where a
null pointer is followed. -/
def writeSyncpoints (syncpoints : AVTree Syncpoint) :
    Nat → Syncpoint → Next Syncpoint → Option Bytes
  | 0, _, _ => some []
  | n + 1, dummy, nextNode => do
    let nextNode := (avTreeFind ffNutSpPosCmp dummy syncpoints nextNode).2
    let next ← nextNode.next1
    let bytes ← writeSyncpoints syncpoints n { dummy with pos := next.pos } nextNode
    some (putV (toUnsigned 64 ((next.pos >>> 4 : Nat) - (dummy.pos >>> 4 : Nat))) ++ bytes)

/-- Whether an entry of `keyframe_pts` is set. -/
def isSet (pts : Int) : Bool := pts ≠ avNoptsValue

/-- The loop over `k`: what it writes and `last_pts`; nothing when its assertion fails. -/
def writeDeltas : List Int → Int → Option (Bytes × Int)
  | [], lastPts => some ([], lastPts)
  | pts :: keyframePts, lastPts =>
    if ¬ isSet pts then writeDeltas keyframePts lastPts
    else if lastPts < pts then do
      let rest ← writeDeltas keyframePts pts
      some (putV (toUnsigned 64 (pts - lastPts)) ++ rest.1, rest.2)
    else none

/-- The loop over `j` for one stream. -/
def writeRuns (spCount : Nat) : Nat → List Int → Nat → Int → Option Bytes
  | 0, _, _, _ => none
  | rounds + 1, keyframePts, j, lastPts =>
    if j < spCount then do
      -- multiple keyframes with the same timestamp
      let keyframePts :=
        if 0 < j ∧ keyframePts[j]? = keyframePts[j - 1]? then keyframePts.set j avNoptsValue
        else keyframePts
      let left := (keyframePts.take spCount).drop j
      let flag := left.head?.any isSet ^^ decide (j + 1 = spCount)
      let n := (left.takeWhile fun pts => isSet pts == flag).length
      let deltas ← writeDeltas (left.take (n + 1)) lastPts
      let rest ← writeRuns spCount rounds keyframePts (j + n + 1) deltas.2
      some (putV (1 + 2 * flag.toNat + 4 * n) ++ deltas.1 ++ rest)
    else some []

/-- The loop over the streams. -/
def writeStreams (spCount : Nat) : List (List Int) → Option Bytes
  | [] => some []
  | keyframePts :: streams => do
    let runs ← writeRuns spCount (spCount + 1) keyframePts 0 (-1)
    let rest ← writeStreams spCount streams
    some (runs ++ rest)

/-- What is behind the index in its packet: the size of the whole packet. -/
def indexPtr (payloadSize : Nat) : Nat :=
  8 + payloadSize + Nat.log2 payloadSize / 7 + 1 + if payloadSize > 4096 then 4 else 0

/-- `write_index`: what it puts into a packet. -/
def writeIndex (nut : NUTContext) : Option Bytes := do
  let syncpoints ← writeSyncpoints nut.syncpoints nut.spCount ⟨0, 0, 0⟩ ⟨none, none⟩
  let streams ← writeStreams nut.spCount nut.keyframePts
  let index := putTt nut.timeBase nut.maxPtsTb nut.maxPts ++ putV nut.spCount ++ syncpoints ++
    streams
  let payloadSize := index.length + 8 + 4
  some (index ++ putBE 8 (indexPtr payloadSize))

/-! ## Reading -/

/-- What `find_and_decode_index` changes; the method is `AVFMT_DURATION_FROM_PTS` or not. -/
structure Reading where
  bc : AVIOContext
  streams : List AVStream
  duration : Int
  durationFromPts : Bool

/-- `INT_MAX / 8`. -/
def maxSyncpoints : Nat := 268435455

/-- The loop over the syncpoints: whether all of them are positive, and what has been read
into the array. -/
def readSyncpoints : Nat → Int → AVIOContext → Bool × List Int × AVIOContext
  | 0, _, bc => (true, [], bc)
  | n + 1, last, bc =>
    let tmp := ffioReadVarlen bc
    if toSigned 64 tmp.1 ≤ 0 then (false, [], tmp.2)
    else
      let syncpoint := toSigned 64 (toSigned 64 tmp.1 + last)
      let rest := readSyncpoints n syncpoint tmp.2
      (rest.1, syncpoint :: rest.2.1, rest.2.2)

/-- The loop for bits of a code, of which there are at most 64. -/
def readBits (syncpointCount : Nat) : Nat → Nat → Nat → Bool × List Bool
  | 0, _, _ => (false, [])
  | rounds + 1, n, x =>
    if x = 1 then (true, [])
    else if syncpointCount + 1 ≤ n then (false, [])
    else
      let rest := readBits syncpointCount rounds (n + 1) (x >>> 1)
      (rest.1, (x &&& 1 = 1) :: rest.2)

/-- What a code adds to `has_keyframe`, which has been filled up to `n`, and whether it
is valid and fits. -/
def readRun (syncpointCount n x : Nat) : Bool × List Bool :=
  if x &&& 1 = 1 then
    let flag : Bool := x >>> 1 &&& 1 = 1
    let x := x >>> 1 >>> 1
    if syncpointCount + 1 ≤ n + x then (false, [])
    else (true, List.replicate x flag ++ [!flag])
  else
    let x := x >>> 1
    if x ≤ 1 then (false, []) else readBits syncpointCount 64 n x

/-- The loop that adds entries for `has_keyframe` from `j` on. -/
def addKeyframes (memory : Bool) (syncpoints : List Int) :
    List Bool → Nat → Int → AVIOContext → AVStream → Option (Int × AVIOContext × AVStream)
  | [], _, lastPts, bc, st => some (lastPts, bc, st)
  | false :: hasKeyframe, j, lastPts, bc, st =>
    addKeyframes memory syncpoints hasKeyframe (j + 1) lastPts bc st
  | true :: hasKeyframe, j, lastPts, bc, st => do
    let a := ffioReadVarlen bc
    let a' := if a.1 = 0 then ffioReadVarlen a.2 else a
    let b := if a.1 = 0 then ffioReadVarlen a'.2 else (0, a'.2)
    let syncpoint ← if j = 0 then none else syncpoints[j - 1]?
    let added ← avAddIndexEntry memory st (16 * syncpoint) (toSigned 64 (lastPts + a'.1)) 0 0 1
    addKeyframes memory syncpoints hasKeyframe (j + 1) (toSigned 64 (lastPts + (a'.1 + b.1))) b.2
      added.2

/-- The loop over `j` for one stream, with `has_keyframe` up to `j`: whether the codes are
valid.  There is no result when an assertion fails. -/
def readRuns (memory : Bool) (syncpoints : List Int) :
    Nat → List Bool → Int → AVIOContext → AVStream → Option (Bool × AVIOContext × AVStream)
  | 0, _, _, _, _ => none
  | rounds + 1, hasKeyframe, lastPts, bc, st =>
    let j := hasKeyframe.length
    if j < syncpoints.length then do
      let x := ffioReadVarlen bc
      let run := readRun syncpoints.length j x.1
      if ¬ run.1 then some (false, x.2, st)
      else if (hasKeyframe ++ run.2).head? = some true then some (false, x.2, st)
      else if syncpoints.length + 1 < j + run.2.length then none
      else do
        let added ← addKeyframes memory syncpoints (run.2.take (syncpoints.length - j)) j lastPts
          x.2 st
        readRuns memory syncpoints rounds (hasKeyframe ++ run.2) added.1 added.2.1 added.2.2
    else some (true, bc, st)

/-- The loop over the streams. -/
def readStreams (memory : Bool) (syncpoints : List Int) :
    List AVStream → AVIOContext → Option (Bool × AVIOContext × List AVStream)
  | [], bc => some (true, bc, [])
  | st :: streams, bc => do
    let read ← readRuns memory syncpoints (syncpoints.length + 1) [] (-1) bc st
    if ¬ read.1 then some (false, read.2.1, read.2.2 :: streams)
    else do
      let rest ← readStreams memory syncpoints streams read.2.1
      some (rest.1, rest.2.1, read.2.2 :: rest.2.2)

/-- `find_and_decode_index` behind the number of syncpoints, in a packet that ends at
`endPos`. -/
def decodeEntries (memory : Bool) (syncpointCount : Nat) (endPos : Int) (s : Reading) :
    Option (Except AVERROR Unit × Reading) :=
  if ¬ memory then some (.error .enomem, s)
  else
    let syncpoints := readSyncpoints syncpointCount 0 s.bc
    if ¬ syncpoints.1 then some (.error .invalidData, { s with bc := syncpoints.2.2 })
    else do
      let read ← readStreams memory syncpoints.2.1 s.streams syncpoints.2.2
      let s := { s with streams := read.2.2 }
      if ¬ read.1 then some (.error .invalidData, { s with bc := read.2.1 })
      else
        let skipped := skipReserved read.2.1 endPos
        if ¬ skipped.1 then some (.error .invalidData, { s with bc := skipped.2 })
        else do
          let checksum ← ffioGetChecksum skipped.2
          some (if checksum.1 ≠ 0 then .error .invalidData else .ok (), { s with bc := checksum.2 })

/-- `find_and_decode_index` behind the header of the packet. -/
def decodeIndex (memory : Bool) (timeBase : List AVRational) (endPos : Int) (s : Reading) :
    Option (Except AVERROR Unit × Reading) := do
  let maxPts := ffioReadVarlen s.bc
  let tb ← timeBase[maxPts.1 % timeBase.length]?
  let s := { s with
    duration := avRescaleQ (toSigned 64 (maxPts.1 / timeBase.length : Nat)) tb avTimeBaseQ
    durationFromPts := true }
  let count := ffioReadVarlen maxPts.2
  if count.1 < maxSyncpoints ∧ count.1 > 0 then
    decodeEntries memory count.1 endPos { s with bc := count.2 }
  else some (.error .invalidData, { s with bc := count.2 })

/-- `find_and_decode_index`, given what `find_duration` does, which looks for the last
timestamp in a file without index. -/
def findAndDecodeIndex (memory : Bool) (timeBase : List AVRational)
    (findDuration : Reading → Reading) (s : Reading) : Option (Except AVERROR Unit × Reading) :=
  let filesize := s.bc.content.length
  if filesize = 0 then some (.error .other, s)
  else
    let ptr := avioRB 8 (avioSeek s.bc (filesize - 12))
    let code := avioRB 8 (avioSeek ptr.2 (toSigned 64 (filesize - ptr.1)))
    if code.1 ≠ indexStartcode then
      let s := { s with bc := code.2 }
      some (.error .invalidData, if s.duration ≤ 0 then findDuration s else s)
    else do
      let header ← getPacketheader code.2 true indexStartcode
      decodeIndex memory timeBase (header.1 + header.2.pos) { s with bc := header.2 }

end FFmpeg.Libavformat.NutIndex
