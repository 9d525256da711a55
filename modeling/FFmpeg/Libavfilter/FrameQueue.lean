import FFmpeg.Common.Overwrite
import FFmpeg.Libavutil.AudioFifo
import FFmpeg.Libavutil.Error
import FFmpeg.Libavutil.Mathematics

/-!
# Queues of frames

`FFFrameQueue` of `libavfilter/framequeue.c`.  An `AVFrame *` is the number of a frame in the
memory of the filters, and the array of buckets is a list, of one element as long as it is
`first_bucket`.  A function has no result when it reads or writes outside of an array.
-/

namespace FFmpeg.Libavfilter.FrameQueue

open Common Libavutil AudioFifo

/-- What the queue needs of an `AVFrame`; a pointer to samples is a number. -/
structure AVFrame where
  format : AVSampleFormat
  channels : Int
  sampleRate : Int
  pts : Int
  nbSamples : Int
  linesize0 : Int
  data : List Nat
  extendedData : List Nat
  deriving DecidableEq, Repr

/-- The frames in memory. -/
abbrev Frames := Nat → AVFrame

/-- `FFFrameBucket`. -/
structure FFFrameBucket where
  frame : Nat
  deriving DecidableEq, Repr

/-- `FFFrameQueue`. -/
structure FFFrameQueue where
  queue : List FFFrameBucket
  allocated : Nat
  tail : Nat
  queued : Nat
  totalFramesHead : BitVec 64
  totalFramesTail : BitVec 64
  totalSamplesHead : BitVec 64
  totalSamplesTail : BitVec 64
  samplesSkipped : Bool
  deriving DecidableEq, Repr

/-- What the system gives for an array of buckets: no memory, or any content. -/
abbrev BucketMalloc := (n : Nat) → Option { l : List FFFrameBucket // l.length = n }

/-- `av_realloc_array` for buckets, which are pointers: a new array that begins with the old
one.  There is none of more than `INT_MAX` bytes. -/
def avReallocArray (malloc : BucketMalloc) (queue : List FFFrameBucket) (na : Nat) :
    Option (List FFFrameBucket) :=
  if 2 ^ 31 - 1 < na * 8 then none
  else (malloc na).map fun fresh => overwrite fresh.val 0 queue

/-- The index that `bucket` gives. -/
def bucket (fq : FFFrameQueue) (idx : Nat) : Nat := (fq.tail + idx) &&& (fq.allocated - 1)

/-- `ff_framequeue_init` of a queue of zeros. -/
def ffFramequeueInit : FFFrameQueue where
  queue := [⟨0⟩]
  allocated := 1
  tail := 0
  queued := 0
  totalFramesHead := 0
  totalFramesTail := 0
  totalSamplesHead := 0
  totalSamplesTail := 0
  samplesSkipped := false

/-- The array is full: it gets more room, and what goes on at its start moves behind it. -/
def grow (malloc : BucketMalloc) (fq : FFFrameQueue) : Option FFFrameQueue :=
  if fq.allocated = 1 then
    (avReallocArray malloc [] 8).map fun nq =>
      { fq with queue := overwrite nq 0 (fq.queue.take 1), allocated := 8 }
  else
    let na := fq.allocated <<< 1
    (avReallocArray malloc fq.queue na).map fun nq =>
      let nq :=
        if fq.tail + fq.queued > fq.allocated then
          overwrite nq fq.allocated (nq.take (fq.tail + fq.queued - fq.allocated))
        else nq
      { fq with queue := nq, allocated := na }

/-- `ff_framequeue_add` once there is room. -/
def put (frames : Frames) (fq : FFFrameQueue) (frame : Nat) : Option FFFrameQueue :=
  if bucket fq fq.queued < fq.queue.length then
    some { fq with
      queue := fq.queue.set (bucket fq fq.queued) ⟨frame⟩
      queued := fq.queued + 1
      totalFramesHead := fq.totalFramesHead + 1
      totalSamplesHead := fq.totalSamplesHead + BitVec.ofInt 64 (frames frame).nbSamples }
  else none

/-- `ff_framequeue_add`. -/
def ffFramequeueAdd (malloc : BucketMalloc) (frames : Frames) (fq : FFFrameQueue) (frame : Nat) :
    Option (Except AVERROR Unit × FFFrameQueue) :=
  if fq.queued = fq.allocated then
    match grow malloc fq with
    | none => some (.error .enomem, fq)
    | some fq => (put frames fq frame).map fun fq => (.ok (), fq)
  else (put frames fq frame).map fun fq => (.ok (), fq)

/-- `ff_framequeue_take`. -/
def ffFramequeueTake (frames : Frames) (fq : FFFrameQueue) : Option (Nat × FFFrameQueue) := do
  let b ← fq.queue[bucket fq 0]?
  some (b.frame, { fq with
    queued := fq.queued - 1
    tail := (fq.tail + 1) &&& (fq.allocated - 1)
    totalFramesTail := fq.totalFramesTail + 1
    totalSamplesTail := fq.totalSamplesTail + BitVec.ofInt 64 (frames b.frame).nbSamples
    samplesSkipped := false })

/-- `ff_framequeue_peek`. -/
def ffFramequeuePeek (fq : FFFrameQueue) (idx : Nat) : Option Nat :=
  fq.queue[bucket fq idx]?.map FFFrameBucket.frame

/-- The number of planes of a frame. -/
def AVFrame.planes (frame : AVFrame) : Int :=
  if avSampleFmtIsPlanar frame.format then frame.channels else 1

/-- The bytes of so many samples in a plane. -/
def AVFrame.bytes (frame : AVFrame) (samples : Nat) : Int :=
  let bytes := samples * avGetBytesPerSample frame.format
  if avSampleFmtIsPlanar frame.format then bytes else bytes * frame.channels

/-- What `ff_framequeue_skip_samples` does to the frame. -/
def AVFrame.skip (frame : AVFrame) (samples : Nat) (timeBase : AVRational) : AVFrame :=
  let planes := frame.planes.toNat
  let bytes := frame.bytes samples
  let extendedData := (frame.extendedData.take planes).map (fun p => (p + bytes).toNat) ++
    frame.extendedData.drop planes
  let copied := min planes 8
  { frame with
    pts :=
      if frame.pts ≠ avNoptsValue then
        (frame.pts + avRescaleQ samples ⟨1, frame.sampleRate⟩ timeBase).bmod (2 ^ 64)
      else frame.pts
    nbSamples := (frame.nbSamples - samples).bmod (2 ^ 32)
    linesize0 := (frame.linesize0 - bytes).bmod (2 ^ 32)
    extendedData := extendedData
    data := extendedData.take copied ++ frame.data.drop copied }

/-- `ff_framequeue_skip_samples`. -/
def ffFramequeueSkipSamples (frames : Frames) (fq : FFFrameQueue) (samples : Nat)
    (timeBase : AVRational) : Option (Frames × FFFrameQueue) := do
  let b ← fq.queue[bucket fq 0]?
  if (frames b.frame).planes ≤ (frames b.frame).extendedData.length then
    some (Function.update frames b.frame ((frames b.frame).skip samples timeBase), { fq with
      totalSamplesTail := fq.totalSamplesTail + BitVec.ofNat 64 samples
      samplesSkipped := true })
  else none

end FFmpeg.Libavfilter.FrameQueue
