import FFmpeg.Common.Overwrite
import FFmpeg.Libavutil.Error
import FFmpeg.Libavutil.Mathematics

/-!
# The audio frames of an encoder

`libavcodec/audio_frame_queue.c`: the time stamps and durations of the frames that an encoder
has been given.  The array keeps its entries behind the ones that are queued.  Signed overflow
is undefined, so an `int` or an `int64_t` that is computed is an integer.  A function has no
result when it reads or writes outside of the array, or when an assertion fails.
-/

namespace FFmpeg.Libavcodec.AudioFrameQueue

open Common Libavutil

/-- `AudioFrame`. -/
structure AudioFrame where
  pts : Int
  duration : Int
  deriving DecidableEq, Repr

/-- What the queue needs of an `AVCodecContext`. -/
structure AVCodecContext where
  sampleRate : Int
  initialPadding : Int
  timeBase : AVRational
  deriving DecidableEq, Repr

/-- `AudioFrameQueue`; `frameAlloc` is in bytes, of which an entry of `frames` takes 16. -/
structure AudioFrameQueue where
  avctx : AVCodecContext
  remainingDelay : Int
  remainingSamples : Int
  frames : List AudioFrame
  frameCount : Nat
  frameAlloc : Nat
  deriving DecidableEq, Repr

/-- What the system gives for so many frames: no memory, or any content. -/
abbrev FrameMalloc := (n : Nat) → Option { l : List AudioFrame // l.length = n }

/-- `av_fast_realloc` of the frames. -/
def avFastReallocFrames (malloc : FrameMalloc) (frames : List AudioFrame)
    (frameAlloc minSize : Nat) : Option (List AudioFrame) × Nat :=
  if minSize ≤ frameAlloc then (some frames, frameAlloc)
  else if 2 ^ 31 - 1 < minSize then (none, 0)
  else
    let size := min (2 ^ 31 - 1) (max (minSize + minSize / 16 + 32) minSize)
    match malloc (size / 16) with
    | none => (none, 0)
    | some fresh => (some (overwrite fresh.val 0 (frames.take (size / 16))), size)

/-- `ff_af_queue_init` of a queue of zeros. -/
def ffAfQueueInit (avctx : AVCodecContext) : AudioFrameQueue where
  avctx := avctx
  remainingDelay := avctx.initialPadding
  remainingSamples := avctx.initialPadding
  frames := []
  frameCount := 0
  frameAlloc := 0

/-- The entry for a frame of so many samples. -/
def newFrame (afq : AudioFrameQueue) (nbSamples pts : Int) : AudioFrame where
  duration := nbSamples + afq.remainingDelay
  pts :=
    if pts ≠ avNoptsValue then
      avRescaleQ pts afq.avctx.timeBase ⟨1, afq.avctx.sampleRate⟩ - afq.remainingDelay
    else avNoptsValue

/-- `ff_af_queue_add`, of a frame with so many samples. -/
def ffAfQueueAdd (malloc : FrameMalloc) (afq : AudioFrameQueue) (nbSamples pts : Int) :
    Option (Except AVERROR Unit × AudioFrameQueue) :=
  let new := avFastReallocFrames malloc afq.frames afq.frameAlloc (16 * (afq.frameCount + 1))
  match new.1 with
  | none => some (.error .enomem, { afq with frameAlloc := new.2 })
  | some frames =>
    if afq.frameCount < frames.length then
      some (.ok (), { afq with
        frames := frames.set afq.frameCount (newFrame afq nbSamples pts)
        frameAlloc := new.2
        remainingDelay := 0
        remainingSamples := afq.remainingSamples + nbSamples
        frameCount := afq.frameCount + 1 })
    else none

/-- What the loop of `ff_af_queue_remove` leaves: the queued frames, `i`, `nb_samples` and
`removed_samples`. -/
structure Taken where
  frames : List AudioFrame
  i : Nat
  nbSamples : Int
  removed : Int
  deriving DecidableEq, Repr

/-- A frame of which samples are taken. -/
def AudioFrame.advance (frame : AudioFrame) (n : Int) : AudioFrame where
  pts := if frame.pts ≠ avNoptsValue then frame.pts + n else frame.pts
  duration := frame.duration - n

/-- The loop of `ff_af_queue_remove` over the queued frames. -/
def takeSamples : List AudioFrame → Int → Taken
  | [], nbSamples => ⟨[], 0, nbSamples, 0⟩
  | frame :: frames, nbSamples =>
    if nbSamples ≠ 0 then
      let n := min frame.duration nbSamples
      let rest := takeSamples frames (nbSamples - n)
      ⟨frame.advance n :: rest.frames, rest.i + 1, rest.nbSamples, n + rest.removed⟩
    else ⟨frame :: frames, 0, nbSamples, 0⟩

/-- `i -= i && afq->frames[i-1].duration`. -/
def Taken.consumed (taken : Taken) : Nat :=
  if 0 < taken.i ∧ (taken.frames.getD (taken.i - 1) ⟨0, 0⟩).duration ≠ 0 then taken.i - 1
  else taken.i

/-- `ff_samples_to_time_base`. -/
def ffSamplesToTimeBase (avctx : AVCodecContext) (samples : Int) : Int :=
  if samples = avNoptsValue then avNoptsValue
  else avRescaleQ samples ⟨1, avctx.sampleRate⟩ avctx.timeBase

/-- `out_pts`. -/
def outPts (afq : AudioFrameQueue) : Option Int :=
  if afq.frameCount ≠ 0 ∨ afq.frameAlloc ≠ 0 then afq.frames[0]?.map AudioFrame.pts
  else some avNoptsValue

/-- More samples are removed than there are in the queue. -/
def removeBeyond (afq : AudioFrameQueue) (nbSamples : Int) : Option AudioFrameQueue :=
  if nbSamples ≠ 0 then
    if afq.frameCount ≠ 0 ∨ afq.remainingSamples ≠ afq.remainingDelay then none
    else
      some { afq with frames := afq.frames.modify 0 fun frame =>
        if frame.pts ≠ avNoptsValue then { frame with pts := frame.pts + nbSamples } else frame }
  else some afq

/-- `ff_af_queue_remove`: the time stamp, the duration and the queue. -/
def ffAfQueueRemove (afq : AudioFrameQueue) (nbSamples : Int) :
    Option (Int × Int × AudioFrameQueue) := do
  let pts ← outPts afq
  let taken := takeSamples (afq.frames.take afq.frameCount) nbSamples
  let frames := taken.frames ++ afq.frames.drop afq.frameCount
  let left := afq.frameCount - taken.consumed
  let afq ← removeBeyond { afq with
    frames := overwrite frames 0 ((frames.drop taken.consumed).take left)
    frameCount := left
    remainingSamples := afq.remainingSamples - taken.removed } taken.nbSamples
  some (ffSamplesToTimeBase afq.avctx pts, ffSamplesToTimeBase afq.avctx taken.removed, afq)

end FFmpeg.Libavcodec.AudioFrameQueue
