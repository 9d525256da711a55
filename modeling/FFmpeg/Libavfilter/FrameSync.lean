import FFmpeg.Libavutil.Error
import FFmpeg.Libavutil.Mathematics

/-!
# Frame synchronisation

`libavfilter/framesync.c`, with what it uses of the links in `avfilter.c`.  The arrays over the
inputs are functions on `Fin nbIn`, the queue of a link is the list of its frames, and the
callback `on_event` is given by the inputs whose frame it takes from the synchroniser.
-/

namespace FFmpeg.Libavfilter.FrameSync

open Libavutil

/-- What the synchroniser needs of an `AVFrame`. -/
structure AVFrame (α : Type*) where
  pts : Int
  data : α
  deriving DecidableEq, Repr

/-- What the synchroniser needs of an `AVFilterLink`. -/
structure AVFilterLink (α : Type*) where
  fifo : List (AVFrame α)
  frameWantedOut : Bool
  statusIn : Int
  statusInPts : Int
  statusOut : Int
  currentPts : Int

/-- The filter that the synchroniser serves: its inputs and its one output. -/
structure AVFilterContext (α : Type*) (nbIn : Nat) where
  inputs : Fin nbIn → AVFilterLink α
  output : AVFilterLink α

/-- `enum FFFrameSyncExtMode`. -/
inductive FFFrameSyncExtMode
  | stop
  | null
  | infinity
  deriving DecidableEq, Repr

/-- `STATE_BOF`, `STATE_RUN` and `STATE_EOF`. -/
inductive State
  | bof
  | run
  | eof
  deriving DecidableEq, Repr

/-- `enum EOFAction`. -/
inductive EOFAction
  | actionRepeat
  | actionEndall
  | actionPass
  deriving DecidableEq, Repr

/-- `FFFrameSyncIn`. -/
structure FFFrameSyncIn (α : Type*) where
  before : FFFrameSyncExtMode
  after : FFFrameSyncExtMode
  timeBase : AVRational
  frame : Option (AVFrame α)
  frameNext : Option (AVFrame α)
  pts : Int
  ptsNext : Int
  haveNext : Bool
  state : State
  sync : Nat

/-- `FFFrameSync`. -/
structure FFFrameSync (α : Type*) (nbIn : Nat) where
  parent : AVFilterContext α nbIn
  timeBase : AVRational
  pts : Int
  syncLevel : Nat
  frameReady : Bool
  eof : Bool
  inputs : Fin nbIn → FFFrameSyncIn α
  optRepeatlast : Bool
  optShortest : Bool
  optEofAction : EOFAction

/-! ## Links -/

section Links

variable {α : Type*} (link : AVFilterLink α)

/-- A link as `avfilter_link` makes it. -/
def AVFilterLink.new : AVFilterLink α where
  fifo := []
  frameWantedOut := false
  statusIn := 0
  statusInPts := 0
  statusOut := 0
  currentPts := avNoptsValue

/-- `ff_update_link_current_pts`. -/
def ffUpdateLinkCurrentPts (pts : Int) : AVFilterLink α :=
  if pts = avNoptsValue then link else { link with currentPts := pts }

/-- `ff_avfilter_link_set_in_status`. -/
def ffAvfilterLinkSetInStatus (status pts : Int) : AVFilterLink α :=
  if link.statusIn = status then link
  else { link with statusIn := status, statusInPts := pts, frameWantedOut := false }

/-- `ff_inlink_consume_frame`: the first frame of the queue, if there is one. -/
def ffInlinkConsumeFrame : Option (AVFrame α) × AVFilterLink α :=
  match link.fifo with
  | [] => (none, link)
  | frame :: fifo => (some frame, ffUpdateLinkCurrentPts { link with fifo := fifo } frame.pts)

/-- `ff_inlink_acknowledge_status`: the return value, the status, its time and the link. -/
def ffInlinkAcknowledgeStatus : Int × Int × Int × AVFilterLink α :=
  if link.fifo ≠ [] then (0, 0, link.currentPts, link)
  else if link.statusOut ≠ 0 then (link.statusOut, link.statusOut, link.currentPts, link)
  else if link.statusIn = 0 then (0, 0, link.currentPts, link)
  else
    let link := ffUpdateLinkCurrentPts { link with statusOut := link.statusIn } link.statusInPts
    (1, link.statusIn, link.currentPts, link)

/-- `ff_inlink_request_frame`. -/
def ffInlinkRequestFrame : AVFilterLink α := { link with frameWantedOut := true }

end Links

/-! ## Setting up -/

section Functions

variable {α : Type*} {nbIn : Nat}

/-- The inputs in the order of the loops. -/
abbrev eachInput : List (Fin nbIn) := List.finRange nbIn

/-- Input `i` replaced. -/
def FFFrameSync.setIn (fs : FFFrameSync α nbIn) (i : Fin nbIn) (x : FFFrameSyncIn α) :
    FFFrameSync α nbIn :=
  { fs with inputs := Function.update fs.inputs i x }

/-- The link of input `i` replaced. -/
def FFFrameSync.setLink (fs : FFFrameSync α nbIn) (i : Fin nbIn) (link : AVFilterLink α) :
    FFFrameSync α nbIn :=
  { fs with parent := { fs.parent with inputs := Function.update fs.parent.inputs i link } }

/-- What a filter sets for one input before it configures the synchroniser. -/
structure Setting where
  before : FFFrameSyncExtMode
  after : FFFrameSyncExtMode
  timeBase : AVRational
  sync : Nat

/-- `ff_framesync_init`, the default options, and the fields that the filter sets. -/
def ffFramesyncInit (parent : AVFilterContext α nbIn) (timeBase : AVRational)
    (settings : Fin nbIn → Setting) (optRepeatlast optShortest : Bool)
    (optEofAction : EOFAction) : FFFrameSync α nbIn where
  parent := parent
  timeBase := timeBase
  pts := 0
  syncLevel := 0
  frameReady := false
  eof := false
  inputs i :=
    { before := (settings i).before
      after := (settings i).after
      timeBase := (settings i).timeBase
      frame := none
      frameNext := none
      pts := 0
      ptsNext := 0
      haveNext := false
      state := .bof
      sync := (settings i).sync }
  optRepeatlast := optRepeatlast
  optShortest := optShortest
  optEofAction := optEofAction

/-- `framesync_eof`. -/
def framesyncEof (fs : FFFrameSync α nbIn) : FFFrameSync α nbIn :=
  { fs with
    eof := true
    frameReady := false
    parent := { fs.parent with
      output := ffAvfilterLinkSetInStatus fs.parent.output AVERROR.eof.toInt avNoptsValue } }

/-- `framesync_sync_level_update`. -/
def framesyncSyncLevelUpdate (fs : FFFrameSync α nbIn) : FFFrameSync α nbIn :=
  let level := eachInput.foldl (fun level i =>
    if (fs.inputs i).state ≠ .eof then max level (fs.inputs i).sync else level) 0
  if level ≠ 0 then { fs with syncLevel := level } else framesyncEof fs

/-- The two rules for the options at the start of `ff_framesync_configure`. -/
def configureOptions (fs : FFFrameSync α nbIn) : FFFrameSync α nbIn :=
  let fs :=
    if !fs.optRepeatlast || fs.optEofAction = .actionPass then
      { fs with optRepeatlast := false, optEofAction := .actionPass }
    else fs
  if fs.optShortest || fs.optEofAction = .actionEndall then
    { fs with optShortest := true, optEofAction := .actionEndall }
  else fs

/-- The modes and levels that the options impose: without `repeatlast` only the first input
counts, and with `shortest` the end of any input is the end. -/
def configureInputs (fs : FFFrameSync α nbIn) : FFFrameSync α nbIn :=
  let fs :=
    if !fs.optRepeatlast then
      { fs with inputs := fun i =>
          if 1 ≤ i.val then { fs.inputs i with after := .null, sync := 0 } else fs.inputs i }
    else fs
  if fs.optShortest then
    { fs with inputs := fun i => { fs.inputs i with after := .stop } }
  else fs

/-- `AV_TIME_BASE`. -/
def avTimeBase : Int := 1000000

/-- The time base that `ff_framesync_configure` selects from the inputs with a level. -/
def selectTimeBase (fs : FFFrameSync α nbIn) : AVRational :=
  eachInput.foldl (fun timeBase i =>
    if (fs.inputs i).sync ≠ 0 then
      if timeBase.num ≠ 0 then
        avGcdQ timeBase (fs.inputs i).timeBase (avTimeBase / 2) avTimeBaseQ
      else (fs.inputs i).timeBase
    else timeBase) fs.timeBase

/-- The end of `ff_framesync_configure`, once there is a time base. -/
def configureLevels (fs : FFFrameSync α nbIn) : FFFrameSync α nbIn :=
  framesyncSyncLevelUpdate
    { fs with
      inputs := fun i => { fs.inputs i with pts := avNoptsValue, ptsNext := avNoptsValue }
      syncLevel := 2 ^ 32 - 1 }

/-- `ff_framesync_configure`. -/
def ffFramesyncConfigure (fs : FFFrameSync α nbIn) : Except AVERROR (FFFrameSync α nbIn) :=
  let fs := configureInputs (configureOptions fs)
  if fs.timeBase.num = 0 then
    let timeBase := selectTimeBase fs
    if timeBase.num = 0 then .error .einval
    else .ok (configureLevels { fs with timeBase := timeBase })
  else .ok (configureLevels fs)

/-! ## Taking frames and statuses from the links -/

/-- `framesync_pts_extrapolate`.  The sum is exact: C leaves `INT64_MAX + 1` undefined. -/
def framesyncPtsExtrapolate (pts : Int) : Int := pts + 1

/-- `framesync_inject_frame`. -/
def framesyncInjectFrame (fs : FFFrameSync α nbIn) (i : Fin nbIn) (frame : AVFrame α) :
    FFFrameSync α nbIn :=
  let x := fs.inputs i
  let pts := avRescaleQ frame.pts x.timeBase fs.timeBase
  fs.setIn i
    { x with frameNext := some { frame with pts := pts }, ptsNext := pts, haveNext := true }

/-- `framesync_inject_status`: neither the status nor its time counts. -/
def framesyncInjectStatus (fs : FFFrameSync α nbIn) (i : Fin nbIn) (_status _pts : Int) :
    FFFrameSync α nbIn :=
  let x := fs.inputs i
  let pts :=
    if x.state ≠ .run ∨ x.after = .infinity then int64Max else framesyncPtsExtrapolate x.pts
  let fs := framesyncSyncLevelUpdate (fs.setIn i { x with sync := 0 })
  fs.setIn i { fs.inputs i with frameNext := none, ptsNext := pts, haveNext := true }

/-- The variables of the loop of `consume_from_fifos`. -/
structure Consuming (α : Type*) (nbIn : Nat) where
  fs : FFFrameSync α nbIn
  nbActive : Nat
  nbMiss : Nat

/-- One turn of the loop of `consume_from_fifos`. -/
def consumeInput (c : Consuming α nbIn) (i : Fin nbIn) : Consuming α nbIn :=
  if (c.fs.inputs i).haveNext ∨ (c.fs.inputs i).state = .eof then c
  else
    match ffInlinkConsumeFrame (c.fs.parent.inputs i) with
    | (some frame, link) =>
      { fs := framesyncInjectFrame (c.fs.setLink i link) i frame
        nbActive := c.nbActive + 1
        nbMiss := c.nbMiss }
    | (none, link) =>
      match ffInlinkAcknowledgeStatus link with
      | (ret, status, pts, link) =>
        let fs := c.fs.setLink i link
        { fs := if 0 < ret then framesyncInjectStatus fs i status pts else fs
          nbActive := c.nbActive + 1
          nbMiss := if ret = 0 then c.nbMiss + 1 else c.nbMiss }

/-- `FFERROR_NOT_READY`. -/
def ffErrorNotReady : Int := -0x5944524e

/-- The requests at the end of `consume_from_fifos`. -/
def requestFrames (fs : FFFrameSync α nbIn) : FFFrameSync α nbIn :=
  let links := fun i =>
    if (fs.inputs i).haveNext = false ∧ (fs.inputs i).state ≠ .eof then
      ffInlinkRequestFrame (fs.parent.inputs i)
    else fs.parent.inputs i
  { fs with parent := { fs.parent with inputs := links } }

/-- `consume_from_fifos`: the return value, and the synchroniser after it. -/
def consumeFromFifos (fs : FFFrameSync α nbIn) : Int × FFFrameSync α nbIn :=
  let c := eachInput.foldl consumeInput ⟨fs, 0, 0⟩
  if c.nbMiss ≠ 0 then
    if c.nbMiss = c.nbActive ∧ !c.fs.parent.output.frameWantedOut then (ffErrorNotReady, c.fs)
    else (0, requestFrames c.fs)
  else (1, c.fs)

/-! ## Advancing -/

/-- The smallest time of a next frame, or `INT64_MAX`. -/
def minPtsNext (fs : FFFrameSync α nbIn) : Int :=
  eachInput.foldl (fun pts i =>
    if (fs.inputs i).haveNext ∧ (fs.inputs i).ptsNext < pts then (fs.inputs i).ptsNext else pts)
    int64Max

/-- The next frame of an input becomes its current one. -/
def FFFrameSyncIn.promote (x : FFFrameSyncIn α) : FFFrameSyncIn α :=
  { x with
    frame := x.frameNext
    pts := x.ptsNext
    frameNext := none
    ptsNext := avNoptsValue
    haveNext := false
    state := if x.frameNext.isSome then .run else .eof }

/-- One turn of the loop of `framesync_advance` over the inputs. -/
def advanceInput (pts : Int) (fs : FFFrameSync α nbIn) (i : Fin nbIn) : FFFrameSync α nbIn :=
  let x := fs.inputs i
  if x.ptsNext = pts ∨ (x.before = .infinity ∧ x.state = .bof) then
    let x := x.promote
    let fs := fs.setIn i x
    let fs :=
      if x.sync = fs.syncLevel ∧ x.frame.isSome then { fs with frameReady := true } else fs
    if x.state = .eof ∧ x.after = .stop then framesyncEof fs else fs
  else fs

/-- The rest of the body of the loop of `framesync_advance`, once `pts` is known. -/
def advanceInputs (pts : Int) (fs : FFFrameSync α nbIn) : FFFrameSync α nbIn :=
  let fs := eachInput.foldl (advanceInput pts) fs
  let fs :=
    if fs.frameReady ∧ ∃ i, (fs.inputs i).state = .bof ∧ (fs.inputs i).before = .stop then
      { fs with frameReady := false }
    else fs
  { fs with pts := pts }

/-- `framesync_advance`, with at most `fuel` turns of its loop. -/
def framesyncAdvance : Nat → FFFrameSync α nbIn → Option (Int × FFFrameSync α nbIn)
  | 0, _ => none
  | fuel + 1, fs =>
    if fs.frameReady || fs.eof then some (0, fs)
    else
      match consumeFromFifos fs with
      | (ret, fs) =>
        if ret ≤ 0 then some (ret, fs)
        else
          let pts := minPtsNext fs
          if pts = int64Max then some (0, framesyncEof fs)
          else framesyncAdvance fuel (advanceInputs pts fs)

/-! ## Events -/

/-- What a callback sees: the time of the event and the current frame of every input. -/
structure Event (α : Type*) (nbIn : Nat) where
  pts : Int
  frames : Fin nbIn → Option (AVFrame α)

/-- `need_copy` in `ff_framesync_get_frame`: another input with a level may go on without a
new frame of input `i`. -/
def needCopy (fs : FFFrameSync α nbIn) (i : Fin nbIn) : Bool :=
  let ptsNext := if (fs.inputs i).haveNext then (fs.inputs i).ptsNext else int64Max
  eachInput.any fun j =>
    j ≠ i ∧ (fs.inputs j).sync ≠ 0 ∧ (!(fs.inputs j).haveNext ∨ (fs.inputs j).ptsNext < ptsNext)

/-- `ff_framesync_get_frame` when there is memory for a copy. -/
def ffFramesyncGetFrame (fs : FFFrameSync α nbIn) (i : Fin nbIn) (get : Bool) :
    Option (AVFrame α) × FFFrameSync α nbIn :=
  match (fs.inputs i).frame with
  | none => (none, fs)
  | some frame =>
    if get then
      let fs := if needCopy fs i then fs else fs.setIn i { fs.inputs i with frame := none }
      (some frame, { fs with frameReady := false })
    else (some frame, fs)

/-- A callback that succeeds, by the inputs whose frame it asks for with `get`. -/
abbrev Callback (α : Type*) (nbIn : Nat) := FFFrameSync α nbIn → List (Fin nbIn)

/-- `fs->on_event(fs)`. -/
def callOnEvent (onEvent : Callback α nbIn) (fs : FFFrameSync α nbIn) : FFFrameSync α nbIn :=
  (onEvent fs).foldl (fun fs i => (ffFramesyncGetFrame fs i true).2) fs

/-- What the links hold for the synchroniser: a bound for the turns of its loop. -/
def FFFrameSync.work (fs : FFFrameSync α nbIn) : Nat :=
  ∑ i, ((fs.parent.inputs i).fifo.length + (if (fs.parent.inputs i).statusOut = 0 then 1 else 0) +
    (if (fs.inputs i).haveNext then 1 else 0))

/-- `ff_framesync_activate`: the return value, the event if there is one, and the
synchroniser after it. -/
def ffFramesyncActivate (onEvent : Callback α nbIn) (fs : FFFrameSync α nbIn) :
    Option (Int × Option (Event α nbIn) × FFFrameSync α nbIn) :=
  match framesyncAdvance (fs.work + 1) fs with
  | none => none
  | some (ret, fs) =>
    if ret < 0 then some (ret, none, fs)
    else if fs.eof ∨ !fs.frameReady then some (0, none, fs)
    else
      some (0, some ⟨fs.pts, fun i => (fs.inputs i).frame⟩,
        { callOnEvent onEvent fs with frameReady := false })

end Functions

end FFmpeg.Libavfilter.FrameSync
