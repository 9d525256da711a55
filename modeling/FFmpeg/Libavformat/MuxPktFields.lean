import Mathlib.Tactic
import FFmpeg.Libavutil.Error
import FFmpeg.Libavutil.Mathematics
import FFmpeg.Common.Run

/-!
# Timestamp checks in front of a muxer

`compute_muxer_pkt_fields` of `libavformat/mux.c` completes the timestamps of a
packet and rejects packets that go back in time.  Its check is skipped while
the last decoding timestamp of the stream is 0, so that the timestamps a muxer
sees are increasing exactly as long as nothing at or below 0 follows a 0.
-/

namespace FFmpeg.Libavformat.Mux

open Libavutil

/-- `enum AVMediaType`. -/
inductive AVMediaType
  | unknown
  | video
  | audio
  | data
  | subtitle
  | attachment
  deriving DecidableEq, Repr

/-- The flags of an `AVOutputFormat` that are read here: `AVFMT_NOTIMESTAMPS`
and `AVFMT_TS_NONSTRICT`. -/
structure AVOutputFormat where
  notimestamps : Bool
  tsNonstrict : Bool
  deriving DecidableEq, Repr

/-- `AVPacket`; `uncodedSamples` is the sample count of the frame that a packet
with `AV_PKT_FLAG_UNCODED_FRAME` wraps. -/
structure AVPacket where
  pts : Int
  dts : Int
  duration : Int := 0
  size : Nat := 0
  uncodedSamples : Option Int := none
  deriving DecidableEq, Repr

/-- `FFFrac`: the number `val + num / den`. -/
structure FFFrac where
  val : Int
  num : Int
  den : Int
  deriving DecidableEq, Repr

/-- `frac_add`. -/
def fracAdd (f : FFFrac) (incr : Int) : FFFrac :=
  let num := f.num + incr
  let den := f.den
  if num < 0 then
    let val := f.val + num.tdiv den
    let num := num.tmod den
    if num < 0 then ⟨val - 1, num + den, den⟩ else ⟨val, num, den⟩
  else if den ≤ num then ⟨f.val + num.tdiv den, num.tmod den, den⟩
  else ⟨f.val, num, den⟩

/-- `MAX_REORDER_DELAY`. -/
def maxReorderDelay : Nat := 16

/-- The fields of an `AVStream` and of its codec contexts that are used here. -/
structure AVStream where
  codecType : AVMediaType
  videoDelay : Nat
  maxBFrames : Int
  timeBase : AVRational
  ticksPerFrame : Int
  ptsBuffer : List Int
  curDts : Int
  privPts : FFFrac
  deriving DecidableEq, Repr

/-- What the codec layer knows about durations, as functions of the stream and
the packet: `ff_compute_frame_duration` gives a numerator and a denominator, and
`av_get_audio_frame_duration` a number of samples for a packet size. -/
structure CodecDurations where
  ffComputeFrameDuration : AVStream → AVPacket → Int × Int
  avGetAudioFrameDuration : AVStream → Nat → Int

/-- `FFMAX(st->codecpar->video_delay, st->internal->avctx->max_b_frames > 0)`. -/
def AVStream.delay (st : AVStream) : Nat :=
  max st.videoDelay (if st.maxBFrames > 0 then 1 else 0)

/-- The duration of a packet that came without a usable one. -/
def fillDuration (codec : CodecDurations) (st : AVStream) (pkt : AVPacket) : AVPacket :=
  let pkt := if pkt.duration < 0 ∧ st.codecType ≠ .subtitle then { pkt with duration := 0 } else pkt
  if pkt.duration = 0 then
    let (num, den) := codec.ffComputeFrameDuration st pkt
    if den ≠ 0 ∧ num ≠ 0 then
      { pkt with duration :=
          avRescale 1 (num * st.timeBase.den * st.ticksPerFrame) (den * st.timeBase.num) }
    else pkt
  else pkt

/-- The loop that fills the unset entries `i, …, delay` of `pts_buffer`. -/
def fillPtsBuffer (pts duration : Int) (delay : Nat) : Nat → Nat → List Int → List Int
  | 0, _, buf => buf
  | rounds + 1, i, buf =>
    if i < delay + 1 ∧ buf.getD i 0 = avNoptsValue then
      fillPtsBuffer pts duration delay rounds (i + 1)
        (buf.set i (pts + ((i : Int) - delay - 1) * duration))
    else buf

/-- The loop that moves the new timestamp to its place in `pts_buffer`. -/
def sortPtsBuffer (delay : Nat) : Nat → Nat → List Int → List Int
  | 0, _, buf => buf
  | rounds + 1, i, buf =>
    if i < delay ∧ buf.getD i 0 > buf.getD (i + 1) 0 then
      sortPtsBuffer delay rounds (i + 1)
        ((buf.set i (buf.getD (i + 1) 0)).set (i + 1) (buf.getD i 0))
    else buf

/-- The timestamps that are made up from the stream's clock `priv_pts`, or from
the other timestamp when only one is set. -/
def guessTimestamps (st : AVStream) (pkt : AVPacket) : AVPacket :=
  let delay := st.delay
  let pkt :=
    if pkt.pts = avNoptsValue ∧ pkt.dts ≠ avNoptsValue ∧ delay = 0 then
      { pkt with pts := pkt.dts }
    else pkt
  if (pkt.pts = 0 ∨ pkt.pts = avNoptsValue) ∧ pkt.dts = avNoptsValue ∧ delay = 0 then
    { pkt with pts := st.privPts.val, dts := st.privPts.val }
  else pkt

/-- Calculate dts from pts by way of the reordering buffer. -/
def dtsFromPts (st : AVStream) (pkt : AVPacket) : AVStream × AVPacket :=
  let delay := st.delay
  if pkt.pts ≠ avNoptsValue ∧ pkt.dts = avNoptsValue ∧ delay ≤ maxReorderDelay then
    let buf := st.ptsBuffer.set 0 pkt.pts
    let buf := fillPtsBuffer pkt.pts pkt.duration delay delay 1 buf
    let buf := sortPtsBuffer delay delay 0 buf
    ({ st with ptsBuffer := buf }, { pkt with dts := buf.getD 0 0 })
  else (st, pkt)

/-- The check for "non monotonically increasing dts". -/
def nonMonotone (oformat : AVOutputFormat) (st : AVStream) (pkt : AVPacket) : Bool :=
  decide (st.curDts ≠ 0 ∧ st.curDts ≠ avNoptsValue ∧
    ((oformat.tsNonstrict = false ∧ st.codecType ≠ .subtitle ∧ st.codecType ≠ .data ∧
        st.curDts ≥ pkt.dts) ∨
      st.curDts > pkt.dts))

/-- The stream's clock after a packet. -/
def updatePrivPts (codec : CodecDurations) (st : AVStream) (pkt : AVPacket) : FFFrac :=
  let privPts := { st.privPts with val := pkt.dts }
  match st.codecType with
  | .audio =>
    let frameSize := pkt.uncodedSamples.getD (codec.avGetAudioFrameDuration st pkt.size)
    -- initial packets of size 0 most likely stand for the encoder delay
    if 0 ≤ frameSize ∧ (pkt.size ≠ 0 ∨ privPts.num ≠ privPts.den / 2 ∨ privPts.val ≠ 0) then
      fracAdd privPts (st.timeBase.den * frameSize)
    else privPts
  | .video => fracAdd privPts (st.timeBase.den * st.timeBase.num)
  | _ => privPts

/-- `compute_muxer_pkt_fields`: the result, the stream and the packet with its
fields completed. -/
def computeMuxerPktFields (codec : CodecDurations) (oformat : AVOutputFormat) (st : AVStream)
    (pkt : AVPacket) : Except AVERROR Unit × AVStream × AVPacket :=
  let pkt := fillDuration codec st pkt
  let pkt := guessTimestamps st pkt
  let (st, pkt) := dtsFromPts st pkt
  if nonMonotone oformat st pkt then (.error .einval, st, pkt)
  else if pkt.dts ≠ avNoptsValue ∧ pkt.pts ≠ avNoptsValue ∧ pkt.pts < pkt.dts then
    (.error .einval, st, pkt)
  else
    (.ok (), { st with curDts := pkt.dts, privPts := updatePrivPts codec st pkt }, pkt)

/-- `write_packet_common`: the packet that goes on to the interleaving queue or
to the muxer, if any. -/
def writePacketCommon (codec : CodecDurations) (oformat : AVOutputFormat) (interleaved : Bool)
    (st : AVStream) (pkt : AVPacket) : Except AVERROR AVPacket × AVStream :=
  match computeMuxerPktFields codec oformat st pkt with
  | (.error e, st, pkt) =>
    if oformat.notimestamps = false then (.error e, st)
    else (.ok pkt, st)
  | (.ok _, st, pkt) =>
    if interleaved ∧ pkt.dts = avNoptsValue ∧ oformat.notimestamps = false then
      (.error .einval, st)
    else (.ok pkt, st)

/-! ## When the timestamps in front of a muxer increase

For a strict output format and an audio or video stream the packets that
`compute_muxer_pkt_fields` accepts have increasing decoding timestamps exactly
in those runs in which nothing at or below 0 follows a packet of timestamp 0. -/

open Common

/-- Both timestamps of the packet are set. -/
def AVPacket.TimestampsSet (pkt : AVPacket) : Prop :=
  pkt.pts ≠ avNoptsValue ∧ pkt.dts ≠ avNoptsValue

/-- A format that requires strictly increasing timestamps. -/
def AVOutputFormat.Strict (oformat : AVOutputFormat) : Prop :=
  oformat.tsNonstrict = false ∧ oformat.notimestamps = false

/-! ## One packet -/

theorem fillDuration_timestamps (codec : CodecDurations) (st : AVStream) (pkt : AVPacket) :
    (fillDuration codec st pkt).pts = pkt.pts ∧ (fillDuration codec st pkt).dts = pkt.dts := by
  unfold fillDuration
  dsimp only
  split_ifs <;> exact ⟨rfl, rfl⟩

variable {pkt : AVPacket}

theorem dtsFromPts_of_set (codec : CodecDurations) (st : AVStream) (hset : pkt.TimestampsSet) :
    ∃ pkt', dtsFromPts st (guessTimestamps st (fillDuration codec st pkt)) = (st, pkt') ∧
      pkt'.pts = pkt.pts ∧ pkt'.dts = pkt.dts := by
  obtain ⟨hpts, hdts⟩ := fillDuration_timestamps codec st pkt
  have hguess : guessTimestamps st (fillDuration codec st pkt) = fillDuration codec st pkt := by
    simp [guessTimestamps, hpts, hdts, hset.1, hset.2]
  have hcalc : dtsFromPts st (fillDuration codec st pkt) = (st, fillDuration codec st pkt) := by
    simp [dtsFromPts, hdts, hset.2]
  exact ⟨_, by rw [hguess, hcalc], hpts, hdts⟩

/-- What the function does to a packet with both timestamps set: it accepts the
packet and moves `cur_dts` to its timestamp, or it leaves the stream alone. -/
theorem computeMuxerPktFields_cases (codec : CodecDurations) (oformat : AVOutputFormat)
    (st : AVStream) (hset : pkt.TimestampsSet) :
    (∃ st' pkt', computeMuxerPktFields codec oformat st pkt = (.ok (), st', pkt') ∧
      st'.codecType = st.codecType ∧ st'.curDts = pkt.dts ∧ pkt'.pts = pkt.pts ∧
      pkt'.dts = pkt.dts ∧ nonMonotone oformat st pkt = false ∧ pkt.dts ≤ pkt.pts) ∨
    (∃ pkt', computeMuxerPktFields codec oformat st pkt = (.error .einval, st, pkt') ∧
      (nonMonotone oformat st pkt = true ∨ pkt.pts < pkt.dts)) := by
  obtain ⟨pkt', heq, hpts, hdts⟩ := dtsFromPts_of_set codec st hset
  have hmono : nonMonotone oformat st pkt' = nonMonotone oformat st pkt := by
    simp only [nonMonotone, hdts]
  unfold computeMuxerPktFields
  simp only [heq, hmono, hpts, hdts]
  by_cases hback : nonMonotone oformat st pkt = true
  · rw [if_pos hback]
    exact .inr ⟨pkt', rfl, .inl hback⟩
  · rw [if_neg hback]
    by_cases horder : pkt.dts ≠ avNoptsValue ∧ pkt.pts ≠ avNoptsValue ∧ pkt.pts < pkt.dts
    · rw [if_pos horder]
      exact .inr ⟨pkt', rfl, .inr horder.2.2⟩
    · rw [if_neg horder]
      refine .inl ⟨_, pkt', rfl, rfl, hdts ▸ rfl, hpts, hdts, by simpa using hback, ?_⟩
      exact not_lt.mp fun hlt => horder ⟨hset.2, hset.1, hlt⟩

variable {oformat : AVOutputFormat}

/-- For a strict format and an audio or video stream the check compares with the
last timestamp unless that is unset or 0. -/
theorem nonMonotone_iff (hstrict : oformat.Strict) {st : AVStream}
    (hkind : st.codecType = .audio ∨ st.codecType = .video) (pkt : AVPacket) :
    nonMonotone oformat st pkt = true ↔
      st.curDts ≠ 0 ∧ st.curDts ≠ avNoptsValue ∧ pkt.dts ≤ st.curDts := by
  have hsubtitle : st.codecType ≠ .subtitle := by rcases hkind with h | h <;> simp [h]
  have hdata : st.codecType ≠ .data := by rcases hkind with h | h <;> simp [h]
  simp only [nonMonotone, decide_eq_true_eq]
  constructor
  · rintro ⟨hzero, hunset, hle⟩
    refine ⟨hzero, hunset, ?_⟩
    rcases hle with ⟨-, -, -, hle⟩ | hlt
    · exact hle
    · exact hlt.le
  · rintro ⟨hzero, hunset, hle⟩
    exact ⟨hzero, hunset, .inl ⟨hstrict.1, hsubtitle, hdata, hle⟩⟩

theorem writePacketCommon_of_set (codec : CodecDurations) (hstrict : oformat.Strict)
    (interleaved : Bool) (st : AVStream) (hset : pkt.TimestampsSet) :
    writePacketCommon codec oformat interleaved st pkt =
      match computeMuxerPktFields codec oformat st pkt with
      | (.ok _, st', pkt') => (.ok pkt', st')
      | (.error e, st', _) => (.error e, st') := by
  unfold writePacketCommon
  rcases computeMuxerPktFields_cases codec oformat st hset with
    ⟨st', pkt', heq, -, -, -, hdts, -⟩ | ⟨pkt', heq, -⟩
  · simp [heq, hdts, hset.2]
  · simp [heq, hstrict.2]

/-! ## A run -/

/-- A stream and the packets accepted from it so far. -/
structure MuxRun where
  st : AVStream
  accepted : List AVPacket

/-- One packet is passed to `compute_muxer_pkt_fields`. -/
def MuxRun.step (codec : CodecDurations) (oformat : AVOutputFormat) (r : MuxRun)
    (pkt : AVPacket) : MuxRun :=
  match computeMuxerPktFields codec oformat r.st pkt with
  | (.ok _, st, pkt) => ⟨st, r.accepted ++ [pkt]⟩
  | (.error _, st, _) => ⟨st, r.accepted⟩

/-- The packets `accepted` may be handed to a strict muxer. -/
def IncreasingDts (accepted : List AVPacket) : Prop :=
  (accepted.map AVPacket.dts).Pairwise (· < ·) ∧ ∀ pkt ∈ accepted, pkt.dts ≤ pkt.pts

/-- The promise about a run: the accepted packets are in order, and a rejected
packet leaves `cur_dts` as it was. -/
def KeepsOrder (codec : CodecDurations) (oformat : AVOutputFormat) (r : MuxRun)
    (pkts : List AVPacket) : Prop :=
  IncreasingDts (run (MuxRun.step codec oformat) r pkts).accepted ∧
    EachStep (MuxRun.step codec oformat) (fun r pkt =>
      (computeMuxerPktFields codec oformat r.st pkt).1 ≠ .ok () →
        (computeMuxerPktFields codec oformat r.st pkt).2.1.curDts = r.st.curDts) r pkts

/-- The packet is not one that follows an accepted timestamp of 0 with a
timestamp at or below 0. -/
def AfterZero (r : MuxRun) (pkt : AVPacket) : Prop :=
  r.accepted ≠ [] → r.st.curDts = 0 → 0 < pkt.dts ∨ pkt.pts < pkt.dts

/-- `cur_dts` is the timestamp of the last accepted packet. -/
structure MuxRun.Valid (r : MuxRun) : Prop where
  kind : r.st.codecType = .audio ∨ r.st.codecType = .video
  last : ∀ pkt ∈ r.accepted.getLast?, r.st.curDts = pkt.dts ∧ pkt.dts ≠ avNoptsValue

variable {r : MuxRun}

theorem MuxRun.Valid.step {codec : CodecDurations} (h : r.Valid) (hset : pkt.TimestampsSet) :
    (r.step codec oformat pkt).Valid := by
  unfold MuxRun.step
  rcases computeMuxerPktFields_cases codec oformat r.st hset with
    ⟨st', pkt', heq, hkind, hcur, -, hdts, -⟩ | ⟨pkt', heq, -⟩
  · simp only [heq]
    refine ⟨hkind ▸ h.kind, ?_⟩
    simp only [List.getLast?_append, List.getLast?_singleton, Option.some_or, Option.mem_some_iff,
      forall_eq']
    exact ⟨hcur.trans hdts.symm, hdts ▸ hset.2⟩
  · simpa only [heq] using h

theorem accepted_initial (codec : CodecDurations) (oformat : AVOutputFormat) (r : MuxRun)
    (pkts : List AVPacket) :
    r.accepted <+: (run (MuxRun.step codec oformat) r pkts).accepted := by
  induction pkts generalizing r with
  | nil => exact List.prefix_rfl
  | cons pkt pkts ih =>
    refine List.IsPrefix.trans ?_ (ih (r.step codec oformat pkt))
    unfold MuxRun.step
    split
    · exact List.prefix_append _ _
    · exact List.prefix_rfl

theorem IncreasingDts.of_initial {l l' : List AVPacket} (h : l <+: l') (hl : IncreasingDts l') :
    IncreasingDts l :=
  ⟨hl.1.sublist (h.sublist.map _), fun pkt hpkt => hl.2 pkt (h.subset hpkt)⟩

/-- A packet added at the end keeps the order if it follows the last one. -/
theorem increasingDts_append_singleton {l : List AVPacket} (hl : IncreasingDts l)
    (pkt : AVPacket) :
    IncreasingDts (l ++ [pkt]) ↔ (∀ last ∈ l.getLast?, last.dts < pkt.dts) ∧ pkt.dts ≤ pkt.pts := by
  obtain ⟨hdts, hpts⟩ := hl
  unfold IncreasingDts
  rw [List.map_append, List.pairwise_append]
  constructor
  · rintro ⟨⟨-, -, hlt⟩, hle⟩
    refine ⟨fun last hlast => ?_, hle pkt (by simp)⟩
    exact hlt _ (List.mem_map_of_mem (List.mem_of_mem_getLast? hlast)) _ (by simp)
  · rintro ⟨hlast, hle⟩
    refine ⟨⟨hdts, by simp, fun a ha b hb => ?_⟩, fun p hp => ?_⟩
    · -- the list ends in a packet that is at least as late as any other
      obtain ⟨q, hq, rfl⟩ := List.mem_map.mp ha
      obtain rfl : b = pkt.dts := by simpa using hb
      rcases List.eq_nil_or_concat l with rfl | ⟨init, last, rfl⟩
      · cases hq
      · rw [List.concat_eq_append] at hdts hlast hq
        have hlt : last.dts < pkt.dts := hlast last (by simp)
        rcases List.mem_append.mp hq with hinit | hq
        · rw [List.map_append, List.pairwise_append] at hdts
          exact (hdts.2.2 _ (List.mem_map_of_mem hinit) last.dts (by simp)).trans hlt
        · obtain rfl := List.mem_singleton.mp hq
          exact hlt
    · rcases List.mem_append.mp hp with hp | hp
      · exact hpts p hp
      · obtain rfl := List.mem_singleton.mp hp
        exact hle

/-- One step keeps the order exactly if no zero is followed by something at or
below zero. -/
theorem increasingDts_step (codec : CodecDurations) (hstrict : oformat.Strict) (hr : r.Valid)
    (hl : IncreasingDts r.accepted) (hset : pkt.TimestampsSet) :
    IncreasingDts (r.step codec oformat pkt).accepted ↔ AfterZero r pkt := by
  have hback := nonMonotone_iff hstrict hr.kind pkt
  unfold MuxRun.step AfterZero
  rcases computeMuxerPktFields_cases codec oformat r.st hset with
    ⟨st', pkt', heq, -, -, hpts, hdts, hmono, horder⟩ | ⟨pkt', heq, hreject⟩
  · simp only [heq]
    rw [increasingDts_append_singleton hl, hpts, hdts]
    constructor
    · rintro ⟨hlast, -⟩ hsome hzero
      obtain ⟨last, hmem⟩ := Option.isSome_iff_exists.mp
        (List.getLast?_isSome.mpr hsome)
      have hlt := hlast last hmem
      rw [← (hr.last last hmem).1, hzero] at hlt
      exact .inl hlt
    · intro hzero
      refine ⟨fun last hmem => ?_, horder⟩
      obtain ⟨hcur, hunset⟩ := hr.last last hmem
      rw [hmono] at hback
      by_contra hle
      rw [← hcur] at hle hunset
      by_cases hcurZero : r.st.curDts = 0
      · have hsome : r.accepted ≠ [] := List.getLast?_isSome.mp (Option.isSome_of_mem hmem)
        rcases hzero hsome hcurZero with hpos | hlt
        · lia
        · lia
      · exact absurd (hback.mpr ⟨hcurZero, hunset, by lia⟩) (by simp)
  · simp only [heq]
    refine ⟨fun _ hsome hzero => ?_, fun _ => hl⟩
    rcases hreject with hmono | hlt
    · exact absurd hzero (hback.mp hmono).1
    · exact .inr hlt

/-- A rejected packet leaves `cur_dts` as it was. -/
theorem curDts_of_rejected (codec : CodecDurations) (oformat : AVOutputFormat) (st : AVStream)
    (hset : pkt.TimestampsSet) (hreject : (computeMuxerPktFields codec oformat st pkt).1 ≠ .ok ()) :
    (computeMuxerPktFields codec oformat st pkt).2.1.curDts = st.curDts := by
  rcases computeMuxerPktFields_cases codec oformat st hset with
    ⟨st', pkt', heq, -⟩ | ⟨pkt', heq, -⟩
  · exact absurd (congrArg Prod.fst heq) hreject
  · rw [heq]

/-- The same for a run that starts with packets already accepted.  The induction
is on the packets; once the order is broken it stays so. -/
theorem keepsOrder_run_iff (codec : CodecDurations) (hstrict : oformat.Strict) (hr : r.Valid)
    (hl : IncreasingDts r.accepted) {pkts : List AVPacket} (hset : ∀ pkt ∈ pkts, pkt.TimestampsSet) :
    KeepsOrder codec oformat r pkts ↔ EachStep (MuxRun.step codec oformat) AfterZero r pkts := by
  induction pkts generalizing r with
  | nil => exact ⟨fun _ => trivial, fun _ => ⟨hl, trivial⟩⟩
  | cons pkt pkts ih =>
    have hpkt := hset pkt List.mem_cons_self
    have hstep := increasingDts_step codec hstrict hr hl hpkt
    have hrest : (r.step codec oformat pkt).Valid := hr.step hpkt
    simp only [eachStep_cons, ← hstep]
    constructor
    · rintro ⟨horder, -, hreject⟩
      have hnext := horder.of_initial (accepted_initial codec oformat _ pkts)
      refine ⟨hnext, (ih hrest hnext fun p hp => hset p (List.mem_cons_of_mem _ hp)).mp ?_⟩
      exact ⟨horder, hreject⟩
    · rintro ⟨hnext, hzero⟩
      obtain ⟨horder, hreject⟩ :=
        (ih hrest hnext fun p hp => hset p (List.mem_cons_of_mem _ hp)).mpr hzero
      exact ⟨horder, curDts_of_rejected codec oformat r.st hpkt, hreject⟩

/-- **When a strict muxer sees increasing timestamps.**  In a run of packets with
both timestamps set the accepted ones have strictly increasing dts and pts at
least dts, and rejected ones leave `cur_dts` alone, if and only if no packet
with `dts ≤ 0` (and `pts ≥ dts`) arrives while the last accepted dts is 0. -/
theorem keepsOrder_iff (codec : CodecDurations) {oformat : AVOutputFormat}
    (hstrict : oformat.Strict) {st : AVStream}
    (hkind : st.codecType = .audio ∨ st.codecType = .video) {pkts : List AVPacket}
    (hset : ∀ pkt ∈ pkts, pkt.TimestampsSet) :
    KeepsOrder codec oformat ⟨st, []⟩ pkts ↔
      EachStep (MuxRun.step codec oformat) AfterZero ⟨st, []⟩ pkts :=
  keepsOrder_run_iff codec hstrict ⟨hkind, by simp⟩ ⟨.nil, by simp⟩ hset

/-- A video stream with time base 1/25 that has seen no packet. -/
def videoStream : AVStream where
  codecType := .video
  videoDelay := 0
  maxBFrames := 0
  timeBase := ⟨1, 25⟩
  ticksPerFrame := 1
  ptsBuffer := List.replicate (maxReorderDelay + 1) avNoptsValue
  curDts := avNoptsValue
  privPts := ⟨0, 12, 25⟩

/-- A codec layer that knows no durations. -/
def noDurations : CodecDurations where
  ffComputeFrameDuration _ _ := (0, 0)
  avGetAudioFrameDuration _ _ := -1

/-- Timestamps that pass through zero in order. -/
theorem keepsOrder_through_zero :
    KeepsOrder noDurations ⟨false, false⟩ ⟨videoStream, []⟩
        [⟨-1, -1, 1, 1, none⟩, ⟨0, 0, 1, 1, none⟩, ⟨1, 1, 1, 1, none⟩] ↔
      EachStep (MuxRun.step noDurations ⟨false, false⟩) AfterZero ⟨videoStream, []⟩
        [⟨-1, -1, 1, 1, none⟩, ⟨0, 0, 1, 1, none⟩, ⟨1, 1, 1, 1, none⟩] :=
  keepsOrder_iff noDurations ⟨rfl, rfl⟩ (.inr rfl) (by
    intro pkt hpkt
    fin_cases hpkt <;> exact ⟨by decide, by decide⟩)

/-- After a packet of timestamp 0 one of timestamp -5 is accepted. -/
theorem not_keepsOrder_after_zero :
    ¬ ∀ (codec : CodecDurations) (oformat : AVOutputFormat) (st : AVStream)
      (pkts : List AVPacket), oformat.Strict → st.codecType = .audio ∨ st.codecType = .video →
      st.videoDelay = 0 → st.maxBFrames = 0 → st.curDts = avNoptsValue → (∀ pkt ∈ pkts, pkt.TimestampsSet) →
      KeepsOrder codec oformat ⟨st, []⟩ pkts := by
  intro h
  have horder := (h noDurations ⟨false, false⟩ videoStream
    [⟨0, 0, 1, 1, none⟩, ⟨-5, -5, 1, 1, none⟩] ⟨rfl, rfl⟩ (.inr rfl) rfl rfl rfl (by
      intro pkt hpkt
      fin_cases hpkt <;> exact ⟨by decide, by decide⟩)).1.1
  revert horder
  decide

end FFmpeg.Libavformat.Mux
