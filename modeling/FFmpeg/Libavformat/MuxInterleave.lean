import Mathlib.Tactic
import FFmpeg.Common.LinkedList
import FFmpeg.Libavutil.Error
import FFmpeg.Libavutil.Mathematics
import FFmpeg.Libavformat.MuxPktFields

/-!
# The interleaving queue of a muxer

`ff_interleave_add_packet`, `interleave_compare_dts` and
`ff_interleave_packet_per_dts` of `libavformat/mux.c`, on a list of packets in
memory.  A function has no result when the source would follow a null pointer or a
pointer to freed memory.
-/

namespace FFmpeg.Libavformat.Interleave

open Common Libavutil
open Mux (AVMediaType)

/-- The fields of an `AVPacket` the queue looks at; `chunkStart` is the flag
`CHUNK_START`. -/
structure AVPacket where
  streamIndex : Nat
  dts : Int
  duration : Int := 0
  size : Int := 0
  chunkStart : Bool := false
  deriving DecidableEq, Repr

/-- The fields of an `AVStream` used here; `vp8OrVp9` stands for the two codec ids. -/
structure AVStream where
  timeBase : AVRational
  codecType : AVMediaType
  vp8OrVp9 : Bool
  lastInPacketBuffer : Option Nat
  interleaverChunkSize : Int
  interleaverChunkDuration : Int
  deriving DecidableEq, Repr

instance : Inhabited AVStream := ⟨⟨⟨0, 1⟩, .unknown, false, none, 0, 0⟩⟩

/-- `AVFormatContext`, with the packet queue of its `internal` part and the memory the
queue lives in. -/
structure AVFormatContext where
  streams : List AVStream
  nbInterleavedStreams : Nat
  heap : Heap AVPacket
  packetBuffer : Option Nat
  packetBufferEnd : Option Nat
  maxChunkSize : Int
  maxChunkDuration : Int
  audioPreload : Int
  maxInterleaveDelta : Int
  flagShortest : Bool
  shortestEnd : Int
  deriving DecidableEq, Repr

/-- `s->streams[i]`. -/
def AVFormatContext.stream (s : AVFormatContext) (i : Nat) : AVStream :=
  s.streams.getD i default

/-! ## Comparing packets -/

/-- The comparison of an audio and another packet when audio is to come earlier. -/
def comparePreload (s : AVFormatContext) (next pkt : AVPacket) (comp : Int) : Int :=
  let st := s.stream pkt.streamIndex
  let st2 := s.stream next.streamIndex
  let preload := if st.codecType = .audio then s.audioPreload else 0
  let preload2 := if st2.codecType = .audio then s.audioPreload else 0
  if (st.codecType = .audio) ≠ (st2.codecType = .audio) then
    let ts := avRescaleQ pkt.dts st.timeBase avTimeBaseQ - preload
    let ts2 := avRescaleQ next.dts st2.timeBase avTimeBaseQ - preload2
    if ts = ts2 then
      let ts := Int.bmod
        ((pkt.dts * st.timeBase.num * 1000000 - preload * st.timeBase.den) * st2.timeBase.den -
          (next.dts * st2.timeBase.num * 1000000 - preload2 * st2.timeBase.den) *
            st.timeBase.den) (2 ^ 64)
      (if 0 > ts then 1 else 0) - (if 0 < ts then 1 else 0)
    else (if ts2 > ts then 1 else 0) - (if ts2 < ts then 1 else 0)
  else comp

/-- `interleave_compare_dts`: whether `next` comes after `pkt`. -/
def interleaveCompareDts (s : AVFormatContext) (next pkt : AVPacket) : Bool :=
  let st := s.stream pkt.streamIndex
  let st2 := s.stream next.streamIndex
  let comp := avCompareTs next.dts st2.timeBase pkt.dts st.timeBase
  let comp := if s.audioPreload ≠ 0 then comparePreload s next pkt comp else comp
  if comp = 0 then decide (pkt.streamIndex < next.streamIndex) else decide (comp > 0)

/-! ## Adding a packet -/

/-- The accounting of chunk sizes and durations for a packet of the stream `st`. -/
def accountChunk (s : AVFormatContext) (st : AVStream) (pkt : AVPacket) : AVStream × AVPacket :=
  let max := avRescaleQRnd s.maxChunkDuration avTimeBaseQ st.timeBase .up % 2 ^ 64
  let size := st.interleaverChunkSize + pkt.size
  let duration := st.interleaverChunkDuration + pkt.duration
  let long : Bool := max ≠ 0 ∧ duration % 2 ^ 64 > max
  if s.maxChunkSize ≠ 0 ∧ size > s.maxChunkSize ∨ long then
    let syncoffset := Int.bmod ((if st.codecType = .video then max else 0) / 2) (2 ^ 64)
    let syncto := Int.bmod
      (avRescale (pkt.dts + syncoffset) 1 (Int.bmod max (2 ^ 64)) * max - syncoffset) (2 ^ 64)
    let duration :=
      if long then Int.bmod (duration + (pkt.dts - syncto).tdiv 8 - max) (2 ^ 64) else 0
    ({ st with interleaverChunkSize := 0, interleaverChunkDuration := duration },
      { pkt with chunkStart := true })
  else ({ st with interleaverChunkSize := size, interleaverChunkDuration := duration }, pkt)

/-- The end of `ff_interleave_add_packet`: the node `thisPktl` of the stream `i` is linked
in at `nextPoint`, and is the new end of the list with `atEnd`. -/
def linkPacket (s : AVFormatContext) (i thisPktl : Nat) (nextPoint : Slot) (atEnd : Bool) :
    Option AVFormatContext := do
  let next ← s.heap.readSlot s.packetBuffer nextPoint
  let heap ← s.heap.setNext thisPktl next
  let (heap, packetBuffer) ← heap.writeSlot s.packetBuffer nextPoint (some thisPktl)
  some { s with
    heap := heap
    packetBuffer := packetBuffer
    packetBufferEnd := if atEnd then some thisPktl else s.packetBufferEnd
    streams := s.streams.modify i fun st => { st with lastInPacketBuffer := some thisPktl } }

/-- The slot behind the last packet of a stream, `&st->last_in_packet_buffer->next`, or
`&s->internal->packet_buffer` without such a packet. -/
def nextPointAfter (lastInPacketBuffer : Option Nat) : Slot :=
  match lastInPacketBuffer with
  | some p => .next p
  | none => .head

/-- The search for the place of the packet, whose node is `thisPktl`, from `nextPoint`
on. -/
def placePacket (compare : AVFormatContext → AVPacket → AVPacket → Bool) (chunked : Bool)
    (s : AVFormatContext) (pkt : AVPacket) (thisPktl : Nat) (nextPoint : Slot) :
    Option AVFormatContext := do
  let target ← s.heap.readSlot s.packetBuffer nextPoint
  if target.isNone then linkPacket s pkt.streamIndex thisPktl nextPoint true
  else if chunked && !pkt.chunkStart then
    linkPacket s pkt.streamIndex thisPktl nextPoint false
  else
    let last ← s.packetBufferEnd
    let lastNode ← s.heap.load last
    if compare s lastNode.data pkt then
      let nextPoint ← s.heap.skipWhile s.packetBuffer
        (fun next => (chunked && !next.chunkStart) || !compare s next pkt)
        (s.heap.cells.length + 1) nextPoint
      let target ← s.heap.readSlot s.packetBuffer nextPoint
      linkPacket s pkt.streamIndex thisPktl nextPoint target.isNone
    else linkPacket s pkt.streamIndex thisPktl (.next last) true

/-- `ff_interleave_add_packet`, when its allocations succeed. -/
def ffInterleaveAddPacket
    (compare : AVFormatContext → AVPacket → AVPacket → Bool) (s : AVFormatContext)
    (pkt : AVPacket) : Option AVFormatContext :=
  let chunked : Bool := s.maxChunkSize ≠ 0 ∨ s.maxChunkDuration ≠ 0
  let i := pkt.streamIndex
  let nextPoint := nextPointAfter (s.stream i).lastInPacketBuffer
  let (st, pkt) := if chunked then accountChunk s (s.stream i) pkt else (s.stream i, pkt)
  let (thisPktl, heap) := s.heap.alloc ⟨pkt, none⟩
  let s := { s with heap := heap, streams := s.streams.set i st }
  placePacket compare chunked s pkt thisPktl nextPoint

/-! ## Taking packets out -/

/-- The first packet is taken out of the list. -/
def takeFirst (s : AVFormatContext) : Option (AVPacket × AVFormatContext) := do
  let pktl ← s.packetBuffer
  let node ← s.heap.load pktl
  some (node.data, { s with
    heap := s.heap.free pktl
    packetBuffer := node.next
    packetBufferEnd := if node.next.isNone then none else s.packetBufferEnd
    streams := s.streams.modify node.data.streamIndex fun st =>
      if st.lastInPacketBuffer = some pktl then { st with lastInPacketBuffer := none } else st })

/-- The timestamp of a packet in microseconds. -/
def AVFormatContext.dtsUs (s : AVFormatContext) (pkt : AVPacket) : Int :=
  avRescaleQ pkt.dts (s.stream pkt.streamIndex).timeBase avTimeBaseQ

/-- The distance between the first packet of the queue and the last one of a stream,
maximised over the streams; `none` inside is `INT64_MIN`. -/
def maxDelta (s : AVFormatContext) (topDts : Int) : List AVStream → Option Int → Option (Option Int)
  | [], delta => some delta
  | st :: rest, delta =>
    match st.lastInPacketBuffer with
    | none => maxDelta s topDts rest delta
    | some p => do
      let last ← s.heap.load p
      let lastDts := avRescaleQ last.data.dts st.timeBase avTimeBaseQ
      maxDelta s topDts rest (some (max (delta.getD int64Min) (lastDts - topDts)))

/-- Whether the queue spans more than `max_interleave_delta`. -/
def exceedsDelta (s : AVFormatContext) : Option Bool := do
  let top ← s.packetBuffer
  let node ← s.heap.load top
  let delta ← maxDelta s (s.dtsUs node.data) s.streams none
  some (decide (s.maxInterleaveDelta < delta.getD int64Min))

/-- The loop that drops the packets behind the end of the shortest stream, in at most
`n` rounds; it also says whether a packet was dropped. -/
def dropBehindShortest : Nat → AVFormatContext → Bool → Option (Bool × AVFormatContext)
  | 0, _, _ => none
  | n + 1, s, dropped =>
    match s.packetBuffer with
    | none => some (dropped, s)
    | some top => do
      let node ← s.heap.load top
      if s.shortestEnd + 1 ≥ s.dtsUs node.data then some (dropped, s)
      else
        let (_, s) ← takeFirst s
        dropBehindShortest n s true

/-- The number of streams with a packet in the queue. -/
def streamCount (s : AVFormatContext) : Nat :=
  s.streams.countP fun st => st.lastInPacketBuffer.isSome

/-- The number of streams without one that are waited for. -/
def noninterleavedCount (s : AVFormatContext) : Nat :=
  s.streams.countP fun st =>
    st.lastInPacketBuffer.isNone && st.codecType ≠ .attachment && !st.vp8OrVp9

/-- `ff_interleave_packet_per_dts` after the packet was added: the packet returned with 1,
or none with 0. -/
def outputPacket (s : AVFormatContext) (eof : Bool) :
    Option (Option AVPacket × AVFormatContext) := do
  let count := streamCount s
  let flush := eof || s.nbInterleavedStreams = count
  let flush ←
    if s.maxInterleaveDelta > 0 ∧ s.packetBuffer.isSome ∧ ¬ flush ∧
        s.nbInterleavedStreams = count + noninterleavedCount s then
      exceedsDelta s
    else some flush
  let s ←
    if s.packetBuffer.isSome ∧ eof ∧ s.flagShortest ∧ s.shortestEnd = avNoptsValue then do
      let top ← s.packetBuffer
      let node ← s.heap.load top
      some { s with shortestEnd := s.dtsUs node.data }
    else some s
  let (dropped, s) ←
    if s.shortestEnd ≠ avNoptsValue then
      dropBehindShortest (s.heap.cells.length + 1) s false
    else some (false, s)
  if count ≠ 0 ∧ flush ∧ ¬ dropped then do
    let (pkt, s) ← takeFirst s
    some (some pkt, s)
  else some (none, s)

/-- `ff_interleave_packet_per_dts`; `alloc` is whether its allocations succeed. -/
def ffInterleavePacketPerDts (s : AVFormatContext) (pkt : Option AVPacket)
    (flush alloc : Bool) : Option (Except AVERROR (Option AVPacket) × AVFormatContext) :=
  match pkt with
  | none => (outputPacket s flush).map fun (out, s) => (.ok out, s)
  | some pkt =>
    if alloc then do
      let s ← ffInterleaveAddPacket interleaveCompareDts s pkt
      (outputPacket s flush).map fun (out, s) => (.ok out, s)
    else some (.error .enomem, s)

/-! ## Runs -/

/-- A call of `ff_interleave_packet_per_dts`. -/
structure Call where
  pkt : Option AVPacket
  flush : Bool
  alloc : Bool
  deriving DecidableEq, Repr

/-- A muxer with the packets added so far and those returned, each with whether the call
was a flush. -/
structure Run where
  context : AVFormatContext
  added : List AVPacket
  returned : List (Bool × AVPacket)
  deriving DecidableEq, Repr

/-- The packet a call adds to the queue. -/
def Call.added (call : Call) : List AVPacket :=
  if call.alloc then call.pkt.toList else []

/-- The packet a call returns. -/
def Call.returned (call : Call) : Except AVERROR (Option AVPacket) → List (Bool × AVPacket)
  | .ok (some pkt) => [(call.flush, pkt)]
  | _ => []

/-- A run goes on with a call. -/
def Run.step (r : Run) (call : Call) : Option Run := do
  let (out, s) ← ffInterleavePacketPerDts r.context call.pkt call.flush call.alloc
  some ⟨s, r.added ++ call.added, r.returned ++ call.returned out⟩

/-- A run goes on with several calls. -/
def Run.steps (r : Run) : List Call → Option Run
  | [] => some r
  | call :: calls => do
    let r ← r.step call
    r.steps calls

end FFmpeg.Libavformat.Interleave
