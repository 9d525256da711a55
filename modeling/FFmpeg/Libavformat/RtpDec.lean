import Mathlib.Tactic
import FFmpeg.Common.Bytes
import FFmpeg.Common.Run
import FFmpeg.Common.Serial
import FFmpeg.Libavutil.Error
import FFmpeg.Libavformat.Srtp

/-!
# Receiving RTP

The jitter buffer of `libavformat/rtpdec.c`: packets that come too early wait in
a queue sorted by sequence number.  What a depacketizer does with a payload is a
parameter.  Sequence numbers are 16 bits wide; `int` results are integers.

The context also logs, in order, the packets handed to
`rtp_parse_packet_internal` and the buffers that enter and leave the queue.
-/

namespace FFmpeg.Libavformat.Rtp

open Common Libavutil Srtp

/-! ## Statistics -/

/-- The part of `RTPStatistics` the validity check works on. -/
structure RTPStatistics where
  maxSeq : Nat
  cycles : Nat
  baseSeq : Nat
  badSeq : Nat
  probation : Nat
  received : Nat
  expectedPrior : Nat
  receivedPrior : Nat
  deriving DecidableEq, Repr

/-- `RTP_SEQ_MOD`. -/
def rtpSeqMod : Nat := 65536

/-- `rtp_init_statistics`. -/
def rtpInitStatistics (baseSequence : Nat) : RTPStatistics where
  maxSeq := baseSequence
  cycles := 0
  baseSeq := 0
  badSeq := 0
  probation := 1
  received := 0
  expectedPrior := 0
  receivedPrior := 0

/-- `rtp_init_sequence`. -/
def rtpInitSequence (s : RTPStatistics) (seq : Nat) : RTPStatistics :=
  { s with
    maxSeq := seq
    cycles := 0
    baseSeq := (seq + (2 ^ 32 - 1)) % 2 ^ 32
    badSeq := rtpSeqMod + 1
    received := 0
    expectedPrior := 0
    receivedPrior := 0 }

/-- `s->received++`. -/
def countReceived (s : RTPStatistics) : RTPStatistics :=
  { s with received := (s.received + 1) % 2 ^ 32 }

/-- `rtp_valid_packet_in_sequence`: whether the packet should be handled. -/
def rtpValidPacketInSequence (s : RTPStatistics) (seq : Nat) : Bool × RTPStatistics :=
  let udelta := (seq + rtpSeqMod - s.maxSeq) % rtpSeqMod
  let maxDropout := 3000
  let maxMisorder := 100
  let minSequential := 2
  if s.probation ≠ 0 then
    if seq = s.maxSeq + 1 then
      let s := { s with probation := s.probation - 1, maxSeq := seq }
      if s.probation = 0 then (true, countReceived (rtpInitSequence s seq))
      else (true, countReceived s)
    else (true, countReceived { s with probation := minSequential - 1, maxSeq := seq })
  else if udelta < maxDropout then
    let cycles := if seq < s.maxSeq then (s.cycles + rtpSeqMod) % 2 ^ 32 else s.cycles
    (true, countReceived { s with cycles := cycles, maxSeq := seq })
  else if udelta ≤ rtpSeqMod - maxMisorder then
    if seq = s.badSeq then (true, countReceived (rtpInitSequence s seq))
    else (false, { s with badSeq := (seq + 1) % rtpSeqMod })
  else (true, countReceived s)

/-! ## Contexts -/

/-- `RTPPacket`, a node of the queue. -/
structure RTPPacket where
  seq : Nat
  buf : Bytes
  deriving DecidableEq, Repr

/-- A call of `rtp_parse_packet_internal`. -/
structure Handed where
  seq : Nat
  buf : Bytes
  /-- the packet is the first of the queue -/
  queued : Bool
  /-- the packet has passed the checks that make its number the current one -/
  accepted : Bool
  deriving DecidableEq, Repr

/-- What is done with a payload: the depacketizer, its packet and its timestamps, which
make up a state of type `ω`.  The numbers are the timestamp, the sequence number and the
flags. -/
structure Depacketizer (ω : Type) where
  /-- `handler->parse_packet` followed by `finalize_packet` -/
  parsePacket : Option (ω → Option Bytes → Nat → Nat → Nat → Int × ω)
  /-- `av_new_packet` and the copy of the payload, followed by `finalize_packet` -/
  newPacket : ω → Bytes → Nat → Int × ω
  rtcpParsePacket : ω → Bytes → Int × ω

/-- `RTPDemuxContext`.  `queue_len` is the length of the queue; `srtp` is a context when
`srtp_enabled` is set. -/
structure RTPDemuxContext (ω : Type) where
  /-- whether there is a stream -/
  st : Bool
  payloadType : Nat
  ssrc : Nat
  seq : Nat
  srtp : Option SRTPContext
  statistics : RTPStatistics
  prevRet : Int
  queue : List RTPPacket
  queueSize : Int
  depacketizer : ω
  handed : List Handed
  /-- the buffers the queue has taken from the caller, whose pointer is cleared -/
  enqueued : List Bytes
  /-- the buffers of queue nodes that have been freed -/
  freed : List Bytes

variable {ω : Type}

/-- `ff_rtp_parse_open`, with `ff_rtp_parse_set_dynamic_protocol` and
`ff_rtp_parse_set_crypto`. -/
def ffRtpParseOpen (st : Bool) (payloadType : Nat) (queueSize : Int) (srtp : Option SRTPContext)
    (depacketizer : ω) : RTPDemuxContext ω where
  st := st
  payloadType := payloadType
  ssrc := 0
  seq := 0
  srtp := srtp
  statistics := rtpInitStatistics 0
  prevRet := 0
  queue := []
  queueSize := queueSize
  depacketizer := depacketizer
  handed := []
  enqueued := []
  freed := []

variable (d : Depacketizer ω)

/-! ## One packet -/

/-- The sequence number in the header of a packet. -/
def rtpSeq (buf : Bytes) : Nat :=
  rb 2 buf 2

/-- The length without padding. -/
def unpaddedLength (buf : Bytes) : Nat :=
  let padding := (buf.getD (buf.length - 1) 0).toNat
  if buf.getD 0 0 &&& 0x20 ≠ 0 ∧ 12 + padding ≤ buf.length then buf.length - padding
  else buf.length

/-- What follows the header, its contributing sources and its extension. -/
def rtpPayload (buf : Bytes) : Except Int Bytes :=
  let csrc := (buf.getD 0 0 &&& 0x0f).toNat
  let len := unpaddedLength buf
  if len < 12 + 4 * csrc then .error AVERROR.invalidData.toInt
  else
    let body := (buf.take len).drop (12 + 4 * csrc)
    if buf.getD 0 0 &&& 0x10 = 0 then .ok body
    else if body.length < 4 then .error (-1)
    else
      let ext := (rb 2 body 2 + 1) * 4
      if body.length < ext then .error (-1) else .ok (body.drop ext)

/-- The part of `rtp_parse_packet_internal` that follows `s->seq = seq`. -/
def rtpDepacketize (s : RTPDemuxContext ω) (buf : Bytes) : Int × RTPDemuxContext ω :=
  match rtpPayload buf with
  | .error rv => (rv, s)
  | .ok payload =>
    let timestamp := rb 4 buf 4
    let flags := if buf.getD 1 0 &&& 0x80 ≠ 0 then 2 else 0
    match d.parsePacket with
    | some parsePacket =>
      let r := parsePacket s.depacketizer (some payload) timestamp (rtpSeq buf) flags
      (r.1, { s with depacketizer := r.2 })
    | none =>
      if s.st then
        let r := d.newPacket s.depacketizer payload timestamp
        (r.1, { s with depacketizer := r.2 })
      else (AVERROR.einval.toInt, s)

/-- Logs that a packet is handed over. -/
def hand (s : RTPDemuxContext ω) (buf : Bytes) (queued accepted : Bool) : RTPDemuxContext ω :=
  { s with
    ssrc := rb 4 buf 8
    handed := s.handed ++ [⟨rtpSeq buf, buf, queued, accepted⟩] }

/-- `rtp_parse_packet_internal`. -/
def rtpParsePacketInternal (s : RTPDemuxContext ω) (queued : Bool) (buf : Bytes) :
    Int × RTPDemuxContext ω :=
  let payloadType := (buf.getD 1 0 &&& 0x7f).toNat
  let seq := rtpSeq buf
  if s.payloadType ≠ payloadType then (-1, hand s buf queued false)
  else
    let valid := rtpValidPacketInSequence s.statistics seq
    if valid.1 then
      rtpDepacketize d (hand { s with statistics := valid.2, seq := seq } buf queued true) buf
    else (-1, hand { s with statistics := valid.2 } buf queued false)

/-! ## The queue -/

/-- The place the loop of `enqueue_packet` finds: before the first packet that comes
later. -/
def insertPacket (packet : RTPPacket) : List RTPPacket → List RTPPacket
  | [] => [packet]
  | cur :: next =>
    if serialDiff 32768 packet.seq cur.seq < 0 then packet :: cur :: next
    else cur :: insertPacket packet next

/-- `enqueue_packet`, which may fail to allocate a node. -/
def enqueuePacket (alloc : Bool) (s : RTPDemuxContext ω) (buf : Bytes) : Int × RTPDemuxContext ω :=
  if alloc then
    (0, { s with queue := insertPacket ⟨rtpSeq buf, buf⟩ s.queue, enqueued := s.enqueued ++ [buf] })
  else (AVERROR.enomem.toInt, s)

/-- `has_next_packet`. -/
def hasNextPacket (s : RTPDemuxContext ω) : Bool :=
  match s.queue with
  | [] => false
  | packet :: _ => packet.seq = (s.seq + 1) % rtpSeqMod

/-- `rtp_parse_queued_packet`. -/
def rtpParseQueuedPacket (s : RTPDemuxContext ω) : Int × RTPDemuxContext ω :=
  match s.queue with
  | [] => (-1, s)
  | packet :: next =>
    let r := rtpParsePacketInternal d s true packet.buf
    (r.1, { r.2 with queue := next, freed := r.2.freed ++ [packet.buf] })

/-- The choice between the three routes of a packet in `rtp_parse_one_packet`. -/
def rtpReorder (alloc : Bool) (s : RTPDemuxContext ω) (buf : Bytes) : Int × RTPDemuxContext ω :=
  if (s.seq = 0 ∧ s.queue = []) ∨ s.queueSize ≤ 1 then rtpParsePacketInternal d s false buf
  else
    let diff := serialDiff 32768 (rtpSeq buf) s.seq
    if diff < 0 then (-1, s)
    else if diff ≤ 1 then rtpParsePacketInternal d s false buf
    else
      let r := enqueuePacket alloc s buf
      if r.1 < 0 then r
      else if (r.2.queue.length : Int) ≥ s.queueSize then rtpParseQueuedPacket d r.2
      else (-1, r.2)

/-- `rtp_parse_one_packet` without a buffer.  Where there is nothing more to fetch from the
last packet and no handler, the length of zero ends the call. -/
def rtpParseNext (s : RTPDemuxContext ω) : Int × RTPDemuxContext ω :=
  if s.prevRet ≤ 0 then rtpParseQueuedPacket d s
  else
    match d.parsePacket with
    | some parsePacket =>
      let r := parsePacket s.depacketizer none 0xffffffff 0 0
      (r.1, { s with depacketizer := r.2 })
    | none => (-1, s)

/-- `rtp_parse_one_packet`. -/
def rtpParseOnePacket (alloc : Bool) (s : RTPDemuxContext ω) :
    Option Bytes → Int × RTPDemuxContext ω
  | none => rtpParseNext d s
  | some buf =>
    if buf.length < 12 then (-1, s)
    else if buf.getD 0 0 &&& 0xc0 ≠ 0x80 then (-1, s)
    else if rtpPtIsRtcp (buf.getD 1 0) then
      let r := d.rtcpParsePacket s.depacketizer buf
      (r.1, { s with depacketizer := r.2 })
    else rtpReorder d alloc s buf

/-- The loop of `ff_rtp_parse_packet`.  It makes at most one round for each packet of the
queue. -/
def rtpParseAfter : Nat → Int → RTPDemuxContext ω → Int × RTPDemuxContext ω
  | 0, rv, s => (rv, s)
  | rounds + 1, rv, s =>
    if rv < 0 ∧ hasNextPacket s then
      let r := rtpParseQueuedPacket d s
      rtpParseAfter rounds r.1 r.2
    else (rv, s)

/-- `ff_rtp_parse_packet` after decryption. -/
def rtpParseDecrypted (alloc : Bool) (s : RTPDemuxContext ω) (buf : Option Bytes) :
    Int × RTPDemuxContext ω :=
  let one := rtpParseOnePacket d alloc s buf
  let s := { one.2 with prevRet := one.1 }
  let r := rtpParseAfter d s.queue.length one.1 s
  (if r.1 ≠ 0 then r.1 else if hasNextPacket r.2 then 1 else 0, r.2)

/-- A call: a buffer, together with whether a queue node can be allocated, or no buffer. -/
inductive Call
  | packet (buf : Bytes) (alloc : Bool)
  | next
  deriving DecidableEq, Repr

variable (crypto : Crypto)

/-- `ff_rtp_parse_packet`. -/
def ffRtpParsePacket (s : RTPDemuxContext ω) : Call → Int × RTPDemuxContext ω
  | .next => rtpParseDecrypted d true s none
  | .packet buf alloc =>
    match s.srtp with
    | none => rtpParseDecrypted d alloc s (some buf)
    | some srtp =>
      match ffSrtpDecrypt crypto srtp buf with
      | (.error _, srtp) => (-1, { s with srtp := some srtp })
      | (.ok buf, srtp) => rtpParseDecrypted d alloc { s with srtp := some srtp } (some buf)

/-- `ff_rtp_reset_packet_queue`. -/
def ffRtpResetPacketQueue (s : RTPDemuxContext ω) : RTPDemuxContext ω :=
  { s with
    queue := []
    freed := s.freed ++ s.queue.map RTPPacket.buf
    seq := 0
    prevRet := 0 }

/-- A run of calls. -/
def parseAll (s : RTPDemuxContext ω) (calls : List Call) : RTPDemuxContext ω :=
  run (fun s call => (ffRtpParsePacket d crypto s call).2) s calls

end FFmpeg.Libavformat.Rtp
