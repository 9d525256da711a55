import FFmpeg.Libavformat.Avc

/-!
# Packets of NAL units

The packetisation of `libavformat/rtpenc_h264_hevc.c`.  A unit is sent alone, put
into a buffer with its neighbours, or cut into fragments.  What matters of
`ff_rtp_send_data` is its arguments, so the calls made are part of the state.  The
buffer is memory of the length that `rtp_write_header` allocates, and `buf_ptr` an
offset into it.  A loop that runs out of its rounds has no result.
-/

namespace FFmpeg.Libavformat.RtpEncH264

open Common Avc

/-- The codecs the functions tell apart. -/
inductive AVCodecID
  | h264
  | hevc
  deriving DecidableEq, Repr

/-- The arguments of a call of `ff_rtp_send_data`. -/
structure Payload where
  buf1 : Bytes
  m : Bool
  deriving DecidableEq, Repr

/-- The fields of the muxer that are used here, the codec of its only stream, whether
`FF_RTP_FLAG_H264_MODE0` is set, and what has been sent. -/
structure RTPMuxContext where
  codecId : AVCodecID
  mode0 : Bool
  timestamp : Nat
  curTimestamp : Nat
  maxPayloadSize : Nat
  buf : Bytes
  bufPtr : Nat
  nalLengthSize : Nat
  bufferedNals : Nat
  sent : List Payload

/-- `ff_rtp_send_data`. -/
def ffRtpSendData (s : RTPMuxContext) (buf1 : Bytes) (m : Bool) : RTPMuxContext :=
  { s with sent := s.sent ++ [⟨buf1, m⟩] }

/-- `flush_buffered`. -/
def flushBuffered (s : RTPMuxContext) (last : Bool) : RTPMuxContext :=
  let s :=
    if s.bufPtr ≠ 0 then
      -- a single unit goes without the framing
      if s.bufferedNals = 1 then
        match s.codecId with
        | .h264 => ffRtpSendData s (slice s.buf 3 (s.bufPtr - 3)) last
        | .hevc => ffRtpSendData s (slice s.buf 4 (s.bufPtr - 4)) last
      else ffRtpSendData s (s.buf.take s.bufPtr) last
    else s
  { s with bufPtr := 0, bufferedNals := 0 }

/-- A write at `buf_ptr`, which moves behind it. -/
def put (s : RTPMuxContext) (bytes : Bytes) : RTPMuxContext :=
  { s with buf := overwrite s.buf s.bufPtr bytes, bufPtr := s.bufPtr + bytes.length }

/-- The header of a buffer that holds several units. -/
def aggregationHeader : AVCodecID → Bytes
  | .h264 => [24]
  | .hevc => [(48 : UInt8) <<< 1, 1]

/-- `nal_send`, for a unit that fits into a payload. -/
def sendWhole (s : RTPMuxContext) (nal : Bytes) (last : Bool) : RTPMuxContext :=
  let headerSize := match s.codecId with
    | .h264 => 1
    | .hevc => 2
  let skipAggregate := match s.codecId with
    | .h264 => s.mode0
    | .hevc => false
  let s :=
    if s.bufPtr + 2 + nal.length > s.maxPayloadSize then flushBuffered s false else s
  if s.bufPtr + 2 + headerSize + nal.length ≤ s.maxPayloadSize ∧ skipAggregate = false then
    let s := if s.bufPtr = 0 then put s (aggregationHeader s.codecId) else s
    let s := put s (putBE 2 nal.length)
    let s := put s nal
    { s with bufferedNals := s.bufferedNals + 1 }
  else ffRtpSendData (flushBuffered s false) nal last

/-- The loop of `nal_send` over the fragments of a unit, and the last of them. -/
def sendFragments (flagByte headerSize : Nat) (last : Bool) :
    Nat → RTPMuxContext → Bytes → Option RTPMuxContext
  | 0, _, _ => none
  | rounds + 1, s, nal =>
    if nal.length + headerSize > s.maxPayloadSize then
      let n := s.maxPayloadSize - headerSize
      let s := { s with buf := overwrite s.buf headerSize (nal.take n) }
      let s := ffRtpSendData s (s.buf.take s.maxPayloadSize) false
      let s := { s with buf := s.buf.modify flagByte fun b => b &&& ~~~((1 : UInt8) <<< 7) }
      sendFragments flagByte headerSize last rounds s (nal.drop n)
    else
      let s := { s with buf := s.buf.modify flagByte fun b => b ||| (1 : UInt8) <<< 6 }
      let s := { s with buf := overwrite s.buf headerSize nal }
      some (ffRtpSendData s (s.buf.take (nal.length + headerSize)) last)

/-- `nal_send`. -/
def nalSend (s : RTPMuxContext) (nal : Bytes) (last : Bool) : Option RTPMuxContext :=
  if nal.length ≤ s.maxPayloadSize then some (sendWhole s nal last)
  else
    let s := flushBuffered s false
    match s.codecId with
    | .h264 =>
      if s.mode0 then some s
      else
        let type := byte nal 0 &&& 0x1f
        let nri := byte nal 0 &&& 0x60
        let s := { s with buf := overwrite s.buf 0 [28 ||| nri, type ||| (1 : UInt8) <<< 7] }
        sendFragments 1 2 last nal.length s (nal.drop 1)
    | .hevc =>
      let nalType := (byte nal 0 >>> 1) &&& 0x3f
      let s := { s with buf := overwrite s.buf 0 [(49 : UInt8) <<< 1, 1, nalType ||| (1 : UInt8) <<< 7] }
      sendFragments 2 3 last nal.length s (nal.drop 2)

/-- `while (!*(r++));` -/
def skipZeros (buf : Bytes) : Nat → Nat → Option Nat
  | 0, _ => none
  | rounds + 1, r => if byte buf r = 0 then skipZeros buf rounds (r + 1) else some (r + 1)

/-- The start of the unit that is announced at `r`, and its end. -/
def nalAt (bigEndian : Bool) (address : Nat) (buf : Bytes) (fin nalLengthSize r : Nat) :
    Option (Nat × Nat) :=
  if nalLengthSize ≠ 0 then
    some (r + nalLengthSize, (ffAvcMp4FindStartcode buf r fin nalLengthSize).getD fin)
  else do
    let r ← skipZeros buf (fin - r) r
    return (r, ffAvcFindStartcode bigEndian address buf r fin)

/-- The loop of `ff_rtp_send_h264_hevc`; a unit cannot end before it starts. -/
def sendNals (bigEndian : Bool) (address : Nat) (buf : Bytes) (fin : Nat) :
    Nat → RTPMuxContext → Nat → Option RTPMuxContext
  | 0, _, _ => none
  | rounds + 1, s, r =>
    if r < fin then do
      let bounds ← nalAt bigEndian address buf fin s.nalLengthSize r
      if bounds.2 < bounds.1 then none
      else
        let s ← nalSend s (slice buf bounds.1 (bounds.2 - bounds.1)) (bounds.2 == fin)
        sendNals bigEndian address buf fin rounds s bounds.2
    else some s

/-- `ff_rtp_send_h264_hevc`, on an input at an address of which the search for start codes
uses the alignment. -/
def ffRtpSendH264Hevc (bigEndian : Bool) (address : Nat) (s : RTPMuxContext) (buf1 : Bytes) :
    Option RTPMuxContext := do
  let fin := buf1.length
  let s := { s with timestamp := s.curTimestamp, bufPtr := 0 }
  let r :=
    if s.nalLengthSize ≠ 0 then
      if (ffAvcMp4FindStartcode buf1 0 fin s.nalLengthSize).isSome then 0 else fin
    else ffAvcFindStartcode bigEndian address buf1 0 fin
  let s ← sendNals bigEndian address buf1 fin (fin + 1) s r
  return flushBuffered s true

end FFmpeg.Libavformat.RtpEncH264
