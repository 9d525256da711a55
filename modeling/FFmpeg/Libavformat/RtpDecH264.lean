import FFmpeg.Common.Bytes
import FFmpeg.Libavutil.Error

/-!
# Payloads of NAL units

The depacketisation of `libavformat/rtpdec_h264.c` and `libavformat/rtpdec_hevc.c`.  For H.264 it is
what `h264_handle_packet` puts into the packet it returns.  Allocations are taken to succeed, and the units are not
counted by their types, which is for debugging.
-/

namespace FFmpeg
namespace Libavformat
namespace RtpDecH264

open Common Libavutil

def startSequence : Bytes := [0, 0, 0, 1]

/-- The walk over the units of an aggregate, which both passes make: the first to add up
their sizes, the second to copy them. -/
def aggregatedNals (skipBetween : Nat) : Nat → Bytes → Except AVERROR (List Bytes)
  | 0, _ => .ok []
  | rounds + 1, src =>
    if src.length > 2 then do
      let nalSize := getBE (src.take 2)
      let src := src.drop 2
      if nalSize ≤ src.length then
        let nals ← aggregatedNals skipBetween rounds (src.drop (nalSize + skipBetween))
        return src.take nalSize :: nals
      else throw .invalidData
    else .ok []

/-- `ff_h264_handle_aggregated_packet`; a round takes the two bytes of a length. -/
def ffH264HandleAggregatedPacket (skipBetween : Nat) (buf : Bytes) : Except AVERROR Bytes := do
  let nals ← aggregatedNals skipBetween buf.length buf
  return nals.flatMap fun nal => startSequence ++ nal

/-- `ff_h264_handle_frag_packet`. -/
def ffH264HandleFragPacket (buf : Bytes) (startBit : Bool) (nalHeader : Bytes) : Bytes :=
  if startBit then startSequence ++ nalHeader ++ buf else buf

/-- `h264_handle_packet_fu_a`. -/
def h264HandlePacketFuA (buf : Bytes) : Except AVERROR Bytes :=
  if buf.length < 3 then throw .invalidData
  else
    let fuIndicator := buf.getD 0 0
    let fuHeader := buf.getD 1 0
    let startBit := fuHeader >>> 7
    let nalType := fuHeader &&& 0x1f
    let nal := fuIndicator &&& 0xe0 ||| nalType
    return ffH264HandleFragPacket (buf.drop 2) (startBit != 0) [nal]

/-- `h264_handle_packet`. -/
def h264HandlePacket (buf : Bytes) : Except AVERROR Bytes :=
  if buf = [] then throw .invalidData
  else
    let nal := buf.getD 0 0
    let type := nal &&& 0x1f
    -- the types used by the codec itself are all handled alike
    let type := if 1 ≤ type ∧ type ≤ 23 then 1 else type
    if type = 0 ∨ type = 1 then return startSequence ++ buf
    else if type = 24 then ffH264HandleAggregatedPacket 0 (buf.drop 1)
    else if type = 25 ∨ type = 26 ∨ type = 27 ∨ type = 29 then throw .other
    else if type = 28 then h264HandlePacketFuA buf
    else throw .invalidData

end RtpDecH264
end Libavformat
end FFmpeg

/-! ## Payloads of HEVC

`hevc_handle_packet` of `libavformat/rtpdec_hevc.c`: what it puts into the packet it returns.
Allocations are taken to succeed. -/

namespace FFmpeg
namespace Libavformat
namespace RtpDecHevc

open Common Libavutil RtpDecH264

/-- `RTP_HEVC_PAYLOAD_HEADER_SIZE`. -/
def payloadHeaderSize : Nat := 2

/-- `RTP_HEVC_FU_HEADER_SIZE`. -/
def fuHeaderSize : Nat := 1

/-- `RTP_HEVC_DONL_FIELD_SIZE`. -/
def donlFieldSize : Nat := 2

/-- `RTP_HEVC_DOND_FIELD_SIZE`. -/
def dondFieldSize : Nat := 1

/-- The branch of `hevc_handle_packet` for a fragment; `rtpPl` is the whole payload. -/
def hevcHandleFragment (usingDonlField : Bool) (rtpPl : Bytes) : Except AVERROR Bytes :=
  let buf := rtpPl.drop payloadHeaderSize
  let firstFragment := buf.getD 0 0 &&& 0x80
  let lastFragment := buf.getD 0 0 &&& 0x40
  let fuType := buf.getD 0 0 &&& 0x3f
  let skip := fuHeaderSize + if usingDonlField then donlFieldSize else 0
  if buf.length < skip then throw .invalidData
  else if buf.length = skip then throw .eagain
  else if firstFragment ≠ 0 ∧ lastFragment ≠ 0 then throw .invalidData
  else
    let newNalHeader : Bytes := [rtpPl.getD 0 0 &&& (0x81 : UInt8) ||| fuType <<< 1, rtpPl.getD 1 0]
    return ffH264HandleFragPacket (buf.drop skip) (firstFragment != 0) newNalHeader

/-- `hevc_handle_packet`. -/
def hevcHandlePacket (usingDonlField : Bool) (buf : Bytes) : Except AVERROR Bytes :=
  if buf.length < payloadHeaderSize + 1 then throw .invalidData
  else
    let nalType := buf.getD 0 0 >>> 1 &&& 0x3f
    let lid := buf.getD 0 0 <<< 5 &&& (0x20 : UInt8) ||| buf.getD 1 0 >>> 3 &&& (0x1f : UInt8)
    let tid := buf.getD 1 0 &&& 0x07
    if lid ≠ 0 then throw .other
    else if tid = 0 then throw .invalidData
    else if 50 < nalType then throw .invalidData
    else if nalType = 48 then
      let skip := payloadHeaderSize + if usingDonlField then donlFieldSize else 0
      ffH264HandleAggregatedPacket (if usingDonlField then dondFieldSize else 0) (buf.drop skip)
    else if nalType = 49 then hevcHandleFragment usingDonlField buf
    else if nalType = 50 then throw .other
    -- parameter sets and single units
    else return startSequence ++ buf

end RtpDecHevc
end Libavformat
end FFmpeg
