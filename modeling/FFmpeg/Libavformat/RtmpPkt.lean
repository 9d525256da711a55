import Mathlib.Tactic
import FFmpeg.Common.Bytes
import FFmpeg.Common.Overwrite
import FFmpeg.Libavutil.Error

/-!
# RTMP packets and their chunk framing

The packet layer of `libavformat/rtmppkt.c`: a packet is sent as a chunk with a
header of 12, 8, 4 or 1 bytes, followed by continuation chunks with a one-byte
header.  Which fields a header leaves out is decided against the last packet
of the same channel, so both ends keep a history `prev_pkt` indexed by channel.

The connection is the string of bytes still to be read.  A short read of
`ffurl_read_complete` leaves nothing behind, as the peer is gone by then.
-/

namespace FFmpeg.Libavformat.Rtmp

open Common Libavutil

/-- `enum RTMPPacketSize`: the size class of a chunk header. -/
inductive RTMPPacketSize
  | twelveBytes
  | eightBytes
  | fourBytes
  | oneByte
  deriving DecidableEq, Repr

/-- The two-bit code of a header size class. -/
def RTMPPacketSize.code : RTMPPacketSize → Nat
  | .twelveBytes => 0
  | .eightBytes => 1
  | .fourBytes => 2
  | .oneByte => 3

/-- The size class announced by the two high bits of a chunk's first byte. -/
def RTMPPacketSize.ofHdr (hdr : UInt8) : RTMPPacketSize :=
  match (hdr >>> 6).toNat with
  | 0 => .twelveBytes
  | 1 => .eightBytes
  | 2 => .fourBytes
  | _ => .oneByte

/-- `struct RTMPPacket`.  An all-zero entry is the default value; `data` is the
allocated payload buffer, empty for a null pointer. -/
structure RTMPPacket where
  channelId : Nat := 0
  type : UInt8 := 0
  timestamp : UInt32 := 0
  tsField : UInt32 := 0
  extra : UInt32 := 0
  data : Bytes := []
  size : Nat := 0
  offset : Nat := 0
  read : Nat := 0
  deriving DecidableEq, Repr

/-- The history of one end of a connection: `prev_pkt` with `nb_prev_pkt`
entries. -/
abbrev History := List RTMPPacket

/-- The entry of a channel; entries not allocated yet read as all-zero. -/
def History.entry (prevPkt : History) (channelId : Nat) : RTMPPacket :=
  prevPkt.getD channelId {}

/-- `ff_rtmp_check_alloc_array`: make sure the entry of `channel` exists. -/
def ffRtmpCheckAllocArray (prevPkt : History) (channel : Nat) : History :=
  if channel < prevPkt.length then prevPkt
  else prevPkt ++ List.replicate (channel + 16 - prevPkt.length) ({} : RTMPPacket)

/-- `ff_rtmp_packet_create`: set up `pkt` for a payload of `size` bytes.  An
empty payload leaves the data pointer as it was. -/
def ffRtmpPacketCreate (pkt : RTMPPacket) (channelId : Nat) (type : UInt8)
    (timestamp : UInt32) (size : Nat) : RTMPPacket :=
  { pkt with
    data := if size ≠ 0 then List.replicate size 0 else pkt.data
    size := size
    channelId := channelId
    type := type
    timestamp := timestamp
    extra := 0
    tsField := 0 }

/-- `ff_rtmp_packet_destroy`. -/
def ffRtmpPacketDestroy (pkt : RTMPPacket) : RTMPPacket :=
  { pkt with data := [], size := 0 }

/-! ## Reading -/

/-- `ffurl_read_complete` on a connection that still has the bytes `h` to
deliver. -/
def ffurlReadComplete (h : Bytes) (size : Nat) : Option (Bytes × Bytes) :=
  if size ≤ h.length then some (h.take size, h.drop size) else none

/-- The channel id of a chunk, the bytes its encoding took and the rest.  Ids 0
and 1 of the first byte announce one or two more bytes. -/
def readChannelId (hdr : UInt8) (h : Bytes) : Option (Nat × Nat × Bytes) :=
  let channelId := (hdr &&& 0x3F).toNat
  if channelId < 2 then do
    let (buf, h) ← ffurlReadComplete h (channelId + 1)
    some (getLE buf + 64, 1 + (channelId + 1), h)
  else
    some (channelId, 1, h)

/-- The fields a chunk header carries or takes from the history, and the number
of bytes read for them. -/
structure MessageHeader where
  tsField : UInt32
  size : Nat
  type : UInt8
  extra : UInt32
  written : Nat
  deriving DecidableEq, Repr

/-- The message header of size class `fmt`; missing fields come from `prev`. -/
def readMessageHeader (prev : RTMPPacket) (fmt : RTMPPacketSize) (h : Bytes) :
    Option (MessageHeader × Bytes) :=
  if fmt = .oneByte then
    some (⟨prev.tsField, prev.size, prev.type, prev.extra, 0⟩, h)
  else do
    let (buf, h) ← ffurlReadComplete h 3
    let tsField := UInt32.ofNat (getBE buf)
    if fmt = .fourBytes then
      some (⟨tsField, prev.size, prev.type, prev.extra, 3⟩, h)
    else do
      let (buf, h) ← ffurlReadComplete h 3
      let size := getBE buf
      let (buf, h) ← ffurlReadComplete h 1
      let type := buf.headD 0
      if fmt = .twelveBytes then do
        let (buf, h) ← ffurlReadComplete h 4
        some (⟨tsField, size, type, UInt32.ofNat (getLE buf), 11⟩, h)
      else
        some (⟨tsField, size, type, prev.extra, 7⟩, h)

/-- The timestamp field itself, or the four bytes of an extended timestamp. -/
def readTsValue (tsField : UInt32) (h : Bytes) : Option (UInt32 × Bytes) :=
  if tsField = 0xFFFFFF then do
    let (buf, h) ← ffurlReadComplete h 4
    some (UInt32.ofNat (getBE buf), h)
  else
    some (tsField, h)

/-- What `rtmp_packet_read_one_chunk` works on: the connection, the caller's
packet and the history. -/
structure Reader where
  h : Bytes
  p : RTMPPacket
  prevPkt : History
  deriving DecidableEq, Repr

/-- The last part of `rtmp_packet_read_one_chunk`: read the chunk's payload
into `p` and park an unfinished packet in the history entry `prev`. -/
def readChunkData (chunkSize channelId : Nat) (p prev : RTMPPacket) (h : Bytes)
    (prevPkt : History) : Except AVERROR Nat × Reader :=
  let size := prev.size - p.offset
  let toread := min size chunkSize
  match ffurlReadComplete h toread with
  | none => (.error .eio, ⟨[], ffRtmpPacketDestroy p, prevPkt.set channelId prev⟩)
  | some (buf, h) =>
    let p := { p with
      data := overwrite p.data p.offset buf
      read := p.read + toread
      offset := p.offset + toread }
    if 0 < size - toread then
      (.error .eagain, ⟨h, { p with data := [] },
        prevPkt.set channelId { prev with data := p.data, read := p.read, offset := p.offset }⟩)
    else
      (.ok p.read, ⟨h, p, prevPkt.set channelId { prev with read := 0 }⟩)

/-- The caller's packet and the history entry after the header `m` of a chunk:
a new packet is created, an unfinished one is taken back out of the history. -/
def startChunk (channelId : Nat) (m : MessageHeader) (timestamp : UInt32) (written : Nat)
    (p prev : RTMPPacket) : RTMPPacket × RTMPPacket :=
  let (p, prev) :=
    if prev.read = 0 then
      ({ ffRtmpPacketCreate p channelId m.type timestamp m.size with
          read := written, offset := 0 },
        { prev with tsField := m.tsField, timestamp := timestamp })
    else
      ({ p with
          data := prev.data
          size := prev.size
          channelId := prev.channelId
          type := prev.type
          tsField := prev.tsField
          extra := prev.extra
          offset := prev.offset
          read := prev.read + written
          timestamp := prev.timestamp },
        { prev with data := [] })
  -- save history
  ({ p with extra := m.extra },
    { prev with channelId := channelId, type := m.type, size := m.size, extra := m.extra })

/-- `rtmp_packet_read_one_chunk`; `hdr` is the chunk's first byte. -/
def rtmpPacketReadOneChunk (chunkSize : Nat) (hdr : UInt8) (s : Reader) :
    Except AVERROR Nat × Reader :=
  match readChannelId hdr s.h with
  | none => (.error .eio, { s with h := [] })
  | some (channelId, written, h) =>
    let prevPkt := ffRtmpCheckAllocArray s.prevPkt channelId
    let prev := prevPkt.entry channelId
    let fmt := RTMPPacketSize.ofHdr hdr
    match readMessageHeader prev fmt h with
    | none => (.error .eio, ⟨[], s.p, prevPkt⟩)
    | some (m, h) =>
      match readTsValue m.tsField h with
      | none => (.error .eio, ⟨[], s.p, prevPkt⟩)
      | some (ts, h) =>
        let timestamp := if fmt = .twelveBytes then ts else ts + prev.timestamp
        if prev.read ≠ 0 ∧ m.size ≠ prev.size then
          -- RTMP packet size mismatch
          (.error .invalidData, ⟨h, s.p,
            prevPkt.set channelId { ffRtmpPacketDestroy prev with read := 0 }⟩)
        else
          let (p, prev) := startChunk channelId m timestamp (written + m.written) s.p prev
          readChunkData chunkSize channelId p prev h prevPkt

/-- `ff_rtmp_packet_read_internal`: read chunks until a packet is complete.
Every round after the first takes one more byte, which bounds the rounds. -/
def ffRtmpPacketReadInternal (chunkSize : Nat) : Nat → UInt8 → Reader → Except AVERROR Nat × Reader
  | 0, _, s => (.error .eagain, s)
  | rounds + 1, hdr, s =>
    match rtmpPacketReadOneChunk chunkSize hdr s with
    | (.error .eagain, s) =>
      match s.h with
      | [] => (.error .eio, s)
      | hdr :: h => ffRtmpPacketReadInternal chunkSize rounds hdr { s with h := h }
    | r => r

/-- `ff_rtmp_packet_read`. -/
def ffRtmpPacketRead (chunkSize : Nat) (s : Reader) : Except AVERROR Nat × Reader :=
  match s.h with
  | [] => (.error .eio, s)
  | hdr :: h => ffRtmpPacketReadInternal chunkSize (h.length + 1) hdr { s with h := h }

/-! ## Writing -/

/-- The first one to three bytes of a chunk header. -/
def putChannelId (channelId : Nat) (mode : RTMPPacketSize) : Bytes :=
  if channelId < 64 then
    [UInt8.ofNat (channelId ||| (mode.code <<< 6))]
  else if channelId < 64 + 256 then
    [UInt8.ofNat (0 ||| (mode.code <<< 6)), UInt8.ofNat (channelId - 64)]
  else
    UInt8.ofNat (1 ||| (mode.code <<< 6)) :: putLE 2 (channelId - 64)

/-- The fields of a message header of size class `mode`. -/
def putMessageHeader (pkt : RTMPPacket) (mode : RTMPPacketSize) : Bytes :=
  if mode ≠ .oneByte then
    putBE 3 pkt.tsField.toNat ++
      if mode ≠ .fourBytes then
        putBE 3 pkt.size ++ pkt.type :: if mode = .twelveBytes then putLE 4 pkt.extra.toNat else []
      else []
  else []

/-- The extended timestamp, present exactly when the 24-bit field is full. -/
def putExtendedTs (tsField timestamp : UInt32) : Bytes :=
  if tsField = 0xFFFFFF then putBE 4 timestamp.toNat else []

/-- The payload loop of `ff_rtmp_packet_write`: the bytes sent and what they add
to `written` beyond the payload itself. -/
def writeChunks (chunkSize : Nat) (pkt : RTMPPacket) (timestamp : UInt32) : Nat → Nat → Bytes × Nat
  | 0, _ => ([], 0)
  | rounds + 1, off =>
    if off < pkt.size then
      let towrite := min chunkSize (pkt.size - off)
      let buf := (pkt.data.drop off).take towrite
      let off := off + towrite
      if off < pkt.size then
        let marker := UInt8.ofNat (0xC0 ||| pkt.channelId)
        let tsHeader := putExtendedTs pkt.tsField timestamp
        let (out, written) := writeChunks chunkSize pkt timestamp rounds off
        (buf ++ marker :: (tsHeader ++ out), 1 + tsHeader.length + written)
      else (buf, 0)
    else ([], 0)

/-- The outcome of `ff_rtmp_packet_write`: the bytes sent, the return value, the
packet with its `ts_field` set and the new history. -/
structure Written where
  out : Bytes
  written : Nat
  pkt : RTMPPacket
  prevPkt : History
  deriving DecidableEq, Repr

/-- Whether the timestamp is sent relative to the last packet of the channel.
A zero channel id marks an entry that was never written. -/
def useDelta (pkt prev : RTMPPacket) : Bool :=
  prev.channelId ≠ 0 && pkt.extra = prev.extra && pkt.timestamp ≥ prev.timestamp

/-- The full timestamp or the delta that `ff_rtmp_packet_write` encodes. -/
def sentTimestamp (pkt prev : RTMPPacket) : UInt32 :=
  if useDelta pkt prev then pkt.timestamp - prev.timestamp else pkt.timestamp

/-- The 24-bit timestamp field. -/
def sentTsField (timestamp : UInt32) : UInt32 :=
  if timestamp ≥ 0xFFFFFF then 0xFFFFFF else timestamp

/-- The header size class chosen for `pkt`, whose `ts_field` is already set. -/
def headerMode (pkt prev : RTMPPacket) : RTMPPacketSize :=
  if useDelta pkt prev then
    if pkt.type = prev.type ∧ pkt.size = prev.size then
      if pkt.tsField = prev.tsField then .oneByte else .fourBytes
    else .eightBytes
  else .twelveBytes

/-- `ff_rtmp_packet_write` on a connection that accepts every write. -/
def ffRtmpPacketWrite (chunkSize : Nat) (pkt : RTMPPacket) (prevPkt : History) : Written :=
  let prevPkt := ffRtmpCheckAllocArray prevPkt pkt.channelId
  let prev := prevPkt.entry pkt.channelId
  let timestamp := sentTimestamp pkt prev
  let pkt := { pkt with tsField := sentTsField timestamp }
  let mode := headerMode pkt prev
  let pktHdr := putChannelId pkt.channelId mode ++ putMessageHeader pkt mode ++
    putExtendedTs pkt.tsField timestamp
  -- save history
  let prev := { prev with
    channelId := pkt.channelId
    type := pkt.type
    size := pkt.size
    timestamp := pkt.timestamp
    tsField := pkt.tsField
    extra := pkt.extra }
  let (out, written) := writeChunks chunkSize pkt timestamp pkt.size 0
  { out := pktHdr ++ out
    written := pktHdr.length + pkt.size + written
    pkt := pkt
    prevPkt := prevPkt.set pkt.channelId prev }

end FFmpeg.Libavformat.Rtmp
