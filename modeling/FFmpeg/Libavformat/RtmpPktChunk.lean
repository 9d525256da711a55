import Mathlib.Tactic
import FFmpeg.Libavformat.RtmpPkt

/-!
# Reading one RTMP chunk

What the writer puts into a chunk header, the reader gets back out of it, and
one chunk moves the message of its channel forward by its payload.  The
statements are about a `Message`, a packet whose fields fit the wire format,
and about how much of it the reader has seen: `Partial` describes the history
entry that parks an unfinished message, `Filling` the caller's packet while a
chunk is being read.
-/

namespace FFmpeg.Libavformat.Rtmp

open Common Libavutil

/-- A packet that the chunk format can carry. -/
structure Message where
  channelId : Nat
  type : UInt8
  timestamp : UInt32
  extra : UInt32
  payload : Bytes
  two_le_channelId : 2 ≤ channelId
  channelId_le : channelId ≤ 65599
  payload_lt : payload.length < 2 ^ 24
  deriving DecidableEq

/-- The packet handed to the writer for a message. -/
def Message.toPacket (m : Message) : RTMPPacket where
  channelId := m.channelId
  type := m.type
  timestamp := m.timestamp
  extra := m.extra
  data := m.payload
  size := m.payload.length

/-- The same packet once the writer has set its timestamp field. -/
def Message.sentPacket (m : Message) (tsField : UInt32) : RTMPPacket where
  channelId := m.channelId
  type := m.type
  timestamp := m.timestamp
  tsField := tsField
  extra := m.extra
  data := m.payload
  size := m.payload.length

/-- The packet `p` the reader returned is the message `m`. -/
structure Message.ReadAs (m : Message) (p : RTMPPacket) : Prop where
  channelId : p.channelId = m.channelId
  type : p.type = m.type
  timestamp : p.timestamp = m.timestamp
  extra : p.extra = m.extra
  size : p.size = m.payload.length
  payload : p.data.take p.size = m.payload

instance (m : Message) (p : RTMPPacket) : Decidable (m.ReadAs p) :=
  decidable_of_iff
    (p.channelId = m.channelId ∧ p.type = m.type ∧ p.timestamp = m.timestamp ∧
      p.extra = m.extra ∧ p.size = m.payload.length ∧ p.data.take p.size = m.payload)
    ⟨fun ⟨h₁, h₂, h₃, h₄, h₅, h₆⟩ => ⟨h₁, h₂, h₃, h₄, h₅, h₆⟩,
      fun ⟨h₁, h₂, h₃, h₄, h₅, h₆⟩ => ⟨h₁, h₂, h₃, h₄, h₅, h₆⟩⟩

/-! ## The history -/

theorem entry_checkAllocArray (prevPkt : History) (channel c : Nat) :
    (ffRtmpCheckAllocArray prevPkt channel).entry c = prevPkt.entry c := by
  unfold ffRtmpCheckAllocArray History.entry
  split
  · rfl
  · by_cases hc : c < prevPkt.length
    · simp [List.getD, List.getElem?_append_left hc]
    · have hnone : prevPkt[c]? = none := List.getElem?_eq_none (by lia)
      simp only [List.getD, List.getElem?_append_right (Nat.le_of_not_lt hc),
        List.getElem?_replicate, hnone]
      split <;> rfl

theorem lt_length_checkAllocArray (prevPkt : History) (channel : Nat) :
    channel < (ffRtmpCheckAllocArray prevPkt channel).length := by
  unfold ffRtmpCheckAllocArray
  split
  · assumption
  · simp
    lia

/-- The history with the entry of one channel replaced. -/
def History.put (prevPkt : History) (channel : Nat) (e : RTMPPacket) : History :=
  (ffRtmpCheckAllocArray prevPkt channel).set channel e

theorem entry_put (prevPkt : History) (channel c : Nat) (e : RTMPPacket) :
    (prevPkt.put channel e).entry c = if c = channel then e else prevPkt.entry c := by
  have hlen := lt_length_checkAllocArray prevPkt channel
  unfold History.put
  split
  · next h =>
    subst h
    simp [History.entry, List.getD, hlen]
  · next h =>
    rw [← entry_checkAllocArray prevPkt channel c]
    simp [History.entry, List.getD, List.getElem?_set_ne (Ne.symm h)]

@[simp] theorem entry_put_self (prevPkt : History) (channel : Nat) (e : RTMPPacket) :
    (prevPkt.put channel e).entry channel = e := by
  simp [entry_put]

variable {c : Nat}

theorem entry_put_of_ne (prevPkt : History) {channel : Nat} (e : RTMPPacket) (h : c ≠ channel) :
    (prevPkt.put channel e).entry c = prevPkt.entry c := by
  simp [entry_put, h]

/-! ## Header fields -/

theorem ffurlReadComplete_append (buf rest : Bytes) :
    ffurlReadComplete (buf ++ rest) buf.length = some (buf, rest) := by
  simp [ffurlReadComplete]

theorem ffurlReadComplete_of_length {buf : Bytes} {n : Nat} (h : buf.length = n)
    (rest : Bytes) : ffurlReadComplete (buf ++ rest) n = some (buf, rest) := by
  rw [← h, ffurlReadComplete_append]

theorem channelBits_low : ∀ (c : Fin 64) (mode : Fin 4),
    (UInt8.ofNat (c.val ||| (mode.val <<< 6)) &&& 0x3F).toNat = c.val := by
  decide

theorem channelBits_high : ∀ (c : Fin 64) (mode : Fin 4),
    (UInt8.ofNat (c.val ||| (mode.val <<< 6)) >>> 6).toNat = mode.val := by
  decide

theorem RTMPPacketSize.code_lt (mode : RTMPPacketSize) : mode.code < 4 := by
  cases mode <;> decide

theorem channelBits_toNat (hc : c < 64) (mode : RTMPPacketSize) :
    (UInt8.ofNat (c ||| (mode.code <<< 6)) &&& 0x3F).toNat = c :=
  channelBits_low ⟨c, hc⟩ ⟨mode.code, mode.code_lt⟩

theorem ofHdr_channelBits (hc : c < 64) (mode : RTMPPacketSize) :
    RTMPPacketSize.ofHdr (UInt8.ofNat (c ||| (mode.code <<< 6))) = mode := by
  have h := channelBits_high ⟨c, hc⟩ ⟨mode.code, mode.code_lt⟩
  simp only at h
  unfold RTMPPacketSize.ofHdr
  rw [h]
  cases mode <;> rfl

/-- The one, two or three bytes of a channel id are read back. -/
theorem readChannelId_putChannelId (h2 : 2 ≤ c) (hmax : c ≤ 65599) (mode : RTMPPacketSize) :
    ∃ hdr tail, putChannelId c mode = hdr :: tail ∧ RTMPPacketSize.ofHdr hdr = mode ∧
      ∀ rest, readChannelId hdr (tail ++ rest) = some (c, tail.length + 1, rest) := by
  unfold putChannelId
  by_cases h64 : c < 64
  · rw [if_pos h64]
    refine ⟨_, [], rfl, ofHdr_channelBits h64 mode, fun rest => ?_⟩
    have hnot : ¬ c < 2 := by lia
    simp only [readChannelId, channelBits_toNat h64, if_neg hnot, List.nil_append,
      List.length_nil, Nat.zero_add]
  · rw [if_neg h64]
    by_cases h320 : c < 64 + 256
    · rw [if_pos h320]
      refine ⟨_, [UInt8.ofNat (c - 64)], rfl, ofHdr_channelBits (by lia) mode, fun rest => ?_⟩
      have hbits := channelBits_toNat (show 0 < 64 by lia) mode
      have hread : ffurlReadComplete ([UInt8.ofNat (c - 64)] ++ rest) (0 + 1) =
          some ([UInt8.ofNat (c - 64)], rest) := ffurlReadComplete_of_length rfl rest
      have hvalue : getLE [UInt8.ofNat (c - 64)] + 64 = c := by
        simp only [getLE, UInt8.toNat_ofNat']
        lia
      simp only [readChannelId, hbits, hread]
      simp [hvalue]
    · rw [if_neg h320]
      refine ⟨_, putLE 2 (c - 64), rfl, ofHdr_channelBits (by lia) mode, fun rest => ?_⟩
      have hbits := channelBits_toNat (show 1 < 64 by lia) mode
      have hread : ffurlReadComplete (putLE 2 (c - 64) ++ rest) (1 + 1) =
          some (putLE 2 (c - 64), rest) := ffurlReadComplete_of_length (by simp) rest
      have hvalue : getLE (putLE 2 (c - 64)) + 64 = c := by
        rw [getLE_putLE_of_lt (by lia)]
        lia
      simp only [readChannelId, hbits, hread]
      simp [hvalue]

/-- Fields left out by a header of size class `mode` agree with the history. -/
def HeaderFits (pkt prev : RTMPPacket) (mode : RTMPPacketSize) : Prop :=
  (mode = .oneByte → prev.tsField = pkt.tsField) ∧
    (mode = .oneByte ∨ mode = .fourBytes → prev.size = pkt.size ∧ prev.type = pkt.type) ∧
    (mode ≠ .twelveBytes → prev.extra = pkt.extra)

theorem getBE_putBE_toNat_three {x : UInt32} (h : x ≤ 0xFFFFFF) :
    UInt32.ofNat (getBE (putBE 3 x.toNat)) = x := by
  have hx : x.toNat ≤ 0xFFFFFF := UInt32.le_iff_toNat_le.mp h
  rw [getBE_putBE_of_lt (by lia), UInt32.ofNat_toNat]

theorem getBE_putBE_toNat_four (x : UInt32) : UInt32.ofNat (getBE (putBE 4 x.toNat)) = x := by
  have hx := x.toNat_lt
  rw [getBE_putBE_of_lt (by lia), UInt32.ofNat_toNat]

theorem getLE_putLE_toNat_four (x : UInt32) : UInt32.ofNat (getLE (putLE 4 x.toNat)) = x := by
  have hx := x.toNat_lt
  rw [getLE_putLE_of_lt (by lia), UInt32.ofNat_toNat]

variable {prev : RTMPPacket} {mode : RTMPPacketSize}

/-- A message header is read back, the fields it leaves out from the history. -/
theorem readMessageHeader_putMessageHeader {pkt : RTMPPacket} (hfits : HeaderFits pkt prev mode)
    (hts : pkt.tsField ≤ 0xFFFFFF) (hsize : pkt.size < 2 ^ 24) (rest : Bytes) :
    ∃ written, readMessageHeader prev mode (putMessageHeader pkt mode ++ rest) =
      some (⟨pkt.tsField, pkt.size, pkt.type, pkt.extra, written⟩, rest) := by
  obtain ⟨hone, htwo, hthree⟩ := hfits
  have hrts : ∀ r, ffurlReadComplete (putBE 3 pkt.tsField.toNat ++ r) 3 =
      some (putBE 3 pkt.tsField.toNat, r) := ffurlReadComplete_of_length (by simp)
  have hrsize : ∀ r, ffurlReadComplete (putBE 3 pkt.size ++ r) 3 =
      some (putBE 3 pkt.size, r) := ffurlReadComplete_of_length (by simp)
  have hrtype : ∀ r, ffurlReadComplete (pkt.type :: r) 1 = some ([pkt.type], r) :=
    fun r => ffurlReadComplete_of_length (show [pkt.type].length = 1 from rfl) r
  have hrextra : ∀ r, ffurlReadComplete (putLE 4 pkt.extra.toNat ++ r) 4 =
      some (putLE 4 pkt.extra.toNat, r) := ffurlReadComplete_of_length (by simp)
  have hvsize : getBE (putBE 3 pkt.size) = pkt.size := getBE_putBE_of_lt (by lia)
  cases mode with
  | oneByte =>
      obtain ⟨hs, ht⟩ := htwo (Or.inl rfl)
      exact ⟨0, by simp [readMessageHeader, putMessageHeader, hone rfl, hs, ht, hthree]⟩
  | fourBytes =>
      obtain ⟨hs, ht⟩ := htwo (Or.inr rfl)
      refine ⟨3, ?_⟩
      simp [readMessageHeader, putMessageHeader, hrts, getBE_putBE_toNat_three hts, hs, ht, hthree]
  | eightBytes =>
      refine ⟨7, ?_⟩
      simp [readMessageHeader, putMessageHeader, hrts, getBE_putBE_toNat_three hts, hrsize,
        hrtype, hvsize, hthree]
  | twelveBytes =>
      refine ⟨11, ?_⟩
      simp [readMessageHeader, putMessageHeader, hrts, getBE_putBE_toNat_three hts, hrsize,
        hrtype, hvsize, hrextra, getLE_putLE_toNat_four]

theorem sentTsField_le (timestamp : UInt32) : sentTsField timestamp ≤ 0xFFFFFF := by
  unfold sentTsField
  split
  · exact UInt32.le_refl _
  · next h => exact UInt32.le_of_lt (UInt32.not_le.mp h)

theorem readTsValue_putExtendedTs (timestamp : UInt32) (rest : Bytes) :
    readTsValue (sentTsField timestamp)
      (putExtendedTs (sentTsField timestamp) timestamp ++ rest) = some (timestamp, rest) := by
  have hread : ffurlReadComplete (putBE 4 timestamp.toNat ++ rest) 4 =
      some (putBE 4 timestamp.toNat, rest) := ffurlReadComplete_of_length (by simp) rest
  unfold readTsValue putExtendedTs
  by_cases h : sentTsField timestamp = 0xFFFFFF
  · simp [h, hread, getBE_putBE_toNat_four]
  · have hlt : ¬ timestamp ≥ 0xFFFFFF := by
      intro hge
      exact h (by simp [sentTsField, hge])
    simp only [if_neg h, List.nil_append]
    simp [sentTsField, hlt]

/-! ## Payload -/

/-- The caller's packet while `off` payload bytes of `m` have been read. -/
structure Filling (m : Message) (off : Nat) (p : RTMPPacket) : Prop where
  channelId : p.channelId = m.channelId
  type : p.type = m.type
  timestamp : p.timestamp = m.timestamp
  extra : p.extra = m.extra
  size : p.size = m.payload.length
  offset : p.offset = off
  read : p.read ≠ 0
  length : m.payload.length ≤ p.data.length
  data : p.data.take off = m.payload.take off

/-- The history entry that parks `m` after `off` of its payload bytes. -/
structure Partial (m : Message) (tsField : UInt32) (off : Nat) (e : RTMPPacket) : Prop
    extends Filling m off e where
  tsField : e.tsField = tsField

variable {m : Message} {p : RTMPPacket}

theorem Filling.readAs (h : Filling m m.payload.length p) : m.ReadAs p where
  channelId := h.channelId
  type := h.type
  timestamp := h.timestamp
  extra := h.extra
  size := h.size
  payload := by rw [h.size, h.data, List.take_length]

/-- The payload bytes of `m` that the chunk starting at `off` carries. -/
def Message.chunkPayload (m : Message) (chunkSize off : Nat) : Bytes :=
  (m.payload.drop off).take (min (m.payload.length - off) chunkSize)

theorem Message.length_chunkPayload (m : Message) (chunkSize off : Nat) :
    (m.chunkPayload chunkSize off).length = min (m.payload.length - off) chunkSize := by
  simp only [chunkPayload, List.length_take, List.length_drop]
  lia

/-- The reader's packet after the payload bytes `buf` of a chunk. -/
def filled (p : RTMPPacket) (buf : Bytes) : RTMPPacket :=
  { p with
    data := overwrite p.data p.offset buf
    read := p.read + buf.length
    offset := p.offset + buf.length }

variable {off : Nat}

theorem Filling.filled (h : Filling m off p) (hoff : off ≤ m.payload.length) (chunkSize : Nat) :
    Filling m (off + (m.chunkPayload chunkSize off).length)
      (filled p (m.chunkPayload chunkSize off)) := by
  have hlen := m.length_chunkPayload chunkSize off
  have hle : off ≤ p.data.length := hoff.trans h.length
  refine ⟨h.channelId, h.type, h.timestamp, h.extra, h.size, ?_, ?_, ?_, ?_⟩
  · simp [Rtmp.filled, h.offset]
  · have := h.read
    simp only [Rtmp.filled]
    lia
  · simp only [Rtmp.filled, h.offset, length_overwrite hle]
    exact h.length.trans (Nat.le_max_left _ _)
  · simp only [Rtmp.filled, h.offset]
    rw [take_overwrite hle, h.data, hlen, Message.chunkPayload, ← List.take_add]

/-- Reading the payload of one chunk: the message is complete or is parked in
the history. -/
theorem readChunkData_spec (hp : Filling m off p) (hsize : prev.size = m.payload.length)
    (chunkSize channelId : Nat) (rest : Bytes) (prevPkt : History) :
    let p' := filled p (m.chunkPayload chunkSize off)
    readChunkData chunkSize channelId p prev (m.chunkPayload chunkSize off ++ rest) prevPkt =
      if off + (m.chunkPayload chunkSize off).length < m.payload.length then
        (.error .eagain, ⟨rest, { p' with data := [] },
          prevPkt.set channelId
            { prev with data := p'.data, read := p'.read, offset := p'.offset }⟩)
      else
        (.ok p'.read, ⟨rest, p', prevPkt.set channelId { prev with read := 0 }⟩) := by
  have hlen := m.length_chunkPayload chunkSize off
  have hread := ffurlReadComplete_append (m.chunkPayload chunkSize off) rest
  rw [hlen] at hread
  simp only [readChunkData, hsize, hp.offset, hread, filled, hlen]
  congr 1
  simp only [eq_iff_iff]
  lia

/-! ## One chunk -/

variable {ts : UInt32}

theorem readOneChunk_eq {chunkSize : Nat} {hdr : UInt8} {s : Reader} {channelId w : Nat}
    {h₁ h₂ h₃ : Bytes} {m : MessageHeader}
    (hchannel : readChannelId hdr s.h = some (channelId, w, h₁))
    (hheader : readMessageHeader (s.prevPkt.entry channelId) (RTMPPacketSize.ofHdr hdr) h₁ = some (m, h₂))
    (hts : readTsValue m.tsField h₂ = some (ts, h₃))
    (hsize : (s.prevPkt.entry channelId).read = 0 ∨ m.size = (s.prevPkt.entry channelId).size) :
    rtmpPacketReadOneChunk chunkSize hdr s = let prev := s.prevPkt.entry channelId
      let timestamp := if RTMPPacketSize.ofHdr hdr = .twelveBytes then ts
        else ts + prev.timestamp
      let q := startChunk channelId m timestamp (w + m.written) s.p prev
      readChunkData chunkSize channelId q.1 q.2 h₃
        (ffRtmpCheckAllocArray s.prevPkt channelId) := by
  have hne : ¬ ((s.prevPkt.entry channelId).read ≠ 0 ∧
      m.size ≠ (s.prevPkt.entry channelId).size) := by
    rintro ⟨h₁, h₂⟩
    exact hsize.elim h₁ h₂
  simp only [rtmpPacketReadOneChunk, hchannel, entry_checkAllocArray, hheader, hts, if_neg hne]

/-- The history entry of a channel whose last packet was `m`. -/
structure Settled (m : Message) (tsField : UInt32) (e : RTMPPacket) : Prop where
  channelId : e.channelId = m.channelId
  type : e.type = m.type
  timestamp : e.timestamp = m.timestamp
  extra : e.extra = m.extra
  size : e.size = m.payload.length
  tsField : e.tsField = tsField
  read : e.read = 0

/-- What reading a chunk of `m` that ends at payload offset `off` must do: park
the message while it is unfinished and return it once it is complete.  Only
the history entry of its own channel may change. -/
def ChunkOutcome (m : Message) (tsField : UInt32) (off : Nat) (rest : Bytes)
    (prevPkt : History) (r : Except AVERROR Nat × Reader) : Prop :=
  if off < m.payload.length then
    ∃ p e, r = (.error .eagain, ⟨rest, p, prevPkt.put m.channelId e⟩) ∧ Partial m tsField off e
  else
    ∃ n p e, r = (.ok n, ⟨rest, p, prevPkt.put m.channelId e⟩) ∧ m.ReadAs p ∧ Settled m tsField e

variable {tsField : UInt32}

/-- Reading the payload of a chunk, once the caller's packet and the history
entry are set up for it. -/
theorem readChunkData_outcome (hp : Filling m off p) (hoff : off ≤ m.payload.length)
    (hprev : Settled m tsField { prev with read := 0 }) (chunkSize : Nat) (rest : Bytes)
    (prevPkt : History) :
    ChunkOutcome m tsField (off + (m.chunkPayload chunkSize off).length) rest prevPkt
      (readChunkData chunkSize m.channelId p prev (m.chunkPayload chunkSize off ++ rest)
        (ffRtmpCheckAllocArray prevPkt m.channelId)) := by
  have hfilled := hp.filled hoff chunkSize
  have hsize : prev.size = m.payload.length := hprev.size
  rw [readChunkData_spec hp hsize]
  unfold ChunkOutcome
  split
  · refine ⟨_, _, rfl, ?_⟩
    exact ⟨⟨hprev.channelId, hprev.type, hprev.timestamp, hprev.extra, hprev.size,
      hfilled.offset, hfilled.read, hfilled.length, hfilled.data⟩, hprev.tsField⟩
  · next hdone =>
    have hlen := m.length_chunkPayload chunkSize off
    have hend : off + (m.chunkPayload chunkSize off).length = m.payload.length := by lia
    rw [hend] at hfilled
    exact ⟨_, _, _, rfl, hfilled.readAs, hprev⟩

theorem startChunk_new (m : Message) (tsField : UInt32) (hidle : prev.read = 0) (w tail : Nat)
    (p : RTMPPacket) :
    let q := startChunk m.channelId ⟨tsField, m.payload.length, m.type, m.extra, w⟩
      m.timestamp (tail + 1 + w) p prev
    Filling m 0 q.1 ∧ Settled m tsField { q.2 with read := 0 } := by
  have hdata : m.payload.length ≤ (ffRtmpPacketCreate p m.channelId m.type m.timestamp
      m.payload.length).data.length := by
    by_cases hzero : m.payload.length = 0 <;> simp [ffRtmpPacketCreate, hzero]
  simp only [startChunk, hidle, if_true]
  refine ⟨⟨rfl, rfl, rfl, rfl, rfl, rfl, ?_, hdata, rfl⟩, ⟨rfl, rfl, rfl, rfl, rfl, rfl, rfl⟩⟩
  show tail + 1 + w ≠ 0
  lia

theorem startChunk_continue (h : Partial m tsField off prev) (w : Nat) (timestamp : UInt32)
    (p : RTMPPacket) :
    let q := startChunk m.channelId ⟨tsField, m.payload.length, m.type, m.extra, 0⟩
      timestamp w p prev
    Filling m off q.1 ∧ Settled m tsField { q.2 with read := 0 } := by
  have hread := h.read
  simp only [startChunk, if_neg hread]
  refine ⟨⟨h.channelId, h.type, h.timestamp, rfl, h.size, h.offset, ?_, h.length, h.data⟩,
    ⟨rfl, rfl, h.timestamp, rfl, rfl, h.tsField, rfl⟩⟩
  show prev.read + w ≠ 0
  lia

variable {prevPkt : History}

/-- Reading the first chunk of a message.  The history must hold no unfinished
message of the channel, the header must fit it, and the timestamp sent must
lead to the one of the message. -/
theorem readOneChunk_first (hidle : (prevPkt.entry m.channelId).read = 0)
    (hfits : HeaderFits (m.sentPacket (sentTsField ts)) (prevPkt.entry m.channelId) mode)
    (hts : (if mode = .twelveBytes then ts else ts + (prevPkt.entry m.channelId).timestamp) = m.timestamp)
    (chunkSize : Nat) :
    ∃ hdr tail,
      putChannelId m.channelId mode ++ putMessageHeader (m.sentPacket (sentTsField ts)) mode ++
        putExtendedTs (sentTsField ts) ts = hdr :: tail ∧
      ∀ (p : RTMPPacket) (rest : Bytes),
        ChunkOutcome m (sentTsField ts) (m.chunkPayload chunkSize 0).length rest prevPkt
          (rtmpPacketReadOneChunk chunkSize hdr
            ⟨tail ++ (m.chunkPayload chunkSize 0 ++ rest), p, prevPkt⟩) := by
  obtain ⟨hdr, tail, hput, hmode, hchannel⟩ :=
    readChannelId_putChannelId m.two_le_channelId m.channelId_le mode
  refine ⟨hdr, tail ++ putMessageHeader (m.sentPacket (sentTsField ts)) mode ++
    putExtendedTs (sentTsField ts) ts, by simp [hput], fun p rest => ?_⟩
  obtain ⟨w, hheader⟩ := readMessageHeader_putMessageHeader hfits (sentTsField_le ts)
    m.payload_lt
    (putExtendedTs (sentTsField ts) ts ++ (m.chunkPayload chunkSize 0 ++ rest))
  have hvalue := readTsValue_putExtendedTs ts (m.chunkPayload chunkSize 0 ++ rest)
  obtain ⟨hp, hprev⟩ := startChunk_new m (sentTsField ts) hidle w tail.length p
  rw [readOneChunk_eq (by simpa only [List.append_assoc] using hchannel _)
    (by rw [hmode]; exact hheader) hvalue (Or.inl hidle)]
  simp only [hmode, hts]
  have hout := readChunkData_outcome hp (Nat.zero_le _) hprev chunkSize rest prevPkt
  rw [Nat.zero_add] at hout
  exact hout

theorem marker_eq (hc : c < 64) : putChannelId c .oneByte = [UInt8.ofNat (0xC0 ||| c)] := by
  rw [putChannelId, if_pos hc, Nat.or_comm]
  rfl

theorem readOneChunk_continuation (hc : m.channelId < 64)
    (hparked : Partial m (sentTsField ts) off (prevPkt.entry m.channelId))
    (hoff : off ≤ m.payload.length) (chunkSize : Nat) (p : RTMPPacket) (rest : Bytes) :
    ChunkOutcome m (sentTsField ts) (off + (m.chunkPayload chunkSize off).length) rest prevPkt
      (rtmpPacketReadOneChunk chunkSize (UInt8.ofNat (0xC0 ||| m.channelId))
        ⟨putExtendedTs (sentTsField ts) ts ++ (m.chunkPayload chunkSize off ++ rest), p,
          prevPkt⟩) := by
  obtain ⟨hdr, tail, hput, hmode, hchannel⟩ :=
    readChannelId_putChannelId m.two_le_channelId m.channelId_le .oneByte
  rw [marker_eq hc] at hput
  obtain ⟨rfl, rfl⟩ : UInt8.ofNat (0xC0 ||| m.channelId) = hdr ∧ [] = tail := by
    simpa using hput
  have hheader : readMessageHeader (prevPkt.entry m.channelId) .oneByte
      (putExtendedTs (sentTsField ts) ts ++ (m.chunkPayload chunkSize off ++ rest)) =
      some (⟨sentTsField ts, m.payload.length, m.type, m.extra, 0⟩,
        putExtendedTs (sentTsField ts) ts ++ (m.chunkPayload chunkSize off ++ rest)) := by
    simp [readMessageHeader, hparked.tsField, hparked.size, hparked.type, hparked.extra]
  have hvalue := readTsValue_putExtendedTs ts (m.chunkPayload chunkSize off ++ rest)
  rw [readOneChunk_eq (hchannel _) (by rw [hmode]; exact hheader) hvalue
    (Or.inr hparked.size.symm)]
  obtain ⟨hp, hprev⟩ := startChunk_continue hparked _ _ p
  exact readChunkData_outcome hp hoff hprev chunkSize rest prevPkt

end FFmpeg.Libavformat.Rtmp
