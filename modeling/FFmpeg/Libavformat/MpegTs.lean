import FFmpeg.Common.File
import FFmpeg.Libavutil.Crc

/-!
# Sections in transport streams

`write_section_data` and `handle_packet` of `libavformat/mpegts.c` for the section filter of one
PID, and `mpegts_write_section` of `libavformat/mpegtsenc.c`.  The clock reference, the position
and the state of the headers, which `handle_packet` also keeps, are left out.
-/

namespace FFmpeg.Libavformat.MpegTs

open Common Libavutil Crc

/-- `TS_PACKET_SIZE`. -/
def tsPacketSize : Nat := 188

/-- `MAX_SECTION_SIZE`. -/
def maxSectionSize : Nat := 4096

/-- `AV_RB16`. -/
def avRb16 (buf : Bytes) (p : Nat) : Nat := getBE [buf.getD p 0, buf.getD (p + 1) 0]

/-- `AV_RB32`. -/
def avRb32 (buf : Bytes) (p : Nat) : Nat :=
  getBE [buf.getD p 0, buf.getD (p + 1) 0, buf.getD (p + 2) 0, buf.getD (p + 3) 0]

/-! ## The demuxer -/

/-- `MpegTSSectionFilter`.  `section_h_size` is -1 as `none`, and `calls` is what `section_cb` has
been called with. -/
structure MpegTSSectionFilter where
  sectionIndex : Nat
  sectionHSize : Option Nat
  lastVer : Int
  crc : Nat
  sectionBuf : Bytes
  checkCrc : Bool
  endOfSectionReached : Bool
  calls : List Bytes
  deriving DecidableEq, Repr

/-- `MpegTSFilter`, of the type `MPEGTS_SECTION`. -/
structure MpegTSFilter where
  pid : Nat
  lastCc : Int
  discard : Bool
  sectionFilter : MpegTSSectionFilter
  deriving DecidableEq, Repr

/-- `MpegTSContext`: the filter of the PID, and the `crc_validity` of the PID. -/
structure MpegTSContext where
  tss : MpegTSFilter
  crcValidity : Int
  deriving DecidableEq, Repr

/-- `mpegts_open_section_filter`, in a context without a filter for the PID. -/
def mpegtsOpenSectionFilter (pid : Nat) (checkCrc : Bool) : MpegTSContext where
  tss :=
    { pid := pid
      lastCc := -1
      discard := false
      sectionFilter :=
        { sectionIndex := 0
          sectionHSize := some 0
          lastVer := -1
          crc := 0
          sectionBuf := List.replicate maxSectionSize 0
          checkCrc := checkCrc
          endOfSectionReached := false
          calls := [] } }
  crcValidity := 0

/-- The section filter is changed. -/
def MpegTSContext.setSection (ts : MpegTSContext) (sec : MpegTSSectionFilter) : MpegTSContext :=
  { ts with tss := { ts.tss with sectionFilter := sec } }

/-- The length of the section at `cur_section_buf`. -/
def sectionLength (buf : Bytes) (offset : Nat) : Nat := (avRb16 buf (offset + 1) &&& 0xfff) + 3

/-- A whole section at `offset`: the check, and the call if it is passed or has failed too often. -/
def callSection (ts : MpegTSContext) (offset size : Nat) : MpegTSContext :=
  let sec := ts.tss.sectionFilter
  let cur := slice sec.sectionBuf offset size
  let sec := { sec with endOfSectionReached := true, sectionHSize := none }
  if sec.checkCrc then
    let sec :=
      { sec with crc := if 4 ≤ size then avRb32 sec.sectionBuf (offset + size - 4) else sec.crc }
    if avCrc avCrc32Ieee offset (BitVec.allOnes 32) cur = 0#32 then
      { ts.setSection { sec with calls := sec.calls ++ [cur] } with crcValidity := 100 }
    else if -10 < ts.crcValidity then
      { ts.setSection sec with crcValidity := ts.crcValidity - 1 }
    else ts.setSection { sec with calls := sec.calls ++ [cur], lastVer := -1 }
  else ts.setSection { sec with calls := sec.calls ++ [cur] }

/-- The loop of `write_section_data`. -/
def scanSections : Nat → MpegTSContext → Nat → MpegTSContext
  | 0, ts, _ => ts
  | rounds + 1, ts, offset =>
    let sec := ts.tss.sectionFilter
    if offset < maxSectionSize ∧ sec.sectionBuf.getD offset 0 ≠ 0xff then
      let known := sec.sectionHSize = none ∧ offset + 3 ≤ sec.sectionIndex
      let len := sectionLength sec.sectionBuf offset
      if known ∧ maxSectionSize < len then ts
      else
        match if known then some len else sec.sectionHSize with
        | some size =>
          if offset + size ≤ sec.sectionIndex then
            scanSections rounds (callSection ts offset size) (offset + size)
          else ts.setSection { sec with sectionHSize := none, endOfSectionReached := false }
        | none => ts.setSection { sec with sectionHSize := none, endOfSectionReached := false }
    else ts

/-- `write_section_data`. -/
def writeSectionData (ts : MpegTSContext) (buf : Bytes) (isStart : Bool) : MpegTSContext :=
  let sec := ts.tss.sectionFilter
  if isStart then
    scanSections (maxSectionSize + 1)
      (ts.setSection { sec with
        sectionBuf := overwrite sec.sectionBuf 0 buf
        sectionIndex := buf.length
        sectionHSize := none
        endOfSectionReached := false }) 0
  else if sec.endOfSectionReached then ts
  else
    let len := min buf.length (maxSectionSize - sec.sectionIndex)
    scanSections (maxSectionSize + 1)
      (ts.setSection { sec with
        sectionBuf := overwrite sec.sectionBuf sec.sectionIndex (buf.take len)
        sectionIndex := sec.sectionIndex + len }) 0

/-- The payload of a packet for a section filter: a pointer field stands before it where a section
starts. -/
def handlePayload (ts : MpegTSContext) (payload : Bytes) (isStart ccOk : Bool) : MpegTSContext :=
  if isStart then
    let len := (payload.getD 0 0).toNat
    let rest := payload.drop 1
    if rest.length < len then ts
    else
      let ts := if len ≠ 0 ∧ ccOk then writeSectionData ts (rest.take len) false else ts
      if len < rest.length then writeSectionData ts (rest.drop len) true else ts
  else if ccOk then writeSectionData ts payload false
  else ts

/-- `handle_packet`, with what `discard_pid` returns. -/
def handlePacket (ts : MpegTSContext) (packet : Bytes) (discardPid : Bool) : MpegTSContext :=
  let pid := avRb16 packet 1 &&& 0x1fff
  let isStart : Bool := packet.getD 1 0 &&& 0x40 ≠ 0
  if pid ≠ ts.tss.pid then ts
  else
    let ts := if isStart then { ts with tss := { ts.tss with discard := discardPid } } else ts
    if ts.tss.discard then ts
    else
      let afc := (packet.getD 3 0 >>> 4) &&& 3
      if afc = 0 then ts
      else
        let hasAdaptation : Bool := afc &&& 2 ≠ 0
        let hasPayload : Bool := afc &&& 1 ≠ 0
        let isDiscontinuity : Bool :=
          hasAdaptation ∧ packet.getD 4 0 ≠ 0 ∧ packet.getD 5 0 &&& 0x80 ≠ 0
        let cc : Int := (packet.getD 3 0 &&& 0xf).toNat
        let expectedCc := if hasPayload then (ts.tss.lastCc + 1) % 16 else ts.tss.lastCc
        let ccOk : Bool :=
          pid = 0x1fff ∨ isDiscontinuity ∨ ts.tss.lastCc < 0 ∨ expectedCc = cc
        let ts := { ts with tss := { ts.tss with lastCc := cc } }
        let p := if hasAdaptation then 4 + ((packet.getD 4 0).toNat + 1) else 4
        if tsPacketSize ≤ p ∨ ¬ hasPayload then ts
        else handlePayload ts (slice packet p (tsPacketSize - p)) isStart ccOk

/-! ## The muxer -/

/-- `MpegTSSection`, with the packets that `write_packet` has got. -/
structure MpegTSSection where
  pid : Nat
  cc : Nat
  discontinuity : Bool
  packets : List Bytes
  deriving DecidableEq, Repr

/-- The bytes of a packet in front of the section. -/
def packetHeader (s : MpegTSSection) (cc : Nat) (first : Bool) : Bytes :=
  ([0x47, UInt8.ofNat (s.pid >>> 8) ||| (if first then 0x40 else 0), UInt8.ofNat s.pid,
    (0x10 ||| UInt8.ofNat cc) ||| (if s.discontinuity then 0x20 else 0)] : Bytes) ++
    (if s.discontinuity then [1, 0x80] else []) ++ (if first then [0] else [])

/-- The loop of `mpegts_write_section`. -/
def writeSectionLoop : Nat → MpegTSSection → Bool → Bytes → MpegTSSection
  | 0, s, _, _ => s
  | rounds + 1, s, first, buf =>
    if 0 < buf.length then
      let cc := (s.cc + 1) &&& 0xf
      let q := packetHeader s cc first
      let len1 := min (tsPacketSize - q.length) buf.length
      let packet := q ++ buf.take len1
      let packet := packet ++ List.replicate (tsPacketSize - packet.length) 0xff
      writeSectionLoop rounds
        { s with cc := cc, discontinuity := false, packets := s.packets ++ [packet] } false
        (buf.drop len1)
    else s

/-- The section with its check, as `mpegts_write_section` leaves it in `buf`, which lies at
`address`. -/
def withCrc (address : Nat) (buf : Bytes) : Bytes :=
  let crc := avBswap32 (avCrc avCrc32Ieee address (BitVec.allOnes 32) (buf.take (buf.length - 4)))
  overwrite buf (buf.length - 4) (putBE 4 crc.toNat)

/-- `mpegts_write_section`. -/
def mpegtsWriteSection (s : MpegTSSection) (address : Nat) (buf : Bytes) : MpegTSSection :=
  let buf := withCrc address buf
  writeSectionLoop buf.length s true buf

end FFmpeg.Libavformat.MpegTs
