import Mathlib.Tactic
import FFmpeg.Common.Bytes
import FFmpeg.Common.File
import FFmpeg.Common.Overwrite
import FFmpeg.Libavutil.Error

/-!
# Secure RTP

Encryption and decryption of packets in `libavformat/srtp.c`.  The AES block
function and HMAC-SHA1 are parameters.  A buffer that is changed in place is
returned; the buffer of a call that fails is of no use and left out.
-/

namespace FFmpeg.Libavformat.Srtp

open Common Libavutil

/-- AES-128 on one block and HMAC-SHA1, as functions of the key and the input. -/
structure Crypto where
  aes : Bytes → Bytes → Bytes
  hmacSha1 : Bytes → Bytes → Bytes
  length_aes : ∀ key block, (aes key block).length = 16
  length_hmacSha1 : ∀ key message, (hmacSha1 key message).length = 20

/-- The fields of `struct SRTPContext` that `ff_srtp_set_crypto` sets, apart from the
work areas of the two functions and the master key. -/
structure SRTPKeys where
  rtpHmacSize : Nat
  rtcpHmacSize : Nat
  rtpKey : Bytes
  rtcpKey : Bytes
  rtpSalt : Bytes
  rtcpSalt : Bytes
  rtpAuth : Bytes
  rtcpAuth : Bytes
  deriving DecidableEq, Repr

/-- `struct SRTPContext`.  `roc` and `rtcp_index` are 32-bit numbers. -/
structure SRTPContext extends SRTPKeys where
  seqLargest : Nat
  seqInitialized : Bool
  roc : Nat
  rtcpIndex : Nat
  deriving DecidableEq, Repr

/-- A context cleared to zero. -/
def SRTPContext.zero : SRTPContext where
  rtpHmacSize := 0
  rtcpHmacSize := 0
  rtpKey := List.replicate 16 0
  rtcpKey := List.replicate 16 0
  rtpSalt := List.replicate 14 0
  rtcpSalt := List.replicate 14 0
  rtpAuth := List.replicate 20 0
  rtcpAuth := List.replicate 20 0
  seqLargest := 0
  seqInitialized := false
  roc := 0
  rtcpIndex := 0

variable (crypto : Crypto)

/-! ## The stream cipher -/

/-- `AV_RB16` and `AV_RB32`: the number stored in `width` bytes at an offset. -/
def rb (width : Nat) (buf : Bytes) (offset : Nat) : Nat :=
  getBE (slice buf offset width)

/-- `dst[i] ^= src[i]` over a stretch of bytes. -/
def xorBytes (dst src : Bytes) : Bytes :=
  List.zipWith (· ^^^ ·) dst src

/-- The key stream of `encrypt_counter` in whole blocks, the block number being in
the last two bytes of the initial value. -/
def keystream (key iv : Bytes) (blocks : Nat) : Bytes :=
  (List.range blocks).flatMap fun i => crypto.aes key (overwrite iv 14 (putBE 2 i))

/-- `encrypt_counter`, with the key its cipher was set up with. -/
def encryptCounter (key iv outbuf : Bytes) : Bytes :=
  xorBytes outbuf (keystream crypto key iv ((outbuf.length + 15) / 16))

/-- `derive_key`, under the master key. -/
def deriveKey (masterKey salt : Bytes) (label : UInt8) (outlen : Nat) : Bytes :=
  let input := salt.take 14 ++ [0, 0]
  encryptCounter crypto masterKey (overwrite input 7 [input.getD 7 0 ^^^ label])
    (List.replicate outlen 0)

/-- `create_iv`. -/
def createIv (salt : Bytes) (index ssrc : Nat) : Bytes :=
  let iv := overwrite (List.replicate 16 0) 4 (putBE 4 ssrc)
  let iv := overwrite iv 6 (xorBytes (slice iv 6 8) (putBE 8 index))
  overwrite iv 0 (xorBytes (slice iv 0 14) salt)

/-! ## Contexts -/

/-- The lengths of the RTP and the RTCP tags of the suites `ff_srtp_set_crypto`
supports. -/
def suiteHmacSizes (suite : String) : Option (Nat × Nat) :=
  if suite = "AES_CM_128_HMAC_SHA1_80" ∨ suite = "SRTP_AES128_CM_HMAC_SHA1_80" then some (10, 10)
  else if suite = "AES_CM_128_HMAC_SHA1_32" then some (4, 4)
  else if suite = "SRTP_AES128_CM_HMAC_SHA1_32" then some (4, 10)
  else none

/-- `ff_srtp_set_crypto` on the context `s`, with the decoded parameters. -/
def ffSrtpSetCrypto (s : SRTPContext) (suite : String) (params : Bytes) :
    Except AVERROR SRTPContext :=
  match suiteHmacSizes suite with
  | none => .error .einval
  | some (rtpHmacSize, rtcpHmacSize) =>
    if params.length ≠ 30 then .error .einval
    else
      let key := params.take 16
      let salt := params.drop 16
      .ok { s with
        rtpHmacSize := rtpHmacSize
        rtcpHmacSize := rtcpHmacSize
        rtpKey := deriveKey crypto key salt 0x00 16
        rtpSalt := deriveKey crypto key salt 0x02 14
        rtpAuth := deriveKey crypto key salt 0x01 20
        rtcpKey := deriveKey crypto key salt 0x03 16
        rtcpSalt := deriveKey crypto key salt 0x05 14
        rtcpAuth := deriveKey crypto key salt 0x04 20 }

/-! ## Packets -/

/-- `RTP_PT_IS_RTCP`. -/
def rtpPtIsRtcp (x : UInt8) : Bool :=
  (192 ≤ x && x ≤ 195) || (200 ≤ x && x ≤ 210)

/-- Where the payload of an RTP packet starts, after the contributing sources and
the header extension. -/
def payloadOffset (buf : Bytes) : Except AVERROR Nat :=
  let csrc := (buf.getD 0 0 &&& 0x0f).toNat
  let offset := 12 + 4 * csrc
  if buf.length < offset then .error .invalidData
  else if buf.getD 0 0 &&& 0x10 ≠ 0 then
    if buf.length < offset + 4 then .error .invalidData
    else
      let ext := (rb 2 buf (offset + 2) + 1) * 4
      if buf.length < offset + ext then .error .invalidData else .ok (offset + ext)
  else .ok offset

/-- The part the two directions share: the payload is run through the cipher. -/
def cryptRtp (k : SRTPKeys) (index : Nat) (buf : Bytes) : Except AVERROR Bytes :=
  match payloadOffset buf with
  | .error e => .error e
  | .ok offset =>
    .ok (buf.take offset ++
      encryptCounter crypto k.rtpKey (createIv k.rtpSalt index (rb 4 buf 8)) (buf.drop offset))

/-- The same for RTCP packets, whose payload starts at offset 8. -/
def cryptRtcp (k : SRTPKeys) (index : Nat) (buf : Bytes) : Bytes :=
  buf.take 8 ++
    encryptCounter crypto k.rtcpKey (createIv k.rtcpSalt index (rb 4 buf 4)) (buf.drop 8)

/-- The authentication tag of an RTP packet under a rollover counter. -/
def rtpTag (k : SRTPKeys) (body : Bytes) (roc : Nat) : Bytes :=
  (crypto.hmacSha1 k.rtpAuth (body ++ putBE 4 roc)).take k.rtpHmacSize

/-- The authentication tag of an RTCP packet. -/
def rtcpTag (k : SRTPKeys) (body : Bytes) : Bytes :=
  (crypto.hmacSha1 k.rtcpAuth body).take k.rtcpHmacSize

/-- `seq + (((uint64_t)roc) << 16)`. -/
def packetIndex (seq roc : Nat) : Nat :=
  seq + roc * 2 ^ 16

/-! ## Encryption -/

/-- `ff_srtp_encrypt` of an RTP packet. -/
def encryptRtp (s : SRTPContext) (input : Bytes) : Except AVERROR Bytes × SRTPContext :=
  if input.length < 12 then (.error .invalidData, s)
  else
    let seq := rb 2 input 2
    let roc := if seq < s.seqLargest then (s.roc + 1) % 2 ^ 32 else s.roc
    let s := { s with roc := roc, seqLargest := seq }
    match cryptRtp crypto s.toSRTPKeys (packetIndex seq roc) input with
    | .error e => (.error e, s)
    | .ok body => (.ok (body ++ rtpTag crypto s.toSRTPKeys body roc), s)

/-- `ff_srtp_encrypt` of an RTCP packet. -/
def encryptRtcp (s : SRTPContext) (input : Bytes) : Except AVERROR Bytes × SRTPContext :=
  let index := s.rtcpIndex
  let s := { s with rtcpIndex := (s.rtcpIndex + 1) % 2 ^ 32 }
  let body := cryptRtcp crypto s.toSRTPKeys index input ++ putBE 4 (0x80000000 ||| index)
  (.ok (body ++ rtcpTag crypto s.toSRTPKeys body), s)

/-- `ff_srtp_encrypt`: the packet written to `out`, which is none when `outlen` is too
small. -/
def ffSrtpEncrypt (s : SRTPContext) (input : Bytes) (outlen : Nat) :
    Except AVERROR Bytes × SRTPContext :=
  if input.length < 8 then (.error .invalidData, s)
  else
    let rtcp := rtpPtIsRtcp (input.getD 1 0)
    let hmacSize := if rtcp then s.rtcpHmacSize else s.rtpHmacSize
    let padding := if rtcp then hmacSize + 4 else hmacSize
    if outlen < input.length + padding then (.ok [], s)
    else if rtcp then encryptRtcp crypto s input
    else encryptRtp crypto s input

/-! ## Decryption -/

/-- What the sequence number of a packet says about the rollover counter. -/
structure Estimate where
  /-- the rollover counter the packet was sent under -/
  v : Nat
  /-- the rollover counter after the packet -/
  roc : Nat
  /-- the largest sequence number after the packet -/
  seqLargest : Nat
  deriving DecidableEq, Repr

/-- The estimation in `ff_srtp_decrypt`. -/
def estimate (s : SRTPContext) (seq : Nat) : Estimate :=
  let seqLargest := if s.seqInitialized then s.seqLargest else seq
  let roc := s.roc
  let v :=
    if seqLargest < 32768 then
      if 32768 + seqLargest < seq then (roc + 2 ^ 32 - 1) % 2 ^ 32 else roc
    else
      if seq + 32768 < seqLargest then (roc + 1) % 2 ^ 32 else roc
  if v = roc then ⟨v, roc, max seqLargest seq⟩
  else if v = (roc + 1) % 2 ^ 32 then ⟨v, v, seq⟩
  else ⟨v, roc, seqLargest⟩

/-- `ff_srtp_decrypt` of an RTP packet.  The tag is checked under the rollover counter
after the packet, the payload is decrypted under that of the packet. -/
def decryptRtp (s : SRTPContext) (buf : Bytes) : Except AVERROR Bytes × SRTPContext :=
  let len := buf.length - s.rtpHmacSize
  let body := buf.take len
  let seq := rb 2 buf 2
  let e := estimate s seq
  if rtpTag crypto s.toSRTPKeys body e.roc ≠ buf.drop len then (.error .invalidData, s)
  else if len < 12 then (.error .invalidData, s)
  else
    (cryptRtp crypto s.toSRTPKeys (packetIndex seq e.v) body,
      { s with seqInitialized := true, seqLargest := e.seqLargest, roc := e.roc })

/-- `ff_srtp_decrypt` of an RTCP packet. -/
def decryptRtcp (s : SRTPContext) (buf : Bytes) : Except AVERROR Bytes :=
  let len := buf.length - s.rtcpHmacSize
  let body := buf.take len
  if rtcpTag crypto s.toSRTPKeys body ≠ buf.drop len then .error .invalidData
  else if len < 12 then .error .invalidData
  else
    let srtcpIndex := rb 4 body (len - 4)
    let packet := body.take (len - 4)
    if srtcpIndex &&& 0x80000000 = 0 then .ok packet
    else .ok (cryptRtcp crypto s.toSRTPKeys (srtcpIndex &&& 0x7fffffff) packet)

/-- `ff_srtp_decrypt`: the decrypted packet. -/
def ffSrtpDecrypt (s : SRTPContext) (buf : Bytes) : Except AVERROR Bytes × SRTPContext :=
  if buf.length < 2 then (.error .invalidData, s)
  else
    let rtcp := rtpPtIsRtcp (buf.getD 1 0)
    let hmacSize := if rtcp then s.rtcpHmacSize else s.rtpHmacSize
    if buf.length < hmacSize then (.error .invalidData, s)
    else if rtcp then (decryptRtcp crypto s buf, s)
    else decryptRtp crypto s buf

/-! ## Runs -/

/-- A sender protects a run of packets; one that cannot be protected is empty. -/
def protectAll (outlen : Nat) (s : SRTPContext) : List Bytes → List Bytes
  | [] => []
  | pkt :: pkts =>
    let (out, s) := ffSrtpEncrypt crypto s pkt outlen
    out.toOption.getD [] :: protectAll outlen s pkts

/-- What a receiver gets out of a run of protected packets. -/
def unprotectAll (s : SRTPContext) : List Bytes → List (Except AVERROR Bytes)
  | [] => []
  | buf :: bufs =>
    let (out, s) := ffSrtpDecrypt crypto s buf
    out :: unprotectAll s bufs

end FFmpeg.Libavformat.Srtp
