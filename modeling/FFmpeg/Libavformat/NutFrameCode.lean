import FFmpeg.Libavformat.Nut

/-!
# The frame codes of a NUT muxer

`build_frame_code` of `libavformat/nutenc.c`, which shares 256 codes out between the
streams.  The table is a list of 256 entries; a write outside of it has no result.
-/

namespace FFmpeg.Libavformat.NutFrameCode

open Common Libavutil Crc Nut

/-! ## The table of the muxer -/

def flagKey : Nat := 1
def flagCodedPts : Nat := 8
def flagStreamId : Nat := 16
def flagSizeMsb : Nat := 32
def flagCoded : Nat := 4096
def flagInvalid : Nat := 8192

/-- The `codec_id`s that are told apart. -/
inductive CodecId
  | mpeg4
  | mpeg1video
  | mpeg2video
  | h264
  | mp3
  | mp2
  | vorbis
  | other
  deriving DecidableEq, Repr

/-- What `build_frame_code` needs of a stream: of its `AVCodecParameters`, the result of
`av_get_audio_frame_duration2` for it, and for a video stream the duration of a frame in
the time base, `av_div_q(av_inv_q(avg_frame_rate), time_base)`. -/
structure MuxStream where
  isAudio : Bool
  codecId : CodecId
  sampleRate : Int
  bitRate : Int
  blockAlign : Int
  videoDelay : Int
  audioFrameDuration : Int
  frameDuration : AVRational
  deriving DecidableEq, Repr

/-- `avpriv_mpa_bitrate_tab`, for the layers 2 and 3. -/
def mpaBitrateTab (lsf layer3 : Bool) : List Int :=
  if lsf then [0, 8, 16, 24, 32, 40, 48, 56, 64, 80, 96, 112, 128, 144, 160]
  else if layer3 then [0, 32, 40, 48, 56, 64, 80, 96, 112, 128, 160, 192, 224, 256, 320]
  else [0, 32, 48, 56, 64, 80, 96, 112, 128, 160, 192, 224, 256, 320, 384]

/-- `avpriv_mpa_freq_tab`. -/
def mpaFreqTab : List Int := [44100, 48000, 32000]

/-- The `bitrate_index` whose frames have this size, or 30. -/
def mpaBitrateIndex (sampleRate : Int) (layer3 : Bool) (size : Int) : Nat :=
  let lsf : Bool := sampleRate < (24000 + 32000) / 2
  let mpeg25 : Bool := sampleRate < (12000 + 16000) / 2
  let shift := lsf.toNat + mpeg25.toNat
  let rate := sampleRate * 2 ^ shift
  let sampleRateIndex :=
    if rate < (32000 + 44100) / 2 then 2 else if rate < (44100 + 48000) / 2 then 0 else 1
  let rate := mpaFreqTab.getD sampleRateIndex 0 / 2 ^ shift
  let frameSize (bitrateIndex : Nat) : Int :=
    (mpaBitrateTab lsf layer3).getD (bitrateIndex / 2) 0 * 144000 / (rate * 2 ^ lsf.toNat) +
      (bitrateIndex % 2 : Nat)
  ((List.range' 2 28).find? fun bitrateIndex => frameSize bitrateIndex = size).getD 30

/-- `find_expected_header`: the bytes a frame is expected to start with; nothing stands for
the length -1. -/
def findExpectedHeader (p : MuxStream) (size : Int) (keyFrame : Bool) : Option Bytes :=
  if 4096 < size then some []
  else
    match p.codecId with
    | .mpeg4 => if keyFrame then some [0, 0, 1] else some [0, 0, 1, 0xB6]
    | .mpeg1video | .mpeg2video | .h264 => some [0, 0, 1]
    | .mp3 | .mp2 =>
      let layer3 : Bool := p.codecId = .mp3
      let lsf : Bool := p.sampleRate < (24000 + 32000) / 2
      let second := 0xF0 + (if lsf then 0 else 8) + (if layer3 then 2 else 4) + 1
      if 0 < size ∧ mpaBitrateIndex p.sampleRate layer3 size = 30 then none
      else some [0xFF, UInt8.ofNat second]
    | .vorbis | .other => some []

/-- The headers of `build_elision_headers`, from the first one on. -/
def elisionHeaders : List Bytes :=
  [[0x00, 0x00, 0x01], [0x00, 0x00, 0x01, 0xB6], [0xFF, 0xFA], [0xFF, 0xFB], [0xFF, 0xFC],
    [0xFF, 0xFD]]

/-- `find_header_idx`. -/
def findHeaderIdx (p : MuxStream) (size : Int) (keyFrame : Bool) : Nat :=
  match findExpectedHeader p size keyFrame with
  | none => 0
  | some out => ((elisionHeaders.findIdx? fun header => out = header).map (· + 1)).getD 0

/-- `frame_code[i]`. -/
def codeAt (codes : List FrameCode) (i : Nat) : FrameCode := codes.getD i FrameCode.zero

/-- A change of `frame_code[index]`. -/
def setCode (codes : List FrameCode) (index : Int) (f : FrameCode → FrameCode) :
    Option (List FrameCode) :=
  if 0 ≤ index ∧ index < 256 then some (codes.modify index.toNat f) else none

/-- `frame_size`. -/
def frameSize (p : MuxStream) : Int :=
  let size :=
    if p.isAudio then
      if p.codecId = .vorbis ∧ p.audioFrameDuration = 0 then 64 else p.audioFrameDuration
    else if p.frameDuration.den = 1 ∧ 0 < p.frameDuration.num then p.frameDuration.num else 0
  if size = 0 then 1 else size

/-- `frame_bytes`; nothing when there is a division by zero. -/
def frameBytes (p : MuxStream) : Option Int :=
  if 0 < p.blockAlign then some p.blockAlign
  else if toSigned 32 (8 * p.sampleRate) = 0 then none
  else
    some (toSigned 32 ((p.audioFrameDuration * p.bitRate).tdiv (toSigned 32 (8 * p.sampleRate))))

/-- `pred_table`. -/
def predTable (p : MuxStream) : List Int :=
  if p.videoDelay ≠ 0 then [-2, -1, 1, 3, 4]
  else if p.codecId = .vorbis then [2, 9, 16]
  else [1]

/-- The codes for frames of any size and timestamp, not for and for keyframes. -/
def anyCodes (p : MuxStream) (streamId : Nat) (keyframe0Esc : Bool) :
    List Bool → List FrameCode × Int → Option (List FrameCode × Int)
  | [], state => some state
  | keyFrame :: keyFrames, (codes, start2) =>
    if ¬ p.isAudio ∨ ¬ keyframe0Esc ∨ keyFrame then do
      let codes ← setCode codes start2 fun ft => { ft with
        flags := (if keyFrame then flagKey else 0) ||| (flagSizeMsb ||| flagCodedPts)
        streamId := streamId
        sizeMul := 1
        headerIdx := if p.isAudio then findHeaderIdx p (-1) keyFrame else ft.headerIdx }
      anyCodes p streamId keyframe0Esc keyFrames (codes, start2 + 1)
    else anyCodes p streamId keyframe0Esc keyFrames (codes, start2)

/-- The codes for audio frames of `frame_bytes` and one byte more, one for each `pts` and
`pred`. -/
def sizeCodes (p : MuxStream) (streamId : Nat) (frameBytes : Int) :
    List (Int × Int) → List FrameCode × Int → Option (List FrameCode × Int)
  | [], state => some state
  | (pts, pred) :: rest, (codes, start2) => do
    let codes ← setCode codes start2 fun ft => { ft with
      flags := flagKey
      streamId := streamId
      sizeMul := toUnsigned 16 (frameBytes + 2)
      sizeLsb := toUnsigned 16 (frameBytes + pred)
      ptsDelta := toSigned 16 (pts * frameSize p)
      headerIdx := findHeaderIdx p (frameBytes + pred) true }
    sizeCodes p streamId frameBytes rest (codes, start2 + 1)

/-- The loop over `index`, for the codes that are left from it on. -/
def lsbCodes (p : MuxStream) (streamId : Nat) (ptsDelta start3 end3 : Int) :
    Nat → List FrameCode → Option (List FrameCode)
  | 0, codes => some codes
  | left + 1, codes => do
    let index := end3 - (left + 1 : Nat)
    let codes ← setCode codes index fun ft => { ft with
      flags := (if p.isAudio then flagKey else 0) ||| flagSizeMsb
      streamId := streamId
      sizeMul := toUnsigned 16 (end3 - start3)
      sizeLsb := toUnsigned 16 (index - start3)
      ptsDelta := toSigned 16 ptsDelta
      headerIdx := if p.isAudio then findHeaderIdx p (-1) true else ft.headerIdx }
    lsbCodes p streamId ptsDelta start3 end3 left codes

/-- The loop over `pred`, from this one on. -/
def predCodes (p : MuxStream) (streamId : Nat) (start2 end2 predCount : Int) :
    List Int → Int → List FrameCode → Option (List FrameCode)
  | [], _, codes => some codes
  | value :: predTable, pred, codes => do
    let start3 := start2 + ((end2 - start2) * pred).tdiv predCount
    let end3 := start2 + ((end2 - start2) * (pred + 1)).tdiv predCount
    let codes ← lsbCodes p streamId (value * frameSize p) start3 end3 (end3 - start3).toNat codes
    predCodes p streamId start2 end2 predCount predTable (pred + 1) codes

/-- The codes for audio frames of a known size, or for video frames of a known duration. -/
def fixedCodes (p : MuxStream) (streamId : Nat) (codes : List FrameCode) (start2 : Int) :
    Option (List FrameCode × Int) :=
  if p.isAudio then do
    let bytes ← frameBytes p
    sizeCodes p streamId bytes [(0, 0), (0, 1), (1, 0), (1, 1)] (codes, start2)
  else do
    let codes ← setCode codes start2 fun ft => { ft with
      flags := flagKey ||| flagSizeMsb
      streamId := streamId
      sizeMul := 1
      ptsDelta := toSigned 16 (frameSize p) }
    some (codes, start2 + 1)

/-- The codes for one stream. -/
def streamCodes (p : MuxStream) (streamId : Nat) (keyframe0Esc : Bool) (start2 end2 : Int)
    (codes : List FrameCode) : Option (List FrameCode) := do
  let any ← anyCodes p streamId keyframe0Esc [false, true] (codes, start2)
  let fixed ← fixedCodes p streamId any.1 any.2
  predCodes p streamId fixed.2 end2 (predTable p).length (predTable p) 0 fixed.1

/-- The loop over the streams; `end` is 254. -/
def streamsCodes (nbStreams : Nat) (start : Nat) :
    List MuxStream → Nat → List FrameCode → Option (List FrameCode)
  | [], _, codes => some codes
  | p :: streams, streamId, codes => do
    let start2 := start + (254 - start) * streamId / nbStreams
    let end2 := start + (254 - start) * (streamId + 1) / nbStreams
    let codes ← streamCodes p streamId (2 < nbStreams) start2 end2 codes
    streamsCodes nbStreams start streams (streamId + 1) codes

/-- `frame_code['N']` is not used. -/
def codeN : Nat := 78

/-- The codes from `'N'` on move up by one, and three codes are invalid. -/
def reserveCodes (codes : List FrameCode) : List FrameCode :=
  let moved := codes.take (codeN + 1) ++ ((codes.drop codeN).take (255 - codeN))
  let invalid (ft : FrameCode) : FrameCode := { ft with flags := flagInvalid }
  ((moved.modify codeN invalid).modify 255 invalid).modify 0 invalid

/-- `build_frame_code`. -/
def buildFrameCode (streams : List MuxStream) : Option (List FrameCode) := do
  let codes := List.replicate 256 FrameCode.zero
  let codes := codes.modify 1 fun ft => { ft with flags := flagCoded, sizeMul := 1, ptsDelta := 1 }
  let keyframe0Esc := 2 < streams.length
  let codes :=
    if keyframe0Esc then
      codes.modify 2 fun ft => { ft with
        flags := flagStreamId ||| (flagSizeMsb ||| flagCodedPts)
        sizeMul := 1 }
    else codes
  let codes ← streamsCodes streams.length (if keyframe0Esc then 3 else 2) streams 0 codes
  some (reserveCodes codes)

end FFmpeg.Libavformat.NutFrameCode
