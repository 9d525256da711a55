import FFmpeg.Libavutil.Fifo

/-!
# Audio fifos

`AVAudioFifo` of `libavutil/audio_fifo.c`: one fifo for each plane of samples, and one count
of the samples in them.  The formats and the buffer size are from `libavutil/samplefmt.c`.  A
function has no result when a loop of the source would not end, or would copy from a plane
that is not there or too short.
-/

namespace FFmpeg.Libavutil.AudioFifo

open Common

/-! ## Sample formats -/

/-- `enum AVSampleFormat`; `none` also stands for the values that are no format. -/
inductive AVSampleFormat
  | none
  | u8
  | s16
  | s32
  | flt
  | dbl
  | u8p
  | s16p
  | s32p
  | fltp
  | dblp
  | s64
  | s64p
  deriving DecidableEq, Repr

/-- The `bits` and `planar` of `sample_fmt_info`. -/
def AVSampleFormat.info : AVSampleFormat → Nat × Bool
  | .none => (0, false)
  | .u8 => (8, false)
  | .s16 => (16, false)
  | .s32 => (32, false)
  | .flt => (32, false)
  | .dbl => (64, false)
  | .u8p => (8, true)
  | .s16p => (16, true)
  | .s32p => (32, true)
  | .fltp => (32, true)
  | .dblp => (64, true)
  | .s64 => (64, false)
  | .s64p => (64, true)

/-- `av_get_bytes_per_sample`. -/
def avGetBytesPerSample (sampleFmt : AVSampleFormat) : Int :=
  (sampleFmt.info.1 >>> 3 : Nat)

/-- `av_sample_fmt_is_planar`. -/
def avSampleFmtIsPlanar (sampleFmt : AVSampleFormat) : Bool :=
  sampleFmt.info.2

/-- `av_samples_get_buffer_size` with an `align` of 1, which leaves sizes as they are.  The
result is the line size. -/
def avSamplesGetBufferSize (nbChannels nbSamples : Int) (sampleFmt : AVSampleFormat) :
    Except AVERROR Int :=
  let sampleSize := avGetBytesPerSample sampleFmt
  if sampleSize = 0 ∨ nbSamples ≤ 0 ∨ nbChannels ≤ 0 then .error .einval
  else if (2 ^ 31 - 1 - nbChannels) / sampleSize < nbChannels * nbSamples then .error .einval
  else if avSampleFmtIsPlanar sampleFmt then .ok (nbSamples * sampleSize)
  else .ok (nbSamples * sampleSize * nbChannels)

/-! ## The fifo -/

/-- `AVAudioFifo`; `nb_buffers` is the length of `buf`. -/
structure AVAudioFifo where
  buf : List AVFifoBuffer
  nbSamples : Int
  allocatedSamples : Int
  channels : Int
  sampleFmt : AVSampleFormat
  sampleSize : Int
  deriving DecidableEq, Repr

/-- What the allocators give a call: whether there is memory for the `AVAudioFifo` and its
list of buffers, and what there is for the fifo of each plane. -/
structure Memory where
  structs : Bool
  planes : Nat → Malloc

/-- `AVERROR_BUG`. -/
def averrorBug : Int := -0x21475542

/-- What a call gives: its result, and what it copies to each of the planes passed in. -/
structure Output where
  ret : Int
  data : List Bytes
  deriving DecidableEq, Repr

/-- Nothing is copied. -/
def Output.code (ret : Int) : Output := ⟨ret, []⟩

/-- `av_audio_fifo_alloc`. -/
def avAudioFifoAlloc (memory : Memory) (sampleFmt : AVSampleFormat) (channels nbSamples : Int) :
    Option AVAudioFifo :=
  match avSamplesGetBufferSize channels nbSamples sampleFmt with
  | .error _ => none
  | .ok bufSize =>
    if memory.structs then
      let nbBuffers := if avSampleFmtIsPlanar sampleFmt then channels.toNat else 1
      ((List.range nbBuffers).mapM fun i =>
          avFifoAlloc (memory.planes i) bufSize.toNat).map fun buf =>
        { buf := buf
          nbSamples := 0
          allocatedSamples := nbSamples
          channels := channels
          sampleFmt := sampleFmt
          sampleSize := bufSize / nbSamples }
    else none

/-- The loop of `av_audio_fifo_realloc`, from plane `i` on. -/
def reallocPlanes (memory : Memory) (bufSize : Nat) :
    Nat → List AVFifoBuffer → Option (Int × List AVFifoBuffer)
  | _, [] => some (0, [])
  | i, f :: buf =>
    (avFifoRealloc2 (memory.planes i) f bufSize).bind fun r =>
      if r.1 < 0 then some (r.1, r.2 :: buf)
      else (reallocPlanes memory bufSize (i + 1) buf).map fun rest => (rest.1, r.2 :: rest.2)

/-- `av_audio_fifo_realloc`. -/
def avAudioFifoRealloc (memory : Memory) (af : AVAudioFifo) (nbSamples : Int) :
    Option (Int × AVAudioFifo) :=
  match avSamplesGetBufferSize af.channels nbSamples af.sampleFmt with
  | .error e => some (e.toInt, af)
  | .ok bufSize =>
    (reallocPlanes memory bufSize.toNat 0 af.buf).map fun r =>
      if r.1 < 0 then (r.1, { af with buf := r.2 })
      else (0, { af with buf := r.2, allocatedSamples := nbSamples })

/-- `av_audio_fifo_size`. -/
def avAudioFifoSize (af : AVAudioFifo) : Int :=
  af.nbSamples

/-- `av_audio_fifo_space`. -/
def avAudioFifoSpace (af : AVAudioFifo) : Int :=
  af.allocatedSamples - af.nbSamples

/-- The loop of `av_audio_fifo_write`: the result is 0 unless a fifo takes too little. -/
def writePlanes (size : Int) : List AVFifoBuffer → List Bytes → Option (Int × List AVFifoBuffer)
  | [], _ => some (0, [])
  | _ :: _, [] => none
  | f :: buf, src :: data =>
    if size < 0 ∨ src.length < size then none
    else
      (avFifoGenericWrite f (src.take size.toNat)).bind fun r =>
        if r.1 ≠ size then some (averrorBug, r.2 :: buf)
        else (writePlanes size buf data).map fun rest => (rest.1, r.2 :: rest.2)

/-- The reallocation with which `av_audio_fifo_write` begins; the result is 0 where it goes
on. -/
def makeSpace (memory : Memory) (af : AVAudioFifo) (nbSamples : Int) : Option (Int × AVAudioFifo) :=
  if avAudioFifoSpace af < nbSamples then
    let currentSize := avAudioFifoSize af
    if (2 ^ 31 - 1) / 2 - currentSize < nbSamples then some (AVERROR.einval.toInt, af)
    else avAudioFifoRealloc memory af (2 * (currentSize + nbSamples))
  else some (0, af)

/-- `av_audio_fifo_write`. -/
def avAudioFifoWrite (memory : Memory) (af : AVAudioFifo) (data : List Bytes)
    (nbSamples : Int) : Option (Output × AVAudioFifo) :=
  (makeSpace memory af nbSamples).bind fun r =>
    if r.1 < 0 then some (.code r.1, r.2)
    else
      (writePlanes (nbSamples * r.2.sampleSize) r.2.buf data).map fun w =>
        if w.1 < 0 then (.code w.1, { r.2 with buf := w.2 })
        else (.code nbSamples, { r.2 with buf := w.2, nbSamples := r.2.nbSamples + nbSamples })

/-- `av_audio_fifo_peek`. -/
def avAudioFifoPeek (af : AVAudioFifo) (nbSamples : Int) : Option (Output × AVAudioFifo) :=
  if nbSamples < 0 then some (.code AVERROR.einval.toInt, af)
  else
    let nbSamples := min nbSamples af.nbSamples
    if nbSamples = 0 then some (.code 0, af)
    else
      let size := nbSamples * af.sampleSize
      (af.buf.mapM fun f => avFifoGenericPeek f size.toNat).map fun data => (⟨nbSamples, data⟩, af)

/-- `av_audio_fifo_peek_at`. -/
def avAudioFifoPeekAt (af : AVAudioFifo) (nbSamples offset : Int) : Option (Output × AVAudioFifo) :=
  if offset < 0 ∨ af.nbSamples ≤ offset then some (.code AVERROR.einval.toInt, af)
  else if nbSamples < 0 then some (.code AVERROR.einval.toInt, af)
  else
    let nbSamples := min nbSamples af.nbSamples
    if nbSamples = 0 then some (.code 0, af)
    else if af.nbSamples - nbSamples < offset then some (.code AVERROR.einval.toInt, af)
    else
      let offset := offset * af.sampleSize
      let size := nbSamples * af.sampleSize
      (af.buf.mapM fun f => avFifoGenericPeekAt f offset.toNat size.toNat).map fun data =>
        (⟨nbSamples, data⟩, af)

/-- `av_audio_fifo_read`. -/
def avAudioFifoRead (af : AVAudioFifo) (nbSamples : Int) : Option (Output × AVAudioFifo) :=
  if nbSamples < 0 then some (.code AVERROR.einval.toInt, af)
  else
    let nbSamples := min nbSamples af.nbSamples
    if nbSamples = 0 then some (.code 0, af)
    else
      let size := nbSamples * af.sampleSize
      (af.buf.mapM fun f => avFifoGenericRead f size.toNat).map fun r =>
        (⟨nbSamples, r.map (·.1)⟩,
          { af with buf := r.map (·.2), nbSamples := af.nbSamples - nbSamples })

/-- `av_audio_fifo_drain`. -/
def avAudioFifoDrain (af : AVAudioFifo) (nbSamples : Int) : Output × AVAudioFifo :=
  if nbSamples < 0 then (.code AVERROR.einval.toInt, af)
  else
    let nbSamples := min nbSamples af.nbSamples
    if nbSamples ≠ 0 then
      let size := nbSamples * af.sampleSize
      (.code 0, { af with
        buf := af.buf.map fun f => avFifoDrain f size.toNat
        nbSamples := af.nbSamples - nbSamples })
    else (.code 0, af)

/-- `av_audio_fifo_reset`. -/
def avAudioFifoReset (af : AVAudioFifo) : AVAudioFifo :=
  { af with buf := af.buf.map avFifoReset, nbSamples := 0 }

/-- A call. -/
inductive Call
  | write (memory : Memory) (data : List Bytes) (nbSamples : Int)
  | read (nbSamples : Int)
  | peek (nbSamples : Int)
  | peekAt (nbSamples offset : Int)
  | drain (nbSamples : Int)
  | reset
  | realloc (memory : Memory) (nbSamples : Int)

/-- One call. -/
def call (af : AVAudioFifo) : Call → Option (Output × AVAudioFifo)
  | .write memory data nbSamples => avAudioFifoWrite memory af data nbSamples
  | .read nbSamples => avAudioFifoRead af nbSamples
  | .peek nbSamples => avAudioFifoPeek af nbSamples
  | .peekAt nbSamples offset => avAudioFifoPeekAt af nbSamples offset
  | .drain nbSamples => some (avAudioFifoDrain af nbSamples)
  | .reset => some (.code 0, avAudioFifoReset af)
  | .realloc memory nbSamples =>
    (avAudioFifoRealloc memory af nbSamples).map fun r => (.code r.1, r.2)

end FFmpeg.Libavutil.AudioFifo
