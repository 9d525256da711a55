import FFmpeg.Libavformat.NutFrameCode

/-!
# The main header of a NUT file

`write_mainheader` of `libavformat/nutenc.c` and `decode_main_header` of `nutdec.c`.  The
table of frame codes is written in runs; a field that is not written is as in the run
before, or has a default.
-/

namespace FFmpeg.Libavformat.NutHeader

open Common Libavutil Crc Nut NutFrameCode

/-- What a `NUTContext` has of the main header; `header` is given from the first header on. -/
structure NUTContext where
  version : Nat
  minorVersion : Nat
  nbStreams : Nat
  maxDistance : Nat
  timeBase : List AVRational
  frameCode : List FrameCode
  header : List Bytes
  flags : Int
  deriving DecidableEq, Repr

/-- What is kept from the run before, `tmp_pts`, `tmp_mul`, `tmp_stream` and `tmp_head_idx`. -/
structure Tmp where
  pts : Int
  mul : Int
  stream : Int
  headIdx : Int
  deriving DecidableEq, Repr

/-- Before the first run. -/
def Tmp.start : Tmp := ⟨0, 1, 0, 0⟩

/-! ## Writing -/

/-- Whether a code is like the first one of the run, `j` codes behind it. -/
def continues (first fc : FrameCode) (j : Nat) : Bool :=
  fc.ptsDelta = first.ptsDelta ∧ fc.flags = first.flags ∧ fc.streamId = first.streamId ∧
    fc.sizeMul = first.sizeMul ∧ fc.sizeLsb = first.sizeLsb + j ∧ fc.headerIdx = first.headerIdx

/-- The loop that looks for the end of a run: `i` and `j` behind it. -/
def runLoop (codes : List FrameCode) (first : FrameCode) : Nat → Nat → Nat → Nat × Nat
  | 0, i, j => (i, j)
  | rounds + 1, i, j =>
    if i < 256 then
      if i = codeN then runLoop codes first rounds (i + 1) j
      else if continues first (codeAt codes i) j then runLoop codes first rounds (i + 1) (j + 1)
      else (i, j)
    else (i, j)

/-- `tmp_fields`: how many fields of a run of `j` codes have to be written. -/
def runFields (tmp : Tmp) (fc : FrameCode) (j : Nat) : Nat :=
  if (j : Int) ≠ fc.sizeMul - fc.sizeLsb then 6
  else if tmp.headIdx ≠ fc.headerIdx then 8
  else if (0 : Int) ≠ fc.sizeLsb then 4
  else if tmp.stream ≠ fc.streamId then 3
  else if tmp.mul ≠ fc.sizeMul then 2
  else if tmp.pts ≠ fc.ptsDelta then 1
  else 0

/-- The fields of a run. -/
def putRun (fc : FrameCode) (fields j : Nat) : Bytes :=
  putV fc.flags ++ putV fields ++ (if fields > 0 then putS fc.ptsDelta else []) ++
    (if fields > 1 then putV fc.sizeMul else []) ++
    (if fields > 2 then putV fc.streamId else []) ++
    (if fields > 3 then putV fc.sizeLsb else []) ++
    (if fields > 4 then putV 0 else []) ++
    (if fields > 5 then putV j else []) ++
    (if fields > 6 then putV (toUnsigned 64 (1 - 2 ^ 62)) else []) ++
    (if fields > 7 then putV fc.headerIdx else [])

/-- What is kept of a run. -/
def Tmp.next (fc : FrameCode) : Tmp := ⟨fc.ptsDelta, fc.sizeMul, fc.streamId, fc.headerIdx⟩

/-- The loop over the runs. -/
def writeFrameCodes (codes : List FrameCode) : Nat → Nat → Tmp → Bytes
  | 0, _, _ => []
  | rounds + 1, i, tmp =>
    if i < 256 then
      let fc := codeAt codes i
      let run := runLoop codes fc 256 i 0
      putRun fc (runFields tmp fc run.2) run.2 ++ writeFrameCodes codes rounds run.1 (Tmp.next fc)
    else []

/-- `write_mainheader`. -/
def writeMainheader (nut : NUTContext) : Bytes :=
  putV nut.version ++ (if nut.version > 3 then putV 1 else []) ++ putV nut.nbStreams ++
    putV nut.maxDistance ++ putV nut.timeBase.length ++
    (nut.timeBase.flatMap fun tb => putV (toUnsigned 64 tb.num) ++ putV (toUnsigned 64 tb.den)) ++
    writeFrameCodes nut.frameCode 257 0 Tmp.start ++ putV nut.header.length ++
    (nut.header.flatMap fun header => putV header.length ++ header) ++
    (if nut.version > 3 then putV (toUnsigned 64 nut.flags) else [])

/-! ## Reading -/

/-- The loop over the time bases: whether they are valid. -/
def readTimeBases : Nat → AVIOContext → Bool × List AVRational × AVIOContext
  | 0, bc => (true, [], bc)
  | n + 1, bc =>
    let num := ffioReadVarlen bc
    if ¬ (num.1 > 0 ∧ num.1 < 2 ^ 31) then (false, [], num.2)
    else
      let den := ffioReadVarlen num.2
      if ¬ (den.1 > 0 ∧ den.1 < 2 ^ 31) then (false, [], den.2)
      else if Nat.gcd num.1 den.1 ≠ 1 then (false, [], den.2)
      else
        let rest := readTimeBases n den.2
        (rest.1, ⟨num.1, den.1⟩ :: rest.2.1, rest.2.2)

/-- The loop over the fields behind the eighth: whether they are there. -/
def skipFields : Nat → AVIOContext → Bool × AVIOContext
  | 0, bc => (true, bc)
  | n + 1, bc => if bc.eofReached then (false, bc) else skipFields n (ffioReadVarlen bc).2

/-- The code `j` codes behind the first one of a run. -/
def runCode (tmp : Tmp) (flags size res : Int) (j : Nat) : FrameCode where
  flags := toUnsigned 16 flags
  streamId := toUnsigned 8 tmp.stream
  sizeMul := toUnsigned 16 tmp.mul
  sizeLsb := toUnsigned 16 (size + j)
  ptsDelta := toSigned 16 tmp.pts
  reservedCount := toUnsigned 8 res
  headerIdx := toUnsigned 8 tmp.headIdx

/-- The loop that fills the codes of a run, of which so many are left; it passes over `'N'`. -/
def fillRun (code : Nat → FrameCode) (j : Nat) : Nat → Nat → List FrameCode → Nat × List FrameCode
  | 0, i, codes => (i, codes)
  | left + 1, i, codes =>
    let codes :=
      if i = codeN then codes.modify codeN fun ft => { ft with flags := flagInvalid } else codes
    let i := if i = codeN then i + 1 else i
    fillRun code (j + 1) left (i + 1) (codes.set i (code j))

/-- What is read of a run. -/
structure RunHeader where
  flags : Int
  fields : Int
  tmp : Tmp
  size : Int
  res : Int
  count : Int
  deriving DecidableEq, Repr

/-- A field that is read or has a default. -/
def readField (coded : Bool) (default : Int) (bc : AVIOContext) : Int × AVIOContext :=
  if coded then (toSigned 32 (ffioReadVarlen bc).1, (ffioReadVarlen bc).2) else (default, bc)

/-- The same for a signed field. -/
def readSigned (coded : Bool) (default : Int) (bc : AVIOContext) : Int × AVIOContext :=
  if coded then (toSigned 32 (getS bc).1, (getS bc).2) else (default, bc)

/-- The fields of a run; `tmp_match` is not used. -/
def readRun (tmp : Tmp) (bc : AVIOContext) : RunHeader × AVIOContext :=
  let flags := readField true 0 bc
  let fields := readField true 0 flags.2
  let pts := readSigned (fields.1 > 0) tmp.pts fields.2
  let mul := readField (fields.1 > 1) tmp.mul pts.2
  let stream := readField (fields.1 > 2) tmp.stream mul.2
  let size := readField (fields.1 > 3) 0 stream.2
  let res := readField (fields.1 > 4) 0 size.2
  let count := readField (fields.1 > 5) (toSigned 32 (mul.1 - size.1)) res.2
  let tmpMatch := readSigned (fields.1 > 6) 0 count.2
  let headIdx := readField (fields.1 > 7) tmp.headIdx tmpMatch.2
  (⟨flags.1, fields.1, ⟨pts.1, mul.1, stream.1, headIdx.1⟩, size.1, res.1, count.1⟩, headIdx.2)

/-- The loop over the runs: whether they are valid. -/
def readFrameCodes (streamCount : Nat) :
    Nat → Nat → Tmp → List FrameCode → AVIOContext → Bool × List FrameCode × AVIOContext
  | 0, _, _, codes, bc => (false, codes, bc)
  | rounds + 1, i, tmp, codes, bc =>
    if i < 256 then
      let run := readRun tmp bc
      let skipped := skipFields (run.1.fields - 8).toNat run.2
      if ¬ skipped.1 then (false, codes, skipped.2)
      else if run.1.count ≤ 0 ∨ run.1.count > 256 - (if i ≤ codeN then 1 else 0) - i then
        (false, codes, skipped.2)
      else if toUnsigned 32 run.1.tmp.stream ≥ streamCount then (false, codes, skipped.2)
      else
        let code := runCode run.1.tmp run.1.flags run.1.size run.1.res
        let filled := fillRun code 0 run.1.count.toNat i codes
        readFrameCodes streamCount rounds filled.1 run.1.tmp filled.2 skipped.2
    else (true, codes, bc)

/-- The loop over the elision headers, of which so many are left; `rem` is what they may
take: whether they are valid. -/
def readHeaders : Nat → Int → AVIOContext → Bool × List Bytes × AVIOContext
  | 0, _, bc => (true, [], bc)
  | n + 1, rem, bc =>
    let len := ffioReadVarlen bc
    if ¬ (len.1 > 0 ∧ len.1 < 256) then (false, [], len.2)
    else if rem < len.1 then (false, [], len.2)
    else
      let hdr := avioRead len.2 len.1
      let rest := readHeaders n (rem - len.1) hdr.2
      (rest.1, hdr.1 :: rest.2.1, rest.2.2)

/-- The end of `decode_main_header`: the flags, and the checksum. -/
def decodeEnd (endPos : Int) (nut : NUTContext) (bc : AVIOContext) :
    Option (Except AVERROR NUTContext × AVIOContext) := do
  let coded : Bool := nut.version > 3 ∧ endPos > bc.pos + 4
  let flags := if coded then toSigned 32 (ffioReadVarlen bc).1 else nut.flags
  let bc := if coded then (ffioReadVarlen bc).2 else bc
  let skipped := skipReserved bc endPos
  if ¬ skipped.1 then some (.error .invalidData, skipped.2)
  else do
    let checksum ← ffioGetChecksum skipped.2
    if checksum.1 ≠ 0 then some (.error .invalidData, checksum.2)
    else some (.ok { nut with flags := flags }, checksum.2)

/-- `decode_main_header` behind the frame codes. -/
def decodeHeaders (endPos : Int) (nut : NUTContext) (bc : AVIOContext) :
    Option (Except AVERROR NUTContext × AVIOContext) :=
  if endPos > bc.pos + 4 then
    let count := ffioReadVarlen bc
    if ¬ count.1 < 128 then some (.error .invalidData, count.2)
    else
      let headers := readHeaders count.1 1024 count.2
      if ¬ headers.1 then some (.error .invalidData, headers.2.2)
      else decodeEnd endPos { nut with header := headers.2.1 } headers.2.2
  else decodeEnd endPos nut bc

/-- `decode_main_header` behind the number of time bases. -/
def decodeCodes (endPos : Int) (timeBaseCount : Nat) (nut : NUTContext) (bc : AVIOContext) :
    Option (Except AVERROR NUTContext × AVIOContext) :=
  let timeBase := readTimeBases timeBaseCount bc
  if ¬ timeBase.1 then some (.error .invalidData, timeBase.2.2)
  else
    let codes := readFrameCodes nut.nbStreams 257 0 Tmp.start nut.frameCode timeBase.2.2
    if ¬ codes.1 then some (.error .invalidData, codes.2.2)
    else if (codeAt codes.2.1 codeN).flags ≠ flagInvalid then none
    else
      decodeHeaders endPos { nut with timeBase := timeBase.2.1, frameCode := codes.2.1 }
        codes.2.2

/-- `decode_main_header`, behind the start code.  Where there is an error, what has been read
is not used. -/
def decodeMainHeader (memory : Bool) (nut : NUTContext) (bc : AVIOContext) :
    Option (Except AVERROR NUTContext × AVIOContext) := do
  let header ← getPacketheader bc true mainStartcode
  let length := toUnsigned 64 header.1
  let endPos := header.1 + header.2.pos
  let version := ffioReadVarlen header.2
  if toSigned 32 version.1 < 2 ∨ toSigned 32 version.1 > 4 then some (.error .enosys, version.2)
  else
    let more : Bool := toSigned 32 version.1 > 3
    let minorVersion := if more then (ffioReadVarlen version.2).1 else nut.minorVersion
    let streamCount := ffioReadVarlen (if more then (ffioReadVarlen version.2).2 else version.2)
    if ¬ (streamCount.1 > 0 ∧ streamCount.1 ≤ 256) then some (.error .invalidData, streamCount.2)
    else
      let maxDistance := ffioReadVarlen streamCount.2
      let count := ffioReadVarlen maxDistance.2
      if ¬ (count.1 > 0 ∧ count.1 < 268435455 ∧ count.1 < length / 2) then
        some (.error .invalidData, count.2)
      else if ¬ memory then some (.error .enomem, count.2)
      else
        let nut := { nut with
          version := (toSigned 32 version.1).toNat
          minorVersion := minorVersion
          nbStreams := streamCount.1
          maxDistance := min (toUnsigned 32 maxDistance.1) 65536 }
        decodeCodes endPos count.1 nut count.2

end FFmpeg.Libavformat.NutHeader
