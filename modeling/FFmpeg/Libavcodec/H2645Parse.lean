import FFmpeg.Common.Bytes
import FFmpeg.Libavcodec.PacketSideData

/-!
# Extracting the payload of a NAL unit

`libavcodec/h2645_parse.c`: `ff_h2645_extract_rbsp` first looks for the first pair of zero
bytes that may matter, with one of three loops that the build chooses, and then copies the
unit without the bytes that the encoder put in between.  `src` is the memory that can be
read from the pointer on.  A function has no result when it reads behind it.
-/

namespace FFmpeg.Libavcodec.H2645Parse

open Common
open PacketSideData (avInputBufferPaddingSize)

/-- The byte `src[i]`. -/
def byte (src : Bytes) (i : Nat) : UInt8 := src.getD i 0

/-! ## The scans -/

/-- `STARTCODE_TEST`: what `length` is behind the `break`, when there is one. -/
def startcodeTest (src : Bytes) (length i : Nat) : Option Nat :=
  if i + 2 < length ∧ byte src (i + 1) = 0 ∧ byte src (i + 2) ≤ 3 then
    if byte src (i + 2) ≠ 3 ∧ byte src (i + 2) ≠ 0 then some i else some length
  else none

/-- The loop of a build without `HAVE_FAST_UNALIGNED`; it returns `i` and `length`. -/
def scanBytes (src : Bytes) (length : Nat) : Nat → Nat → Option (Nat × Nat)
  | 0, _ => none
  | rounds + 1, i =>
    if i + 1 < length then
      if byte src i ≠ 0 then scanBytes src length rounds (i + 2)
      else
        let i := if 0 < i ∧ byte src (i - 1) = 0 then i - 1 else i
        match startcodeTest src length i with
        | some length => some (i, length)
        | none => scanBytes src length rounds (i + 2)
    else some (i, length)

/-- `AV_RN32` or `AV_RN64`, on a machine of either byte order. -/
def avRn (bigEndian : Bool) (n : Nat) (src : Bytes) (i : Nat) : Option (BitVec (8 * n)) :=
  if i + n ≤ src.length then
    let bytes := (src.drop i).take n
    some (BitVec.ofNat (8 * n) (if bigEndian then getBE bytes else getLE bytes))
  else none

/-- The test of four bytes at once. -/
def testWord32 (bigEndian : Bool) (src : Bytes) (i : Nat) : Option Bool :=
  (avRn bigEndian 4 src i).map fun x => (~~~x &&& (x - 0x01000101)) &&& 0x80008080 ≠ 0

/-- The test of eight bytes at once. -/
def testWord64 (bigEndian : Bool) (src : Bytes) (i : Nat) : Option Bool :=
  (avRn bigEndian 8 src i).map fun x =>
    (~~~x &&& (x - 0x0100010001000101)) &&& 0x8000800080008080 ≠ 0

/-- `while (src[i]) i++`. -/
def skipNonzero (src : Bytes) (i : Nat) : Option Nat :=
  ((src.drop i).findIdx? (· = 0)).map (i + ·)

/-- `FIND_FIRST_ZERO`. -/
def findFirstZero (src : Bytes) (i : Nat) : Option Nat :=
  skipNonzero src (if 0 < i ∧ byte src i = 0 then i - 1 else i)

/-- The loop of a build with `HAVE_FAST_UNALIGNED`: `i` goes on by `step`, after `i -= step - 2`
where there was a zero byte. -/
def scanWords (test : Bytes → Nat → Option Bool) (step : Nat) (src : Bytes) (length : Nat) :
    Nat → Nat → Option (Nat × Nat)
  | 0, _ => none
  | rounds + 1, i =>
    if i + 1 < length then do
      if !(← test src i) then scanWords test step src length rounds (i + step)
      else
        let i ← findFirstZero src i
        match startcodeTest src length i with
        | some length => some (i, length)
        | none => scanWords test step src length rounds (i + step - (step - 2))
    else some (i, length)

/-- The build: `HAVE_FAST_UNALIGNED` and `HAVE_FAST_64BIT`, with the byte order. -/
inductive Build
  | bytewise
  | unaligned32 (bigEndian : Bool)
  | unaligned64 (bigEndian : Bool)
  deriving DecidableEq, Repr

/-- The first loop of `ff_h2645_extract_rbsp`. -/
def Build.scan (build : Build) (src : Bytes) (length : Nat) : Option (Nat × Nat) :=
  match build with
  | bytewise => scanBytes src length (length + 1) 0
  | unaligned32 bigEndian => scanWords (testWord32 bigEndian) 5 src length (length + 1) 0
  | unaligned64 bigEndian => scanWords (testWord64 bigEndian) 9 src length (length + 1) 0

/-! ## The copy -/

/-- Where `data` of a NAL unit points: to the packet, or to what was written to the buffer. -/
inductive NalData
  | source
  | buffer (dst : Bytes)
  deriving DecidableEq, Repr

/-- The fields of an `H2645NAL` that the function uses; of `skipped_bytes_pos` the entries
that this call has written. -/
structure H2645NAL where
  data : NalData
  size : Nat
  rawSize : Nat
  skippedBytes : Nat
  skippedBytesPosSize : Nat
  skippedBytesPos : Option (List Nat)
  deriving DecidableEq, Repr

/-- An `H2645RBSP`: how much of its buffer is used. -/
structure H2645RBSP where
  rbspBufferSize : Nat
  deriving DecidableEq, Repr

/-- How the function may fail. -/
inductive Failure
  | enomem
  | assertion
  deriving DecidableEq, Repr

/-- `nal->skipped_bytes = 0`: the array has no entry of this call yet. -/
def H2645NAL.reset (nal : H2645NAL) : H2645NAL :=
  { nal with skippedBytes := 0, skippedBytesPos := nal.skippedBytesPos.map fun _ => [] }

/-- `nal->skipped_bytes_pos[nal->skipped_bytes - 1] = pos`. -/
def H2645NAL.store (nal : H2645NAL) (pos : Nat) : H2645NAL :=
  { nal with skippedBytesPos := nal.skippedBytesPos.map (· ++ [pos]) }

/-- The bookkeeping of an escape; `realloc n` tells whether an array of `n` can be had. -/
def H2645NAL.record (realloc : Nat → Bool) (nal : H2645NAL) (pos : Nat) : Except Failure H2645NAL :=
  if nal.skippedBytesPos.isSome then
    let nal := { nal with skippedBytes := nal.skippedBytes + 1 }
    if nal.skippedBytesPosSize < nal.skippedBytes then
      let nal := { nal with skippedBytesPosSize := nal.skippedBytesPosSize * 2 }
      if nal.skippedBytesPosSize < nal.skippedBytes then .error .assertion
      else if realloc nal.skippedBytesPosSize then .ok (nal.store pos)
      else .error .enomem
    else .ok (nal.store pos)
  else .ok nal

/-- The locals of the copy: what was written to `dst`, and `si`. -/
structure Copy where
  dst : Bytes
  si : Nat
  nal : H2645NAL
  deriving DecidableEq, Repr

/-- `dst[di++] = src[si++]`, for each of the bytes. -/
def Copy.put (s : Copy) (bytes : Bytes) : Copy :=
  { s with dst := s.dst ++ bytes, si := s.si + bytes.length }

/-- An escape: two zero bytes for the three bytes that were read. -/
def Copy.escape (realloc : Nat → Bool) (s : Copy) : Except Failure Copy := do
  let dst := s.dst ++ [0, 0]
  let nal ← s.nal.record realloc (dst.length - 1)
  return { dst, si := s.si + 3, nal }

/-- The two loops behind the scan, on the bytes from `si` to `length`. -/
def unescape (realloc : Nat → Bool) : Bytes → Copy → Except Failure Copy
  | a :: b :: c :: rest, s =>
    if 3 < c then unescape realloc (c :: rest) (s.put [a, b])
    else if a = 0 ∧ b = 0 ∧ c ≠ 0 then
      if c = 3 then do unescape realloc rest (← s.escape realloc)
      else .ok s
    else unescape realloc (b :: c :: rest) (s.put [a])
  | rest, s => .ok (s.put rest)

/-- What a call leaves. -/
inductive Outcome
  | returns (ret : Nat) (nal : H2645NAL) (rbsp : H2645RBSP)
  | fails (failure : Failure)
  deriving DecidableEq, Repr

/-- `ff_h2645_extract_rbsp`. -/
def ffH2645ExtractRbsp (build : Build) (realloc : Nat → Bool) (src : Bytes) (length : Nat)
    (rbsp : H2645RBSP) (nal : H2645NAL) (smallPadding : Bool) : Option Outcome := do
  let nal := nal.reset
  let (i, length) ← build.scan src length
  if length ≤ i + 1 ∧ smallPadding then
    return .returns length { nal with data := .source, size := length, rawSize := length } rbsp
  let i := if length < i then length else i
  match unescape realloc ((src.take length).drop i) { dst := src.take i, si := i, nal } with
  | .error failure => return .fails failure
  | .ok s =>
    return .returns s.si
      { s.nal with
        data := .buffer (s.dst ++ List.replicate avInputBufferPaddingSize 0)
        size := s.dst.length
        rawSize := s.si }
      { rbspBufferSize := rbsp.rbspBufferSize + s.si }

/-- The bytes `data[0]` to `data[size - 1]`. -/
def H2645NAL.payload (src : Bytes) (nal : H2645NAL) : Bytes :=
  match nal.data with
  | .source => src.take nal.size
  | .buffer dst => dst.take nal.size

/-! ## The plain definition -/

/-- The bytes go on with a start code. -/
def endsUnit : Bytes → Bool
  | a :: b :: c :: _ => a = 0 && b = 0 && (c = 1 || c = 2)
  | _ => false

/-- What the plain definition gives: the payload, the number of bytes consumed, and where in
the payload a byte was dropped. -/
structure Plain where
  bytes : Bytes
  consumed : Nat
  skipped : List Nat
  deriving DecidableEq, Repr

/-- Copy the bytes, leave out each 3 behind two zero bytes, and stop in front of a start code.
There were `zeros` zero bytes since the last byte that was dropped, and `di` bytes are copied. -/
def plain (zeros di : Nat) : Bytes → Plain
  | [] => ⟨[], 0, []⟩
  | b :: rest =>
    if endsUnit (b :: rest) then ⟨[], 0, []⟩
    else if b = 3 ∧ 2 ≤ zeros then
      let r := plain 0 di rest
      ⟨r.bytes, r.consumed + 1, (di - 1) :: r.skipped⟩
    else
      let r := plain (if b = 0 then zeros + 1 else 0) (di + 1) rest
      ⟨b :: r.bytes, r.consumed + 1, r.skipped⟩

end FFmpeg.Libavcodec.H2645Parse
