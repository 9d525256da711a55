import FFmpeg.Libavformat.AvioSource
import FFmpeg.Libavutil.Bprint
import FFmpeg.Libavutil.Error
import FFmpeg.Libavutil.Utf8

/-!
# The text reader of the subtitle demuxers

`FFTextReader` of `libavformat/subtitles.c`, which turns UTF-16 into UTF-8, and what reads chunks
and lines with it.  The buffer of a reader is `buf[0..buf_len - 1]`.
-/

namespace FFmpeg.Libavformat.Subtitles

open Common Libavutil Utf8 Bprint AvioSource

/-! ## The reader -/

/-- `enum ff_utf_type`. -/
inductive FFUtfType
  | utf8
  | utf16le
  | utf16be
  deriving DecidableEq, Repr

/-- `FFTextReader`. -/
structure FFTextReader where
  type : FFUtfType
  pb : AVIOContext
  buf : Bytes
  bufPos : Nat
  deriving DecidableEq, Repr

/-- `ff_text_init_avio`. -/
def ffTextInitAvio (pb : AVIOContext) : FFTextReader :=
  let first := avioR8 pb
  let second := avioR8 first.2
  let buf := [first.1, second.1]
  if buf = [0xFF, 0xFE] then ⟨.utf16le, second.2, buf, 2⟩
  else if buf = [0xFE, 0xFF] then ⟨.utf16be, second.2, buf, 2⟩
  else
    let third := avioR8 second.2
    let buf := buf ++ [third.1]
    ⟨.utf8, third.2, buf, if buf = [0xEF, 0xBB, 0xBF] then 3 else 0⟩

/-- `GET_UTF16`, with `ERROR` as nothing; `val` is a `uint32_t`. -/
def getUtf16 (get16bit : AVIOContext → Nat × AVIOContext) (pb : AVIOContext) :
    Option Nat × AVIOContext :=
  let first := get16bit pb
  let hi := (first.1 + 2 ^ 32 - 0xD800) % 2 ^ 32
  if hi < 0x800 then
    let second := get16bit first.2
    let val := (second.1 + 2 ^ 32 - 0xDC00) % 2 ^ 32
    if 0x3FF < val ∨ 0x3FF < hi then (none, second.2)
    else (some ((val + (hi <<< 10) + 0x10000) % 2 ^ 32), second.2)
  else (some first.1, first.2)

/-- What `ff_text_r8` does with a character. -/
def putCharacter (r : FFTextReader) : Option Nat × AVIOContext → UInt8 × FFTextReader
  | (none, pb) => (0, { r with pb := pb })
  | (some val, pb) =>
    if val = 0 then (0, { r with pb := pb })
    else (((putUtf8 val).getD 0 0), { r with pb := pb, buf := putUtf8 val, bufPos := 1 })

/-- `ff_text_r8`. -/
def ffTextR8 (r : FFTextReader) : UInt8 × FFTextReader :=
  if r.bufPos < r.buf.length then (r.buf.getD r.bufPos 0, { r with bufPos := r.bufPos + 1 })
  else match r.type with
    | .utf16le => putCharacter r (getUtf16 avioRl16 r.pb)
    | .utf16be => putCharacter r (getUtf16 avioRb16 r.pb)
    | .utf8 =>
      let b := avioR8 r.pb
      (b.1, { r with pb := b.2 })

/-- `ff_text_eof`. -/
def ffTextEof (r : FFTextReader) : Bool := decide (r.buf.length ≤ r.bufPos) && avioFeof r.pb

/-- `ff_text_peek_r8`. -/
def ffTextPeekR8 (r : FFTextReader) : UInt8 × FFTextReader :=
  if r.bufPos < r.buf.length then (r.buf.getD r.bufPos 0, r)
  else
    let c := ffTextR8 r
    if avioFeof c.2.pb then c else (c.1, { c.2 with buf := [c.1], bufPos := 0 })

/-- The text that is left has no more bytes than this. -/
def bytesLeft (r : FFTextReader) : Nat := (r.buf.length - r.bufPos) + 4 * r.pb.rest.length

/-! ## Chunks -/

def cr : UInt8 := 0x0D
def lf : UInt8 := 0x0A

/-- `is_eol`. -/
def isEol (c : UInt8) : Bool := c = cr || c = lf

/-- The variables of `ff_subtitles_read_text_chunk`: `eol_buf[0..i - 1]` and the others. -/
structure ChunkState where
  buf : AVBPrint
  eolBuf : Bytes
  lastWasCr : Bool
  n : Nat
  nbEol : Nat
  deriving DecidableEq, Repr

/-- The loop of `ff_subtitles_read_text_chunk`; it ends at the end of the text at the latest. -/
def readTextChunkLoop (malloc : Malloc) :
    Nat → ChunkState → FFTextReader → Option (AVBPrint × FFTextReader)
  | 0, _, _ => none
  | fuel + 1, s, tr =>
    let c := ffTextR8 tr
    if c.1 = 0 then some (s.buf, c.2)
    else if s.n = 0 ∧ isEol c.1 = true then readTextChunkLoop malloc fuel s c.2
    else if isEol c.1 then
      let nbEol := s.nbEol + if c.1 = lf ∨ s.lastWasCr = true then 1 else 0
      if nbEol = 2 then some (s.buf, c.2)
      else
        let eolBuf := s.eolBuf ++ [c.1]
        if eolBuf.length = 4 then some (s.buf, c.2)
        else
          let lastWasCr := decide (c.1 = cr)
          readTextChunkLoop malloc fuel { s with eolBuf, lastWasCr, nbEol } c.2
    else do
      -- only one line break followed by data: the line breaks are flushed
      let s ←
        if s.eolBuf = [] then some s
        else (avBprintf malloc s.buf s.eolBuf).map fun buf =>
          { s with buf := buf, eolBuf := [], nbEol := 0 }
      let buf ← avBprintChars malloc s.buf c.1 1
      readTextChunkLoop malloc fuel { s with buf := buf, n := s.n + 1 } c.2

/-- `ff_subtitles_read_text_chunk`. -/
def ffSubtitlesReadTextChunk (malloc : Malloc) (tr : FFTextReader) (buf : AVBPrint) :
    Option (AVBPrint × FFTextReader) :=
  readTextChunkLoop malloc (bytesLeft tr + 1) ⟨avBprintClear buf, [], false, 0, 0⟩ tr

/-! ## Lines -/

/-- A store `buf[i] = c` to a buffer of its size; nothing outside of it. -/
def store (buf : Bytes) (i : Nat) (c : UInt8) : Option Bytes :=
  if i < buf.length then some (buf.set i c) else none

/-- The loop of `ff_subtitles_read_line` while so many more bytes fit: what it returns, if it does
so, `cur`, `buf` and the reader. -/
def readLineLoop : Nat → Nat → Bytes → FFTextReader →
    Option (Option (Except AVERROR Nat) × Nat × Bytes × FFTextReader)
  | 0, cur, buf, tr => some (none, cur, buf, tr)
  | room + 1, cur, buf, tr =>
    let c := ffTextR8 tr
    if c.1 = 0 then
      some (some (if ffTextEof c.2 then .ok cur else .error .invalidData), cur, buf, c.2)
    else if c.1 = cr ∨ c.1 = lf then some (none, cur, buf, c.2)
    else do
      let buf ← store buf cur c.1
      let buf ← store buf (cur + 1) 0
      readLineLoop room (cur + 1) buf c.2

/-- The loop `while (ff_text_peek_r8(tr) == '\r') ff_text_r8(tr);`. -/
def skipCr : Nat → FFTextReader → Option FFTextReader
  | 0, _ => none
  | fuel + 1, tr =>
    let c := ffTextPeekR8 tr
    if c.1 = cr then skipCr fuel (ffTextR8 c.2).2 else some c.2

/-- The end of `ff_subtitles_read_line`. -/
def skipBreak (tr : FFTextReader) : Option FFTextReader := do
  let tr ← skipCr (bytesLeft tr + 1) tr
  let c := ffTextPeekR8 tr
  some (if c.1 = lf then (ffTextR8 c.2).2 else c.2)

/-- `ff_subtitles_read_line`. -/
def ffSubtitlesReadLine (tr : FFTextReader) (buf : Bytes) (size : Nat) :
    Option (Except AVERROR Nat × Bytes × FFTextReader) :=
  if size = 0 then some (.ok 0, buf, tr)
  else do
    let s ← readLineLoop (size - 1) 0 buf tr
    match s with
    | (some ret, _, buf, tr) => some (ret, buf, tr)
    | (none, cur, buf, tr) => do
      let tr ← skipBreak tr
      some (.ok cur, buf, tr)

end FFmpeg.Libavformat.Subtitles
