import FFmpeg.Common.File
import FFmpeg.Libavutil.AvString
import FFmpeg.Libavutil.Error
import FFmpeg.Libavutil.Mem

/-!
# Print buffers

`AVBPrint` of `libavutil/bprint.c`: a string that grows in its own storage, then
on the heap up to a limit, and counts what no longer fits.  `len` never passes
`UINT_MAX - 5`, so no subtraction of the source wraps.  A function with a loop
gives `none` where the loop would not end.
-/

namespace FFmpeg.Libavutil.Bprint

open Common AvString

/-- `UINT_MAX`. -/
def uintMax : Nat := 2 ^ 32 - 1

/-- The size of `reserved_internal_buffer` up to the end of the structure, which
is padded to 1024 bytes and starts with a pointer and three numbers. -/
def sizeAuto : Nat := 1024 - (8 + 3 * 4)

structure AVBPrint where
  /-- the storage that `str` points to -/
  str : Bytes
  /-- `av_bprint_is_allocated`: the storage is not the internal buffer -/
  isAllocated : Bool
  len : Nat
  size : Nat
  sizeMax : Nat
  deriving DecidableEq, Repr

/-- `av_bprint_room`. -/
def avBprintRoom (buf : AVBPrint) : Nat :=
  buf.size - min buf.len buf.size

/-- `av_bprint_is_complete`. -/
def avBprintIsComplete (buf : AVBPrint) : Bool :=
  buf.len < buf.size

/-- `av_bprint_alloc`. -/
def avBprintAlloc (malloc : Malloc) (buf : AVBPrint) (room : Nat) : Except AVERROR AVBPrint :=
  if buf.size = buf.sizeMax then .error .eio
  else if !avBprintIsComplete buf then .error .invalidData
  else
    let minSize := buf.len + 1 + min (uintMax - buf.len - 1) room
    let newSize := if buf.sizeMax / 2 < buf.size then buf.sizeMax else buf.size * 2
    let newSize := if newSize < minSize then min buf.sizeMax minSize else newSize
    -- from the internal buffer only the string and its NUL are copied
    let oldStr := if buf.isAllocated then buf.str else buf.str.take (buf.len + 1)
    match avRealloc malloc oldStr newSize with
    | none => .error .enomem
    | some newStr => .ok { buf with str := newStr, isAllocated := true, size := newSize }

/-- `av_bprint_grow`. -/
def avBprintGrow (buf : AVBPrint) (extraLen : Nat) : AVBPrint :=
  let extraLen := min extraLen (uintMax - 5 - buf.len)
  let len := buf.len + extraLen
  { buf with
    len := len
    str := if buf.size = 0 then buf.str else overwrite buf.str (min len (buf.size - 1)) [0] }

/-- `av_bprint_init`, on a structure with any content. -/
def avBprintInit (malloc : Malloc) (internal : Bytes) (sizeInit sizeMax : Nat) : AVBPrint :=
  let sizeMax := if sizeMax = 1 then sizeAuto else sizeMax
  let buf : AVBPrint :=
    { str := overwrite internal 0 [0]
      isAllocated := false
      len := 0
      size := min sizeAuto sizeMax
      sizeMax := sizeMax }
  if buf.size < sizeInit then
    -- the result is not looked at
    match avBprintAlloc malloc buf (sizeInit - 1) with
    | .ok buf => buf
    | .error _ => buf
  else buf

/-- The loop that asks for memory until `n` bytes and a NUL fit: the last `room`. -/
def avBprintReserve (malloc : Malloc) : Nat → AVBPrint → Nat → Option (Nat × AVBPrint)
  | 0, _, _ => none
  | fuel + 1, buf, n =>
    let room := avBprintRoom buf
    if n < room then some (room, buf)
    else match avBprintAlloc malloc buf n with
      | .error _ => some (room, buf)
      | .ok buf => avBprintReserve malloc fuel buf n

/-- `av_bprint_append_data`.  Each round of the loop that does not end it makes the
buffer larger. -/
def avBprintAppendData (malloc : Malloc) (buf : AVBPrint) (data : Bytes) : Option AVBPrint :=
  (avBprintReserve malloc (buf.sizeMax + 1) buf data.length).map fun r =>
    let buf := r.2
    let buf :=
      if r.1 = 0 then buf
      else
        let realN := min data.length (r.1 - 1)
        { buf with str := overwrite buf.str buf.len (data.take realN) }
    avBprintGrow buf data.length

/-- `av_bprint_chars`. -/
def avBprintChars (malloc : Malloc) (buf : AVBPrint) (c : UInt8) (n : Nat) : Option AVBPrint :=
  (avBprintReserve malloc (buf.sizeMax + 1) buf n).map fun r =>
    let buf := r.2
    let buf :=
      if r.1 = 0 then buf
      else
        let realN := min n (r.1 - 1)
        { buf with str := overwrite buf.str buf.len (List.replicate realN c) }
    avBprintGrow buf n

/-- `av_bprintf`, for the text that the format gives.  Every round of the loop
prints into the room there is. -/
def avBprintfLoop (malloc : Malloc) : Nat → AVBPrint → Bytes → Option AVBPrint
  | 0, _, _ => none
  | fuel + 1, buf, text =>
    let room := avBprintRoom buf
    let buf :=
      if room = 0 then buf
      else { buf with str := overwrite buf.str buf.len (text.take (room - 1) ++ [0]) }
    if text.length = 0 then some buf
    else if text.length < room then some (avBprintGrow buf text.length)
    else match avBprintAlloc malloc buf text.length with
      | .error _ => some (avBprintGrow buf text.length)
      | .ok buf => avBprintfLoop malloc fuel buf text

def avBprintf (malloc : Malloc) (buf : AVBPrint) (text : Bytes) : Option AVBPrint :=
  avBprintfLoop malloc (buf.sizeMax + 1) buf text

/-- `av_bprint_clear`. -/
def avBprintClear (buf : AVBPrint) : AVBPrint :=
  if buf.len ≠ 0 then { buf with str := overwrite buf.str 0 [0], len := 0 } else buf

/-- `enum AVEscapeMode`. -/
inductive AVEscapeMode
  | auto
  | backslash
  | quote
  deriving DecidableEq, Repr

/-- The `AV_ESCAPE_FLAG_...` flags. -/
structure EscapeFlags where
  whitespace : Bool := false
  strict : Bool := false
  deriving DecidableEq, Repr

/-- Does `av_bprint_escape` put a backslash before `c`? -/
def needsBackslash (specialChars : Bytes) (flags : EscapeFlags) (isFirstLast : Bool)
    (c : UInt8) : Bool :=
  let isWs := isWhitespace c
  let isStrictlySpecial : Bool := c ∈ specialChars
  let isSpecial :=
    isStrictlySpecial || c = AvString.quote || c = AvString.backslash ||
      (isWs && flags.whitespace)
  isStrictlySpecial || (!flags.strict && (isSpecial || (isWs && isFirstLast)))

/-- The loop over `src` in the backslash mode; `first` is `src == src0`. -/
def escapeBackslash (malloc : Malloc) (specialChars : Bytes) (flags : EscapeFlags) :
    Bool → AVBPrint → Bytes → Option AVBPrint
  | _, buf, [] => some buf
  | first, buf, c :: src =>
    let escaped :=
      if needsBackslash specialChars flags (first || src.isEmpty) c then
        avBprintChars malloc buf AvString.backslash 1
      else some buf
    (escaped.bind fun buf => avBprintChars malloc buf c 1).bind fun buf =>
      escapeBackslash malloc specialChars flags false buf src

/-- The loop over `src` in the quote mode. -/
def escapeQuote (malloc : Malloc) : AVBPrint → Bytes → Option AVBPrint
  | buf, [] => some buf
  | buf, c :: src =>
    let printed :=
      if c = AvString.quote then
        avBprintf malloc buf [AvString.quote, AvString.backslash, AvString.quote, AvString.quote]
      else avBprintChars malloc buf c 1
    printed.bind fun buf => escapeQuote malloc buf src

/-- `av_bprint_escape`; `special_chars` is empty for NULL. -/
def avBprintEscape (malloc : Malloc) (buf : AVBPrint) (src specialChars : Bytes)
    (mode : AVEscapeMode) (flags : EscapeFlags) : Option AVBPrint :=
  match mode with
  | .quote =>
    ((avBprintChars malloc buf AvString.quote 1).bind fun buf => escapeQuote malloc buf src).bind
      fun buf => avBprintChars malloc buf AvString.quote 1
  | .auto => escapeBackslash malloc specialChars flags true buf src
  | .backslash => escapeBackslash malloc specialChars flags true buf src

/-- `av_bprint_finalize` with a place for the string: the block it returns. -/
def avBprintFinalize (malloc : Malloc) (buf : AVBPrint) : Except AVERROR Bytes :=
  let realSize := min (buf.len + 1) buf.size
  if buf.isAllocated then
    match avRealloc malloc buf.str realSize with
    | some str => .ok str
    | none => .ok buf.str
  else
    match avMalloc malloc realSize with
    | some str => .ok (overwrite str 0 (buf.str.take realSize))
    | none => .error .enomem

end FFmpeg.Libavutil.Bprint
