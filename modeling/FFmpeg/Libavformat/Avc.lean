import FFmpeg.Common.File
import FFmpeg.Libavformat.Aviobuf

/-!
# NAL units with start codes

The search for start codes of `libavformat/avc.c` and the conversion to NAL units
with a length in front.  Pointers into the input are offsets from its start.  The
input lies at an address of which the search uses the alignment; `end - 3` and
`end - 6` may lie before the input, so they are integers.
-/

namespace FFmpeg.Libavformat.Avc

open Common Avio

/-- The byte at offset `p`. -/
def byte (buf : Bytes) (p : Nat) : UInt8 := buf.getD p 0

/-- `p[0] == 0 && p[1] == 0 && p[2] == 1`. -/
def isStartcode (buf : Bytes) (p : Nat) : Bool :=
  byte buf p == 0 && byte buf (p + 1) == 0 && byte buf (p + 2) == 1

/-- The loops that look at one byte after the other, up to `stop`.  They return an
offset from the function, or end at one. -/
def scanBytes (buf : Bytes) (stop : Int) : Nat → Nat → Except Nat Nat
  | 0, p => .ok p
  | rounds + 1, p =>
    if (p : Int) < stop then
      if isStartcode buf p then .error p else scanBytes buf stop rounds (p + 1)
    else .ok p

/-- `*(const uint32_t*)p`, on a machine of either byte order. -/
def loadWord (bigEndian : Bool) (buf : Bytes) (p : Nat) : UInt32 :=
  let bytes := [byte buf p, byte buf (p + 1), byte buf (p + 2), byte buf (p + 3)]
  UInt32.ofNat (if bigEndian then getBE bytes else getLE bytes)

/-- The tests on a word that has a zero byte. -/
def startcodeInWord (buf : Bytes) (p : Nat) : Option Nat :=
  if byte buf (p + 1) = 0 ∧ byte buf p = 0 ∧ byte buf (p + 2) = 1 then some p
  else if byte buf (p + 1) = 0 ∧ byte buf (p + 2) = 0 ∧ byte buf (p + 3) = 1 then some (p + 1)
  else if byte buf (p + 3) = 0 ∧ byte buf (p + 2) = 0 ∧ byte buf (p + 4) = 1 then some (p + 2)
  else if byte buf (p + 3) = 0 ∧ byte buf (p + 4) = 0 ∧ byte buf (p + 5) = 1 then some (p + 3)
  else none

/-- The loop that looks at one word after the other. -/
def scanWords (bigEndian : Bool) (buf : Bytes) (stop : Int) : Nat → Nat → Except Nat Nat
  | 0, p => .ok p
  | rounds + 1, p =>
    if (p : Int) < stop then
      let x := loadWord bigEndian buf p
      if (x - 0x01010101) &&& ~~~x &&& 0x80808080 ≠ 0 then
        match startcodeInWord buf p with
        | some q => .error q
        | none => scanWords bigEndian buf stop rounds (p + 4)
      else scanWords bigEndian buf stop rounds (p + 4)
    else .ok p

/-- The three loops of `ff_avc_find_startcode_internal`. -/
def searchStartcode (bigEndian : Bool) (address : Nat) (buf : Bytes) (p fin : Nat) :
    Except Nat Nat := do
  let a := p + 4 - (address + p) % 4
  let p ← scanBytes buf (min (a : Int) (fin - 3)) (fin - p) p
  let p ← scanWords bigEndian buf (fin - 6) (fin - p) p
  scanBytes buf (fin - 3) (fin - p) p

/-- `ff_avc_find_startcode_internal`. -/
def ffAvcFindStartcodeInternal (bigEndian : Bool) (address : Nat) (buf : Bytes) (p fin : Nat) :
    Nat :=
  match searchStartcode bigEndian address buf p fin with
  | .error q => q
  | .ok _ => fin

/-- `ff_avc_find_startcode`. -/
def ffAvcFindStartcode (bigEndian : Bool) (address : Nat) (buf : Bytes) (p fin : Nat) : Nat :=
  let out := ffAvcFindStartcodeInternal bigEndian address buf p fin
  if p < out ∧ out < fin ∧ byte buf (out - 1) = 0 then out - 1 else out

/-- `while (nal_start < end && !*(nal_start++));` -/
def skipStartcode (buf : Bytes) (fin : Nat) : Nat → Nat → Nat
  | 0, p => p
  | rounds + 1, p =>
    if p < fin then
      if byte buf p = 0 then skipStartcode buf fin rounds (p + 1) else p + 1
    else p

/-- `ff_avc_mp4_find_startcode`: the end of the unit whose length is stored at `start`, if
it lies in the input. -/
def ffAvcMp4FindStartcode (buf : Bytes) (start fin nalLengthSize : Nat) : Option Nat :=
  if fin - start < nalLengthSize then none
  else
    let res := getBE (slice buf start nalLengthSize)
    let start := start + nalLengthSize
    if res > fin - start then none else some (start + res)

variable {ω : Type}

/-- `avio_wb32`. -/
def avioWb32 (cb : Callbacks ω) (s : AVIOContext ω) (val : Nat) : AVIOContext ω :=
  (putBE 4 val).foldl (avioW8 cb) s

/-- The conversion to `int` on assignment. -/
def toInt (n : Int) : Int := n.bmod (2 ^ 32)

/-- The loop of `ff_avc_parse_nal_units`; every round takes at least a byte. -/
def parseNalUnitsLoop (cb : Callbacks ω) (bigEndian : Bool) (address : Nat) (buf : Bytes)
    (fin : Nat) : Nat → AVIOContext ω → Int → Nat → AVIOContext ω × Int
  | 0, pb, size, _ => (pb, size)
  | rounds + 1, pb, size, nalStart =>
    let nalStart := skipStartcode buf fin (fin - nalStart) nalStart
    if nalStart = fin then (pb, size)
    else
      let nalEnd := ffAvcFindStartcode bigEndian address buf nalStart fin
      let pb := avioWb32 cb pb (nalEnd - nalStart)
      let pb := avioWrite cb pb (slice buf nalStart (nalEnd - nalStart))
      let size := toInt (size + (4 + nalEnd - nalStart))
      parseNalUnitsLoop cb bigEndian address buf fin rounds pb size nalEnd

/-- `ff_avc_parse_nal_units`, on the `size` bytes of `buf` from its start. -/
def ffAvcParseNalUnits (cb : Callbacks ω) (bigEndian : Bool) (pb : AVIOContext ω) (address : Nat)
    (buf : Bytes) (size : Nat) : AVIOContext ω × Int :=
  let nalStart := ffAvcFindStartcode bigEndian address buf 0 size
  parseNalUnitsLoop cb bigEndian address buf size (size + 1) pb 0 nalStart

end FFmpeg.Libavformat.Avc
