import FFmpeg.Common.Bytes

/-!
# UTF-8

`av_utf8_decode` of `libavutil/avstring.c` and `PUT_UTF8` of `libavutil/common.h`.  The first byte
of a sequence says by its leading ones how many bytes follow it; the loop looks at these ones one
after the other while it shifts the bytes that follow into the code.
-/

namespace FFmpeg.Libavutil.Utf8

open Common

/-- The `AV_UTF8_FLAG_...` flags. -/
structure Utf8Flags where
  acceptInvalidBigCodes : Bool := false
  acceptNonCharacters : Bool := false
  acceptSurrogates : Bool := false
  excludeXmlInvalidControlCodes : Bool := false
  deriving DecidableEq, Repr

/-- `AVERROR(EILSEQ)`. -/
def eilseq : Int := -84

/-- What `av_utf8_decode` leaves: its result, `*codep` if it was set, and how far `*bufp` moved. -/
structure Decoded where
  ret : Int
  codep : Option Nat
  advance : Nat
  deriving DecidableEq, Repr

/-- `overlong_encoding_mins`. -/
def overlongEncodingMins : List Nat :=
  [0x00000000, 0x00000080, 0x00000800, 0x00010000, 0x00200000, 0x04000000]

/-- The loop over the bytes that follow: `code`, `top` and `tail_len`, and what is left; nothing
where it returns. -/
def tailLoop (p : Bytes) (code top tailLen : Nat) : Option (Nat × Nat × Nat × Bytes) :=
  if code &&& top = 0 then some (code, top, tailLen, p)
  else match p with
    | [] => none
    | b :: p =>
      let tmp : Int := b.toNat - 128
      if tmp >>> (6 : Nat) ≠ 0 then none
      else tailLoop p ((code <<< 6) + tmp.toNat) ((top <<< 5) % 2 ^ 32) (tailLen + 1)

/-- The result of the checks of a code that has been set. -/
def rangeCheck (flags : Utf8Flags) (code : Nat) : Int :=
  if 0x10FFFF < code ∧ flags.acceptInvalidBigCodes = false then eilseq
  else if code < 0x20 ∧ code ≠ 0x9 ∧ code ≠ 0xA ∧ code ≠ 0xD ∧
      flags.excludeXmlInvalidControlCodes = true then eilseq
  else if 0xD800 ≤ code ∧ code ≤ 0xDFFF ∧ flags.acceptSurrogates = false then eilseq
  else if (code = 0xFFFE ∨ code = 0xFFFF) ∧ flags.acceptNonCharacters = false then eilseq
  else 0

/-- `av_utf8_decode`, on the bytes from `*bufp` to `buf_end`; `none` where its assertion fails. -/
def avUtf8Decode (flags : Utf8Flags) : Bytes → Option Decoded
  | [] => some ⟨0, none, 0⟩
  | c :: p =>
    let code := c.toNat
    if code &&& 0xC0 = 0x80 ∨ 0xFE ≤ code then some ⟨eilseq, none, 1⟩
    else match tailLoop p code ((code &&& 128) >>> 1) 0 with
      | none => some ⟨eilseq, none, 1⟩
      | some (code, top, tailLen, rest) =>
        let advance := 1 + (p.length - rest.length)
        let code := code &&& (((top <<< 1) % 2 ^ 32 + (2 ^ 32 - 1)) % 2 ^ 32)
        if 5 < tailLen then none
        else if code < overlongEncodingMins.getD tailLen 0 then some ⟨eilseq, none, advance⟩
        else if 2 ^ 31 ≤ code then some ⟨eilseq, none, advance⟩
        else some ⟨rangeCheck flags code, some code, advance⟩

/-- The loop of `PUT_UTF8` over `shift`. -/
def putTail (val : Nat) : Nat → Bytes
  | shift + 6 => UInt8.ofNat (0x80 ||| ((val >>> shift) &&& 0x3F)) :: putTail val shift
  | _ => []

/-- `PUT_UTF8`: the bytes for which `PUT_BYTE` runs; `av_log2` is `Nat.log2`. -/
def putUtf8 (val : Nat) : Bytes :=
  if val < 0x80 then [UInt8.ofNat val]
  else
    let bytes := (val.log2 + 4) / 5
    let shift := (bytes - 1) * 6
    UInt8.ofNat ((256 - (256 >>> bytes)) ||| (val >>> shift)) :: putTail val shift

end FFmpeg.Libavutil.Utf8
