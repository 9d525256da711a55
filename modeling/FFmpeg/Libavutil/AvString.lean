import FFmpeg.Common.Bytes
import Mathlib.Data.List.DropRight
import Mathlib.Tactic

/-!
# Strings and tokens

C strings, and `av_get_token` of `libavutil/avstring.c`.  A C string is the list
of the bytes before its NUL; memory for a token is always there.
-/

namespace FFmpeg.Libavutil.AvString

open Common

/-- The C string that starts a block of memory. -/
def cString (block : Bytes) : Bytes :=
  block.takeWhile (· ≠ 0)

/-- `WHITESPACES`: a space, `\n`, `\t` or `\r`. -/
def isWhitespace (c : UInt8) : Bool :=
  c ∈ [32, 10, 9, 13]

def backslash : UInt8 := 92

def quote : UInt8 := 39

/-- The loop of `av_get_token` from `p` on, with the bytes in `out` and the place
`fin` (`end` in the source) behind the last escaped or quoted one.  `quoted` says
that the inner loop over a quoted stretch is running.  The last component is what
`p` points to at the end. -/
def avGetTokenLoop (term : Bytes) (quoted : Bool) : Bytes → Bytes → Nat → Bytes × Nat × Bytes
  | [], out, fin => (out, fin, [])
  | c :: p, out, fin =>
    match quoted with
    | true =>
      if c = quote then avGetTokenLoop term false p out out.length
      else avGetTokenLoop term true p (out ++ [c]) fin
    | false =>
      if c ∈ term then (out, fin, c :: p)
      else if c = backslash then
        match p with
        | d :: p => avGetTokenLoop term false p (out ++ [d]) (out.length + 1)
        -- a backslash before the NUL stands for itself
        | [] => (out ++ [c], fin, [])
      else if c = quote then avGetTokenLoop term true p out fin
      else avGetTokenLoop term false p (out ++ [c]) fin

/-- `av_get_token`: the token and what `*buf` points to afterwards.  Whitespace
goes at the front, and at the end as far as it was neither escaped nor quoted. -/
def avGetToken (buf term : Bytes) : Bytes × Bytes :=
  let r := avGetTokenLoop term false (buf.dropWhile isWhitespace) [] 0
  let out := r.1
  let fin := r.2.1
  (out.take fin ++ (out.drop fin).rdropWhile isWhitespace, r.2.2)

end FFmpeg.Libavutil.AvString
