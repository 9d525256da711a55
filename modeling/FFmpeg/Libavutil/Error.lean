import Mathlib.Tactic

/-!
# Error codes

The negative return values shared by the modelled functions.  A C function
returning `int` is modelled with `Except AVERROR`, so that an error cannot be
mistaken for a count.
-/

namespace FFmpeg.Libavutil

/-- The `AVERROR(...)` and `AVERROR_...` codes the modelled code returns. -/
inductive AVERROR
  | eio
  | eagain
  | einval
  | espipe
  | epipe
  | erange
  | enosys
  | enomem
  | eof
  | exit
  | invalidData
  /-- Any other negative value, such as a bare `-1`. -/
  | other
  deriving DecidableEq, Repr

/-- The number a code stands for, for functions that return a plain `int`. -/
def AVERROR.toInt : AVERROR → Int
  | .eio => -5
  | .eagain => -11
  | .einval => -22
  | .espipe => -29
  | .epipe => -32
  | .erange => -34
  | .enosys => -38
  | .enomem => -12
  | .eof => -0x20464f45
  | .exit => -0x54495845
  | .invalidData => -0x41444e49
  | .other => -1

end FFmpeg.Libavutil
