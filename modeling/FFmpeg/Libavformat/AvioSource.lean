import FFmpeg.Common.Bytes

/-!
# Reading a stretch of bytes

The `AVIOContext` of a memory block, or of a file that is read from front to end: what is left
to read, and whether a read has met the end.  How its buffer is filled does not matter to its
readers (`libavformat/aviobuf.c`).
-/

namespace FFmpeg.Libavformat.AvioSource

open Common

/-- `AVIOContext`. -/
structure AVIOContext where
  rest : Bytes
  eofReached : Bool
  deriving DecidableEq, Repr

/-- `avio_r8`. -/
def avioR8 (pb : AVIOContext) : UInt8 × AVIOContext :=
  match pb.rest with
  | b :: rest => (b, { pb with rest := rest })
  | [] => (0, { pb with eofReached := true })

/-- `avio_rl16`. -/
def avioRl16 (pb : AVIOContext) : Nat × AVIOContext :=
  let low := avioR8 pb
  let high := avioR8 low.2
  (low.1.toNat ||| high.1.toNat <<< 8, high.2)

/-- `avio_rb16`. -/
def avioRb16 (pb : AVIOContext) : Nat × AVIOContext :=
  let high := avioR8 pb
  let low := avioR8 high.2
  (high.1.toNat <<< 8 ||| low.1.toNat, low.2)

/-- `avio_feof`; one more try to read at the end meets the end again. -/
def avioFeof (pb : AVIOContext) : Bool := pb.eofReached

/-- `avio_skip`, inside of what is left. -/
def avioSkip (pb : AVIOContext) (offset : Nat) : AVIOContext :=
  if offset ≤ pb.rest.length then ⟨pb.rest.drop offset, false⟩ else pb

@[simp] theorem avioR8_cons (b : UInt8) (rest : Bytes) (eof : Bool) :
    avioR8 ⟨b :: rest, eof⟩ = (b, ⟨rest, eof⟩) := rfl

@[simp] theorem avioR8_nil (eof : Bool) : avioR8 ⟨[], eof⟩ = (0, ⟨[], true⟩) := rfl

theorem shiftLeft_or_byte (n : Nat) (b : UInt8) : n <<< 8 ||| b.toNat = n * 256 + b.toNat := by
  rw [← Nat.shiftLeft_add_eq_or_of_lt b.toNat_lt, Nat.shiftLeft_eq]

end FFmpeg.Libavformat.AvioSource
