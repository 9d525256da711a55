import FFmpeg.Libavformat.Ebml

/-!
# The laces of a Matroska block

`matroska_parse_laces` of `libavformat/matroskadec.c`: how many frames the payload of a block holds,
and the size of each.  A pointer into the payload is what is left of it from there on.
-/

namespace FFmpeg.Libavformat.Matroska

open Common Libavutil AvioSource Ebml

/-- The lacing of a block, 0 to 3 in its flags. -/
inductive Lacing
  | none
  | xiph
  | fixed
  | ebml
  deriving DecidableEq, Repr

/-- An early end: an error is returned, or a byte outside of the payload is read. -/
inductive Stop
  | failed (e : AVERROR)
  | overread
  deriving DecidableEq, Repr

/-- `*buf`, `*laces` and `lace_size[0..laces - 1]`. -/
structure Laces where
  buf : Bytes
  laces : Nat
  laceSize : List Nat
  deriving DecidableEq, Repr

/-- A number as a `uint32_t`. -/
def toUint32 (v : Int) : Nat := (v % 2 ^ 32).toNat

def intMax : Nat := 0x7FFFFFFF

/-! ## Xiph lacing -/

/-- `data`, `size` and `total`. -/
structure Xiph where
  data : Bytes
  size : Int
  total : Nat
  deriving DecidableEq, Repr

/-- The loop `do ... while (temp == 0xff)` over the bytes of one size. -/
def xiphLace (data : Bytes) (size : Int) (total lace : Nat) : Except Stop (Nat × Xiph) :=
  if toUint32 size ≤ total then .error (.failed .invalidData)
  else match data with
    | [] => .error .overread
    | temp :: data =>
      let total := (total + temp.toNat) % 2 ^ 32
      let lace := (lace + temp.toNat) % 2 ^ 32
      if temp = 0xFF then xiphLace data (size - 1) total lace
      else .ok (lace, ⟨data, size - 1, total⟩)

/-- The loop over all of the laces but the last. -/
def xiphLaces : Nat → Xiph → Except Stop (List Nat × Xiph)
  | 0, s => .ok ([], s)
  | n + 1, s => do
    let lace ← xiphLace s.data s.size s.total 0
    let rest ← xiphLaces n lace.2
    .ok (lace.1 :: rest.1, rest.2)

/-! ## EBML lacing -/

/-- `total`, `offset` and the context. -/
structure EbmlSizes where
  total : Nat
  offset : Nat
  pb : AVIOContext
  deriving DecidableEq, Repr

/-- The loop over the laces between the first and the last, behind one of size `prev`. -/
def ebmlLaces : Nat → Nat → EbmlSizes → Except Stop (List Nat × EbmlSizes)
  | 0, _, s => .ok ([], s)
  | n + 1, prev, s =>
    match matroskaEbmlnumSint s.pb with
    | (.error e, _) => .error (.failed e)
    | (.ok (r, snum), pb) =>
      if intMax < toUint64 (prev + snum) then .error (.failed .invalidData)
      else do
        let lace := toUint32 (prev + snum)
        let rest ← ebmlLaces n lace ⟨(s.total + lace) % 2 ^ 64, s.offset + r, pb⟩
        .ok (lace :: rest.1, rest.2)

/-! ## All of them -/

/-- `matroska_parse_laces`, from the payload and a context in front of the timecode of the
block. -/
def matroskaParseLaces (payload : Bytes) (type : Lacing) (pb : AVIOContext) : Except Stop Laces :=
  let size : Int := payload.length
  match type, payload with
  | .none, payload => .ok ⟨payload, 1, [toUint32 size]⟩
  | _, [] => .error (.failed .invalidData)
  | .xiph, count :: data => do
    let laces := count.toNat + 1
    let s ← xiphLaces (laces - 1) ⟨data, size - 1, 0⟩
    if toUint32 s.2.size < s.2.total then .error (.failed .invalidData)
    else .ok ⟨s.2.data, laces, s.1 ++ [toUint32 (s.2.size - s.2.total)]⟩
  | .fixed, count :: data =>
    let laces := count.toNat + 1
    if (size - 1) % laces ≠ 0 then .error (.failed .invalidData)
    else .ok ⟨data, laces, List.replicate laces (toUint32 ((size - 1) / laces))⟩
  | .ebml, count :: data =>
    let laces := count.toNat + 1
    match ebmlReadNum (avioSkip pb 4) 8 true with
    | (.error e, _) => .error (.failed e)
    | (.ok (n, num), pb) =>
      if intMax < num then .error (.failed .invalidData)
      else do
        let s ← ebmlLaces (laces - 2) num ⟨num, n, pb⟩
        if data.length < s.2.offset then .error .overread
        else
          let size := size - 1 - s.2.offset
          if toUint64 size < s.2.total then .error (.failed .invalidData)
          else
            -- with a single lace the size that was read is replaced
            .ok ⟨data.drop s.2.offset, laces,
              overwrite (num :: s.1) (laces - 1) [toUint32 (size - s.2.total)]⟩

end FFmpeg.Libavformat.Matroska
