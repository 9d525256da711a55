import FFmpeg.Common.Bytes

/-!
# Run-length encoding

`libavcodec/rle.c`, and the PackBits strips that `tiffenc.c` makes with it and `tiff.c` unpacks, a
byte a pixel and with the default order of bits.  A loop that is given too few rounds has no result.
-/

namespace FFmpeg.Libavcodec.Rle

open Common

/-- Pixel `i` behind `start`. -/
def pixel (bpp : Nat) (start : Bytes) (i : Nat) : Bytes := (start.drop (i * bpp)).take bpp

/-- The loop of `ff_rle_count_pixels`, with the rounds that are left. -/
def countLoop (start : Bytes) (bpp : Nat) (same : Bool) : Nat → Nat → Nat
  | 0, count => count
  | rounds + 1, count =>
    if same = decide (pixel bpp start (count - 1) = pixel bpp start count) then
      countLoop start bpp same rounds (count + 1)
    else if same then count
    else if bpp = 1 ∧ 0 < rounds ∧ start.getD count 0 ≠ start.getD (count + 1) 0 then
      countLoop start bpp same rounds (count + 1)
    else count - 1

/-- `ff_rle_count_pixels`. -/
def ffRleCountPixels (start : Bytes) (len bpp : Nat) (same : Bool) : Nat :=
  countLoop start bpp same (min 127 len - 1) 1

/-- What `ff_rle_encode` puts in front of packets: `add_rep`, `xor_rep`, `add_raw` and `xor_raw`,
reduced to a byte. -/
structure Codes where
  addRep : UInt8
  xorRep : UInt8
  addRaw : UInt8
  xorRaw : UInt8
  deriving DecidableEq, Repr

/-- `(count ^ xor_rep) + add_rep`. -/
def Codes.rep (c : Codes) (count : Nat) : UInt8 := (UInt8.ofNat count ^^^ c.xorRep) + c.addRep

/-- `(count ^ xor_raw) + add_raw`. -/
def Codes.raw (c : Codes) (count : Nat) : UInt8 := (UInt8.ofNat count ^^^ c.xorRaw) + c.addRaw

/-- The loop of `ff_rle_encode` with `left` pixels at `ptr`; -1 is an error. -/
def encodeLoop (c : Codes) (outSize : Int) (bpp : Nat) : Nat → Nat → Bytes → Bytes →
    Option (Except Int Bytes)
  | _, 0, _, out => some (.ok out)
  | 0, _ + 1, _, _ => none
  | rounds + 1, left + 1, ptr, out =>
    let same := ffRleCountPixels ptr (left + 1) bpp true
    if 1 < same then
      if outSize < (out.length + bpp + 1 : Nat) then some (.error (-1))
      else encodeLoop c outSize bpp rounds (left + 1 - same) (ptr.drop (same * bpp))
        (out ++ c.rep same :: ptr.take bpp)
    else
      let count := ffRleCountPixels ptr (left + 1) bpp false
      if outSize ≤ (out.length + bpp * count : Nat) then some (.error (-1))
      else encodeLoop c outSize bpp rounds (left + 1 - count) (ptr.drop (count * bpp))
        (out ++ c.raw count :: ptr.take (bpp * count))

/-- `ff_rle_encode`. -/
def ffRleEncode (c : Codes) (outSize : Int) (ptr : Bytes) (bpp w : Nat) :
    Option (Except Int Bytes) :=
  encodeLoop c outSize bpp w w ptr []

/-! ## PackBits strips -/

/-- The arguments of `encode_strip`. -/
def packbits : Codes := ⟨2, 0xff, 0xff, 0⟩

/-- The rows of a strip, encoded one behind the other with `encode_strip`. -/
def encodeRows (bufSize : Int) : List Bytes → Bytes → Option (Except Int Bytes)
  | [], out => some (.ok out)
  | row :: rows, out =>
    match ffRleEncode packbits (bufSize - out.length) row 1 row.length with
    | some (.ok enc) => encodeRows bufSize rows (out ++ enc)
    | r => r

/-- The loop over a line in `tiff_unpack_strip`: the line, and what is left of the source. -/
def unpackLine (width : Nat) : Nat → Bytes → Bytes → Option (Except Unit (Bytes × Bytes))
  | rounds, src, dst =>
    if width ≤ dst.length then some (.ok (dst, src))
    else
      match rounds, src with
      | rounds + 1, code :: next :: src =>
        if code < 128 then
          let count := code.toNat + 1
          if width < dst.length + count ∨ (next :: src).length < count then some (.error ())
          else unpackLine width rounds ((next :: src).drop count) (dst ++ (next :: src).take count)
        else if code = 128 then unpackLine width rounds (next :: src) dst
        else
          let count := 257 - code.toNat
          if width < dst.length + count then some (.error ())
          else unpackLine width rounds src (dst ++ List.replicate count next)
      | 0, _ :: _ :: _ => none
      | _, _ => some (.error ())

/-- The loop over the lines of a strip. -/
def unpackLines (width : Nat) : Nat → Bytes → List Bytes → Option (Except Unit (List Bytes × Bytes))
  | 0, src, dst => some (.ok (dst, src))
  | lines + 1, src, dst =>
    match unpackLine width src.length src [] with
    | some (.ok (line, src)) => unpackLines width lines src (dst ++ [line])
    | some (.error e) => some (.error e)
    | none => none

/-- `tiff_unpack_strip`: the lines, and what is left of the source. -/
def tiffUnpackStrip (width : Nat) (src : Bytes) (lines : Nat) :
    Option (Except Unit (List Bytes × Bytes)) :=
  if src = [] then some (.error ()) else unpackLines width lines src []

/-! ## Counting pixels -/

variable {c : Codes} {start ptr out enc row rest dst : Bytes} {bpp len left rounds count width : Nat}
  {outSize : Int}

theorem countLoop_same (start : Bytes) (bpp rounds count : Nat) :
    count ≤ countLoop start bpp true rounds count ∧
      countLoop start bpp true rounds count ≤ count + rounds ∧
      ∀ i, count ≤ i → i < countLoop start bpp true rounds count →
        pixel bpp start (i - 1) = pixel bpp start i := by
  induction rounds generalizing count with
  | zero => exact ⟨le_rfl, le_rfl, fun i hle hlt => absurd hlt (Nat.not_lt.2 hle)⟩
  | succ rounds ih =>
    rw [countLoop]
    by_cases heq : pixel bpp start (count - 1) = pixel bpp start count
    · obtain ⟨hle, hlimit, hsame⟩ := ih (count + 1)
      rw [if_pos (by simpa using heq)]
      refine ⟨by omega, by omega, fun i hi hlt => ?_⟩
      rcases Nat.eq_or_lt_of_le hi with rfl | hi
      · exact heq
      · exact hsame i hi hlt
    · rw [if_neg (by simpa using heq), if_pos rfl]
      exact ⟨le_rfl, by omega, fun i hle hlt => absurd hlt (Nat.not_lt.2 hle)⟩

theorem countLoop_raw (start : Bytes) (bpp rounds count : Nat) :
    count - 1 ≤ countLoop start bpp false rounds count ∧
      countLoop start bpp false rounds count ≤ count + rounds := by
  induction rounds generalizing count with
  | zero => exact ⟨Nat.sub_le _ _, le_rfl⟩
  | succ rounds ih =>
    have hnext := ih (count + 1)
    rw [countLoop]
    split_ifs <;> omega

theorem same_bounds (start : Bytes) (bpp : Nat) (hlen : 0 < len) :
    1 ≤ ffRleCountPixels start len bpp true ∧ ffRleCountPixels start len bpp true ≤ 127 ∧
      ffRleCountPixels start len bpp true ≤ len := by
  obtain ⟨hle, hlimit, -⟩ := countLoop_same start bpp (min 127 len - 1) 1
  unfold ffRleCountPixels
  omega

/-- Where no two pixels are the same, there is something to put in a raw packet. -/
theorem raw_bounds (hlen : 0 < len) (hsame : ffRleCountPixels start len bpp true ≤ 1) :
    1 ≤ ffRleCountPixels start len bpp false ∧ ffRleCountPixels start len bpp false ≤ 127 ∧
      ffRleCountPixels start len bpp false ≤ len := by
  unfold ffRleCountPixels at hsame ⊢
  have hlimit := (countLoop_raw start bpp (min 127 len - 1) 1).2
  refine ⟨?_, by omega, by omega⟩
  cases hrounds : min 127 len - 1 with
  | zero => exact le_rfl
  | succ rounds =>
    have hnext := (countLoop_same start bpp rounds (1 + 1)).1
    rw [hrounds, countLoop] at hsame
    rw [countLoop]
    by_cases heq : pixel bpp start 0 = pixel bpp start 1
    · rw [if_pos (by simpa using heq)] at hsame
      omega
    · rw [if_pos (by simpa using heq)]
      exact (countLoop_raw start bpp rounds (1 + 1)).1

theorem take_of_same (hsame : ∀ i, 1 ≤ i → i < count → pixel bpp start (i - 1) = pixel bpp start i) :
    start.take (count * bpp) = (List.replicate count (start.take bpp)).flatten := by
  have hall : ∀ i < count, pixel bpp start i = start.take bpp := by
    intro i hi
    induction i with
    | zero => simp [pixel]
    | succ i ih => rw [← hsame (i + 1) (Nat.succ_pos i) hi, Nat.add_sub_cancel, ih (by omega)]
  clear hsame
  induction count with
  | zero => simp
  | succ count ih =>
    have hlast := hall count (Nat.lt_succ_self _)
    rw [pixel] at hlast
    rw [Nat.succ_mul, List.take_add, ih fun i hi => hall i (by omega), hlast,
      List.replicate_succ', List.flatten_append]
    simp

/-! ## Packets -/

/-- Packets for a row: each repeats a pixel or holds pixels. -/
inductive Packets (c : Codes) (bpp : Nat) : Bytes → Bytes → Prop
  | nil : Packets c bpp [] []
  | rep {enc row px : Bytes} {count : Nat} (hcount : 1 < count) (hle : count ≤ 127)
      (hpx : px.length = bpp) (h : Packets c bpp enc row) :
      Packets c bpp (c.rep count :: (px ++ enc)) ((List.replicate count px).flatten ++ row)
  | raw {enc row pxs : Bytes} {count : Nat} (hcount : 1 ≤ count) (hle : count ≤ 127)
      (hpxs : pxs.length = count * bpp) (h : Packets c bpp enc row) :
      Packets c bpp (c.raw count :: (pxs ++ enc)) (pxs ++ row)

/-- The loop has ended with an error, or with packets for the row that fit behind `out`. -/
def Encoded (c : Codes) (outSize : Int) (bpp : Nat) (row out : Bytes)
    (r : Option (Except Int Bytes)) : Prop :=
  r = some (.error (-1)) ∨ ∃ enc, r = some (.ok (out ++ enc)) ∧ (out ++ enc).length ≤ outSize ∧
    Packets c bpp enc row

theorem Encoded.packet {packet : Bytes} {r : Option (Except Int Bytes)}
    (h : Encoded c outSize bpp rest (out ++ packet) r)
    (hpacket : ∀ enc, Packets c bpp enc rest → Packets c bpp (packet ++ enc) row) :
    Encoded c outSize bpp row out r := by
  rcases h with h | ⟨enc, hr, hle, henc⟩
  · exact .inl h
  · rw [List.append_assoc] at hr hle
    exact .inr ⟨packet ++ enc, hr, hle, hpacket enc henc⟩

/-- The loop ends; what it has written fits and is the packets of the row. -/
theorem encodeLoop_packets (hptr : ptr.length = left * bpp) (hrounds : left ≤ rounds)
    (hfits : out.length ≤ outSize) :
    Encoded c outSize bpp ptr out (encodeLoop c outSize bpp rounds left ptr out) := by
  induction rounds generalizing left ptr out with
  | zero =>
    obtain rfl := Nat.le_zero.1 hrounds
    obtain rfl : ptr = [] := List.length_eq_zero_iff.1 (by omega)
    exact .inr ⟨[], by rw [List.append_nil]; rfl, by simpa using hfits, .nil⟩
  | succ rounds ih =>
    rcases left with _ | left
    · obtain rfl : ptr = [] := List.length_eq_zero_iff.1 (by omega)
      exact .inr ⟨[], by rw [List.append_nil]; rfl, by simpa using hfits, .nil⟩
    -- what a packet takes, and what is left behind it
    have htake : ∀ count ≤ left + 1, (ptr.take (count * bpp)).length = count * bpp :=
      fun count hle => by
        rw [List.length_take, hptr, Nat.min_eq_left (Nat.mul_le_mul_right bpp hle)]
    have hdrop : ∀ count ≤ left + 1,
        (ptr.drop (count * bpp)).length = (left + 1 - count) * bpp := fun count hle => by
      rw [List.length_drop, hptr, Nat.sub_mul]
    rw [encodeLoop]
    dsimp only
    obtain ⟨hone, h127, hlen⟩ := same_bounds ptr bpp left.succ_pos
    -- a packet that repeats a pixel, or one with the pixels as they are
    by_cases hsame : 1 < ffRleCountPixels ptr (left + 1) bpp true
    · have hpx : (ptr.take bpp).length = bpp := by simpa using htake 1 (by omega)
      have hrun := take_of_same (countLoop_same ptr bpp (min 127 (left + 1) - 1) 1).2.2
      rw [if_pos hsame]
      split_ifs with hroom
      · exact .inl rfl
      · refine (ih (hdrop _ hlen) (by omega) ?_).packet fun enc henc => ?_
        · rw [List.length_append, List.length_cons, hpx]
          omega
        · have hrow := Packets.rep hsame h127 hpx henc
          rwa [ffRleCountPixels, ← hrun, List.take_append_drop] at hrow
    · obtain ⟨hone, h127, hlen⟩ := raw_bounds left.succ_pos (Nat.not_lt.1 hsame)
      rw [if_neg hsame, Nat.mul_comm bpp]
      split_ifs with hroom
      · exact .inl rfl
      · refine (ih (hdrop _ hlen) (by omega) ?_).packet fun enc henc => ?_
        · rw [List.length_append, List.length_cons, htake _ hlen]
          generalize ffRleCountPixels ptr (left + 1) bpp false * bpp = size at hroom ⊢
          omega
        · have hrow := Packets.raw (c := c) hone h127 (htake _ hlen) henc
          rwa [List.take_append_drop] at hrow

/-! ## Unpacking -/

theorem packbits_rep (hcount : 1 < count) (hle : count ≤ 127) :
    ¬ packbits.rep count < 128 ∧ packbits.rep count ≠ 128 ∧
      257 - (packbits.rep count).toNat = count := by
  interval_cases count <;> decide

theorem packbits_raw (hcount : 1 ≤ count) (hle : count ≤ 127) :
    packbits.raw count < 128 ∧ (packbits.raw count).toNat + 1 = count := by
  interval_cases count <;> decide

/-- A line is unpacked up to its last packet, whatever comes behind. -/
theorem unpackLine_packets (h : Packets packbits 1 enc row) (rest : Bytes)
    (hdst : dst.length + row.length = width) (hrounds : enc.length ≤ rounds) :
    unpackLine width rounds (enc ++ rest) dst = some (.ok (dst ++ row, rest)) := by
  induction h generalizing dst rounds with
  | nil =>
    have hwidth : width ≤ dst.length := by simpa using hdst.ge
    unfold unpackLine
    rw [if_pos hwidth, List.append_nil, List.nil_append]
  | @rep enc row px count hcount hle hpx h ih =>
    obtain ⟨b, rfl⟩ := List.length_eq_one_iff.1 hpx
    obtain ⟨hraw, hskip, hnumber⟩ := packbits_rep hcount hle
    have hflat : (List.replicate count [b]).flatten = List.replicate count b := by
      simp
    rw [hflat] at hdst ⊢
    simp only [List.length_append, List.length_replicate, List.length_cons] at hdst hrounds
    obtain ⟨rounds, rfl⟩ : ∃ n, rounds = n + 1 := ⟨rounds - 1, by omega⟩
    rw [List.cons_append, List.append_assoc, List.singleton_append, unpackLine,
      if_neg (show ¬ width ≤ dst.length by omega)]
    dsimp only
    rw [if_neg hraw, if_neg hskip, hnumber, if_neg (by omega),
      ih (by rw [List.length_append, List.length_replicate]; omega) (by omega), List.append_assoc]
  | @raw enc row pxs count hcount hle hpxs h ih =>
    obtain ⟨hcode, hnumber⟩ := packbits_raw hcount hle
    rw [Nat.mul_one] at hpxs
    simp only [List.length_append, List.length_cons, hpxs] at hdst hrounds
    obtain ⟨rounds, rfl⟩ : ∃ n, rounds = n + 1 := ⟨rounds - 1, by omega⟩
    obtain ⟨b, tail, rfl⟩ := List.exists_cons_of_length_pos (l := pxs) (by omega)
    have hsrc : b :: (tail ++ (enc ++ rest)) = (b :: tail) ++ (enc ++ rest) := rfl
    rw [List.cons_append, List.append_assoc, List.cons_append, unpackLine,
      if_neg (show ¬ width ≤ dst.length by omega)]
    dsimp only
    rw [if_pos hcode, hnumber, hsrc, if_neg (by rw [List.length_append, hpxs]; omega),
      List.drop_left' hpxs, List.take_left' hpxs,
      ih (by rw [List.length_append, hpxs]; omega) (by omega), List.append_assoc]

/-- The rows that are encoded behind `out` are unpacked from there on. -/
theorem encodeRows_unpacked {bufSize : Int} {rows : List Bytes}
    (hrows : ∀ row ∈ rows, row.length = width) (hfits : out.length ≤ bufSize) :
    encodeRows bufSize rows out = some (.error (-1)) ∨
      ∃ enc, encodeRows bufSize rows out = some (.ok (out ++ enc)) ∧
        (out ++ enc).length ≤ bufSize ∧ ∀ rest lines,
          unpackLines width rows.length (enc ++ rest) lines = some (.ok (lines ++ rows, rest)) := by
  induction rows generalizing out with
  | nil =>
    refine .inr ⟨[], by rw [List.append_nil]; rfl, by simpa using hfits, fun rest lines => ?_⟩
    rw [List.append_nil]
    rfl
  | cons row rows ih =>
    have hwidth := hrows row List.mem_cons_self
    have hroom : (([] : Bytes).length : Int) ≤ bufSize - out.length := by simpa using hfits
    rw [encodeRows, ffRleEncode]
    rcases encodeLoop_packets (c := packbits) (Nat.mul_one row.length).symm le_rfl hroom with
      hr | ⟨line, hr, hle, hpackets⟩
    · exact .inl (by rw [hr])
    · rw [hr, List.nil_append]
      rw [List.nil_append] at hle
      have hnext : ((out ++ line).length : Int) ≤ bufSize := by
        rw [List.length_append]
        omega
      rcases ih (fun row' h => hrows row' (List.mem_cons_of_mem _ h)) hnext with
        hr | ⟨enc, hr, hstrip, hunpack⟩
      · exact .inl hr
      · rw [List.append_assoc] at hr hstrip
        refine .inr ⟨line ++ enc, hr, hstrip, fun rest lines => ?_⟩
        rw [List.length_cons, unpackLines, List.append_assoc,
          unpackLine_packets hpackets (enc ++ rest) (by simpa using hwidth) (by simp)]
        dsimp only
        rw [hunpack, List.append_assoc]
        rfl

end FFmpeg.Libavcodec.Rle
