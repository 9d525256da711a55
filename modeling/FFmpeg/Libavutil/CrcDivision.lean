import FFmpeg.Common.BitPolynomial
import FFmpeg.Common.Bits
import FFmpeg.Libavutil.Crc

/-!
# A cyclic redundancy check is a remainder

`av_crc_init` and `av_crc` of `libavutil/crc.c` as they are built and called.  The check is a
register of 32 bits into which the message is fed bit by bit, byte-swapped when the most significant
bit comes first.  An entry of the table is what a byte makes of an empty register.
-/

namespace FFmpeg.Libavutil.Crc

open Common Polynomial
open Common.BitPolynomial (ofBits feed generator)

/-- `av_crc_init`, on a table `mem` of `ctxSize` bytes; `small` is `CONFIG_SMALL`.  Only the first
257 entries are always set. -/
def avCrcInitCtx (small le : Bool) (bits : Int) (poly : BitVec 32) (ctxSize : Int) (mem : AVCRC) :
    Option AVCRC :=
  if bits < 8 ∨ 32 < bits ∨ 2 ^ bits.toNat ≤ poly.toNat then none
  else if ctxSize ≠ 4 * 257 ∧ ctxSize ≠ 4 * 1024 then none
  else if small = false ∧ 4 * 1024 ≤ ctxSize then some (avCrcInit le bits.toNat poly)
  else
    some fun j i =>
      if j = 0 then firstEntry le bits.toNat poly i else if j = 1 ∧ i = 0 then 1 else mem j i

/-- `av_crc`; with `CONFIG_SMALL` it has the loop over the bytes only. -/
def avCrcCtx (small : Bool) (ctx : AVCRC) (address : Nat) (crc : BitVec 32) (buffer : Bytes) :
    BitVec 32 :=
  if small then buffer.foldl (stepByte ctx) crc else avCrc ctx address crc buffer

/-- The order of the bits in a byte. -/
def bitOrder (le : Bool) : BitOrder := if le then .lsbFirst else .msbFirst

/-- The register. -/
def register (le : Bool) (crc : BitVec 32) : BitVec 32 := if le then crc else avBswap32 crc

/-- Its bits, from the highest coefficient on. -/
def crcBits (le : Bool) (crc : BitVec 32) : List Bool :=
  bits (bitOrder le) 32 (register le crc).toNat

/-- The polynomial as the register sees it. -/
def polyBits (le : Bool) (bits : Nat) (poly : BitVec 32) : List Bool :=
  Common.bits (bitOrder le) 32 (if le then poly else poly <<< (32 - bits)).toNat

variable {le small : Bool} {width : Nat} {poly crc : BitVec 32} {ctx mem : AVCRC} {buffer : Bytes}

@[simp] theorem length_crcBits (le : Bool) (crc : BitVec 32) : (crcBits le crc).length = 32 :=
  length_bits _ _

@[simp] theorem length_polyBits (le : Bool) (width : Nat) (poly : BitVec 32) :
    (polyBits le width poly).length = 32 :=
  length_bits _ _

/-! ## The register -/

theorem toNat_append_byte {w : Nat} (x : BitVec w) (y : BitVec 8) :
    (x ++ y).toNat = 256 * x.toNat + y.toNat := by
  have hy : y.toNat < 2 ^ 8 := y.isLt
  rw [BitVec.toNat_append, ← Nat.shiftLeft_add_eq_or_of_lt hy, Nat.shiftLeft_eq]
  lia

theorem toNat_avBswap32 (x : BitVec 32) : (avBswap32 x).toNat = getBE (putLE 4 x.toNat) := by
  have hsecond : x.toNat / 256 / 256 = x.toNat / 65536 := Nat.div_div_eq_div_mul _ _ _
  have hthird : x.toNat / 65536 / 256 = x.toNat / 16777216 := Nat.div_div_eq_div_mul _ _ _
  simp only [avBswap32, toNat_append_byte, BitVec.extractLsb'_toNat, Nat.shiftRight_eq_div_pow,
    putLE, getBE, UInt8.toNat_ofNat', hsecond, hthird, List.length_cons, List.length_nil,
    Nat.reducePow, Nat.div_one]
  ring

theorem getLsbD_avBswap32 (x : BitVec 32) {i : Nat} (hi : i < 32) :
    (avBswap32 x).getLsbD i = x.getLsbD (8 * (3 - i / 8) + i % 8) := by
  unfold avBswap32
  simp only [BitVec.getLsbD_append, BitVec.getLsbD_extractLsb']
  by_cases ha : i < 8
  · simp [ha, show i / 8 = 0 by lia, show i % 8 = i by lia]
  by_cases hb : i < 16
  · simp [ha, show i - 8 < 8 by lia, show i / 8 = 1 by lia, show i % 8 = i - 8 by lia]
  by_cases hc : i < 24
  · simp [ha, Nat.sub_sub, show ¬ i - 8 < 8 by lia, show i - 16 < 8 by lia,
      show i / 8 = 2 by lia, show i % 8 = i - 16 by lia]
  · simp [ha, Nat.sub_sub, show ¬ i - 8 < 8 by lia, show ¬ i - 16 < 8 by lia,
      show i - 24 < 8 by lia, show i / 8 = 3 by lia, show i % 8 = i - 24 by lia]

theorem avBswap32_avBswap32 (x : BitVec 32) : avBswap32 (avBswap32 x) = x := by
  apply BitVec.eq_of_getLsbD_eq
  intro i hi
  rw [getLsbD_avBswap32 _ hi, getLsbD_avBswap32 _ (by lia)]
  congr 1
  omega

theorem crcBits_eq (le : Bool) (crc : BitVec 32) :
    crcBits le crc = bitsOfBytes (bitOrder le) (putLE 4 crc.toNat) := by
  cases le with
  | true => exact (bitsOfBytes_putBytes 4 crc.toNat).symm
  | false =>
    have hbytes : putBE 4 (avBswap32 crc).toNat = putLE 4 crc.toNat := by
      rw [toNat_avBswap32]
      exact putBE_getBE (putLE 4 crc.toNat)
    rw [bitOrder, if_neg Bool.false_ne_true, ← hbytes]
    exact (bitsOfBytes_putBytes 4 (avBswap32 crc).toNat).symm

theorem bits_xor (order : BitOrder) (w m n : Nat) :
    bits order w (m ^^^ n) = BitPolynomial.xor (bits order w m) (bits order w n) := by
  apply List.ext_getElem?
  intro i
  rw [getElem?_bits, BitPolynomial.xor, List.getElem?_zipWith, getElem?_bits, getElem?_bits]
  by_cases h : i < w
  · simp [h]
  · simp [h]

theorem crcBits_xor (le : Bool) (x y : BitVec 32) :
    crcBits le (x ^^^ y) = BitPolynomial.xor (crcBits le x) (crcBits le y) := by
  have hregister : register le (x ^^^ y) = register le x ^^^ register le y := by
    cases le with
    | true => rfl
    | false => exact avBswap32_xor x y
  rw [crcBits, hregister, BitVec.toNat_xor, bits_xor]
  rfl

theorem shift_of_split {g r : List Bool} {t : Bool} {l : List Bool} (h : l = [t] ++ r) :
    BitPolynomial.shift g l = if t then BitPolynomial.xor (r ++ [false]) g else r ++ [false] := by
  rw [h]
  rfl

/-- A round over a bit shifts the register. -/
theorem bits_bitStep (le : Bool) (width : Nat) (poly c : BitVec 32) :
    bits (bitOrder le) 32 (bitStep le width poly c).toNat =
      BitPolynomial.shift (polyBits le width poly) (bits (bitOrder le) 32 c.toNat) := by
  have hc := c.isLt
  cases le with
  | true =>
    have hrest : bits .lsbFirst 31 (c.toNat >>> 1) ++ [false] =
        bits .lsbFirst 32 (c >>> 1).toNat := by
      have hhigh : c.toNat >>> 1 >>> 31 = 0 := by
        rw [Nat.shiftRight_eq_div_pow, Nat.shiftRight_eq_div_pow]
        lia
      rw [BitVec.toNat_ushiftRight, bits_add_lsbFirst 31 1, hhigh]
      rfl
    have hsplit : bits (bitOrder true) 32 c.toNat =
        [c.getLsbD 0] ++ bits .lsbFirst 31 (c.toNat >>> 1) := bits_add_lsbFirst 1 31 c.toNat
    rw [shift_of_split hsplit, bitStep, if_pos rfl, neg_and_one]
    show _ = if c.getLsbD 0 then BitPolynomial.xor (bits .lsbFirst 31 (c.toNat >>> 1) ++ [false])
      (bits .lsbFirst 32 poly.toNat) else bits .lsbFirst 31 (c.toNat >>> 1) ++ [false]
    rw [hrest]
    cases c.getLsbD 0 with
    | true =>
      rw [if_pos rfl, if_pos rfl, BitVec.and_allOnes, BitVec.toNat_xor, bits_xor]
      rfl
    | false =>
      rw [if_neg Bool.false_ne_true, if_neg Bool.false_ne_true, BitVec.and_zero, BitVec.xor_zero]
      rfl
  | false =>
    have hrest : bits .msbFirst 31 c.toNat ++ [false] = bits .msbFirst 32 (c <<< 1).toNat := by
      have hhigh : bits .msbFirst 31 ((c.toNat <<< 1) >>> 1) = bits .msbFirst 31 c.toNat := by
        rw [Nat.shiftLeft_shiftRight]
      have hlow : bits .msbFirst 1 (c.toNat <<< 1) = [false] := by
        simp [bits, BitOrder.place]
      rw [BitVec.toNat_shiftLeft, bits_mod (Nat.le_refl 32), bits_add_msbFirst 31 1, hhigh, hlow]
    have hsign : c.sshiftRight 31 = if c.getLsbD 31 then BitVec.allOnes 32 else 0#32 := by
      apply BitVec.eq_of_getLsbD_eq
      intro i hi
      have hbit : (c.sshiftRight 31).getLsbD i = c.getLsbD 31 := by
        rw [BitVec.getLsbD_sshiftRight, BitVec.msb_eq_getLsbD_last]
        rcases Nat.eq_zero_or_pos i with rfl | hpos
        · simp
        · simp [show ¬ 31 + i < 32 by lia, hi]
      rw [hbit]
      cases c.getLsbD 31 with
      | true => rw [if_pos rfl, BitVec.getLsbD_allOnes, decide_eq_true hi]
      | false => simp
    have hfirst : (c.toNat >>> 31).testBit 0 = c.getLsbD 31 := Nat.testBit_shiftRight c.toNat
    have hsplit : bits (bitOrder false) 32 c.toNat =
        [c.getLsbD 31] ++ bits .msbFirst 31 c.toNat := by
      rw [← hfirst]
      exact bits_add_msbFirst 1 31 c.toNat
    rw [shift_of_split hsplit, bitStep, if_neg Bool.false_ne_true, hsign]
    show _ = if c.getLsbD 31 then BitPolynomial.xor (bits .msbFirst 31 c.toNat ++ [false])
      (bits .msbFirst 32 (poly <<< (32 - width)).toNat) else bits .msbFirst 31 c.toNat ++ [false]
    rw [hrest]
    cases c.getLsbD 31 with
    | true =>
      rw [if_pos rfl, if_pos rfl, BitVec.and_allOnes, BitVec.toNat_xor, bits_xor]
      rfl
    | false =>
      rw [if_neg Bool.false_ne_true, if_neg Bool.false_ne_true, BitVec.and_zero, BitVec.xor_zero]
      rfl

theorem bits_iterate (le : Bool) (width : Nat) (poly c : BitVec 32) (k : Nat) :
    bits (bitOrder le) 32 ((bitStep le width poly)^[k] c).toNat =
      (BitPolynomial.shift (polyBits le width poly))^[k] (bits (bitOrder le) 32 c.toNat) := by
  induction k generalizing c with
  | zero => rfl
  | succ k ih => rw [Function.iterate_succ_apply, ih, bits_bitStep, Function.iterate_succ_apply]

/-! ## Bytes -/

/-- An entry of the table is made from a byte in front of zeros. -/
theorem crcBits_firstEntry (le : Bool) (width : Nat) (poly : BitVec 32) (i : BitVec 8) :
    crcBits le (firstEntry le width poly i) =
      (BitPolynomial.shift (polyBits le width poly))^[8]
        (bits (bitOrder le) 8 i.toNat ++ List.replicate 24 false) := by
  have hi := i.isLt
  have hbyte : (i.setWidth 32).toNat = i.toNat := by
    rw [BitVec.toNat_setWidth, Nat.mod_eq_of_lt (by lia)]
  cases le with
  | true =>
    have hhigh : i.toNat >>> 8 = 0 := by
      rw [Nat.shiftRight_eq_div_pow]
      lia
    have hsplit : bits (bitOrder true) 32 i.toNat =
        bits (bitOrder true) 8 i.toNat ++ List.replicate 24 false := by
      have hadd := bits_add_lsbFirst 8 24 i.toNat
      rw [hhigh, bits_of_zero] at hadd
      exact hadd
    have hiterate := bits_iterate true width poly (i.setWidth 32) 8
    rw [hbyte, hsplit] at hiterate
    exact hiterate
  | false =>
    have hshift : (i.setWidth 32 <<< 24).toNat = i.toNat <<< 24 := by
      rw [BitVec.toNat_shiftLeft, hbyte, Nat.shiftLeft_eq]
      lia
    have hlow : bits .msbFirst 24 (i.toNat <<< 24) = bits .msbFirst 24 0 := by
      apply bits_congr
      intro k hk
      rw [Nat.testBit_shiftLeft, Nat.zero_testBit, decide_eq_false (by lia), Bool.false_and]
    have hsplit : bits (bitOrder false) 32 (i.toNat <<< 24) =
        bits (bitOrder false) 8 i.toNat ++ List.replicate 24 false := by
      have hadd := bits_add_msbFirst 8 24 (i.toNat <<< 24)
      rw [Nat.shiftLeft_shiftRight, hlow, bits_of_zero] at hadd
      exact hadd
    have hiterate := bits_iterate false width poly (i.setWidth 32 <<< 24) 8
    rw [hshift, hsplit] at hiterate
    rw [crcBits, register, if_neg Bool.false_ne_true, firstEntry, if_neg Bool.false_ne_true,
      avBswap32_avBswap32, hiterate]

/-- A step over a byte feeds its bits. -/
theorem crcBits_stepByte (hctx : ∀ i, ctx 0 i = firstEntry le width poly i) (crc : BitVec 32)
    (b : UInt8) :
    crcBits le (stepByte ctx crc b) =
      (bits (bitOrder le) 8 b.toNat).foldl (feed (polyBits le width poly)) (crcBits le crc) := by
  have hcrc := crc.isLt
  obtain ⟨rest, hrest⟩ :
      ∃ rest, rest = bitsOfBytes (bitOrder le) (putLE 3 (crc.toNat / 256)) := ⟨_, rfl⟩
  have hlength : rest.length = 24 := by rw [hrest, length_bitsOfBytes, length_putLE]
  have hbits : crcBits le crc = bits (bitOrder le) 8 crc.toNat ++ rest := by
    have hbyte : bits (bitOrder le) 8 (UInt8.ofNat crc.toNat).toNat =
        bits (bitOrder le) 8 crc.toNat := by
      rw [UInt8.toNat_ofNat']
      exact bits_mod (Nat.le_refl 8) _
    rw [crcBits_eq, hrest, ← hbyte]
    rfl
  have hshifted : crcBits le (crc >>> 8) = rest ++ List.replicate 8 false := by
    have hlast : UInt8.ofNat (crc.toNat / 256 / 256 ^ 3) = 0 := by
      rw [Nat.div_div_eq_div_mul, Nat.div_eq_of_lt (by lia)]
      rfl
    rw [crcBits_eq, BitVec.toNat_ushiftRight, Nat.shiftRight_eq_div_pow, putLE_concat 3, hlast,
      bitsOfBytes_append, ← hrest]
    congr 1
    exact bits_of_zero 8
  have hindex : bits (bitOrder le) 8 (crc.setWidth 8 ^^^ b.toBitVec).toNat =
      BitPolynomial.xor (bits (bitOrder le) 8 crc.toNat) (bits (bitOrder le) 8 b.toNat) := by
    rw [BitVec.toNat_xor, bits_xor, BitVec.toNat_setWidth, bits_mod (Nat.le_refl 8)]
    rfl
  obtain ⟨message, hmessage⟩ : ∃ m, m = bits (bitOrder le) 8 b.toNat := ⟨_, rfl⟩
  obtain ⟨first, hfirst⟩ : ∃ m, m = bits (bitOrder le) 8 crc.toNat := ⟨_, rfl⟩
  rw [← hmessage] at hindex ⊢
  rw [← hfirst] at hindex hbits
  have height : message.length = 8 := by rw [hmessage, length_bits]
  have hfirsts : first.length = 8 := by rw [hfirst, length_bits]
  have hboth : (BitPolynomial.xor first message).length = 8 := by
    rw [BitPolynomial.length_xor, height, hfirsts, Nat.min_self]
  -- the byte is added to the first eight bits; the others only move
  have hsum : BitPolynomial.xor (first ++ rest) (message ++ List.replicate 24 false) =
      BitPolynomial.xor (BitPolynomial.xor first message ++ List.replicate 24 false)
        (List.replicate 8 false ++ rest) := by
    have hzeros := BitPolynomial.xor_zeros (BitPolynomial.xor first message)
    have hrest := BitPolynomial.xor_zeros rest
    rw [hboth] at hzeros
    rw [hlength] at hrest
    rw [BitPolynomial.xor_append (hfirsts.trans height.symm), hrest,
      BitPolynomial.xor_append (by rw [hboth, List.length_replicate]), hzeros,
      BitPolynomial.xor_comm _ rest, hrest]
  have hmoved : (BitPolynomial.shift (polyBits le width poly))^[8]
      (List.replicate 8 false ++ rest) = rest ++ List.replicate 8 false :=
    BitPolynomial.shift_iterate_zeros _ 8 rest
  have hentry : (BitPolynomial.xor first message ++ List.replicate 24 false).length =
      (polyBits le width poly).length := by
    rw [List.length_append, hboth, List.length_replicate, length_polyBits]
  have hothers : (List.replicate 8 false ++ rest).length = (polyBits le width poly).length := by
    rw [List.length_append, hlength, List.length_replicate, length_polyBits]
  rw [BitPolynomial.foldl_feed (by rw [length_crcBits, length_polyBits])
    (by rw [height, length_polyBits]; decide), height, length_polyBits, hbits, hsum,
    BitPolynomial.shift_iterate_xor hentry hothers, hmoved, stepByte, crcBits_xor, hctx,
    crcBits_firstEntry, hindex, hshifted]

theorem crcBits_foldl (hctx : ∀ i, ctx 0 i = firstEntry le width poly i) (crc : BitVec 32)
    (buffer : Bytes) :
    crcBits le (buffer.foldl (stepByte ctx) crc) =
      (bitsOfBytes (bitOrder le) buffer).foldl (feed (polyBits le width poly))
        (crcBits le crc) := by
  induction buffer generalizing crc with
  | nil => rfl
  | cons b buffer ih =>
    rw [List.foldl_cons, ih, crcBits_stepByte hctx, ← List.foldl_append]
    rfl

/-! ## The remainder -/

/-- The polynomial that was given. -/
noncomputable def divisor (le : Bool) (width : Nat) (poly : BitVec 32) : (ZMod 2)[X] :=
  generator (bits (bitOrder le) width poly.toNat)

theorem polyBits_eq (le : Bool) (hwidth : width ≤ 32) (hpoly : poly.toNat < 2 ^ width) :
    polyBits le width poly =
      bits (bitOrder le) width poly.toNat ++ List.replicate (32 - width) false := by
  have hsum : width + (32 - width) = 32 := Nat.add_sub_of_le hwidth
  cases le with
  | true =>
    have hhigh : poly.toNat >>> width = 0 := by
      rw [Nat.shiftRight_eq_div_pow, Nat.div_eq_of_lt hpoly]
    have hadd := bits_add_lsbFirst width (32 - width) poly.toNat
    rw [hhigh, bits_of_zero, hsum] at hadd
    exact hadd
  | false =>
    have hfits : poly.toNat <<< (32 - width) < 2 ^ 32 := by
      calc poly.toNat <<< (32 - width) = poly.toNat * 2 ^ (32 - width) := Nat.shiftLeft_eq _ _
        _ < 2 ^ width * 2 ^ (32 - width) :=
          Nat.mul_lt_mul_of_pos_right hpoly (Nat.two_pow_pos _)
        _ = 2 ^ 32 := by rw [← pow_add, hsum]
    have hlow : bits .msbFirst (32 - width) (poly.toNat <<< (32 - width)) =
        bits .msbFirst (32 - width) 0 := by
      apply bits_congr
      intro k hk
      rw [Nat.testBit_shiftLeft, Nat.zero_testBit, decide_eq_false (by lia), Bool.false_and]
    have hadd := bits_add_msbFirst width (32 - width) (poly.toNat <<< (32 - width))
    rw [Nat.shiftLeft_shiftRight, hlow, bits_of_zero, hsum] at hadd
    rw [polyBits, if_neg Bool.false_ne_true, BitVec.toNat_shiftLeft, Nat.mod_eq_of_lt hfits]
    exact hadd

theorem generator_polyBits (le : Bool) (hwidth : width ≤ 32) (hpoly : poly.toNat < 2 ^ width) :
    generator (polyBits le width poly) = X ^ (32 - width) * divisor le width poly := by
  have hpower : (X : (ZMod 2)[X]) ^ 32 = X ^ (32 - width) * X ^ width := by
    rw [← pow_add, Nat.sub_add_cancel hwidth]
  rw [generator, divisor, generator, length_polyBits, polyBits_eq le hwidth hpoly,
    BitPolynomial.ofBits_append, BitPolynomial.ofBits_zeros, List.length_replicate, length_bits,
    hpower]
  ring

section Init

variable {bits ctxSize : Int}

theorem bounds_of_avCrcInitCtx (h : avCrcInitCtx small le bits poly ctxSize mem = some ctx) :
    8 ≤ bits ∧ bits ≤ 32 ∧ poly.toNat < 2 ^ bits.toNat := by
  unfold avCrcInitCtx at h
  split_ifs at h <;> lia

theorem firstEntry_of_avCrcInitCtx (h : avCrcInitCtx small le bits poly ctxSize mem = some ctx)
    (i : BitVec 8) : ctx 0 i = firstEntry le bits.toNat poly i := by
  unfold avCrcInitCtx at h
  split_ifs at h
  · rw [← Option.some.inj h]
    rfl
  · rw [← Option.some.inj h]
    rfl

theorem avCrcCtx_eq (h : avCrcInitCtx small le bits poly ctxSize mem = some ctx) (address : Nat)
    (crc : BitVec 32) (buffer : Bytes) :
    avCrcCtx small ctx address crc buffer = buffer.foldl (stepByte ctx) crc := by
  unfold avCrcCtx
  unfold avCrcInitCtx at h
  split_ifs at h with hargs hsize hsliced
  · -- the whole table: the loop over the words may run
    rw [if_neg (by simp [hsliced.1]), ← Option.some.inj h]
    exact (linear_avCrcInit le bits.toNat poly).avCrc_eq address crc buffer
  · -- the mark at 256 is one
    have hmark : ctx 1 0 ≠ 0 := by
      rw [← Option.some.inj h]
      simp
    rw [avCrc, if_neg hmark, ite_self]

/-- **`av_crc` is the remainder of the division by the polynomial**, bit by bit, whichever loops
run and wherever the bytes lie; so a buffer may be given in pieces. -/
theorem avCrc_remainder (h : avCrcInitCtx small le bits poly ctxSize mem = some ctx)
    (address : Nat) (crc : BitVec 32) (buffer : Bytes) :
    crcBits le (avCrcCtx small ctx address crc buffer) =
        (bitsOfBytes (bitOrder le) buffer).foldl (feed (polyBits le bits.toNat poly))
          (crcBits le crc) ∧
      ofBits (crcBits le (avCrcCtx small ctx address crc buffer)) =
        (ofBits (crcBits le crc) * X ^ (8 * buffer.length) +
            ofBits (bitsOfBytes (bitOrder le) buffer) * X ^ 32) %ₘ
          (X ^ (32 - bits.toNat) * divisor le bits.toNat poly) ∧
      avCrcCtx small ctx address crc buffer = buffer.foldl (stepByte ctx) crc ∧
      ∀ address' address'' A B, buffer = A ++ B →
        avCrcCtx small ctx address'' (avCrcCtx small ctx address' crc A) B =
          avCrcCtx small ctx address crc buffer := by
  obtain ⟨-, hwidth, hpoly⟩ := bounds_of_avCrcInitCtx h
  have hfeed : crcBits le (avCrcCtx small ctx address crc buffer) =
      (bitsOfBytes (bitOrder le) buffer).foldl (feed (polyBits le bits.toNat poly))
        (crcBits le crc) := by
    rw [avCrcCtx_eq h]
    exact crcBits_foldl (firstEntry_of_avCrcInitCtx h) crc buffer
  refine ⟨hfeed, ?_, avCrcCtx_eq h address crc buffer, ?_⟩
  · have hlength : (crcBits le crc).length = (polyBits le bits.toNat poly).length := by simp
    rw [hfeed, BitPolynomial.ofBits_foldl_feed hlength, length_bitsOfBytes, length_polyBits,
      generator_polyBits le (by lia) hpoly]
  · rintro address' address'' A B rfl
    rw [avCrcCtx_eq h, avCrcCtx_eq h, avCrcCtx_eq h, List.foldl_append]

/-- The polynomial of the ANSI check, in little endian, with the whole table. -/
theorem avCrc_remainder_ansi :
    avCrcInitCtx false true 16 0xA001#32 (4 * 1024) (fun _ _ => 0) =
        some (avCrcInit true 16 0xA001#32) ∧
      avCrcCtx false (avCrcInit true 16 0xA001#32) 1
          (avCrcCtx false (avCrcInit true 16 0xA001#32) 3 0 [1, 2]) [3, 4, 5, 6, 7] =
        avCrcCtx false (avCrcInit true 16 0xA001#32) 2 0 [1, 2, 3, 4, 5, 6, 7] := by
  have hinit : avCrcInitCtx false true 16 0xA001#32 (4 * 1024) (fun _ _ => 0) =
      some (avCrcInit true 16 0xA001#32) := by
    simp [avCrcInitCtx]
  exact ⟨hinit, (avCrc_remainder hinit 2 0 [1, 2, 3, 4, 5, 6, 7]).2.2.2 3 1 [1, 2]
    [3, 4, 5, 6, 7] rfl⟩

end Init

end FFmpeg.Libavutil.Crc
