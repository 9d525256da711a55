import FFmpeg.Libavutil.CrcDivision

/-!
# Which errors a check detects

The tables of `av_crc_get_table` belong to polynomials with a constant coefficient, so the checks of
two buffers are the same exactly when the polynomial divides what is different.
-/

namespace FFmpeg.Libavutil.Crc

open Common Polynomial
open Common.BitPolynomial (ofBits generator)

/-- `AVCRCId`. -/
inductive AVCRCId
  | crc8Atm
  | crc16Ansi
  | crc16Ccitt
  | crc32Ieee
  | crc32IeeeLe
  | crc16AnsiLe
  | crc24Ieee
  | crc8Ebu
  deriving DecidableEq, Repr

/-- The arguments of `DECLARE_CRC_INIT_TABLE_ONCE`. -/
structure CrcTable where
  le : Bool
  bits : Nat
  poly : BitVec 32
  deriving DecidableEq, Repr

/-- `DECLARE_CRC_INIT_TABLE_ONCE`. -/
def crcTable : AVCRCId → CrcTable
  | .crc8Atm => ⟨false, 8, 0x07#32⟩
  | .crc8Ebu => ⟨false, 8, 0x1D#32⟩
  | .crc16Ansi => ⟨false, 16, 0x8005#32⟩
  | .crc16Ccitt => ⟨false, 16, 0x1021#32⟩
  | .crc24Ieee => ⟨false, 24, 0x864CFB#32⟩
  | .crc32Ieee => ⟨false, 32, 0x04C11DB7#32⟩
  | .crc32IeeeLe => ⟨true, 32, 0xEDB88320#32⟩
  | .crc16AnsiLe => ⟨true, 16, 0xA001#32⟩

/-- `av_crc_get_table`. -/
def avCrcGetTable (small : Bool) (id : AVCRCId) : Option AVCRC :=
  avCrcInitCtx small (crcTable id).le (crcTable id).bits (crcTable id).poly
    (4 * if small then 257 else 1024) fun _ _ => 0

/-- The buffers are the same but for a burst of `n` bits. -/
def Burst (order : BitOrder) (n : Nat) (A B : Bytes) : Prop :=
  ∃ a e b, e.length = n ∧ true ∈ e ∧ a + n + b = 8 * A.length ∧
    bitsOfBytes order B = BitPolynomial.xor (bitsOfBytes order A)
      (List.replicate a false ++ e ++ List.replicate b false)

variable {l m : List Bool} {id : AVCRCId} {le small : Bool} {bits ctxSize : Int}
  {poly : BitVec 32} {ctx mem : AVCRC} {A B : Bytes}

theorem ofBits_injective (hlength : l.length = m.length) (h : ofBits l = ofBits m) : l = m := by
  induction l generalizing m with
  | nil => exact (List.length_eq_zero_iff.1 hlength.symm).symm
  | cons a l ih =>
    obtain ⟨b, m, rfl⟩ := List.exists_cons_of_length_eq_add_one hlength.symm
    have hrest : l.length = m.length := Nat.succ.inj hlength
    have hlow : ∀ k : List Bool, (ofBits k).coeff k.length = 0 := fun k =>
      coeff_eq_zero_of_degree_lt (BitPolynomial.degree_ofBits_lt k)
    rw [BitPolynomial.ofBits_cons, BitPolynomial.ofBits_cons, hrest] at h
    have hfirst : BitPolynomial.bit a = BitPolynomial.bit b := by
      have hcoeff := congrArg (fun p => p.coeff m.length) h
      simpa [hlow m, hrest ▸ hlow l] using hcoeff
    obtain rfl : a = b := by
      revert hfirst
      cases a <;> cases b <;> decide
    rw [ih hrest (add_left_cancel h)]

theorem crcBits_injective {x y : BitVec 32} (h : crcBits le x = crcBits le y) : x = y := by
  have hregister := BitVec.eq_of_toNat_eq
    (bits_injective (register le x).isLt (register le y).isLt h)
  cases le with
  | true => exact hregister
  | false =>
    rw [← avBswap32_avBswap32 x, ← avBswap32_avBswap32 y]
    exact congrArg avBswap32 hregister

theorem isCoprime_divisor {width : Nat}
    (hlast : (Common.bits (bitOrder le) width poly.toNat).getLast? = some true) :
    IsCoprime X (divisor le width poly) := by
  obtain ⟨l, hl⟩ := List.getLast?_eq_some_iff.1 hlast
  refine ⟨-(X ^ l.length + ofBits l), 1, ?_⟩
  rw [divisor, hl, generator, BitPolynomial.ofBits_append, List.length_append,
    List.length_singleton, pow_succ]
  simp [BitPolynomial.bit]
  ring

/-- Where the polynomial has a constant coefficient, it divides what two buffers with the same check
differ in. -/
theorem avCrcCtx_same_iff (h : avCrcInitCtx small le bits poly ctxSize mem = some ctx)
    (hcoprime : IsCoprime X (divisor le bits.toNat poly)) (crc : BitVec 32)
    (address address' : Nat) (hlength : A.length = B.length) :
    avCrcCtx small ctx address crc A = avCrcCtx small ctx address' crc B ↔
      divisor le bits.toNat poly ∣
        ofBits (bitsOfBytes (bitOrder le) A) - ofBits (bitsOfBytes (bitOrder le) B) := by
  obtain ⟨-, hwidth, hpoly⟩ := bounds_of_avCrcInitCtx h
  have hremainder : ∀ address (buffer : Bytes),
      ofBits (crcBits le (avCrcCtx small ctx address crc buffer)) =
        (ofBits (crcBits le crc) * X ^ (8 * buffer.length) +
          ofBits (bitsOfBytes (bitOrder le) buffer) * X ^ 32) %ₘ
            generator (polyBits le bits.toNat poly) := fun address buffer => by
    rw [avCrcCtx_eq h, crcBits_foldl (firstEntry_of_avCrcInitCtx h),
      BitPolynomial.ofBits_foldl_feed (by simp), length_bitsOfBytes, length_polyBits]
  have hsame : avCrcCtx small ctx address crc A = avCrcCtx small ctx address' crc B ↔
      ofBits (crcBits le (avCrcCtx small ctx address crc A)) =
        ofBits (crcBits le (avCrcCtx small ctx address' crc B)) :=
    ⟨fun h => by rw [h], fun h => crcBits_injective (ofBits_injective (by simp) h)⟩
  have hmonic := BitPolynomial.monic_generator (polyBits le bits.toNat poly)
  have hdvd : ∀ p q : (ZMod 2)[X], p %ₘ generator (polyBits le bits.toNat poly) =
      q %ₘ generator (polyBits le bits.toNat poly) ↔
        generator (polyBits le bits.toNat poly) ∣ p - q :=
    fun p q => by rw [← modByMonic_eq_zero_iff_dvd hmonic, sub_modByMonic, sub_eq_zero]
  -- the register is as wide as the longest divisor; a shorter one is shifted to its end
  have hpower : (X : (ZMod 2)[X]) ^ 32 = X ^ (32 - bits.toNat) * X ^ bits.toNat := by
    rw [← pow_add, Nat.sub_add_cancel (by omega)]
  rw [hsame, hremainder, hremainder, hlength, hdvd, add_sub_add_left_eq_sub, ← sub_mul,
    generator_polyBits le (by omega) hpoly, hpower, mul_left_comm,
    mul_dvd_mul_iff_left (pow_ne_zero _ X_ne_zero)]
  exact ⟨hcoprime.symm.pow_right.dvd_of_dvd_mul_right, fun h => h.mul_right _⟩

theorem avCrcCtx_ne_of_burst {n : Nat} (h : avCrcInitCtx small le bits poly ctxSize mem = some ctx)
    (hcoprime : IsCoprime X (divisor le bits.toNat poly)) (hn : n ≤ bits)
    (hburst : Burst (bitOrder le) n A B) (crc : BitVec 32) (address address' : Nat) :
    avCrcCtx small ctx address crc A ≠ avCrcCtx small ctx address' crc B := by
  obtain ⟨a, e, b, he, htrue, hsum, hbits⟩ := hburst
  have herror : (List.replicate a false ++ e ++ List.replicate b false).length = 8 * A.length := by
    simpa [he, Nat.add_assoc] using hsum
  have hlength : A.length = B.length := by
    have hcount := congrArg List.length hbits
    rw [BitPolynomial.length_xor, herror, length_bitsOfBytes, length_bitsOfBytes] at hcount
    omega
  have hvalue := congrArg ofBits hbits
  rw [BitPolynomial.ofBits_xor (by rw [herror, length_bitsOfBytes]), BitPolynomial.ofBits_append,
    BitPolynomial.ofBits_append, BitPolynomial.ofBits_zeros, BitPolynomial.ofBits_zeros, zero_mul,
    zero_add, add_zero] at hvalue
  intro hsame
  rw [avCrcCtx_same_iff h hcoprime crc address address' hlength, hvalue, sub_add_cancel_left,
    dvd_neg] at hsame
  -- a burst is a power of the variable times a polynomial of a lower degree than the divisor
  have hdvd := hcoprime.symm.pow_right.dvd_of_dvd_mul_right hsame
  refine (BitPolynomial.monic_generator _).not_dvd_of_degree_lt (fun hzero => ?_) ?_ hdvd
  · have hfalse := ofBits_injective (by simp) (hzero.trans (BitPolynomial.ofBits_zeros e.length).symm)
    rw [hfalse] at htrue
    exact absurd (List.eq_of_mem_replicate htrue) (by decide)
  · rw [BitPolynomial.degree_generator, length_bits]
    refine (BitPolynomial.degree_ofBits_lt e).trans_le ?_
    exact_mod_cast show e.length ≤ bits.toNat by omega

/-- **Every burst of errors that is no longer than the check is detected**, whatever the buffer and
wherever it lies. -/
theorem avCrcGetTable_burst {n : Nat} (h : avCrcGetTable small id = some ctx)
    (hn : n ≤ (crcTable id).bits) (hburst : Burst (bitOrder (crcTable id).le) n A B)
    (crc : BitVec 32) (address address' : Nat) :
    avCrcCtx small ctx address crc A ≠ avCrcCtx small ctx address' crc B := by
  have hlast : (Common.bits (bitOrder (crcTable id).le) (crcTable id).bits
      (crcTable id).poly.toNat).getLast? = some true := by
    cases id <;> rfl
  exact avCrcCtx_ne_of_burst h (isCoprime_divisor hlast) (by exact_mod_cast hn) hburst crc _ _

/-- Two bits next to each other. -/
theorem avCrcGetTable_burst_two :
    avCrcCtx false (avCrcInit true 16 0xA001#32) 0 7 [1, 2] ≠
      avCrcCtx false (avCrcInit true 16 0xA001#32) 1 7 [1, 26] :=
  @avCrcGetTable_burst .crc16AnsiLe false _ _ _ 2
    (by simp [avCrcGetTable, crcTable, avCrcInitCtx]) (by decide)
    ⟨11, [true, true], 3, rfl, by simp, rfl, by decide⟩ 7 0 1

end FFmpeg.Libavutil.Crc
