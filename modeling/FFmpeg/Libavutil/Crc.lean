import FFmpeg.Common.Bytes

/-!
# Cyclic redundancy checks

The tables and the loops of `libavutil/crc.c`.  Of the 1024 entries of a table those from
`256 * j` on belong to the byte that is `j` bytes in front of the last one of a word.  A
step over a byte is linear, so the loop that takes words does the same as the one that
takes bytes, and a check that is followed by its own value ends at zero.
-/

namespace FFmpeg.Libavutil.Crc

open Common

/-- `AVCRC *`: the entry at `256 * j + i`. -/
abbrev AVCRC := Nat → BitVec 8 → BitVec 32

/-- `av_bswap32`. -/
def avBswap32 (x : BitVec 32) : BitVec 32 :=
  x.extractLsb' 0 8 ++ x.extractLsb' 8 8 ++ x.extractLsb' 16 8 ++ x.extractLsb' 24 8

/-- A round of the loops over the bits of an entry. -/
def bitStep (le : Bool) (bits : Nat) (poly c : BitVec 32) : BitVec 32 :=
  if le then (c >>> 1) ^^^ (poly &&& -(c &&& 1#32))
  else (c <<< 1) ^^^ ((poly <<< (32 - bits)) &&& c.sshiftRight 31)

/-- The first 256 entries. -/
def firstEntry (le : Bool) (bits : Nat) (poly : BitVec 32) (i : BitVec 8) : BitVec 32 :=
  if le then (bitStep le bits poly)^[8] (i.setWidth 32)
  else avBswap32 ((bitStep le bits poly)^[8] (i.setWidth 32 <<< 24))

/-- The table that `av_crc_init` makes, with all of its entries. -/
def avCrcInit (le : Bool) (bits : Nat) (poly : BitVec 32) : AVCRC
  | 0, i => firstEntry le bits poly i
  | j + 1, i =>
    let entry := avCrcInit le bits poly j i
    (entry >>> 8) ^^^ firstEntry le bits poly (entry.setWidth 8)

/-- A step over a byte. -/
def stepByte (ctx : AVCRC) (crc : BitVec 32) (b : UInt8) : BitVec 32 :=
  ctx 0 (crc.setWidth 8 ^^^ b.toBitVec) ^^^ (crc >>> 8)

/-- `*(const uint32_t *) buffer`, in little endian. -/
def loadLE (b₀ b₁ b₂ b₃ : UInt8) : BitVec 32 :=
  b₃.toBitVec ++ b₂.toBitVec ++ b₁.toBitVec ++ b₀.toBitVec

/-- A step over a word. -/
def stepWord (ctx : AVCRC) (crc : BitVec 32) (b₀ b₁ b₂ b₃ : UInt8) : BitVec 32 :=
  let crc := crc ^^^ loadLE b₀ b₁ b₂ b₃
  ctx 3 (crc.extractLsb' 0 8) ^^^ ctx 2 (crc.extractLsb' 8 8) ^^^ ctx 1 (crc.extractLsb' 16 8) ^^^
    ctx 0 (crc.extractLsb' 24 8)

/-- The loop over the words, and the one over the bytes that are left. -/
def stepWords (ctx : AVCRC) (crc : BitVec 32) : Bytes → BitVec 32
  | b₀ :: b₁ :: b₂ :: b₃ :: rest => stepWords ctx (stepWord ctx crc b₀ b₁ b₂ b₃) rest
  | rest => rest.foldl (stepByte ctx) crc

/-- `av_crc`, on bytes that lie at an address; the words are aligned. -/
def avCrc (ctx : AVCRC) (address : Nat) (crc : BitVec 32) (buffer : Bytes) : BitVec 32 :=
  if ctx 1 0 = 0 then
    let unaligned := buffer.take ((4 - address % 4) % 4)
    stepWords ctx (unaligned.foldl (stepByte ctx) crc) (buffer.drop ((4 - address % 4) % 4))
  else buffer.foldl (stepByte ctx) crc

/-- `av_crc_get_table(AV_CRC_32_IEEE)`. -/
def avCrc32Ieee : AVCRC := avCrcInit false 32 0x04C11DB7#32

/-! ## Linearity -/

theorem and_xor_distrib (x y z : BitVec 32) : x &&& (y ^^^ z) = (x &&& y) ^^^ (x &&& z) := by
  ext i hi
  simp only [BitVec.getElem_and, BitVec.getElem_xor]
  cases x[i] <;> simp

theorem xor_xor_xor (a b c d : BitVec 32) : (a ^^^ b) ^^^ (c ^^^ d) = (a ^^^ c) ^^^ (b ^^^ d) := by
  rw [BitVec.xor_assoc, BitVec.xor_assoc, ← BitVec.xor_assoc b c d, BitVec.xor_comm b c,
    BitVec.xor_assoc]

theorem neg_and_one (c : BitVec 32) :
    -(c &&& 1#32) = if c.getLsbD 0 then BitVec.allOnes 32 else 0#32 := by
  rw [BitVec.and_one_eq_setWidth_ofBool_getLsbD]
  cases c.getLsbD 0 <;> rfl

theorem neg_and_one_xor (x y : BitVec 32) :
    -((x ^^^ y) &&& 1#32) = -(x &&& 1#32) ^^^ -(y &&& 1#32) := by
  rw [neg_and_one, neg_and_one, neg_and_one, BitVec.getLsbD_xor]
  cases x.getLsbD 0 <;> cases y.getLsbD 0 <;> rfl

theorem bitStep_xor (le : Bool) (bits : Nat) (poly x y : BitVec 32) :
    bitStep le bits poly (x ^^^ y) = bitStep le bits poly x ^^^ bitStep le bits poly y := by
  unfold bitStep
  cases le with
  | true =>
    rw [if_pos rfl, if_pos rfl, if_pos rfl, BitVec.ushiftRight_xor_distrib, neg_and_one_xor,
      and_xor_distrib, xor_xor_xor]
  | false =>
    rw [if_neg Bool.false_ne_true, if_neg Bool.false_ne_true, if_neg Bool.false_ne_true,
      BitVec.shiftLeft_xor_distrib, BitVec.sshiftRight_xor_distrib, and_xor_distrib, xor_xor_xor]

theorem iterate_xor {f : BitVec 32 → BitVec 32} (h : ∀ x y, f (x ^^^ y) = f x ^^^ f y) (n : Nat)
    (x y : BitVec 32) : f^[n] (x ^^^ y) = f^[n] x ^^^ f^[n] y := by
  induction n generalizing x y with
  | zero => rfl
  | succ n ih => rw [Function.iterate_succ_apply, h, ih]; rfl

theorem avBswap32_xor (x y : BitVec 32) : avBswap32 (x ^^^ y) = avBswap32 x ^^^ avBswap32 y := by
  have happend : ∀ a b c d a' b' c' d' : BitVec 8,
      (a ^^^ a') ++ (b ^^^ b') ++ (c ^^^ c') ++ (d ^^^ d') =
        (a ++ b ++ c ++ d) ^^^ (a' ++ b' ++ c' ++ d') := by
    intro a b c d a' b' c' d'
    simp only [BitVec.xor_append]
  unfold avBswap32
  simp only [BitVec.extractLsb'_xor]
  exact happend _ _ _ _ _ _ _ _

theorem firstEntry_xor (le : Bool) (bits : Nat) (poly : BitVec 32) (i j : BitVec 8) :
    firstEntry le bits poly (i ^^^ j) = firstEntry le bits poly i ^^^ firstEntry le bits poly j :=
        by
  have hbit := bitStep_xor le bits poly
  unfold firstEntry
  cases le with
  | true =>
    rw [if_pos rfl, if_pos rfl, if_pos rfl, BitVec.setWidth_xor, iterate_xor hbit]
  | false =>
    rw [if_neg Bool.false_ne_true, if_neg Bool.false_ne_true, if_neg Bool.false_ne_true,
      BitVec.setWidth_xor, BitVec.shiftLeft_xor_distrib, iterate_xor hbit, avBswap32_xor]

/-! ## Words and bytes -/

section Linear

variable {ctx : AVCRC}

/-- A table whose first part is linear, with the other parts made from it. -/
structure Linear (ctx : AVCRC) : Prop where
  xor : ∀ i j, ctx 0 (i ^^^ j) = ctx 0 i ^^^ ctx 0 j
  succ : ∀ j i, ctx (j + 1) i = (ctx j i >>> 8) ^^^ ctx 0 ((ctx j i).setWidth 8)

theorem linear_avCrcInit (le : Bool) (bits : Nat) (poly : BitVec 32) :
    Linear (avCrcInit le bits poly) :=
  ⟨firstEntry_xor le bits poly, fun _ _ => rfl⟩

theorem Linear.zero (h : Linear ctx) : ctx 0 0#8 = 0#32 := by
  have hxor := h.xor 0#8 0#8
  rwa [BitVec.xor_self, BitVec.xor_self] at hxor

/-- A step over a zero byte. -/
def shiftByte (ctx : AVCRC) (crc : BitVec 32) : BitVec 32 :=
  ctx 0 (crc.setWidth 8) ^^^ (crc >>> 8)

theorem Linear.shiftByte_xor (h : Linear ctx) (x y : BitVec 32) :
    shiftByte ctx (x ^^^ y) = shiftByte ctx x ^^^ shiftByte ctx y := by
  unfold shiftByte
  rw [BitVec.setWidth_xor, h.xor, BitVec.ushiftRight_xor_distrib, xor_xor_xor]

theorem stepByte_eq (ctx : AVCRC) (crc : BitVec 32) (b : UInt8) :
    stepByte ctx crc b = shiftByte ctx (crc ^^^ b.toBitVec.setWidth 32) := by
  have hlow : (b.toBitVec.setWidth 32).setWidth 8 = b.toBitVec := by
    ext i hi
    simp
  have hhigh : b.toBitVec.setWidth 32 >>> 8 = 0#32 := by
    ext i hi
    simp
  unfold stepByte shiftByte
  rw [BitVec.setWidth_xor, hlow, BitVec.ushiftRight_xor_distrib, hhigh, BitVec.xor_zero]

theorem Linear.shiftByte_of_low (h : Linear ctx) {x : BitVec 32} (hx : x.setWidth 8 = 0#8) :
    shiftByte ctx x = x >>> 8 := by
  rw [shiftByte, hx, h.zero, BitVec.zero_xor]

theorem Linear.shiftByte_shiftLeft (h : Linear ctx) (b : BitVec 8) {j : Nat} (hj : j < 3) :
    shiftByte ctx (b.setWidth 32 <<< (8 * (j + 1))) = b.setWidth 32 <<< (8 * j) := by
  have hbyte := b.isLt
  have hlow : (b.setWidth 32 <<< (8 * (j + 1))).setWidth 8 = 0#8 := by
    ext i hi
    simp
  rw [h.shiftByte_of_low hlow]
  apply BitVec.eq_of_toNat_eq
  rw [BitVec.toNat_ushiftRight, BitVec.toNat_shiftLeft, BitVec.toNat_shiftLeft,
    BitVec.toNat_setWidth, Nat.shiftLeft_eq, Nat.shiftLeft_eq, Nat.shiftRight_eq_div_pow]
  interval_cases j <;> lia

theorem Linear.shiftByte_iterate (h : Linear ctx) (j : Nat) (i : BitVec 8) :
    (shiftByte ctx)^[j + 1] (i.setWidth 32) = ctx j i := by
  induction j with
  | zero =>
    have hlow : (i.setWidth 32).setWidth 8 = i := by
      ext k hk
      simp
    have hhigh : i.setWidth 32 >>> 8 = 0#32 := by
      ext k hk
      simp
    show shiftByte ctx (i.setWidth 32) = _
    rw [shiftByte, hlow, hhigh, BitVec.xor_zero]
  | succ j ih =>
    rw [Function.iterate_succ_apply', ih, h.succ, shiftByte, BitVec.xor_comm]

/-- Four bytes, the first of them lowest, pass as one word. -/
theorem Linear.shiftByte_word (h : Linear ctx) (a b c d : BitVec 8) :
    (shiftByte ctx)^[4] (d ++ c ++ b ++ a) = ctx 3 a ^^^ ctx 2 b ^^^ ctx 1 c ^^^ ctx 0 d := by
  have hword : d ++ c ++ b ++ a = a.setWidth 32 ^^^ b.setWidth 32 <<< 8 ^^^ c.setWidth 32 <<< 16 ^^^
      d.setWidth 32 <<< 24 := by
    apply BitVec.eq_of_getLsbD_eq
    intro i hi
    have ha' : 8 ≤ i → a.getLsbD i = false := BitVec.getLsbD_of_ge a i
    have hb' : 8 ≤ i - 8 → b.getLsbD (i - 8) = false := BitVec.getLsbD_of_ge b (i - 8)
    have hc' : 8 ≤ i - 16 → c.getLsbD (i - 16) = false := BitVec.getLsbD_of_ge c (i - 16)
    simp only [BitVec.getLsbD_append, BitVec.getLsbD_xor, BitVec.getLsbD_shiftLeft,
      BitVec.getLsbD_setWidth]
    by_cases ha : i < 8
    · simp [ha, hi, show i < 16 by lia, show i < 24 by lia]
    by_cases hb : i < 16
    · simp [ha, hb, hi, ha' (by lia), show i < 24 by lia, show i - 8 < 8 by lia,
        show i - 8 < 32 by lia]
    by_cases hc : i < 24
    · simp [ha, hb, hc, hi, ha' (by lia), hb' (by lia), Nat.sub_sub,
        show ¬ i - 8 < 8 by lia, show i - 16 < 8 by lia, show i - 16 < 32 by lia]
    · simp [ha, hb, hc, hi, ha' (by lia), hb' (by lia), hc' (by lia), Nat.sub_sub,
        show ¬ i - 8 < 8 by lia, show ¬ i - 16 < 8 by lia, show i - 24 < 32 by lia]
  have hb : (shiftByte ctx)^[4] (b.setWidth 32 <<< 8) = ctx 2 b := by
    have hshift := h.shiftByte_shiftLeft b (show 0 < 3 by decide)
    rw [Function.iterate_succ_apply, hshift]
    rw [Nat.mul_zero, BitVec.shiftLeft_zero]
    exact h.shiftByte_iterate 2 b
  have hc : (shiftByte ctx)^[4] (c.setWidth 32 <<< 16) = ctx 1 c := by
    have hshift := h.shiftByte_shiftLeft c (show 1 < 3 by decide)
    have hshift' := h.shiftByte_shiftLeft c (show 0 < 3 by decide)
    rw [Function.iterate_succ_apply, hshift, Function.iterate_succ_apply, hshift']
    rw [Nat.mul_zero, BitVec.shiftLeft_zero]
    exact h.shiftByte_iterate 1 c
  have hd : (shiftByte ctx)^[4] (d.setWidth 32 <<< 24) = ctx 0 d := by
    have hshift := h.shiftByte_shiftLeft d (show 2 < 3 by decide)
    have hshift' := h.shiftByte_shiftLeft d (show 1 < 3 by decide)
    have hshift'' := h.shiftByte_shiftLeft d (show 0 < 3 by decide)
    rw [Function.iterate_succ_apply, hshift, Function.iterate_succ_apply, hshift',
      Function.iterate_succ_apply, hshift'']
    rw [Nat.mul_zero, BitVec.shiftLeft_zero]
    exact h.shiftByte_iterate 0 d
  have hxor := iterate_xor h.shiftByte_xor 4
  rw [hword, hxor, hxor, hxor, hb, hc, hd, h.shiftByte_iterate 3 a]

theorem Linear.stepByte_xor (h : Linear ctx) (crc : BitVec 32) (b : UInt8) :
    stepByte ctx crc b = shiftByte ctx crc ^^^ ctx 0 b.toBitVec := by
  rw [stepByte_eq, h.shiftByte_xor]
  exact congrArg _ (h.shiftByte_iterate 0 b.toBitVec)

theorem append_extractLsb' (x : BitVec 32) :
    x.extractLsb' 24 8 ++ x.extractLsb' 16 8 ++ x.extractLsb' 8 8 ++ x.extractLsb' 0 8 = x := by
  apply BitVec.eq_of_getLsbD_eq
  intro i hi
  simp only [BitVec.getLsbD_append, BitVec.getLsbD_extractLsb']
  by_cases ha : i < 8
  · simp [ha]
  by_cases hb : i < 16
  · simp [ha, show i - 8 < 8 by lia, show 8 + (i - 8) = i by lia]
  by_cases hc : i < 24
  · simp [ha, Nat.sub_sub, show ¬ i - 8 < 8 by lia, show i - 16 < 8 by lia,
      show 16 + (i - 16) = i by lia]
  · simp [ha, Nat.sub_sub, show ¬ i - 8 < 8 by lia, show ¬ i - 16 < 8 by lia,
      show i - 24 < 8 by lia, show 24 + (i - 24) = i by lia]

theorem Linear.stepWord_eq (h : Linear ctx) (crc : BitVec 32) (b₀ b₁ b₂ b₃ : UInt8) :
    stepWord ctx crc b₀ b₁ b₂ b₃ = [b₀, b₁, b₂, b₃].foldl (stepByte ctx) crc := by
  have hword := h.shiftByte_word
  have hxor := iterate_xor h.shiftByte_xor 4
  unfold stepWord
  dsimp only
  rw [← hword, append_extractLsb', hxor, loadLE, hword]
  simp only [List.foldl_cons, List.foldl_nil, h.stepByte_xor, h.shiftByte_xor]
  have h₀ : shiftByte ctx (shiftByte ctx (shiftByte ctx (ctx 0 b₀.toBitVec))) =
      ctx 3 b₀.toBitVec := by
    rw [← h.shiftByte_iterate 0, ← h.shiftByte_iterate 3]
    rfl
  have h₁ : shiftByte ctx (shiftByte ctx (ctx 0 b₁.toBitVec)) = ctx 2 b₁.toBitVec := by
    rw [← h.shiftByte_iterate 0, ← h.shiftByte_iterate 2]
    rfl
  have h₂ : shiftByte ctx (ctx 0 b₂.toBitVec) = ctx 1 b₂.toBitVec := by
    rw [← h.shiftByte_iterate 0, ← h.shiftByte_iterate 1]
    rfl
  rw [h₀, h₁, h₂]
  simp only [BitVec.xor_assoc]
  rfl

theorem Linear.stepWords_eq (h : Linear ctx) (crc : BitVec 32) (bytes : Bytes) :
    stepWords ctx crc bytes = bytes.foldl (stepByte ctx) crc := by
  induction crc, bytes using stepWords.induct ctx with
  | case1 crc b₀ b₁ b₂ b₃ rest ih =>
    rw [stepWords, ih, h.stepWord_eq, ← List.foldl_append]
    rfl
  | case2 crc rest hshort =>
    rw [stepWords]
    exact hshort

theorem Linear.avCrc_eq (h : Linear ctx) (address : Nat) (crc : BitVec 32) (buffer : Bytes) :
    avCrc ctx address crc buffer = buffer.foldl (stepByte ctx) crc := by
  unfold avCrc
  split_ifs with hsliced
  · dsimp only
    rw [h.stepWords_eq, ← List.foldl_append, List.take_append_drop]
  · rfl

theorem Linear.avCrc_append (h : Linear ctx) (address : Nat) (crc : BitVec 32) (l l' : Bytes) :
    avCrc ctx address crc (l ++ l') =
      avCrc ctx (address + l.length) (avCrc ctx address crc l) l' := by
  rw [h.avCrc_eq, h.avCrc_eq, h.avCrc_eq, List.foldl_append]

theorem Linear.stepByte_self (h : Linear ctx) (crc : BitVec 32) :
    stepByte ctx crc (UInt8.ofBitVec (crc.setWidth 8)) = crc >>> 8 := by
  rw [stepByte, BitVec.xor_self, h.zero, BitVec.zero_xor]

/-- **A check that is followed by its own value ends at zero.** -/
theorem Linear.avCrc_self (h : Linear ctx) (address : Nat) (crc : BitVec 32) :
    avCrc ctx address crc (putLE 4 crc.toNat) = 0#32 := by
  have hbyte : ∀ c : BitVec 32, UInt8.ofNat c.toNat = UInt8.ofBitVec (c.setWidth 8) := by
    intro c
    apply UInt8.toNat_inj.mp
    rw [UInt8.toNat_ofNat', UInt8.toNat_ofBitVec, BitVec.toNat_setWidth]
  have hnext : ∀ c : BitVec 32, c.toNat / 256 = (c >>> 8).toNat := by
    intro c
    rw [BitVec.toNat_ushiftRight, Nat.shiftRight_eq_div_pow]
  rw [h.avCrc_eq]
  simp only [putLE, List.foldl_cons, List.foldl_nil, hnext, hbyte, h.stepByte_self]
  ext i hi
  simp

end Linear

theorem linear_avCrc32Ieee : Linear avCrc32Ieee :=
  linear_avCrcInit false 32 0x04C11DB7#32

end FFmpeg.Libavutil.Crc
