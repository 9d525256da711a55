import FFmpeg.Common.Fips197
import FFmpeg.Libavutil.Aes

/-!
# The tables of the AES cipher

`alog8` has the powers of three and `log8` the exponents, so that the sum of two
exponents is the exponent of the product.  With them `sbox` becomes the S-box of the
standard and `inv_sbox` its inverse, and a word of `enc_multbl` and `dec_multbl` one
column of the product of the mixing matrix with the image of a byte.
-/

namespace FFmpeg.Libavutil.AesTables

open Common GaloisByte Aes

/-! ## Lists that are filled step by step -/

theorem getD_set_self {α : Type*} {l : List α} {i : Nat} (hi : i < l.length) (x d : α) :
    (l.set i x).getD i d = x := by
  rw [List.getD_eq_getElem?_getD, List.getElem?_set_self hi, Option.getD_some]

theorem getD_set_ne {α : Type*} (l : List α) {i j : Nat} (h : i ≠ j) (x d : α) :
    (l.set i x).getD j d = l.getD j d := by
  rw [List.getD_eq_getElem?_getD, List.getElem?_set_ne h, List.getD_eq_getElem?_getD]

variable {n : Nat}

theorem toNat_ofNat (h : n < 256) : (UInt8.ofNat n).toNat = n :=
  UInt8.toNat_ofNat_of_lt' h

/-! ## Logarithms -/

/-- The local tables after `n` turns. -/
structure LogsUpTo (n : Nat) (s : Logs) : Prop where
  j_eq : s.j = (power n).toNat
  length_alog8 : s.alog8.length = 512
  length_log8 : s.log8.length = 256
  alog8_low : ∀ k < n, s.alog8.getD k 0 = power k
  alog8_high : ∀ k < n, s.alog8.getD (k + 255) 0 = power k
  log8_eq : ∀ k < n, s.log8.getD (power k).toNat 0 = UInt8.ofNat k

theorem times_three (b : UInt8) :
    (if 255 < b.toNat ^^^ (b.toNat + b.toNat) then (b.toNat ^^^ (b.toNat + b.toNat)) ^^^ 0x11B
      else b.toNat ^^^ (b.toNat + b.toNat)) = (mul 3 b).toNat := by
  have hall : ∀ n : Fin 256, (if 255 < (UInt8.ofNat n).toNat ^^^ ((UInt8.ofNat n).toNat +
      (UInt8.ofNat n).toNat) then ((UInt8.ofNat n).toNat ^^^ ((UInt8.ofNat n).toNat +
      (UInt8.ofNat n).toNat)) ^^^ 0x11B else (UInt8.ofNat n).toNat ^^^ ((UInt8.ofNat n).toNat +
      (UInt8.ofNat n).toNat)) = (mul 3 (UInt8.ofNat n)).toNat := by decide +kernel
  exact forall_byte (p := fun b => (if 255 < b.toNat ^^^ (b.toNat + b.toNat) then
    (b.toNat ^^^ (b.toNat + b.toNat)) ^^^ 0x11B else b.toNat ^^^ (b.toNat + b.toNat)) =
      (mul 3 b).toNat) hall b

theorem LogsUpTo.step {s : Logs} (h : LogsUpTo n s) (hn : n < 255) :
    LogsUpTo (n + 1) (logStep s n) := by
  have hj : s.j < s.log8.length := by
    rw [h.j_eq, h.length_log8]
    exact (power n).toNat_lt
  have hlow : n < (s.alog8.set (n + 255) (UInt8.ofNat s.j)).length := by
    rw [List.length_set, h.length_alog8]
    omega
  have hhigh : n + 255 < s.alog8.length := by
    rw [h.length_alog8]
    omega
  have hbyte : UInt8.ofNat s.j = power n := by
    rw [h.j_eq, UInt8.ofNat_toNat]
  refine ⟨?_, ?_, ?_, ?_, ?_, ?_⟩
  · show (if 255 < s.j ^^^ (s.j + s.j) then _ else _) = _
    rw [h.j_eq]
    exact times_three (power n)
  · rw [logStep, List.length_set, List.length_set, h.length_alog8]
  · rw [logStep, List.length_set, h.length_log8]
  · intro k hk
    rw [logStep, hbyte]
    rcases Nat.lt_succ_iff_lt_or_eq.mp hk with hold | rfl
    · rw [getD_set_ne _ (by omega), getD_set_ne _ (by omega)]
      exact h.alog8_low k hold
    · rw [hbyte] at hlow
      exact getD_set_self hlow _ _
  · intro k hk
    rw [logStep, hbyte, getD_set_ne _ (by omega)]
    rcases Nat.lt_succ_iff_lt_or_eq.mp hk with hold | rfl
    · rw [getD_set_ne _ (by omega)]
      exact h.alog8_high k hold
    · exact getD_set_self hhigh _ _
  · intro k hk
    show (s.log8.set s.j (UInt8.ofNat n)).getD (power k).toNat 0 = _
    rcases Nat.lt_succ_iff_lt_or_eq.mp hk with hold | rfl
    · have hne : s.j ≠ (power k).toNat := by
        rw [h.j_eq]
        intro heq
        have hkn := power_injective hn (by omega) (UInt8.toNat_inj.mp heq)
        omega
      rw [getD_set_ne _ hne]
      exact h.log8_eq k hold
    · rw [h.j_eq] at hj ⊢
      exact getD_set_self hj _ _

theorem logsUpTo (hn : n ≤ 255) : LogsUpTo n
    ((List.range n).foldl logStep ⟨1, List.replicate 512 0, List.replicate 256 0⟩) := by
  induction n with
  | zero =>
    exact ⟨rfl, List.length_replicate, List.length_replicate, nofun, nofun, nofun⟩
  | succ n ih =>
    rw [List.range_succ, List.foldl_concat]
    exact (ih (by omega)).step (by omega)

theorem alog8_eq {m : Nat} (hm : m < 510) : logs.alog8.getD m 0 = power m := by
  by_cases hlow : m < 255
  · exact (logsUpTo (Nat.le_refl 255)).alog8_low m hlow
  · obtain ⟨k, rfl⟩ := Nat.exists_eq_add_of_le (Nat.le_of_not_lt hlow)
    rw [Nat.add_comm 255 k, power_add_order]
    exact (logsUpTo (Nat.le_refl 255)).alog8_high k (by omega)

theorem log8_power {k : Nat} (hk : k < 255) : (logs.log8.getD (power k).toNat 0).toNat = k := by
  have hlog : logs.log8.getD (power k).toNat 0 = UInt8.ofNat k :=
    (logsUpTo (Nat.le_refl 255)).log8_eq k hk
  rw [hlog, toNat_ofNat (by omega)]

theorem alog8_add_log8 {b c : UInt8} (hb : b ≠ 0) (hc : c ≠ 0) :
    logs.alog8.getD ((logs.log8.getD b.toNat 0).toNat + (logs.log8.getD c.toNat 0).toNat) 0 =
      mul c b := by
  obtain ⟨j, hj, rfl⟩ := exists_power hb
  obtain ⟨k, hk, rfl⟩ := exists_power hc
  rw [log8_power hj, log8_power hk, alog8_eq (by omega), power_add, GaloisByte.mul_comm]

/-! ## Boxes -/

theorem affine_eq (b : UInt8) :
    ((b.toNat ^^^ ((b.toNat <<< 1) ^^^ (b.toNat <<< 2) ^^^ (b.toNat <<< 3) ^^^ (b.toNat <<< 4))) ^^^
      ((b.toNat ^^^ ((b.toNat <<< 1) ^^^ (b.toNat <<< 2) ^^^ (b.toNat <<< 3) ^^^
        (b.toNat <<< 4))) >>> 8) ^^^ 99) &&& 255 = (Fips197.affine b).toNat := by
  have hall : ∀ n < 256, ((n ^^^ ((n <<< 1) ^^^ (n <<< 2) ^^^ (n <<< 3) ^^^ (n <<< 4))) ^^^
      ((n ^^^ ((n <<< 1) ^^^ (n <<< 2) ^^^ (n <<< 3) ^^^ (n <<< 4))) >>> 8) ^^^ 99) &&& 255 =
        (Fips197.affine (UInt8.ofNat n)).toNat := by decide +kernel
  have hb := hall b.toNat b.toNat_lt
  rwa [UInt8.ofNat_toNat] at hb

theorem sboxEntry_eq (b : UInt8) :
    sboxEntry logs.log8 logs.alog8 b.toNat = (Fips197.sbox b).toNat := by
  have hinverse : (if b.toNat ≠ 0 then
      (logs.alog8.getD (255 - (logs.log8.getD b.toNat 0).toNat) 0).toNat else 0) =
        (inverse b).toNat := by
    by_cases hb : b = 0
    · rw [hb, inverse_zero]
      rfl
    · have hpos : b.toNat ≠ 0 := fun hzero => hb (UInt8.toNat_inj.mp hzero)
      obtain ⟨k, hk, rfl⟩ := exists_power hb
      rw [if_pos hpos, log8_power hk, alog8_eq (by omega), inverse_power hk.le]
  rw [sboxEntry, hinverse]
  exact affine_eq (inverse b)

/-- The boxes after `n` turns. -/
structure BoxesUpTo (n : Nat) (t₀ t : Tables) : Prop where
  length_sbox : t.sbox.length = 256
  length_invSbox : t.invSbox.length = 256
  sbox_eq : ∀ b : UInt8, b.toNat < n → t.sbox.getD b.toNat 0 = Fips197.sbox b
  invSbox_eq : ∀ b : UInt8, b.toNat < n → t.invSbox.getD (Fips197.sbox b).toNat 0 = b
  encMultbl_eq : t.encMultbl = t₀.encMultbl
  decMultbl_eq : t.decMultbl = t₀.decMultbl

theorem BoxesUpTo.step {t₀ t : Tables} (h : BoxesUpTo n t₀ t) (hn : n < 256) :
    BoxesUpTo (n + 1) t₀ (sboxStep logs.log8 logs.alog8 t n) := by
  have hentry : sboxEntry logs.log8 logs.alog8 n = (Fips197.sbox (UInt8.ofNat n)).toNat := by
    rw [← sboxEntry_eq, toNat_ofNat hn]
  refine ⟨?_, ?_, ?_, ?_, h.encMultbl_eq, h.decMultbl_eq⟩
  · rw [sboxStep, List.length_set, h.length_sbox]
  · rw [sboxStep, List.length_set, h.length_invSbox]
  · intro b hb
    rw [sboxStep, hentry, UInt8.ofNat_toNat]
    rcases Nat.lt_succ_iff_lt_or_eq.mp hb with hold | hnew
    · rw [getD_set_ne _ (by omega)]
      exact h.sbox_eq b hold
    · have hlt : n < t.sbox.length := by rwa [h.length_sbox]
      rw [hnew, getD_set_self hlt, ← hnew, UInt8.ofNat_toNat]
  · intro b hb
    rw [sboxStep, hentry]
    rcases Nat.lt_succ_iff_lt_or_eq.mp hb with hold | hnew
    · have hne : (Fips197.sbox (UInt8.ofNat n)).toNat ≠ (Fips197.sbox b).toNat := by
        intro heq
        have hbn := Fips197.sbox_injective (UInt8.toNat_inj.mp heq)
        rw [← hbn, toNat_ofNat hn] at hold
        exact absurd hold (Nat.lt_irrefl n)
      rw [getD_set_ne _ hne]
      exact h.invSbox_eq b hold
    · have hb' : UInt8.ofNat n = b := by rw [← hnew, UInt8.ofNat_toNat]
      have hlt : (Fips197.sbox b).toNat < t.invSbox.length := by
        rw [h.length_invSbox]
        exact (Fips197.sbox b).toNat_lt
      rw [hb']
      exact getD_set_self hlt _ _

theorem boxesUpTo {t : Tables} (hsbox : t.sbox.length = 256) (hinv : t.invSbox.length = 256)
    (hn : n ≤ 256) :
    BoxesUpTo n t ((List.range n).foldl (sboxStep logs.log8 logs.alog8) t) := by
  induction n with
  | zero => exact ⟨hsbox, hinv, nofun, nofun, rfl, rfl⟩
  | succ n ih =>
    rw [List.range_succ, List.foldl_concat]
    exact (ih (by omega)).step (by omega)

/-! ## Words -/

section Words

theorem toNat_rotate (x s t : UInt32) (hs : 0 < s.toNat) (ht : 0 < t.toNat)
    (hst : t.toNat + s.toNat = 32) :
    (x <<< s ||| x >>> t).toNat = x.toNat % 2 ^ t.toNat * 2 ^ s.toNat + x.toNat / 2 ^ t.toNat := by
  have hpow : 2 ^ t.toNat * 2 ^ s.toNat = 2 ^ 32 := by rw [← Nat.pow_add, hst]
  have hlow : x.toNat / 2 ^ t.toNat < 2 ^ s.toNat := by
    apply Nat.div_lt_of_lt_mul
    rw [hpow]
    exact x.toNat_lt
  rw [UInt32.toNat_or, UInt32.toNat_shiftLeft, UInt32.toNat_shiftRight,
    Nat.mod_eq_of_lt (show s.toNat < 32 by omega), Nat.mod_eq_of_lt (show t.toNat < 32 by omega),
    Nat.shiftLeft_eq, Nat.shiftRight_eq_div_pow, ← hpow, Nat.mul_mod_mul_right,
    ← Nat.shiftLeft_eq, ← Nat.shiftLeft_add_eq_or_of_lt hlow]

theorem toNat_byte (x : UInt32) :
    x.toUInt8.toNat = x.toNat % 256 ∧ (x >>> 8).toUInt8.toNat = x.toNat / 2 ^ 8 % 256 ∧
    (x >>> 16).toUInt8.toNat = x.toNat / 2 ^ 16 % 256 ∧
    (x >>> 24).toUInt8.toNat = x.toNat / 2 ^ 24 % 256 := by
  refine ⟨?_, ?_, ?_, ?_⟩ <;> simp [UInt32.toNat_shiftRight, Nat.shiftRight_eq_div_pow]

/-- The word with these bytes in memory. -/
def word (config : Config) (k l m n : UInt8) : UInt32 :=
  if config.bigEndian then mkBeTag k l m n else mkTag k l m n

theorem toNat_mkTag (a b c d : UInt8) : (mkTag a b c d).toNat =
    2 ^ 24 * d.toNat + (2 ^ 16 * c.toNat + (2 ^ 8 * b.toNat + a.toNat)) := by
  have ha := a.toNat_lt
  have hb := b.toNat_lt
  have hc := c.toNat_lt
  have hd := d.toNat_lt
  have hword : (mkTag a b c d).toNat =
      d.toNat <<< 24 ||| (c.toNat <<< 16 ||| (b.toNat <<< 8 ||| a.toNat)) := by
    have hshift : ∀ (e : UInt8) (s : Nat), s ≤ 24 → e.toNat <<< s % 2 ^ 32 = e.toNat <<< s := by
      intro e s hs
      apply Nat.mod_eq_of_lt
      rw [Nat.shiftLeft_eq]
      calc e.toNat * 2 ^ s < 2 ^ 8 * 2 ^ s := Nat.mul_lt_mul_of_pos_right e.toNat_lt (by positivity)
        _ ≤ 2 ^ 8 * 2 ^ 24 := Nat.mul_le_mul_left _ (Nat.pow_le_pow_right (by decide) hs)
        _ = 2 ^ 32 := by norm_num
    simp only [mkTag, UInt32.toNat_or, UInt32.toNat_shiftLeft, UInt8.toNat_toUInt32]
    rw [show (8 : UInt32).toNat % 32 = 8 from rfl, show (16 : UInt32).toNat % 32 = 16 from rfl,
      show (24 : UInt32).toNat % 32 = 24 from rfl, hshift b 8 (by omega), hshift c 16 (by omega),
      hshift d 24 (by omega), Nat.or_comm, Nat.or_comm (a.toNat ||| _), Nat.or_comm a.toNat]
  rw [hword, ← Nat.shiftLeft_add_eq_or_of_lt ha, Nat.shiftLeft_eq b.toNat,
    ← Nat.shiftLeft_add_eq_or_of_lt (show b.toNat * 2 ^ 8 + a.toNat < 2 ^ 16 by omega),
    Nat.shiftLeft_eq c.toNat,
    ← Nat.shiftLeft_add_eq_or_of_lt
      (show c.toNat * 2 ^ 16 + (b.toNat * 2 ^ 8 + a.toNat) < 2 ^ 24 by omega), Nat.shiftLeft_eq]
  omega

theorem bytes_mkTag (a b c d : UInt8) :
    (mkTag a b c d).toUInt8 = a ∧ (mkTag a b c d >>> 8).toUInt8 = b ∧
    (mkTag a b c d >>> 16).toUInt8 = c ∧ (mkTag a b c d >>> 24).toUInt8 = d := by
  obtain ⟨h0, h1, h2, h3⟩ := toNat_byte (mkTag a b c d)
  rw [toNat_mkTag] at h0 h1 h2 h3
  have ha := a.toNat_lt
  have hb := b.toNat_lt
  have hc := c.toNat_lt
  have hd := d.toNat_lt
  refine ⟨UInt8.toNat_inj.mp ?_, UInt8.toNat_inj.mp ?_, UInt8.toNat_inj.mp ?_,
    UInt8.toNat_inj.mp ?_⟩ <;> omega

theorem bytesOfU32_word (config : Config) (k l m n : UInt8) :
    bytesOfU32 config (word config k l m n) = [k, l, m, n] := by
  obtain ⟨small, bigEndian⟩ := config
  cases bigEndian with
  | false =>
    obtain ⟨h0, h1, h2, h3⟩ := bytes_mkTag k l m n
    show [(mkTag k l m n).toUInt8, (mkTag k l m n >>> 8).toUInt8, (mkTag k l m n >>> 16).toUInt8,
      (mkTag k l m n >>> 24).toUInt8] = _
    rw [h0, h1, h2, h3]
  | true =>
    obtain ⟨h0, h1, h2, h3⟩ := bytes_mkTag n m l k
    show [(mkTag n m l k >>> 24).toUInt8, (mkTag n m l k >>> 16).toUInt8,
      (mkTag n m l k >>> 8).toUInt8, (mkTag n m l k).toUInt8] = _
    rw [h0, h1, h2, h3]

/-- Rotating a word by a byte rotates its bytes in memory. -/
theorem rot_word (config : Config) (k l m n : UInt8) :
    rot config (word config k l m n) 8 = word config n k l m ∧
    rot config (word config k l m n) 16 = word config m n k l ∧
    rot config (word config k l m n) 24 = word config l m n k := by
  have hrotate : ∀ a b c d : UInt8, (mkTag a b c d <<< 8 ||| mkTag a b c d >>> 24) = mkTag d a b c ∧
      (mkTag a b c d <<< 16 ||| mkTag a b c d >>> 16) = mkTag c d a b ∧
      (mkTag a b c d <<< 24 ||| mkTag a b c d >>> 8) = mkTag b c d a := by
    intro a b c d
    have h8 := toNat_rotate (mkTag a b c d) 8 24 (by decide) (by decide) (by decide)
    have h16 := toNat_rotate (mkTag a b c d) 16 16 (by decide) (by decide) (by decide)
    have h24 := toNat_rotate (mkTag a b c d) 24 8 (by decide) (by decide) (by decide)
    rw [show (8 : UInt32).toNat = 8 from rfl, show (24 : UInt32).toNat = 24 from rfl,
      toNat_mkTag] at h8 h24
    rw [show (16 : UInt32).toNat = 16 from rfl, toNat_mkTag] at h16
    have ha := a.toNat_lt
    have hb := b.toNat_lt
    have hc := c.toNat_lt
    have hd := d.toNat_lt
    refine ⟨UInt32.toNat_inj.mp ?_, UInt32.toNat_inj.mp ?_, UInt32.toNat_inj.mp ?_⟩
    · rw [h8, toNat_mkTag]
      omega
    · rw [h16, toNat_mkTag]
      omega
    · rw [h24, toNat_mkTag]
      omega
  obtain ⟨small, bigEndian⟩ := config
  cases bigEndian with
  | false => exact hrotate k l m n
  | true =>
    -- on a big-endian host the rotation goes the other way, and so do the bytes
    obtain ⟨h8, h16, h24⟩ := hrotate n m l k
    refine ⟨?_, ?_, ?_⟩
    · show (mkTag n m l k >>> 8 ||| mkTag n m l k <<< 24) = mkTag m l k n
      rw [UInt32.or_comm]
      exact h24
    · show (mkTag n m l k >>> 16 ||| mkTag n m l k <<< 16) = mkTag l k n m
      rw [UInt32.or_comm]
      exact h16
    · show (mkTag n m l k >>> 24 ||| mkTag n m l k <<< 8) = mkTag k n m l
      rw [UInt32.or_comm]
      exact h8

theorem bytesOfU32_xor (config : Config) (x y : UInt32) :
    bytesOfU32 config (x ^^^ y) =
      List.zipWith (· ^^^ ·) (bytesOfU32 config x) (bytesOfU32 config y) := by
  obtain ⟨small, bigEndian⟩ := config
  cases bigEndian <;>
    simp [bytesOfU32, UInt32.shiftRight_xor]

end Words

/-! ## Multiplication tables -/

section Multbl

variable {config : Config} {tbl : List (List UInt32)}

/-- A table has its size. -/
structure Sized (config : Config) (tbl : List (List UInt32)) : Prop where
  length_eq : tbl.length = multblElems config
  row_length : ∀ k < multblElems config, (tbl.getD k []).length = 256

theorem sized_zero (config : Config) :
    Sized config (List.replicate (multblElems config) (List.replicate 256 0)) where
  length_eq := List.length_replicate
  row_length := by
    intro k hk
    rw [List.getD_eq_getElem?_getD, List.getElem?_replicate, if_pos hk, Option.getD_some,
      List.length_replicate]

theorem entry_zero (config : Config) (k i : Nat) :
    entry (List.replicate (multblElems config) (List.replicate 256 0)) k i = 0 := by
  rw [entry, List.getD_eq_getElem?_getD, List.getD_eq_getElem?_getD, List.getElem?_replicate]
  split
  · rw [Option.getD_some, List.getElem?_replicate]
    split <;> rfl
  · rfl

theorem getD_setEntry_ne {k k' : Nat} (h : k ≠ k') (i : Nat) (x : UInt32) :
    (setEntry tbl k i x).getD k' [] = tbl.getD k' [] := by
  rw [setEntry, List.getD_eq_getElem?_getD, List.getElem?_modify, List.getD_eq_getElem?_getD]
  simp only [if_neg h, id_map']

theorem getD_setEntry_self {k : Nat} (hk : k < tbl.length) (i : Nat) (x : UInt32) :
    (setEntry tbl k i x).getD k [] = (tbl.getD k []).set i x := by
  rw [setEntry, List.getD_eq_getElem?_getD, List.getElem?_modify_eq, List.getD_eq_getElem?_getD,
    List.getElem?_eq_getElem hk]
  rfl

theorem Sized.setEntry (h : Sized config tbl) (k i : Nat) (x : UInt32) :
    Sized config (setEntry tbl k i x) := by
  refine ⟨by rw [Aes.setEntry, List.length_modify, h.length_eq], ?_⟩
  intro k' hk'
  by_cases heq : k = k'
  · subst heq
    rw [getD_setEntry_self (by rwa [h.length_eq]), List.length_set]
    exact h.row_length k hk'
  · rw [getD_setEntry_ne heq]
    exact h.row_length k' hk'

theorem Sized.entry_setEntry (h : Sized config tbl) {k i : Nat} (hk : k < multblElems config)
    (hi : i < 256) (x : UInt32) : entry (Aes.setEntry tbl k i x) k i = x := by
  have hlt : i < (tbl.getD k []).length := by rwa [h.row_length k hk]
  rw [entry, getD_setEntry_self (by rwa [h.length_eq])]
  exact getD_set_self hlt x 0

theorem entry_setEntry_ne {k i k' i' : Nat} (h : k ≠ k' ∨ i ≠ i') (x : UInt32) :
    entry (Aes.setEntry tbl k i x) k' i' = entry tbl k' i' := by
  by_cases hk : k = k'
  · subst hk
    have hi : i ≠ i' := h.resolve_left fun hne => hne rfl
    by_cases hlt : k < tbl.length
    · rw [entry, getD_setEntry_self hlt, getD_set_ne _ hi, entry]
    · rw [entry, Aes.setEntry, List.modify_eq_self (Nat.le_of_not_lt hlt), entry]
  · rw [entry, getD_setEntry_ne hk, entry]

variable {c₀ c₁ c₂ c₃ : UInt8} {sbox : Bytes}

/-- The word for a byte `x`. -/
def mulWord (config : Config) (c₀ c₁ c₂ c₃ x : UInt8) : UInt32 :=
  word config (mul c₀ x) (mul c₁ x) (mul c₂ x) (mul c₃ x)

/-- `tbl` has the words for the byte `x` at index `i`. -/
structure HasWords (config : Config) (c₀ c₁ c₂ c₃ : UInt8) (tbl : List (List UInt32)) (i : Nat)
    (x : UInt8) : Prop where
  first : entry tbl 0 i = mulWord config c₀ c₁ c₂ c₃ x
  others : config.small = false → entry tbl 1 i = rot config (mulWord config c₀ c₁ c₂ c₃ x) 8 ∧
    entry tbl 2 i = rot config (mulWord config c₀ c₁ c₂ c₃ x) 16 ∧
    entry tbl 3 i = rot config (mulWord config c₀ c₁ c₂ c₃ x) 24

theorem multblWord_eq (hc : c₀ ≠ 0 ∧ c₁ ≠ 0 ∧ c₂ ≠ 0 ∧ c₃ ≠ 0) {x : UInt8} (hx : x ≠ 0) :
    multblWord config c₀.toNat c₁.toNat c₂.toNat c₃.toNat logs.log8 logs.alog8 x =
      mulWord config c₀ c₁ c₂ c₃ x := by
  obtain ⟨h0, h1, h2, h3⟩ := hc
  simp only [multblWord, alog8_add_log8 hx h0, alog8_add_log8 hx h1, alog8_add_log8 hx h2,
    alog8_add_log8 hx h3]
  rfl

/-- One turn sets the words at its index and no others. -/
theorem multblStep_spec (sbox : Bytes) (hc : c₀ ≠ 0 ∧ c₁ ≠ 0 ∧ c₂ ≠ 0 ∧ c₃ ≠ 0) (h : Sized config tbl) {i : Nat}
    (hi : i < 256) (hzero : ∀ k, entry tbl k i = 0) :
    Sized config (multblStep config c₀.toNat c₁.toNat c₂.toNat c₃.toNat logs.log8 logs.alog8 sbox
        tbl i) ∧
      HasWords config c₀ c₁ c₂ c₃ (multblStep config c₀.toNat c₁.toNat c₂.toNat c₃.toNat logs.log8
        logs.alog8 sbox tbl i) i (sbox.getD i 0) ∧
      ∀ k j, j ≠ i → entry (multblStep config c₀.toNat c₁.toNat c₂.toNat c₃.toNat logs.log8
        logs.alog8 sbox tbl i) k j = entry tbl k j := by
  by_cases hx : sbox.getD i 0 = 0
  · have hstep : multblStep config c₀.toNat c₁.toNat c₂.toNat c₃.toNat logs.log8 logs.alog8 sbox
        tbl i = tbl := by
      rw [multblStep]
      simp only [hx, ne_eq, not_true_eq_false, if_false]
    have hmul : mulWord config c₀ c₁ c₂ c₃ 0 = 0 := by
      rw [mulWord, (linear_mul c₀).map_zero, (linear_mul c₁).map_zero, (linear_mul c₂).map_zero,
        (linear_mul c₃).map_zero, word]
      split <;> rfl
    have hrot : ∀ s, rot config 0 s = 0 := by
      intro s
      rw [rot]
      split <;> simp
    rw [hstep, hx]
    refine ⟨h, ⟨by rw [hzero, hmul], fun _ => ?_⟩, fun _ _ _ => rfl⟩
    rw [hzero, hzero, hzero, hmul, hrot, hrot, hrot]
    exact ⟨rfl, rfl, rfl⟩
  · cases hsmall : config.small with
    | true =>
      have helems : 0 < multblElems config := by
        rw [multblElems, hsmall]
        decide
      have hstep : multblStep config c₀.toNat c₁.toNat c₂.toNat c₃.toNat logs.log8 logs.alog8 sbox
          tbl i = setEntry tbl 0 i (mulWord config c₀ c₁ c₂ c₃ (sbox.getD i 0)) := by
        rw [multblStep]
        simp only [hx, ne_eq, not_false_eq_true, if_true, hsmall, multblWord_eq hc hx]
      rw [hstep]
      refine ⟨h.setEntry _ _ _, ⟨h.entry_setEntry helems hi _, ?_⟩,
        fun k j hj => entry_setEntry_ne (Or.inr hj.symm) _⟩
      intro hfalse
      rw [hsmall] at hfalse
      cases hfalse
    | false =>
      have helems : multblElems config = 4 := by
        rw [multblElems, hsmall]
        rfl
      let w := mulWord config c₀ c₁ c₂ c₃ (sbox.getD i 0)
      have hstep : multblStep config c₀.toNat c₁.toNat c₂.toNat c₃.toNat logs.log8 logs.alog8 sbox
          tbl i = setEntry (setEntry (setEntry (setEntry tbl 0 i w) 1 i (rot config w 8)) 2 i
            (rot config w 16)) 3 i (rot config w 24) := by
        rw [multblStep]
        simp only [hx, ne_eq, not_false_eq_true, if_true, hsmall, multblWord_eq hc hx,
          Bool.false_eq_true, if_false]
        rfl
      have h0 := h.setEntry 0 i w
      have h1 := h0.setEntry 1 i (rot config w 8)
      have h2 := h1.setEntry 2 i (rot config w 16)
      have h3 := h2.setEntry 3 i (rot config w 24)
      rw [hstep]
      refine ⟨h3, ⟨?_, fun _ => ⟨?_, ?_, ?_⟩⟩, ?_⟩
      · rw [entry_setEntry_ne (Or.inl (by decide)), entry_setEntry_ne (Or.inl (by decide)),
          entry_setEntry_ne (Or.inl (by decide)), h.entry_setEntry (by omega) hi]
      · rw [entry_setEntry_ne (Or.inl (by decide)), entry_setEntry_ne (Or.inl (by decide)),
          h0.entry_setEntry (by omega) hi]
      · rw [entry_setEntry_ne (Or.inl (by decide)), h1.entry_setEntry (by omega) hi]
      · rw [h2.entry_setEntry (by omega) hi]
      · intro k j hj
        rw [entry_setEntry_ne (Or.inr hj.symm), entry_setEntry_ne (Or.inr hj.symm),
          entry_setEntry_ne (Or.inr hj.symm), entry_setEntry_ne (Or.inr hj.symm)]

/-- `init_multbl2` on an empty table. -/
theorem initMultbl2_spec (c₀ c₁ c₂ c₃ : UInt8) (sbox : Bytes) (hc : c₀ ≠ 0 ∧ c₁ ≠ 0 ∧ c₂ ≠ 0 ∧ c₃ ≠ 0) (h : Sized config tbl)
    (hzero : ∀ k i, entry tbl k i = 0) :
    ∀ i < 256, HasWords config c₀ c₁ c₂ c₃ (initMultbl2 config tbl c₀.toNat c₁.toNat c₂.toNat
      c₃.toNat logs.log8 logs.alog8 sbox) i (sbox.getD i 0) := by
  have hloop : ∀ n ≤ 256, Sized config ((List.range n).foldl (multblStep config c₀.toNat c₁.toNat
        c₂.toNat c₃.toNat logs.log8 logs.alog8 sbox) tbl) ∧
      (∀ i < n, HasWords config c₀ c₁ c₂ c₃ ((List.range n).foldl (multblStep config c₀.toNat
        c₁.toNat c₂.toNat c₃.toNat logs.log8 logs.alog8 sbox) tbl) i (sbox.getD i 0)) ∧
      ∀ k, ∀ i ≥ n, entry ((List.range n).foldl (multblStep config c₀.toNat c₁.toNat c₂.toNat
        c₃.toNat logs.log8 logs.alog8 sbox) tbl) k i = 0 := by
    intro n
    induction n with
    | zero => exact fun _ => ⟨h, nofun, fun k i _ => hzero k i⟩
    | succ n ih =>
      intro hn
      obtain ⟨hsized, hwords, hrest⟩ := ih (by omega)
      rw [List.range_succ, List.foldl_concat]
      obtain ⟨hsized', hnew, hsame⟩ := multblStep_spec sbox hc hsized (by omega)
        fun k => hrest k n (Nat.le_refl n)
      refine ⟨hsized', ?_, ?_⟩
      · intro i hi
        rcases Nat.lt_succ_iff_lt_or_eq.mp hi with hold | rfl
        · have hne : i ≠ n := by omega
          refine ⟨by rw [hsame 0 i hne]; exact (hwords i hold).first, fun hsmall => ?_⟩
          rw [hsame 1 i hne, hsame 2 i hne, hsame 3 i hne]
          exact (hwords i hold).others hsmall
        · exact hnew
      · intro k i hi
        rw [hsame k i (by omega)]
        exact hrest k i (by omega)
  exact (hloop 256 (Nat.le_refl 256)).2.1

end Multbl

/-! ## The tables as a whole -/

section Ready

variable {config : Config}

/-- The tables the source means to compute. -/
structure Ready (config : Config) (t : Tables) : Prop where
  sbox_eq : ∀ b : UInt8, t.sbox.getD b.toNat 0 = Fips197.sbox b
  invSbox_eq : ∀ b : UInt8, t.invSbox.getD (Fips197.sbox b).toNat 0 = b
  encMultbl_eq : ∀ b : UInt8, HasWords config 0x2 0x1 0x1 0x3 t.encMultbl b.toNat (Fips197.sbox b)
  decMultbl_eq : ∀ b : UInt8, HasWords config 0xe 0x9 0xd 0xb t.decMultbl (Fips197.sbox b).toNat b

/-- The tables any sequence of calls of `av_aes_init` may have left. -/
inductive Reached (config : Config) : Tables → Prop
  | zero : Reached config (Tables.zero config)
  | init {t : Tables} (a : AVAES) (key : Bytes) (keyBits : Int) (decrypt : Bool)
      (h : Reached config t) : Reached config (avAesInit config t a key keyBits decrypt).1

theorem avAesInit_tables (t : Tables) (a : AVAES) (key : Bytes) (keyBits : Int) (decrypt : Bool) :
    (avAesInit config t a key keyBits decrypt).1 = initTables config t := by
  unfold avAesInit
  simp only
  split <;> rfl

variable {t : Tables}

/-- The tables the first call computes from the boxes `t`. -/
theorem ready_of_boxes {t₀ t' : Tables} (h : BoxesUpTo 256 t₀ t) (henc : Sized config t₀.encMultbl)
    (hdec : Sized config t₀.decMultbl) (hzero : ∀ k i, entry t₀.encMultbl k i = 0)
    (hzero' : ∀ k i, entry t₀.decMultbl k i = 0) (hsbox : t'.sbox = t.sbox)
    (hinvSbox : t'.invSbox = t.invSbox)
    (hencMultbl : t'.encMultbl = initMultbl2 config t.encMultbl 0x2 0x1 0x1 0x3 logs.log8 logs.alog8 t.sbox)
    (hdecMultbl : t'.decMultbl = initMultbl2 config t.decMultbl 0xe 0x9 0xd 0xb logs.log8 logs.alog8 t.invSbox) :
    Ready config t' := by
  rw [← h.encMultbl_eq] at henc hzero
  rw [← h.decMultbl_eq] at hdec hzero'
  refine ⟨?_, ?_, ?_, ?_⟩
  · intro b
    rw [hsbox]
    exact h.sbox_eq b b.toNat_lt
  · intro b
    rw [hinvSbox]
    exact h.invSbox_eq b b.toNat_lt
  · intro b
    have hwords := initMultbl2_spec 0x2 0x1 0x1 0x3 t.sbox (by decide) henc hzero b.toNat
      b.toNat_lt
    rw [hencMultbl, ← h.sbox_eq b b.toNat_lt]
    exact hwords
  · intro b
    have hwords := initMultbl2_spec 0xe 0x9 0xd 0xb t.invSbox (by decide) hdec hzero'
      (Fips197.sbox b).toNat (Fips197.sbox b).toNat_lt
    rw [h.invSbox_eq b b.toNat_lt] at hwords
    rw [hdecMultbl]
    exact hwords

theorem initTables_zero : Ready config (initTables config (Tables.zero config)) := by
  have hempty : entry (Tables.zero config).encMultbl (multblElems config - 1) 255 = 0 :=
    entry_zero config _ _
  have hboxes := boxesUpTo (t := Tables.zero config) List.length_replicate List.length_replicate
    (Nat.le_refl 256)
  apply ready_of_boxes hboxes (sized_zero config) (sized_zero config) (entry_zero config)
    (entry_zero config)
  all_goals
    rw [initTables]
    simp only [if_pos hempty]

theorem word_ne_zero (k m n : UInt8) {l : UInt8} (hl : l ≠ 0) : word config k l m n ≠ 0 := by
  intro hzero
  have hbytes := bytesOfU32_word config k l m n
  have hnull : bytesOfU32 config 0 = [0, 0, 0, 0] := by
    rw [bytesOfU32]
    split <;> rfl
  rw [hzero, hnull] at hbytes
  injection hbytes with _ hbytes
  injection hbytes with hl' _
  exact hl hl'.symm

theorem Ready.initTables_eq (h : Ready config t) : initTables config t = t := by
  have hbyte : Fips197.sbox 255 ≠ 0 := by decide +kernel
  have hwords := h.encMultbl_eq 255
  have hfilled : entry t.encMultbl (multblElems config - 1) 255 ≠ 0 := by
    cases hsmall : config.small with
    | true =>
      have hlast : multblElems config - 1 = 0 := by
        rw [multblElems, hsmall]
        rfl
      have hfirst : entry t.encMultbl 0 255 = _ := hwords.first
      rw [hlast, hfirst]
      apply word_ne_zero
      rwa [GaloisByte.one_mul]
    | false =>
      have hlast : multblElems config - 1 = 3 := by
        rw [multblElems, hsmall]
        rfl
      have hfourth : entry t.encMultbl 3 255 = _ := (hwords.others hsmall).2.2
      rw [hlast, hfourth, mulWord, (rot_word config _ _ _ _).2.2]
      apply word_ne_zero
      rwa [GaloisByte.one_mul]
  rw [initTables, if_neg hfilled]

theorem Reached.ready (h : Reached config t) : Ready config (initTables config t) := by
  induction h with
  | zero => exact initTables_zero
  | init a key keyBits decrypt _ ih =>
    rw [avAesInit_tables, ih.initTables_eq]
    exact ih

end Ready

end FFmpeg.Libavutil.AesTables
