import FFmpeg.Libavutil.IntegerExact

/-!
# Dividing 128-bit integers

`av_shr_i` moves the bits of the number, to the right or to the left.  The loop of `av_mod_i` is a
long division.  A negative number is negated before and after, which does nothing to the most
negative one: for that number the calls have no end.
-/

namespace FFmpeg.Libavutil.Integer

open Common.Limbs

variable {a b q : AVInteger} {n d : Nat}

/-! ## Shifting -/

theorem getLsbD_pair (x y : BitVec 16) (k : Nat) :
    ((x.setWidth 32 <<< 16) + y.setWidth 32).getLsbD k =
      if k < 16 then y.getLsbD k else x.getLsbD (k - 16) := by
  have hx := x.isLt
  have hy := y.isLt
  have hvalue : ((x.setWidth 32 <<< 16) + y.setWidth 32).toNat = 2 ^ 16 * x.toNat + y.toNat := by
    simp only [BitVec.toNat_add, BitVec.toNat_shiftLeft, BitVec.toNat_setWidth, Nat.shiftLeft_eq]
    lia
  rw [BitVec.getLsbD, hvalue, Nat.testBit_two_pow_mul_add _ hy]
  rfl

/-- The word `q` of a number, where the words behind the ends are zero. -/
def AVInteger.wordAt (a : AVInteger) (q : Int) : BitVec 16 := if 0 ≤ q then a.word q.toNat else 0

variable {i : Nat}

theorem AVInteger.word_of_ge (a : AVInteger) (hi : avIntegerSize ≤ i) : a.word i = 0 := by
  have hlength : a.v.length ≤ i := a.length_eq.trans_le hi
  rw [AVInteger.word, List.getD_eq_getElem?_getD, List.getElem?_eq_none hlength]
  rfl

theorem AVInteger.testBit_toNat (a : AVInteger) (i : Nat) {t : Nat} (ht : t < 16) :
    a.toNat.testBit (16 * i + t) = (a.word i).getLsbD t := testBit_value a.v i ht

theorem word_index (a : AVInteger) {q : Int} (hlo : -2 ^ 31 ≤ q) (hhi : q < 2 ^ 31) :
    (if (BitVec.ofInt 32 q).toNat < avIntegerSize then a.word (BitVec.ofInt 32 q).toNat else 0) =
      a.wordAt q := by
  have hsize : avIntegerSize = 8 := rfl
  have hindex : (BitVec.ofInt 32 q).toNat = (q % 2 ^ 32).toNat := BitVec.toNat_ofInt q
  rw [hindex, AVInteger.wordAt]
  by_cases hneg : 0 ≤ q
  · rw [if_pos hneg, Int.emod_eq_of_lt hneg (by lia)]
    split
    · rfl
    · rw [a.word_of_ge (by lia)]
  · rw [if_neg hneg, if_neg]
    lia

variable {s : Int}

theorem shrWord_eq (a : AVInteger) (hlo : -2 ^ 31 ≤ s) (hhi : s < 2 ^ 31) (hi : i < avIntegerSize) :
    shrWord a s i = ((((a.wordAt (i + s / 16 + 1)).setWidth 32 <<< 16) +
      (a.wordAt (i + s / 16)).setWidth 32) >>> (s % 16).toNat).setWidth 16 := by
  have hsize : avIntegerSize = 8 := rfl
  have hnext : BitVec.ofInt 32 (i + s / 16) + 1 = BitVec.ofInt 32 (i + s / 16 + 1) := by
    rw [BitVec.ofInt_add (i + s / 16) 1]
    rfl
  rw [← word_index a (q := i + s / 16) (by lia) (by lia),
    ← word_index a (q := i + s / 16 + 1) (by lia) (by lia), shrWord, Int.shiftRight_eq_div_pow]
  simp only [Nat.reducePow, Nat.cast_ofNat, hnext]
  split_ifs <;> simp

/-- Where the bits come from. -/
theorem getLsbD_shrWord (a : AVInteger) (hlo : -2 ^ 31 ≤ s) (hhi : s < 2 ^ 31)
    (hi : i < avIntegerSize) {t : Nat} (ht : t < 16) :
    (shrWord a s i).getLsbD t =
      (decide (0 ≤ 16 * (i : Int) + t + s) && a.toNat.testBit (16 * (i : Int) + t + s).toNat) := by
  obtain ⟨r, hr⟩ := Int.eq_ofNat_of_zero_le (Int.emod_nonneg s (show (16 : Int) ≠ 0 by decide))
  have hrange := Int.emod_lt_of_pos s (show (0 : Int) < 16 by decide)
  have hsplit := Int.emod_add_mul_ediv s 16
  obtain ⟨q, hq⟩ : ∃ q, q = (i : Int) + s / 16 := ⟨_, rfl⟩
  have hplace : 16 * (i : Int) + t + s = 16 * q + ((r + t : Nat) : Int) := by
    push_cast
    lia
  rw [shrWord_eq a hlo hhi hi, ← hq, hr, hplace, BitVec.getLsbD_setWidth, decide_eq_true ht,
    Bool.true_and, BitVec.getLsbD_ushiftRight, Int.toNat_natCast, getLsbD_pair]
  have hr' : r < 16 := by lia
  obtain ⟨k, hk⟩ : ∃ k, k = r + t := ⟨_, rfl⟩
  rw [← hk]
  by_cases hlow : k < 16
  · rw [if_pos hlow, AVInteger.wordAt]
    by_cases hneg : 0 ≤ q
    · obtain ⟨n, rfl⟩ := Int.eq_ofNat_of_zero_le hneg
      rw [if_pos hneg, decide_eq_true (by lia), Bool.true_and, Int.toNat_natCast,
        ← a.testBit_toNat n hlow]
      rfl
    · rw [if_neg hneg, decide_eq_false (by lia), Bool.false_and]
      simp
  · rw [if_neg hlow, AVInteger.wordAt]
    by_cases hneg : 0 ≤ q + 1
    · obtain ⟨n, hn⟩ := Int.eq_ofNat_of_zero_le hneg
      have hindex : (16 * q + (k : Int)).toNat = 16 * n + (k - 16) := by lia
      rw [if_pos hneg, decide_eq_true (by lia), Bool.true_and, hn, Int.toNat_natCast, hindex,
        a.testBit_toNat n (by lia)]
    · rw [if_neg hneg, decide_eq_false (by lia), Bool.false_and]
      simp

theorem testBit_avShrI (a : AVInteger) (hlo : -2 ^ 31 ≤ s) (hhi : s < 2 ^ 31) {p : Nat}
    (hp : p < 128) :
    (avShrI a s).toNat.testBit p =
      (decide (0 ≤ (p : Int) + s) && a.toNat.testBit ((p : Int) + s).toNat) := by
  have hi : p / 16 < avIntegerSize := by
    show p / 16 < 8
    lia
  have ht : p % 16 < 16 := Nat.mod_lt _ (by decide)
  have hword : (avShrI a s).word (p / 16) = shrWord a s (p / 16) := by
    rw [AVInteger.word, avShrI, List.getD_eq_getElem?_getD, List.getElem?_map,
      List.getElem?_range hi]
    rfl
  have hplace : 16 * ((p / 16 : Nat) : Int) + (p % 16 : Nat) = p := by
    push_cast
    lia
  have hbit := getLsbD_shrWord a hlo hhi hi ht
  rw [hplace, ← hword, ← AVInteger.testBit_toNat _ _ ht, Nat.div_add_mod] at hbit
  exact hbit

theorem testBit_of_ge (a : AVInteger) {p : Nat} (hp : 128 ≤ p) : a.toNat.testBit p = false :=
  Nat.testBit_lt_two_pow (a.toNat_lt.trans_le (Nat.pow_le_pow_right (by decide) hp))

theorem avShrI_right (a : AVInteger) (hn : n < 2 ^ 31) : (avShrI a n).toNat = a.toNat / 2 ^ n := by
  rw [← Nat.shiftRight_eq_div_pow]
  apply Nat.eq_of_testBit_eq
  intro p
  rw [Nat.testBit_shiftRight]
  by_cases hp : p < 128
  · rw [testBit_avShrI a (by lia) (by lia) hp, decide_eq_true (by lia), Bool.true_and,
      show ((p : Int) + n).toNat = n + p by lia]
  · rw [testBit_of_ge _ (by lia), testBit_of_ge _ (by lia)]

theorem avShrI_left (a : AVInteger) (hn : n < 2 ^ 31) :
    (avShrI a (-n)).toNat = a.toNat * 2 ^ n % 2 ^ 128 := by
  rw [← Nat.shiftLeft_eq]
  apply Nat.eq_of_testBit_eq
  intro p
  rw [Nat.testBit_mod_two_pow, Nat.testBit_shiftLeft]
  by_cases hp : p < 128
  · rw [testBit_avShrI a (by lia) (by lia) hp, decide_eq_true hp, Bool.true_and]
    by_cases hle : n ≤ p
    · rw [decide_eq_true (by lia), decide_eq_true hle, show ((p : Int) + -n).toNat = p - n by lia]
    · rw [decide_eq_false (by lia), decide_eq_false hle, Bool.false_and, Bool.false_and]
  · rw [testBit_of_ge _ (by lia), decide_eq_false hp, Bool.false_and]

/-! ## Signs -/

theorem AVInteger.toInt_eq_cond (a : AVInteger) :
    a.toInt = if a.toNat < 2 ^ 127 then (a.toNat : Int) else a.toNat - 2 ^ 128 := by
  rw [AVInteger.toInt, BitVec.toInt_eq_toNat_cond, a.toNat_toBitVec]
  split_ifs <;> push_cast <;> lia

theorem AVInteger.toInt_of_lt (h : a.toNat < 2 ^ 127) : a.toInt = a.toNat := by
  rw [a.toInt_eq_cond, if_pos h]

theorem AVInteger.toInt_lt (a : AVInteger) : a.toInt < 2 ^ 127 := by
  have hlt := a.toNat_lt
  rw [a.toInt_eq_cond]
  split_ifs <;> lia

theorem AVInteger.le_toInt (a : AVInteger) : -2 ^ 127 ≤ a.toInt := by
  have hlt := a.toNat_lt
  rw [a.toInt_eq_cond]
  split_ifs <;> lia

theorem AVInteger.toNat_of_nonneg (h : 0 ≤ a.toInt) : a.toNat < 2 ^ 127 ∧ a.toInt = a.toNat := by
  have hlt := a.toNat_lt
  rw [a.toInt_eq_cond] at h ⊢
  split_ifs at h ⊢ <;> lia

theorem word_neg_iff (a : AVInteger) : (a.word (avIntegerSize - 1)).toInt < 0 ↔ a.toInt < 0 := by
  have hlow : (value (a.v.take 7) : Int) < 2 ^ 112 := by
    have := value_take_lt a.v 7
    rw [← pow_mul] at this
    exact_mod_cast this
  rw [a.toInt_eq, show avIntegerSize - 1 = 7 from rfl]
  lia

theorem toBitVec_neg (a : AVInteger) : (avSubI zeroI a).toBitVec = -a.toBitVec := by
  have hzero : zeroI.toBitVec = 0#128 := by
    rw [AVInteger.toBitVec]
    rfl
  rw [avSubI_eq, hzero, BitVec.zero_sub]

theorem toInt_neg (h : a.toInt ≠ -2 ^ 127) : (avSubI zeroI a).toInt = -a.toInt := by
  have hlo := a.le_toInt
  have hhi := a.toInt_lt
  rw [AVInteger.toInt, toBitVec_neg, BitVec.toInt_neg, ← AVInteger.toInt]
  exact Int.bmod_eq_of_le_mul_two (by push_cast; lia) (by push_cast; lia)

theorem toInt_neg_min (h : a.toInt = -2 ^ 127) : (avSubI zeroI a).toInt = -2 ^ 127 := by
  rw [AVInteger.toInt, toBitVec_neg, BitVec.toInt_neg, ← AVInteger.toInt, h]
  rfl

/-! ## The long division -/

theorem toNat_avSubI (h : b.toNat ≤ a.toNat) : (avSubI a b).toNat = a.toNat - b.toNat := by
  have ha := a.toNat_lt
  have hsub := congrArg BitVec.toNat (avSubI_eq a b)
  rw [BitVec.toNat_sub, AVInteger.toNat_toBitVec, AVInteger.toNat_toBitVec,
    AVInteger.toNat_toBitVec] at hsub
  lia

theorem toNat_incr (h : a.toNat % 2 = 0) : a.incr.toNat = a.toNat + 1 := by
  obtain ⟨v, hlength⟩ := a
  obtain ⟨x, l, rfl⟩ := List.exists_cons_of_length_eq_add_one hlength
  have hx := x.isLt
  replace h : (x.toNat + 2 ^ 16 * value l) % 2 = 0 := h
  show (x + 1).toNat + 2 ^ 16 * value l = x.toNat + 2 ^ 16 * value l + 1
  rw [BitVec.toNat_add, show (1 : BitVec 16).toNat = 1 from rfl]
  lia

/-- With `n` rounds left the divisor has been shifted by `n - 1`. -/
theorem modLoop_eq (hd : 0 < d) (hb : 0 < n → b.toNat = d * 2 ^ (n - 1))
    (hb' : 0 < n → b.toNat < 2 ^ 127)
    (ha : a.toNat < d * 2 ^ n) (ha' : a.toNat < 2 ^ 127)
    (hquot : (q.toNat + 1) * 2 ^ n ≤ 2 ^ 127) :
    (modLoop n q a b).1.toNat = q.toNat * 2 ^ n + a.toNat / d ∧
      (modLoop n q a b).2.toNat = a.toNat % d := by
  induction n generalizing q a b with
  | zero =>
    rw [pow_zero, Nat.mul_one] at ha
    rw [modLoop, Nat.div_eq_of_lt ha, Nat.mod_eq_of_lt ha, pow_zero, Nat.mul_one, Nat.add_zero]
    exact ⟨rfl, rfl⟩
  | succ n ih =>
    have hb := hb (Nat.succ_pos n)
    have hb' := hb' (Nat.succ_pos n)
    rw [Nat.add_sub_cancel] at hb
    have hpos : 0 < 2 ^ n := Nat.two_pow_pos n
    rw [pow_succ, ← Nat.mul_assoc] at ha
    have hroom : (2 * q.toNat + 2) * 2 ^ n ≤ 2 ^ 127 := by
      rw [pow_succ] at hquot
      linarith
    have hquot' : 2 * q.toNat + 2 ≤ 2 ^ 127 :=
      (Nat.le_mul_of_pos_right _ hpos).trans hroom
    have hdouble : (avShrI q (-1)).toNat = 2 * q.toNat := by
      have hleft := avShrI_left q (n := 1) (by decide)
      push_cast at hleft
      lia
    have hhalf : 0 < n → (avShrI b 1).toNat = d * 2 ^ (n - 1) := by
      intro hn
      have hright := avShrI_right b (n := 1) (by decide)
      push_cast at hright
      rw [hright, hb]
      obtain ⟨k, rfl⟩ : ∃ k, n = k + 1 := ⟨n - 1, by lia⟩
      rw [Nat.add_sub_cancel, pow_succ, ← Nat.mul_assoc, Nat.mul_div_cancel _ Nat.two_pos]
    have hhalf' : 0 < n → (avShrI b 1).toNat < 2 ^ 127 := by
      intro _
      have hright := avShrI_right b (n := 1) (by decide)
      push_cast at hright
      lia
    have hcmp : 0 ≤ avCmpI a b ↔ b.toNat ≤ a.toNat := by
      rw [avCmpI_eq, AVInteger.toInt_of_lt ha', AVInteger.toInt_of_lt hb', Int.sign_nonneg_iff]
      lia
    rw [modLoop]
    by_cases hle : b.toNat ≤ a.toNat
    · have hsub := toNat_avSubI hle
      have hincr : (avShrI q (-1)).incr.toNat = 2 * q.toNat + 1 := by
        rw [toNat_incr (by lia), hdouble]
      obtain ⟨hq, hr⟩ := ih hhalf hhalf' (a := avSubI a b) (q := (avShrI q (-1)).incr)
        (by lia) (by lia) (by rw [hincr]; exact hroom)
      have hsplit : a.toNat = (a.toNat - b.toNat) + d * 2 ^ n := by lia
      have hdiv : a.toNat / d = (a.toNat - b.toNat) / d + 2 ^ n := by
        conv_lhs => rw [hsplit]
        rw [Nat.add_mul_div_left _ _ hd]
      have hmod : a.toNat % d = (a.toNat - b.toNat) % d := by
        conv_lhs => rw [hsplit]
        rw [Nat.add_mul_mod_self_left]
      rw [if_pos (hcmp.2 hle), hq, hr, hincr, hsub, hdiv, hmod]
      refine ⟨?_, rfl⟩
      ring
    · obtain ⟨hq, hr⟩ := ih hhalf hhalf' (a := a) (q := avShrI q (-1)) (by lia) ha'
        (by rw [hdouble]; nlinarith)
      rw [if_neg (fun h => hle (hcmp.1 h)), hq, hr, hdouble]
      refine ⟨?_, rfl⟩
      ring

/-- The quotient and the remainder of two signed numbers, rounded towards zero. -/
structure IsQuotRem (a b q r : AVInteger) : Prop where
  eq : a.toInt = q.toInt * b.toInt + r.toInt
  abs_lt : |r.toInt| < b.toInt
  sign : r.toInt = 0 ∨ r.toInt.sign = a.toInt.sign

variable {r : AVInteger}

/-- The divisor is shifted to the length of the number, and back in as many rounds. -/
theorem shifted_divisor (ha : a.toNat < 2 ^ 127) (hd : 0 < b.toNat) {i : Int}
    (hi : i = avLog2I a - avLog2I b) (hn : n = (i + 1).toNat) :
    2 ^ n ≤ 2 ^ 127 ∧ a.toNat < b.toNat * 2 ^ n ∧
      (0 < n → (if 0 < i then avShrI b (-i) else b).toNat = b.toNat * 2 ^ (n - 1) ∧
        b.toNat * 2 ^ (n - 1) < 2 ^ 127) := by
  rw [avLog2I_eq, avLog2I_eq, if_neg hd.ne'] at hi
  have hbself := Nat.log2_self_le hd.ne'
  have hbnext := Nat.lt_log2_self (n := b.toNat)
  have hanext := Nat.lt_log2_self (n := a.toNat)
  by_cases hzero : a.toNat = 0
  · -- zero is shorter than the divisor
    rw [if_pos hzero] at hi
    obtain rfl : n = 0 := by lia
    exact ⟨by decide, by lia, fun h => absurd h (lt_irrefl 0)⟩
  · rw [if_neg hzero] at hi
    have hbits : a.toNat.log2 < 127 := (Nat.log2_lt hzero).2 ha
    refine ⟨Nat.pow_le_pow_right (by decide) (by lia), ?_, ?_⟩
    · calc a.toNat < 2 ^ (a.toNat.log2 + 1) := hanext
        _ ≤ 2 ^ (b.toNat.log2 + n) := Nat.pow_le_pow_right (by decide) (by lia)
        _ = 2 ^ b.toNat.log2 * 2 ^ n := Nat.pow_add _ _ _
        _ ≤ b.toNat * 2 ^ n := Nat.mul_le_mul_right _ hbself
    · intro hpos
      have hlt : b.toNat * 2 ^ (n - 1) < 2 ^ 127 :=
        calc b.toNat * 2 ^ (n - 1) < 2 ^ (b.toNat.log2 + 1) * 2 ^ (n - 1) :=
              Nat.mul_lt_mul_of_pos_right hbnext (Nat.two_pow_pos _)
          _ = 2 ^ (b.toNat.log2 + 1 + (n - 1)) := (Nat.pow_add _ _ _).symm
          _ ≤ 2 ^ 127 := Nat.pow_le_pow_right (by decide) (by lia)
      refine ⟨?_, hlt⟩
      by_cases hipos : 0 < i
      · have hleft := avShrI_left b (n := n - 1) (by lia)
        rw [show ((n - 1 : Nat) : Int) = i by lia, Nat.mod_eq_of_lt (by lia)] at hleft
        rw [if_pos hipos, hleft]
      · rw [if_neg hipos, show n - 1 = 0 by lia, pow_zero, Nat.mul_one]

/-- One call is enough for a number that is not negative. -/
theorem avModI_nonneg (ha : 0 ≤ a.toInt) (hb : 0 < b.toInt) (depth : Nat) :
    ∃ q r, avModI (depth + 1) a b = some (q, r) ∧ IsQuotRem a b q r ∧ 0 ≤ q.toInt ∧
      0 ≤ r.toInt := by
  obtain ⟨ha127, haInt⟩ := AVInteger.toNat_of_nonneg ha
  obtain ⟨hb127, hbInt⟩ := AVInteger.toNat_of_nonneg hb.le
  have hd : 0 < b.toNat := by lia
  obtain ⟨i, hi⟩ : ∃ i, i = avLog2I a - avLog2I b := ⟨_, rfl⟩
  obtain ⟨n, hn⟩ : ∃ n, n = (i + 1).toNat := ⟨_, rfl⟩
  obtain ⟨hroom, hbelow, hshift⟩ := shifted_divisor ha127 hd hi hn
  obtain ⟨c, hc⟩ : ∃ c, c = if 0 < i then avShrI b (-i) else b := ⟨_, rfl⟩
  rw [← hc] at hshift
  have hzero : zeroI.toNat = 0 := rfl
  obtain ⟨hq, hr⟩ := modLoop_eq (q := zeroI) hd (fun h => (hshift h).1)
    (fun h => (hshift h).1.trans_lt (hshift h).2) hbelow ha127
    (by rw [hzero, Nat.zero_add, Nat.one_mul]; exact hroom)
  rw [hzero, Nat.zero_mul, Nat.zero_add] at hq
  have hsign : ¬ (a.word (avIntegerSize - 1)).toInt < 0 := by
    rw [word_neg_iff]
    lia
  have hrun : avModI (depth + 1) a b = some (modLoop n zeroI a c) := by
    rw [avModI, if_neg hsign]
    dsimp only
    rw [← hi, ← hn, ← hc]
  obtain ⟨⟨q, r⟩, hloop⟩ : ∃ p, p = modLoop n zeroI a c := ⟨_, rfl⟩
  rw [← hloop] at hq hr hrun
  have hrlt : a.toNat % b.toNat < b.toNat := Nat.mod_lt _ hd
  have hqInt := AVInteger.toInt_of_lt (hq.trans_lt ((Nat.div_le_self _ _).trans_lt ha127))
  have hrInt := AVInteger.toInt_of_lt (hr.trans_lt (hrlt.trans hb127))
  rw [hq] at hqInt
  rw [hr] at hrInt
  refine ⟨q, r, hrun, ⟨?_, ?_, ?_⟩, ?_, ?_⟩
  · have hdiv := Nat.div_add_mod' a.toNat b.toNat
    rw [hqInt, hrInt, haInt, hbInt]
    exact_mod_cast hdiv.symm
  · rw [hrInt, hbInt, abs_of_nonneg (Nat.cast_nonneg _)]
    exact_mod_cast hrlt
  · have hle := Nat.mod_le a.toNat b.toNat
    rw [hrInt, haInt]
    rcases Nat.eq_zero_or_pos (a.toNat % b.toNat) with h | h
    · exact Or.inl (by exact_mod_cast h)
    · right
      rw [Int.sign_eq_one_of_pos (by exact_mod_cast h), Int.sign_eq_one_of_pos (by lia)]
  · rw [hqInt]
    exact Nat.cast_nonneg _
  · rw [hrInt]
    exact Nat.cast_nonneg _

theorem avModI_neg (ha : a.toInt < 0) (hmin : a.toInt ≠ -2 ^ 127) (hb : 0 < b.toInt) (depth : Nat) :
    ∃ q r, avModI (depth + 2) a b = some (q, r) ∧ IsQuotRem a b q r := by
  have hneg := toInt_neg hmin
  obtain ⟨q, r, hrun, hqr, hq, hr⟩ :=
    avModI_nonneg (a := avSubI zeroI a) (by lia) hb depth
  have hqneg := toInt_neg (a := q) (by lia)
  have hrneg := toInt_neg (a := r) (by lia)
  have heq := hqr.eq
  have habs := hqr.abs_lt
  refine ⟨avSubI zeroI q, avSubI zeroI r, ?_, ?_, ?_, ?_⟩
  · have hsign := (word_neg_iff a).2 ha
    rw [avModI, if_pos hsign]
    dsimp only
    rw [hrun]
    rfl
  · rw [hqneg, hrneg]
    rw [hneg] at heq
    linear_combination -heq
  · rw [hrneg, abs_neg]
    exact habs
  · rw [hrneg]
    refine hqr.sign.imp (by lia) ?_
    intro hsign
    rw [hneg, Int.sign_neg] at hsign
    rw [Int.sign_neg, hsign, neg_neg]

theorem avModI_min (ha : a.toInt = -2 ^ 127) (b : AVInteger) (depth : Nat) :
    avModI depth a b = none := by
  induction depth generalizing a with
  | zero => rfl
  | succ depth ih =>
    have hsign := (word_neg_iff a).2 (by lia)
    rw [avModI, if_pos hsign]
    dsimp only
    rw [ih (toInt_neg_min ha)]
    rfl

/-- `av_mod_i` comes back with the quotient of `av_div_i` and the remainder. -/
def Divides (a b : AVInteger) : Prop :=
  ∃ depth q r, avModI depth a b = some (q, r) ∧ avDivI depth a b = some q ∧ IsQuotRem a b q r

theorem divides_iff (hb : 0 < b.toInt) : Divides a b ↔ a.toInt ≠ -2 ^ 127 := by
  constructor
  · rintro ⟨depth, q, r, hrun, -, -⟩ hmin
    rw [avModI_min hmin] at hrun
    cases hrun
  · intro hmin
    rcases lt_or_ge a.toInt 0 with hneg | hnonneg
    · obtain ⟨q, r, hrun, hqr⟩ := avModI_neg hneg hmin hb 0
      exact ⟨2, q, r, hrun, by rw [avDivI, hrun]; rfl, hqr⟩
    · obtain ⟨q, r, hrun, hqr, -, -⟩ := avModI_nonneg hnonneg hb 0
      exact ⟨1, q, r, hrun, by rw [avDivI, hrun]; rfl, hqr⟩

/-- **The arithmetic is exact, and a division by a positive number ends with the right result unless
the number is the most negative one.** -/
theorem avInteger_exact (a b : AVInteger) :
    ((avAddI a b).toBitVec = a.toBitVec + b.toBitVec ∧
      (avSubI a b).toBitVec = a.toBitVec - b.toBitVec ∧
      (avMulI a b).toBitVec = a.toBitVec * b.toBitVec ∧
      avCmpI a b = (a.toInt - b.toInt).sign) ∧
    (∀ x : Int, int64Min ≤ x → x ≤ int64Max → avI2int (avInt2i x) = x) ∧
    (0 < b.toInt → (Divides a b ↔ a.toInt ≠ -2 ^ 127)) :=
  ⟨⟨avAddI_eq a b, avSubI_eq a b, avMulI_eq a b, avCmpI_eq a b⟩, fun _ => avI2int_avInt2i_eq,
    divides_iff⟩

/-- The most negative number. -/
def minI : AVInteger := ⟨[0, 0, 0, 0, 0, 0, 0, 0x8000], rfl⟩

/-- The most negative number divided by one. -/
theorem avModI_endless :
    0 < (avInt2i 1).toInt ∧ (∀ depth, avModI depth minI (avInt2i 1) = none) ∧
      ¬ ∀ a b : AVInteger, 0 < b.toInt → Divides a b := by
  have hmin : minI.toInt = -2 ^ 127 := rfl
  have hone : 0 < (avInt2i 1).toInt := by
    show 0 < (1 : Int)
    decide
  refine ⟨hone, avModI_min hmin _, ?_⟩
  intro h
  exact (divides_iff hone).1 (h minI (avInt2i 1) hone) hmin

/-- Ten divided by three. -/
theorem avInteger_exact_ten :
    (avAddI (avInt2i 10) (avInt2i 3)).toBitVec = (avInt2i 10).toBitVec + (avInt2i 3).toBitVec ∧
      avI2int (avInt2i (-10)) = -10 ∧
      (Divides (avInt2i 10) (avInt2i 3) ↔ (avInt2i 10).toInt ≠ -2 ^ 127) :=
  ⟨(avInteger_exact (avInt2i 10) (avInt2i 3)).1.1,
    (avInteger_exact (avInt2i 10) (avInt2i 3)).2.1 (-10) (by decide) (by decide),
    (avInteger_exact (avInt2i 10) (avInt2i 3)).2.2 (by
      show 0 < (3 : Int)
      decide)⟩

end FFmpeg.Libavutil.Integer
