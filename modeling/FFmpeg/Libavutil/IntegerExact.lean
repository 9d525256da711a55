import FFmpeg.Libavutil.Integer

/-!
# The arithmetic of 128-bit integers is exact

The words of an integer stand for 128 bits.  Sums, differences and products are those of these bits,
comparison is that of the signed numbers, and the division loop subtracts the shifted divisor as
often as it fits.
-/

namespace FFmpeg.Libavutil.Integer

open Common.Limbs

variable {a b : AVInteger} {l m : List (BitVec 16)} {i n : Nat}

/-- The number without sign. -/
def AVInteger.toNat (a : AVInteger) : Nat := value a.v

/-- The bits. -/
def AVInteger.toBitVec (a : AVInteger) : BitVec 128 := BitVec.ofNat 128 a.toNat

/-- The signed number. -/
def AVInteger.toInt (a : AVInteger) : Int := a.toBitVec.toInt

theorem AVInteger.toNat_lt (a : AVInteger) : a.toNat < 2 ^ 128 := by
  have hlt := value_lt a.v
  rw [a.length_eq] at hlt
  exact hlt

theorem AVInteger.toNat_toBitVec (a : AVInteger) : a.toBitVec.toNat = a.toNat := by
  rw [AVInteger.toBitVec, BitVec.toNat_ofNat, Nat.mod_eq_of_lt a.toNat_lt]

theorem AVInteger.toBitVec_eq_ofInt {z : Int} (h : (a.toNat : Int) = z % (2 ^ 16) ^ avIntegerSize) :
    a.toBitVec = BitVec.ofInt 128 z := by
  apply BitVec.eq_of_toNat_eq
  rw [a.toNat_toBitVec, BitVec.toNat_ofInt]
  have hpow : ((2 : Int) ^ 16) ^ avIntegerSize = (2 ^ 128 : Nat) := by norm_num [avIntegerSize]
  rw [hpow] at h
  lia

/-! ## Sums and differences -/

theorem emod_digit (t z : Int) {c d : Int} (hc : 0 < c) (hd : 0 < d) :
    t % c + c * ((t / c + z) % d) = (t + c * z) % (c * d) := by
  have hlow := Int.emod_nonneg t hc.ne'
  have hlow' := Int.emod_lt_of_pos t hc
  have hhigh := Int.emod_nonneg (t / c + z) hd.ne'
  have hhigh' := Int.emod_lt_of_pos (t / c + z) hd
  have hsplit : t + c * z = t % c + c * ((t / c + z) % d) + c * d * ((t / c + z) / d) := by
    have ht := Int.emod_add_mul_ediv t c
    have hu := Int.emod_add_mul_ediv (t / c + z) d
    calc t + c * z = t % c + c * (t / c + z) := by linear_combination -ht
      _ = t % c + c * ((t / c + z) % d + d * ((t / c + z) / d)) := by rw [hu]
      _ = _ := by ring
  rw [hsplit, Int.add_mul_emod_self_left]
  symm
  apply Int.emod_eq_of_lt
  · positivity
  · nlinarith

theorem mod_digit (t z : Nat) {c : Nat} (hc : 0 < c) (d : Nat) :
    (t + c * z) % (c * d) = t % c + c * ((t / c + z) % d) := by
  rw [Nat.mod_mul, Nat.add_mul_mod_self_left, Nat.add_mul_div_left _ _ hc]

theorem toNat_ofInt16 (t : Int) : ((BitVec.ofInt 16 t).toNat : Int) = t % 2 ^ 16 := by
  rw [BitVec.toNat_ofInt]
  have hnonneg := Int.emod_nonneg t (show ((2 ^ 16 : Nat) : Int) ≠ 0 by decide)
  rw [Int.toNat_of_nonneg hnonneg]
  norm_num

theorem value_carry {t z : Int} {n : Nat}
    (h : (value l : Int) = (t >>> (16 : Nat) + z) % (2 ^ 16) ^ n) :
    (value (BitVec.ofInt 16 t :: l) : Int) = (t + 2 ^ 16 * z) % (2 ^ 16) ^ (n + 1) := by
  have hdigit := emod_digit t z (show (0 : Int) < 2 ^ 16 by norm_num)
    (show (0 : Int) < (2 ^ 16) ^ n by positivity)
  rw [Int.shiftRight_eq_div_pow] at h
  rw [← pow_succ'] at hdigit
  rw [value_cons, Nat.cast_add, Nat.cast_mul, h, toNat_ofInt16]
  push_cast at hdigit ⊢
  exact hdigit

theorem value_addLoop (carry : Int) (h : l.length = m.length) :
    (value (addLoop carry l m) : Int) =
      ((carry >>> (16 : Nat)) + value l + value m) % (2 ^ 16) ^ l.length := by
  induction l generalizing carry m with
  | nil =>
    rw [List.length_nil, pow_zero, Int.emod_one]
    rfl
  | cons x l ih =>
    obtain ⟨y, m, rfl⟩ := List.exists_cons_of_length_eq_add_one h.symm
    have hrest := ih ((carry >>> (16 : Nat)) + x.toNat + y.toNat) (Nat.succ.inj h)
    rw [add_assoc _ (value l : Int)] at hrest
    rw [addLoop, value_carry hrest, value_cons, value_cons, List.length_cons]
    push_cast
    congr 1
    ring

theorem value_subLoop (carry : Int) (h : l.length = m.length) :
    (value (subLoop carry l m) : Int) =
      ((carry >>> (16 : Nat)) + value l - value m) % (2 ^ 16) ^ l.length := by
  induction l generalizing carry m with
  | nil =>
    rw [List.length_nil, pow_zero, Int.emod_one]
    rfl
  | cons x l ih =>
    obtain ⟨y, m, rfl⟩ := List.exists_cons_of_length_eq_add_one h.symm
    have hrest := ih ((carry >>> (16 : Nat)) + x.toNat - y.toNat) (Nat.succ.inj h)
    rw [add_sub_assoc _ (value l : Int)] at hrest
    rw [subLoop, value_carry hrest, value_cons, value_cons, List.length_cons]
    push_cast
    congr 1
    ring

theorem avAddI_eq (a b : AVInteger) : (avAddI a b).toBitVec = a.toBitVec + b.toBitVec := by
  have hvalue := value_addLoop 0 (a.length_eq.trans b.length_eq.symm)
  rw [a.length_eq] at hvalue
  have hbits : (avAddI a b).toBitVec =
      BitVec.ofInt 128 ((0 : Int) >>> (16 : Nat) + a.toNat + b.toNat) :=
    AVInteger.toBitVec_eq_ofInt hvalue
  rw [hbits, Int.zero_shiftRight, zero_add, BitVec.ofInt_add, BitVec.ofInt_natCast,
    BitVec.ofInt_natCast]
  rfl

theorem avSubI_eq (a b : AVInteger) : (avSubI a b).toBitVec = a.toBitVec - b.toBitVec := by
  have hvalue := value_subLoop 0 (a.length_eq.trans b.length_eq.symm)
  rw [a.length_eq] at hvalue
  have hbits : (avSubI a b).toBitVec =
      BitVec.ofInt 128 ((0 : Int) >>> (16 : Nat) + a.toNat - b.toNat) :=
    AVInteger.toBitVec_eq_ofInt hvalue
  rw [hbits, Int.zero_shiftRight, zero_add, sub_eq_add_neg, BitVec.ofInt_add, BitVec.ofInt_neg,
    BitVec.ofInt_natCast, BitVec.ofInt_natCast, BitVec.sub_eq_add_neg]
  rfl

/-! ## Numbers of 64 bits -/

theorem value_int2iLoop (n : Nat) (x : Int) : (value (int2iLoop n x) : Int) = x % (2 ^ 16) ^ n := by
  induction n generalizing x with
  | zero =>
    rw [pow_zero, Int.emod_one]
    rfl
  | succ n ih =>
    have hrest := ih (x >>> (16 : Nat))
    rw [← add_zero (x >>> (16 : Nat))] at hrest
    rw [int2iLoop, ← add_zero (x >>> (16 : Nat)), value_carry hrest, mul_zero, add_zero]

theorem avInt2i_eq (x : Int) : (avInt2i x).toBitVec = BitVec.ofInt 128 x :=
  AVInteger.toBitVec_eq_ofInt (value_int2iLoop avIntegerSize x)

theorem i2intLoop_eq (hi : i ≤ l.length) (out : Nat) :
    i2intLoop l i (BitVec.ofNat 64 out) =
      BitVec.ofNat 64 ((2 ^ 16) ^ i * out + value (l.take i)) := by
  induction i generalizing out with
  | zero => simp [i2intLoop]
  | succ i ih =>
    have hstep : (BitVec.ofNat 64 out <<< 16) + (l.getD i 0).setWidth 64 =
        BitVec.ofNat 64 (2 ^ 16 * out + (l.getD i 0).toNat) := by
      apply BitVec.eq_of_toNat_eq
      simp only [BitVec.toNat_add, BitVec.toNat_shiftLeft, BitVec.toNat_ofNat, Nat.shiftLeft_eq,
        BitVec.toNat_setWidth]
      lia
    rw [i2intLoop, hstep, ih (Nat.le_of_succ_le hi), value_take_succ hi]
    congr 1
    ring

theorem avI2int_eq (a : AVInteger) : avI2int a = (a.toBitVec.setWidth 64).toInt := by
  have hlength := a.length_eq
  have hvalue : a.toNat = value (a.v.take 7) + (2 ^ 16) ^ 7 * (a.word 7).toNat := by
    have hall : a.v.take 8 = a.v := List.take_of_length_le hlength.le
    have hlast := value_take_succ (l := a.v) (i := 7) (by rw [hlength]; decide)
    rwa [hall] at hlast
  have hloop := i2intLoop_eq (l := a.v) (i := 7) (by rw [hlength]; decide)
    (((a.word 7).setWidth 8).signExtend 64).toNat
  rw [BitVec.ofNat_toNat, BitVec.setWidth_eq] at hloop
  have hbits : i2intLoop a.v 7 (((a.word 7).setWidth 8).signExtend 64) =
      a.toBitVec.setWidth 64 := by
    rw [hloop]
    apply BitVec.eq_of_toNat_eq
    rw [BitVec.toNat_setWidth, a.toNat_toBitVec, BitVec.toNat_ofNat, hvalue]
    lia
  rw [avI2int]
  exact congrArg BitVec.toInt hbits

theorem avI2int_avInt2i_eq {x : Int} (hlo : int64Min ≤ x) (hhi : x ≤ int64Max) :
    avI2int (avInt2i x) = x := by
  have hwidth : (BitVec.ofInt 128 x).setWidth 64 = BitVec.ofInt 64 x := by
    apply BitVec.eq_of_toNat_eq
    rw [BitVec.toNat_setWidth, BitVec.toNat_ofInt, BitVec.toNat_ofInt]
    lia
  rw [avI2int_eq, avInt2i_eq, hwidth, BitVec.toInt_ofInt]
  unfold int64Min at hlo
  unfold int64Max at hhi
  exact Int.bmod_eq_of_le_mul_two (by push_cast; lia) (by push_cast; lia)

/-! ## Products -/

theorem log2Loop_eq (hi : i ≤ l.length) :
    log2Loop l i = if value (l.take i) = 0 then -1 else ((value (l.take i)).log2 : Int) := by
  induction i with
  | zero => simp [log2Loop]
  | succ i ih =>
    have hlog := log2_value_take_succ hi
    rw [log2Loop]
    by_cases hx : l.getD i 0 = 0
    · rw [if_neg (not_not.2 hx), ih (Nat.le_of_succ_le hi), value_take_succ hi, hx]
      simp
    · have hword : 0 < (l.getD i 0).toNat := by
        rw [Nat.pos_iff_ne_zero]
        intro hzero
        exact hx (BitVec.eq_of_toNat_eq hzero)
      have hpos : 0 < (2 ^ 16) ^ i * (l.getD i 0).toNat := by positivity
      rw [if_pos hx, hlog hx, if_neg]
      · push_cast
        rfl
      · rw [value_take_succ hi]
        lia

theorem AVInteger.take_length (a : AVInteger) : a.v.take avIntegerSize = a.v :=
  List.take_of_length_le a.length_eq.le

theorem avLog2I_eq (a : AVInteger) :
    avLog2I a = if a.toNat = 0 then -1 else (a.toNat.log2 : Int) := by
  rw [avLog2I, log2Loop_eq a.length_eq.ge, a.take_length]
  rfl

theorem words_spec (a : AVInteger) {k : Nat} (hk : k = ((avLog2I a + 16) >>> (4 : Nat)).toNat) :
    k ≤ avIntegerSize ∧ a.toNat < (2 ^ 16) ^ k := by
  have hlt := a.toNat_lt
  rw [avLog2I_eq, Int.shiftRight_eq_div_pow] at hk
  by_cases hzero : a.toNat = 0
  · rw [if_pos hzero] at hk
    norm_num at hk
    rw [hk, hzero]
    exact ⟨Nat.zero_le _, Nat.one_pos⟩
  · rw [if_neg hzero] at hk
    have hlog : a.toNat.log2 < 128 := (Nat.log2_lt hzero).2 hlt
    have hwords : k = (a.toNat.log2 + 16) / 16 := by lia
    refine ⟨?_, ?_⟩
    · show k ≤ 8
      lia
    · rw [← Nat.pow_mul]
      exact (Nat.log2_lt hzero).1 (by lia)

/-- A row of the product.  The last carry is zero if the row has a word for it. -/
theorem value_mulRow (x : BitVec 16) (carry : BitVec 32)
    (h : l.length ≤ m.length ∨
      (carry >>> 16).toNat + value l + x.toNat * value m < (2 ^ 16) ^ m.length) :
    value (mulRow x carry l m) =
      ((carry >>> 16).toNat + value l + x.toNat * value m) % (2 ^ 16) ^ l.length := by
  induction l generalizing carry m with
  | nil => simp [mulRow, Nat.mod_one]
  | cons o l ih =>
    cases m with
    | nil =>
      -- nothing is left to be added
      have hsmall : (carry >>> 16).toNat + value (o :: l) < 1 := by
        rcases h with h | h
        · exact absurd h (by simp)
        · simpa using h
      have hsum : (carry >>> 16).toNat + value (o :: l) = value (o :: l) := by lia
      rw [value_nil, Nat.mul_zero, Nat.add_zero, hsum, Nat.mod_eq_of_lt (value_lt (o :: l))]
      rfl
    | cons y m =>
      have hx := x.isLt
      have ho := o.isLt
      have hy := y.isLt
      have hcarry : (carry >>> 16).toNat < 2 ^ 16 := by
        have := carry.isLt
        rw [BitVec.toNat_ushiftRight, Nat.shiftRight_eq_div_pow]
        lia
      have hproduct : x.toNat * y.toNat ≤ (2 ^ 16 - 1) * (2 ^ 16 - 1) :=
        Nat.mul_le_mul (by lia) (by lia)
      obtain ⟨t, ht⟩ : ∃ t, t = (carry >>> 16).toNat + o.toNat + x.toNat * y.toNat := ⟨_, rfl⟩
      have hnext : ((carry >>> 16) + o.setWidth 32 + x.setWidth 32 * y.setWidth 32).toNat = t := by
        simp only [BitVec.toNat_add, BitVec.toNat_mul, BitVec.toNat_setWidth]
        rw [Nat.mod_eq_of_lt (show o.toNat < 2 ^ 32 by lia),
          Nat.mod_eq_of_lt (show x.toNat < 2 ^ 32 by lia),
          Nat.mod_eq_of_lt (show y.toNat < 2 ^ 32 by lia),
          Nat.mod_eq_of_lt (show x.toNat * y.toNat < 2 ^ 32 by lia)]
        lia
      obtain ⟨next, hnextEq⟩ :
          ∃ next, next = (carry >>> 16) + o.setWidth 32 + x.setWidth 32 * y.setWidth 32 := ⟨_, rfl⟩
      rw [← hnextEq] at hnext
      have hhigh : (next >>> 16).toNat = t / 2 ^ 16 := by
        rw [BitVec.toNat_ushiftRight, hnext, Nat.shiftRight_eq_div_pow]
      have htotal : (carry >>> 16).toNat + value (o :: l) + x.toNat * value (y :: m) =
          t + 2 ^ 16 * (value l + x.toNat * value m) := by
        rw [value_cons, value_cons, ht]
        ring
      rw [htotal] at h ⊢
      have hrest : l.length ≤ m.length ∨
          (next >>> 16).toNat + value l + x.toNat * value m < (2 ^ 16) ^ m.length := by
        refine h.imp Nat.le_of_succ_le_succ ?_
        intro hlt
        rw [List.length_cons, pow_succ' (2 ^ 16) m.length] at hlt
        have hdiv := Nat.div_lt_of_lt_mul hlt
        rw [Nat.add_mul_div_left _ _ (by positivity)] at hdiv
        rw [hhigh, Nat.add_assoc]
        exact hdiv
      rw [mulRow, ← hnextEq, value_cons, ih next hrest, BitVec.toNat_setWidth, hnext, hhigh,
        List.length_cons, pow_succ' (2 ^ 16) l.length, mod_digit t _ (by positivity), Nat.add_assoc]

/-- After `i` rows the product of the lower words is there. -/
theorem value_mulLoop {nb : Nat} (hl : l.length = avIntegerSize) (hm : m.length = avIntegerSize)
    (hnb : nb ≤ avIntegerSize) (hvalue : value m < (2 ^ 16) ^ nb) (hi : i ≤ avIntegerSize) :
    value (mulLoop l m nb i) = value (l.take i) * value m % (2 ^ 16) ^ avIntegerSize := by
  induction i with
  | zero =>
    rw [List.take_zero, value_nil, Nat.zero_mul, Nat.zero_mod]
    rfl
  | succ i ih =>
    have ih := ih (Nat.le_of_succ_le hi)
    have hlength := length_mulLoop l m nb i
    obtain ⟨out, hout⟩ : ∃ out, out = mulLoop l m nb i := ⟨_, rfl⟩
    rw [← hout] at ih hlength
    rw [mulLoop, ← hout, value_take_succ (hl.symm ▸ hi)]
    by_cases hx : l.getD i 0 = 0
    · rw [if_neg (not_not.2 hx), hx, ih]
      simp
    · have hx' := (l.getD i 0).isLt
      have hlow := value_take_lt l i
      have htake : value (m.take (nb + 1)) = value m := by
        apply value_take_of_lt
        exact hvalue.trans_le (Nat.pow_le_pow_right (by positivity) (Nat.le_succ nb))
      have hdrop : (out.drop i).length = avIntegerSize - i := by rw [List.length_drop, hlength]
      have hwords : (m.take (nb + 1)).length = min (nb + 1) avIntegerSize := by
        rw [List.length_take, hm]
      have hrow : value (mulRow (l.getD i 0) 0 (out.drop i) (m.take (nb + 1))) =
          (value (out.drop i) + (l.getD i 0).toNat * value m) % (2 ^ 16) ^ (avIntegerSize - i) := by
        rw [value_mulRow, htake, hdrop]
        · simp
        · rw [htake, hdrop, hwords]
          by_cases hlong : avIntegerSize - i ≤ min (nb + 1) avIntegerSize
          · exact Or.inl hlong
          · -- the rows so far did not reach the word of the last carry
            right
            have hnb' : min (nb + 1) avIntegerSize = nb + 1 := by lia
            have hexact : value out < (2 ^ 16) ^ i * (2 ^ 16) ^ nb := by
              rw [ih]
              refine (Nat.mod_le _ _).trans_lt ?_
              exact Nat.mul_lt_mul'' hlow hvalue
            have hhigh : value (out.drop i) < (2 ^ 16) ^ nb := by
              have hcut := value_take_add (l := out) i (by lia)
              refine Nat.lt_of_mul_lt_mul_left (a := (2 ^ 16) ^ i) ?_
              lia
            have hproduct : (l.getD i 0).toNat * value m ≤ (2 ^ 16 - 1) * ((2 ^ 16) ^ nb - 1) :=
              Nat.mul_le_mul (by lia) (by lia)
            have hzero : ((0 : BitVec 32) >>> 16).toNat = 0 := rfl
            rw [hnb', pow_succ' (2 ^ 16) nb, hzero]
            lia
      have hcut := value_take_add (l := out) i (by lia)
      have hpow : (2 ^ 16) ^ avIntegerSize = (2 ^ 16) ^ i * (2 ^ 16) ^ (avIntegerSize - i) := by
        rw [← pow_add, Nat.add_sub_cancel' (Nat.le_of_succ_le hi)]
      have hdigit := mod_digit (value (out.take i)) (value (out.drop i) +
        (l.getD i 0).toNat * value m) (show 0 < (2 ^ 16) ^ i by positivity)
        ((2 ^ 16) ^ (avIntegerSize - i))
      rw [Nat.mod_eq_of_lt (value_take_lt out i), Nat.div_eq_of_lt (value_take_lt out i),
        Nat.zero_add, ← hpow] at hdigit
      rw [if_pos hx, value_append, List.length_take, Nat.min_eq_left (by lia), hrow, ← hdigit,
        Nat.mul_add, ← Nat.add_assoc, ← hcut, ih, Nat.mod_add_mod]
      congr 1
      ring

theorem avMulI_eq (a b : AVInteger) : (avMulI a b).toBitVec = a.toBitVec * b.toBitVec := by
  obtain ⟨hna, ha⟩ := words_spec a rfl
  obtain ⟨hnb, hb⟩ := words_spec b rfl
  have hvalue := value_mulLoop a.length_eq b.length_eq hnb hb hna
  rw [value_take_of_lt ha] at hvalue
  apply BitVec.eq_of_toNat_eq
  rw [BitVec.toNat_mul, AVInteger.toNat_toBitVec, AVInteger.toNat_toBitVec,
    AVInteger.toNat_toBitVec]
  exact hvalue

/-! ## Comparing -/

theorem AVInteger.toNat_eq (a : AVInteger) :
    a.toNat = value (a.v.take 7) + 2 ^ 112 * (a.word 7).toNat := by
  have hlast := value_take_succ (l := a.v) (i := 7) (by rw [a.length_eq]; decide)
  rw [show 7 + 1 = avIntegerSize from rfl, a.take_length, ← pow_mul] at hlast
  exact hlast

theorem AVInteger.toInt_eq (a : AVInteger) :
    a.toInt = value (a.v.take 7) + 2 ^ 112 * (a.word 7).toInt := by
  have hlow := value_take_lt a.v 7
  rw [← pow_mul] at hlow
  have hword := (a.word 7).isLt
  have hnat := a.toNat_eq
  rw [AVInteger.toInt, BitVec.toInt_eq_toNat_cond, a.toNat_toBitVec, BitVec.toInt_eq_toNat_cond]
  split_ifs with hsmall hword' hword' <;> push_cast <;> lia

theorem cmpSign_eq {v : BitVec 32} {d : Int} (hv : v.toInt = d) (hlo : -65536 ≤ d)
    (hhi : d ≤ 65535) (hne : d ≠ 0) : cmpSign v = d.sign := by
  have hshift : (v.sshiftRight 16).toInt = d / 65536 := by
    rw [BitVec.toInt_sshiftRight, hv, Int.shiftRight_eq_div_pow]
    rfl
  rw [cmpSign]
  rcases lt_or_gt_of_ne hne with hneg | hpos
  · have hones : v.sshiftRight 16 = -1#32 := by
      apply BitVec.eq_of_toInt_eq
      rw [hshift]
      show d / 65536 = -1
      lia
    rw [hones, Int.sign_eq_neg_one_of_neg hneg]
    rfl
  · have hzero : v.sshiftRight 16 = 0#32 := by
      apply BitVec.eq_of_toInt_eq
      rw [hshift]
      show d / 65536 = 0
      lia
    rw [hzero, Int.sign_eq_one_of_pos hpos]
    rfl

theorem sign_add_mul {low d c : Int} (hlo : -c < low) (hhi : low < c) (hd : d ≠ 0) :
    (low + c * d).sign = d.sign := by
  rcases lt_or_gt_of_ne hd with hneg | hpos
  · rw [Int.sign_eq_neg_one_of_neg hneg, Int.sign_eq_neg_one_of_neg]
    nlinarith
  · rw [Int.sign_eq_one_of_pos hpos, Int.sign_eq_one_of_pos]
    nlinarith

theorem cmpLoop_eq (hl : i ≤ l.length) (hm : i ≤ m.length) :
    cmpLoop l m i = ((value (l.take i) : Int) - value (m.take i)).sign := by
  induction i with
  | zero => simp [cmpLoop]
  | succ i ih =>
    have hx := (l.getD i 0).isLt
    have hy := (m.getD i 0).isLt
    have hlow : (value (l.take i) : Int) < (2 ^ 16) ^ i := by exact_mod_cast value_take_lt l i
    have hlow' : (value (m.take i) : Int) < (2 ^ 16) ^ i := by exact_mod_cast value_take_lt m i
    have hv : ((l.getD i 0).setWidth 32 - (m.getD i 0).setWidth 32).toInt =
        ((l.getD i 0).toNat : Int) - (m.getD i 0).toNat := by
      rw [BitVec.toInt_sub, BitVec.toInt_setWidth, BitVec.toInt_setWidth,
        Int.bmod_eq_of_le_mul_two (x := (l.getD i 0).toNat) (by push_cast; lia)
          (by push_cast; lia),
        Int.bmod_eq_of_le_mul_two (x := (m.getD i 0).toNat) (by push_cast; lia)
          (by push_cast; lia)]
      exact Int.bmod_eq_of_le_mul_two (by push_cast; lia) (by push_cast; lia)
    have hsplit : (value (l.take (i + 1)) : Int) - value (m.take (i + 1)) =
        (value (l.take i) - value (m.take i)) +
          (2 ^ 16) ^ i * ((l.getD i 0).toNat - (m.getD i 0).toNat) := by
      rw [value_take_succ hl, value_take_succ hm]
      push_cast
      ring
    rw [cmpLoop, hsplit]
    by_cases hzero : (l.getD i 0).setWidth 32 - (m.getD i 0).setWidth 32 = 0
    · rw [hzero] at hv
      replace hv : 0 = ((l.getD i 0).toNat : Int) - (m.getD i 0).toNat := hv
      rw [if_neg (not_not.2 hzero), ih (Nat.le_of_succ_le hl) (Nat.le_of_succ_le hm), ← hv,
        mul_zero, add_zero]
    · have hne : ((l.getD i 0).toNat : Int) - (m.getD i 0).toNat ≠ 0 := by
        intro heq
        rw [heq] at hv
        exact hzero (BitVec.eq_of_toInt_eq hv)
      rw [if_pos hzero, cmpSign_eq hv (by lia) (by lia) hne, sign_add_mul (by lia) (by lia) hne]

/-- `av_cmp_i` gives the order of the signed numbers. -/
theorem avCmpI_eq (a b : AVInteger) : avCmpI a b = (a.toInt - b.toInt).sign := by
  have hlow : (value (a.v.take 7) : Int) < 2 ^ 112 := by
    have := value_take_lt a.v 7
    rw [← pow_mul] at this
    exact_mod_cast this
  have hlow' : (value (b.v.take 7) : Int) < 2 ^ 112 := by
    have := value_take_lt b.v 7
    rw [← pow_mul] at this
    exact_mod_cast this
  have hx := (a.word 7).toInt_lt
  have hx' := (a.word 7).le_toInt
  have hy := (b.word 7).toInt_lt
  have hy' := (b.word 7).le_toInt
  have hv : ((a.word 7).signExtend 32 - (b.word 7).signExtend 32).toInt =
      (a.word 7).toInt - (b.word 7).toInt := by
    rw [BitVec.toInt_sub, BitVec.toInt_signExtend_of_le (by decide),
      BitVec.toInt_signExtend_of_le (by decide)]
    exact Int.bmod_eq_of_le_mul_two (by push_cast; lia) (by push_cast; lia)
  have hsplit : a.toInt - b.toInt = (value (a.v.take 7) - value (b.v.take 7)) +
      2 ^ 112 * ((a.word 7).toInt - (b.word 7).toInt) := by
    rw [a.toInt_eq, b.toInt_eq]
    ring
  have hloop := cmpLoop_eq (l := a.v) (m := b.v) (i := 7) (by rw [a.length_eq]; decide)
    (by rw [b.length_eq]; decide)
  show (if (a.word 7).signExtend 32 - (b.word 7).signExtend 32 ≠ 0 then _
    else cmpLoop a.v b.v 7) = _
  rw [hsplit]
  by_cases hzero : (a.word 7).signExtend 32 - (b.word 7).signExtend 32 = 0
  · rw [hzero] at hv
    replace hv : 0 = (a.word 7).toInt - (b.word 7).toInt := hv
    rw [if_neg (not_not.2 hzero), hloop, ← hv, mul_zero, add_zero]
  · have hne : (a.word 7).toInt - (b.word 7).toInt ≠ 0 := by
      intro heq
      rw [heq] at hv
      exact hzero (BitVec.eq_of_toInt_eq hv)
    rw [if_pos hzero, sign_add_mul (by lia) (by lia) hne]
    exact cmpSign_eq hv (by lia) (by lia) hne

end FFmpeg.Libavutil.Integer
