import FFmpeg.Common.Bytes
import FFmpeg.Common.File

/-!
# Bit strings

The bits of a number of a fixed width, from the most significant one on or from the
least significant one on, and the bits of a byte string.  A bit stream holds fields of
any width one after the other in one of the two orders.
-/

namespace FFmpeg.Common

/-- Which bit of a number comes first. -/
inductive BitOrder
  | msbFirst
  | lsbFirst
  deriving DecidableEq, Repr

variable (order : BitOrder)

/-- The place in a number of `width` bits of the bit that comes at `i`. -/
def BitOrder.place (width i : Nat) : Nat :=
  match order with
  | .msbFirst => width - 1 - i
  | .lsbFirst => i

/-- The `width` low bits of `n`. -/
def bits (width n : Nat) : List Bool :=
  (List.range width).map fun i => n.testBit (order.place width i)

/-- The bits of a byte string. -/
def bitsOfBytes (l : Bytes) : List Bool := l.flatMap fun b => bits order 8 b.toNat

/-- The bytes of a number, in the same order as the bits. -/
def BitOrder.putBytes : Nat → Nat → Bytes :=
  match order with
  | .msbFirst => putBE
  | .lsbFirst => putLE

/-- The number in a byte string. -/
def BitOrder.getBytes : Bytes → Nat :=
  match order with
  | .msbFirst => getBE
  | .lsbFirst => getLE

variable {order}

theorem BitOrder.place_lt {width i : Nat} (h : i < width) : order.place width i < width := by
  cases order with
  | msbFirst =>
    show width - 1 - i < width
    lia
  | lsbFirst => exact h

theorem BitOrder.place_place {width i : Nat} (h : i < width) :
    order.place width (order.place width i) = i := by
  cases order with
  | msbFirst =>
    show width - 1 - (width - 1 - i) = i
    lia
  | lsbFirst => rfl

@[simp] theorem length_bits (width n : Nat) : (bits order width n).length = width := by
  rw [bits, List.length_map, List.length_range]

theorem getElem?_bits (width n i : Nat) :
    (bits order width n)[i]? = if i < width then some (n.testBit (order.place width i)) else none := by
  rw [bits, List.getElem?_map]
  by_cases h : i < width
  · rw [if_pos h, List.getElem?_range h, Option.map_some]
  · rw [if_neg h, List.getElem?_eq_none (by rw [List.length_range]; lia), Option.map_none]

theorem bits_congr {width m n : Nat} (h : ∀ i < width, m.testBit i = n.testBit i) :
    bits order width m = bits order width n := by
  apply List.map_congr_left
  intro i hi
  exact h _ (BitOrder.place_lt (List.mem_range.mp hi))

theorem bits_mod {width k : Nat} (h : width ≤ k) (n : Nat) :
    bits order width (n % 2 ^ k) = bits order width n := by
  apply bits_congr
  intro i hi
  rw [Nat.testBit_mod_two_pow, decide_eq_true (by lia), Bool.true_and]

theorem bits_injective {width m n : Nat} (hm : m < 2 ^ width) (hn : n < 2 ^ width)
    (h : bits order width m = bits order width n) : m = n := by
  apply Nat.eq_of_testBit_eq
  intro i
  by_cases hi : i < width
  · have hbit := congrArg (fun l => l[order.place width i]?) h
    simp only [getElem?_bits, BitOrder.place_lt hi, BitOrder.place_place hi, if_true] at hbit
    exact Option.some.inj hbit
  · have hpow : 2 ^ width ≤ 2 ^ i := Nat.pow_le_pow_right (by decide) (Nat.le_of_not_lt hi)
    rw [Nat.testBit_lt_two_pow (hm.trans_le hpow), Nat.testBit_lt_two_pow (hn.trans_le hpow)]

theorem bits_add_msbFirst (a b n : Nat) :
    bits .msbFirst (a + b) n = bits .msbFirst a (n >>> b) ++ bits .msbFirst b n := by
  apply List.ext_getElem?
  intro i
  rw [getElem?_bits]
  by_cases hi : i < a
  · rw [List.getElem?_append_left (by rwa [length_bits]), getElem?_bits, if_pos hi,
      if_pos (by lia), Nat.testBit_shiftRight]
    congr 2
    show a + b - 1 - i = b + (a - 1 - i)
    lia
  · rw [List.getElem?_append_right (by rw [length_bits]; lia), getElem?_bits, length_bits]
    by_cases hb : i < a + b
    · rw [if_pos hb, if_pos (by lia)]
      congr 2
      show a + b - 1 - i = b - 1 - (i - a)
      lia
    · rw [if_neg hb, if_neg (by lia)]

theorem bits_add_lsbFirst (a b n : Nat) :
    bits .lsbFirst (a + b) n = bits .lsbFirst a n ++ bits .lsbFirst b (n >>> a) := by
  apply List.ext_getElem?
  intro i
  rw [getElem?_bits]
  by_cases hi : i < a
  · rw [List.getElem?_append_left (by rwa [length_bits]), getElem?_bits, if_pos hi, if_pos (by lia)]
    rfl
  · rw [List.getElem?_append_right (by rw [length_bits]; lia), getElem?_bits, length_bits,
      Nat.testBit_shiftRight]
    by_cases hb : i < a + b
    · rw [if_pos hb, if_pos (by lia)]
      congr 2
      show i = a + (i - a)
      lia
    · rw [if_neg hb, if_neg (by lia)]

theorem bits_join_msbFirst {a b k m n : Nat} (hk : a + b ≤ k) (hn : n < 2 ^ b) :
    bits .msbFirst (a + b) ((m <<< b) % 2 ^ k ||| n) = bits .msbFirst a m ++ bits .msbFirst b n := by
  rw [bits_add_msbFirst]
  congr 1
  · apply bits_congr
    intro i hi
    have hzero : n.testBit (b + i) = false :=
      Nat.testBit_lt_two_pow (hn.trans_le (Nat.pow_le_pow_right (by decide) (Nat.le_add_right b i)))
    rw [Nat.testBit_shiftRight, Nat.testBit_or, Nat.testBit_mod_two_pow, Nat.testBit_shiftLeft,
      hzero, decide_eq_true (by lia), decide_eq_true (by lia), Nat.add_sub_cancel_left,
      Bool.true_and, Bool.true_and, Bool.or_false]
  · apply bits_congr
    intro i hi
    rw [Nat.testBit_or, Nat.testBit_mod_two_pow, Nat.testBit_shiftLeft,
      decide_eq_false (by lia : ¬ i ≥ b), Bool.false_and, Bool.and_false, Bool.false_or]

theorem bits_join_lsbFirst {a b k m n : Nat} (hk : a + b ≤ k) (hm : m < 2 ^ a) :
    bits .lsbFirst (a + b) (m ||| (n <<< a) % 2 ^ k) = bits .lsbFirst a m ++ bits .lsbFirst b n := by
  rw [bits_add_lsbFirst]
  congr 1
  · apply bits_congr
    intro i hi
    rw [Nat.testBit_or, Nat.testBit_mod_two_pow, Nat.testBit_shiftLeft,
      decide_eq_false (by lia : ¬ i ≥ a), Bool.false_and, Bool.and_false, Bool.or_false]
  · apply bits_congr
    intro i hi
    have hzero : m.testBit (a + i) = false :=
      Nat.testBit_lt_two_pow (hm.trans_le (Nat.pow_le_pow_right (by decide) (Nat.le_add_right a i)))
    rw [Nat.testBit_shiftRight, Nat.testBit_or, Nat.testBit_mod_two_pow, Nat.testBit_shiftLeft,
      hzero, decide_eq_true (by lia), decide_eq_true (by lia), Nat.add_sub_cancel_left,
      Bool.true_and, Bool.true_and, Bool.false_or]

@[simp] theorem bits_zero (n : Nat) : bits order 0 n = [] := rfl

theorem bits_of_zero (width : Nat) : bits order width 0 = List.replicate width false := by
  rw [bits, List.eq_replicate_iff]
  refine ⟨by simp, fun b hb => ?_⟩
  obtain ⟨i, -, rfl⟩ := List.mem_map.1 hb
  exact Nat.zero_testBit _

theorem exists_first_bit {v n : Nat} (hne : v ≠ 0) (hlt : v < 2 ^ n) :
    ∃ k < n, (List.range n).find? v.testBit = some k ∧ v.testBit k = true ∧ v % 2 ^ k = 0 := by
  have hsome : ((List.range n).find? v.testBit).isSome := by
    rw [List.find?_isSome]
    obtain ⟨i, hi⟩ := Nat.exists_testBit_of_ne_zero hne
    refine ⟨i, List.mem_range.2 ?_, hi⟩
    by_contra hge
    have hzero := Nat.testBit_lt_two_pow (hlt.trans_le (Nat.pow_le_pow_right two_pos
      (not_lt.1 hge)))
    rw [hzero] at hi
    cases hi
  obtain ⟨k, hk⟩ := Option.isSome_iff_exists.1 hsome
  have hfirst := List.find?_range_eq_some.1 hk
  refine ⟨k, List.mem_range.1 (List.mem_of_find?_eq_some hk), hk, List.find?_some hk, ?_⟩
  apply Nat.eq_of_testBit_eq
  intro i
  rw [Nat.testBit_mod_two_pow, Nat.zero_testBit]
  by_cases hi : i < k
  · simpa using fun _ => hfirst.2.2 i hi
  · simp [hi]

/-! ## Bytes -/

theorem bitsOfBytes_append (l m : Bytes) :
    bitsOfBytes order (l ++ m) = bitsOfBytes order l ++ bitsOfBytes order m :=
  List.flatMap_append

@[simp] theorem length_bitsOfBytes (l : Bytes) : (bitsOfBytes order l).length = 8 * l.length := by
  induction l with
  | nil => rfl
  | cons b l ih =>
    show (bits order 8 b.toNat ++ bitsOfBytes order l).length = _
    rw [List.length_append, length_bits, ih, List.length_cons]
    lia

theorem getElem?_bitsOfBytes (l : Bytes) (i : Nat) :
    (bitsOfBytes order l)[i]? = l[i / 8]?.map fun b => b.toNat.testBit (order.place 8 (i % 8)) := by
  induction l generalizing i with
  | nil => rfl
  | cons b l ih =>
    show (bits order 8 b.toNat ++ bitsOfBytes order l)[i]? = _
    by_cases hi : i < 8
    · rw [List.getElem?_append_left (by rwa [length_bits]), getElem?_bits, if_pos hi,
        Nat.div_eq_of_lt hi, Nat.mod_eq_of_lt hi]
      rfl
    · have hdiv : i / 8 = (i - 8) / 8 + 1 := by lia
      have hmod : i % 8 = (i - 8) % 8 := by lia
      rw [List.getElem?_append_right (by rw [length_bits]; lia), length_bits, ih, hdiv, hmod]
      rfl

/-- The bits of a byte string are those of its number. -/
theorem bitsOfBytes_eq (l : Bytes) :
    bitsOfBytes order l = bits order (8 * l.length) (order.getBytes l) := by
  have hpow : ∀ n, (256 : Nat) ^ n = 2 ^ (8 * n) := fun n => by rw [Nat.pow_mul]
  induction l with
  | nil => rfl
  | cons b l ih =>
    show bits order 8 b.toNat ++ bitsOfBytes order l = _
    rw [ih, List.length_cons, Nat.mul_succ]
    cases order with
    | msbFirst =>
      have hlow := getBE_lt l
      rw [hpow] at hlow
      have hhigh : getBE (b :: l) >>> (8 * l.length) = b.toNat := by
        rw [getBE, Nat.shiftRight_eq_div_pow, hpow, Nat.add_comm,
          Nat.add_mul_div_right _ _ (by positivity), Nat.div_eq_of_lt hlow, Nat.zero_add]
      have hmod : getBE (b :: l) % 2 ^ (8 * l.length) = getBE l := by
        rw [getBE, hpow, Nat.add_comm, Nat.add_mul_mod_self_right, Nat.mod_eq_of_lt hlow]
      show _ = bits .msbFirst (8 * l.length + 8) (getBE (b :: l))
      rw [Nat.add_comm, bits_add_msbFirst, hhigh, ← bits_mod (Nat.le_refl _) (getBE (b :: l)), hmod]
      rfl
    | lsbFirst =>
      have hlow := b.toNat_lt
      have hhigh : getLE (b :: l) >>> 8 = getLE l := by
        rw [getLE, Nat.shiftRight_eq_div_pow]
        lia
      have hmod : getLE (b :: l) % 2 ^ 8 = b.toNat := by
        rw [getLE]
        lia
      show _ = bits .lsbFirst (8 * l.length + 8) (getLE (b :: l))
      rw [Nat.add_comm, bits_add_lsbFirst, hhigh, ← bits_mod (Nat.le_refl _) (getLE (b :: l)), hmod]
      rfl

theorem length_putBytes (width n : Nat) : (order.putBytes width n).length = width := by
  cases order with
  | msbFirst => exact length_putBE width n
  | lsbFirst => exact length_putLE width n

theorem bitsOfBytes_putBytes (width n : Nat) :
    bitsOfBytes order (order.putBytes width n) = bits order (8 * width) n := by
  have hpow : (256 : Nat) ^ width = 2 ^ (8 * width) := by rw [Nat.pow_mul]
  have hget : order.getBytes (order.putBytes width n) = n % 256 ^ width := by
    cases order with
    | msbFirst => exact getBE_putBE width n
    | lsbFirst => exact getLE_putLE width n
  rw [bitsOfBytes_eq, length_putBytes, hget, hpow, bits_mod (Nat.le_refl _)]

theorem take_bitsOfBytes (l : Bytes) (k : Nat) :
    (bitsOfBytes order l).take (8 * k) = bitsOfBytes order (l.take k) := by
  by_cases hk : k ≤ l.length
  · have hlength : (bitsOfBytes order (l.take k)).length = 8 * k := by
      rw [length_bitsOfBytes, List.length_take, Nat.min_eq_left hk]
    conv_lhs => rw [← List.take_append_drop k l, bitsOfBytes_append]
    rw [← hlength, List.take_left]
  · rw [List.take_of_length_le (by rw [length_bitsOfBytes]; lia), List.take_of_length_le (by lia)]

theorem slice_bitsOfBytes (l : Bytes) (p k : Nat) :
    slice (bitsOfBytes order l) (8 * p) (8 * k) = bitsOfBytes order (slice l p k) := by
  have hdrop : (bitsOfBytes order l).drop (8 * p) = bitsOfBytes order (l.drop p) := by
    by_cases hp : p ≤ l.length
    · have hlength : (bitsOfBytes order (l.take p)).length = 8 * p := by
        rw [length_bitsOfBytes, List.length_take, Nat.min_eq_left hp]
      conv_lhs => rw [← List.take_append_drop p l, bitsOfBytes_append]
      rw [← hlength, List.drop_left]
    · rw [List.drop_eq_nil_of_le (by rw [length_bitsOfBytes]; lia), List.drop_eq_nil_of_le (by lia)]
      rfl
  rw [slice, hdrop, take_bitsOfBytes]
  rfl

/-- The `k` bytes from offset `p` on, as a load from memory gets them. -/
def window (mem : Bytes) (p k : Nat) : Bytes := (List.range k).map fun i => mem.getD (p + i) 0

theorem slice_window (order : BitOrder) (mem : Bytes) {p k i n : Nat} (hk : i + n ≤ 8 * k)
    (hmem : 8 * p + i + n ≤ 8 * mem.length) :
    slice (bitsOfBytes order (window mem p k)) i n = slice (bitsOfBytes order mem) (8 * p + i) n := by
  apply List.ext_getElem?
  intro j
  rw [getElem?_slice, getElem?_slice]
  by_cases hj : j < n
  · have hdiv : (8 * p + i + j) / 8 = p + (i + j) / 8 := by lia
    have hmod : (8 * p + i + j) % 8 = (i + j) % 8 := by lia
    have hbyte : (i + j) / 8 < k := by lia
    have hinside : p + (i + j) / 8 < mem.length := by lia
    rw [if_pos hj, if_pos hj, getElem?_bitsOfBytes, getElem?_bitsOfBytes, hdiv, hmod, window,
      List.getElem?_map, List.getElem?_range hbyte, Option.map_some, List.getD_eq_getElem?_getD,
      List.getElem?_eq_getElem hinside, Option.getD_some]
  · rw [if_neg hj, if_neg hj]

/-! ## Memory bit by bit -/

/-- The bit at place `i` of the memory, which is zero behind its end. -/
def bitAt (order : BitOrder) (mem : Bytes) (i : Nat) : Bool :=
  (mem.getD (i / 8) 0).toNat.testBit (order.place 8 (i % 8))

/-- The number `v` consists of the `n` bits of the memory from `pos` on. -/
structure IsBits (order : BitOrder) (mem : Bytes) (pos n v : Nat) : Prop where
  lt : v < 2 ^ n
  testBit : ∀ i < n, v.testBit (order.place n i) = bitAt order mem (pos + i)

theorem IsBits.eq {mem : Bytes} {pos n v w : Nat} (hv : IsBits order mem pos n v)
    (hw : IsBits order mem pos n w) : v = w := by
  refine bits_injective hv.lt hw.lt (?_ : bits order n v = bits order n w)
  apply List.map_congr_left
  intro i hi
  rw [hv.testBit i (List.mem_range.mp hi), hw.testBit i (List.mem_range.mp hi)]

theorem isBits_window (order : BitOrder) (mem : Bytes) (p k : Nat) :
    IsBits order mem (8 * p) (8 * k) (order.getBytes (window mem p k)) := by
  have hlength : (window mem p k).length = k := by rw [window, List.length_map, List.length_range]
  have hbits : bitsOfBytes order (window mem p k) = _ := bitsOfBytes_eq (window mem p k)
  rw [hlength] at hbits
  constructor
  · have hpow : (2 : Nat) ^ (8 * k) = 256 ^ k := by rw [Nat.pow_mul]
    rw [hpow]
    cases order with
    | msbFirst =>
      have hlt := getBE_lt (window mem p k)
      rwa [hlength] at hlt
    | lsbFirst =>
      have hlt := getLE_lt (window mem p k)
      rwa [hlength] at hlt
  · intro i hi
    have hbit := congrArg (fun l => l[i]?) hbits
    have hdiv : (8 * p + i) / 8 = p + i / 8 := by lia
    have hmod : (8 * p + i) % 8 = i % 8 := by lia
    have hbyte : i / 8 < k := by lia
    rw [getElem?_bitsOfBytes, getElem?_bits, if_pos hi, window, List.getElem?_map,
      List.getElem?_range hbyte, Option.map_some, Option.map_some] at hbit
    rw [bitAt, hdiv, hmod]
    exact (Option.some.inj hbit).symm

theorem isBits_of_slice {mem : Bytes} {pos n v : Nat} (hlt : v < 2 ^ n)
    (hend : pos + n ≤ 8 * mem.length) (h : bits order n v = slice (bitsOfBytes order mem) pos n) :
    IsBits order mem pos n v := by
  refine ⟨hlt, fun i hi => ?_⟩
  have hbit := congrArg (fun l => l[i]?) h
  have hinside : (pos + i) / 8 < mem.length := by lia
  rw [getElem?_bits, if_pos hi, getElem?_slice, if_pos hi, getElem?_bitsOfBytes,
    List.getElem?_eq_getElem hinside, Option.map_some] at hbit
  rw [bitAt, List.getD_eq_getElem?_getD, List.getElem?_eq_getElem hinside]
  exact Option.some.inj hbit

end FFmpeg.Common
