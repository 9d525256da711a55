import Mathlib.Data.Nat.Digits.Lemmas
import Mathlib.Tactic

/-!
# Numbers as lists of words

A list of words of `w` bits, the least significant one first, stands for the number of which they
are the digits.
-/

namespace FFmpeg.Common.Limbs

variable {w : Nat} {x : BitVec w} {l m : List (BitVec w)} {i k q r : Nat}

/-- The number. -/
def value (l : List (BitVec w)) : Nat := Nat.ofDigits (2 ^ w) (l.map BitVec.toNat)

@[simp] theorem value_nil : value ([] : List (BitVec w)) = 0 := rfl

@[simp] theorem value_cons : value (x :: l) = x.toNat + 2 ^ w * value l := rfl

theorem value_append : value (l ++ m) = value l + (2 ^ w) ^ l.length * value m := by
  rw [value, List.map_append, Nat.ofDigits_append, List.length_map]
  rfl

theorem value_lt (l : List (BitVec w)) : value l < (2 ^ w) ^ l.length := by
  induction l with
  | nil => simp
  | cons x l ih =>
    have hx := x.isLt
    have hnext : 2 ^ w * (value l + 1) ≤ 2 ^ w * (2 ^ w) ^ l.length := Nat.mul_le_mul_left _ ih
    rw [value_cons, List.length_cons, Nat.pow_succ', ← Nat.add_one_le_iff]
    rw [Nat.mul_succ] at hnext
    lia

theorem value_concat (l : List (BitVec w)) (x : BitVec w) :
    value (l ++ [x]) = value l + (2 ^ w) ^ l.length * x.toNat := by
  rw [value_append, value_cons, value_nil, Nat.mul_zero, Nat.add_zero]

theorem value_take_succ (hi : i < l.length) :
    value (l.take (i + 1)) = value (l.take i) + (2 ^ w) ^ i * (l.getD i 0).toNat := by
  have htake : l.take (i + 1) = l.take i ++ [l.getD i 0] := by
    rw [List.take_add_one, List.getElem?_eq_getElem hi, List.getD_eq_getElem?_getD,
      List.getElem?_eq_getElem hi]
    rfl
  rw [htake, value_concat, List.length_take, Nat.min_eq_left hi.le]

theorem value_take_add (i : Nat) (hi : i ≤ l.length) :
    value l = value (l.take i) + (2 ^ w) ^ i * value (l.drop i) := by
  have happend := value_append (l := l.take i) (m := l.drop i)
  rwa [List.take_append_drop, List.length_take, Nat.min_eq_left hi] at happend

theorem value_take_mod (hi : i ≤ l.length) : value (l.take i) = value l % (2 ^ w) ^ i := by
  have hlt := value_lt (l.take i)
  rw [List.length_take, Nat.min_eq_left hi] at hlt
  rw [value_take_add i hi, Nat.add_mul_mod_self_left, Nat.mod_eq_of_lt hlt]

theorem value_take_of_lt (hlt : value l < (2 ^ w) ^ i) : value (l.take i) = value l := by
  rcases Nat.le_total i l.length with hi | hi
  · rw [value_take_mod hi, Nat.mod_eq_of_lt hlt]
  · rw [List.take_of_length_le hi]

theorem value_take_lt (l : List (BitVec w)) (i : Nat) : value (l.take i) < (2 ^ w) ^ i := by
  refine (value_lt _).trans_le (Nat.pow_le_pow_right (Nat.two_pow_pos w) ?_)
  exact List.length_take_le i l

theorem testBit_value (l : List (BitVec w)) (q : Nat) (hr : r < w) :
    (value l).testBit (w * q + r) = (l.getD q 0).getLsbD r := by
  induction l generalizing q with
  | nil => simp
  | cons x l ih =>
    have hx := x.isLt
    have hsplit : value (x :: l) = 2 ^ w * value l + x.toNat := Nat.add_comm _ _
    rw [hsplit]
    cases q with
    | zero =>
      rw [Nat.mul_zero, Nat.zero_add, Nat.testBit_two_pow_mul_add _ hx, if_pos hr]
      rfl
    | succ q =>
      have hindex : w * (q + 1) + r - w = w * q + r := by
        rw [Nat.mul_succ]
        lia
      rw [Nat.testBit_two_pow_mul_add _ hx, if_neg (by rw [Nat.mul_succ]; lia), hindex]
      exact ih q

theorem log2_value_take_succ (hi : i < l.length) (hx : l.getD i 0 ≠ 0) :
    (value (l.take (i + 1))).log2 = (l.getD i 0).toNat.log2 + w * i := by
  have hword : (l.getD i 0).toNat ≠ 0 := by
    intro hzero
    exact hx (BitVec.eq_of_toNat_eq hzero)
  have hlow := value_take_lt l i
  have hpos : 0 < (2 ^ w) ^ i := Nat.pow_pos (Nat.two_pow_pos w)
  have hself := Nat.log2_self_le hword
  have hnext := Nat.lt_log2_self (n := (l.getD i 0).toNat)
  rw [value_take_succ hi]
  rw [← Nat.pow_mul] at hlow hpos ⊢
  have hle := Nat.mul_le_mul_left (2 ^ (w * i)) hself
  have hlt := Nat.mul_le_mul_left (2 ^ (w * i)) hnext
  have hne : value (l.take i) + 2 ^ (w * i) * (l.getD i 0).toNat ≠ 0 := by
    have := Nat.mul_pos hpos (Nat.pos_of_ne_zero hword)
    lia
  rw [Nat.log2_eq_iff hne]
  constructor
  · rw [Nat.add_comm, Nat.pow_add]
    lia
  · rw [Nat.add_right_comm, Nat.add_comm _ (w * i), Nat.pow_add]
    rw [Nat.mul_succ] at hlt
    lia

end FFmpeg.Common.Limbs
