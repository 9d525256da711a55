import Mathlib.Algebra.CharP.Two
import Mathlib.Algebra.Polynomial.Div
import Mathlib.Algebra.Polynomial.Monic
import Mathlib.Data.ZMod.Basic
import Mathlib.Tactic

/-!
# Polynomials with bits as coefficients

A bit string is a polynomial over the field with two elements, the highest coefficient first.  A
register that is shifted, and reduced by a generator when a one falls out, divides: it holds the
remainder of what has been fed into it.
-/

namespace FFmpeg.Common.BitPolynomial

open Polynomial

variable {g l m r : List Bool} {b : Bool} {k : Nat}

/-- The coefficient. -/
def bit (b : Bool) : ZMod 2 := if b then 1 else 0

/-- The polynomial of a bit string. -/
noncomputable def ofBits : List Bool → (ZMod 2)[X]
  | [] => 0
  | b :: l => C (bit b) * X ^ l.length + ofBits l

/-- The sum of two strings of the same length. -/
def xor (l m : List Bool) : List Bool := List.zipWith (fun a b => a ^^ b) l m

/-- The register is shifted by one place; the generator, without its highest coefficient, is
subtracted when a one falls out. -/
def shift (g : List Bool) : List Bool → List Bool
  | [] => []
  | t :: r => if t then xor (r ++ [false]) g else r ++ [false]

/-- A bit is added to the one that falls out. -/
def feed (g : List Bool) : List Bool → Bool → List Bool
  | [], _ => []
  | t :: r, b => shift g ((t ^^ b) :: r)

/-! ## Bit strings -/

@[simp] theorem length_xor (l m : List Bool) : (xor l m).length = min l.length m.length :=
  List.length_zipWith

@[simp] theorem xor_cons (a b : Bool) (l m : List Bool) :
    xor (a :: l) (b :: m) = (a ^^ b) :: xor l m := rfl

theorem xor_append {l' m' : List Bool} (h : l.length = m.length) :
    xor (l ++ l') (m ++ m') = xor l m ++ xor l' m' :=
  List.zipWith_append h

theorem xor_comm (l m : List Bool) : xor l m = xor m l := by
  rw [xor, xor, List.zipWith_comm]
  simp only [Bool.xor_comm]

theorem xor_zeros (l : List Bool) : xor l (List.replicate l.length false) = l := by
  induction l with
  | nil => rfl
  | cons a l ih => rw [List.length_cons, List.replicate_succ, xor_cons, ih, Bool.xor_false]

theorem xor_assoc (l m r : List Bool) : xor (xor l m) r = xor l (xor m r) := by
  induction l generalizing m r with
  | nil => cases m <;> cases r <;> rfl
  | cons a l ih =>
    cases m with
    | nil => cases r <;> rfl
    | cons b m =>
      cases r with
      | nil => rfl
      | cons c r => rw [xor_cons, xor_cons, xor_cons, xor_cons, ih, Bool.xor_assoc]

theorem xor_left_comm (l m r : List Bool) : xor l (xor m r) = xor m (xor l r) := by
  rw [← xor_assoc, xor_comm l m, xor_assoc]

theorem xor_self (l : List Bool) : xor l l = List.replicate l.length false := by
  induction l with
  | nil => rfl
  | cons a l ih => rw [xor_cons, ih, Bool.xor_self, List.length_cons, List.replicate_succ]

theorem length_shift (h : r.length = g.length) : (shift g r).length = g.length := by
  cases r with
  | nil => exact h
  | cons t r =>
    rw [shift]
    split
    · rw [length_xor, List.length_append, List.length_singleton]
      rw [List.length_cons] at h
      lia
    · rw [List.length_append, List.length_singleton, ← h, List.length_cons]

theorem length_feed (h : r.length = g.length) (b : Bool) : (feed g r b).length = g.length := by
  cases r with
  | nil => exact h
  | cons t r =>
    have hnext : ((t ^^ b) :: r).length = g.length := h
    exact length_shift hnext

/-- Shifting is linear. -/
theorem shift_xor (hl : l.length = g.length) (hm : m.length = g.length) :
    shift g (xor l m) = xor (shift g l) (shift g m) := by
  cases l with
  | nil =>
    have : m = [] := List.length_eq_zero_iff.1 (hm.trans hl.symm)
    rw [this]
    rfl
  | cons a l =>
    obtain ⟨b, m, rfl⟩ := List.exists_cons_of_length_eq_add_one (hm.trans hl.symm)
    have hlength : l.length = m.length := by
      rw [List.length_cons] at hl hm
      lia
    have hsum : xor l m ++ [false] = xor (l ++ [false]) (m ++ [false]) := by
      rw [xor_append hlength]
      rfl
    have hself : xor (m ++ [false]) (xor g g) = m ++ [false] := by
      rw [xor_self, ← hm]
      rw [List.length_cons, ← List.length_singleton (a := false), ← List.length_append]
      exact xor_zeros _
    rw [xor_cons, shift, shift, shift, hsum]
    cases a <;> cases b
    · rfl
    · exact xor_assoc _ _ _
    · show xor (xor (l ++ [false]) (m ++ [false])) g = xor (xor (l ++ [false]) g) (m ++ [false])
      rw [xor_assoc, xor_assoc, xor_comm _ g]
    · -- the generator is subtracted twice
      show xor _ _ = xor (xor _ g) (xor _ g)
      rw [xor_assoc, xor_left_comm g, hself]

theorem shift_iterate_xor (hl : l.length = g.length) (hm : m.length = g.length) (k : Nat) :
    (shift g)^[k] (xor l m) = xor ((shift g)^[k] l) ((shift g)^[k] m) := by
  induction k generalizing l m with
  | zero => rfl
  | succ k ih =>
    rw [Function.iterate_succ_apply, shift_xor hl hm, ih (length_shift hl) (length_shift hm)]
    rfl

theorem shift_iterate_zeros (g : List Bool) (k : Nat) (r : List Bool) :
    (shift g)^[k] (List.replicate k false ++ r) = r ++ List.replicate k false := by
  induction k generalizing r with
  | zero => simp
  | succ k ih =>
    have hfirst : shift g (List.replicate (k + 1) false ++ r) =
        List.replicate k false ++ (r ++ [false]) := by
      rw [List.replicate_succ, List.cons_append, shift, if_neg Bool.false_ne_true,
        List.append_assoc]
    rw [Function.iterate_succ_apply, hfirst, ih, List.append_assoc, List.singleton_append,
      ← List.replicate_succ]

/-- Bits that are fed may be added to the register beforehand. -/
theorem foldl_feed (hr : r.length = g.length) (hm : m.length ≤ g.length) :
    m.foldl (feed g) r =
      (shift g)^[m.length] (xor r (m ++ List.replicate (g.length - m.length) false)) := by
  induction m generalizing r with
  | nil =>
    rw [List.nil_append, List.length_nil, Nat.sub_zero, ← hr, xor_zeros]
    rfl
  | cons b m ih =>
    cases r with
    | nil =>
      rw [← hr] at hm
      simp at hm
    | cons t r =>
      have hfed : ((t ^^ b) :: r).length = g.length := hr
      have hnext := length_feed hr b
      rw [List.length_cons] at hm hr
      have hzeros : List.replicate (g.length - m.length) false =
          List.replicate (g.length - (m.length + 1)) false ++ [false] := by
        rw [← List.replicate_succ']
        congr 1
        lia
      have hrest : (m ++ List.replicate (g.length - (m.length + 1)) false).length = r.length := by
        rw [List.length_append, List.length_replicate]
        lia
      have hlater : (false :: (m ++ List.replicate (g.length - (m.length + 1)) false)).length =
          g.length := by
        rw [List.length_cons, hrest, hr]
      have hshift : shift g (false :: (m ++ List.replicate (g.length - (m.length + 1)) false)) =
          m ++ List.replicate (g.length - m.length) false := by
        rw [shift, if_neg Bool.false_ne_true, hzeros, List.append_assoc]
      have hsplit : xor (t :: r) (b :: m ++ List.replicate (g.length - (m.length + 1)) false) =
          xor ((t ^^ b) :: r)
            (false :: (m ++ List.replicate (g.length - (m.length + 1)) false)) := by
        rw [List.cons_append, xor_cons, xor_cons, Bool.xor_false]
      rw [List.foldl_cons, ih hnext (Nat.le_of_succ_le hm), List.length_cons, hsplit,
        Function.iterate_succ_apply, shift_xor hfed hlater, hshift]
      rfl

/-! ## Division -/

theorem bit_xor (a b : Bool) : bit (a ^^ b) = bit a + bit b := by
  cases a <;> cases b <;> decide

@[simp] theorem ofBits_nil : ofBits [] = 0 := rfl

@[simp] theorem ofBits_cons (b : Bool) (l : List Bool) :
    ofBits (b :: l) = C (bit b) * X ^ l.length + ofBits l := rfl

theorem ofBits_append (l m : List Bool) : ofBits (l ++ m) = ofBits l * X ^ m.length + ofBits m := by
  induction l with
  | nil => simp
  | cons b l ih =>
    rw [List.cons_append, ofBits_cons, ofBits_cons, ih, List.length_append, pow_add]
    ring

theorem ofBits_xor (h : l.length = m.length) : ofBits (xor l m) = ofBits l + ofBits m := by
  induction l generalizing m with
  | nil =>
    rw [List.length_eq_zero_iff.1 h.symm]
    simp [xor]
  | cons a l ih =>
    obtain ⟨b, m, rfl⟩ := List.exists_cons_of_length_eq_add_one h.symm
    have hlength : l.length = m.length := Nat.succ.inj h
    rw [xor_cons, ofBits_cons, ofBits_cons, ofBits_cons, ih hlength, length_xor, hlength,
      Nat.min_self, bit_xor, C_add]
    ring

theorem ofBits_zeros (k : Nat) : ofBits (List.replicate k false) = 0 := by
  induction k with
  | zero => rfl
  | succ k ih => rw [List.replicate_succ, ofBits_cons, ih, bit]; simp

theorem degree_ofBits_lt (l : List Bool) : (ofBits l).degree < l.length := by
  induction l with
  | nil => simp
  | cons b l ih =>
    refine (degree_add_le _ _).trans_lt (max_lt ?_ ?_)
    · refine (degree_C_mul_X_pow_le _ _).trans_lt ?_
      exact_mod_cast Nat.lt_succ_self l.length
    · refine ih.trans ?_
      exact_mod_cast Nat.lt_succ_self l.length

/-- The generator, whose highest coefficient is one. -/
noncomputable def generator (g : List Bool) : (ZMod 2)[X] := X ^ g.length + ofBits g

theorem monic_generator (g : List Bool) : (generator g).Monic :=
  monic_X_pow_add (degree_ofBits_lt g)

theorem degree_generator (g : List Bool) : (generator g).degree = g.length := by
  rw [generator, degree_add_eq_left_of_degree_lt]
  · exact degree_X_pow _
  · rw [degree_X_pow]
    exact degree_ofBits_lt g

/-- What is subtracted when a bit is fed. -/
theorem ofBits_feed (hr : r.length = g.length) (b : Bool) :
    ∃ q, X * ofBits r + C (bit b) * X ^ g.length = ofBits (feed g r b) + generator g * C q := by
  cases r with
  | nil =>
    have hg : g = [] := List.length_eq_zero_iff.1 hr.symm
    refine ⟨bit b, ?_⟩
    rw [hg]
    simp [feed, generator]
  | cons t r =>
    refine ⟨bit (t ^^ b), ?_⟩
    have hlength : (r ++ [false]).length = g.length := by
      rw [List.length_append, List.length_singleton]
      exact hr
    have hlow : ofBits (r ++ [false]) = ofBits r * X := by
      rw [ofBits_append, ofBits_cons, bit]
      simp
    have hfed : ofBits (feed g (t :: r) b) = ofBits r * X + C (bit (t ^^ b)) * ofBits g := by
      rw [feed, shift]
      cases t ^^ b with
      | true =>
        rw [if_pos rfl, ofBits_xor hlength, hlow, bit, if_pos rfl, C_1, one_mul]
      | false =>
        rw [if_neg Bool.false_ne_true, hlow, bit, if_neg Bool.false_ne_true, C_0, zero_mul,
          add_zero]
    have htwice : C (bit (t ^^ b)) * ofBits g + ofBits g * C (bit (t ^^ b)) = 0 := by
      rw [mul_comm, CharTwo.add_self_eq_zero]
    rw [hfed, generator, ofBits_cons, bit_xor, C_add, ← hr, List.length_cons]
    rw [bit_xor, C_add] at htwice
    linear_combination -htwice

/-- **The register holds the remainder of what has been fed into it.** -/
theorem ofBits_foldl_feed (hr : r.length = g.length) (m : List Bool) :
    ofBits (m.foldl (feed g) r) =
      (ofBits r * X ^ m.length + ofBits m * X ^ g.length) %ₘ generator g := by
  induction m generalizing r with
  | nil =>
    have hdegree : (ofBits r).degree < (generator g).degree := by
      rw [degree_generator, ← hr]
      exact degree_ofBits_lt r
    rw [ofBits_nil, zero_mul, add_zero, List.length_nil, pow_zero, mul_one]
    exact ((modByMonic_eq_self_iff (monic_generator g)).2 hdegree).symm
  | cons b m ih =>
    obtain ⟨q, hq⟩ := ofBits_feed hr b
    rw [List.foldl_cons, ih (length_feed hr b)]
    apply modByMonic_eq_of_dvd_sub (monic_generator g)
    refine ⟨-(C q * X ^ m.length), ?_⟩
    rw [ofBits_cons, List.length_cons, pow_succ]
    linear_combination -X ^ m.length * hq

end FFmpeg.Common.BitPolynomial
