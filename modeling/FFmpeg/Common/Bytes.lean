import Mathlib.Tactic

/-!
# Fixed-width byte fields

Network formats store an integer in a fixed number of bytes, most or least
significant byte first.  This module defines both layouts for an arbitrary
width together with the functions that read them back, and proves that reading
undoes writing modulo the capacity of the field.  Nothing here depends on a
particular format.
-/

namespace FFmpeg.Common

/-- A byte string. -/
abbrev Bytes := List UInt8

theorem forall_byte {p : UInt8 → Prop} (h : ∀ n : Fin 256, p (UInt8.ofNat n)) (b : UInt8) : p b := by
  have hb := h ⟨b.toNat, b.toNat_lt⟩
  rwa [UInt8.ofNat_toNat] at hb

/-- The `width` low bytes of `n`, most significant byte first. -/
def putBE : Nat → Nat → Bytes
  | 0, _ => []
  | width + 1, n => UInt8.ofNat (n / 256 ^ width) :: putBE width n

/-- The number stored most significant byte first. -/
def getBE : Bytes → Nat
  | [] => 0
  | b :: rest => b.toNat * 256 ^ rest.length + getBE rest

/-- The `width` low bytes of `n`, least significant byte first. -/
def putLE : Nat → Nat → Bytes
  | 0, _ => []
  | width + 1, n => UInt8.ofNat n :: putLE width (n / 256)

/-- The number stored least significant byte first. -/
def getLE : Bytes → Nat
  | [] => 0
  | b :: rest => b.toNat + 256 * getLE rest

example : getLE (putBE 2 258) = 513 := by
  rw [putBE, getLE]
  rfl

example : getBE (putLE 2 258) = 513 := by
  rw [putLE, getBE]
  rfl

@[simp] theorem length_putBE (width n : Nat) : (putBE width n).length = width := by
  induction width with
  | zero => rfl
  | succ width ih => simp [putBE, ih]

@[simp] theorem length_putLE (width n : Nat) : (putLE width n).length = width := by
  induction width generalizing n with
  | zero => rfl
  | succ width ih => simp [putLE, ih]

theorem getBE_putBE (width n : Nat) : getBE (putBE width n) = n % 256 ^ width := by
  induction width with
  | zero => simp [putBE, getBE, Nat.mod_one]
  | succ width ih =>
      have hbyte : (UInt8.ofNat (n / 256 ^ width)).toNat = n / 256 ^ width % 256 :=
        UInt8.toNat_ofNat'
      have hsplit : n % (256 ^ width * 256) =
          n % 256 ^ width + 256 ^ width * (n / 256 ^ width % 256) := Nat.mod_mul
      rw [putBE, getBE, length_putBE, ih, hbyte, Nat.pow_succ, hsplit]
      ring

theorem getLE_putLE (width n : Nat) : getLE (putLE width n) = n % 256 ^ width := by
  induction width generalizing n with
  | zero => simp [putLE, getLE, Nat.mod_one]
  | succ width ih =>
      have hbyte : (UInt8.ofNat n).toNat = n % 256 := UInt8.toNat_ofNat'
      have hsplit : n % (256 * 256 ^ width) = n % 256 + 256 * (n / 256 % 256 ^ width) := Nat.mod_mul
      rw [putLE, getLE, ih, hbyte, Nat.pow_succ', hsplit]

theorem getBE_lt (l : Bytes) : getBE l < 256 ^ l.length := by
  induction l with
  | nil => simp [getBE]
  | cons b l ih =>
      have hbyte := b.toNat_lt
      have hmul : b.toNat * 256 ^ l.length ≤ 255 * 256 ^ l.length :=
        Nat.mul_le_mul_right _ (by lia)
      rw [getBE, List.length_cons, Nat.pow_succ]
      lia

theorem getLE_lt (l : Bytes) : getLE l < 256 ^ l.length := by
  induction l with
  | nil => simp [getLE]
  | cons b l ih =>
      have hbyte := b.toNat_lt
      rw [getLE, List.length_cons, Nat.pow_succ]
      lia

theorem putBE_mul_add (width n high : Nat) : putBE width (high * 256 ^ width + n) = putBE width n := by
  induction width generalizing high with
  | zero => rfl
  | succ width ih =>
      have hsplit : high * 256 ^ (width + 1) = high * 256 * 256 ^ width := by ring
      have hdiv : (high * 256 * 256 ^ width + n) / 256 ^ width = high * 256 + n / 256 ^ width := by
        rw [Nat.add_comm, Nat.add_mul_div_right _ _ (by positivity), Nat.add_comm]
      have hbyte : UInt8.ofNat (high * 256 + n / 256 ^ width) = UInt8.ofNat (n / 256 ^ width) := by
        apply UInt8.toNat_inj.mp
        rw [UInt8.toNat_ofNat', UInt8.toNat_ofNat']
        lia
      rw [putBE, putBE, hsplit, hdiv, hbyte, ih]

theorem putBE_mod (width n : Nat) : putBE width (n % 256 ^ width) = putBE width n := by
  have hsplit := Nat.div_add_mod' n (256 ^ width)
  rw [← putBE_mul_add width (n % 256 ^ width) (n / 256 ^ width), hsplit]

theorem putBE_getBE (l : Bytes) : putBE l.length (getBE l) = l := by
  induction l with
  | nil => rfl
  | cons b l ih =>
      have hlow := getBE_lt l
      have hhead : (b.toNat * 256 ^ l.length + getBE l) / 256 ^ l.length = b.toNat := by
        rw [Nat.add_comm, Nat.add_mul_div_right _ _ (by positivity), Nat.div_eq_of_lt hlow,
          Nat.zero_add]
      rw [List.length_cons, getBE, putBE, hhead, putBE_mul_add, ih, UInt8.ofNat_toNat]

theorem getBE_concat (l : Bytes) (b : UInt8) : getBE (l ++ [b]) = getBE l * 256 + b.toNat := by
  induction l with
  | nil => simp [getBE]
  | cons c l ih =>
      rw [List.cons_append, getBE, getBE, ih, List.length_append, List.length_singleton, Nat.pow_succ]
      ring

theorem putBE_concat (width n : Nat) :
    putBE (width + 1) n = putBE width (n / 256) ++ [UInt8.ofNat n] := by
  induction width with
  | zero => simp [putBE]
  | succ width ih =>
      have hdiv : n / 256 / 256 ^ width = n / 256 ^ (width + 1) := by
        rw [Nat.div_div_eq_div_mul, Nat.pow_succ']
      rw [putBE, ih, putBE, hdiv, List.cons_append]

theorem putLE_concat (width n : Nat) :
    putLE (width + 1) n = putLE width n ++ [UInt8.ofNat (n / 256 ^ width)] := by
  induction width generalizing n with
  | zero => simp [putLE]
  | succ width ih =>
      have hdiv : n / 256 / 256 ^ width = n / 256 ^ (width + 1) := by
        rw [Nat.div_div_eq_div_mul, Nat.pow_succ']
      rw [putLE, ih, putLE, hdiv, List.cons_append]

theorem getBE_putBE_of_lt {width n : Nat} (h : n < 256 ^ width) : getBE (putBE width n) = n := by
  rw [getBE_putBE, Nat.mod_eq_of_lt h]

theorem getLE_putLE_of_lt {width n : Nat} (h : n < 256 ^ width) : getLE (putLE width n) = n := by
  rw [getLE_putLE, Nat.mod_eq_of_lt h]

end FFmpeg.Common
