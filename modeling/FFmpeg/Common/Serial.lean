import Mathlib.Tactic

/-!
# Serial numbers

Counters that wrap around are compared by their difference, read as a signed
number.  Within a window of half the period this is the order of the unwrapped
numbers.  The period is twice an arbitrary `half`.
-/

namespace FFmpeg.Common

/-- The difference of two serial numbers as a signed number, such as
`(int16_t)(a - b)` for `half = 2 ^ 15`. -/
def serialDiff (half a b : Nat) : Int :=
  Int.bmod ((a : Int) - b) (2 * half)

/-- How far a serial number lies behind the first of a window. -/
def serialOffset (half first a : Nat) : Nat :=
  (((a : Int) - first) % (2 * half : Nat)).toNat

variable {half first : Nat}

theorem serialOffset_cast (hhalf : 0 < half) (a : Nat) :
    (serialOffset half first a : Int) = ((a : Int) - first) % (2 * half : Nat) :=
  Int.toNat_of_nonneg (Int.emod_nonneg _ (by lia))

theorem serialOffset_mod {n : Nat} (hfirst : first ≤ n) (hn : n < first + 2 * half) :
    serialOffset half first (n % (2 * half)) = n - first := by
  have hcast : ((n % (2 * half) : Nat) : Int) = (n : Int) % (2 * half : Nat) := by
    exact_mod_cast rfl
  have hsub : (n : Int) - first = ((n - first : Nat) : Int) := by
    lia
  rw [serialOffset, hcast, Int.emod_sub_emod, hsub, Int.emod_eq_of_lt (by lia) (by lia),
    Int.toNat_natCast]

theorem serialDiff_eq {a b : Nat} (hhalf : 0 < half) (ha : serialOffset half first a < half)
    (hb : serialOffset half first b < half) :
    serialDiff half a b = (serialOffset half first a : Int) - serialOffset half first b := by
  have hmod : ((a : Int) - b) % (2 * half : Nat) =
      ((serialOffset half first a : Int) - serialOffset half first b) % (2 * half : Nat) := by
    rw [serialOffset_cast hhalf, serialOffset_cast hhalf, ← Int.sub_emod]
    congr 1
    ring
  rw [serialDiff, ← Int.emod_bmod, hmod, Int.emod_bmod]
  exact Int.bmod_eq_of_le_mul_two (by push_cast; lia) (by push_cast; lia)

theorem serialOffset_inj {a b : Nat} (hhalf : 0 < half) (ha : a < 2 * half) (hb : b < 2 * half)
    (h : serialOffset half first a = serialOffset half first b) : a = b := by
  have hmod : ((a : Int) - first) % (2 * half : Nat) = ((b : Int) - first) % (2 * half : Nat) := by
    rw [← serialOffset_cast hhalf, ← serialOffset_cast hhalf, h]
  have hab : (a : Int) % (2 * half : Nat) = (b : Int) % (2 * half : Nat) := by
    have hadd := congrArg (fun x => (x + (first : Int)) % (2 * half : Nat)) hmod
    simpa only [Int.emod_add_emod, sub_add_cancel] using hadd
  rw [Int.emod_eq_of_lt (by lia) (by lia), Int.emod_eq_of_lt (by lia) (by lia)] at hab
  exact_mod_cast hab

end FFmpeg.Common
