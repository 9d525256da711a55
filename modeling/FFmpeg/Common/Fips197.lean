import FFmpeg.Common.GaloisByte

/-!
# The Advanced Encryption Standard

The cipher and the key expansion of FIPS 197, for a key of `nk` words.  A state has
rows and columns; the bytes of a block fill it column by column.
-/

namespace FFmpeg.Common.Fips197

open GaloisByte

/-- A state, by row and column. -/
abbrev State := Fin 4 → Fin 4 → UInt8

/-- A column of a state, a word of the key schedule. -/
abbrev Word := Fin 4 → UInt8

/-- Rotation of the bits of a byte, by less than eight places. -/
def rotateLeft (b k : UInt8) : UInt8 :=
  (b <<< k) ||| (b >>> (8 - k))

/-- Bit `i` of the result is the sum of the bits `i`, `i + 4`, `i + 5`, `i + 6` and `i + 7`
and of bit `i` of `63`. -/
def affine (b : UInt8) : UInt8 :=
  b ^^^ rotateLeft b 4 ^^^ rotateLeft b 3 ^^^ rotateLeft b 2 ^^^ rotateLeft b 1 ^^^ 0x63

/-- The S-box. -/
def sbox (b : UInt8) : UInt8 := affine (inverse b)

/-- SUBBYTES. -/
def subBytes (s : State) : State := fun r c => sbox (s r c)

/-- SHIFTROWS. -/
def shiftRows (s : State) : State := fun r c => s r (c + r)

/-- The product of each column, as a polynomial over bytes, with the one that has the
coefficients `a`, modulo `x ^ 4 + 1`. -/
def circulant (a : Word) (s : State) : State := fun r c =>
  mul (a r) (s 0 c) ^^^ mul (a (r - 1)) (s 1 c) ^^^ mul (a (r - 2)) (s 2 c) ^^^
    mul (a (r - 3)) (s 3 c)

/-- The coefficients for MIXCOLUMNS. -/
def mixCoefficients : Word := ![0x02, 0x01, 0x01, 0x03]

/-- MIXCOLUMNS. -/
def mixColumns (s : State) : State := circulant mixCoefficients s

/-- ADDROUNDKEY. -/
def addRoundKey (s k : State) : State := fun r c => s r c ^^^ k r c

/-- The state after the first `n` rounds. -/
def rounds (k : Nat → State) (s : State) : Nat → State
  | 0 => addRoundKey s (k 0)
  | n + 1 => addRoundKey (mixColumns (shiftRows (subBytes (rounds k s n)))) (k (n + 1))

/-- CIPHER with `nr` rounds, the last of which leaves the columns alone. -/
def cipher (nr : Nat) (k : Nat → State) (s : State) : State :=
  addRoundKey (shiftRows (subBytes (rounds k s (nr - 1)))) (k nr)

/-! ## Key expansion -/

/-- ROTWORD. -/
def rotWord (w : Word) : Word := fun r => w (r + 1)

/-- SUBWORD. -/
def subWord (w : Word) : Word := fun r => sbox (w r)

/-- The round constants. -/
def rcon (i : Nat) : Word := ![xtime^[i - 1] 1, 0, 0, 0]

/-- What is added to the word `nk` places before word `i`, from the word before it. -/
def temp (nk i : Nat) (w : Word) : Word :=
  if i % nk = 0 then fun r => subWord (rotWord w) r ^^^ rcon (i / nk) r
  else if 6 < nk ∧ i % nk = 4 then subWord w
  else w

/-- Word `i` of the key schedule. -/
def expand (nk : Nat) (key : Nat → Word) (i : Nat) : Word :=
  if i < nk ∨ nk = 0 then key i
  else fun r => expand nk key (i - nk) r ^^^ temp nk i (expand nk key (i - 1)) r
termination_by i
decreasing_by all_goals omega

/-- The key for each round. -/
def roundKey (nk : Nat) (key : Nat → Word) (i : Nat) : State := fun r c =>
  expand nk key (4 * i + c) r

theorem expand_of_lt {nk i : Nat} (h : i < nk) (key : Nat → Word) : expand nk key i = key i := by
  rw [expand, if_pos (Or.inl h)]

theorem expand_add {nk : Nat} (hpos : 0 < nk) (key : Nat → Word) (i : Nat) (r : Fin 4) :
    expand nk key (i + nk) r =
      expand nk key i r ^^^ temp nk (i + nk) (expand nk key (i + nk - 1)) r := by
  have hnot : ¬ (i + nk < nk ∨ nk = 0) := by omega
  rw [expand, if_neg hnot, Nat.add_sub_cancel]

/-! ## Blocks -/

/-- The state with these bytes. -/
def ofBytes (bytes : List UInt8) : State := fun r c => bytes.getD (r + 4 * c) 0

/-- The bytes of a state. -/
def toBytes (s : State) : List UInt8 :=
  (List.finRange 4).flatMap fun c => (List.finRange 4).map fun r => s r c

/-- The words of a key. -/
def keyWords (key : List UInt8) (i : Nat) : Word := fun r => key.getD (4 * i + r) 0

/-- Encryption of a block under a key of 16, 24 or 32 bytes. -/
def encrypt (key block : List UInt8) : List UInt8 :=
  let nk := key.length / 4
  toBytes (cipher (nk + 6) (roundKey nk (keyWords key)) (ofBytes block))

@[simp] theorem length_toBytes (s : State) : (toBytes s).length = 16 := rfl

@[simp] theorem ofBytes_toBytes (s : State) : ofBytes (toBytes s) = s := by
  ext r c
  fin_cases r <;> fin_cases c <;> rfl

theorem toBytes_ofBytes {bytes : List UInt8} (h : bytes.length = 16) :
    toBytes (ofBytes bytes) = bytes := by
  apply List.ext_getElem
  · exact h.symm
  · intro i hi hi'
    rw [length_toBytes] at hi
    have hget : bytes[i] = bytes.getD i 0 := by
      rw [List.getD_eq_getElem?_getD, List.getElem?_eq_getElem hi', Option.getD_some]
    rw [hget]
    interval_cases i <;> rfl

/-! ## Inverses -/

/-- The inverse of `affine`. -/
def invAffine (b : UInt8) : UInt8 :=
  rotateLeft b 1 ^^^ rotateLeft b 3 ^^^ rotateLeft b 6 ^^^ 0x05

theorem invAffine_affine (b : UInt8) : invAffine (affine b) = b := by
  have hall : ∀ n : Fin 256, invAffine (affine (UInt8.ofNat n)) = UInt8.ofNat n := by
    decide +kernel
  exact forall_byte (p := fun b => invAffine (affine b) = b) hall b

theorem sbox_injective : Function.Injective sbox := by
  intro b c h
  have hinverse : inverse b = inverse c := by
    rw [← invAffine_affine (inverse b), ← invAffine_affine (inverse c)]
    exact congrArg invAffine h
  rw [← inverse_inverse b, hinverse, inverse_inverse]

/-- INVSHIFTROWS. -/
def invShiftRows (s : State) : State := fun r c => s r (c - r)

/-- The coefficients for INVMIXCOLUMNS. -/
def invMixCoefficients : Word := ![0x0e, 0x09, 0x0d, 0x0b]

/-- INVMIXCOLUMNS. -/
def invMixColumns (s : State) : State := circulant invMixCoefficients s

theorem invShiftRows_shiftRows (s : State) : invShiftRows (shiftRows s) = s := by
  ext r c
  rw [invShiftRows, shiftRows, sub_add_cancel]

theorem shiftRows_invShiftRows (s : State) : shiftRows (invShiftRows s) = s := by
  ext r c
  rw [shiftRows, invShiftRows, add_sub_cancel_right]

theorem circulant_addRoundKey (a : Word) (s k : State) :
    circulant a (addRoundKey s k) = addRoundKey (circulant a s) (circulant a k) := by
  ext r c
  simp only [circulant, addRoundKey, linear_mul (a _) _ _]
  ac_rfl

/-- The product of the two polynomials is one: row `r` of the one matrix by column `k` of the
other. -/
theorem invMix_mix_entry (r k : Fin 4) (b : UInt8) :
    mul (invMixCoefficients r) (mul (mixCoefficients (0 - k)) b) ^^^
      mul (invMixCoefficients (r - 1)) (mul (mixCoefficients (1 - k)) b) ^^^
      mul (invMixCoefficients (r - 2)) (mul (mixCoefficients (2 - k)) b) ^^^
      mul (invMixCoefficients (r - 3)) (mul (mixCoefficients (3 - k)) b) = if r = k then b else 0 := by
  -- every summand is a multiple of `b`, and so it is enough to look at `1`
  have hb : ∀ a d : UInt8, mul a (mul d b) = mul b (mul a (mul d 1)) := by
    intro a d
    rw [GaloisByte.mul_left_comm b a, GaloisByte.mul_left_comm b d, GaloisByte.mul_one]
  rw [hb, hb, hb, hb, ← linear_mul b, ← linear_mul b, ← linear_mul b]
  have hone : mul (invMixCoefficients r) (mul (mixCoefficients (0 - k)) 1) ^^^
      mul (invMixCoefficients (r - 1)) (mul (mixCoefficients (1 - k)) 1) ^^^
      mul (invMixCoefficients (r - 2)) (mul (mixCoefficients (2 - k)) 1) ^^^
      mul (invMixCoefficients (r - 3)) (mul (mixCoefficients (3 - k)) 1) =
        if r = k then 1 else 0 := by
    revert r k
    decide +kernel
  rw [hone]
  split
  · exact GaloisByte.mul_one b
  · exact (linear_mul b).map_zero

theorem xor_transpose (a₀ a₁ a₂ a₃ b₀ b₁ b₂ b₃ c₀ c₁ c₂ c₃ d₀ d₁ d₂ d₃ : UInt8) :
    (a₀ ^^^ a₁ ^^^ a₂ ^^^ a₃) ^^^ (b₀ ^^^ b₁ ^^^ b₂ ^^^ b₃) ^^^ (c₀ ^^^ c₁ ^^^ c₂ ^^^ c₃) ^^^
        (d₀ ^^^ d₁ ^^^ d₂ ^^^ d₃) =
      (a₀ ^^^ b₀ ^^^ c₀ ^^^ d₀) ^^^ (a₁ ^^^ b₁ ^^^ c₁ ^^^ d₁) ^^^ (a₂ ^^^ b₂ ^^^ c₂ ^^^ d₂) ^^^
        (a₃ ^^^ b₃ ^^^ c₃ ^^^ d₃) := by
  ac_rfl

theorem invMixColumns_mixColumns (s : State) : invMixColumns (mixColumns s) = s := by
  ext r c
  have hfirst := invMix_mix_entry r 0 (s 0 c)
  rw [sub_zero, sub_zero, sub_zero, sub_zero] at hfirst
  simp only [invMixColumns, mixColumns, circulant, linear_mul (invMixCoefficients _) _ _]
  rw [xor_transpose, hfirst, invMix_mix_entry r 1, invMix_mix_entry r 2, invMix_mix_entry r 3]
  fin_cases r <;> simp

/-! ## Decryption -/

theorem invMixColumns_round (s k : State) :
    addRoundKey (invMixColumns (addRoundKey (mixColumns s) k)) (invMixColumns k) = s := by
  rw [invMixColumns, circulant_addRoundKey]
  change addRoundKey (addRoundKey (invMixColumns (mixColumns s)) (invMixColumns k)) _ = s
  rw [invMixColumns_mixColumns]
  ext r c
  rw [addRoundKey, addRoundKey, UInt8.xor_assoc, UInt8.xor_self, UInt8.xor_zero]

end FFmpeg.Common.Fips197
