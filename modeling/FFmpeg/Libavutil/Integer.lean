import FFmpeg.Common.Limbs
import FFmpeg.Libavutil.Mathematics

/-!
# Integers of 128 bits

`libavutil/integer.c`.  An integer is made of eight words, the least significant one first.  Signed
numbers have two's complement, and the code does its arithmetic on the words.
-/

namespace FFmpeg.Libavutil.Integer

open Common.Limbs

/-- `AV_INTEGER_SIZE`. -/
def avIntegerSize : Nat := 8

/-- `AVInteger`. -/
structure AVInteger where
  v : List (BitVec 16)
  length_eq : v.length = avIntegerSize

/-- The word `i`. -/
def AVInteger.word (a : AVInteger) (i : Nat) : BitVec 16 := a.v.getD i 0

/-- `zero_i`. -/
def zeroI : AVInteger := ⟨List.replicate avIntegerSize 0, List.length_replicate⟩

/-- The loop of `av_add_i`. -/
def addLoop : Int → List (BitVec 16) → List (BitVec 16) → List (BitVec 16)
  | carry, x :: a, y :: b =>
    let carry := (carry >>> (16 : Nat)) + x.toNat + y.toNat
    BitVec.ofInt 16 carry :: addLoop carry a b
  | _, _, _ => []

/-- The loop of `av_sub_i`. -/
def subLoop : Int → List (BitVec 16) → List (BitVec 16) → List (BitVec 16)
  | carry, x :: a, y :: b =>
    let carry := (carry >>> (16 : Nat)) + x.toNat - y.toNat
    BitVec.ofInt 16 carry :: subLoop carry a b
  | _, _, _ => []

theorem length_addLoop (carry : Int) (a b : List (BitVec 16)) (h : a.length = b.length) :
    (addLoop carry a b).length = a.length := by
  induction a generalizing carry b with
  | nil => rfl
  | cons x a ih =>
    obtain ⟨y, b, rfl⟩ := List.exists_cons_of_length_eq_add_one h.symm
    rw [addLoop, List.length_cons, List.length_cons, ih _ _ (Nat.succ.inj h)]

theorem length_subLoop (carry : Int) (a b : List (BitVec 16)) (h : a.length = b.length) :
    (subLoop carry a b).length = a.length := by
  induction a generalizing carry b with
  | nil => rfl
  | cons x a ih =>
    obtain ⟨y, b, rfl⟩ := List.exists_cons_of_length_eq_add_one h.symm
    rw [subLoop, List.length_cons, List.length_cons, ih _ _ (Nat.succ.inj h)]

/-- `av_add_i`. -/
def avAddI (a b : AVInteger) : AVInteger :=
  ⟨addLoop 0 a.v b.v,
    (length_addLoop 0 a.v b.v (a.length_eq.trans b.length_eq.symm)).trans a.length_eq⟩

/-- `av_sub_i`. -/
def avSubI (a b : AVInteger) : AVInteger :=
  ⟨subLoop 0 a.v b.v,
    (length_subLoop 0 a.v b.v (a.length_eq.trans b.length_eq.symm)).trans a.length_eq⟩

/-- The loop of `av_log2_i`, from word `i - 1` down. -/
def log2Loop (a : List (BitVec 16)) : Nat → Int
  | 0 => -1
  | i + 1 => if a.getD i 0 ≠ 0 then (a.getD i 0).toNat.log2 + 16 * i else log2Loop a i

/-- `av_log2_i`. -/
def avLog2I (a : AVInteger) : Int := log2Loop a.v avIntegerSize

/-- The inner loop of `av_mul_i`, over the words of `out` from `i` on and those of `b`. -/
def mulRow (x : BitVec 16) : BitVec 32 → List (BitVec 16) → List (BitVec 16) → List (BitVec 16)
  | carry, o :: out, y :: b =>
    let carry := (carry >>> 16) + o.setWidth 32 + x.setWidth 32 * y.setWidth 32
    carry.setWidth 16 :: mulRow x carry out b
  | _, out, _ => out

theorem length_mulRow (x : BitVec 16) (carry : BitVec 32) (out b : List (BitVec 16)) :
    (mulRow x carry out b).length = out.length := by
  induction out generalizing carry b with
  | nil => rfl
  | cons o out ih =>
    cases b with
    | nil => rfl
    | cons y b => rw [mulRow, List.length_cons, List.length_cons, ih]

/-- The outer loop of `av_mul_i`, after `i` rounds; `nb` is the number of words of `b` that are
looked at. -/
def mulLoop (a b : List (BitVec 16)) (nb : Nat) : Nat → List (BitVec 16)
  | 0 => List.replicate avIntegerSize 0
  | i + 1 =>
    let out := mulLoop a b nb i
    if a.getD i 0 ≠ 0 then
      out.take i ++ mulRow (a.getD i 0) 0 (out.drop i) (b.take (nb + 1))
    else out

theorem length_mulLoop (a b : List (BitVec 16)) (nb i : Nat) :
    (mulLoop a b nb i).length = avIntegerSize := by
  induction i with
  | zero => rfl
  | succ i ih =>
    rw [mulLoop]
    split
    · rw [List.length_append, length_mulRow, ← List.length_append, List.take_append_drop, ih]
    · exact ih

/-- `av_mul_i`. -/
def avMulI (a b : AVInteger) : AVInteger :=
  let na := ((avLog2I a + 16) >>> (4 : Nat)).toNat
  let nb := ((avLog2I b + 16) >>> (4 : Nat)).toNat
  ⟨mulLoop a.v b.v nb na, length_mulLoop a.v b.v nb na⟩

/-- `(v >> 16) | 1`. -/
def cmpSign (v : BitVec 32) : Int := (v.sshiftRight 16 ||| 1#32).toInt

/-- The loop of `av_cmp_i`, from word `i - 1` down. -/
def cmpLoop (a b : List (BitVec 16)) : Nat → Int
  | 0 => 0
  | i + 1 =>
    let v := (a.getD i 0).setWidth 32 - (b.getD i 0).setWidth 32
    if v ≠ 0 then cmpSign v else cmpLoop a b i

/-- `av_cmp_i`. -/
def avCmpI (a b : AVInteger) : Int :=
  let v := (a.word (avIntegerSize - 1)).signExtend 32 - (b.word (avIntegerSize - 1)).signExtend 32
  if v ≠ 0 then cmpSign v else cmpLoop a.v b.v (avIntegerSize - 1)

/-- A round of the loop of `av_shr_i`. -/
def shrWord (a : AVInteger) (s : Int) (i : Nat) : BitVec 16 :=
  let index := BitVec.ofInt 32 (i + (s >>> (4 : Nat)))
  let v := if (index + 1).toNat < avIntegerSize then
    (a.word (index + 1).toNat).setWidth 32 <<< 16 else 0
  let v := if index.toNat < avIntegerSize then v + (a.word index.toNat).setWidth 32 else v
  (v >>> (s % 16).toNat).setWidth 16

/-- `av_shr_i`. -/
def avShrI (a : AVInteger) (s : Int) : AVInteger :=
  ⟨(List.range avIntegerSize).map (shrWord a s), by rw [List.length_map, List.length_range]⟩

/-- `quot->v[0] += 1`. -/
def AVInteger.incr (a : AVInteger) : AVInteger :=
  ⟨a.v.modifyHead (· + 1), by rw [List.length_modifyHead, a.length_eq]⟩

/-- The loop of `av_mod_i`: the quotient, and what is left of `a`. -/
def modLoop : Nat → AVInteger → AVInteger → AVInteger → AVInteger × AVInteger
  | 0, quot, a, _ => (quot, a)
  | rounds + 1, quot, a, b =>
    let quot := avShrI quot (-1)
    if 0 ≤ avCmpI a b then modLoop rounds quot.incr (avSubI a b) (avShrI b 1)
    else modLoop rounds quot a (avShrI b 1)

/-- `av_mod_i`: the quotient and the remainder.  It calls itself for a negative number, here up to
`depth` calls deep; without end otherwise. -/
def avModI : Nat → AVInteger → AVInteger → Option (AVInteger × AVInteger)
  | 0, _, _ => none
  | depth + 1, a, b =>
    let i := avLog2I a - avLog2I b
    if (a.word (avIntegerSize - 1)).toInt < 0 then do
      let (quot, a) ← avModI depth (avSubI zeroI a) b
      some (avSubI zeroI quot, avSubI zeroI a)
    else
      let b := if 0 < i then avShrI b (-i) else b
      some (modLoop (i + 1).toNat zeroI a b)

/-- `av_div_i`. -/
def avDivI (depth : Nat) (a b : AVInteger) : Option AVInteger := (avModI depth a b).map Prod.fst

/-- The loop of `av_int2i`. -/
def int2iLoop : Nat → Int → List (BitVec 16)
  | 0, _ => []
  | n + 1, a => BitVec.ofInt 16 a :: int2iLoop n (a >>> (16 : Nat))

theorem length_int2iLoop (n : Nat) (a : Int) : (int2iLoop n a).length = n := by
  induction n generalizing a with
  | zero => rfl
  | succ n ih => rw [int2iLoop, List.length_cons, ih]

/-- `av_int2i`. -/
def avInt2i (a : Int) : AVInteger := ⟨int2iLoop avIntegerSize a, length_int2iLoop avIntegerSize a⟩

/-- The loop of `av_i2int`, from word `i - 1` down. -/
def i2intLoop (a : List (BitVec 16)) : Nat → BitVec 64 → BitVec 64
  | 0, out => out
  | i + 1, out => i2intLoop a i ((out <<< 16) + (a.getD i 0).setWidth 64)

/-- `av_i2int`. -/
def avI2int (a : AVInteger) : Int :=
  (i2intLoop a.v (avIntegerSize - 1)
    (((a.word (avIntegerSize - 1)).setWidth 8).signExtend 64)).toInt

end FFmpeg.Libavutil.Integer
