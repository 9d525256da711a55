import FFmpeg.Common.Bytes

/-!
# The field with 256 elements

A byte stands for a polynomial over the field with two elements, of degree less than
eight, and bytes are multiplied modulo `x ^ 8 + x ^ 4 + x ^ 3 + x + 1`.  Addition is
`^^^`.
-/

namespace FFmpeg.Common.GaloisByte

/-- Multiplication by `x`. -/
def xtime (b : UInt8) : UInt8 :=
  (b <<< 1) ^^^ if b.toNat.testBit 7 then 0x1b else 0

/-- One summand of a product: the multiple of `b` by `x ^ i`, where bit `i` of `a` is set. -/
def mulStep (a b acc : UInt8) (i : Nat) : UInt8 :=
  if a.toNat.testBit i then acc ^^^ xtime^[i] b else acc

/-- Multiplication, by the bits of the first factor. -/
def mul (a b : UInt8) : UInt8 :=
  (List.range 8).foldl (mulStep a b) 0

/-- The inverse; zero for zero. -/
def inverse (b : UInt8) : UInt8 :=
  (((List.range 256).map UInt8.ofNat).find? fun c => mul b c = 1).getD 0

theorem xor_xor_xor_comm (a b c d : UInt8) : (a ^^^ b) ^^^ (c ^^^ d) = (a ^^^ c) ^^^ (b ^^^ d) := by
  ac_rfl

/-! ## Linearity -/

/-- A map that respects addition. -/
def Linear (f : UInt8 → UInt8) : Prop :=
  ∀ a b, f (a ^^^ b) = f a ^^^ f b

variable {f : UInt8 → UInt8}

theorem Linear.map_zero (hf : Linear f) : f 0 = 0 := by
  have hdouble := hf 0 0
  rwa [UInt8.xor_self, UInt8.xor_self] at hdouble

theorem linear_xtime : Linear xtime := by
  intro a b
  have hbit : (a ^^^ b).toNat.testBit 7 = (a.toNat.testBit 7 ^^ b.toNat.testBit 7) := by
    rw [UInt8.toNat_xor, Nat.testBit_xor]
  have hred : (if (a ^^^ b).toNat.testBit 7 then (0x1b : UInt8) else 0) =
      (if a.toNat.testBit 7 then 0x1b else 0) ^^^ (if b.toNat.testBit 7 then 0x1b else 0) := by
    rw [hbit]
    cases a.toNat.testBit 7 <;> cases b.toNat.testBit 7 <;> rfl
  rw [xtime, UInt8.shiftLeft_xor, hred, xor_xor_xor_comm]
  rfl

theorem linear_iterate_xtime (i : Nat) : Linear xtime^[i] := by
  induction i with
  | zero => exact fun _ _ => rfl
  | succ i ih =>
    intro a b
    rw [Function.iterate_succ_apply, Function.iterate_succ_apply, Function.iterate_succ_apply,
      linear_xtime, ih]

theorem mulStep_xor (a b c acc acc' : UInt8) (i : Nat) :
    mulStep a (b ^^^ c) (acc ^^^ acc') i = mulStep a b acc i ^^^ mulStep a c acc' i := by
  unfold mulStep
  cases a.toNat.testBit i with
  | false => rfl
  | true =>
    rw [if_pos rfl, if_pos rfl, if_pos rfl, linear_iterate_xtime i]
    exact xor_xor_xor_comm _ _ _ _

theorem linear_mul (a : UInt8) : Linear (mul a) := by
  intro b c
  have hfold : ∀ (l : List Nat) (acc acc' : UInt8), l.foldl (mulStep a (b ^^^ c)) (acc ^^^ acc') =
      l.foldl (mulStep a b) acc ^^^ l.foldl (mulStep a c) acc' := by
    intro l
    induction l with
    | nil => exact fun _ _ => rfl
    | cons i l ih =>
      intro acc acc'
      rw [List.foldl_cons, List.foldl_cons, List.foldl_cons, mulStep_xor]
      exact ih _ _
  exact hfold (List.range 8) 0 0

theorem Linear.map_mul (hf : Linear f) (hx : ∀ b, f (xtime b) = xtime (f b)) (a b : UInt8) :
    f (mul a b) = mul a (f b) := by
  have hiterate : ∀ i b, f (xtime^[i] b) = xtime^[i] (f b) := by
    intro i
    induction i with
    | zero => exact fun _ => rfl
    | succ i ih =>
      intro b
      rw [Function.iterate_succ_apply, Function.iterate_succ_apply, ih, hx]
  have hfold : ∀ (l : List Nat) (acc : UInt8),
      f (l.foldl (mulStep a b) acc) = l.foldl (mulStep a (f b)) (f acc) := by
    intro l
    induction l with
    | nil => exact fun _ => rfl
    | cons i l ih =>
      intro acc
      have hstep : f (mulStep a b acc i) = mulStep a (f b) (f acc) i := by
        unfold mulStep
        cases a.toNat.testBit i with
        | false => rfl
        | true => rw [if_pos rfl, if_pos rfl, hf, hiterate]
      rw [List.foldl_cons, List.foldl_cons, ih, hstep]
  rw [mul, hfold, hf.map_zero]
  rfl

protected theorem mul_left_comm (a b c : UInt8) : mul a (mul b c) = mul b (mul a c) :=
  (linear_mul a).map_mul (fun d => ((linear_xtime).map_mul (fun _ => rfl) a d).symm) b c

@[simp] protected theorem mul_one (b : UInt8) : mul b 1 = b := by
  have hall : ∀ n : Fin 256, mul (UInt8.ofNat n) 1 = UInt8.ofNat n := by decide +kernel
  exact forall_byte (p := fun b => mul b 1 = b) hall b

protected theorem mul_comm (a b : UInt8) : mul a b = mul b a := by
  have hcomm := GaloisByte.mul_left_comm a b 1
  rwa [GaloisByte.mul_one, GaloisByte.mul_one] at hcomm

@[simp] protected theorem one_mul (b : UInt8) : mul 1 b = b := by
  rw [GaloisByte.mul_comm, GaloisByte.mul_one]

@[simp] protected theorem zero_mul (b : UInt8) : mul 0 b = 0 := by
  rw [GaloisByte.mul_comm]
  exact (linear_mul b).map_zero

protected theorem mul_assoc (a b c : UInt8) : mul (mul a b) c = mul a (mul b c) := by
  rw [GaloisByte.mul_comm, GaloisByte.mul_left_comm, GaloisByte.mul_comm c b]

/-! ## Powers -/

/-- The powers of `x + 1`. -/
def power : Nat → UInt8
  | 0 => 1
  | n + 1 => mul 3 (power n)

theorem power_add (m n : Nat) : power (m + n) = mul (power m) (power n) := by
  induction m with
  | zero => rw [Nat.zero_add, power, GaloisByte.one_mul]
  | succ m ih => rw [Nat.succ_add, power, power, ih, GaloisByte.mul_assoc]

theorem power_order : power 255 = 1 ∧ ∀ n < 255, n ≠ 0 → power n ≠ 1 := by
  decide +kernel

theorem power_add_order (n : Nat) : power (n + 255) = power n := by
  rw [power_add, power_order.1, GaloisByte.mul_one]

theorem power_le_injective {m n : Nat} (hle : m ≤ n) (hn : n < 255) (h : power m = power n) :
    m = n := by
  by_contra hne
  -- multiply by the inverse of `power m`
  have hone : power (255 - m + m) = power (255 - m + n) := by
    rw [power_add, power_add, h]
  rw [Nat.sub_add_cancel (by lia), power_order.1,
    show 255 - m + n = (n - m) + 255 by lia, power_add_order] at hone
  exact power_order.2 (n - m) (by lia) (by lia) hone.symm

theorem power_injective {m n : Nat} (hm : m < 255) (hn : n < 255) (h : power m = power n) :
    m = n := by
  rcases Nat.le_total m n with hle | hle
  · exact power_le_injective hle hn h
  · exact (power_le_injective hle hm h.symm).symm

theorem power_ne_zero (n : Nat) : power n ≠ 0 := by
  intro hzero
  have hone : ∀ k, power (n + k) = 0 := fun k => by rw [power_add, hzero, GaloisByte.zero_mul]
  have hperiod : ∀ k, power (255 * k) = 1 := by
    intro k
    induction k with
    | zero => rfl
    | succ k ih => rw [Nat.mul_succ, power_add_order, ih]
  have hcontra := hone (254 * n)
  rw [show n + 254 * n = 255 * n by lia, hperiod] at hcontra
  exact absurd hcontra (by decide)

variable {b : UInt8}

theorem exists_power (hb : b ≠ 0) : ∃ k < 255, power k = b := by
  have hpowers : ((List.range 255).map power).Nodup := by
    apply List.Nodup.map_on ?_ List.nodup_range
    intro m hm n hn h
    exact power_injective (List.mem_range.mp hm) (List.mem_range.mp hn) h
  have hsub : (List.range 255).map power ⊆ (List.range 255).map fun n => UInt8.ofNat (n + 1) := by
    intro c hc
    obtain ⟨k, _, rfl⟩ := List.mem_map.mp hc
    have hpos : (power k).toNat ≠ 0 := fun hzero =>
      power_ne_zero k (UInt8.toNat_inj.mp hzero)
    have hlt := (power k).toNat_lt
    refine List.mem_map.mpr ⟨(power k).toNat - 1, List.mem_range.mpr (by lia), ?_⟩
    rw [Nat.sub_add_cancel (by lia), UInt8.ofNat_toNat]
  have hperm := (hpowers.subperm hsub).perm_of_length_le (by simp)
  have hpos : b.toNat ≠ 0 := fun hzero => hb (UInt8.toNat_inj.mp hzero)
  have hlt := b.toNat_lt
  have hmem : b ∈ (List.range 255).map fun n => UInt8.ofNat (n + 1) := by
    refine List.mem_map.mpr ⟨b.toNat - 1, List.mem_range.mpr (by lia), ?_⟩
    rw [Nat.sub_add_cancel (by lia), UInt8.ofNat_toNat]
  obtain ⟨k, hk, hpower⟩ := List.mem_map.mp (hperm.mem_iff.mpr hmem)
  exact ⟨k, List.mem_range.mp hk, hpower⟩

/-! ## Inverses -/

theorem eq_of_mul_eq_one {c d : UInt8} (hc : mul b c = 1) (hd : mul b d = 1) : c = d := by
  calc c = mul c (mul b d) := by rw [hd, GaloisByte.mul_one]
    _ = mul b (mul d c) := by rw [GaloisByte.mul_left_comm, GaloisByte.mul_comm c d]
    _ = mul d (mul b c) := GaloisByte.mul_left_comm b d c
    _ = d := by rw [hc, GaloisByte.mul_one]

theorem inverse_eq {c : UInt8} (h : mul b c = 1) : inverse b = c := by
  have hmem : c ∈ (List.range 256).map UInt8.ofNat :=
    List.mem_map.mpr ⟨c.toNat, List.mem_range.mpr c.toNat_lt, UInt8.ofNat_toNat⟩
  have hsome : (((List.range 256).map UInt8.ofNat).find? fun c => mul b c = 1).isSome := by
    rw [List.find?_isSome]
    exact ⟨c, hmem, decide_eq_true h⟩
  obtain ⟨d, hd⟩ := Option.isSome_iff_exists.mp hsome
  have hone : mul b d = 1 := by simpa using List.find?_some hd
  rw [inverse, hd, Option.getD_some]
  exact eq_of_mul_eq_one hone h

theorem inverse_zero : inverse 0 = 0 := by
  have hnone : ((List.range 256).map UInt8.ofNat).find? (fun c => mul 0 c = 1) = none := by
    rw [List.find?_eq_none]
    intro c _
    rw [GaloisByte.zero_mul]
    decide
  rw [inverse, hnone]
  rfl

theorem inverse_power {k : Nat} (hk : k ≤ 255) : inverse (power k) = power (255 - k) := by
  apply inverse_eq
  rw [← power_add, Nat.add_sub_cancel' hk, power_order.1]

theorem mul_inverse (hb : b ≠ 0) : mul b (inverse b) = 1 := by
  obtain ⟨k, hk, rfl⟩ := exists_power hb
  rw [inverse_power hk.le, ← power_add, Nat.add_sub_cancel' hk.le, power_order.1]

theorem inverse_inverse (b : UInt8) : inverse (inverse b) = b := by
  by_cases hb : b = 0
  · rw [hb, inverse_zero, inverse_zero]
  · apply inverse_eq
    rw [GaloisByte.mul_comm, mul_inverse hb]

end FFmpeg.Common.GaloisByte
