import FFmpeg.Common.Bytes

/-!
# Looking for a zero byte in a word

A word is scanned for zero bytes by subtracting one from some of its bytes at once
and looking at the top bits that the subtraction has set.  A byte that borrows
disturbs the ones above it, but only a zero byte borrows, so whether the test says
anything is exact: it does if and only if one of the tested bytes is zero.  The width
of the word and the choice of the bytes are free.
-/

namespace FFmpeg.Common

theorem getLE_concat (l : Bytes) (b : UInt8) :
    getLE (l ++ [b]) = getLE l + 256 ^ l.length * b.toNat := by
  induction l with
  | nil => simp [getLE]
  | cons c l ih =>
    rw [List.cons_append, getLE, ih, getLE, List.length_cons, Nat.pow_succ']
    ring

theorem getBE_eq_getLE_reverse (l : Bytes) : getBE l = getLE l.reverse := by
  induction l with
  | nil => rfl
  | cons b l ih =>
    rw [getBE, ih, List.reverse_cons, getLE_concat, List.length_reverse]
    ring

/-- A number with `digit` in each of the chosen bytes. -/
def spread (digit : Nat) : List Bool → Nat
  | [] => 0
  | tested :: rest => (if tested then digit else 0) + 256 * spread digit rest

/-- The test on the word `x`, with the top bits of the chosen bytes as what it returns. -/
def zeroLanes {w : Nat} (tested : List Bool) (x : BitVec w) : BitVec w :=
  ~~~x &&& (x - BitVec.ofNat w (spread 1 tested)) &&& BitVec.ofNat w (spread 128 tested)

theorem spread_lt {digit : Nat} (h : digit < 256) (tested : List Bool) :
    spread digit tested < 256 ^ tested.length := by
  induction tested with
  | nil => simp [spread]
  | cons c rest ih =>
    have hdigit : (if c then digit else 0) < 256 := by
      cases c <;> simp [h]
    rw [spread, List.length_cons, Nat.pow_succ]
    lia

/-- The difference, as the word holds it. -/
def lanesSub (l : Bytes) (tested : List Bool) : Nat :=
  (256 ^ l.length - spread 1 tested + getLE l) % 256 ^ l.length

variable {l : Bytes} {tested : List Bool}

theorem lanesSub_cons {b : UInt8} {c : Bool} (hlength : tested.length = l.length)
    (h : c = true → b ≠ 0) :
    lanesSub (b :: l) (c :: tested) = b.toNat - (if c then 1 else 0) + 256 * lanesSub l tested := by
  have hb := b.toNat_lt
  have hone : (if c then 1 else 0) ≤ b.toNat := by
    cases c with
    | false => simp
    | true => simpa [Nat.one_le_iff_ne_zero, ← UInt8.toNat_inj] using h
  have hspread := spread_lt (show 1 < 256 by decide) tested
  rw [hlength] at hspread
  simp only [lanesSub, spread, getLE, List.length_cons, Nat.pow_succ']
  have hsum : 256 * 256 ^ l.length - ((if c then 1 else 0) + 256 * spread 1 tested) +
      (b.toNat + 256 * getLE l) =
        (b.toNat - if c then 1 else 0) + 256 * (256 ^ l.length - spread 1 tested + getLE l) := by
    lia
  rw [hsum, Nat.mod_mul, Nat.add_mul_mod_self_left, Nat.add_mul_div_left _ _ (by decide),
    Nat.mod_eq_of_lt (show (b.toNat - if c then 1 else 0) < 256 by lia),
    Nat.div_eq_of_lt (show (b.toNat - if c then 1 else 0) < 256 by lia), Nat.zero_add]

theorem lanesSub_mod (hlength : tested.length = l.length) :
    lanesSub (0 :: l) (true :: tested) % 256 = 255 := by
  have hspread := spread_lt (show 1 < 256 by decide) tested
  rw [hlength] at hspread
  simp only [lanesSub, spread, getLE, List.length_cons, Nat.pow_succ', if_true, UInt8.toNat_zero,
    Nat.zero_add]
  rw [Nat.mod_mul_right_mod]
  lia

/-- The top bit of byte `k` as the test sees it. -/
def laneHit (l : Bytes) (tested : List Bool) (k : Nat) : Prop :=
  (spread 128 tested).testBit (8 * k + 7) = true ∧ (getLE l).testBit (8 * k + 7) = false ∧
    (lanesSub l tested).testBit (8 * k + 7) = true

theorem testBit_succ_lane {low high : Nat} (h : low < 256) (k : Nat) :
    (low + 256 * high).testBit (8 * (k + 1) + 7) = high.testBit (8 * k + 7) := by
  rw [Nat.add_comm, show (256 : Nat) = 2 ^ 8 from rfl, Nat.testBit_two_pow_mul_add _ h,
    if_neg (by lia)]
  congr 1

theorem testBit_lane_zero {low high : Nat} (h : low < 256) :
    (low + 256 * high).testBit (8 * 0 + 7) = decide (128 ≤ low) := by
  rw [Nat.testBit_eq_decide_div_mod_eq, decide_eq_decide]
  lia

/-- The test says something exactly where a tested byte is zero; the induction is on the
bytes, from the lowest one on. -/
theorem exists_laneHit_iff (hlength : tested.length = l.length) :
    (∃ k, laneHit l tested k) ↔ ∃ p ∈ l.zip tested, p.2 = true ∧ p.1 = 0 := by
  induction l generalizing tested with
  | nil =>
    obtain rfl := List.length_eq_zero_iff.1 hlength
    simp [laneHit, spread]
  | cons b l ih =>
    cases tested with
    | nil => simp at hlength
    | cons c tested =>
      have hlength' : tested.length = l.length := by simpa using hlength
      have hb := b.toNat_lt
      by_cases hhit : c = true ∧ b = 0
      · -- the lowest byte itself is hit
        obtain ⟨rfl, rfl⟩ := hhit
        have hmod := lanesSub_mod hlength'
        refine iff_of_true ⟨0, ?_, ?_, ?_⟩ ⟨(0, true), by simp, rfl, rfl⟩
        · rw [spread, testBit_lane_zero (by decide)]
          rfl
        · rw [getLE, testBit_lane_zero (by decide)]
          rfl
        · rw [Nat.testBit_eq_decide_div_mod_eq, decide_eq_true_eq]
          lia
      · -- it does not borrow, so the rest is as if it were not there
        have hne : c = true → b ≠ 0 := fun hc hb => hhit ⟨hc, hb⟩
        have hsub := lanesSub_cons hlength' hne
        have hdigit : (if c then 128 else 0) < 256 := by cases c <;> decide
        have hsucc (k : Nat) : laneHit (b :: l) (c :: tested) (k + 1) ↔ laneHit l tested k := by
          simp only [laneHit, spread, getLE, hsub]
          rw [testBit_succ_lane hdigit, testBit_succ_lane hb, testBit_succ_lane (by lia)]
        have hzero : ¬ laneHit (b :: l) (c :: tested) 0 := by
          rintro ⟨htested, htop, hset⟩
          rw [spread, testBit_lane_zero hdigit] at htested
          rw [getLE, testBit_lane_zero hb] at htop
          rw [hsub, testBit_lane_zero (by lia)] at hset
          simp only [decide_eq_true_eq, decide_eq_false_iff_not] at htested htop hset
          cases c <;> simp at htested hset
          lia
        have hrest : (∃ k, laneHit (b :: l) (c :: tested) k) ↔ ∃ k, laneHit l tested k := by
          constructor
          · rintro ⟨k, hk⟩
            cases k with
            | zero => exact absurd hk hzero
            | succ k => exact ⟨k, (hsucc k).1 hk⟩
          · rintro ⟨k, hk⟩
            exact ⟨k + 1, (hsucc k).2 hk⟩
        rw [hrest, ih hlength']
        simp only [List.zip_cons_cons, List.mem_cons, exists_eq_or_imp]
        exact ⟨Or.inr, fun h => h.resolve_left hhit⟩

theorem testBit_spread {i : Nat} (h : (spread 128 tested).testBit i = true) :
    ∃ k, i = 8 * k + 7 := by
  induction tested generalizing i with
  | nil => simp [spread] at h
  | cons c tested ih =>
    have hdigit : (if c then 128 else 0) < 2 ^ 8 := by cases c <;> decide
    rw [spread, Nat.add_comm, show (256 : Nat) = 2 ^ 8 from rfl,
      Nat.testBit_two_pow_mul_add _ hdigit] at h
    split at h
    · refine ⟨0, ?_⟩
      cases c with
      | false => simp at h
      | true =>
        simp only [if_true, show (128 : Nat) = 2 ^ 7 from rfl, Nat.testBit_two_pow,
          decide_eq_true_eq] at h
        lia
    · obtain ⟨k, hk⟩ := ih h
      exact ⟨k + 1, by lia⟩

/-- The test on a word of any width is exact. -/
theorem zeroLanes_eq_zero_iff (hlength : tested.length = l.length) :
    zeroLanes tested (BitVec.ofNat (8 * l.length) (getLE l)) = 0 ↔
      ∀ p ∈ l.zip tested, p.2 = true → p.1 ≠ 0 := by
  have hpow : 2 ^ (8 * l.length) = 256 ^ l.length := by rw [Nat.pow_mul]
  have hl := getLE_lt l
  have hones := spread_lt (show 1 < 256 by decide) tested
  have htops := spread_lt (show 128 < 256 by decide) tested
  rw [hlength] at hones htops
  have hbit (i : Nat) : (zeroLanes tested (BitVec.ofNat (8 * l.length) (getLE l))).getLsbD i =
      true ↔ i < 8 * l.length ∧ (spread 128 tested).testBit i = true ∧
        (getLE l).testBit i = false ∧ (lanesSub l tested).testBit i = true := by
    have hsub : (BitVec.ofNat (8 * l.length) (getLE l) -
        BitVec.ofNat (8 * l.length) (spread 1 tested)).getLsbD i =
          (lanesSub l tested).testBit i := by
      rw [BitVec.getLsbD, BitVec.toNat_sub, BitVec.toNat_ofNat, BitVec.toNat_ofNat, hpow,
        Nat.mod_eq_of_lt hl, Nat.mod_eq_of_lt hones]
      rfl
    simp only [zeroLanes, BitVec.getLsbD_and, BitVec.getLsbD_not, hsub, BitVec.getLsbD_ofNat]
    by_cases hi : i < 8 * l.length
    · simp only [hi, decide_true, Bool.true_and, Bool.and_eq_true, Bool.not_eq_true', true_and]
      tauto
    · simp [hi]
  have hexists : zeroLanes tested (BitVec.ofNat (8 * l.length) (getLE l)) = 0 ↔
      ¬ ∃ k, laneHit l tested k := by
    constructor
    · rintro hzero ⟨k, htested, htop, hset⟩
      have hk : 8 * k + 7 < 8 * l.length := by
        by_contra hge
        have := Nat.testBit_lt_two_pow (Nat.lt_of_lt_of_le htops
          (hpow ▸ Nat.pow_le_pow_right (by decide) (Nat.not_lt.1 hge)))
        simp [this] at htested
      have := (hbit (8 * k + 7)).2 ⟨hk, htested, htop, hset⟩
      simp [hzero] at this
    · intro hnone
      refine BitVec.eq_of_getLsbD_eq fun i _ => ?_
      show _ = (0#(8 * l.length)).getLsbD i
      rw [BitVec.getLsbD_zero, ← Bool.not_eq_true, hbit]
      rintro ⟨-, htested, htop, hset⟩
      obtain ⟨k, rfl⟩ := testBit_spread htested
      exact hnone ⟨k, htested, htop, hset⟩
  rw [hexists, exists_laneHit_iff hlength]
  simp only [not_exists, not_and, ne_eq]

end FFmpeg.Common
