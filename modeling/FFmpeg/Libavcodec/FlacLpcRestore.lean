import FFmpeg.Libavcodec.FlacLpc

/-!
# The decoder restores the samples

Every round of a decoder turns one residual of the block into the sample, with the sum of the
samples before it.  The sums of 32 bits wrap around, which does not matter: the sample fits.
-/

namespace FFmpeg.Libavcodec.FlacLpc

open Golomb

variable {coefs coeffs smp decoded : List Int} {shift order len i p : Nat} {half : Int}

/-! ## Sums -/

theorem int32_eq {x : Int} (hlow : -2 ^ 31 ≤ x) (hhigh : x < 2 ^ 31) : int32 x = x :=
  Int.bmod_eq_of_le (by norm_num; lia) (by norm_num; lia)

@[simp] theorem int32_int32_add (x y : Int) : int32 (int32 x + y) = int32 (x + y) :=
  Int.bmod_add_bmod

/-- The products of `n` coefficients and the samples from `p` on. -/
def window (coeffs decoded : List Int) (p n : Nat) : Int :=
  ∑ t ∈ Finset.range n, coeffs.getD t 0 * decoded.getD (p + t) 0

theorem window_succ (coeffs decoded : List Int) (p n : Nat) :
    window coeffs decoded p (n + 1) =
      window coeffs decoded p n + coeffs.getD n 0 * decoded.getD (p + n) 0 :=
  Finset.sum_range_succ _ n

theorem sum64_eq (n : Nat) : sum64 decoded coeffs p n = window coeffs decoded p n := by
  induction n with
  | zero => rfl
  | succ n ih => rw [sum64, window_succ, ih]

theorem sum32_eq (n : Nat) : sum32 decoded coeffs p n = int32 (window coeffs decoded p n) := by
  induction n with
  | zero => rfl
  | succ n ih => rw [sum32, window_succ, ih, int32_int32_add]

theorem window_reverse (hlength : coefs.length = order) (hi : order ≤ i) :
    window coefs.reverse smp (i - order) order = prediction coefs smp i order := by
  unfold window prediction
  rw [← Finset.sum_range_reflect]
  apply Finset.sum_congr rfl
  intro t ht
  have hlt := Finset.mem_range.1 ht
  rw [List.getD_eq_getElem?_getD, List.getElem?_reverse (by lia), ← List.getD_eq_getElem?_getD,
    show coefs.length - 1 - (order - 1 - t) = t by lia,
    show i - order + (order - 1 - t) = i - 1 - t by lia]

/-- The lanes of `flac_lpc_16_c` after `n` rounds: the sums of two samples, of which the second
one lacks the last product. -/
theorem lpc16Lanes_eq (n : Nat) :
    lpc16Lanes decoded coeffs p n =
      ⟨int32 (window coeffs decoded p n), int32 (window coeffs decoded (p + 1) n),
        coeffs.getD n 0, decoded.getD (p + n) 0⟩ := by
  induction n with
  | zero => rfl
  | succ n ih =>
    simp only [lpc16Lanes, ih, int32_int32_add, window_succ]
    rw [show p + 1 + n = p + (n + 1) by lia]

/-! ## Rounds -/

variable (coefs smp shift order len)

/-- The block with the samples up to `i`. -/
def known (i : Nat) : List Int := partly coefs smp shift order len i

variable {coefs smp shift order len}

theorem getD_known {j : Nat} (hj : j < len) :
    (known coefs smp shift order len i).getD j 0 = if j < i then smp.getD j 0
      else smp.getD j 0 - prediction coefs smp j order >>> shift := by
  rw [known, List.getD_eq_getElem?_getD, getElem?_partly, if_pos hj, Option.getD_some]

theorem window_known {n : Nat} (hp : p + n ≤ i) (hi : i ≤ len) :
    window coeffs (known coefs smp shift order len i) p n = window coeffs smp p n := by
  apply Finset.sum_congr rfl
  intro t ht
  have hlt := Finset.mem_range.1 ht
  rw [getD_known (by lia), if_pos (by lia)]

theorem addPrediction_known (hsmp : Samples smp half) (hhalf : half ≤ 2 ^ 31) (hi : i < len)
    {sum : Int} (hsum : sum = prediction coefs smp i order) :
    addPrediction (known coefs smp shift order len i) i sum shift =
      known coefs smp shift order len (i + 1) := by
  obtain ⟨hlow, hhigh⟩ := hsmp i
  have hvalue : int32 ((known coefs smp shift order len i).getD i 0 + sum >>> shift) =
      smp.getD i 0 := by
    rw [getD_known hi, if_neg (Nat.lt_irrefl i), hsum, Int.sub_add_cancel]
    exact int32_eq (by linarith) (by linarith)
  rw [addPrediction, hvalue]
  apply List.ext_getElem?
  intro j
  rw [List.getElem?_set, known, known, getElem?_partly, getElem?_partly]
  by_cases hj : j = i
  · subst hj
    rw [if_pos rfl, if_pos hi, if_pos (Nat.lt_succ_self j)]
    simp [partly, hi]
  · rw [if_neg (Ne.symm hj)]
    congr 3
    exact propext ⟨fun h => by lia, fun h => by lia⟩

theorem flacLpcLoop_known {sum : List Int → List Int → Nat → Nat → Int}
    (hsmp : Samples smp half) (hhalf : half ≤ 2 ^ 31)
    (hsum : ∀ i, order ≤ i → i < len → sum (known coefs smp shift order len i) coeffs (i - order)
      order = prediction coefs smp i order)
    {rounds : Nat} (hi : order ≤ i) (hlen : i ≤ len) (hrounds : len ≤ i + rounds) :
    flacLpcLoop sum coeffs order shift len rounds i (known coefs smp shift order len i) =
      known coefs smp shift order len len := by
  induction rounds generalizing i with
  | zero =>
    obtain rfl : i = len := by lia
    rfl
  | succ rounds ih =>
    by_cases hlt : i < len
    · rw [flacLpcLoop, if_pos hlt, addPrediction_known hsmp hhalf hlt (hsum i hi hlt)]
      exact ih (by lia) hlt (by lia)
    · obtain rfl : i = len := by lia
      rw [flacLpcLoop, if_neg hlt]

/-- The loop of pairs: the second sum gets its last product from the first sample of the pair. -/
theorem flacLpc16Loop_known (hsmp : Samples smp half) (hhalf : half ≤ 2 ^ 31) (hpos : 1 ≤ order)
    (hsum : ∀ i, order ≤ i → i ≤ len →
      int32 (window coeffs smp (i - order) order) = prediction coefs smp i order)
    {rounds : Nat} (hi : order ≤ i) (hlen : i ≤ len) (hrounds : len ≤ i + rounds) :
    flacLpc16Loop coeffs order shift len rounds i (known coefs smp shift order len i) =
      known coefs smp shift order len len := by
  induction rounds generalizing i with
  | zero =>
    obtain rfl : i = len := by lia
    rfl
  | succ rounds ih =>
    obtain ⟨last, rfl⟩ : ∃ last, order = last + 1 := ⟨order - 1, by lia⟩
    by_cases hpair : i + 1 < len
    · have hlanes := @lpc16Lanes_eq coeffs (known coefs smp shift (last + 1) len i)
        (i - (last + 1)) last
      have hfirst := hsum i hi hlen
      have hsecond := hsum (i + 1) (by lia) (by lia)
      have hlast : (known coefs smp shift (last + 1) len (i + 1)).getD i 0 = smp.getD i 0 := by
        rw [getD_known (by lia), if_pos (Nat.lt_succ_self i)]
      rw [window_succ] at hfirst hsecond
      rw [show i - (last + 1) + last = i - 1 by lia] at hfirst hlanes
      rw [show i + 1 - (last + 1) + last = i by lia,
        show i + 1 - (last + 1) = i - (last + 1) + 1 by lia] at hsecond
      rw [window_known (by lia) hlen, window_known (by lia) hlen,
        getD_known (show i - 1 < len by lia), if_pos (show i - 1 < i by lia)] at hlanes
      simp only [flacLpc16Loop, if_pos hpair, Nat.add_sub_cancel, hlanes, int32_int32_add, hfirst]
      rw [addPrediction_known hsmp hhalf (by lia) rfl, hlast, hsecond,
        addPrediction_known hsmp hhalf hpair rfl]
      exact ih (by lia) (by lia) (by lia)
    · rw [flacLpc16Loop, if_neg hpair]
      by_cases hlt : i < len
      · rw [if_pos hlt, sum32_eq, window_known (by lia) hlen, hsum i hi hlen,
          addPrediction_known hsmp hhalf hlt rfl]
        congr 1
        lia
      · rw [if_neg hlt]
        congr 1
        lia

/-! ## The whole block -/

theorem sigma_lt {bps : Nat} (hbps : bps ≤ 31) (hpos : 1 ≤ bps)
    (h : ∀ x ∈ decoded, -2 ^ (bps - 1) ≤ x ∧ x < 2 ^ (bps - 1)) (acc : Nat)
    (hacc : acc < 2 ^ bps) :
    decoded.foldl (fun acc x => acc ||| ((x + 1 <<< (bps - 1)) % 2 ^ 32).toNat) acc < 2 ^ bps := by
  induction decoded generalizing acc with
  | nil => exact hacc
  | cons x decoded ih =>
    obtain ⟨hlow, hhigh⟩ := h x List.mem_cons_self
    have hhalf : (2 : Int) ^ (bps - 1) + 2 ^ (bps - 1) = 2 ^ bps := by
      rw [← two_mul, ← pow_succ', Nat.sub_add_cancel hpos]
    have hword : (2 : Int) ^ bps ≤ 2 ^ 32 := pow_le_pow_right₀ (by norm_num) (by lia)
    have hshift : ((1 <<< (bps - 1) : Nat) : Int) = 2 ^ (bps - 1) := by
      rw [Nat.one_shiftLeft]
      push_cast
      rfl
    have hterm : ((x + 1 <<< (bps - 1)) % 2 ^ 32).toNat < 2 ^ bps := by
      rw [hshift, Int.emod_eq_of_lt (by linarith) (by linarith)]
      zify
      rw [Int.toNat_of_nonneg (by linarith)]
      linarith
    exact ih (fun y hy => h y (List.mem_cons_of_mem x hy)) _ (Nat.or_lt_two_pow hacc hterm)

/-- `lpc_analyze_remodulate` leaves samples that are in range. -/
theorem lpcAnalyzeRemodulate_eq {bps qlevel : Nat} (hbps : bps ≤ 31) (hpos : 1 ≤ bps)
    (h : ∀ x ∈ decoded, -2 ^ (bps - 1) ≤ x ∧ x < 2 ^ (bps - 1)) :
    lpcAnalyzeRemodulate decoded coeffs order qlevel len bps = decoded := by
  have hrange : ∀ x ∈ (decoded.take len).drop order, -2 ^ (bps - 1) ≤ x ∧ x < 2 ^ (bps - 1) :=
    fun x hx => h x (List.mem_of_mem_take (List.mem_of_mem_drop hx))
  have hsigma := sigma_lt hbps hpos hrange 0 (by positivity)
  have hdouble : ((2 * 1 <<< (bps - 1) : Nat)) = 2 ^ bps := by
    rw [Nat.one_shiftLeft, ← pow_succ', Nat.sub_add_cancel hpos]
  rw [← hdouble] at hsigma
  exact if_pos hsigma

/-- Both decoders get the samples. -/
theorem decodeSubframeLpc_known (buggyLpc : Bool) {streamBps bps coeffPrec : Nat}
    (hlength : coefs.length = order) (hpos : 1 ≤ order) (horder : order ≤ len)
    (hlen : len ≤ smp.length) (hbps : bps ≤ 31) (hbpsPos : 1 ≤ bps)
    (hsmp : Samples smp (2 ^ (bps - 1)))
    (hsum : ∀ i, |prediction coefs smp i order| < 2 ^ 31) :
    decodeSubframeLpc buggyLpc streamBps bps coeffPrec shift len order coefs.reverse
      (partly coefs smp shift order len order) = smp.take len := by
  have hhalf : (2 : Int) ^ (bps - 1) ≤ 2 ^ 31 := pow_le_pow_right₀ (by norm_num) (by lia)
  have hwhole : known coefs smp shift order len len = smp.take len := partly_len hlen
  have hnarrow : flacLpc16 (partly coefs smp shift order len order) coefs.reverse order shift len =
      smp.take len := by
    refine (flacLpc16Loop_known hsmp hhalf hpos ?_ (Nat.le_refl order) horder
      (Nat.le_add_left len order)).trans hwhole
    intro i hi _
    obtain ⟨hlow, hhigh⟩ := abs_lt.1 (hsum i)
    rw [window_reverse hlength hi, int32_eq hlow.le hhigh]
  have hwide : flacLpc32 (partly coefs smp shift order len order) coefs.reverse order shift len =
      smp.take len := by
    refine (flacLpcLoop_known hsmp hhalf ?_ (Nat.le_refl order) horder
      (Nat.le_add_left len order)).trans hwhole
    intro i hi hlt
    rw [sum64_eq, window_known (by lia) hlt.le, window_reverse hlength hi]
  have hrange : ∀ x ∈ smp.take len, -2 ^ (bps - 1) ≤ x ∧ x < 2 ^ (bps - 1) := by
    intro x hx
    obtain ⟨i, hi, rfl⟩ := List.getElem_of_mem (List.mem_of_mem_take hx)
    have hboth := hsmp i
    rwa [List.getD_eq_getElem?_getD, List.getElem?_eq_getElem hi, Option.getD_some] at hboth
  simp only [decodeSubframeLpc, hnarrow, hwide, lpcAnalyzeRemodulate_eq hbps hbpsPos hrange]
  split <;> [rfl; split <;> rfl]

/-! ## Which subframes are exact -/

/-- The predictors are exact for one kind of subframes: whatever the samples and coefficients are,
the residual that the encoder chooses is defined and is the one of 64 bits, and the decoder gets
the samples from it. -/
def LpcExact (bpsCode streamBps obits precision order : Nat) : Prop :=
  ∀ (small : Bool) (coefs smp : List Int) (shift len : Nat),
    coefs.length = order → (∀ c ∈ coefs, |c| < 2 ^ (precision - 1)) →
    (∀ x ∈ smp, -2 ^ (obits - 1) ≤ x ∧ x < 2 ^ (obits - 1)) →
    order ≤ len → len ≤ smp.length →
    ∃ residual,
      encodeResidualLpc small bpsCode precision smp len order coefs shift = some residual ∧
      flacLpcEncode sampleSize32 small smp len order coefs shift = some residual ∧
      ∀ buggyLpc, decodeSubframeLpc buggyLpc streamBps obits precision shift len order
        coefs.reverse residual = smp.take len

theorem getD_of_forall {l : List Int} {P : Int → Prop} (h : ∀ x ∈ l, P x) (hzero : P 0) (i : Nat) :
    P (l.getD i 0) := by
  by_cases hi : i < l.length
  · rw [List.getD_eq_getElem?_getD, List.getElem?_eq_getElem hi, Option.getD_some]
    exact h _ (List.getElem_mem hi)
  · rw [List.getD_eq_getElem?_getD, List.getElem?_eq_none (by lia), Option.getD_none]
    exact hzero

theorem holds16 {b : Int} (hb : b < 2 ^ 31) : Holds sampleSize16 b := ⟨hb, fun _ _ => rfl⟩

theorem holds32 {b : Int} (hb : b < 2 ^ 31) : Holds sampleSize32 b := by
  refine ⟨hb.trans (by norm_num [sampleSize32]), fun x hx => ?_⟩
  obtain ⟨hlow, hhigh⟩ := abs_le.1 hx
  show max (-2 ^ 31) (min x (2 ^ 31 - 1)) = x
  lia

/-- Coefficients and samples whose products all fit. -/
theorem lpcExact_of_fits {bpsCode streamBps obits precision : Nat} (hpos : 1 ≤ order)
    (hle : order ≤ 32) (hobits : 1 ≤ obits) (hobits' : obits ≤ 31)
    (hfits : order * (2 ^ (precision - 1) - 1) < 2 ^ (32 - obits)) :
    LpcExact bpsCode streamBps obits precision order := by
  intro small coefs smp shift len hlength hcoefs hsmp horder hlen
  obtain ⟨half, hhalf⟩ : ∃ half : Nat, half = 2 ^ (obits - 1) := ⟨_, rfl⟩
  obtain ⟨most, hmost⟩ : ∃ most : Nat, most = 2 ^ (precision - 1) - 1 := ⟨_, rfl⟩
  have hpow : 0 < 2 ^ (precision - 1) := by positivity
  have hword : 2 ^ (32 - obits) * half = 2 ^ 31 := by
    rw [hhalf, ← pow_add]
    congr 1
    lia
  have hroom : order * (most * half) + half ≤ 2 ^ 31 := by
    rw [← hmost] at hfits
    calc order * (most * half) + half = (order * most + 1) * half := by ring
      _ ≤ 2 ^ (32 - obits) * half := Nat.mul_le_mul_right half hfits
      _ = 2 ^ 31 := hword
  have hhalfPos : 0 < half := by rw [hhalf]; positivity
  have hhalf' : (half : Int) = 2 ^ (obits - 1) := by rw [hhalf]; push_cast; rfl
  have hsamples : Samples smp half := by
    rw [hhalf']
    exact fun i => getD_of_forall hsmp ⟨neg_nonpos.2 (by positivity), by positivity⟩ i
  have hterms : Terms coefs smp ((most * half : Nat) : Int) := by
    intro y i
    have hcoef : |coefs.getD y 0| ≤ most := by
      refine getD_of_forall (P := fun c => |c| ≤ (most : Int)) (fun c hc => ?_) (by simp) y
      have hlt := hcoefs c hc
      have hcast : ((2 : Int) ^ (precision - 1)) = ((2 ^ (precision - 1) : Nat) : Int) := by
        push_cast
        rfl
      rw [hcast] at hlt
      lia
    have hsample : |smp.getD i 0| ≤ half := by
      obtain ⟨hlow, hhigh⟩ := hsamples i
      exact abs_le.2 ⟨hlow, hhigh.le⟩
    rw [abs_mul]
    push_cast
    exact mul_le_mul hcoef hsample (abs_nonneg _) (by positivity)
  obtain ⟨b, hb⟩ : ∃ b : Int, b = order * ((most * half : Nat) : Int) := ⟨_, rfl⟩
  have hroom' : b + half ≤ 2 ^ 31 := by
    rw [hb]
    exact_mod_cast hroom
  have hlt : b < 2 ^ 31 := by
    have hpos' : (0 : Int) < half := by exact_mod_cast hhalfPos
    linarith
  have hexact : ∀ {size : SampleSize}, Holds size b →
      flacLpcEncode size small smp len order coefs shift =
        some (partly coefs smp shift order len order) := fun hholds =>
    flacLpcEncode_exact hholds hterms hsamples small hpos hle hb.ge hroom' horder hlen
  refine ⟨partly coefs smp shift order len order, ?_, hexact (holds32 hlt), fun buggyLpc => ?_⟩
  · unfold encodeResidualLpc
    split
    · exact hexact (holds16 hlt)
    · exact hexact (holds32 hlt)
  · refine decodeSubframeLpc_known buggyLpc hlength hpos horder hlen hobits' hobits ?_ ?_
    · rwa [← hhalf']
    · exact fun i => ((abs_prediction_le hterms i order).trans hb.ge).trans_lt hlt


/-! ## Sums with an overflow -/

variable {size : SampleSize} {sums : Sums}

theorem mulAdd_sound {p c s r : Int} (h : mulAdd size p c s = some r) :
    r = p + c * s ∧ r < 2 ^ (size.sumWidth - 1) := by
  obtain ⟨product, hproduct, hsum⟩ := Option.bind_eq_some_iff.1 h
  obtain ⟨rfl, -⟩ := signed_eq_some.1 hproduct
  obtain ⟨rfl, -, hhigh⟩ := signed_eq_some.1 hsum
  exact ⟨rfl, hhigh⟩

theorem lpc1From_sound {x : Nat} (hx : x ≤ i) {p0 p1 : Int} (hp : p0 < 2 ^ (size.sumWidth - 1))
    (h : lpc1From size coefs smp i x ⟨smp.getD (i - x) 0, p0, p1⟩ = some sums) :
    p0 + prediction coefs smp i x < 2 ^ (size.sumWidth - 1) := by
  induction x generalizing p0 p1 with
  | zero => simpa [prediction] using hp
  | succ x ih =>
    obtain ⟨next, hstep, hrest⟩ := Option.bind_eq_some_iff.1 h
    obtain ⟨q0, h0, hstep⟩ := Option.bind_eq_some_iff.1 hstep
    obtain ⟨q1, h1, hnext⟩ := Option.bind_eq_some_iff.1 hstep
    obtain rfl := Option.some.inj hnext
    obtain ⟨hq, hlt⟩ := mulAdd_sound h0
    rw [show i - (x + 1) + 1 = i - x by lia] at hrest
    have hsum := ih (by lia) hlt hrest
    rw [prediction_succ, show i - 1 - x = i - (x + 1) by lia]
    rw [hq, Nat.add_sub_cancel] at hsum
    linarith

theorem smallSumsLoop_sound {j : Nat} (h : smallSumsLoop size coefs smp i j = some sums) :
    sums.s = smp.getD (i - j) 0 ∧ sums.p0 = prediction coefs smp i j ∧
      sums.p0 < 2 ^ (size.sumWidth - 1) := by
  induction j generalizing sums with
  | zero =>
    obtain rfl := Option.some.inj h
    exact ⟨rfl, by simp [prediction], by positivity⟩
  | succ j ih =>
    obtain ⟨prev, hprev, h⟩ := Option.bind_eq_some_iff.1 h
    obtain ⟨q1, -, h⟩ := Option.bind_eq_some_iff.1 h
    obtain ⟨q0, h0, h⟩ := Option.bind_eq_some_iff.1 h
    obtain rfl := Option.some.inj h
    obtain ⟨-, hsum, -⟩ := ih hprev
    obtain ⟨hq, hlt⟩ := mulAdd_sound h0
    refine ⟨by rw [Nat.sub_sub], ?_, hlt⟩
    rw [prediction_succ, ← hsum, show i - 1 - j = i - j - 1 by lia]
    exact hq

theorem flacLpcEncode_sound {small : Bool} {residual : List Int} (hpos : 1 ≤ order)
    (hle : order ≤ 32) (hlen : order < len)
    (h : flacLpcEncode size small smp len order coefs shift = some residual) :
    prediction coefs smp order order < 2 ^ (size.sumWidth - 1) := by
  rw [flacLpcEncode_eq] at h
  obtain ⟨rest, hloop, -⟩ := Option.map_eq_some_iff.1 h
  obtain ⟨rounds, rfl⟩ : ∃ rounds, len = rounds + 1 := ⟨len - 1, by lia⟩
  rw [lpcEncodeLoop, if_pos hlen] at hloop
  obtain ⟨sums, hsums, -⟩ := Option.bind_eq_some_iff.1 hloop
  cases small with
  | true =>
    obtain ⟨-, hsum, hlt⟩ := smallSumsLoop_sound hsums
    rwa [hsum] at hlt
  | false =>
    simp only [sumsAt, Bool.false_eq_true, if_false, unrolledSums, unrolledFrom_eq hpos hle]
      at hsums
    have hlt := lpc1From_sound (Nat.le_refl order) (by positivity) hsums
    rwa [Int.zero_add] at hlt

theorem prediction_replicate (most half : Int) (n : Nat) :
    prediction (List.replicate n (-most)) (List.replicate (n + 1) (-half)) n n =
      n * (most * half) := by
  have hterm : ∀ y ∈ Finset.range n, (List.replicate n (-most)).getD y 0 *
      (List.replicate (n + 1) (-half)).getD (n - 1 - y) 0 = most * half := by
    intro y hy
    have hlt := Finset.mem_range.1 hy
    simp [hlt, show n - 1 - y < n + 1 by lia]
  rw [prediction, Finset.sum_congr rfl hterm, Finset.sum_const, Finset.card_range, nsmul_eq_mul]

/-- Products that do not fit: the sums of 32 bits overflow. -/
theorem not_lpcExact {bpsCode streamBps obits precision : Nat} (hpos : 1 ≤ order)
    (hle : order ≤ 32) (hobits : 1 ≤ obits) (hobits' : obits ≤ 31)
    (hselect : bpsCode * 4 + precision + avLog2 order ≤ 32)
    (hfits : 2 ^ (32 - obits) ≤ order * (2 ^ (precision - 1) - 1)) :
    ¬ LpcExact bpsCode streamBps obits precision order := by
  intro hexact
  obtain ⟨half, hhalf⟩ : ∃ half : Nat, half = 2 ^ (obits - 1) := ⟨_, rfl⟩
  obtain ⟨most, hmost⟩ : ∃ most : Nat, most = 2 ^ (precision - 1) - 1 := ⟨_, rfl⟩
  have hpow : 0 < 2 ^ (precision - 1) := by positivity
  have hword : 2 ^ (32 - obits) * half = 2 ^ 31 := by
    rw [hhalf, ← pow_add]
    congr 1
    lia
  have hover : 2 ^ 31 ≤ order * (most * half) := by
    rw [← hmost] at hfits
    rw [← hword, ← Nat.mul_assoc]
    exact Nat.mul_le_mul_right half hfits
  have hhalf' : (half : Int) = 2 ^ (obits - 1) := by rw [hhalf]; push_cast; rfl
  have hmost' : (most : Int) < 2 ^ (precision - 1) := by
    have hcast : ((2 : Int) ^ (precision - 1)) = ((2 ^ (precision - 1) : Nat) : Int) := by
      push_cast
      rfl
    rw [hcast]
    lia
  obtain ⟨residual, hchosen, -, -⟩ := hexact false (List.replicate order (-(most : Int)))
    (List.replicate (order + 1) (-(half : Int))) 0 (order + 1) List.length_replicate
    (fun c hc => by
      rw [List.eq_of_mem_replicate hc, abs_neg, Nat.abs_cast]
      exact hmost')
    (fun x hx => by
      rw [List.eq_of_mem_replicate hx, ← hhalf']
      have hhalfPos : 0 < half := by rw [hhalf]; positivity
      lia)
    (Nat.le_succ order) List.length_replicate.ge
  rw [encodeResidualLpc, if_pos hselect] at hchosen
  have hlt := flacLpcEncode_sound hpos hle (Nat.lt_succ_self order) hchosen
  rw [prediction_replicate] at hlt
  have hover' : (2 : Int) ^ 31 ≤ order * (most * half) := by exact_mod_cast hover
  exact absurd hlt (not_lt.2 hover')

/-- The kinds of subframes for which the encoder chooses sums of 32 bits are exact if and only if
they are no side channels of 16 bits, or the coefficients leave the bit that these have more. -/
theorem lpcExact_iff {bpsCode streamBps obits precision order : Nat}
    (hcode : sampleSizeTable[bpsCode]? = some streamBps)
    (hbps : streamBps = 8 ∨ streamBps = 12 ∨ streamBps = 16) (hobits : 1 ≤ obits)
    (hobits' : obits ≤ streamBps + 1) (hprecision : 1 ≤ precision ∧ precision ≤ 15)
    (horder : 1 ≤ order ∧ order ≤ 32)
    (hselect : bpsCode * 4 + precision + avLog2 order ≤ 32) :
    LpcExact bpsCode streamBps obits precision order ↔
      (obits = 17 → order * (2 ^ (precision - 1) - 1) < 2 ^ 15) := by
  constructor
  · intro hexact hside
    by_contra hfits
    subst hside
    exact not_lpcExact horder.1 horder.2 hobits (by lia) hselect (not_lt.1 hfits) hexact
  · intro hside
    refine lpcExact_of_fits horder.1 horder.2 hobits (by lia) ?_
    by_cases hwide : obits = 17
    · subst hwide
      exact hside rfl
    · have hpow : 0 < 2 ^ (precision - 1) := by positivity
      have hless : order * (2 ^ (precision - 1) - 1) < order * 2 ^ (precision - 1) :=
        Nat.mul_lt_mul_of_pos_left (by lia) (by lia)
      -- only for 16 bits does the encoder have to look at the precision
      by_cases hsixteen : streamBps = 16
      · subst hsixteen
        have hcodes : ∀ c < 8, sampleSizeTable[c]? = some 16 → c = 4 := by decide
        have hlist : bpsCode < 8 := by
          by_contra hge
          rw [List.getElem?_eq_none (by simpa [sampleSizeTable] using hge)] at hcode
          cases hcode
        obtain rfl := hcodes bpsCode hlist hcode
        have hlog : order ≤ 2 ^ (avLog2 order + 1) := Nat.lt_log2_self.le
        calc order * (2 ^ (precision - 1) - 1)
            < order * 2 ^ (precision - 1) := hless
          _ ≤ 2 ^ (avLog2 order + 1) * 2 ^ (precision - 1) := Nat.mul_le_mul_right _ hlog
          _ = 2 ^ (avLog2 order + 1 + (precision - 1)) := (pow_add 2 _ _).symm
          _ ≤ 2 ^ (32 - obits) := Nat.pow_le_pow_right (by decide) (by lia)
      · calc order * (2 ^ (precision - 1) - 1)
            < order * 2 ^ (precision - 1) := hless
          _ ≤ 2 ^ 5 * 2 ^ (precision - 1) := Nat.mul_le_mul_right _ horder.2
          _ = 2 ^ (5 + (precision - 1)) := (pow_add 2 _ _).symm
          _ ≤ 2 ^ (32 - obits) := Nat.pow_le_pow_right (by decide) (by lia)

/-- Three coefficients of 15 bits and a side channel of 17 bits. -/
theorem lpcExact_iff_side : LpcExact 4 16 17 15 2 ↔ (17 = 17 → 2 * (2 ^ (15 - 1) - 1) < 2 ^ 15) :=
  lpcExact_iff rfl (by decide) (by decide) (by decide) (by decide) (by decide) (by decide +kernel)

/-- A side channel of 16 bits at its lowest level, with three coefficients of 15 bits: the encoder
chooses sums of 32 bits, and the first one overflows. -/
theorem encodeResidualLpc_overflows :
    4 * 4 + 15 + avLog2 3 ≤ 32 ∧
      encodeResidualLpc false 4 15 (List.replicate 4 (-65536)) 4 3 (List.replicate 3 (-16383)) 15 =
        none ∧
      flacLpcEncode sampleSize32 false (List.replicate 4 (-65536)) 4 3
        (List.replicate 3 (-16383)) 15 = some [-65536, -65536, -65536, -163834] ∧
      ¬ LpcExact 4 16 17 15 3 :=
  ⟨by decide +kernel, by decide +kernel, by decide +kernel,
    not_lpcExact (by decide) (by decide) (by decide) (by decide) (by decide +kernel)
      (by decide)⟩

end FFmpeg.Libavcodec.FlacLpc
