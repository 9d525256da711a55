import FFmpeg.Libavcodec.GolombRoundTrip

/-!
# Golomb codes with a parameter

The quotient is written in unary and the remainder in `k` bits behind it.  The reader of the
first kind has the whole code in its cache, and an escape code from the limit on.  The reader of
the second kind has only the codes of up to 25 bits in its cache.
-/

namespace FFmpeg.Libavcodec.GolombRice

open Common GetBits GetBitsStream Golomb GolombRoundTrip PutBits PutBitsStream

variable {config : Config} {gb : GetBitContext} {b : List Bool} {k limit escLen v : Nat}

/-! ## The code of a number -/

/-- The quotient as zeros, a one, and the remainder. -/
def riceCode (k v : Nat) : List Bool :=
  List.replicate (v >>> k) false ++ true :: bits .msbFirst k v

@[simp] theorem length_riceCode (k v : Nat) : (riceCode k v).length = v >>> k + k + 1 := by
  simp [riceCode, Nat.add_assoc]

theorem remainder_lt (k v : Nat) : 2 ^ k + v % 2 ^ k < 2 ^ (k + 1) := by
  have hlt : v % 2 ^ k < 2 ^ k := Nat.mod_lt v (by positivity)
  rw [Nat.pow_succ]
  lia

theorem riceCode_eq (k v : Nat) :
    riceCode k v = bits .msbFirst (v >>> k + (k + 1)) (2 ^ k + v % 2 ^ k) := by
  have hmod : v % 2 ^ k < 2 ^ k := Nat.mod_lt v (by positivity)
  have hone : (2 ^ k + v % 2 ^ k) >>> k = 1 := by
    rw [Nat.shiftRight_eq_div_pow, Nat.add_div_left _ (by positivity), Nat.div_eq_of_lt hmod]
  have hlow : bits .msbFirst k (2 ^ k + v % 2 ^ k) = bits .msbFirst k v := by
    rw [← bits_mod (Nat.le_refl k), Nat.add_mod_left, Nat.mod_mod, bits_mod (Nat.le_refl k)]
  rw [bits_zeros (remainder_lt k v), Nat.add_comm k 1, bits_add_msbFirst, hone, hlow]
  rfl

theorem join_quotient {q : Nat} (hq : q = v >>> k) (hq' : q ≤ 31) (hv : v < 2 ^ 32) :
    (2 ^ k + v % 2 ^ k + (30 + 2 ^ 32 - (31 - q)) <<< k) % 2 ^ 32 = v := by
  have hdiv : 2 ^ k * q + v % 2 ^ k = v := by
    rw [hq, Nat.shiftRight_eq_div_pow]
    exact Nat.div_add_mod v (2 ^ k)
  have hminus : 30 + 2 ^ 32 - (31 - q) + 1 = 2 ^ 32 + q := by lia
  have hsum : 2 ^ k + v % 2 ^ k + (30 + 2 ^ 32 - (31 - q)) <<< k = v + 2 ^ 32 * 2 ^ k := by
    calc 2 ^ k + v % 2 ^ k + (30 + 2 ^ 32 - (31 - q)) <<< k
        = (30 + 2 ^ 32 - (31 - q) + 1) * 2 ^ k + v % 2 ^ k := by
          rw [Nat.shiftLeft_eq, Nat.add_mul, Nat.one_mul]
          lia
      _ = v + 2 ^ 32 * 2 ^ k := by
          rw [hminus, Nat.add_mul, Nat.mul_comm q, Nat.add_assoc, hdiv, Nat.add_comm]
  rw [hsum, Nat.add_mul_mod_self_left, Nat.mod_eq_of_lt hv]

theorem cache_rice {q : Nat} (h : Next gb (riceCode k v)) (hq : v >>> k = q)
    (hshort : q + k + 1 ≤ 25) (hv : v < 2 ^ 32) (unchecked : Bool) :
    avLog2 (updateCache ⟨.msbFirst, unchecked⟩ gb) = 31 - q ∧
      (updateCache ⟨.msbFirst, unchecked⟩ gb >>> (31 - q - k) +
        (30 + 2 ^ 32 - (31 - q)) <<< k) % 2 ^ 32 = v ∧
      skipCounter ⟨.msbFirst, unchecked⟩ gb (32 + k - (31 - q)) =
        behind gb (riceCode k v).length := by
  have hlength : (riceCode k v).length = q + k + 1 := by rw [length_riceCode, hq]
  have hcode : Next gb (bits .msbFirst (q + (k + 1)) (2 ^ k + v % 2 ^ k) ++ []) := by
    rwa [List.append_nil, ← hq, ← riceCode_eq]
  have hone : Next gb (List.replicate q false ++ true :: bits .msbFirst k v) := by
    rwa [← hq]
  have hshow := hcode.show (by lia)
    ((remainder_lt k v).trans_le (Nat.pow_le_pow_right (by decide) (by lia))) unchecked
  refine ⟨avLog2_eq (hone.one (by lia) unchecked), ?_, ?_⟩
  · rw [show 31 - q - k = 32 - (q + (k + 1)) by lia, hshow]
    exact join_quotient hq.symm (by lia) hv
  · rw [show 32 + k - (31 - q) = q + k + 1 by lia, hlength]
    exact h.skip hlength.ge

/-! ## The first kind -/

/-- The code of `set_ur_golomb`. -/
def urCode (k limit escLen v : Nat) : List Bool :=
  if v >>> k < limit then riceCode k v else bits .msbFirst (limit + escLen) (v + 1 - limit)

variable {pb : PutBitContext} {size : Nat} {out : List Bool}

theorem writes_ur (h : Writes .msbFirst size pb out)
    (hcode : v + 1 < 2 ^ escLen + limit ∨ v >>> k < limit) (hlimit : limit + k ≤ 25)
    (hesc : limit + escLen ≤ 31) (hroom : out.length + (urCode k limit escLen v).length ≤ 8 * size) :
    Writes .msbFirst size (setUrGolomb pb v k limit escLen) (out ++ urCode k limit escLen v) := by
  simp only [setUrGolomb, urCode] at hroom ⊢
  by_cases hquotient : v >>> k < limit
  · rw [if_pos hquotient] at hroom ⊢
    rw [if_pos hquotient, Nat.one_shiftLeft, Nat.and_two_pow_sub_one_eq_mod, riceCode_eq]
    rw [length_riceCode] at hroom
    generalize v >>> k = q at hquotient hroom ⊢
    exact h.putBits (by lia)
      ((remainder_lt k v).trans_le (Nat.pow_le_pow_right (by decide) (by lia))) (by lia)
  · rw [if_neg hquotient] at hroom ⊢
    rw [length_bits] at hroom
    have hle : limit ≤ v := (Nat.le_of_not_lt hquotient).trans (Nat.shiftRight_le v k)
    rw [if_neg hquotient, show v - limit + 1 = v + 1 - limit by lia]
    have hpow : 2 ^ escLen ≤ 2 ^ (limit + escLen) := Nat.pow_le_pow_right (by decide) (by lia)
    exact h.putBits (by lia) (by lia) hroom

theorem getUrGolomb_short {log : Nat} (hlog : avLog2 (updateCache config gb) = log)
    (hlimit : 31 - (limit : Int) < log) :
    getUrGolomb config gb k limit escLen =
      ((updateCache config gb >>> (log - k) + ((30 + 2 ^ 32 - log) <<< k)) % 2 ^ 32,
        skipCounter config gb (32 + k - log)) := by
  simp only [getUrGolomb, hlog, if_pos hlimit]

theorem getUrGolomb_escape (hlimit : ¬ 31 - (limit : Int) < avLog2 (updateCache config gb))
    {next : GetBitContext} (hskip : skipCounter config gb limit = next)
    (hshow : showUbits config (updateCache config next) escLen = v) :
    getUrGolomb config gb k limit escLen =
      ((2 ^ 32 - 1 + v + limit) % 2 ^ 32, skipCounter config next escLen) := by
  simp only [getUrGolomb, if_neg hlimit, hskip, hshow]

theorem getUrGolomb_eq (h : Next gb (urCode k limit escLen v)) (hv : v < 2 ^ 32)
    (hcode : v + 1 < 2 ^ escLen + limit ∨ v >>> k < limit) (hlimit : limit + k ≤ 25)
    (hesc : escLen ≤ 25) (unchecked : Bool) :
    getUrGolomb ⟨.msbFirst, unchecked⟩ gb k limit escLen =
      (v, behind gb (urCode k limit escLen v).length) := by
  unfold urCode at h ⊢
  by_cases hquotient : v >>> k < limit
  · rw [if_pos hquotient] at h ⊢
    obtain ⟨q, hq⟩ : ∃ q, v >>> k = q := ⟨_, rfl⟩
    rw [hq] at hquotient
    obtain ⟨hlog, hvalue, hskip⟩ := cache_rice h hq (by lia) hv unchecked
    rw [getUrGolomb_short hlog (by lia), hvalue, hskip]
  · rw [if_neg hquotient] at h ⊢
    have hle : limit ≤ v := (Nat.le_of_not_lt hquotient).trans (Nat.shiftRight_le v k)
    have hsmall : v + 1 - limit < 2 ^ escLen := by lia
    rw [bits_zeros hsmall] at h
    have hzeros := h.zeros (by lia) unchecked
    have hlog : avLog2 (updateCache ⟨.msbFirst, unchecked⟩ gb) ≤ 31 - limit :=
      avLog2_le (by rwa [show 31 - limit + 1 = 32 - limit by lia])
    have hskip : skipCounter ⟨.msbFirst, unchecked⟩ gb limit = behind gb limit :=
      h.skip (by simp)
    have hnext := h.right
    rw [List.length_replicate, ← List.append_nil (bits _ _ _)] at hnext
    rw [getUrGolomb_escape (by lia) hskip (hnext.show hesc hsmall unchecked),
      hnext.skip (by simp), behind_behind, length_bits,
      show 2 ^ 32 - 1 + (v + 1 - limit) + limit = v + 2 ^ 32 by lia, Nat.add_mod_right,
      Nat.mod_eq_of_lt hv]

/-! ## The second kind -/

theorem writes_zeros {rounds : Nat} {e : Nat} (h : Writes .msbFirst size pb out) (hpos : 0 < e)
    (hrounds : e ≤ rounds + 31) (hroom : out.length + e ≤ 8 * size) :
    ∃ next rest, putZeros rounds pb e = (next, rest) ∧ 0 < rest ∧ rest ≤ 31 ∧ rest ≤ e ∧
      Writes .msbFirst size next (out ++ List.replicate (e - rest) false) := by
  induction rounds generalizing pb out e with
  | zero => exact ⟨pb, e, rfl, hpos, by lia, Nat.le_refl e, by simpa using h⟩
  | succ rounds ih =>
    by_cases hlong : 31 < e
    · have hput := h.putBits (by decide : 31 ≤ 32) (by decide : 0 < 2 ^ 31) (by lia)
      rw [bits_of_zero] at hput
      obtain ⟨next, rest, heq, hrest, hle, hle', hwrites⟩ := ih (e := e - 31) hput (by lia)
        (by lia) (by simp; lia)
      refine ⟨next, rest, ?_, hrest, hle, by lia, ?_⟩
      · rw [putZeros, if_pos hlong, heq]
      · rwa [List.append_assoc, ← List.replicate_add,
          show 31 + (e - 31 - rest) = e - rest by lia] at hwrites
    · exact ⟨pb, e, if_neg hlong, hpos, by lia, Nat.le_refl e, by simpa using h⟩

theorem writes_jpegls (h : Writes .msbFirst size pb out) (hk : k ≤ 31)
    (hlimit : v >>> k + 1 < limit) (hroom : out.length + (riceCode k v).length ≤ 8 * size) :
    Writes .msbFirst size (setUrGolombJpegls pb v k limit escLen) (out ++ riceCode k v) := by
  rw [length_riceCode] at hroom
  simp only [setUrGolombJpegls, riceCode, if_pos hlimit]
  generalize v >>> k = q at hroom
  obtain ⟨next, rest, heq, hpos, hrest, hle, hwrites⟩ :
      ∃ next rest, putZeros (q + 1) pb (q + 1) = (next, rest) ∧ 0 < rest ∧ rest ≤ 31 ∧
        rest ≤ q + 1 ∧ Writes .msbFirst size next (out ++ List.replicate (q + 1 - rest) false) :=
    writes_zeros h (by lia) (by lia) (by lia)
  have hone := hwrites.putBits (show rest ≤ 32 by lia)
    (Nat.one_lt_two_pow (show rest ≠ 0 by lia)) (by simp; lia)
  have hbits : bits .msbFirst rest 1 = List.replicate (rest - 1) false ++ [true] := by
    rw [← bits_one, Nat.sub_add_cancel hpos]
  rw [hbits, List.append_assoc, ← List.append_assoc (List.replicate _ _), ← List.replicate_add,
    show q + 1 - rest + (rest - 1) = q by lia] at hone
  rw [heq]
  by_cases hzero : k = 0
  · subst hzero
    simpa using hone
  · have hput := hone.putSbits (n := k) hk (v : Int) (by simp; lia)
    have hmod : ((v : Int) % 2 ^ k).toNat = v % 2 ^ k := by
      rw [show (2 : Int) ^ k = ((2 ^ k : Nat) : Int) by push_cast; rfl, ← Int.natCast_emod,
        Int.toNat_natCast]
    rw [hmod, bits_mod (Nat.le_refl k)] at hput
    simpa [hzero] using hput

/-! ### Counting zeros -/

/-- Whole caches of zeros are skipped as long as they come next. -/
theorem skipZeroCaches_eq {rounds q i : Nat} (h : Next gb (List.replicate q false ++ true :: b))
    (hrounds : q < rounds + 25) (hlimit : i + q + 1 < limit) (unchecked : Bool) :
    ∃ j ≤ q, q - j < 25 ∧
      skipZeroCaches ⟨.msbFirst, unchecked⟩ limit rounds gb i = (behind gb j, some (i + j)) := by
  induction rounds generalizing gb q i with
  | zero => exact ⟨0, Nat.zero_le q, by lia, rfl⟩
  | succ rounds ih =>
    by_cases hmore : 25 ≤ q
    · have hsplit : List.replicate q false ++ true :: b =
          List.replicate 25 false ++ (List.replicate (q - 25) false ++ true :: b) := by
        rw [← List.append_assoc, ← List.replicate_add, Nat.add_sub_cancel' hmore]
      rw [hsplit] at h
      have hcache := h.zeros (Nat.le_refl 25) unchecked
      have hshow : showUbits ⟨.msbFirst, unchecked⟩
          (updateCache ⟨.msbFirst, unchecked⟩ gb) minCacheBits = 0 := by
        show _ >>> (32 - 25) = 0
        rw [Nat.shiftRight_eq_div_pow]
        exact Nat.div_eq_of_lt hcache
      have hinside : ¬ gb.sizeInBits ≤ gb.index := by
        have hsize := h.has.size
        simp at hsize
        lia
      have hskip : skipCounter ⟨.msbFirst, unchecked⟩ gb minCacheBits = behind gb 25 :=
        h.skip (by simp [minCacheBits])
      have hnext := h.right
      rw [List.length_replicate] at hnext
      obtain ⟨j, hj, hrest, heq⟩ := ih (i := i + 25) hnext (by lia) (by lia)
      refine ⟨25 + j, by lia, by lia, ?_⟩
      rw [skipZeroCaches, if_pos ⟨show i + 25 ≤ limit by lia, hshow⟩, if_neg hinside, hskip]
      rw [behind_behind] at heq
      rw [Nat.add_assoc] at heq
      exact heq
    · refine ⟨0, Nat.zero_le q, by lia, ?_⟩
      have hlow := (bounds_of_shiftRight (h.one (by lia) unchecked)).1
      have hshow : showUbits ⟨.msbFirst, unchecked⟩
          (updateCache ⟨.msbFirst, unchecked⟩ gb) minCacheBits ≠ 0 := by
        show _ >>> (32 - 25) ≠ 0
        rw [Nat.shiftRight_eq_div_pow]
        have hpow : 2 ^ (32 - 25) ≤ 2 ^ (31 - q) := Nat.pow_le_pow_right (by decide) (by lia)
        exact (Nat.div_pos (hpow.trans hlow) (by positivity)).ne'
      rw [skipZeroCaches, if_neg (fun hboth => hshow hboth.2)]
      rfl

/-- The zeros of one cache are skipped one by one. -/
theorem skipZeroBits_eq {rounds cache q i : Nat} (hcache : cache >>> (31 - q) = 1)
    (h : Next gb (List.replicate q false ++ b)) (hq : q < 32) (hrounds : q ≤ rounds)
    (hlimit : i + q < limit) (unchecked : Bool) :
    skipZeroBits ⟨.msbFirst, unchecked⟩ limit rounds cache gb i = (behind gb q, i + q) := by
  induction rounds generalizing cache gb q i with
  | zero =>
    obtain rfl : q = 0 := Nat.le_zero.1 hrounds
    rfl
  | succ rounds ih =>
    obtain ⟨hlow, hhigh⟩ := bounds_of_shiftRight hcache
    have hshow : showUbits ⟨.msbFirst, unchecked⟩ cache 1 = cache / 2 ^ 31 :=
      Nat.shiftRight_eq_div_pow cache 31
    by_cases hzero : q = 0
    · subst hzero
      have hone : cache / 2 ^ 31 ≠ 0 := (Nat.div_pos hlow (by positivity)).ne'
      rw [skipZeroBits, hshow, if_neg (fun hboth => hone hboth.2)]
      rfl
    · obtain ⟨p, rfl⟩ : ∃ p, q = p + 1 := ⟨q - 1, by lia⟩
      have hsmall : cache < 2 ^ 31 :=
        hhigh.trans_le (Nat.pow_le_pow_right (by decide) (by lia))
      have hshift : (cache <<< 1) % 2 ^ 32 = 2 * cache := by
        rw [Nat.shiftLeft_eq]
        lia
      have hnext : (2 * cache) >>> (31 - p) = 1 := by
        rw [show 31 - p = 1 + (31 - (p + 1)) by lia, Nat.shiftRight_add, Nat.shiftRight_one,
          Nat.mul_div_cancel_left _ (by decide)]
        exact hcache
      have hskip : skipCounter ⟨.msbFirst, unchecked⟩ gb 1 = behind gb 1 := h.skip (by simp; lia)
      have hright := h
      rw [Nat.add_comm, List.replicate_add, List.append_assoc] at hright
      have hrest := ih (i := i + 1) hnext hright.right (by lia) (by lia) (by lia)
      rw [skipZeroBits, hshow, if_pos ⟨by lia, Nat.div_eq_of_lt hsmall⟩, hshift, hskip]
      simpa [Nat.add_assoc, Nat.add_comm 1 p] using hrest

/-- A remainder of more than 24 bits takes two reads. -/
theorem showRemainder_eq (h : Next gb (bits .msbFirst k v)) (hk : k ≤ 31) (unchecked : Bool) :
    showRemainder ⟨.msbFirst, unchecked⟩ gb k = (v % 2 ^ k, behind gb k) := by
  have hmod : v % 2 ^ k < 2 ^ k := Nat.mod_lt v (by positivity)
  have hlength : (bits .msbFirst k v).length = k := length_bits k v
  rw [← bits_mod (Nat.le_refl k)] at h hlength
  by_cases hzero : k = 0
  · subst hzero
    simp [showRemainder, Nat.mod_one]
  · by_cases hlong : minCacheBits - 1 < k
    · have hword : 16 < k := lt_of_le_of_lt (by decide) hlong
      have hfirst := getBits_gets ⟨.msbFirst, unchecked⟩ (by decide : 16 ≤ 25)
        (h.has.mono (hword.le.trans hlength.ge))
      have hsecond := getBits_gets ⟨.msbFirst, unchecked⟩ (show k - 16 ≤ 25 by lia)
        (h.has.after (a := 16) (b := k - 16) (by rw [hlength]; lia))
      rw [← hfirst.context_eq] at hsecond
      have hjoin := hfirst.join_msbFirst (k := 32) (by lia) hsecond
      rw [Nat.add_sub_cancel' hword.le] at hjoin
      have hbits := h.bits_eq
      rw [hlength] at hbits
      rw [showRemainder, if_pos hzero, if_pos hlong]
      exact Prod.ext (bits_injective hjoin.value_lt hmod (hjoin.bits_eq.trans hbits))
        hjoin.context_eq
    · have hshow := Next.show (b := []) (by rwa [List.append_nil])
        (show k ≤ 25 by simp [minCacheBits] at hlong; lia) hmod unchecked
      have hvalue : showUbits ⟨.msbFirst, unchecked⟩ (updateCache ⟨.msbFirst, unchecked⟩ gb) k =
          v % 2 ^ k := hshow
      rw [showRemainder, if_pos hzero, if_neg hlong, hvalue, h.skip hlength.ge]

/-! ### The reader -/

theorem getUrGolombJpegls_cached {log : Nat} (hlog : avLog2 (updateCache config gb) = log)
    (hcached : (32 - minCacheBits : Int) ≤ (log : Int) - k ∧ 32 - (log : Int) < limit) :
    getUrGolombJpegls config gb k limit escLen =
      ((updateCache config gb >>> (log - k) + ((30 + 2 ^ 32 - log) <<< k)) % 2 ^ 32,
        skipCounter config gb (32 + k - log)) := by
  simp only [getUrGolombJpegls, hlog, if_pos hcached]

theorem getUrGolombJpegls_loops {log i q r : Nat} {next last final : GetBitContext}
    (hlog : avLog2 (updateCache config gb) = log)
    (hlong : ¬ ((32 - minCacheBits : Int) ≤ (log : Int) - k ∧ 32 - (log : Int) < limit))
    (hcaches : skipZeroCaches config limit limit gb 0 = (next, some i))
    (hbits : skipZeroBits config limit limit (updateCache config next) next i = (last, q))
    (hlimit : q + 1 < limit)
    (hremainder : showRemainder config (skipCounter config last 1) k = (r, final)) :
    getUrGolombJpegls config gb k limit escLen = ((r + q <<< k) % 2 ^ 32, final) := by
  simp only [getUrGolombJpegls, hlog, if_neg hlong, hcaches, hbits, if_pos hlimit, hremainder]

theorem getUrGolombJpegls_eq (h : Next gb (riceCode k v)) (hv : v < 2 ^ 32) (hk : k ≤ 31)
    (hlimit : v >>> k + 1 < limit) (unchecked : Bool) :
    getUrGolombJpegls ⟨.msbFirst, unchecked⟩ gb k limit escLen =
      (v, behind gb (riceCode k v).length) := by
  have hlength := length_riceCode k v
  have hcode : Next gb (List.replicate (v >>> k) false ++ true :: bits .msbFirst k v) := h
  obtain ⟨q, hq⟩ : ∃ q, v >>> k = q := ⟨_, rfl⟩
  rw [hq] at hlimit hlength hcode
  by_cases hcached : (32 - minCacheBits : Int) ≤
      (avLog2 (updateCache ⟨.msbFirst, unchecked⟩ gb) : Int) - k ∧
        32 - (avLog2 (updateCache ⟨.msbFirst, unchecked⟩ gb) : Int) < limit
  · have hmin : (32 - minCacheBits : Int) = 7 := rfl
    have hshort : q + k + 1 ≤ 25 := by
      by_contra hlong
      by_cases hfar : q < 25
      · rw [avLog2_eq (hcode.one hfar unchecked)] at hcached
        lia
      · have hzeros : Next gb (List.replicate 25 false ++
            (List.replicate (q - 25) false ++ true :: bits .msbFirst k v)) := by
          rwa [← List.append_assoc, ← List.replicate_add, Nat.add_sub_cancel' (by lia)]
        have hlog := avLog2_le (m := 6) (hzeros.zeros (Nat.le_refl 25) unchecked)
        lia
    obtain ⟨hlog, hvalue, hskip⟩ := cache_rice h hq hshort hv unchecked
    rw [getUrGolombJpegls_cached hlog (hlog ▸ hcached), hvalue, hskip]
  · obtain ⟨j, hj, hnear, hcaches⟩ : ∃ j ≤ q, q - j < 25 ∧
        skipZeroCaches ⟨.msbFirst, unchecked⟩ limit limit gb 0 = (behind gb j, some (0 + j)) :=
      skipZeroCaches_eq hcode (by lia) (by lia) unchecked
    have hsplit : List.replicate q false ++ true :: bits .msbFirst k v =
        List.replicate j false ++ (List.replicate (q - j) false ++ true :: bits .msbFirst k v) := by
      rw [← List.append_assoc, ← List.replicate_add, Nat.add_sub_cancel' hj]
    rw [hsplit] at hcode
    have hnext := hcode.right
    rw [List.length_replicate] at hnext
    have hbits : skipZeroBits ⟨.msbFirst, unchecked⟩ limit limit
        (updateCache ⟨.msbFirst, unchecked⟩ (behind gb j)) (behind gb j) (0 + j) =
          (behind (behind gb j) (q - j), 0 + j + (q - j)) :=
      skipZeroBits_eq (hnext.one hnear unchecked) hnext (by lia) (by lia) (by lia) unchecked
    rw [behind_behind, show j + (q - j) = q by lia, show 0 + j + (q - j) = q by lia] at hbits
    have hone := hnext.right
    rw [List.length_replicate, behind_behind, show j + (q - j) = q by lia,
      ← List.singleton_append] at hone
    have hskip : skipCounter ⟨.msbFirst, unchecked⟩ (behind gb q) 1 = behind gb (q + 1) :=
      (hone.skip (by simp)).trans (behind_behind q 1)
    have hlast := hone.right
    rw [behind_behind] at hlast
    have hremainder := showRemainder_eq hlast hk unchecked
    rw [List.length_singleton, ← hskip] at hremainder
    have hvalue : v % 2 ^ k + q <<< k = v := by
      rw [← hq, Nat.shiftRight_eq_div_pow, Nat.shiftLeft_eq, Nat.mul_comm]
      exact Nat.mod_add_div v (2 ^ k)
    rw [getUrGolombJpegls_loops rfl hcached hcaches hbits hlimit hremainder, hvalue,
      Nat.mod_eq_of_lt hv, hskip, behind_behind, hlength]
    congr 2
    lia

/-! ## Signed numbers -/

/-- The number of a signed number: the sign is its lowest bit. -/
def fold (i : Int) : Nat := if 0 ≤ i then (2 * i).toNat else (-2 * i - 1).toNat

variable {i : Int}

theorem foldSign_eq (hlow : -2 ^ 30 ≤ i) (hhigh : i < 2 ^ 30) : foldSign i = fold i := by
  have htoInt : (BitVec.ofInt 32 (-2 * i - 1)).toInt = -2 * i - 1 := by
    rw [BitVec.toInt_ofInt, Int.bmod_eq_of_le (by lia) (by lia)]
  unfold foldSign fold
  dsimp only
  by_cases hpos : 0 ≤ i
  · have hsign : (BitVec.ofInt 32 (-2 * i - 1)).sshiftRight 31 = BitVec.allOnes 32 := by
      apply BitVec.eq_of_toInt_eq
      rw [BitVec.toInt_sshiftRight, htoInt, Int.shiftRight_eq_div_pow]
      show (-2 * i - 1) / 2 ^ 31 = -1
      lia
    rw [hsign, if_pos hpos, BitVec.xor_allOnes, BitVec.toNat_not, BitVec.toNat_ofInt]
    lia
  · have hsign : (BitVec.ofInt 32 (-2 * i - 1)).sshiftRight 31 = 0#32 := by
      apply BitVec.eq_of_toInt_eq
      rw [BitVec.toInt_sshiftRight, htoInt, Int.shiftRight_eq_div_pow]
      show (-2 * i - 1) / 2 ^ 31 = 0
      lia
    rw [hsign, if_neg hpos, BitVec.xor_zero, BitVec.toNat_ofInt]
    lia

theorem unfoldSign_fold (hlow : -2 ^ 31 ≤ i) (hhigh : i < 2 ^ 31) : unfoldSign (fold i) = i := by
  obtain ⟨m, hm⟩ : ∃ m, m = fold i / 2 := ⟨_, rfl⟩
  have hsmall : m < 2 ^ 31 := by
    rw [hm, fold]
    split <;> lia
  have htoInt : (BitVec.ofNat 32 m).toInt = m := by
    rw [BitVec.toInt_ofNat', Int.bmod_eq_of_le (by lia) (by lia)]
  rw [unfoldSign, Nat.and_one_is_mod, Nat.shiftRight_one, ← hm]
  by_cases hpos : 0 ≤ i
  · have hfold : fold i = (2 * i).toNat := if_pos hpos
    rw [show fold i % 2 = 0 by lia]
    simp [htoInt]
    lia
  · have hfold : fold i = (-2 * i - 1).toNat := if_neg hpos
    have hmask : -BitVec.ofNat 32 1 = BitVec.allOnes 32 := rfl
    rw [show fold i % 2 = 1 by lia, hmask, BitVec.xor_allOnes, BitVec.toInt_not,
      BitVec.toNat_ofNat, Nat.mod_eq_of_lt (by lia)]
    rw [Int.bmod_def]
    split <;> lia

theorem fold_lt (hcode : (fold i : Int) - limit + 1 < 2 ^ escLen ∨ fold i >>> k < limit)
    (hlimit : limit + k ≤ 25) (hesc : escLen ≤ 25) : fold i < 2 ^ 26 := by
  rcases hcode with hescape | hquotient
  · have hpow : 2 ^ escLen ≤ 2 ^ 25 := Nat.pow_le_pow_right (by decide) hesc
    zify at hpow ⊢
    lia
  · rw [Nat.shiftRight_eq_div_pow, Nat.div_lt_iff_lt_mul (by positivity)] at hquotient
    calc fold i < limit * 2 ^ k := hquotient
      _ ≤ 2 ^ limit * 2 ^ k := Nat.mul_le_mul_right _ Nat.lt_two_pow_self.le
      _ = 2 ^ (limit + k) := (Nat.pow_add 2 limit k).symm
      _ < 2 ^ 26 := Nat.pow_lt_pow_right (by decide) (by lia)

theorem bounds_of_fold {n : Nat} (h : fold i < 2 * n) : -(n : Int) ≤ i ∧ i < n := by
  unfold fold at h
  split at h <;> lia

theorem undoes_ue (unchecked : Bool) {i : Nat} (hi : i ≤ 2 ^ 32 - 2) :
    Undoes (getUeGolombLong ⟨.msbFirst, unchecked⟩) (fun pb => setUeGolombLong pb i) i := by
  refine ⟨ueCode (i + 1), fun size s out h hroom => writes_ue h (by lia) hroom, ?_⟩
  intro gb h
  exact getUeGolombLong_eq h (Nat.succ_ne_zero i) (by lia) unchecked

theorem undoes_se (unchecked : Bool) (hlow : -32767 ≤ i) (hhigh : i ≤ 32767) :
    Undoes (getSeGolomb ⟨.msbFirst, unchecked⟩) (fun pb => setSeGolomb pb i) i := by
  refine ⟨ueCode (seNumber i), fun size s out h hroom => writes_se h (by lia) (by lia) hroom, ?_⟩
  intro gb h
  have hbounds : seNumber i ≠ 0 ∧ seNumber i < 2 ^ 16 := by
    unfold seNumber
    split <;> lia
  rw [getSeGolomb_eq h hbounds.1 hbounds.2 unchecked, seOf_seNumber]

theorem undoes_sr (unchecked : Bool)
    (hcode : (fold i : Int) - limit + 1 < 2 ^ escLen ∨ fold i >>> k < limit)
    (hlimit : limit + k ≤ 25) (hesc : limit + escLen ≤ 31) (hesc' : escLen ≤ 25) :
    Undoes (fun gb => getSrGolomb ⟨.msbFirst, unchecked⟩ gb k limit escLen)
      (fun pb => setSrGolomb pb i k limit escLen) i := by
  have hlt := fold_lt hcode hlimit hesc'
  obtain ⟨hlow, hhigh⟩ := bounds_of_fold (n := 2 ^ 25) hlt
  have hcode' : fold i + 1 < 2 ^ escLen + limit ∨ fold i >>> k < limit := by
    refine hcode.imp_left fun h => ?_
    zify
    lia
  refine ⟨urCode k limit escLen (fold i), ?_, ?_⟩
  · intro size s out h hroom
    have hfold : foldSign i = fold i := foldSign_eq (by lia) (by lia)
    simp only [setSrGolomb, hfold]
    exact writes_ur h hcode' hlimit hesc hroom
  · intro gb h
    have hget := getUrGolomb_eq h (hlt.trans (by decide)) hcode' hlimit hesc' unchecked
    simp only [getSrGolomb, hget]
    rw [unfoldSign_fold (by lia) (by lia)]

theorem undoes_flac (unchecked : Bool) {most escLen' : Nat} (hk : k ≤ 31) (hlow : -2 ^ 30 ≤ i)
    (hhigh : i < 2 ^ 30) (hlimit : fold i >>> k + 1 < limit) (hmost : fold i >>> k + 1 < most) :
    Undoes (fun gb => getSrGolombFlac ⟨.msbFirst, unchecked⟩ gb k limit escLen)
      (fun pb => setSrGolombFlac pb i k most escLen') i := by
  have hlt : fold i < 2 ^ 32 := by
    unfold fold
    split <;> lia
  refine ⟨riceCode k (fold i), ?_, ?_⟩
  · intro size s out h hroom
    simp only [setSrGolombFlac, foldSign_eq hlow hhigh]
    exact writes_jpegls h hk hmost hroom
  · intro gb h
    have hget : getUrGolombJpegls ⟨.msbFirst, unchecked⟩ gb k limit escLen =
        (fold i, behind gb (riceCode k (fold i)).length) :=
      getUrGolombJpegls_eq h hlt hk hlimit unchecked
    simp only [getSrGolombFlac, hget]
    rw [unfoldSign_fold (by lia) (by lia)]

/-- Every reader gets the number that its writer has put, and takes exactly the bits of it: for
unsigned and signed exponential codes, for codes with an escape, and for codes without one. -/
theorem getGolomb_setGolomb (unchecked : Bool) :
    (∀ i : Nat, i ≤ 2 ^ 32 - 2 →
      Undoes (getUeGolombLong ⟨.msbFirst, unchecked⟩) (fun pb => setUeGolombLong pb i) i) ∧
    (∀ i : Int, -32767 ≤ i ∧ i ≤ 32767 →
      Undoes (getSeGolomb ⟨.msbFirst, unchecked⟩) (fun pb => setSeGolomb pb i) i) ∧
    (∀ (i : Int) (k limit escLen : Nat),
      ((fold i : Int) - limit + 1 < 2 ^ escLen ∨ fold i >>> k < limit) →
      limit + k ≤ 25 → limit + escLen ≤ 31 → escLen ≤ 25 →
      Undoes (fun gb => getSrGolomb ⟨.msbFirst, unchecked⟩ gb k limit escLen)
        (fun pb => setSrGolomb pb i k limit escLen) i) ∧
    (∀ (i : Int) (k limit escLen escLen' : Nat), k ≤ 30 → -2 ^ 30 < i ∧ i < 2 ^ 30 →
      fold i >>> k + 2 ≤ limit → limit ≤ 2 ^ 31 - 1 →
      Undoes (fun gb => getSrGolombFlac ⟨.msbFirst, unchecked⟩ gb k limit escLen)
        (fun pb => setSrGolombFlac pb i k (2 ^ 31 - 1) escLen') i) := by
  refine ⟨fun i hi => undoes_ue unchecked hi, fun i hi => undoes_se unchecked hi.1 hi.2,
    fun i k limit escLen hcode hlimit hesc hesc' => undoes_sr unchecked hcode hlimit hesc hesc',
    fun i k limit escLen escLen' hk hi hquotient hlimit => ?_⟩
  exact undoes_flac unchecked (by lia) (by lia) hi.2 (by lia) (by lia)

theorem getGolomb_setGolomb_numbers :
    Undoes (getUeGolombLong ⟨.msbFirst, false⟩) (fun pb => setUeGolombLong pb (2 ^ 32 - 2))
        (2 ^ 32 - 2) ∧
      Undoes (getSeGolomb ⟨.msbFirst, false⟩) (fun pb => setSeGolomb pb (-32767)) (-32767) ∧
      Undoes (fun gb => getSrGolomb ⟨.msbFirst, false⟩ gb 2 12 10)
        (fun pb => setSrGolomb pb 500 2 12 10) 500 ∧
      Undoes (fun gb => getSrGolombFlac ⟨.msbFirst, false⟩ gb 3 300 0)
        (fun pb => setSrGolombFlac pb (-1000) 3 (2 ^ 31 - 1) 0) (-1000) :=
  have h := getGolomb_setGolomb false
  ⟨h.1 _ (by decide), h.2.1 _ (by decide),
    h.2.2.1 500 2 12 10 (by decide) (by decide) (by decide) (by decide),
    h.2.2.2 (-1000) 3 300 0 0 (by decide) (by decide) (by decide) (by decide)⟩

end FFmpeg.Libavcodec.GolombRice
