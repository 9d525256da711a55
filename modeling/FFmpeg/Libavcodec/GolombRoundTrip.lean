import FFmpeg.Libavcodec.GetBits
import FFmpeg.Libavcodec.Golomb
import FFmpeg.Libavcodec.PutBitsStream

/-!
# A Golomb code is read back

A code is a string of bits that the writer puts behind the stream.  A reader that has the
code next in its stream gets the value, whatever follows, and moves behind the code.
-/

namespace FFmpeg.Libavcodec.GolombRoundTrip

open Common GetBits GetBitsStream Golomb PutBits PutBitsStream

variable {config : Config} {gb : GetBitContext} {a b code : List Bool} {k n v z : Nat}

/-- The string `code` is next in the stream. -/
structure Next (gb : GetBitContext) (code : List Bool) : Prop where
  has : HasBits gb code.length
  bits_eq : slice (bitsOfBytes .msbFirst gb.buffer) gb.index code.length = code

/-- The context behind `n` bits. -/
def behind (gb : GetBitContext) (n : Nat) : GetBitContext := { gb with index := gb.index + n }

@[simp] theorem behind_zero : behind gb 0 = gb := rfl

@[simp] theorem behind_behind (m n : Nat) : behind (behind gb m) n = behind gb (m + n) := by
  simp [behind, Nat.add_assoc]

/-- `set` puts a code behind the stream, and `get` reads the value from it and moves behind
it. -/
def Undoes {α : Type} (get : GetBitContext → α × GetBitContext)
    (set : PutBitContext → PutBitContext) (value : α) : Prop :=
  ∃ code : List Bool,
    (∀ size s out, Writes .msbFirst size s out → out.length + code.length ≤ 8 * size →
      Writes .msbFirst size (set s) (out ++ code)) ∧
    ∀ gb, Next gb code → get gb = (value, behind gb code.length)

/-! ## Words of the stream -/

theorem Next.left (h : Next gb (a ++ b)) : Next gb a := by
  refine ⟨h.has.mono (by simp), ?_⟩
  have hbits := h.bits_eq
  rw [List.length_append, slice_add] at hbits
  have hlength : (slice (bitsOfBytes .msbFirst gb.buffer) gb.index a.length).length = a.length := by
    have hbuffer := h.has.buffer
    rw [List.length_append] at hbuffer
    rw [length_slice, length_bitsOfBytes]
    lia
  exact (List.append_inj hbits hlength).1

theorem Next.right (h : Next gb (a ++ b)) : Next (behind gb a.length) b := by
  refine ⟨h.has.after (by simp), ?_⟩
  have hleft := h.left.bits_eq
  have hbits := h.bits_eq
  rw [List.length_append, slice_add, hleft] at hbits
  exact List.append_cancel_left hbits

theorem Next.skip (h : Next gb code) (hn : n ≤ code.length) :
    skipCounter config gb n = behind gb n := by
  have hsize := h.has.size
  have hplus8 := h.has.plus8
  unfold skipCounter behind
  split
  · rfl
  · rw [Nat.min_eq_right (by lia)]

theorem Next.show (h : Next gb (bits .msbFirst n v ++ b)) (hn : n ≤ 25) (hv : v < 2 ^ n)
    (unchecked : Bool) : updateCache ⟨.msbFirst, unchecked⟩ gb >>> (32 - n) = v := by
  have hnext := h.left
  have hlength : (bits .msbFirst n v).length = n := length_bits n v
  have hgets := getBits_gets ⟨.msbFirst, unchecked⟩ hn (hlength ▸ hnext.has)
  have hbits := hnext.bits_eq
  rw [hlength] at hbits
  exact bits_injective hgets.value_lt hv (hgets.bits_eq.trans hbits)

theorem Next.getBitsLong (h : Next gb (bits .msbFirst n v ++ b)) (hn : n ≤ 32) (hv : v < 2 ^ n)
    (unchecked : Bool) : getBitsLong ⟨.msbFirst, unchecked⟩ gb n = (v, behind gb n) := by
  have hnext := h.left
  have hlength : (bits .msbFirst n v).length = n := length_bits n v
  have hgets := getBitsLong_gets ⟨.msbFirst, unchecked⟩ hn (hlength ▸ hnext.has)
  have hbits := hnext.bits_eq
  rw [hlength] at hbits
  exact Prod.ext (bits_injective hgets.value_lt hv (hgets.bits_eq.trans hbits)) hgets.context_eq

theorem updateCache_lt (unchecked : Bool) : updateCache ⟨.msbFirst, unchecked⟩ gb < 2 ^ 32 :=
  Nat.mod_lt _ (by positivity)

theorem bounds_of_shiftRight {c m : Nat} (h : c >>> m = 1) : 2 ^ m ≤ c ∧ c < 2 ^ (m + 1) := by
  rw [Nat.shiftRight_eq_div_pow] at h
  constructor
  · by_contra hlt
    rw [Nat.div_eq_of_lt (by lia)] at h
    lia
  · rw [Nat.pow_succ']
    exact (Nat.div_lt_iff_lt_mul (by positivity)).1 (by rw [h]; decide)

theorem avLog2_eq {c m : Nat} (h : c >>> m = 1) : avLog2 c = m := by
  have hbounds := bounds_of_shiftRight h
  have hpos : 0 < 2 ^ m := by positivity
  exact (Nat.log2_eq_iff (by lia)).2 hbounds

theorem avLog2_le {c m : Nat} (h : c < 2 ^ (m + 1)) : avLog2 c ≤ m := by
  by_cases hzero : c = 0
  · subst hzero
    exact Nat.zero_le m
  · exact Nat.le_of_lt_succ ((Nat.log2_lt hzero).2 h)

theorem bits_zeros (hv : v < 2 ^ n) (z : Nat) :
    bits .msbFirst (z + n) v = List.replicate z false ++ bits .msbFirst n v := by
  rw [bits_add_msbFirst, Nat.shiftRight_eq_div_pow, Nat.div_eq_of_lt hv, bits_of_zero]

theorem bits_one (z : Nat) : bits .msbFirst (z + 1) 1 = List.replicate z false ++ [true] :=
  bits_zeros (by decide) z

theorem Next.one (h : Next gb (List.replicate z false ++ true :: b)) (hz : z < 25)
    (unchecked : Bool) : updateCache ⟨.msbFirst, unchecked⟩ gb >>> (31 - z) = 1 := by
  have hcode : Next gb (bits .msbFirst (z + 1) 1 ++ b) := by
    rw [bits_one, List.append_assoc]
    exact h
  have hshow := hcode.show (by lia) (Nat.one_lt_two_pow (by lia)) unchecked
  rwa [show 32 - (z + 1) = 31 - z by lia] at hshow

theorem Next.zeros (h : Next gb (List.replicate z false ++ b)) (hz : z ≤ 25) (unchecked : Bool) :
    updateCache ⟨.msbFirst, unchecked⟩ gb < 2 ^ (32 - z) := by
  have hcode : Next gb (bits .msbFirst z 0 ++ b) := by rwa [bits_of_zero]
  have hshow := hcode.show hz (by positivity) unchecked
  rw [Nat.shiftRight_eq_div_pow] at hshow
  exact (Nat.div_eq_zero_iff_lt (by positivity)).1 hshow

/-! ## Exponential codes -/

/-- The code of `set_ue_golomb` and `set_ue_golomb_long`, for the number above `i`. -/
def ueCode (v : Nat) : List Bool := bits .msbFirst (2 * avLog2 v + 1) v

theorem lt_two_pow_log {v : Nat} : v < 2 ^ (avLog2 v + 1) := Nat.lt_log2_self

theorem ueCode_eq (v : Nat) :
    ueCode v = List.replicate (avLog2 v) false ++ bits .msbFirst (avLog2 v + 1) v := by
  rw [ueCode, show 2 * avLog2 v + 1 = avLog2 v + (avLog2 v + 1) by lia]
  exact bits_zeros lt_two_pow_log _

theorem getD_of_drop {α : Type*} {l : List α} {f : Nat → α} {s n i : Nat}
    (h : l.drop s = (List.range' s n).map f) (hs : s ≤ i) (hi : i < s + n) (d : α) :
    l.getD i d = f i := by
  have hget : (l.drop s)[i - s]? = some (f i) := by
    rw [h, List.getElem?_map, List.getElem?_range' (by lia), Option.map_some]
    congr 2
    lia
  rw [List.getElem?_drop, Nat.add_sub_cancel' hs] at hget
  rw [List.getD_eq_getElem?_getD, hget, Option.getD_some]

theorem ffUeGolombLen_eq : ∀ i < 256, ffUeGolombLen.getD i 0 = 2 * avLog2 (i + 1) + 1 := by
  have htable : ffUeGolombLen.drop 0 =
      (List.range' 0 256).map fun i => 2 * avLog2 (i + 1) + 1 := by decide +kernel
  exact fun i hi => getD_of_drop htable (Nat.zero_le i) hi 0

theorem shiftRight_log (hv : v ≠ 0) : v >>> avLog2 v = 1 := by
  have hle : 2 ^ avLog2 v ≤ v := Nat.log2_self_le hv
  have hlt : v < 2 ^ (avLog2 v + 1) := lt_two_pow_log
  rw [Nat.pow_succ] at hlt
  rw [Nat.shiftRight_eq_div_pow]
  exact Nat.div_eq_of_lt_le (by lia) (by lia)

theorem Next.ue (h : Next gb (ueCode v)) (hv : v ≠ 0) :
    ∃ b, Next gb (List.replicate (avLog2 v) false ++ true :: b) := by
  rw [ueCode_eq, Nat.add_comm (avLog2 v) 1, bits_add_msbFirst, shiftRight_log hv] at h
  exact ⟨_, h⟩

theorem Next.number (h : Next gb (ueCode v)) :
    Next (behind gb (avLog2 v)) (bits .msbFirst (avLog2 v + 1) v ++ []) := by
  rw [ueCode_eq] at h
  have hnext := h.right
  rwa [List.length_replicate, ← List.append_nil (bits _ _ _)] at hnext

theorem showBitsLong_eq : showBitsLong config gb 32 = (GetBits.getBitsLong config gb 32).1 :=
  if_neg (by decide)

theorem showBitsLong_shiftRight (unchecked : Bool) {m : Nat} (hm : 16 ≤ m) :
    showBitsLong ⟨.msbFirst, unchecked⟩ gb 32 >>> m =
      updateCache ⟨.msbFirst, unchecked⟩ gb >>> m := by
  have hlow := (showUbits_spec ⟨.msbFirst, unchecked⟩ (skipCounter ⟨.msbFirst, unchecked⟩ gb 16)
    (by decide : 16 ≤ 25)).2
  have hhigh : updateCache ⟨.msbFirst, unchecked⟩ gb >>> 16 < 2 ^ 16 :=
    (showUbits_spec ⟨.msbFirst, unchecked⟩ gb (by decide : 16 ≤ 25)).2
  have hword : showBitsLong ⟨.msbFirst, unchecked⟩ gb 32 =
      ((updateCache ⟨.msbFirst, unchecked⟩ gb >>> 16) <<< 16) % 2 ^ 32 |||
        showUbits ⟨.msbFirst, unchecked⟩
          (updateCache ⟨.msbFirst, unchecked⟩ (skipCounter ⟨.msbFirst, unchecked⟩ gb 16)) 16 := by
    rw [showBitsLong_eq, GetBits.getBitsLong, if_neg (by decide), if_neg (by decide)]
    rfl
  generalize updateCache ⟨.msbFirst, unchecked⟩ gb = cache at hhigh hword ⊢
  have hshift : (cache >>> 16) <<< 16 < 2 ^ 32 := by
    rw [Nat.shiftLeft_eq]
    lia
  rw [hword, Nat.mod_eq_of_lt hshift, ← Nat.shiftLeft_add_eq_or_of_lt hlow]
  obtain ⟨rest, rfl⟩ : ∃ rest, m = 16 + rest := ⟨m - 16, by lia⟩
  rw [Nat.shiftRight_add, Nat.shiftRight_add, Nat.shiftRight_eq_div_pow _ 16,
    Nat.shiftLeft_eq, Nat.mul_comm, Nat.mul_add_div (by positivity), Nat.div_eq_of_lt hlow,
    Nat.add_zero]

theorem Next.ueLog (h : Next gb (ueCode v)) (hv : v ≠ 0) (hlt : v < 2 ^ 32) (unchecked : Bool) :
    avLog2 (showBitsLong ⟨.msbFirst, unchecked⟩ gb 32) = 31 - avLog2 v := by
  have hlog : avLog2 v ≤ 31 := avLog2_le hlt
  by_cases hhalf : avLog2 v < 16
  · obtain ⟨b, hone⟩ := h.ue hv
    apply avLog2_eq
    rw [showBitsLong_shiftRight unchecked (by lia)]
    exact hone.one (by lia) unchecked
  · have hcode : ueCode v = bits .msbFirst 32 (v >>> (2 * avLog2 v - 31)) ++
        bits .msbFirst (2 * avLog2 v - 31) v := by
      rw [← bits_add_msbFirst, ueCode]
      congr 1
      lia
    have hsmall : v >>> (2 * avLog2 v - 31) < 2 ^ 32 := (Nat.shiftRight_le _ _).trans_lt hlt
    have hword := Next.getBitsLong (hcode ▸ h) (Nat.le_refl 32) hsmall unchecked
    apply avLog2_eq
    rw [showBitsLong_eq, hword, ← Nat.shiftRight_add,
      show 2 * avLog2 v - 31 + (31 - avLog2 v) = avLog2 v by lia]
    exact shiftRight_log hv

variable {next : GetBitContext}

theorem getUeGolombLong_of {e : Nat} (hlog : 31 - avLog2 (showBitsLong config gb 32) = e)
    (hread : GetBits.getBitsLong config (skipBitsLong config gb e) (e + 1) = (v, next)) :
    getUeGolombLong config gb = ((2 ^ 32 - 1 + v) % 2 ^ 32, next) := by
  simp only [getUeGolombLong, hlog, hread]

theorem getUeGolombLong_eq (h : Next gb (ueCode v)) (hv : v ≠ 0) (hlt : v < 2 ^ 32)
    (unchecked : Bool) :
    getUeGolombLong ⟨.msbFirst, unchecked⟩ gb = (v - 1, behind gb (ueCode v).length) := by
  have hlog : avLog2 v ≤ 31 := avLog2_le hlt
  have hlength : (ueCode v).length = 2 * avLog2 v + 1 := length_bits _ _
  have hzeros : 31 - (31 - avLog2 v) = avLog2 v := by lia
  have hnumber := h.number.getBitsLong (by lia) lt_two_pow_log unchecked
  have hminus : (2 ^ 32 - 1 + v) % 2 ^ 32 = v - 1 := by lia
  have hskip : skipBitsLong ⟨.msbFirst, unchecked⟩ gb (avLog2 v) = behind gb (avLog2 v) :=
    h.skip (by lia)
  rw [← hskip] at hnumber
  rw [getUeGolombLong_of ((congrArg (31 - ·) (h.ueLog hv hlt unchecked)).trans hzeros) hnumber,
    hminus, hskip, behind_behind, hlength, two_mul, Nat.add_assoc]

variable {pb : PutBitContext} {out : List Bool}

theorem writes_ue {size : Nat} {i : Nat} (h : Writes .msbFirst size pb out) (hi : i < 2 ^ 32 - 1)
    (hroom : out.length + (ueCode (i + 1)).length ≤ 8 * size) :
    Writes .msbFirst size (setUeGolombLong pb i) (out ++ ueCode (i + 1)) := by
  have hlog : avLog2 (i + 1) ≤ 31 := avLog2_le (by lia)
  have hlength : (ueCode (i + 1)).length = 2 * avLog2 (i + 1) + 1 := length_bits _ _
  have hfits : i + 1 < 2 ^ (2 * avLog2 (i + 1) + 1) :=
    lt_two_pow_log.trans_le (Nat.pow_le_pow_right (by decide) (by lia))
  unfold setUeGolombLong
  split
  · rename_i hsmall
    have hlog : avLog2 (i + 1) ≤ 8 := avLog2_le (by lia)
    rw [ffUeGolombLen_eq i hsmall]
    exact h.putBits (by lia) hfits (by lia)
  · exact h.putBits64 (by lia) hfits (by lia)

/-! ### Signed numbers -/

/-- The signed number with the code of `v`. -/
def seOf (v : Nat) : Int := if v % 2 = 1 then -(v / 2 : Nat) else (v / 2 : Nat)

/-- The number with the code of the signed number `i`. -/
def seNumber (i : Int) : Nat := if 0 < i then (2 * i).toNat else (1 - 2 * i).toNat

theorem seOf_seNumber (i : Int) : seOf (seNumber i) = i := by
  unfold seOf seNumber
  split <;> split <;> lia

theorem signed_eq (hv : v < 2 ^ 32) :
    ((BitVec.ofNat 32 (v >>> 1) ^^^ -BitVec.ofNat 32 (v &&& 1)) -
      -BitVec.ofNat 32 (v &&& 1)).toInt = seOf v := by
  have hhalf : (BitVec.ofNat 32 (v >>> 1)).toInt = (v / 2 : Nat) := by
    rw [BitVec.toInt_ofNat', Nat.shiftRight_eq_div_pow, Int.bmod_eq_of_le (by lia) (by lia)]
  rw [Nat.and_one_is_mod]
  rcases Nat.mod_two_eq_zero_or_one v with heven | hodd
  · rw [heven, seOf, if_neg (by lia), ← hhalf]
    simp
  · have hmask : -BitVec.ofNat 32 1 = BitVec.allOnes 32 := rfl
    have hminus : BitVec.allOnes 32 = -1#32 := rfl
    have hneg : (BitVec.ofNat 32 (v >>> 1) ^^^ BitVec.allOnes 32) - BitVec.allOnes 32 =
        -BitVec.ofNat 32 (v >>> 1) := by
      rw [BitVec.xor_allOnes, hminus, BitVec.sub_neg, ← BitVec.neg_eq_not_add]
    rw [hodd, seOf, if_pos hodd, hmask, hneg, BitVec.toInt_neg, hhalf,
      Int.bmod_eq_of_le (by lia) (by lia)]

theorem ffGolombVlc_eq : ∀ i < 512, 16 ≤ i →
    ffGolombVlcLen.getD i 0 = 2 * (8 - avLog2 i) + 1 ∧
      ffSeGolombVlcCode.getD i 0 = seOf (i >>> (2 * avLog2 i - 8)) := by
  -- nine bits from 16 on hold a whole code
  have hlen : ffGolombVlcLen.drop 16 =
      (List.range' 16 496).map fun i => 2 * (8 - avLog2 i) + 1 := by decide +kernel
  have hcode : ffSeGolombVlcCode.drop 16 =
      (List.range' 16 496).map fun i => seOf (i >>> (2 * avLog2 i - 8)) := by decide +kernel
  exact fun i hi hlow => ⟨getD_of_drop hlen hlow hi 0, getD_of_drop hcode hlow hi 0⟩

theorem getSeGolomb_table {i : Nat} (hle : 1 <<< 27 ≤ updateCache config gb)
    (hindex : updateCache config gb >>> (32 - 9) = i) :
    getSeGolomb config gb =
      (ffSeGolombVlcCode.getD i 0, skipCounter config gb (ffGolombVlcLen.getD i 0)) := by
  simp only [getSeGolomb, if_pos hle, hindex]

theorem getSeGolomb_word {m : Nat} (hword : ¬ 1 <<< 27 ≤ updateCache config gb)
    (hlog : avLog2 (updateCache config gb) = m) (hskip : skipCounter config gb (31 - m) = next)
    (hshow : updateCache config next >>> m = v) (hv : v < 2 ^ 32) :
    getSeGolomb config gb = (seOf v, skipCounter config next (32 - m)) := by
  simp only [getSeGolomb, if_neg hword, hlog, hskip, hshow, signed_eq hv]

theorem getSeGolomb_eq (h : Next gb (ueCode v)) (hv : v ≠ 0) (hlt : v < 2 ^ 16)
    (unchecked : Bool) :
    getSeGolomb ⟨.msbFirst, unchecked⟩ gb = (seOf v, behind gb (ueCode v).length) := by
  have hlog : avLog2 v ≤ 15 := avLog2_le hlt
  have hlength : (ueCode v).length = 2 * avLog2 v + 1 := length_bits _ _
  obtain ⟨b, hzeros⟩ := h.ue hv
  have hone := hzeros.one (by lia) unchecked
  obtain ⟨hlow, hhigh⟩ := bounds_of_shiftRight hone
  by_cases htable : avLog2 v ≤ 4
  · have hcode : Next gb (bits .msbFirst (2 * avLog2 v + 1) v ++ []) := by
      rwa [List.append_nil]
    have hshow := hcode.show (by lia)
      (lt_two_pow_log.trans_le (Nat.pow_le_pow_right (by decide) (by lia))) unchecked
    have hcache : updateCache ⟨.msbFirst, unchecked⟩ gb < 2 ^ 32 := updateCache_lt unchecked
    have hle : 1 <<< 27 ≤ updateCache ⟨.msbFirst, unchecked⟩ gb :=
      (Nat.pow_le_pow_right (by decide) (by lia : 27 ≤ 31 - avLog2 v)).trans hlow
    rw [getSeGolomb_table hle rfl]
    obtain ⟨cache, hcache'⟩ : ∃ cache, cache = updateCache ⟨.msbFirst, unchecked⟩ gb := ⟨_, rfl⟩
    rw [← hcache'] at hone hshow hcache ⊢
    have hindexOne : cache >>> (32 - 9) >>> (8 - avLog2 v) = 1 := by
      rw [← Nat.shiftRight_add, show 32 - 9 + (8 - avLog2 v) = 31 - avLog2 v by lia]
      exact hone
    have hindexLog := avLog2_eq hindexOne
    have hindexLow := (bounds_of_shiftRight hindexOne).1
    have hindex : cache >>> (32 - 9) < 512 := by
      rw [Nat.shiftRight_eq_div_pow]
      lia
    obtain ⟨hlen, hnumber⟩ := ffGolombVlc_eq _ hindex
      ((Nat.pow_le_pow_right (by decide) (by lia : 4 ≤ 8 - avLog2 v)).trans hindexLow)
    rw [hlen, hnumber, hindexLog, ← Nat.shiftRight_add,
      show 32 - 9 + (2 * (8 - avLog2 v) - 8) = 32 - (2 * avLog2 v + 1) by lia, hshow,
      show 2 * (8 - (8 - avLog2 v)) + 1 = 2 * avLog2 v + 1 by lia, h.skip (by lia), hlength]
  · have hword : ¬ 1 <<< 27 ≤ updateCache ⟨.msbFirst, unchecked⟩ gb := by
      have hpow : 2 ^ (31 - avLog2 v + 1) ≤ 2 ^ 27 := Nat.pow_le_pow_right (by decide) (by lia)
      exact Nat.not_le.2 (hhigh.trans_le hpow)
    have hskip : skipCounter ⟨.msbFirst, unchecked⟩ gb (31 - (31 - avLog2 v)) =
        behind gb (avLog2 v) := by
      rw [show 31 - (31 - avLog2 v) = avLog2 v by lia]
      exact h.skip (by lia)
    have hshow := h.number.show (by lia) lt_two_pow_log unchecked
    rw [show 32 - (avLog2 v + 1) = 31 - avLog2 v by lia] at hshow
    rw [getSeGolomb_word hword (avLog2_eq hone) hskip hshow (by lia),
      show 32 - (31 - avLog2 v) = avLog2 v + 1 by lia, h.number.skip (by simp), behind_behind,
      hlength, two_mul, Nat.add_assoc]

theorem setSeGolomb_eq {i : Int} (hlow : -2 ^ 15 < i) :
    setSeGolomb pb i = setUeGolomb pb (seNumber i - 1) := by
  simp only [setSeGolomb, seNumber]
  congr 1
  by_cases hpos : 0 < i
  · rw [if_neg (show ¬ 2 * i - 1 < 0 by lia), if_pos hpos]
    lia
  · rw [if_pos (show 2 * i - 1 < 0 by lia), if_neg hpos]
    have hxor : toUnsigned (2 * i - 1) ^^^ toUnsigned (-1) =
        2 ^ 32 - 1 - toUnsigned (2 * i - 1) := by
      have hall : BitVec.ofInt 32 (-1) = BitVec.allOnes 32 := rfl
      unfold toUnsigned
      rw [hall, ← BitVec.toNat_xor, BitVec.xor_allOnes, BitVec.toNat_not]
    rw [hxor, toUnsigned, BitVec.toNat_ofInt]
    lia

theorem writes_se {size : Nat} {i : Int} (h : Writes .msbFirst size pb out) (hlow : -2 ^ 15 < i)
    (hhigh : i < 2 ^ 15) (hroom : out.length + (ueCode (seNumber i)).length ≤ 8 * size) :
    Writes .msbFirst size (setSeGolomb pb i) (out ++ ueCode (seNumber i)) := by
  obtain ⟨m, hm⟩ : ∃ m, seNumber i = m + 1 := by
    refine ⟨seNumber i - 1, ?_⟩
    unfold seNumber
    split <;> lia
  have hlt : m + 1 < 2 ^ 16 := by
    rw [← hm, seNumber]
    split <;> lia
  rw [setSeGolomb_eq hlow, hm, Nat.add_sub_cancel]
  rw [hm] at hroom
  have hlog : avLog2 (m + 1) ≤ 15 := avLog2_le hlt
  have hlength : (ueCode (m + 1)).length = 2 * avLog2 (m + 1) + 1 := length_bits _ _
  have hfits : m + 1 < 2 ^ (2 * avLog2 (m + 1) + 1) :=
    lt_two_pow_log.trans_le (Nat.pow_le_pow_right (by decide) (by lia))
  unfold setUeGolomb
  split
  · rename_i hsmall
    rw [ffUeGolombLen_eq m hsmall]
    exact h.putBits (by lia) hfits (by lia)
  · exact h.putBits (by lia) hfits (by lia)

end FFmpeg.Libavcodec.GolombRoundTrip
