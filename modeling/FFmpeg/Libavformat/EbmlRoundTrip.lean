import FFmpeg.Libavformat.Ebml

/-!
# EBML numbers are read back

A number that leaves a bit of each byte free is written behind a one that the length puts where
the free bits end.  The reader finds the one, and what is behind it is the number again.
-/

namespace FFmpeg.Libavformat.Ebml

open Common Libavutil AvioSource

/-! ## Bytes and sizes -/

theorem appendBytes_append (l tail : Bytes) (eof : Bool) (total : Nat) (h : total < 2 ^ 64) :
    appendBytes l.length total ⟨l ++ tail, eof⟩ =
      ((total * 256 ^ l.length + getBE l) % 2 ^ 64, ⟨tail, eof⟩) := by
  induction l generalizing total with
  | nil =>
    show (total, _) = _
    rw [List.length_nil, pow_zero, Nat.mul_one, getBE, Nat.add_zero, Nat.mod_eq_of_lt h,
      List.nil_append]
  | cons b l ih =>
    have hnext : appendBytes (b :: l).length total ⟨b :: l ++ tail, eof⟩ =
        appendBytes l.length ((total * 256 + b.toNat) % 2 ^ 64) ⟨l ++ tail, eof⟩ := by
      rw [List.length_cons, appendBytes, List.cons_append, avioR8_cons, shiftLeft_or_byte]
    have hvalue : (total * 256 + b.toNat) * 256 ^ l.length + getBE l =
        total * 256 ^ (b :: l).length + getBE (b :: l) := by
      rw [getBE, List.length_cons, Nat.pow_succ]
      ring
    rw [hnext, ih _ (Nat.mod_lt _ (by decide)), Nat.add_mod, Nat.mod_mul_mod, ← Nat.add_mod, hvalue]

theorem sizeLoop_spec {shift rounds num : Nat} (bytes : Nat) (h : num < 2 ^ (shift * (rounds + 1))) :
    ∃ more, sizeLoop shift rounds num bytes = bytes + more ∧ more ≤ rounds ∧
      num < 2 ^ (shift * (more + 1)) := by
  induction rounds generalizing num bytes with
  | zero => exact ⟨0, rfl, Nat.le_refl _, h⟩
  | succ rounds ih =>
    rw [sizeLoop, Nat.shiftRight_eq_div_pow]
    split_ifs with hrest
    · have hdiv : num / 2 ^ shift < 2 ^ (shift * (rounds + 1)) := by
        apply Nat.div_lt_of_lt_mul
        rwa [← pow_add, Nat.add_comm, ← Nat.mul_succ]
      obtain ⟨more, hsize, hle, hlt⟩ := ih (bytes + 1) hdiv
      refine ⟨more + 1, by rw [hsize]; lia, by lia, ?_⟩
      rw [Nat.mul_succ, pow_add]
      exact (Nat.div_lt_iff_lt_mul (by positivity)).1 hlt
    · refine ⟨0, rfl, Nat.zero_le _, ?_⟩
      rw [Nat.zero_add, Nat.mul_one]
      exact (Nat.div_eq_zero_iff_lt (by positivity)).1 (not_not.1 hrest)

theorem sizeLoop_le {shift num n : Nat} (rounds bytes : Nat) (h : num < 2 ^ (shift * (n + 1))) :
    sizeLoop shift rounds num bytes ≤ bytes + n := by
  induction rounds generalizing num bytes n with
  | zero => exact Nat.le_add_right _ _
  | succ rounds ih =>
    rw [sizeLoop, Nat.shiftRight_eq_div_pow]
    split_ifs with hrest
    · cases n with
      | zero =>
        rw [Nat.zero_add, Nat.mul_one] at h
        exact absurd (Nat.div_eq_of_lt h) hrest
      | succ n =>
        have hdiv : num / 2 ^ shift < 2 ^ (shift * (n + 1)) := by
          apply Nat.div_lt_of_lt_mul
          rwa [← pow_add, Nat.add_comm, ← Nat.mul_succ]
        exact (ih _ hdiv).trans (by lia)
    · exact Nat.le_add_right _ _

theorem ebmlLengthSize_spec (length : Nat) (h : length < 2 ^ 56 - 1) :
    1 ≤ ebmlLengthSize length ∧ ebmlLengthSize length ≤ 8 ∧
      length + 1 < 2 ^ (7 * ebmlLengthSize length) := by
  have hmod : (length + 1) % 2 ^ 64 = length + 1 := Nat.mod_eq_of_lt (by lia)
  have hlt : length + 1 < 2 ^ (7 * (7 + 1)) := by
    show _ < 2 ^ 56
    lia
  obtain ⟨more, hsize, -, hfits⟩ := sizeLoop_spec 1
    (show length + 1 < 2 ^ (7 * (9 + 1)) from hlt.trans (by decide))
  have hle := sizeLoop_le 9 1 hlt
  rw [ebmlLengthSize, ebmlNumSize, hmod]
  rw [hsize] at hle ⊢
  exact ⟨Nat.le_add_right _ _, hle, by rwa [Nat.add_comm 1]⟩

theorem uintSize_spec (val : Nat) (h : val < 2 ^ 64) :
    1 ≤ uintSize val ∧ uintSize val ≤ 8 ∧ val < 256 ^ uintSize val := by
  obtain ⟨more, hsize, hle, hfits⟩ := sizeLoop_spec 1
    (show val < 2 ^ (8 * (7 + 1)) from h)
  rw [uintSize, hsize]
  refine ⟨Nat.le_add_right _ _, by lia, ?_⟩
  rw [pow_mul] at hfits
  rwa [Nat.add_comm 1]

/-! ## Numbers -/

theorem putEbmlNum_eq {num bytes : Nat} (h : num < 2 ^ (7 * bytes)) :
    putEbmlNum num bytes = putBE bytes (2 ^ (7 * bytes) + num) := by
  have hor := Nat.shiftLeft_add_eq_or_of_lt h 1
  rw [putEbmlNum, Nat.mul_comm bytes, Nat.or_comm, ← hor, Nat.shiftLeft_eq, Nat.one_mul]

theorem length_putEbmlNum (num bytes : Nat) : (putEbmlNum num bytes).length = bytes :=
  length_putBE _ _

theorem log2_marked {k q : Nat} (h : q < 2 ^ k) : avLog2 (2 ^ k + q) = k := by
  rw [avLog2, Nat.log2_eq_iff (by positivity)]
  exact ⟨Nat.le_add_right _ _, by rw [Nat.pow_succ]; lia⟩

theorem xor_marked {k q : Nat} (h : q < 2 ^ k) : (2 ^ k + q) ^^^ (1 <<< k) = q := by
  have hor := Nat.shiftLeft_add_eq_or_of_lt h 1
  rw [Nat.shiftLeft_eq, Nat.one_mul] at hor ⊢
  rw [hor]
  apply Nat.eq_of_testBit_eq
  intro i
  rw [Nat.testBit_xor, Nat.testBit_or, Nat.testBit_two_pow]
  by_cases hik : k = i
  · subst hik
    rw [Nat.testBit_lt_two_pow h]
    simp
  · simp [hik]

/-- A number is read back, and what is behind it is left. -/
theorem ebmlReadNum_putEbmlNum (num bytes : Nat) (hpos : 1 ≤ bytes) (hle : bytes ≤ 8)
    (h : num < 2 ^ (7 * bytes)) (tail : Bytes) (eofForbidden : Bool) :
    ebmlReadNum ⟨putEbmlNum num bytes ++ tail, false⟩ 8 eofForbidden =
      (.ok (bytes, num), ⟨tail, false⟩) := by
  obtain ⟨k, rfl⟩ : ∃ k, bytes = k + 1 := ⟨bytes - 1, by lia⟩
  have hk : k ≤ 7 := by lia
  have hsplit : 2 ^ (7 * (k + 1)) = 2 ^ (7 - k) * 256 ^ k := by
    rw [show (256 : Nat) = 2 ^ 8 from rfl, ← pow_mul, ← pow_add]
    congr 1
    lia
  have hq : num / 256 ^ k < 2 ^ (7 - k) := by
    apply Nat.div_lt_of_lt_mul
    rwa [Nat.mul_comm, ← hsplit]
  have hpow : 2 ^ (7 - k) ≤ 2 ^ 7 := Nat.pow_le_pow_right (by decide) (Nat.sub_le _ _)
  have hfirst : (2 ^ (7 * (k + 1)) + num) / 256 ^ k = 2 ^ (7 - k) + num / 256 ^ k := by
    rw [hsplit, Nat.mul_comm, Nat.mul_add_div (by positivity)]
  have hbyte : (UInt8.ofNat (2 ^ (7 - k) + num / 256 ^ k)).toNat = 2 ^ (7 - k) + num / 256 ^ k := by
    rw [UInt8.toNat_ofNat', Nat.mod_eq_of_lt (by lia)]
  have hlow : (2 ^ (7 * (k + 1)) + num) % 256 ^ k = num % 256 ^ k := by
    rw [hsplit, Nat.mul_comm, Nat.mul_add_mod]
  have hread : appendBytes k (num / 256 ^ k)
      ⟨putBE k (2 ^ (7 * (k + 1)) + num) ++ tail, false⟩ = (num, ⟨tail, false⟩) := by
    have happend := appendBytes_append (putBE k (2 ^ (7 * (k + 1)) + num)) tail false
      (num / 256 ^ k) (by lia)
    have hsmall : num < 2 ^ 64 :=
      h.trans_le (Nat.pow_le_pow_right (by decide) (by lia))
    rwa [length_putBE, getBE_putBE, hlow, Nat.div_add_mod', Nat.mod_eq_of_lt hsmall] at happend
  have hlog := log2_marked hq
  have hsize : 8 - (7 - k) = k + 1 := by lia
  have hgood : ¬ (2 ^ (7 - k) + num / 256 ^ k = 0 ∨ 8 < k + 1) := by
    have hone : 0 < 2 ^ (7 - k) := by positivity
    lia
  unfold ebmlReadNum
  rw [putEbmlNum_eq h, putBE, hfirst, List.cons_append, avioR8_cons]
  simp only [hbyte, hlog, hsize, xor_marked hq, Nat.add_sub_cancel, hread, if_neg hgood,
    Bool.false_eq_true, if_false]

/-- A length field that gives this length, and is not one of unknown length. -/
def Announces (field : Bytes) (length : Nat) : Prop :=
  length ≠ ebmlUnknownLength ∧ ∀ tail,
    ebmlReadLength ⟨field ++ tail, false⟩ = (.ok (field.length, length), ⟨tail, false⟩)

/-- A length is read back, from as many bytes as are asked for. -/
theorem exists_putEbmlLength (length bytes : Nat) (h : length < 2 ^ 56 - 1)
    (hneeded : bytes = 0 ∨ ebmlLengthSize length ≤ bytes) (hle : bytes ≤ 8) :
    ∃ field, putEbmlLength length bytes = some field ∧
      field.length = (if bytes = 0 then ebmlLengthSize length else bytes) ∧
      Announces field length := by
  obtain ⟨hpos, hmax, hfits⟩ := ebmlLengthSize_spec length h
  obtain ⟨width, hwidth⟩ : ∃ width, width = if bytes = 0 then ebmlLengthSize length else bytes :=
    ⟨_, rfl⟩
  have hroom : ebmlLengthSize length ≤ width ∧ width ≤ 8 := by
    rw [hwidth]
    split_ifs with hzero
    · exact ⟨Nat.le_refl _, hmax⟩
    · exact ⟨hneeded.resolve_left hzero, hle⟩
  have hlimit : length + 1 < 2 ^ (7 * width) :=
    hfits.trans_le (Nat.pow_le_pow_right (by decide) (Nat.mul_le_mul_left 7 hroom.1))
  refine ⟨putEbmlNum length width, ?_, ?_, ?_, fun tail => ?_⟩
  · unfold putEbmlLength
    rw [if_pos (show length < (1 <<< 56) - 1 from h)]
    dsimp only
    rw [← hwidth, if_pos hroom.1]
  · rw [length_putEbmlNum, hwidth]
  · exact (h.trans (by decide)).ne
  · have hread := ebmlReadNum_putEbmlNum length width (hpos.trans hroom.1) hroom.2
      (Nat.lt_of_succ_lt hlimit) tail true
    have hknown : (length + 1) % 2 ^ 64 ≠ 1 <<< (7 * width) := by
      rw [Nat.mod_eq_of_lt (by lia), Nat.shiftLeft_eq, Nat.one_mul]
      exact hlimit.ne
    rw [ebmlReadLength, hread, length_putEbmlNum]
    simp only [if_neg hknown]

theorem ebmlLengthSize_small {length : Nat} (h : length < 127) : ebmlLengthSize length = 1 := by
  have hmod : (length + 1) % 2 ^ 64 = length + 1 := Nat.mod_eq_of_lt (by lia)
  rw [ebmlLengthSize, hmod, ebmlNumSize, sizeLoop, Nat.shiftRight_eq_div_pow,
    Nat.div_eq_of_lt (show length + 1 < 2 ^ 7 by lia)]
  rfl

/-! ## Integers -/

theorem ebmlReadUint_putEbmlUint (elementid : Nat) {val : Nat} (h : val < 2 ^ 64) :
    ∃ field payload, putEbmlUint elementid val = some (putEbmlId elementid ++ field ++ payload) ∧
      Announces field payload.length ∧ ∀ tail,
        ebmlReadUint ⟨payload ++ tail, false⟩ payload.length = (val, ⟨tail, false⟩) := by
  obtain ⟨-, hle, hfits⟩ := uintSize_spec val h
  obtain ⟨field, hfield, -, hannounces⟩ :=
    exists_putEbmlLength (uintSize val) 0 (by lia) (Or.inl rfl) (by decide)
  refine ⟨field, putBE (uintSize val) val, ?_, ?_, fun tail => ?_⟩
  · simp only [putEbmlUint, hfield]
    rfl
  · rwa [length_putBE]
  · have happend := appendBytes_append (putBE (uintSize val) val) tail false
      0 (by decide)
    rw [Nat.zero_mul, Nat.zero_add, getBE_putBE_of_lt hfits, Nat.mod_eq_of_lt h] at happend
    exact happend

theorem toUint64_eq (val : Int) : (toUint64 val : Int) = val % 2 ^ 64 :=
  Int.toNat_of_nonneg (Int.emod_nonneg _ (by decide))

theorem toUint64_lt (val : Int) : toUint64 val < 2 ^ 64 := by
  have hlt := Int.emod_lt_of_pos val (show (0 : Int) < 2 ^ 64 by decide)
  rw [← toUint64_eq] at hlt
  exact_mod_cast hlt

variable {val : Int}

theorem toInt64_toUint64 (hmin : -2 ^ 63 ≤ val) (hmax : val < 2 ^ 63) :
    toInt64 (toUint64 val) = val := by
  have hword : (2 : Int) ^ 64 = ((2 ^ 64 : Nat) : Int) := by norm_num
  have hback : (val % 2 ^ 64).bmod (2 ^ 64) = val.bmod (2 ^ 64) := by rw [hword, Int.emod_bmod]
  show (toUint64 val : Int).bmod (2 ^ 64) = val
  rw [toUint64_eq, hback]
  exact Int.bmod_eq_of_le (by norm_num; lia) (by norm_num; lia)

/-- The bytes of a negative number are those of its two's complement. -/
theorem toUint64_split {k : Nat} (hk : k ≤ 7) (hlow : -(128 * 256 ^ k) ≤ val)
    (hhigh : val < 128 * 256 ^ k) :
    ∃ q : Int, -128 ≤ q ∧ q < 128 ∧ val = q * 256 ^ k + (toUint64 val % 256 ^ k : Nat) ∧
      ((toUint64 val / 256 ^ k % 256 : Nat) : Int) = q % 256 := by
  have hP : (0 : Int) < 256 ^ k := by positivity
  have hword : (2 : Int) ^ 64 = 256 ^ k * (256 * 256 ^ (7 - k)) := by
    rw [show (2 : Int) ^ 64 = 256 ^ 8 from rfl, ← pow_succ', ← pow_add]
    congr 1
    lia
  have hu := toUint64_eq val
  have hmul : val % 2 ^ 64 = val % 256 ^ k +
      256 ^ k * (val / 256 ^ k + 256 * (256 ^ (7 - k) * -(val / 2 ^ 64))) := by
    have hdiv := Int.emod_add_mul_ediv val (256 ^ k)
    have hdiv' := Int.emod_add_mul_ediv val (2 ^ 64)
    rw [eq_sub_of_add_eq hdiv', hword]
    linear_combination -hdiv
  have hr := Int.emod_nonneg val hP.ne'
  have hr' := Int.emod_lt_of_pos val hP
  have hquot : (val % 2 ^ 64) / 256 ^ k =
      val / 256 ^ k + 256 * (256 ^ (7 - k) * -(val / 2 ^ 64)) := by
    rw [hmul, Int.add_mul_ediv_left _ _ hP.ne', Int.ediv_eq_zero_of_lt hr hr', Int.zero_add]
  have hrest : (val % 2 ^ 64) % 256 ^ k = val % 256 ^ k := by
    rw [hmul, Int.add_mul_emod_self_left, Int.emod_eq_of_lt hr hr']
  refine ⟨val / 256 ^ k, ?_, ?_, ?_, ?_⟩
  · rw [Int.le_ediv_iff_mul_le hP]
    linarith
  · rw [Int.ediv_lt_iff_lt_mul hP]
    exact hhigh
  · push_cast
    rw [hu, hrest, Int.mul_comm, Int.mul_ediv_add_emod]
  · push_cast
    rw [hu, hquot, Int.add_mul_emod_self_left]

/-- The size of `put_ebml_sint` leaves room for the sign. -/
theorem sintSize_spec (hmin : -2 ^ 63 ≤ val) (hmax : val < 2 ^ 63) :
    ∃ k, sintSize val = k + 1 ∧ k ≤ 7 ∧ -(128 * 256 ^ k) ≤ val ∧ val < 128 * 256 ^ k := by
  have hnot : (~~~val : Int) = -val - 1 := by
    cases val with
    | ofNat n =>
      show Int.negSucc n = -(n : Int) - 1
      rw [Int.negSucc_eq]
      lia
    | negSucc n =>
      show (n : Int) = -Int.negSucc n - 1
      rw [Int.negSucc_eq]
      lia
  obtain ⟨m, hm⟩ : ∃ m : Int, m = if val < 0 then ~~~val else val := ⟨_, rfl⟩
  have hbound : 0 ≤ m ∧ m < 2 ^ 63 := by
    rw [hm]
    split_ifs <;> lia
  have hdouble : (toUint64 (2 * m) : Int) = 2 * m := by
    rw [toUint64_eq, Int.emod_eq_of_lt (by lia) (by lia)]
  obtain ⟨hpos, hle, hfits⟩ := uintSize_spec (toUint64 (2 * m)) (by lia)
  obtain ⟨k, hk⟩ : ∃ k, uintSize (toUint64 (2 * m)) = k + 1 :=
    ⟨_, (Nat.sub_add_cancel hpos).symm⟩
  rw [hk] at hle hfits
  have hroom : 2 * m < 256 ^ k * 256 := by
    rw [← hdouble, ← pow_succ]
    exact_mod_cast hfits
  have hsign : -m - 1 ≤ val ∧ val ≤ m := by
    rw [hm]
    split_ifs <;> lia
  rw [sintSize, ← hm]
  refine ⟨k, hk, by lia, ?_, ?_⟩
  · generalize (256 : Int) ^ k = P at hroom ⊢
    lia
  · generalize (256 : Int) ^ k = P at hroom ⊢
    lia

/-- The payload of `put_ebml_sint` is read back. -/
theorem ebmlReadSint_putEbmlSint (elementid : Nat) (hmin : -2 ^ 63 ≤ val) (hmax : val < 2 ^ 63) :
    ∃ field payload, putEbmlSint elementid val = some (putEbmlId elementid ++ field ++ payload) ∧
      Announces field payload.length ∧ ∀ tail,
        ebmlReadSint ⟨payload ++ tail, false⟩ payload.length = (val, ⟨tail, false⟩) := by
  obtain ⟨k, hk, hle, hlow, hhigh⟩ := sintSize_spec hmin hmax
  obtain ⟨q, hq, hq', hval, hbyte⟩ := toUint64_split hle hlow hhigh
  obtain ⟨field, hfield, -, hannounces⟩ :=
    exists_putEbmlLength (k + 1) 0 (by lia) (Or.inl rfl) (by decide)
  refine ⟨field, putBE (k + 1) (toUint64 val), ?_, ?_, fun tail => ?_⟩
  · simp only [putEbmlSint, hk, hfield]
    rfl
  · rwa [length_putBE]
  · have hsigned : ((UInt8.ofNat (toUint64 val / 256 ^ k)).toNat : Int).bmod (2 ^ 8) = q := by
      rw [UInt8.toNat_ofNat', show (2 : Nat) ^ 8 = 256 from rfl, hbyte]
      exact (Int.emod_bmod q 256).trans (Int.bmod_eq_of_le (by lia) (by lia))
    have happend := appendBytes_append (putBE k (toUint64 val)) tail false _ (toUint64_lt q)
    have hcast : (toUint64 q * 256 ^ k + toUint64 val % 256 ^ k) % 2 ^ 64 = toUint64 val := by
      apply Int.ofNat_inj.1
      rw [toUint64_eq val]
      conv_rhs => rw [hval]
      push_cast
      rw [toUint64_eq q]
      exact ((Int.mod_modEq q (2 ^ 64)).mul_right _).add_right _
    rw [length_putBE, getBE_putBE, hcast] at happend
    rw [length_putBE, ebmlReadSint, if_neg (Nat.succ_ne_zero k), putBE, List.cons_append,
      avioR8_cons]
    simp only [hsigned, Nat.add_sub_cancel, happend, toInt64_toUint64 hmin hmax]

/-! ## Elements -/

theorem putEbmlVoid_size {size : Nat} (hmin : 2 ≤ size) (hmax : size ≤ 0x7FFFFFFF) :
    ∃ field rest, putEbmlVoid size = some (putEbmlId ebmlIdVoid ++ field ++ rest) ∧
      (putEbmlId ebmlIdVoid ++ field ++ rest).length = size ∧ Announces field rest.length := by
  have hid : (putEbmlId ebmlIdVoid).length = 1 := by decide
  by_cases hshort : size < 10
  · obtain ⟨field, hfield, hlength, hannounces⟩ :=
      exists_putEbmlLength (size - 2) 0 (by lia) (Or.inl rfl) (by decide)
    rw [if_pos rfl, ebmlLengthSize_small (by lia)] at hlength
    refine ⟨field, List.replicate (size - 2) 0, ?_, ?_, ?_⟩
    · simp only [putEbmlVoid, if_pos hmin, if_pos hshort, hfield]
      rfl
    · rw [List.length_append, List.length_append, hid, hlength, List.length_replicate]
      lia
    · rwa [List.length_replicate]
  · have hneeded := (ebmlLengthSize_spec (size - 9) (by lia)).2.1
    obtain ⟨field, hfield, hlength, hannounces⟩ :=
      exists_putEbmlLength (size - 9) 8 (by lia) (Or.inr hneeded) (by decide)
    refine ⟨field, List.replicate (size - 9) 0, ?_, ?_, ?_⟩
    · simp only [putEbmlVoid, if_pos hmin, if_neg hshort, hfield]
      rfl
    · rw [List.length_append, List.length_append, hid, hlength, List.length_replicate,
        if_neg (by decide)]
      lia
    · rwa [List.length_replicate]

/-- The length field that is written before the length is known. -/
def unknownField : Bytes := 0x01 :: List.replicate 7 0xFF

theorem ebmlReadLength_unknownField (tail : Bytes) :
    ebmlReadLength ⟨unknownField ++ tail, false⟩ = (.ok (8, ebmlUnknownLength), ⟨tail, false⟩) := by
  have hones : unknownField = putEbmlNum (2 ^ 56 - 1) 8 := by decide
  have hread := ebmlReadNum_putEbmlNum (2 ^ 56 - 1) 8 (by decide) (by decide)
    (by decide) tail true
  have hlength : (2 ^ 56 - 1 + 1) % 2 ^ 64 = 1 <<< (7 * 8) := by decide
  rw [hones, ebmlReadLength, hread]
  simp only [if_pos hlength]

theorem startEbmlMaster_eq (pb : GrowableFile UInt8) (elementid : Nat) :
    startEbmlMaster pb elementid 0 =
      some (⟨(pb.write (putEbmlId elementid ++ unknownField)).position, 8⟩,
        pb.write (putEbmlId elementid ++ unknownField)) := rfl

theorem endEbmlMaster_eq {later : GrowableFile UInt8} {pos : Nat} (height : 8 ≤ pos)
    (hpos : pos ≤ later.position) (hlength : later.position - pos < 2 ^ 56 - 1) :
    ∃ field closed, endEbmlMaster true later ⟨pos, 8⟩ = some closed ∧
      closed.position = later.position ∧ field.length = 8 ∧
      closed.content = later.content.take (pos - 8) ++ field ++ later.content.drop pos ∧
      Announces field (later.position - pos) := by
  obtain ⟨field, hfield, hwidth, hannounces⟩ := exists_putEbmlLength _ 8 hlength
    (Or.inr (ebmlLengthSize_spec _ hlength).2.1) (by decide)
  rw [if_neg (by decide)] at hwidth
  have hend := later.le
  have hstart : pos - 8 ≤ later.content.length := by lia
  have hseek : later.seek (pos - 8) = ⟨later.content, pos - 8, hstart⟩ := dif_pos hstart
  have hinside : later.position ≤ ((later.seek (pos - 8)).write field).content.length :=
    hend.trans ((later.content_seek _ ▸ (later.seek (pos - 8)).length_le_write field))
  refine ⟨field, ((later.seek (pos - 8)).write field).seek later.position, ?_, ?_, hwidth, ?_,
    hannounces⟩
  · simp only [endEbmlMaster, hfield]
    rfl
  · rw [GrowableFile.seek, dif_pos hinside]
  · rw [GrowableFile.content_seek, hseek]
    show overwrite later.content (pos - 8) field = _
    rw [overwrite, hwidth, Nat.sub_add_cancel height]

/-- **EBML numbers are read back**: every length below `2 ^ 56 - 1`, from any number of bytes that
is accepted; the payload of every unsigned and of every signed integer; a void element has the size
asked for and announces the rest of it; the placeholder of a master element becomes the length of
what has been written behind it. -/
theorem ebml_readBack :
    (∀ length bytes, length < 2 ^ 56 - 1 → bytes = 0 ∨ ebmlLengthSize length ≤ bytes → bytes ≤ 8 →
      ∃ field, putEbmlLength length bytes = some field ∧
        field.length = (if bytes = 0 then ebmlLengthSize length else bytes) ∧
        Announces field length) ∧
    (∀ elementid val, val < 2 ^ 64 →
      ∃ field payload, putEbmlUint elementid val = some (putEbmlId elementid ++ field ++ payload) ∧
        Announces field payload.length ∧ ∀ tail,
          ebmlReadUint ⟨payload ++ tail, false⟩ payload.length = (val, ⟨tail, false⟩)) ∧
    (∀ elementid val, -2 ^ 63 ≤ val → val < 2 ^ 63 →
      ∃ field payload, putEbmlSint elementid val = some (putEbmlId elementid ++ field ++ payload) ∧
        Announces field payload.length ∧ ∀ tail,
          ebmlReadSint ⟨payload ++ tail, false⟩ payload.length = (val, ⟨tail, false⟩)) ∧
    (∀ size, 2 ≤ size → size ≤ 0x7FFFFFFF →
      ∃ field rest, putEbmlVoid size = some (putEbmlId ebmlIdVoid ++ field ++ rest) ∧
        (putEbmlId ebmlIdVoid ++ field ++ rest).length = size ∧ Announces field rest.length) ∧
    ∀ pb elementid, ∃ master opened placeholder,
      startEbmlMaster pb elementid 0 = some (master, opened) ∧
      opened = pb.write (putEbmlId elementid ++ placeholder) ∧ master.pos = opened.position ∧
      placeholder.length = 8 ∧
      (∀ tail, ebmlReadLength ⟨placeholder ++ tail, false⟩ =
        (.ok (8, ebmlUnknownLength), ⟨tail, false⟩)) ∧
      ∀ later : GrowableFile UInt8, master.pos ≤ later.position →
        later.position - master.pos < 2 ^ 56 - 1 →
        ∃ field closed, endEbmlMaster true later master = some closed ∧
          closed.position = later.position ∧ field.length = 8 ∧
          closed.content =
            later.content.take (master.pos - 8) ++ field ++ later.content.drop master.pos ∧
          Announces field (later.position - master.pos) := by
  refine ⟨exists_putEbmlLength, fun elementid _ => ebmlReadUint_putEbmlUint elementid,
    fun elementid _ => ebmlReadSint_putEbmlSint elementid, fun _ => putEbmlVoid_size, ?_⟩
  intro pb elementid
  refine ⟨_, _, unknownField, startEbmlMaster_eq pb elementid, rfl, rfl, rfl,
    ebmlReadLength_unknownField, fun later => endEbmlMaster_eq ?_⟩
  show 8 ≤ pb.position + (putEbmlId elementid ++ unknownField).length
  have hplaceholder : unknownField.length = 8 := rfl
  rw [List.length_append, hplaceholder]
  lia

/-- A length of 127 in two bytes, the number 256, the number -128, and a void element. -/
theorem ebml_readBack_numbers :
    (∃ field, putEbmlLength 127 0 = some field ∧ field.length = 2 ∧ Announces field 127) ∧
      (∃ field payload, putEbmlUint 0xD7 256 = some (putEbmlId 0xD7 ++ field ++ payload) ∧
        ebmlReadUint ⟨payload ++ [7], false⟩ payload.length = (256, ⟨[7], false⟩)) ∧
      (∃ field payload, putEbmlSint 0xFB (-128) = some (putEbmlId 0xFB ++ field ++ payload) ∧
        ebmlReadSint ⟨payload ++ [7], false⟩ payload.length = (-128, ⟨[7], false⟩)) ∧
      (∃ field rest, putEbmlVoid 10 = some (putEbmlId ebmlIdVoid ++ field ++ rest) ∧
        (putEbmlId ebmlIdVoid ++ field ++ rest).length = 10 ∧ Announces field rest.length) := by
  obtain ⟨hlength, huint, hsint, hvoid, -⟩ := ebml_readBack
  refine ⟨hlength 127 0 (by decide) (Or.inl rfl) (by decide), ?_, ?_,
    hvoid 10 (by decide) (by decide)⟩
  · obtain ⟨field, payload, hput, -, hread⟩ := huint 0xD7 256 (by decide)
    exact ⟨field, payload, hput, hread [7]⟩
  · obtain ⟨field, payload, hput, -, hread⟩ := hsint 0xFB (-128) (by decide) (by decide)
    exact ⟨field, payload, hput, hread [7]⟩

end FFmpeg.Libavformat.Ebml
