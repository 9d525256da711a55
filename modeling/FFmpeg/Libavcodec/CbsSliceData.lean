import FFmpeg.Libavcodec.CbsH2645
import FFmpeg.Libavcodec.PutBitsStream
import Mathlib.Data.List.DropRight

/-!
# The bits of a slice are copied as they are

The last byte of the data is put without the zero bits below its last one, and the stream
is filled up to a byte behind it.  Where the writer is at a byte already, these are the
same zero bits, and the bytes are copied in one piece.
-/

namespace FFmpeg.Libavcodec.CbsSliceData

open Common PutBits PutBitsStream CbsH2645

variable {s : PutBitContext} {out : List Bool} {size : Nat} {data : Bytes}

/-- The bits up to the last 1 bit. -/
def upToLastOne (l : List Bool) : List Bool := l.rdropWhile (! ·)

/-- How many bits there are up to the next byte boundary. -/
def toByte (n : Nat) : Nat := (8 - n % 8) % 8

/-- The stream behind a slice: its bits up to the last 1 bit, and zero bits up to a byte. -/
def aligned (out l : List Bool) : List Bool :=
  out ++ l ++ List.replicate (toByte (out ++ l).length) false

/-! ## The last byte -/

/-- What the code makes of a byte from bit `j` on. -/
structure Splits (b : UInt8) (j : Nat) : Prop where
  lt : ffCtz b.toNat < 8 - j
  value : (b.toNat &&& maxUintBits (8 - j)) >>> ffCtz b.toNat < 2 ^ (8 - ffCtz b.toNat - j)
  eq : (bits .msbFirst 8 b.toNat).drop j =
    bits .msbFirst (8 - ffCtz b.toNat - j) ((b.toNat &&& maxUintBits (8 - j)) >>> ffCtz b.toNat) ++
      List.replicate (ffCtz b.toNat) false
  last : upToLastOne ((bits .msbFirst 8 b.toNat).drop j) =
    bits .msbFirst (8 - ffCtz b.toNat - j) ((b.toNat &&& maxUintBits (8 - j)) >>> ffCtz b.toNat)

instance (b : UInt8) (j : Nat) : Decidable (Splits b j) :=
  decidable_of_iff
    (ffCtz b.toNat < 8 - j ∧
      (b.toNat &&& maxUintBits (8 - j)) >>> ffCtz b.toNat < 2 ^ (8 - ffCtz b.toNat - j) ∧
      (bits .msbFirst 8 b.toNat).drop j =
        bits .msbFirst (8 - ffCtz b.toNat - j)
          ((b.toNat &&& maxUintBits (8 - j)) >>> ffCtz b.toNat) ++
            List.replicate (ffCtz b.toNat) false ∧
      upToLastOne ((bits .msbFirst 8 b.toNat).drop j) =
        bits .msbFirst (8 - ffCtz b.toNat - j)
          ((b.toNat &&& maxUintBits (8 - j)) >>> ffCtz b.toNat))
    ⟨fun h => ⟨h.1, h.2.1, h.2.2.1, h.2.2.2⟩, fun h => ⟨h.lt, h.value, h.eq, h.last⟩⟩

theorem bits_masked (b : UInt8) {j : Nat} (hj : j < 8) :
    bits .msbFirst (8 - j) (b.toNat &&& maxUintBits (8 - j)) = (bits .msbFirst 8 b.toNat).drop j ∧
      b.toNat &&& maxUintBits (8 - j) < 2 ^ (8 - j) := by
  have hmask : b.toNat &&& maxUintBits (8 - j) = b.toNat % 2 ^ (8 - j) :=
    Nat.and_two_pow_sub_one_eq_mod _ _
  have hsplit := bits_add_msbFirst j (8 - j) b.toNat
  rw [Nat.add_sub_cancel' hj.le] at hsplit
  rw [hmask, bits_mod (Nat.le_refl _), hsplit, List.drop_left' (length_bits _ _)]
  exact ⟨rfl, Nat.mod_lt _ (Nat.two_pow_pos _)⟩

theorem upToLastOne_zeros (front : List Bool) (k : Nat) :
    upToLastOne (front ++ [true] ++ List.replicate k false) = front ++ [true] := by
  induction k with
  | zero =>
    rw [List.replicate_zero, List.append_nil, upToLastOne, List.rdropWhile_concat_neg]
    decide
  | succ k ih =>
    rw [List.replicate_succ', ← List.append_assoc, upToLastOne, List.rdropWhile_concat_pos]
    · exact ih
    · rfl

theorem splits (b : UInt8) {j : Nat} (hj : j < 8) (h : b.toNat &&& maxUintBits (8 - j) ≠ 0) :
    Splits b j := by
  have hmask : b.toNat &&& maxUintBits (8 - j) = b.toNat % 2 ^ (8 - j) :=
    Nat.and_two_pow_sub_one_eq_mod _ _
  obtain ⟨hdrop, hbound⟩ := bits_masked b hj
  rw [hmask] at h
  have hne : b.toNat ≠ 0 := fun hzero => h (by rw [hzero, Nat.zero_mod])
  obtain ⟨k, -, hfind, hset, hzero⟩ := exists_first_bit hne (n := 32) (b.toNat_lt.trans (by decide))
  have hctz : ffCtz b.toNat = k := by rw [ffCtz, hfind, Option.getD_some]
  have hk : k < 8 - j := by
    by_contra hge
    exact h (Nat.mod_eq_zero_of_dvd ((Nat.pow_dvd_pow 2 (not_lt.1 hge)).trans
      (Nat.dvd_of_mod_eq_zero hzero)))
  have hwidth : 8 - j = 8 - k - j + k := by lia
  have hlow : (b.toNat &&& maxUintBits (8 - j)) % 2 ^ k = 0 := by
    rw [hmask, Nat.mod_mod_of_dvd _ (Nat.pow_dvd_pow 2 hk.le), hzero]
  have heq : (bits .msbFirst 8 b.toNat).drop j =
      bits .msbFirst (8 - k - j) ((b.toNat &&& maxUintBits (8 - j)) >>> k) ++
        List.replicate k false := by
    rw [← hdrop]
    conv_lhs => rw [hwidth]
    rw [bits_add_msbFirst, ← bits_of_zero k, ← hlow, bits_mod le_rfl, ← hwidth]
  -- the last bit that is put is the first 1 bit of the byte
  have hlast : bits .msbFirst (8 - k - j) ((b.toNat &&& maxUintBits (8 - j)) >>> k) =
      bits .msbFirst (8 - k - j - 1) ((b.toNat &&& maxUintBits (8 - j)) >>> k >>> 1) ++ [true] := by
    have hone : bits .msbFirst 1 ((b.toNat &&& maxUintBits (8 - j)) >>> k) = [true] := by
      show [((b.toNat &&& maxUintBits (8 - j)) >>> k).testBit 0] = _
      rw [Nat.testBit_shiftRight, hmask, Nat.testBit_mod_two_pow, Nat.add_zero, hset,
        decide_eq_true hk, Bool.true_and]
    rw [← hone, ← bits_add_msbFirst, Nat.sub_add_cancel (by lia)]
  refine ⟨hctz ▸ hk, ?_, hctz ▸ heq, ?_⟩
  · rw [hctz, Nat.shiftRight_eq_div_pow]
    apply Nat.div_lt_of_lt_mul
    rwa [← Nat.pow_add, Nat.add_comm, ← hwidth]
  · rw [hctz, heq, hlast, upToLastOne_zeros]

theorem upToLastOne_append (front : List Bool) {l : List Bool} (h : true ∈ l) :
    upToLastOne (front ++ l) = front ++ upToLastOne l := by
  have hne : (l.reverse.dropWhile (! ·)).isEmpty = false := by
    rw [List.isEmpty_eq_false_iff, ne_eq, List.dropWhile_eq_nil_iff]
    intro hall
    simpa using hall true (List.mem_reverse.2 h)
  rw [upToLastOne, List.rdropWhile, List.reverse_append, List.dropWhile_append, hne]
  simp [upToLastOne, List.rdropWhile]

theorem putBitsAsserting_writes (h : Writes .msbFirst size s out) {n value : Nat} (hn : n ≤ 31)
    (hvalue : value < 2 ^ n) (hfits : out.length + n ≤ 8 * size) :
    ∃ t, putBitsAsserting s n value = some t ∧
      Writes .msbFirst size t (out ++ bits .msbFirst n value) :=
  ⟨_, if_pos ⟨hn, hvalue⟩, h.putBits (by lia) hvalue hfits⟩

/-- The stop bit: the last byte up to its last 1 bit, and the padding. -/
theorem rbspStopOneBit_writes (h : Writes .msbFirst size s out) {rest j dataBitStart : Nat}
    {byte : UInt8} (hj : j = if rest ≠ 0 then 0 else dataBitStart % 8)
    (hbyte : byte.toNat &&& maxUintBits (8 - j) ≠ 0) (hfits : out.length + 16 ≤ 8 * size) :
    ∃ t, rbspStopOneBit s rest byte dataBitStart = some t ∧
      Writes .msbFirst size t
        (aligned out (upToLastOne ((bits .msbFirst 8 byte.toNat).drop j))) := by
  have hj8 : j < 8 := by
    split at hj <;> lia
  obtain ⟨hlt, hvalue, -, hlast⟩ := splits byte hj8 hbyte
  have htemp : (if rest ≠ 0 then byte.toNat else
      byte.toNat &&& maxUintBits (8 - dataBitStart % 8)) = byte.toNat &&& maxUintBits (8 - j) := by
    split at hj
    · rename_i hrest
      subst hj
      have hmask : byte.toNat &&& maxUintBits (8 - 0) = byte.toNat % 2 ^ 8 :=
        Nat.and_two_pow_sub_one_eq_mod _ 8
      rw [if_pos hrest, hmask, Nat.mod_eq_of_lt byte.toNat_lt]
    · rename_i hrest
      rw [if_neg hrest, hj]
  have hwidth : (if rest ≠ 0 then 8 - ffCtz byte.toNat else
      8 - ffCtz byte.toNat - dataBitStart % 8) = 8 - ffCtz byte.toNat - j := by
    split at hj
    · rename_i hrest
      rw [if_pos hrest, hj, Nat.sub_zero]
    · rename_i hrest
      rw [if_neg hrest, hj]
  obtain ⟨t, hput, ht⟩ := putBitsAsserting_writes h (by lia) hvalue (by lia)
  have hcount := ht.putBitsCount_eq
  rw [aligned, hlast]
  generalize hbits : bits .msbFirst (8 - ffCtz byte.toNat - j)
    ((byte.toNat &&& maxUintBits (8 - j)) >>> ffCtz byte.toNat) = written at ht hcount ⊢
  have hlength : (out ++ written).length = out.length + (8 - ffCtz byte.toNat - j) := by
    rw [← hbits, List.length_append, length_bits]
  unfold rbspStopOneBit
  simp only [htemp, hwidth, if_neg hbyte, hput, Option.bind_eq_bind, Option.bind_some]
  by_cases hwhole : putBitsCount t % 8 ≠ 0
  · have hpad : 8 - (putBitsCount t % 8).toNat = toByte (out ++ written).length := by
      unfold toByte
      lia
    have hroom : toByte (out ++ written).length ≤ 7 := by
      unfold toByte
      lia
    obtain ⟨u, hzero, hu⟩ := putBitsAsserting_writes ht (show toByte (out ++ written).length ≤ 31 by
      lia) (Nat.two_pow_pos _) (by lia)
    rw [bits_of_zero] at hu
    exact ⟨u, by rw [if_pos hwhole, hpad, hzero], hu⟩
  · have hpad : toByte (out ++ written).length = 0 := by
      unfold toByte
      lia
    rw [hpad, List.replicate_zero, List.append_nil]
    exact ⟨t, if_neg hwhole, ht⟩

/-! ## The bytes in front of it -/

theorem word_lt (a b c d : UInt8) : getBE [a, b, c, d] < 2 ^ 32 := by
  have hlt : getBE [a, b, c, d] < 256 ^ 4 := getBE_lt [a, b, c, d]
  rwa [show 256 ^ 4 = 2 ^ 32 by norm_num] at hlt

theorem putWords_cons (a b c d e : UInt8) (pos : Bytes) :
    putWords (a :: b :: c :: d :: e :: pos) =
      fun s => putWords (e :: pos) (putBits32 .msbFirst s (getBE [a, b, c, d])) := rfl

variable {pos : Bytes}

theorem putWords_short (s : PutBitContext)
    (hshort : ∀ a b c d e rest, pos = a :: b :: c :: d :: e :: rest → False) :
    putWords pos s = (pos, s) := by
  match pos, hshort with
  | [], _ => rfl
  | [_], _ => rfl
  | [_, _], _ => rfl
  | [_, _, _], _ => rfl
  | [_, _, _, _], _ => rfl
  | a :: b :: c :: d :: e :: rest, hshort => exact (hshort a b c d e rest rfl).elim

theorem putWords_writes (h : Writes .msbFirst size s out) (hpos : pos ≠ [])
    (hfits : out.length + 8 * pos.length ≤ 8 * size) :
    ∃ front rest t, putWords pos s = (rest, t) ∧ pos = front ++ rest ∧ rest ≠ [] ∧
      Writes .msbFirst size t (out ++ bitsOfBytes .msbFirst front) := by
  induction pos, s using putWords.induct generalizing out with
  | case1 a b c d e pos s ih =>
    have hword : bits .msbFirst 32 (getBE [a, b, c, d]) = bitsOfBytes .msbFirst [a, b, c, d] :=
      (bitsOfBytes_eq [a, b, c, d]).symm
    simp only [List.length_cons] at hfits
    have hspace : out.length + 32 ≤ 8 * size := by lia
    have hput := h.putBits32 (word_lt a b c d) hspace
    rw [hword] at hput
    have hfits' : (out ++ bitsOfBytes .msbFirst [a, b, c, d]).length + 8 * (e :: pos).length ≤
        8 * size := by
      simp only [List.length_append, length_bitsOfBytes, List.length_cons, List.length_nil]
      lia
    obtain ⟨front, rest, t, hloop, heq, hrest, ht⟩ := ih hput (List.cons_ne_nil _ _) hfits'
    rw [List.append_assoc, ← bitsOfBytes_append] at ht
    have hround := (congrFun (putWords_cons a b c d e pos) s).trans hloop
    exact ⟨[a, b, c, d] ++ front, rest, t, hround, by simp [heq], hrest, ht⟩
  | case2 pos s hshort =>
    exact ⟨[], pos, s, putWords_short s hshort, rfl, hpos, by simpa [bitsOfBytes] using h⟩

theorem putBytes_writes (h : Writes .msbFirst size s out) (hpos : pos ≠ [])
    (hfits : out.length + 8 * pos.length ≤ 8 * size) :
    ∃ front last t, putBytes pos s = some ([last], t) ∧ pos = front ++ [last] ∧
      Writes .msbFirst size t (out ++ bitsOfBytes .msbFirst front) := by
  induction pos generalizing s out with
  | nil => exact absurd rfl hpos
  | cons a pos ih =>
    cases pos with
    | nil => exact ⟨[], a, s, rfl, rfl, by simpa [bitsOfBytes] using h⟩
    | cons b pos =>
      simp only [List.length_cons] at hfits
      obtain ⟨t, hput, ht⟩ := putBitsAsserting_writes h (by decide) a.toNat_lt (by lia)
      obtain ⟨front, last, u, hloop, heq, hu⟩ := ih ht (List.cons_ne_nil _ _) (by
        simp only [List.length_append, length_bits, List.length_cons]
        lia)
      refine ⟨a :: front, last, u, ?_, by rw [heq, List.cons_append], ?_⟩
      · rw [putBytes, hput]
        exact hloop
      · rw [List.append_assoc] at hu
        exact hu

/-! ## The whole slice -/

theorem masked_ne_zero (b : UInt8) {j : Nat} (hj : j < 8)
    (h : true ∈ (bits .msbFirst 8 b.toNat).drop j) : b.toNat &&& maxUintBits (8 - j) ≠ 0 := by
  intro hzero
  rw [← (bits_masked b hj).1, hzero, bits_of_zero] at h
  cases List.eq_of_mem_replicate h

theorem bitsOfBytes_singleton (b : UInt8) :
    bitsOfBytes .msbFirst [b] = bits .msbFirst 8 b.toNat := by
  simp [bitsOfBytes]

theorem true_mem_bits {b : UInt8} (h : b ≠ 0) : true ∈ bits .msbFirst 8 b.toNat := by
  have hne : b.toNat ≠ 0 := fun hzero => h (UInt8.toNat_inj.1 hzero)
  obtain ⟨k, hk, -, hset, -⟩ := exists_first_bit hne b.toNat_lt
  rw [bits, List.mem_map]
  refine ⟨7 - k, List.mem_range.2 (by lia), ?_⟩
  have hplace : BitOrder.place .msbFirst 8 (7 - k) = k := by
    show 8 - 1 - (7 - k) = k
    lia
  rw [hplace, hset]

variable {last : UInt8}

theorem upToLastOne_concat (front : Bytes) (hlast : last ≠ 0) :
    upToLastOne (bitsOfBytes .msbFirst (front ++ [last])) =
      bitsOfBytes .msbFirst front ++ upToLastOne (bits .msbFirst 8 last.toNat) := by
  rw [bitsOfBytes_append, bitsOfBytes_singleton, upToLastOne_append _ (true_mem_bits hlast)]

theorem aligned_of_whole (hwhole : out.length % 8 = 0) (front : Bytes) (hlast : last ≠ 0) :
    aligned out (upToLastOne (bitsOfBytes .msbFirst (front ++ [last]))) =
      out ++ bitsOfBytes .msbFirst (front ++ [last]) := by
  obtain ⟨hlt, -, heq, hupTo⟩ :=
    splits last (show 0 < 8 by decide) (masked_ne_zero last (by decide) (true_mem_bits hlast))
  rw [List.drop_zero] at heq hupTo
  have hpad : toByte (out ++ (bitsOfBytes .msbFirst front ++
      upToLastOne (bits .msbFirst 8 last.toNat))).length = ffCtz last.toNat := by
    rw [hupTo]
    simp only [toByte, List.length_append, length_bitsOfBytes, length_bits]
    lia
  rw [upToLastOne_concat front hlast, aligned, hpad, bitsOfBytes_append, bitsOfBytes_singleton]
  conv_rhs => rw [heq]
  rw [hupTo]
  simp only [List.append_assoc]

/-- The whole bytes, in one piece or one after the other. -/
theorem writeRest_writes (h : Writes .msbFirst size s out) (front : Bytes) (hlast : last ≠ 0)
    (hfits : out.length + 8 * front.length + 16 ≤ 8 * size) (dataBitStart : Nat) :
    ∃ t, writeRest s (front ++ [last]) dataBitStart = some t ∧
      Writes .msbFirst size t
        (aligned out (upToLastOne (bitsOfBytes .msbFirst (front ++ [last])))) := by
  have hcount := h.putBitsCount_eq
  have hlength : (front ++ [last]).length = front.length + 1 := by simp
  unfold writeRest
  by_cases hwhole : out.length % 8 = 0
  · obtain ⟨t, hflush, ht, hleft⟩ := h.flush_whole (by lia) hwhole
    obtain ⟨u, hskip, hu⟩ := ht.skipPutBytes hleft hlength (by lia)
    have hcount' := ht.putBitsCount_eq
    rw [if_pos (by lia), hflush, aligned_of_whole hwhole front hlast]
    refine ⟨u, ?_, hu⟩
    simp only [Option.bind_eq_bind, Option.bind_some, hlength]
    rw [skipPutBytesAsserting, if_pos ⟨show putBitsCount t % 8 = 0 by lia, hleft⟩, hskip]
  · obtain ⟨front₁, rest, t, hwords, hsplit, hrest, ht⟩ :=
      putWords_writes h (show front ++ [last] ≠ [] by simp) (by lia)
    have hlengths := congrArg List.length hsplit
    rw [hlength, List.length_append] at hlengths
    obtain ⟨front₂, last', u, hbytes, hsplit', hu⟩ := putBytes_writes ht hrest (by
      rw [List.length_append, length_bitsOfBytes]
      lia)
    obtain ⟨rfl, hlast'⟩ : front = front₁ ++ front₂ ∧ [last] = [last'] := by
      rw [hsplit', ← List.append_assoc] at hsplit
      exact List.append_inj' hsplit rfl
    obtain rfl : last = last' := by simpa using hlast'
    have hbyte := masked_ne_zero last (show 0 < 8 by decide) (true_mem_bits hlast)
    obtain ⟨v, hstop, hv⟩ := @rbspStopOneBit_writes u _ size hu 1 0 dataBitStart last rfl hbyte (by
      simp only [List.length_append, length_bitsOfBytes] at hfits ⊢
      lia)
    rw [if_neg (by lia)]
    refine ⟨v, ?_, ?_⟩
    · simp only [hwords, hbytes, Option.bind_eq_bind, Option.bind_some]
      exact hstop
    · rw [List.drop_zero] at hv
      rw [upToLastOne_concat _ hlast]
      simpa only [aligned, bitsOfBytes_append, List.append_assoc] using hv

theorem drop_bitsOfBytes (l : Bytes) (p : Nat) :
    (bitsOfBytes .msbFirst l).drop (8 * p) = bitsOfBytes .msbFirst (l.drop p) := by
  have hslice : slice (bitsOfBytes .msbFirst l) (8 * p) (8 * l.length) =
      bitsOfBytes .msbFirst (slice l p l.length) := slice_bitsOfBytes l p l.length
  rwa [slice, slice, List.take_of_length_le (by simp), List.take_of_length_le (by simp)] at hslice

/-- The data of a slice is copied bit by bit, or there is no room for it. -/
theorem cbsH2645WriteSliceData_writes (h : Writes .msbFirst size s out)
    (hroom : out.length ≤ 8 * size) {dataBitStart : Nat} (hlast : data.getLast? ≠ some 0)
    (hstart : dataBitStart < 8 * data.length)
    (hone : true ∈ (bitsOfBytes .msbFirst data).drop dataBitStart) :
    cbsH2645WriteSliceData s data dataBitStart = some (.error .enospc) ∨
      ∃ t, cbsH2645WriteSliceData s data dataBitStart = some (.ok t) ∧
        Writes .msbFirst size t
          (aligned out (upToLastOne ((bitsOfBytes .msbFirst data).drop dataBitStart))) := by
  have hcount := h.putBitsLeft_eq
  have hhalf : dataBitStart / 8 < data.length := by lia
  have hbits : (bitsOfBytes .msbFirst data).drop dataBitStart =
      (bitsOfBytes .msbFirst (data.drop (dataBitStart / 8))).drop (dataBitStart % 8) := by
    rw [← drop_bitsOfBytes, List.drop_drop, Nat.div_add_mod]
  have hlengths : (data.drop (dataBitStart / 8)).length = data.length - dataBitStart / 8 :=
    List.length_drop
  have hlast' : (data.drop (dataBitStart / 8)).getLast? = data.getLast? := by
    rw [List.getLast?_drop, if_neg (by lia)]
  unfold cbsH2645WriteSliceData
  simp only
  rw [if_neg (by lia)]
  by_cases hspace : putBitsLeft s % 2 ^ 64 < data.length * 8 + 8
  · exact Or.inl (if_pos hspace)
  rw [if_neg hspace]
  have hfits : out.length + 8 * data.length + 8 ≤ 8 * size := by
    have hmod : putBitsLeft s % 2 ^ 64 ≤ putBitsLeft s := by
      rw [hcount]
      lia
    lia
  refine Or.inr ?_
  rw [hbits] at hone ⊢
  generalize data.drop (dataBitStart / 8) = pos at *
  cases pos with
  | nil => simp at hlengths; lia
  | cons b pos =>
    rw [List.length_cons] at hlengths
    rw [← hlast'] at hlast
    by_cases hpart : dataBitStart % 8 = 0
    · -- the slice begins with a whole byte
      obtain ⟨front, last, hpos⟩ := (List.eq_nil_or_concat (b :: pos)).resolve_left (by simp)
      rw [List.concat_eq_append] at hpos
      have hne : last ≠ 0 := by simpa [hpos] using hlast
      have hsize := congrArg List.length hpos
      simp only [List.length_cons, List.length_append, List.length_nil] at hsize
      obtain ⟨t, hwrite, ht⟩ := writeRest_writes h front hne (by lia) dataBitStart
      rw [if_neg (by lia), if_neg (by lia), List.take_of_length_le (by simp; lia), hpart,
        List.drop_zero, hpos, hwrite]
      exact ⟨t, rfl, ht⟩
    · have hmod : dataBitStart % 8 < 8 := Nat.mod_lt _ (by decide)
      have hfirst : (bitsOfBytes .msbFirst (b :: pos)).drop (dataBitStart % 8) =
          (bits .msbFirst 8 b.toNat).drop (dataBitStart % 8) ++ bitsOfBytes .msbFirst pos := by
        rw [show b :: pos = [b] ++ pos from rfl, bitsOfBytes_append, bitsOfBytes_singleton,
          List.drop_append_of_le_length (by rw [length_bits]; lia)]
      rw [hfirst] at hone ⊢
      rcases List.eq_nil_or_concat pos with rfl | ⟨front, last, hconcat⟩
      · -- the slice is in one byte
        rw [show bitsOfBytes .msbFirst [] = [] from rfl, List.append_nil] at hone ⊢
        have hbyte := masked_ne_zero b hmod hone
        obtain ⟨t, hstop, ht⟩ := @rbspStopOneBit_writes s out size h 0 (dataBitStart % 8)
          dataBitStart b rfl hbyte (by lia)
        rw [if_pos (by simp at hlengths; lia)]
        exact ⟨t, by rw [List.headD_cons, hstop]; rfl, ht⟩
      · rw [List.concat_eq_append] at hconcat
        subst hconcat
        have hne : last ≠ 0 := by
          rw [← List.cons_append, List.getLast?_concat] at hlast
          simpa using hlast
        simp only [List.length_append, List.length_cons, List.length_nil] at hlengths
        obtain ⟨hmasked, hlt⟩ := bits_masked b hmod
        obtain ⟨t, hput, ht⟩ := putBitsAsserting_writes h (show 8 - dataBitStart % 8 ≤ 31 by lia)
          hlt (by lia)
        obtain ⟨u, hwrite, hu⟩ := writeRest_writes ht front hne (by
          rw [List.length_append, length_bits]
          lia) dataBitStart
        have htrue : true ∈ bitsOfBytes .msbFirst (front ++ [last]) := by
          rw [bitsOfBytes_append, bitsOfBytes_singleton]
          exact List.mem_append_right _ (true_mem_bits hne)
        rw [if_neg (by lia), if_pos hpart, List.headD_cons, List.tail_cons, hput,
          Option.bind_eq_bind, Option.bind_some,
          List.take_of_length_le (by simp; lia), hwrite]
        refine ⟨u, rfl, ?_⟩
        rw [upToLastOne_append _ htrue, ← hmasked]
        simpa only [aligned, List.append_assoc] using hu

/-- Behind three bits, a slice that begins inside of its first byte. -/
theorem cbsH2645WriteSliceData_writes_threeBits :
    ∃ t, cbsH2645WriteSliceData (putBits .msbFirst ⟨0, 32, List.replicate 8 0, 0, []⟩ 3 5)
        [0x5a, 0x90] 3 = some (.ok t) ∧
      Writes .msbFirst 8 t (aligned [true, false, true]
        (upToLastOne ((bitsOfBytes .msbFirst [0x5a, 0x90]).drop 3))) := by
  have hinit : Writes .msbFirst 8 ⟨0, 32, List.replicate 8 0, 0, []⟩ [] :=
    @writes_init .msbFirst _ (List.replicate 8 0) rfl
  have h := hinit.putBits (show 3 ≤ 32 by decide) (show 5 < 2 ^ 3 by decide) (by decide)
  exact (cbsH2645WriteSliceData_writes h (by decide) (by decide) (by decide)
    (by decide)).resolve_left (by decide)

end FFmpeg.Libavcodec.CbsSliceData
