import FFmpeg.Libavcodec.PutBits

/-!
# The bit writer writes a stream

Up to 31 bits of the stream are pending in `bit_buf`, above bits that do not matter when
the most significant bit comes first, and with nothing above them otherwise.  Every
function puts its bits behind the stream, and a flush stores the pending ones.
-/

namespace FFmpeg.Libavcodec.PutBitsStream

open Common PutBits

variable {order : BitOrder} {s : PutBitContext} {out : List Bool} {size value : Nat}

/-- The stream `out` has been written to a buffer of `size` bytes. -/
structure Writes (order : BitOrder) (size : Nat) (s : PutBitContext) (out : List Bool) : Prop where
  size_eq : s.buf.length = size
  ptr_le : s.bufPtr ≤ size
  left_pos : 0 < s.bitLeft
  left_le : s.bitLeft ≤ 32
  clean : order = .lsbFirst → s.bitBuf < 2 ^ (32 - s.bitLeft)
  log_eq : s.log = []
  out_eq : out = bitsOfBytes order (s.buf.take s.bufPtr) ++ bits order (32 - s.bitLeft) s.bitBuf

theorem Writes.length_eq (h : Writes order size s out) :
    out.length = 8 * s.bufPtr + (32 - s.bitLeft) := by
  have hsize := h.size_eq
  have hptr := h.ptr_le
  rw [h.out_eq, List.length_append, length_bitsOfBytes, length_bits, List.length_take,
    Nat.min_eq_left (by lia)]

theorem Writes.putBitsCount_eq (h : Writes order size s out) : putBitsCount s = out.length := by
  have hlength := h.length_eq
  have hleft := h.left_le
  rw [putBitsCount]
  lia

theorem Writes.putBitsLeft_eq (h : Writes order size s out) :
    putBitsLeft s = 8 * (size : Int) - out.length := by
  have hlength := h.length_eq
  have hleft := h.left_le
  rw [putBitsLeft, h.size_eq]
  lia

theorem writes_init {buffer : Bytes} (h : initPutBits buffer = some s) :
    Writes order buffer.length s [] := by
  unfold initPutBits at h
  split at h
  · obtain rfl := Option.some.inj h
    exact ⟨rfl, Nat.zero_le _, Nat.succ_pos 31, Nat.le_refl 32, fun _ => Nat.one_pos, rfl, rfl⟩
  · cases h

/-! ## Words -/

theorem storeWord_eq (hroom : s.bufPtr + 4 ≤ s.buf.length) (word : Nat) :
    storeWord order s word =
      { s with buf := overwrite s.buf s.bufPtr (order.putBytes 4 word), bufPtr := s.bufPtr + 4 } :=
  if_pos (by lia)

theorem bitsOfBytes_storeWord (hroom : s.bufPtr + 4 ≤ s.buf.length) (word : Nat) :
    bitsOfBytes order ((overwrite s.buf s.bufPtr (order.putBytes 4 word)).take (s.bufPtr + 4)) =
      bitsOfBytes order (s.buf.take s.bufPtr) ++ bits order 32 word := by
  have htake : (overwrite s.buf s.bufPtr (order.putBytes 4 word)).take
      (s.bufPtr + (order.putBytes 4 word).length) = s.buf.take s.bufPtr ++ order.putBytes 4 word :=
    take_overwrite (by lia)
  rw [length_putBytes] at htake
  rw [htake, bitsOfBytes_append, bitsOfBytes_putBytes]

theorem length_storeWord (hroom : s.bufPtr + 4 ≤ s.buf.length) (word : Nat) :
    (overwrite s.buf s.bufPtr (order.putBytes 4 word)).length = s.buf.length :=
  length_overwrite_of_le (by rwa [length_putBytes])

variable {value : Nat}

/-- The accumulator takes up to 32 bits; when it is full it is stored, and what is left of
the value stays. -/
theorem Writes.putBits_of_room (h : Writes order size s out) {n : Nat} (hn : n ≤ 32)
    (hvalue : value < 2 ^ n) (hspace : s.bitLeft ≤ n → s.bufPtr + 4 ≤ size) :
    Writes order size (putBits order s n value) (out ++ bits order n value) := by
  have hsize := h.size_eq
  have hptr := h.ptr_le
  have hpos := h.left_pos
  have hleft := h.left_le
  by_cases hless : n < s.bitLeft
  · have hwidth : 32 - (s.bitLeft - n) = 32 - s.bitLeft + n := by lia
    cases order with
    | msbFirst =>
      have hjoin := bits_join_msbFirst (a := 32 - s.bitLeft) (b := n) (k := 32) (m := s.bitBuf)
        (by lia) hvalue
      simp only [PutBits.putBits, if_pos hless]
      refine ⟨hsize, hptr, Nat.sub_pos_of_lt hless, (Nat.sub_le _ _).trans hleft, nofun, h.log_eq, ?_⟩
      show _ = _ ++ bits _ (32 - (s.bitLeft - n)) _
      rw [hwidth, hjoin, ← List.append_assoc, ← h.out_eq]
    | lsbFirst =>
      have hclean := h.clean rfl
      have hjoin := bits_join_lsbFirst (a := 32 - s.bitLeft) (b := n) (k := 32) (n := value)
        (by lia) hclean
      have hnext : s.bitBuf ||| (value <<< (32 - s.bitLeft)) % 2 ^ 32 <
          2 ^ (32 - (s.bitLeft - n)) := by
        rw [hwidth]
        refine Nat.or_lt_two_pow (hclean.trans_le (Nat.pow_le_pow_right (by decide) (by lia))) ?_
        refine (Nat.mod_le _ _).trans_lt ?_
        rw [Nat.shiftLeft_eq, Nat.pow_add, Nat.mul_comm]
        exact Nat.mul_lt_mul_of_pos_left hvalue (by positivity)
      simp only [PutBits.putBits, if_neg (Nat.not_le.mpr hless)]
      refine ⟨hsize, hptr, Nat.sub_pos_of_lt hless, (Nat.sub_le _ _).trans hleft, fun _ => hnext,
        h.log_eq, ?_⟩
      show _ = _ ++ bits _ (32 - (s.bitLeft - n)) _
      rw [hwidth, hjoin, ← List.append_assoc, ← h.out_eq]
  · have hroom : s.bufPtr + 4 ≤ s.buf.length := by
      rw [hsize]
      exact hspace (Nat.le_of_not_lt hless)
    have hwidth : 32 - (s.bitLeft + 32 - n) = n - s.bitLeft := by lia
    have hword : 32 = 32 - s.bitLeft + s.bitLeft := by lia
    have hsplit : n = s.bitLeft + (n - s.bitLeft) := by lia
    have hnext : 0 < s.bitLeft + 32 - n ∧ s.bitLeft + 32 - n ≤ 32 := by lia
    cases order with
    | msbFirst =>
      have hhigh : value >>> (n - s.bitLeft) < 2 ^ s.bitLeft := by
        rw [Nat.shiftRight_eq_div_pow]
        apply Nat.div_lt_of_lt_mul
        rwa [← Nat.pow_add, Nat.sub_add_cancel (by lia)]
      have hjoin := bits_join_msbFirst (a := 32 - s.bitLeft) (k := 32) (m := s.bitBuf)
        (by lia) hhigh
      rw [← hword] at hjoin
      have hvalueBits := bits_add_msbFirst s.bitLeft (n - s.bitLeft) value
      rw [← hsplit] at hvalueBits
      simp only [PutBits.putBits, if_neg hless, storeWord_eq hroom]
      refine ⟨(length_storeWord hroom _).trans hsize, hroom.trans hsize.le, hnext.1, hnext.2, nofun,
        h.log_eq, ?_⟩
      show _ = bitsOfBytes _ ((overwrite s.buf s.bufPtr (BitOrder.msbFirst.putBytes 4 _)).take
        (s.bufPtr + 4)) ++ bits _ (32 - (s.bitLeft + 32 - n)) _
      rw [bitsOfBytes_storeWord hroom, hwidth, hjoin, hvalueBits, h.out_eq]
      simp only [List.append_assoc]
    | lsbFirst =>
      have hrest : value >>> s.bitLeft < 2 ^ (32 - (s.bitLeft + 32 - n)) := by
        rw [hwidth, Nat.shiftRight_eq_div_pow]
        apply Nat.div_lt_of_lt_mul
        rwa [← Nat.pow_add, ← hsplit]
      have hjoin := bits_join_lsbFirst (a := 32 - s.bitLeft) (b := s.bitLeft) (k := 32) (n := value)
        (by lia) (h.clean rfl)
      rw [← hword] at hjoin
      have hvalueBits := bits_add_lsbFirst s.bitLeft (n - s.bitLeft) value
      rw [← hsplit] at hvalueBits
      simp only [PutBits.putBits, if_pos (Nat.le_of_not_lt hless), storeWord_eq hroom]
      refine ⟨(length_storeWord hroom _).trans hsize, hroom.trans hsize.le, hnext.1, hnext.2,
        fun _ => hrest, h.log_eq, ?_⟩
      show _ = bitsOfBytes _ ((overwrite s.buf s.bufPtr (BitOrder.lsbFirst.putBytes 4 _)).take
        (s.bufPtr + 4)) ++ bits _ (32 - (s.bitLeft + 32 - n)) _
      rw [bitsOfBytes_storeWord hroom, hwidth, hjoin, hvalueBits, h.out_eq]
      simp only [List.append_assoc]

theorem Writes.putBits (h : Writes order size s out) {n : Nat} (hn : n ≤ 32)
    (hvalue : value < 2 ^ n) (hfits : out.length + n ≤ 8 * size) :
    Writes order size (putBits order s n value) (out ++ bits order n value) := by
  apply h.putBits_of_room hn hvalue
  intro hfull
  have hlength := h.length_eq
  have hleft := h.left_le
  lia

theorem putBits32_eq (hleft : s.bitLeft ≤ 32) (value : Nat) :
    putBits32 order s value = PutBits.putBits order s 32 value := by
  have hspare : s.bitLeft + 32 - 32 = s.bitLeft := Nat.add_sub_cancel s.bitLeft 32
  have hstored : ∀ word, (storeWord order s word).bitLeft = s.bitLeft := by
    intro word
    unfold storeWord
    split <;> rfl
  cases order with
  | msbFirst =>
    simp only [PutBits.putBits32, PutBits.putBits, if_neg (Nat.not_lt.mpr hleft), hspare, hstored]
  | lsbFirst =>
    simp only [PutBits.putBits32, PutBits.putBits, if_pos hleft, hspare, hstored]

theorem Writes.putBits32 (h : Writes order size s out) (hvalue : value < 2 ^ 32)
    (hfits : out.length + 32 ≤ 8 * size) :
    Writes order size (putBits32 order s value) (out ++ bits order 32 value) := by
  rw [putBits32_eq h.left_le]
  exact h.putBits (Nat.le_refl 32) hvalue hfits

theorem Writes.putBits64 (h : Writes order size s out) {n : Nat} (hn : n ≤ 64)
    (hvalue : value < 2 ^ n) (hfits : out.length + n ≤ 8 * size) :
    Writes order size (putBits64 order s n value) (out ++ bits order n value) := by
  have hlo : value &&& 0xffffffff = value % 2 ^ 32 := Nat.and_two_pow_sub_one_eq_mod value 32
  have hloLt : value % 2 ^ 32 < 2 ^ 32 := Nat.mod_lt _ (by positivity)
  have hloBits : bits order 32 (value % 2 ^ 32) = bits order 32 value := bits_mod (Nat.le_refl 32) value
  unfold PutBits.putBits64
  simp only [hlo]
  by_cases hsmall : n ≤ 32
  · have hmod : value % 2 ^ 32 = value :=
      Nat.mod_eq_of_lt (hvalue.trans_le (Nat.pow_le_pow_right (by decide) hsmall))
    rw [hmod]
    by_cases hlt : n < 32
    · rw [if_pos hlt]
      exact h.putBits hsmall hvalue hfits
    · obtain rfl : n = 32 := by lia
      rw [if_neg hlt, if_pos rfl]
      exact h.putBits32 hvalue hfits
  · have hhi : value >>> 32 < 2 ^ (n - 32) := by
      rw [Nat.shiftRight_eq_div_pow]
      apply Nat.div_lt_of_lt_mul
      rwa [← Nat.pow_add, Nat.add_sub_cancel' (by lia)]
    -- the word of the upper bits is put as one of `n - 32` bits, also when these are 32
    have hupper : ∀ {t : PutBitContext} {written : List Bool}, Writes order size t written →
        written.length + (n - 32) ≤ 8 * size →
        Writes order size (if n < 64 then PutBits.putBits order t (n - 32) (value >>> 32)
          else PutBits.putBits32 order t (value >>> 32))
          (written ++ bits order (n - 32) (value >>> 32)) := by
      intro t written ht hroom
      split
      · exact ht.putBits (by lia) hhi hroom
      · obtain rfl : n = 64 := by lia
        exact ht.putBits32 hhi hroom
    rw [if_neg (by lia), if_neg (by lia)]
    cases order with
    | msbFirst =>
      have hput := (hupper h (by lia)).putBits32 hloLt
        (by rw [List.length_append, length_bits]; lia)
      have hsplit := bits_add_msbFirst (n - 32) 32 value
      rw [Nat.sub_add_cancel (by lia)] at hsplit
      rw [hloBits, List.append_assoc, ← hsplit] at hput
      split at hput <;> rename_i hlt
      · rwa [if_pos hlt]
      · rwa [if_neg hlt]
    | lsbFirst =>
      have hput := hupper (h.putBits32 hloLt (by lia))
        (by rw [List.length_append, length_bits]; lia)
      have hsplit := bits_add_lsbFirst 32 (n - 32) value
      rw [Nat.add_sub_cancel' (by lia)] at hsplit
      rw [hloBits, List.append_assoc, ← hsplit] at hput
      split at hput <;> rename_i hlt
      · rwa [if_pos hlt]
      · rwa [if_neg hlt]

theorem Writes.putSbits (h : Writes order size s out) {n : Nat} (hn : n ≤ 31) (value : Int)
    (hfits : out.length + n ≤ 8 * size) :
    Writes order size (putSbits order s n value)
      (out ++ bits order n (value % 2 ^ n).toNat) := by
  have hpos : (0 : Int) < 2 ^ n := by positivity
  have hclip : (value % 2 ^ 32).toNat &&& (2 ^ n - 1) = (value % 2 ^ n).toNat := by
    obtain ⟨m, hm⟩ := Int.eq_ofNat_of_zero_le (Int.emod_nonneg value (by decide : (2 : Int) ^ 32 ≠ 0))
    have hdvd : (2 : Int) ^ n ∣ 2 ^ 32 := pow_dvd_pow 2 (by lia)
    have hmod : value % 2 ^ n = ((m % 2 ^ n : Nat) : Int) := by
      rw [← Int.emod_emod_of_dvd value hdvd, hm]
      push_cast
      rfl
    rw [Nat.and_two_pow_sub_one_eq_mod, hm, hmod]
    rfl
  have hlt : (value % 2 ^ n).toNat < 2 ^ n := by
    have hmod := Int.emod_lt_of_pos value hpos
    have hnonneg := Int.emod_nonneg value hpos.ne'
    zify
    rw [Int.toNat_of_nonneg hnonneg]
    exact hmod
  rw [PutBits.putSbits, hclip]
  exact h.putBits (by lia) hlt hfits

/-! ## Flushing -/

theorem putBE_shift (word : Nat) :
    putBE 4 word = UInt8.ofNat (word >>> 24) :: putBE 3 word ∧
      ∃ spare, putBE 4 ((word <<< 8) % 2 ^ 32) = putBE 3 word ++ [spare] := by
  refine ⟨by rw [Nat.shiftRight_eq_div_pow]; rfl, UInt8.ofNat ((word <<< 8) % 2 ^ 32), ?_⟩
  have hdiv : (word <<< 8) % 2 ^ 32 / 256 = word % 256 ^ 3 := by
    rw [Nat.shiftLeft_eq]
    lia
  rw [putBE_concat, hdiv, putBE_mod]

theorem putLE_shift (word : Nat) :
    putLE 4 word = UInt8.ofNat word :: putLE 3 (word >>> 8) ∧
      ∃ spare, putLE 4 (word >>> 8) = putLE 3 (word >>> 8) ++ [spare] :=
  ⟨by rw [Nat.shiftRight_eq_div_pow]; rfl, _, putLE_concat 3 (word >>> 8)⟩

theorem overwrite_byte {buf rest : Bytes} {b spare : UInt8} {p count : Nat} (hp : p < buf.length)
    (hcount : count ≤ rest.length) :
    overwrite (overwrite buf p [b]) (p + 1) ((rest ++ [spare]).take count) =
      overwrite buf p ((b :: rest).take (count + 1)) := by
  rw [List.take_append_of_le_length hcount, List.take_succ_cons]
  exact overwrite_overwrite (a := [b]) hp.le

/-- The loop stores the bytes of the word, as far as bits are pending in it. -/
theorem flushLoop_eq (order : BitOrder) {rounds count : Nat} (hcount : count = (32 - s.bitLeft + 7) / 8)
    (hrounds : count ≤ rounds) (hroom : s.bufPtr + count ≤ s.buf.length) :
    ∃ t, flushLoop order rounds s = some t ∧ t.bufPtr = s.bufPtr + count ∧ t.log = s.log ∧
      t.buf = overwrite s.buf s.bufPtr ((order.putBytes 4 s.bitBuf).take count) := by
  induction rounds generalizing s count with
  | zero =>
    obtain rfl : count = 0 := by lia
    exact ⟨s, rfl, rfl, rfl, (overwrite_nil _ _).symm⟩
  | succ rounds ih =>
    by_cases hleft : s.bitLeft < 32
    · obtain ⟨count, rfl⟩ : ∃ k, count = k + 1 := ⟨count - 1, by lia⟩
      have hlt : s.bufPtr < s.buf.length := by lia
      have hlength : ∀ b : UInt8, (overwrite s.buf s.bufPtr [b]).length = s.buf.length :=
        fun b => length_overwrite_of_le (by simpa using hlt)
      unfold flushLoop
      rw [if_pos hleft, if_pos hlt]
      cases order with
      | msbFirst =>
        obtain ⟨hfirst, spare, hnext⟩ := putBE_shift s.bitBuf
        obtain ⟨t, hloop, hptr, hlog, hbuf⟩ := ih (s := { s with
            buf := overwrite s.buf s.bufPtr [UInt8.ofNat (s.bitBuf >>> 24)]
            bufPtr := s.bufPtr + 1
            bitBuf := (s.bitBuf <<< 8) % 2 ^ 32
            bitLeft := s.bitLeft + 8 }) (show count = (32 - (s.bitLeft + 8) + 7) / 8 by lia)
          (by lia) (show s.bufPtr + 1 + count ≤ _ by rw [hlength]; lia)
        refine ⟨t, hloop, hptr.trans (Nat.add_right_comm _ _ _), hlog, hbuf.trans ?_⟩
        show overwrite _ _ ((putBE 4 ((s.bitBuf <<< 8) % 2 ^ 32)).take count) =
          overwrite s.buf s.bufPtr ((putBE 4 s.bitBuf).take (count + 1))
        rw [hnext, hfirst, overwrite_byte hlt (by rw [length_putBE]; lia)]
      | lsbFirst =>
        obtain ⟨hfirst, spare, hnext⟩ := putLE_shift s.bitBuf
        obtain ⟨t, hloop, hptr, hlog, hbuf⟩ := ih (s := { s with
            buf := overwrite s.buf s.bufPtr [UInt8.ofNat s.bitBuf]
            bufPtr := s.bufPtr + 1
            bitBuf := s.bitBuf >>> 8
            bitLeft := s.bitLeft + 8 }) (show count = (32 - (s.bitLeft + 8) + 7) / 8 by lia)
          (by lia) (show s.bufPtr + 1 + count ≤ _ by rw [hlength]; lia)
        refine ⟨t, hloop, hptr.trans (Nat.add_right_comm _ _ _), hlog, hbuf.trans ?_⟩
        show overwrite _ _ ((putLE 4 (s.bitBuf >>> 8)).take count) =
          overwrite s.buf s.bufPtr ((putLE 4 s.bitBuf).take (count + 1))
        rw [hnext, hfirst, overwrite_byte hlt (by rw [length_putLE]; lia)]
    · obtain rfl : count = 0 := by lia
      refine ⟨s, ?_, rfl, rfl, (overwrite_nil _ _).symm⟩
      unfold flushLoop
      rw [if_neg hleft]

/-- The word of which a flush stores the first bytes. -/
def flushWord (order : BitOrder) (s : PutBitContext) : Nat :=
  match order with
  | .lsbFirst => s.bitBuf
  | .msbFirst => if s.bitLeft < 32 then (s.bitBuf <<< s.bitLeft) % 2 ^ 32 else s.bitBuf

theorem take_flushWord (hleft : s.bitLeft ≤ 32) :
    (bits order 32 (flushWord order s)).take (32 - s.bitLeft) =
      bits order (32 - s.bitLeft) s.bitBuf := by
  have hlength : (bits order (32 - s.bitLeft) s.bitBuf).length = 32 - s.bitLeft := length_bits _ _
  have hwidth : 32 = 32 - s.bitLeft + s.bitLeft := by lia
  cases order with
  | msbFirst =>
    by_cases hlt : s.bitLeft < 32
    · have hjoin := bits_join_msbFirst (a := 32 - s.bitLeft) (k := 32) (m := s.bitBuf)
        (by lia) (Nat.two_pow_pos s.bitLeft)
      rw [← hwidth, Nat.or_zero] at hjoin
      rw [flushWord, if_pos hlt, hjoin, List.take_left' hlength]
    · rw [show 32 - s.bitLeft = 0 by lia]
      rfl
  | lsbFirst =>
    have hsplit := bits_add_lsbFirst (32 - s.bitLeft) s.bitLeft s.bitBuf
    rw [← hwidth] at hsplit
    rw [flushWord, hsplit, List.take_left' hlength]

theorem flushPutBits_eq :
    PutBits.flushPutBits order s =
      (flushLoop order 4 { s with bitBuf := flushWord order s }).map
        fun t => { t with bitLeft := 32, bitBuf := 0 } := by
  cases order with
  | msbFirst =>
    by_cases hlt : s.bitLeft < 32
    · simp only [PutBits.flushPutBits, flushWord, if_pos hlt]
      cases flushLoop .msbFirst 4 _ <;> rfl
    · simp only [PutBits.flushPutBits, flushWord, if_neg hlt]
      cases flushLoop .msbFirst 4 s <;> rfl
  | lsbFirst =>
    show _ = (flushLoop .lsbFirst 4 s).map _
    simp only [PutBits.flushPutBits]
    cases flushLoop .lsbFirst 4 s <;> rfl

/-- A flush stores the pending bits, and fills up the last byte. -/
theorem Writes.flushPutBits (h : Writes order size s out) (hfits : out.length ≤ 8 * size) :
    ∃ t, flushPutBits order s = some t ∧ t.buf.length = size ∧ t.bitLeft = 32 ∧ t.bitBuf = 0 ∧
      t.log = [] ∧ t.bufPtr = (out.length + 7) / 8 ∧
      (bitsOfBytes order (t.buf.take t.bufPtr)).take out.length = out := by
  have hlength := h.length_eq
  have hsize := h.size_eq
  have hptr := h.ptr_le
  have hleft := h.left_le
  obtain ⟨count, hcount⟩ : ∃ count, count = (32 - s.bitLeft + 7) / 8 := ⟨_, rfl⟩
  obtain ⟨t, hloop, htptr, hlog, hbuf⟩ := flushLoop_eq order
    (s := { s with bitBuf := flushWord order s }) hcount (show count ≤ 4 by lia)
    (show s.bufPtr + count ≤ s.buf.length by lia)
  dsimp only at htptr hlog hbuf
  have hbytes : ((order.putBytes 4 (flushWord order s)).take count).length = count := by
    rw [List.length_take, length_putBytes]
    lia
  have htake : t.buf.take t.bufPtr =
      s.buf.take s.bufPtr ++ (order.putBytes 4 (flushWord order s)).take count := by
    have hwritten : (overwrite s.buf s.bufPtr ((order.putBytes 4 (flushWord order s)).take count)).take
        (s.bufPtr + ((order.putBytes 4 (flushWord order s)).take count).length) =
          s.buf.take s.bufPtr ++ (order.putBytes 4 (flushWord order s)).take count :=
      take_overwrite (by lia)
    rw [hbytes] at hwritten
    rw [hbuf, htptr, hwritten]
  have hstored : (bitsOfBytes order (s.buf.take s.bufPtr)).length = 8 * s.bufPtr := by
    rw [length_bitsOfBytes, List.length_take, Nat.min_eq_left (by lia)]
  have hpending : 32 - s.bitLeft ≤ 8 * count := by lia
  refine ⟨{ t with bitLeft := 32, bitBuf := 0 }, ?_, ?_, rfl, rfl, hlog.trans h.log_eq, ?_, ?_⟩
  · rw [flushPutBits_eq, hloop]
    rfl
  · rw [hbuf, length_overwrite_of_le (by lia), hsize]
  · show t.bufPtr = _
    lia
  · show (bitsOfBytes order (t.buf.take t.bufPtr)).take out.length = out
    have hbits : bitsOfBytes order ((order.putBytes 4 (flushWord order s)).take count) =
        (bits order 32 (flushWord order s)).take (8 * count) := by
      rw [← take_bitsOfBytes, bitsOfBytes_putBytes]
    rw [htake, bitsOfBytes_append, hbits, hlength, ← hstored, List.take_length_add_append,
      List.take_take, Nat.min_eq_left hpending, take_flushWord hleft, h.out_eq]

theorem Writes.flush_whole (h : Writes order size s out) (hfits : out.length ≤ 8 * size)
    (hwhole : out.length % 8 = 0) :
    ∃ t, PutBits.flushPutBits order s = some t ∧ Writes order size t out ∧ t.bitLeft = 32 := by
  obtain ⟨t, hflush, hsize, hleft, hbuf, hlog, hptr, hout⟩ := h.flushPutBits hfits
  refine ⟨t, hflush, ⟨hsize, by lia, by lia, by lia, fun _ => ?_, hlog, ?_⟩, hleft⟩
  · rw [hbuf]
    positivity
  · have hlength : (bitsOfBytes order (t.buf.take t.bufPtr)).length = out.length := by
      rw [length_bitsOfBytes, List.length_take]
      lia
    rw [← hlength, List.take_length] at hout
    rw [hleft, hout, Nat.sub_self, bits_zero, List.append_nil]

/-! ## Copying -/

theorem bits_rb16 (src : Bytes) (p : Nat) {k : Nat} (hk : k ≤ 16) (hsrc : 8 * p + k ≤ 8 * src.length) :
    bits .msbFirst k (rb16 src p >>> (16 - k)) = slice (bitsOfBytes .msbFirst src) (8 * p) k := by
  have hsplit := bits_add_msbFirst k (16 - k) (rb16 src p)
  rw [Nat.add_sub_cancel' hk] at hsplit
  have hword : bits .msbFirst 16 (rb16 src p) = bitsOfBytes .msbFirst (window src p 2) :=
    (bitsOfBytes_eq (window src p 2)).symm
  have hwindow := slice_window .msbFirst src (p := p) (k := 2) (i := 0) (n := k)
    (by lia) (by lia)
  rw [← hword, hsplit, slice, List.drop_zero, List.take_left' (length_bits _ _)] at hwindow
  exact hwindow

theorem rb16_lt (src : Bytes) (p : Nat) {k : Nat} (hk : k ≤ 16) :
    rb16 src p >>> (16 - k) < 2 ^ k := by
  have hlt : rb16 src p < 256 ^ 2 := getBE_lt _
  rw [Nat.shiftRight_eq_div_pow]
  apply Nat.div_lt_of_lt_mul
  rw [← Nat.pow_add, Nat.sub_add_cancel hk]
  exact hlt

variable {src : Bytes}

theorem Writes.putWords (h : Writes .msbFirst size s out) {words : Nat}
    (hsrc : 16 * words ≤ 8 * src.length) (hfits : out.length + 16 * words ≤ 8 * size) :
    Writes .msbFirst size
      ((List.range words).foldl (fun s i => PutBits.putBits .msbFirst s 16 (rb16 src (2 * i))) s)
      (out ++ slice (bitsOfBytes .msbFirst src) 0 (16 * words)) := by
  induction words with
  | zero =>
    rw [Nat.mul_zero, slice_zero, List.append_nil]
    exact h
  | succ words ih =>
    have hword := bits_rb16 src (2 * words) (Nat.le_refl 16) (by lia)
    have hlt := rb16_lt src (2 * words) (Nat.le_refl 16)
    have hlength : (slice (bitsOfBytes .msbFirst src) 0 (16 * words)).length = 16 * words := by
      rw [length_slice, length_bitsOfBytes]
      lia
    have hput := (ih (by lia) (by lia)).putBits (by decide) hlt
      (by rw [List.length_append, hlength]; lia)
    rw [Nat.sub_self, Nat.shiftRight_zero] at hword hput
    rw [hword, List.append_assoc, show 8 * (2 * words) = 16 * words by ring, slice_zero_append] at hput
    rw [List.range_succ, List.foldl_append, Nat.mul_succ]
    exact hput

/-- The bytes up to a word of the stream. -/
theorem Writes.copyToWord {rounds i : Nat} (hwhole : out.length % 8 = 0)
    (h : Writes .msbFirst size s (out ++ slice (bitsOfBytes .msbFirst src) 0 (8 * i)))
    (hrounds : (32 - (out.length + 8 * i) % 32) % 32 ≤ 8 * rounds)
    (hsrc : i + rounds ≤ src.length) (hfits : out.length + 8 * (i + rounds) ≤ 8 * size) :
    ∃ t j, copyToWord src rounds s i = (t, j) ∧ j ≤ i + rounds ∧
      Writes .msbFirst size t (out ++ slice (bitsOfBytes .msbFirst src) 0 (8 * j)) ∧
      (out.length + 8 * j) % 32 = 0 := by
  induction rounds generalizing s i with
  | zero => exact ⟨s, i, rfl, Nat.le_refl _, h, by lia⟩
  | succ rounds ih =>
    have hlength : (slice (bitsOfBytes .msbFirst src) 0 (8 * i)).length = 8 * i := by
      rw [length_slice, length_bitsOfBytes]
      lia
    have hcount := h.putBitsCount_eq
    rw [List.length_append, hlength] at hcount
    unfold PutBits.copyToWord
    by_cases hword : putBitsCount s % 32 ≠ 0
    · have hbyte : bits .msbFirst 8 (src.getD i 0).toNat =
          slice (bitsOfBytes .msbFirst src) (8 * i) 8 := by
        have hwindow := slice_window .msbFirst src (p := i) (k := 1) (i := 0) (n := 8)
          (by decide) (by lia)
        rw [Nat.add_zero] at hwindow
        rw [← hwindow]
        rfl
      have hput := h.putBits (by decide) (src.getD i 0).toNat_lt
        (by rw [List.length_append, hlength]; lia)
      rw [hbyte, List.append_assoc, slice_zero_append, ← Nat.mul_succ] at hput
      rw [if_pos hword]
      obtain ⟨t, j, hloop, hj, hwrites, hmod⟩ := ih hput (by lia) (by lia) (by lia)
      exact ⟨t, j, hloop, by lia, hwrites, hmod⟩
    · rw [if_neg hword]
      exact ⟨s, i, rfl, by lia, h, by lia⟩

theorem Writes.skipPutBytes (h : Writes .msbFirst size s out) (hleft : s.bitLeft = 32) {n : Nat}
    {bytes : Bytes} (hn : bytes.length = n) (hfits : out.length + 8 * n ≤ 8 * size) :
    ∃ t, skipPutBytes { s with buf := overwrite s.buf s.bufPtr bytes } n = some t ∧
      Writes .msbFirst size t (out ++ bitsOfBytes .msbFirst bytes) := by
  have hlength := h.length_eq
  have hsize := h.size_eq
  have hptr := h.ptr_le
  have hbuf : (overwrite s.buf s.bufPtr bytes).length = size := by
    rw [length_overwrite_of_le (by lia), hsize]
  have htake : (overwrite s.buf s.bufPtr bytes).take (s.bufPtr + n) = s.buf.take s.bufPtr ++ bytes := by
    rw [← hn]
    exact take_overwrite (by lia)
  refine ⟨_, if_pos (show (n : Int) ≤ ((overwrite s.buf s.bufPtr bytes).length : Int) - s.bufPtr by
    lia), hbuf, show s.bufPtr + n ≤ size by lia, h.left_pos, h.left_le, nofun, h.log_eq, ?_⟩
  show _ = bitsOfBytes _ ((overwrite s.buf s.bufPtr bytes).take (s.bufPtr + n)) ++
    bits _ (32 - s.bitLeft) s.bitBuf
  rw [htake, bitsOfBytes_append, h.out_eq, hleft]
  simp only [bits_zero, Nat.sub_self, List.append_nil]

/-- The pairs of bytes are copied one by one, or in one piece behind those that fill up a
word of the stream. -/
theorem Writes.copyWords (h : Writes .msbFirst size s out) (small : Bool) {words : Nat}
    (hsrc : 16 * words ≤ 8 * src.length) (hfits : out.length + 16 * words ≤ 8 * size) :
    ∃ t, copyWords small s src words = some t ∧
      Writes .msbFirst size t (out ++ slice (bitsOfBytes .msbFirst src) 0 (16 * words)) := by
  unfold PutBits.copyWords
  split
  · exact ⟨_, rfl, h.putWords hsrc hfits⟩
  · next haligned =>
    have hcount := h.putBitsCount_eq
    obtain ⟨-, haligned⟩ := not_or.mp haligned
    obtain ⟨hwords, haligned⟩ := not_or.mp haligned
    have hstart : Writes .msbFirst size s (out ++ slice (bitsOfBytes .msbFirst src) 0 (8 * 0)) := by
      rwa [Nat.mul_zero, slice_zero, List.append_nil]
    obtain ⟨u, i, hloop, hi, hu, hmod⟩ : ∃ u i, PutBits.copyToWord src 4 s 0 = (u, i) ∧ i ≤ 0 + 4 ∧
        Writes .msbFirst size u (out ++ slice (bitsOfBytes .msbFirst src) 0 (8 * i)) ∧
        (out.length + 8 * i) % 32 = 0 :=
      Writes.copyToWord (by lia) hstart (by lia) (by lia) (by lia)
    have hlength : (out ++ slice (bitsOfBytes .msbFirst src) 0 (8 * i)).length =
        out.length + 8 * i := by
      rw [List.length_append, length_slice, length_bitsOfBytes]
      lia
    obtain ⟨v, hflush, hv, hvleft⟩ := hu.flush_whole (by lia) (by lia)
    have hbytes : (slice src i (2 * words - i)).length = 2 * words - i := by
      rw [length_slice]
      lia
    obtain ⟨w, hskip, hw⟩ := hv.skipPutBytes hvleft hbytes (by lia)
    rw [← slice_bitsOfBytes, List.append_assoc, slice_zero_append,
      show 8 * i + 8 * (2 * words - i) = 16 * words by lia] at hw
    refine ⟨w, ?_, hw⟩
    rw [hloop]
    show (PutBits.flushPutBits .msbFirst u >>= _) = _
    rw [hflush]
    exact hskip

theorem Writes.avprivCopyBits (h : Writes .msbFirst size s out) (small : Bool) {length : Nat}
    (hsrc : length ≤ 8 * src.length) (hfits : out.length + length ≤ 8 * size) :
    ∃ t, avprivCopyBits small s src length = some t ∧
      Writes .msbFirst size t (out ++ (bitsOfBytes .msbFirst src).take length) := by
  have hleft := h.putBitsLeft_eq
  have hwords : length >>> 4 = length / 16 := Nat.shiftRight_eq_div_pow length 4
  have hbits : length &&& 15 = length % 16 := Nat.and_two_pow_sub_one_eq_mod length 4
  unfold PutBits.avprivCopyBits
  simp only [hwords, hbits]
  by_cases hzero : length = 0
  · rw [if_pos hzero, hzero, List.take_zero, List.append_nil]
    exact ⟨s, rfl, h⟩
  · rw [if_neg hzero, if_neg (by lia)]
    obtain ⟨t, hcopy, hwrites⟩ := h.copyWords small (show 16 * (length / 16) ≤ 8 * src.length by lia)
      (by lia)
    have hlast := bits_rb16 src (2 * (length / 16)) (k := length % 16)
      (by lia) (by lia)
    have hlt := rb16_lt src (2 * (length / 16)) (show length % 16 ≤ 16 by lia)
    have hput := hwrites.putBits (by lia) hlt
      (by rw [List.length_append, length_slice, length_bitsOfBytes]; lia)
    rw [hlast, List.append_assoc, show 8 * (2 * (length / 16)) = 16 * (length / 16) by ring,
      slice_zero_append, Nat.div_add_mod] at hput
    refine ⟨_, ?_, hput⟩
    rw [hcopy]
    rfl

end FFmpeg.Libavcodec.PutBitsStream
