import FFmpeg.Common.BitSlots
import FFmpeg.Libavcodec.Vlc

/-!
# Codewords and slots

A slot of a table stands for the bits with which it is reached.  A code of the table fills the
slots whose bits begin with its codeword; a longer code goes to the one slot with the first bits
of its codeword.
-/

namespace FFmpeg.Libavcodec.Vlc

open Common Libavutil

/-- The codeword of a code in `buf`. -/
def codeword (c : VLCcode) : List Bool := (bits .msbFirst 32 c.code.toNat).take c.bits

/-- There is nothing in `code` behind the codeword. -/
structure Justified (c : VLCcode) : Prop where
  bits_le : c.bits ≤ 32
  dvd : 2 ^ (32 - c.bits) ∣ c.code.toNat

/-- The codeword as a number. -/
def codeValue (le : Bool) (c : VLCcode) : Nat :=
  if le then (bitswap32 c.code).toNat else c.code.toNat >>> (32 - c.bits)

/-- The order of the bits. -/
def bitOrder (le : Bool) : BitOrder := if le then .lsbFirst else .msbFirst

variable {c d : VLCcode} {le : Bool} {t j : Nat}

section Bitswap

theorem bitswap32_eq (x : BitVec 32) : bitswap32 x = x.reverse := by
  apply BitVec.eq_of_getLsbD_eq
  intro i hi
  rw [BitVec.getLsbD_reverse, BitVec.getMsbD_eq_getLsbD]
  simp only [bitswap32, ffReverse, BitVec.getLsbD_or, BitVec.getLsbD_shiftLeft,
    BitVec.getLsbD_setWidth, BitVec.getLsbD_reverse, BitVec.getMsbD_eq_getLsbD,
    BitVec.getLsbD_ushiftRight]
  interval_cases i <;> simp

theorem testBit_bitswap32 (x : BitVec 32) {i : Nat} (hi : i < 32) :
    (bitswap32 x).toNat.testBit i = x.toNat.testBit (31 - i) := by
  show (bitswap32 x).getLsbD i = x.getLsbD (31 - i)
  rw [bitswap32_eq, BitVec.getLsbD_reverse, BitVec.getMsbD_eq_getLsbD]
  simp [hi]

theorem bits_bitswap32 (x : BitVec 32) :
    bits .lsbFirst 32 (bitswap32 x).toNat = bits .msbFirst 32 x.toNat := by
  apply List.map_congr_left
  intro i hi
  exact testBit_bitswap32 x (List.mem_range.1 hi)

end Bitswap

section Words

theorem length_codeword (h : c.bits ≤ 32) : (codeword c).length = c.bits := by
  rw [codeword, List.length_take, length_bits, Nat.min_eq_left h]

theorem getElem?_codeword (h : c.bits ≤ 32) (i : Nat) :
    (codeword c)[i]? = if i < c.bits then some (c.code.toNat.testBit (31 - i)) else none := by
  rw [codeword, List.getElem?_take, getElem?_bits]
  by_cases hi : i < c.bits
  · rw [if_pos hi, if_pos hi, if_pos (by lia)]
    rfl
  · rw [if_neg hi, if_neg hi]

theorem codeword_eq (h : c.bits ≤ 32) :
    codeword c = bits (bitOrder le) c.bits (codeValue le c) := by
  cases le with
  | false => exact bits_take_msbFirst h _
  | true =>
    rw [codeword, ← bits_bitswap32]
    exact bits_take_lsbFirst h _

theorem Justified.testBit (h : Justified c) {i : Nat} (hi : i < 32 - c.bits) :
    c.code.toNat.testBit i = false := by
  obtain ⟨k, hk⟩ := h.dvd
  rw [hk, Nat.testBit_two_pow_mul, decide_eq_false (by lia), Bool.false_and]

theorem Justified.codeValue_lt (h : Justified c) : codeValue le c < 2 ^ c.bits := by
  have hle := h.bits_le
  cases le with
  | false =>
    show c.code.toNat >>> (32 - c.bits) < 2 ^ c.bits
    rw [Nat.shiftRight_eq_div_pow, Nat.div_lt_iff_lt_mul (Nat.two_pow_pos _), ← Nat.pow_add,
      Nat.add_sub_cancel' hle]
    exact c.code.isLt
  | true =>
    apply Nat.lt_pow_two_of_testBit
    intro i hi
    by_cases hlt : i < 32
    · show (bitswap32 c.code).toNat.testBit i = false
      rw [testBit_bitswap32 _ hlt]
      exact h.testBit (by lia)
    · exact Nat.testBit_lt_two_pow ((bitswap32 c.code).isLt.trans_le
        (Nat.pow_le_pow_right (by decide) (by lia)))

theorem Justified.slot_iff (h : Justified c) (le : Bool) (ht : c.bits ≤ t) (htop : t ≤ 32) :
    (∃ k < 2 ^ (t - c.bits), j = firstSlot le t c + k * slotInc le c) ↔
      j < 2 ^ t ∧ codeword c <+: bits (bitOrder le) t j := by
  rw [codeword_eq h.bits_le, ← Common.slot_iff (bitOrder le) ht h.codeValue_lt]
  have hfirst : firstSlot le t c = (bitOrder le).slotStart c.bits t (codeValue le c) := by
    cases le with
    | false =>
      show (c.code >>> (32 - t)).toNat = c.code.toNat >>> (32 - c.bits) * 2 ^ (t - c.bits)
      obtain ⟨k, hk⟩ := h.dvd
      have hsplit : 2 ^ (32 - c.bits) = 2 ^ (32 - t) * 2 ^ (t - c.bits) := by
        rw [← Nat.pow_add]
        congr 1
        lia
      rw [BitVec.toNat_ushiftRight, Nat.shiftRight_eq_div_pow, Nat.shiftRight_eq_div_pow, hk,
        Nat.mul_div_cancel_left _ (Nat.two_pow_pos _), hsplit, Nat.mul_assoc,
        Nat.mul_div_cancel_left _ (Nat.two_pow_pos _), Nat.mul_comm]
    | true => rfl
  have hinc : slotInc le c = (bitOrder le).slotStep c.bits := by cases le <;> rfl
  rw [hfirst, hinc]

/-- The slot of a longer code has the first bits of its codeword. -/
theorem bits_subtableSlot (le : Bool) (ht : t ≤ c.bits) (hc : c.bits ≤ 32) :
    subtableSlot le t c < 2 ^ t ∧
      bits (bitOrder le) t (subtableSlot le t c) = (codeword c).take t := by
  have hlt : ∀ x : BitVec 32, (x >>> (32 - t)).toNat < 2 ^ t := by
    intro x
    rw [BitVec.toNat_ushiftRight, Nat.shiftRight_eq_div_pow,
      Nat.div_lt_iff_lt_mul (Nat.two_pow_pos _), ← Nat.pow_add,
      Nat.add_sub_cancel' (Nat.le_trans ht hc)]
    exact x.isLt
  have htake : (codeword c).take t = (bits .msbFirst 32 c.code.toNat).take t := by
    rw [codeword, List.take_take, Nat.min_eq_left ht]
  rw [htake]
  cases le with
  | false =>
    refine ⟨hlt c.code, ?_⟩
    rw [bits_take_msbFirst (Nat.le_trans ht hc)]
    rfl
  | true =>
    refine ⟨hlt _, ?_⟩
    apply List.ext_getElem?
    intro i
    rw [getElem?_bits, List.getElem?_take, getElem?_bits]
    by_cases hi : i < t
    · rw [if_pos hi, if_pos hi, if_pos (by lia)]
      congr 1
      show (bitswap32 (c.code >>> (32 - t)) >>> (32 - t)).toNat.testBit i =
        c.code.toNat.testBit (31 - i)
      rw [BitVec.toNat_ushiftRight, Nat.testBit_shiftRight, testBit_bitswap32 _ (by lia),
        BitVec.toNat_ushiftRight, Nat.testBit_shiftRight]
      congr 1
      lia
    · rw [if_neg hi, if_neg hi]

theorem Justified.shorten (h : Justified c) (ht : t ≤ c.bits) : Justified (shorten t c) := by
  have hle := h.bits_le
  refine ⟨Nat.le_trans (Nat.sub_le _ _) hle, ?_⟩
  show 2 ^ (32 - (c.bits - t)) ∣ (c.code <<< t).toNat
  have hpow : 2 ^ (32 - (c.bits - t)) = 2 ^ (32 - c.bits) * 2 ^ t := by
    rw [← Nat.pow_add]
    congr 1
    lia
  rw [BitVec.toNat_shiftLeft, Nat.shiftLeft_eq]
  apply (Nat.dvd_mod_iff (Nat.pow_dvd_pow 2 (by lia))).2
  rw [hpow]
  exact Nat.mul_dvd_mul_right h.dvd _

theorem codeword_shorten (t : Nat) (hc : c.bits ≤ 32) :
    codeword (shorten t c) = (codeword c).drop t := by
  apply List.ext_getElem?
  intro i
  have hle : (Vlc.shorten t c).bits ≤ 32 := Nat.le_trans (Nat.sub_le _ _) hc
  rw [getElem?_codeword hle, List.getElem?_drop, getElem?_codeword hc]
  show (if i < c.bits - t then some ((c.code <<< t).toNat.testBit (31 - i)) else none) = _
  by_cases hi : i < c.bits - t
  · rw [if_pos hi, if_pos (by lia), BitVec.toNat_shiftLeft, Nat.testBit_mod_two_pow,
      Nat.testBit_shiftLeft, decide_eq_true (by lia), decide_eq_true (by lia),
      Bool.true_and, Bool.true_and]
    congr 2
    lia
  · rw [if_neg hi, if_neg (by lia)]

end Words

section Codes

/-- The codes have the same first bits. -/
def SameFront (t : Nat) (d c : VLCcode) : Prop := d.code >>> (32 - t) = c.code >>> (32 - t)

/-- The slot `j` belongs to the code `c` of a table of `2 ^ t` slots or leads to it. -/
def Covers (le : Bool) (t : Nat) (c : VLCcode) (j : Nat) : Prop :=
  (codeword c).take t <+: bits (bitOrder le) t j

/-- Two codes that no reader can tell apart: one is the beginning of the other, and they are not
the same code with the same symbol. -/
def Ambiguous (d c : VLCcode) : Prop :=
  (codeword d <+: codeword c ∨ codeword c <+: codeword d) ∧
    ¬ (codeword d = codeword c ∧ d.symbol = c.symbol)

theorem sameFront_iff (ht : t ≤ 32) :
    SameFront t d c ↔
      (bits .msbFirst 32 d.code.toNat).take t = (bits .msbFirst 32 c.code.toNat).take t := by
  have hlt : ∀ x : BitVec 32, x.toNat >>> (32 - t) < 2 ^ t := by
    intro x
    rw [Nat.shiftRight_eq_div_pow, Nat.div_lt_iff_lt_mul (Nat.two_pow_pos _), ← Nat.pow_add,
      Nat.add_sub_cancel' ht]
    exact x.isLt
  rw [bits_take_msbFirst ht, bits_take_msbFirst ht, SameFront, ← BitVec.toNat_inj,
    BitVec.toNat_ushiftRight, BitVec.toNat_ushiftRight]
  constructor
  · intro h
    rw [h]
  · exact bits_injective (hlt _) (hlt _)

theorem take_codeword (ht : t ≤ c.bits) :
    (codeword c).take t = (bits .msbFirst 32 c.code.toNat).take t := by
  rw [codeword, List.take_take, Nat.min_eq_left ht]

theorem covers_iff_begins (ht : c.bits ≤ t) (hc : c.bits ≤ 32) :
    Covers le t c j ↔ codeword c <+: bits (bitOrder le) t j := by
  rw [Covers, List.take_of_length_le (by rw [length_codeword hc]; exact ht)]

theorem covers_iff_eq (ht : t ≤ c.bits) (hc : c.bits ≤ 32) (hj : j < 2 ^ t) :
    Covers le t c j ↔ j = subtableSlot le t c := by
  obtain ⟨hlt, hbits⟩ := bits_subtableSlot le ht hc
  rw [Covers, ← hbits]
  constructor
  · intro h
    exact bits_injective hj hlt (h.eq_of_length (by simp)).symm
  · rintro rfl
    exact List.prefix_rfl

theorem Justified.exists_covers (h : Justified c) (le : Bool) (htop : t ≤ 32) :
    ∃ j < 2 ^ t, Covers le t c j := by
  by_cases ht : c.bits ≤ t
  · obtain ⟨hlt, hbegins⟩ := (h.slot_iff le ht htop).1
      ⟨0, Nat.two_pow_pos _, by rw [Nat.zero_mul, Nat.add_zero]⟩
    exact ⟨_, hlt, (covers_iff_begins ht h.bits_le).2 hbegins⟩
  · have hle : t ≤ c.bits := by lia
    have hlt := (bits_subtableSlot le hle h.bits_le).1
    exact ⟨_, hlt, (covers_iff_eq hle h.bits_le hlt).2 rfl⟩

theorem Covers.of_begins (h : Covers le t d j) (hp : codeword c <+: codeword d) :
    Covers le t c j := (hp.take t).trans h

theorem SameFront.covers_iff (h : SameFront t d c) (hd : t ≤ d.bits) (hc : t ≤ c.bits)
    (htop : t ≤ 32) : Covers le t d j ↔ Covers le t c j := by
  rw [Covers, Covers, take_codeword hd, take_codeword hc, (sameFront_iff htop).1 h]

theorem SameFront.covers (h : SameFront t d c) (hd : d.bits ≤ t) (hc : t ≤ c.bits)
    (htop : t ≤ 32) (hcover : Covers le t c j) : Covers le t d j := by
  rw [Covers, take_codeword hc, ← (sameFront_iff htop).1 h] at hcover
  rw [Covers, List.take_of_length_le (by rw [length_codeword (by lia)]; exact hd), codeword]
  exact (List.take_prefix_take_left hd).trans hcover

theorem sameFront_of_begins (h : codeword d <+: codeword c ∨ codeword c <+: codeword d)
    (hd : t ≤ d.bits) (hc : t ≤ c.bits) (hd' : d.bits ≤ 32) (hc' : c.bits ≤ 32) :
    SameFront t d c := by
  rw [sameFront_iff (hd.trans hd'), ← take_codeword hd, ← take_codeword hc]
  have hlength : ((codeword d).take t).length = ((codeword c).take t).length := by
    rw [List.length_take, List.length_take, length_codeword hd', length_codeword hc',
      Nat.min_eq_left hd, Nat.min_eq_left hc]
  rcases h with h | h
  · exact (h.take t).eq_of_length hlength
  · exact ((h.take t).eq_of_length hlength.symm).symm

theorem Ambiguous.shorten (h : Ambiguous d c) (hd : t ≤ d.bits) (hc : t ≤ c.bits)
    (hd' : d.bits ≤ 32) (hc' : c.bits ≤ 32) : Ambiguous (shorten t d) (shorten t c) := by
  have hfront := (sameFront_iff (hd.trans hd')).1 (sameFront_of_begins h.1 hd hc hd' hc')
  rw [← take_codeword hd, ← take_codeword hc] at hfront
  rw [Ambiguous, codeword_shorten t hd', codeword_shorten t hc']
  refine ⟨h.1.imp (fun hp => hp.drop t) (fun hp => hp.drop t), ?_⟩
  rintro ⟨hdrop, hsymbol⟩
  refine h.2 ⟨?_, hsymbol⟩
  rw [← List.take_append_drop t (codeword d), hfront, hdrop, List.take_append_drop]

theorem not_ambiguous (hbits : d.bits = c.bits) (hsymbol : d.symbol = c.symbol)
    (hd : d.bits ≤ 32) (hc : c.bits ≤ 32) : ¬ Ambiguous d c := by
  rintro ⟨hbegins, hne⟩
  have hlength : (codeword d).length = (codeword c).length := by
    rw [length_codeword hd, length_codeword hc, hbits]
  refine hne ⟨?_, hsymbol⟩
  rcases hbegins with h | h
  · exact h.eq_of_length hlength
  · exact (h.eq_of_length hlength.symm).symm

theorem Ambiguous.exists_covers (h : Ambiguous d c) (le : Bool) (hd : Justified d)
    (hc : Justified c) (ht : t ≤ 32) : ∃ j < 2 ^ t, Covers le t d j ∧ Covers le t c j := by
  rcases h.1 with hp | hp
  · obtain ⟨j, hj, hcover⟩ := hc.exists_covers le ht
    exact ⟨j, hj, hcover.of_begins hp, hcover⟩
  · obtain ⟨j, hj, hcover⟩ := hd.exists_covers le ht
    exact ⟨j, hj, hcover, hcover.of_begins hp⟩

end Codes

end FFmpeg.Libavcodec.Vlc
