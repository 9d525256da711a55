import FFmpeg.Libavutil.Utf8
import Mathlib.Data.Nat.Bitwise

/-!
# The decoder accepts exactly UTF-8

A sequence of `n + 1` bytes is a first byte with its ones in front and `n` digits to the base 64.
The decoder reads the value of the sequence back; it is the encoding of a character if it is as
short as it can be.
-/

namespace FFmpeg.Libavutil.Utf8

open Common

variable {p rest : Bytes} {c code w top k m n v : Nat}

/-! ## Sequences -/

/-- The last `m` digits of a value to the base 64, in the bytes that follow the first. -/
def contBytes : Nat → Nat → Bytes
  | 0, _ => []
  | m + 1, v => UInt8.ofNat (0x80 + v / 64 ^ m % 64) :: contBytes m v

@[simp] theorem length_contBytes (m v : Nat) : (contBytes m v).length = m := by
  induction m with
  | zero => rfl
  | succ m ih => simp [contBytes, ih]

theorem contBytes_mul_add (m a v : Nat) : contBytes m (a * 64 ^ m + v) = contBytes m v := by
  induction m generalizing a with
  | zero => rfl
  | succ m ih =>
    have hsplit : a * 64 ^ (m + 1) + v = a * 64 * 64 ^ m + v := by ring
    have hdigit : (a * 64 * 64 ^ m + v) / 64 ^ m % 64 = v / 64 ^ m % 64 := by
      rw [Nat.add_comm, Nat.add_mul_div_right _ _ (by positivity), Nat.add_mul_mod_self_right]
    rw [contBytes, contBytes, hsplit, hdigit, ih]

/-- The ones in front of a byte that `n` bytes follow, and the value they give it. -/
def lead (n : Nat) : Nat := if n = 0 then 0 else 256 - 2 ^ (7 - n)

/-- The ones in front of a first byte. -/
structure LeadOnes (n c : Nat) : Prop where
  ones : ∀ k < n, c.testBit (6 - k) = true
  zero : c.testBit (6 - n) = false

/-! ## The loop -/

theorem code_and_top (hk : k ≤ 6) (hw : w < 64 ^ k) :
    (c * 64 ^ k + w) &&& 2 ^ (6 + 5 * k) = 0 ↔ c.testBit (6 - k) = false := by
  have hpow : 64 ^ k = 2 ^ (6 * k) := by
    rw [pow_mul]
    rfl
  rw [hpow] at hw ⊢
  have hbit : (c * 2 ^ (6 * k) + w).testBit (6 + 5 * k) = c.testBit (6 - k) := by
    rw [Nat.mul_comm, Nat.testBit_two_pow_mul_add c hw, if_neg (by lia)]
    congr 1
    lia
  rw [Nat.and_two_pow, hbit]
  cases c.testBit (6 - k) with
  | true => simp
  | false => simp

theorem tailLoop_stop (h : code &&& top = 0) (p : Bytes) (n : Nat) :
    tailLoop p code top n = some (code, top, n, p) := by
  rw [tailLoop.eq_def, if_pos h]

theorem tailLoop_nil (h : code &&& top ≠ 0) (n : Nat) : tailLoop [] code top n = none := by
  rw [tailLoop, if_neg h]

theorem tailLoop_cons (h : code &&& top ≠ 0) (b : UInt8) (p : Bytes) (n : Nat) :
    tailLoop (b :: p) code top n =
      if 128 ≤ b.toNat ∧ b.toNat < 192 then
        tailLoop p (code * 64 + (b.toNat - 128)) ((top <<< 5) % 2 ^ 32) (n + 1)
      else none := by
  have hbyte : ((b.toNat : Int) - 128) >>> (6 : Nat) ≠ 0 ↔ ¬ (128 ≤ b.toNat ∧ b.toNat < 192) := by
    rw [Int.shiftRight_eq_div_pow]
    lia
  rw [tailLoop, if_neg h]
  dsimp only
  split_ifs with hmore hrange hrange
  · exact absurd hrange (hbyte.1 hmore)
  · rfl
  · have htmp : ((b.toNat : Int) - 128).toNat = b.toNat - 128 := by lia
    rw [htmp, Nat.shiftLeft_eq]
  · exact absurd (hbyte.2 hrange) hmore

theorem tailLoop_round (hones : LeadOnes n c) (hk : k < n) (hn : n ≤ 5) (hw : w < 64 ^ k)
    (b : UInt8) (p : Bytes) :
    tailLoop (b :: p) (c * 64 ^ k + w) (2 ^ (6 + 5 * k)) k =
      if 128 ≤ b.toNat ∧ b.toNat < 192 then
        tailLoop p (c * 64 ^ (k + 1) + (w * 64 + (b.toNat - 128))) (2 ^ (6 + 5 * (k + 1))) (k + 1)
      else none := by
  have hset : (c * 64 ^ k + w) &&& 2 ^ (6 + 5 * k) ≠ 0 := by
    rw [Ne, code_and_top (by lia) hw, hones.ones k hk]
    simp
  have hcode : (c * 64 ^ k + w) * 64 + (b.toNat - 128) =
      c * 64 ^ (k + 1) + (w * 64 + (b.toNat - 128)) := by
    rw [pow_succ]
    ring
  have htop : (2 ^ (6 + 5 * k)) <<< 5 % 2 ^ 32 = 2 ^ (6 + 5 * (k + 1)) := by
    rw [Nat.shiftLeft_eq, ← pow_add]
    exact Nat.mod_eq_of_lt (Nat.pow_lt_pow_right (by decide) (by lia))
  rw [tailLoop_cons hset, hcode, htop]

/-- The loop takes the digits. -/
theorem tailLoop_contBytes (hones : LeadOnes n c) (hn : n ≤ 5) (hm : k + m = n) (hw : w < 64 ^ k)
    (hv : v < 64 ^ m) (rest : Bytes) :
    tailLoop (contBytes m v ++ rest) (c * 64 ^ k + w) (2 ^ (6 + 5 * k)) k =
      some (c * 64 ^ n + (w * 64 ^ m + v), 2 ^ (6 + 5 * n), n, rest) := by
  induction m generalizing k w v with
  | zero =>
    have hkn : k = n := hm
    subst hkn
    have hv : v = 0 := Nat.lt_one_iff.1 hv
    rw [tailLoop_stop ((code_and_top (by lia) hw).2 hones.zero), hv, pow_zero, mul_one]
    rfl
  | succ m ih =>
    have hdigit : v / 64 ^ m < 64 := by
      rw [Nat.div_lt_iff_lt_mul (by positivity), ← pow_succ']
      exact hv
    obtain ⟨digit, low, hsplit, hlow⟩ : ∃ digit low, v = digit * 64 ^ m + low ∧ low < 64 ^ m :=
      ⟨v / 64 ^ m, v % 64 ^ m, (Nat.div_add_mod' v (64 ^ m)).symm, Nat.mod_lt _ (by positivity)⟩
    have hquot : v / 64 ^ m = digit := by
      rw [hsplit, Nat.add_comm, Nat.add_mul_div_right _ _ (by positivity), Nat.div_eq_of_lt hlow,
        Nat.zero_add]
    rw [hquot] at hdigit
    have hbyte : (UInt8.ofNat (0x80 + digit % 64)).toNat = 128 + digit := by
      rw [UInt8.toNat_ofNat', Nat.mod_eq_of_lt hdigit]
      lia
    have hnext : w * 64 + digit < 64 ^ (k + 1) := by
      rw [pow_succ]
      lia
    have hvalue : (w * 64 + digit) * 64 ^ m + low = w * 64 ^ (m + 1) + v := by
      rw [hsplit, pow_succ]
      ring
    have hrange : 128 ≤ 128 + digit ∧ 128 + digit < 192 := by lia
    rw [contBytes, hquot, List.cons_append, tailLoop_round hones (by lia) hn hw, hbyte,
      if_pos hrange, Nat.add_sub_cancel_left, hsplit, contBytes_mul_add, ← hsplit,
      ih (by lia) hnext hlow, hvalue]

/-- What the loop accepts is made of digits. -/
theorem contBytes_of_tailLoop (hones : LeadOnes n c) (hn : n ≤ 5) (hm : k + m = n)
    (hw : w < 64 ^ k) {r : Nat × Nat × Nat × Bytes}
    (h : tailLoop p (c * 64 ^ k + w) (2 ^ (6 + 5 * k)) k = some r) :
    ∃ v rest, v < 64 ^ m ∧ p = contBytes m v ++ rest := by
  induction m generalizing k w p with
  | zero => exact ⟨0, p, by simp, rfl⟩
  | succ m ih =>
    cases p with
    | nil =>
      have hset : (c * 64 ^ k + w) &&& 2 ^ (6 + 5 * k) ≠ 0 := by
        rw [Ne, code_and_top (by lia) hw, hones.ones k (by lia)]
        simp
      rw [tailLoop_nil hset] at h
      cases h
    | cons b p =>
      rw [tailLoop_round hones (by lia) hn hw] at h
      split_ifs at h with hrange
      have hnext : w * 64 + (b.toNat - 128) < 64 ^ (k + 1) := by
        rw [pow_succ]
        lia
      obtain ⟨v, rest, hv, rfl⟩ := ih (by lia) hnext h
      refine ⟨(b.toNat - 128) * 64 ^ m + v, rest, ?_, ?_⟩
      · have hmul : (b.toNat - 128) * 64 ^ m ≤ 63 * 64 ^ m := Nat.mul_le_mul_right _ (by lia)
        rw [pow_succ]
        lia
      · have hdigit : ((b.toNat - 128) * 64 ^ m + v) / 64 ^ m = b.toNat - 128 := by
          rw [Nat.add_comm, Nat.add_mul_div_right _ _ (by positivity), Nat.div_eq_of_lt hv,
            Nat.zero_add]
        have hbyte : UInt8.ofNat (0x80 + (b.toNat - 128) % 64) = b := by
          apply UInt8.toNat_inj.mp
          rw [UInt8.toNat_ofNat']
          lia
        rw [contBytes, hdigit, hbyte, contBytes_mul_add]
        rfl

/-! ## Whole sequences -/

/-- The values that a sequence with `n` bytes behind the first has room for. -/
def limit (n : Nat) : Nat := if n = 0 then 2 ^ 7 else 2 ^ (6 + 5 * n)

/-- A sequence. -/
def sequence (n v : Nat) : Bytes := UInt8.ofNat (lead n + v / 64 ^ n) :: contBytes n v

@[simp] theorem length_sequence (n v : Nat) : (sequence n v).length = n + 1 := by
  rw [sequence, List.length_cons, length_contBytes]

/-- What the first byte of a longer sequence looks like. -/
structure First (n c : Nat) : Prop where
  leadOnes : LeadOnes n c
  notCont : ¬ (c &&& 0xC0 = 0x80 ∨ 0xFE ≤ c)
  top : (c &&& 128) >>> 1 = 2 ^ 6
  byte : c < 256

instance (n c : Nat) : Decidable (LeadOnes n c) :=
  decidable_of_iff ((∀ k < n, c.testBit (6 - k) = true) ∧ c.testBit (6 - n) = false)
    ⟨fun h => ⟨h.1, h.2⟩, fun h => ⟨h.ones, h.zero⟩⟩

theorem first_of_range (hn : 0 < n) (hn' : n ≤ 5) (hc : lead n ≤ c)
    (hc' : c < lead n + 2 ^ (6 - n)) : First n c := by
  have hall : ∀ n < 6, 0 < n → ∀ d < 2 ^ (6 - n), LeadOnes n (lead n + d) ∧
      ¬ ((lead n + d) &&& 0xC0 = 0x80 ∨ 0xFE ≤ lead n + d) ∧ ((lead n + d) &&& 128) >>> 1 = 2 ^ 6 ∧
      lead n + d < 256 := by
    decide +kernel
  obtain ⟨d, rfl⟩ := Nat.exists_eq_add_of_le hc
  obtain ⟨hones, hcont, htop, hbyte⟩ := hall n (by lia) hn d (by lia)
  exact ⟨hones, hcont, htop, hbyte⟩

theorem exists_lead (hc : 192 ≤ c) (hc' : c < 0xFE) :
    ∃ n, 0 < n ∧ n ≤ 5 ∧ lead n ≤ c ∧ c < lead n + 2 ^ (6 - n) := by
  rcases Nat.lt_or_ge c 0xE0 with h | h
  · exact ⟨1, by decide, by decide, hc, h⟩
  rcases Nat.lt_or_ge c 0xF0 with h' | h'
  · exact ⟨2, by decide, by decide, h, h'⟩
  rcases Nat.lt_or_ge c 0xF8 with h | h
  · exact ⟨3, by decide, by decide, h', h⟩
  rcases Nat.lt_or_ge c 0xFC with h' | h'
  · exact ⟨4, by decide, by decide, h, h'⟩
  · exact ⟨5, by decide, by decide, h', hc'⟩

theorem masked (hn : 0 < n) (hn' : n ≤ 5) (hv : v < limit n) :
    (lead n * 64 ^ n + v) &&& (((2 ^ (6 + 5 * n) <<< 1) % 2 ^ 32 + (2 ^ 32 - 1)) % 2 ^ 32) = v := by
  rw [limit, if_neg (by lia)] at hv
  have hmask : ((2 ^ (6 + 5 * n) <<< 1) % 2 ^ 32 + (2 ^ 32 - 1)) % 2 ^ 32 =
      2 ^ (7 + 5 * n) - 1 := by
    interval_cases n <;> decide
  have hones : lead n * 64 ^ n = (2 ^ (n + 1) - 1) * 2 ^ (7 + 5 * n) := by
    interval_cases n <;> decide
  have hlt : v < 2 ^ (7 + 5 * n) := hv.trans (Nat.pow_lt_pow_right (by decide) (by lia))
  rw [hmask, Nat.and_two_pow_sub_one_eq_mod, hones, Nat.add_comm, Nat.add_mul_mod_self_right,
    Nat.mod_eq_of_lt hlt]

/-- A sequence is decoded to its value, if that is not too small for it. -/
theorem avUtf8Decode_sequence (flags : Utf8Flags) (hn : n ≤ 5) (hv : v < limit n) (rest : Bytes) :
    avUtf8Decode flags (sequence n v ++ rest) =
      if v < overlongEncodingMins.getD n 0 then some ⟨eilseq, none, n + 1⟩
      else some ⟨rangeCheck flags v, some v, n + 1⟩ := by
  have hsmall : v < 2 ^ 31 := by
    refine hv.trans_le ?_
    unfold limit
    split_ifs
    · decide
    · exact Nat.pow_le_pow_right (by decide) (by lia)
  rcases Nat.eq_zero_or_pos n with rfl | hpos
  · have hv : v < 128 := hv
    have hbyte : (UInt8.ofNat (lead 0 + v / 64 ^ 0)).toNat = v := by
      rw [UInt8.toNat_ofNat', lead, if_pos rfl, pow_zero, Nat.div_one]
      lia
    have hall : ∀ v < 128, ¬ (v &&& 0xC0 = 0x80 ∨ 0xFE ≤ v) ∧ (v &&& 128) >>> 1 = 0 := by
      decide +kernel
    have hmask : v &&& (((0 <<< 1) % 2 ^ 32 + (2 ^ 32 - 1)) % 2 ^ 32) = v := by
      show v &&& (2 ^ 32 - 1) = v
      rw [Nat.and_two_pow_sub_one_eq_mod, Nat.mod_eq_of_lt (by lia)]
    rw [sequence, contBytes, List.cons_append, List.nil_append, avUtf8Decode, hbyte]
    dsimp only
    rw [if_neg (hall v hv).1, (hall v hv).2, tailLoop_stop (Nat.and_zero v)]
    dsimp only
    rw [hmask, if_neg (by decide), if_neg (Nat.not_le.2 hsmall), Nat.sub_self]
  · have hroom : v < 64 ^ n * 2 ^ (6 - n) := by
      rw [limit, if_neg (by lia)] at hv
      refine hv.trans_eq ?_
      interval_cases n <;> decide
    have hhigh : v / 64 ^ n < 2 ^ (6 - n) := Nat.div_lt_of_lt_mul hroom
    have hfirst : First n (lead n + v / 64 ^ n) :=
      first_of_range hpos hn (Nat.le_add_right _ _) (Nat.add_lt_add_left hhigh _)
    have hbyte : (UInt8.ofNat (lead n + v / 64 ^ n)).toNat = lead n + v / 64 ^ n := by
      rw [UInt8.toNat_ofNat', Nat.mod_eq_of_lt hfirst.byte]
    have hlow : contBytes n v = contBytes n (v % 64 ^ n) := by
      have hsplit := Nat.div_add_mod' v (64 ^ n)
      rw [← contBytes_mul_add n (v / 64 ^ n) (v % 64 ^ n), hsplit]
    have hloop := tailLoop_contBytes hfirst.leadOnes hn (Nat.zero_add n) (w := 0) (by simp)
      (Nat.mod_lt v (show 0 < 64 ^ n by positivity)) rest
    have hcode : (lead n + v / 64 ^ n) * 64 ^ n + (0 * 64 ^ n + v % 64 ^ n) =
        lead n * 64 ^ n + v := by
      have hsplit := Nat.div_add_mod' v (64 ^ n)
      linear_combination hsplit
    rw [hcode, ← hlow, pow_zero, Nat.mul_one, Nat.add_zero] at hloop
    rw [sequence, List.cons_append, avUtf8Decode, hbyte]
    dsimp only
    rw [if_neg hfirst.notCont, hfirst.top, hloop]
    dsimp only
    have hadvance : 1 + ((contBytes n v ++ rest).length - rest.length) = n + 1 := by
      rw [List.length_append, length_contBytes]
      lia
    rw [masked hpos hn hv, if_neg (by lia), if_neg (Nat.not_le.2 hsmall), hadvance]

/-- Everything else is an error that takes one byte. -/
theorem avUtf8Decode_cases (flags : Utf8Flags) (c : UInt8) (p : Bytes) :
    avUtf8Decode flags (c :: p) = some ⟨eilseq, none, 1⟩ ∨
      ∃ n v rest, n ≤ 5 ∧ v < limit n ∧ c :: p = sequence n v ++ rest := by
  rcases Nat.lt_or_ge c.toNat 128 with hascii | hhigh
  · refine Or.inr ⟨0, c.toNat, p, by decide, hascii, ?_⟩
    simp [sequence, contBytes, lead]
  by_cases hexcluded : c.toNat &&& 0xC0 = 0x80 ∨ 0xFE ≤ c.toNat
  · left
    rw [avUtf8Decode]
    exact if_pos hexcluded
  have hrange : 192 ≤ c.toNat ∧ c.toNat < 0xFE := by
    have hall : ∀ c < 256, 128 ≤ c → ¬ (c &&& 0xC0 = 0x80 ∨ 0xFE ≤ c) → 192 ≤ c ∧ c < 0xFE := by
      decide +kernel
    exact hall c.toNat c.toNat_lt hhigh hexcluded
  obtain ⟨n, hpos, hn, hlead, hlead'⟩ := exists_lead hrange.1 hrange.2
  have hfirst := first_of_range hpos hn hlead hlead'
  cases hloop : tailLoop p c.toNat (2 ^ 6) 0 with
  | none =>
    left
    rw [avUtf8Decode]
    dsimp only
    rw [if_neg hexcluded, hfirst.top, hloop]
  | some r =>
    right
    have hzero : tailLoop p (c.toNat * 64 ^ 0 + 0) (2 ^ (6 + 5 * 0)) 0 = some r := by
      rw [pow_zero, Nat.mul_one]
      exact hloop
    obtain ⟨low, rest, hlow, rfl⟩ := contBytes_of_tailLoop hfirst.leadOnes hn (Nat.zero_add n)
      (by simp) hzero
    have hquot : ((c.toNat - lead n) * 64 ^ n + low) / 64 ^ n = c.toNat - lead n := by
      rw [Nat.add_comm, Nat.add_mul_div_right _ _ (by positivity), Nat.div_eq_of_lt hlow,
        Nat.zero_add]
    refine ⟨n, (c.toNat - lead n) * 64 ^ n + low, rest, hn, ?_, ?_⟩
    · have hpow : limit n = 2 ^ (6 - n) * 64 ^ n := by
        rw [limit, if_neg (by lia)]
        interval_cases n <;> decide
      have hdigits : (c.toNat - lead n + 1) * 64 ^ n ≤ 2 ^ (6 - n) * 64 ^ n :=
        Nat.mul_le_mul_right _ (by lia)
      rw [hpow]
      rw [Nat.add_mul, Nat.one_mul] at hdigits
      lia
    · rw [sequence, hquot, Nat.add_sub_cancel' hlead, UInt8.ofNat_toNat, contBytes_mul_add]
      rfl

/-! ## Characters -/

/-- A value that needs the sequence it is in. -/
def Shortest (n v : Nat) : Prop := overlongEncodingMins.getD n 0 ≤ v ∧ v < limit n

theorem char_range (ch : Char) :
    ch.toNat < 0xD800 ∨ 0xDFFF < ch.toNat ∧ ch.toNat < 0x110000 := ch.valid

theorem exists_char {v : Nat} (h : v < 0xD800 ∨ 0xDFFF < v ∧ v < 0x110000) :
    ∃ ch : Char, ch.toNat = v := ⟨⟨UInt32.ofNatLT v (by
      rcases h with h | ⟨-, h⟩ <;> exact h.trans (by decide)), h⟩, rfl⟩

theorem exists_shortest_of_lt {v : Nat} (hv : v < 0x200000) : ∃ n, n ≤ 3 ∧ Shortest n v := by
  rcases Nat.lt_or_ge v 0x80 with h | h
  · exact ⟨0, by decide, Nat.zero_le _, h⟩
  rcases Nat.lt_or_ge v 0x800 with h' | h'
  · exact ⟨1, by decide, h, h'⟩
  rcases Nat.lt_or_ge v 0x10000 with h | h
  · exact ⟨2, by decide, h', h⟩
  · exact ⟨3, by decide, h, hv⟩

theorem exists_shortest (ch : Char) : ∃ n, n ≤ 3 ∧ Shortest n ch.toNat := by
  have hle := char_range ch
  exact exists_shortest_of_lt (by lia)

/-- The encoding of a character is the shortest sequence of its value. -/
theorem utf8EncodeChar_eq {ch : Char} (hn : n ≤ 3) (h : Shortest n ch.toNat) :
    String.utf8EncodeChar ch = sequence n ch.toNat := by
  obtain ⟨hmin, hlimit⟩ := h
  have hval : ch.val.toNat = ch.toNat := rfl
  unfold String.utf8EncodeChar
  rw [hval]
  obtain ⟨v, hv⟩ : ∃ v, v = ch.toNat := ⟨_, rfl⟩
  rw [← hv] at hmin hlimit ⊢
  dsimp only
  have hone : ∀ w : Nat, w / 64 ^ 0 = w := fun w => Nat.div_one w
  interval_cases n
  · have hlimit : v < 128 := hlimit
    rw [if_pos (by lia), sequence, contBytes, lead, if_pos rfl, hone, Nat.zero_add]
  · have hmin : 0x80 ≤ v := hmin
    have hlimit : v < 0x800 := hlimit
    have hlead : v / 64 % 0x20 + 0xC0 = lead 1 + v / 64 := by
      show _ = 192 + v / 64
      lia
    rw [if_neg (by lia), if_pos (by lia), hlead, Nat.add_comm (v % 64)]
    simp only [sequence, contBytes, hone, pow_one]
  · have hmin : 0x800 ≤ v := hmin
    have hlimit : v < 0x10000 := hlimit
    have hlead : v / 4096 % 0x10 + 0xE0 = lead 2 + v / 4096 := by
      show _ = 224 + v / 4096
      lia
    rw [if_neg (by lia), if_neg (by lia), if_pos (by lia), hlead, Nat.add_comm (v / 64 % 64),
      Nat.add_comm (v % 64)]
    simp only [sequence, contBytes, pow_one, Nat.reducePow, Nat.div_one]
  · have hmin : 0x10000 ≤ v := hmin
    have hlimit : v < 0x200000 := hlimit
    have hlead : v / 262144 % 0x08 + 0xF0 = lead 3 + v / 262144 := by
      show _ = 240 + v / 262144
      lia
    rw [if_neg (by lia), if_neg (by lia), if_neg (by lia), hlead,
      Nat.add_comm (v / 4096 % 64), Nat.add_comm (v / 64 % 64), Nat.add_comm (v % 64)]
    simp only [sequence, contBytes, pow_one, Nat.reducePow, Nat.div_one]

theorem putTail_eq (v m : Nat) : putTail v (6 * m) = contBytes m v := by
  induction m with
  | zero => rfl
  | succ m ih =>
    have hdigit := Nat.mod_lt (v / 64 ^ m) (show 0 < 2 ^ 6 by decide)
    have hpow : 2 ^ (6 * m) = 64 ^ m := by
      rw [pow_mul]
      rfl
    have hor : 0x80 ||| v / 64 ^ m % 64 = 0x80 + v / 64 ^ m % 64 :=
      (Nat.two_pow_add_eq_or_of_lt hdigit 2).symm
    have hand : v / 64 ^ m &&& 0x3F = v / 64 ^ m % 64 := Nat.and_two_pow_sub_one_eq_mod _ 6
    rw [Nat.mul_succ, putTail, contBytes, ih, Nat.shiftRight_eq_div_pow, hpow, hand, hor]

/-- `PUT_UTF8` writes the shortest sequence. -/
theorem putUtf8_eq (hn : n ≤ 5) (h : Shortest n v) : putUtf8 v = sequence n v := by
  obtain ⟨hmin, hlimit⟩ := h
  rcases Nat.eq_zero_or_pos n with rfl | hpos
  · have hlimit : v < 128 := hlimit
    rw [putUtf8, if_pos hlimit, sequence, contBytes, lead, if_pos rfl, pow_zero, Nat.div_one,
      Nat.zero_add]
  have hbounds : 2 ^ (5 * n + 1) ≤ v ∧ 2 ^ 7 ≤ v ∧ v < 2 ^ (5 * n + 6) := by
    rw [limit, if_neg (by lia), Nat.add_comm] at hlimit
    interval_cases n
    · exact ⟨le_trans (by decide) hmin, hmin, hlimit⟩
    · exact ⟨hmin, le_trans (by decide) hmin, hlimit⟩
    · exact ⟨hmin, le_trans (by decide) hmin, hlimit⟩
    · exact ⟨hmin, le_trans (by decide) hmin, hlimit⟩
    · exact ⟨hmin, le_trans (by decide) hmin, hlimit⟩
  have hbytes : (v.log2 + 4) / 5 = n + 1 := by
    have hne : v ≠ 0 := by lia
    have hlow : 5 * n + 1 ≤ v.log2 := (Nat.le_log2 hne).2 hbounds.1
    have hlow' : 7 ≤ v.log2 := (Nat.le_log2 hne).2 hbounds.2.1
    have hhigh : v.log2 < 5 * n + 6 := (Nat.log2_lt hne).2 hbounds.2.2
    lia
  have hpow : 2 ^ (6 * n) = 64 ^ n := by
    rw [pow_mul]
    rfl
  have hhigh : v / 64 ^ n < 2 ^ (6 - n) := by
    apply Nat.div_lt_of_lt_mul
    rw [← hpow, ← pow_add, show 6 * n + (6 - n) = 5 * n + 6 by lia]
    exact hbounds.2.2
  have hlead : (256 - 256 >>> (n + 1)) ||| v / 64 ^ n = lead n + v / 64 ^ n := by
    have hsplit : 256 - 256 >>> (n + 1) = 2 ^ (6 - n) * (2 ^ (n + 2) - 2) ∧
        lead n = 2 ^ (6 - n) * (2 ^ (n + 2) - 2) := by
      interval_cases n <;> decide
    rw [hsplit.1, hsplit.2]
    exact (Nat.two_pow_add_eq_or_of_lt hhigh _).symm
  have hlarge : ¬ v < 0x80 := Nat.not_lt.2 hbounds.2.1
  rw [putUtf8, if_neg hlarge]
  dsimp only
  rw [hbytes, Nat.add_sub_cancel, Nat.mul_comm n 6, putTail_eq,
    Nat.shiftRight_eq_div_pow v (6 * n), hpow, hlead]
  rfl

theorem rangeCheck_eq_zero_iff (v : Nat) :
    rangeCheck {} v = 0 ↔ v ≤ 0x10FFFF ∧ ¬ (0xD800 ≤ v ∧ v ≤ 0xDFFF) ∧ v ≠ 0xFFFE ∧ v ≠ 0xFFFF := by
  have heilseq : eilseq ≠ 0 := by decide
  unfold rangeCheck
  split_ifs with hbig hxml hsurrogate hnon
  · exact iff_of_false heilseq (by lia)
  · exact absurd hxml.2.2.2.2 (by simp)
  · exact iff_of_false heilseq (by lia)
  · exact iff_of_false heilseq (by lia)
  · refine iff_of_true rfl ?_
    simp only [and_true] at hbig hsurrogate hnon
    lia

theorem putUtf8_char (ch : Char) : putUtf8 ch.toNat = String.utf8EncodeChar ch := by
  obtain ⟨n, hn, hshort⟩ := exists_shortest ch
  rw [utf8EncodeChar_eq hn hshort, putUtf8_eq (by lia) hshort]

theorem avUtf8Decode_char {ch : Char} (hnon : ch.toNat ≠ 0xFFFE) (hnon' : ch.toNat ≠ 0xFFFF)
    (rest : Bytes) :
    avUtf8Decode {} (String.utf8EncodeChar ch ++ rest) =
        some ⟨0, some ch.toNat, (String.utf8EncodeChar ch).length⟩ ∧
      putUtf8 ch.toNat = String.utf8EncodeChar ch := by
  obtain ⟨n, hn, hshort⟩ := exists_shortest ch
  have hrange := char_range ch
  have hcheck : rangeCheck {} ch.toNat = 0 := (rangeCheck_eq_zero_iff _).2 (by lia)
  refine ⟨?_, putUtf8_char ch⟩
  rw [utf8EncodeChar_eq hn hshort, avUtf8Decode_sequence {} (by lia) hshort.2,
    if_neg (Nat.not_lt.2 hshort.1), hcheck, length_sequence]

/-- **`av_utf8_decode` accepts exactly UTF-8**: without flags it returns 0 if and only if the buffer
begins with the encoding of a character other than U+FFFE and U+FFFF; it gives that character and
takes its bytes, which `PUT_UTF8` writes again.  An error takes a byte at least, and none behind the
buffer. -/
theorem avUtf8Decode_utf8 (buffer : Bytes) (hbuffer : buffer ≠ []) :
    ∃ d, avUtf8Decode {} buffer = some d ∧
      (d.ret = 0 ↔ ∃ ch : Char, ch.toNat ≠ 0xFFFE ∧ ch.toNat ≠ 0xFFFF ∧
        String.utf8EncodeChar ch <+: buffer) ∧
      (∀ ch : Char, ch.toNat ≠ 0xFFFE → ch.toNat ≠ 0xFFFF → String.utf8EncodeChar ch <+: buffer →
        d.codep = some ch.toNat ∧ d.advance = (String.utf8EncodeChar ch).length ∧
          putUtf8 ch.toNat = buffer.take d.advance) ∧
      (d.ret ≠ 0 → 1 ≤ d.advance ∧ d.advance ≤ buffer.length) := by
  have heilseq : eilseq ≠ 0 := by decide
  have hchar : ∀ ch : Char, ch.toNat ≠ 0xFFFE → ch.toNat ≠ 0xFFFF →
      String.utf8EncodeChar ch <+: buffer →
      avUtf8Decode {} buffer = some ⟨0, some ch.toNat, (String.utf8EncodeChar ch).length⟩ ∧
        putUtf8 ch.toNat = buffer.take (String.utf8EncodeChar ch).length := by
    rintro ch hnon hnon' ⟨rest, rfl⟩
    obtain ⟨hdecode, hput⟩ := avUtf8Decode_char hnon hnon' rest
    exact ⟨hdecode, by rw [hput, List.take_left]⟩
  obtain ⟨d, hd, herror, haccept⟩ : ∃ d, avUtf8Decode {} buffer = some d ∧
      (d.ret ≠ 0 → 1 ≤ d.advance ∧ d.advance ≤ buffer.length) ∧
      (d.ret = 0 → ∃ ch : Char, ch.toNat ≠ 0xFFFE ∧ ch.toNat ≠ 0xFFFF ∧
        String.utf8EncodeChar ch <+: buffer) := by
    cases buffer with
    | nil => exact absurd rfl hbuffer
    | cons c p =>
      rcases avUtf8Decode_cases {} c p with hfail | ⟨n, v, rest, hn, hv, hsplit⟩
      · exact ⟨_, hfail, fun _ => ⟨Nat.le_refl 1, by simp⟩, fun h => absurd h heilseq⟩
      · have hdecode := avUtf8Decode_sequence {} hn hv rest
        have htaken : n + 1 ≤ (sequence n v ++ rest).length := by
          rw [List.length_append, length_sequence]
          exact Nat.le_add_right _ _
        rw [hsplit]
        split_ifs at hdecode with hoverlong
        · exact ⟨_, hdecode, fun _ => ⟨Nat.succ_pos n, htaken⟩, fun h => absurd h heilseq⟩
        · refine ⟨_, hdecode, fun _ => ⟨Nat.succ_pos n, htaken⟩, fun h => ?_⟩
          obtain ⟨hbig, hsurrogate, hnon, hnon'⟩ := (rangeCheck_eq_zero_iff v).1 h
          obtain ⟨ch, rfl⟩ : ∃ ch : Char, ch.toNat = v := exists_char (by lia)
          have hthree : n ≤ 3 := by
            by_contra hlong
            have hmin : 0x200000 ≤ overlongEncodingMins.getD n 0 := by
              interval_cases n
              · exact Nat.le_refl _
              · show 0x200000 ≤ 0x04000000
                decide
            lia
          refine ⟨ch, hnon, hnon', rest, ?_⟩
          rw [utf8EncodeChar_eq hthree ⟨Nat.le_of_not_lt hoverlong, hv⟩]
  refine ⟨d, hd, ⟨haccept, ?_⟩, ?_, herror⟩
  · rintro ⟨ch, hnon, hnon', hfront⟩
    rw [(hchar ch hnon hnon' hfront).1] at hd
    rw [← Option.some.inj hd]
  · intro ch hnon hnon' hfront
    obtain ⟨hdecode, hput⟩ := hchar ch hnon hnon' hfront
    rw [hdecode] at hd
    rw [← Option.some.inj hd]
    exact ⟨rfl, rfl, hput⟩

/-- The sign of the euro, and a byte behind it. -/
theorem avUtf8Decode_utf8_euro :
    ∃ d, avUtf8Decode {} [0xE2, 0x82, 0xAC, 0x78] = some d ∧
      (d.ret = 0 ↔ ∃ ch : Char, ch.toNat ≠ 0xFFFE ∧ ch.toNat ≠ 0xFFFF ∧
        String.utf8EncodeChar ch <+: [0xE2, 0x82, 0xAC, 0x78]) := by
  obtain ⟨d, hd, hret, -⟩ := avUtf8Decode_utf8 [0xE2, 0x82, 0xAC, 0x78] (by simp)
  exact ⟨d, hd, hret⟩

end FFmpeg.Libavutil.Utf8
