import FFmpeg.Libavformat.NutFrameTable
import FFmpeg.Libavformat.NutHeader
import FFmpeg.Libavformat.NutPacket

/-!
# The runs of the main header of a NUT file

What a run of frame codes consists of, for the muxer that looks for its end and for the
demuxer that fills the table, and how its fields are read back.
-/

namespace FFmpeg.Libavformat.NutHeader

open Common Libavutil Crc Nut Nut.AVIOContext NutFrameCode

/-! ## Fields -/

variable {bc : AVIOContext}

variable {n : Nat}

theorem toSigned_thirtyTwo (h : n < 2 ^ 31) : toSigned 32 n = n :=
  Int.bmod_eq_of_le (by lia) (by lia)

theorem toUnsigned_thirtyTwo (h : n < 2 ^ 31) : toUnsigned 32 n = n := by
  unfold toUnsigned
  lia

variable {tail : Bytes}

theorem readField_true {v : Nat} (hv : v < 2 ^ 31) (default : Int) (h : bc.rest = putV v ++ tail) :
    readField true default bc = ((v : Int), bc.advance (putV v).length) := by
  unfold readField
  rw [if_pos rfl, ffioReadVarlen_putV (by lia) h]
  dsimp only
  rw [toSigned_thirtyTwo hv]

theorem readField_opt {c v : Nat} (hv : v < 2 ^ 31) (default : Int)
    (h : bc.rest = (if n > c then putV v else []) ++ tail) :
    readField ((n : Int) > c) default bc =
      (if n > c then (v : Int) else default, bc.advance (if n > c then putV v else []).length) := by
  by_cases hcoded : n > c
  · have hcoded' : (n : Int) > c := by lia
    rw [if_pos hcoded] at h
    rw [if_pos hcoded, if_pos hcoded, decide_eq_true hcoded']
    exact readField_true hv default h
  · have hcoded' : ¬ (n : Int) > c := by lia
    rw [readField, decide_eq_false hcoded', if_neg Bool.false_ne_true, if_neg hcoded, if_neg hcoded]
    rfl

theorem readField_eq {c v : Nat} (hv : v < 2 ^ 31) {default : Int}
    (hdefault : ¬ n > c → default = v) (h : bc.rest = (if n > c then putV v else []) ++ tail) :
    readField ((n : Int) > c) default bc =
      ((v : Int), bc.advance (if n > c then putV v else []).length) := by
  rw [readField_opt hv default h]
  split_ifs with hcoded
  · rfl
  · rw [hdefault hcoded]

theorem readSigned_eq {c : Nat} {v : Int} (hlow : -2 ^ 31 ≤ v) (hhigh : v < 2 ^ 31) {default : Int}
    (hdefault : ¬ n > c → default = v) (h : bc.rest = (if n > c then putS v else []) ++ tail) :
    readSigned ((n : Int) > c) default bc =
      (v, bc.advance (if n > c then putS v else []).length) := by
  unfold readSigned
  by_cases hcoded : n > c
  · have hcoded' : (n : Int) > c := by lia
    rw [if_pos hcoded] at h ⊢
    rw [if_pos (decide_eq_true hcoded'), getS_putS (by lia) (by lia) h]
    dsimp only
    rw [toSigned, Int.bmod_eq_of_le (by lia) (by lia)]
  · have hcoded' : ¬ (n : Int) > c := by lia
    rw [decide_eq_false hcoded', if_neg Bool.false_ne_true, hdefault hcoded, if_neg hcoded]
    rfl

theorem readSigned_skip {c v : Nat} (hv : v < 2 ^ 64) (default : Int)
    (h : bc.rest = (if n > c then putV v else []) ++ tail) :
    (readSigned ((n : Int) > c) default bc).2 =
      bc.advance (if n > c then putV v else []).length := by
  unfold readSigned
  by_cases hcoded : n > c
  · have hcoded' : (n : Int) > c := by lia
    rw [if_pos hcoded] at h ⊢
    rw [if_pos (decide_eq_true hcoded'), getS, ffioReadVarlen_putV hv h]
  · have hcoded' : ¬ (n : Int) > c := by lia
    rw [decide_eq_false hcoded', if_neg Bool.false_ne_true, if_neg hcoded]
    rfl

theorem runFields_spec (tmp : Tmp) (fc : FrameCode) (j : Nat) :
    runFields tmp fc j ≤ 8 ∧ (¬ runFields tmp fc j > 0 → tmp.pts = fc.ptsDelta) ∧
      (¬ runFields tmp fc j > 1 → tmp.mul = fc.sizeMul) ∧
      (¬ runFields tmp fc j > 2 → tmp.stream = fc.streamId) ∧
      (¬ runFields tmp fc j > 3 → (0 : Int) = fc.sizeLsb) ∧
      (¬ runFields tmp fc j > 5 → (j : Int) = fc.sizeMul - fc.sizeLsb) := by
  unfold runFields
  split_ifs <;> refine ⟨?_, ?_, ?_, ?_, ?_, ?_⟩ <;> lia

/-- What a demuxer keeps of a run: the header index only when it is written. -/
def Tmp.after (tmp : Tmp) (fc : FrameCode) (fields : Nat) : Tmp :=
  { Tmp.next fc with headIdx := if fields > 7 then fc.headerIdx else tmp.headIdx }

variable {nbStreams j : Nat}

/-- **The fields of a run are read back.** -/
theorem readRun_putRun {fc : FrameCode} (hfc : InRange nbStreams fc) (hstreams : nbStreams ≤ 2 ^ 16)
    {tmp tmp' : Tmp} (hpts : tmp'.pts = tmp.pts) (hmul : tmp'.mul = tmp.mul)
    (hstream : tmp'.stream = tmp.stream) (hj : j ≤ 256)
    (h : bc.rest = putRun fc (runFields tmp fc j) j ++ tail) :
    readRun tmp' bc = (⟨fc.flags, runFields tmp fc j, tmp'.after fc (runFields tmp fc j),
      fc.sizeLsb, 0, j⟩, bc.advance (putRun fc (runFields tmp fc j) j).length) := by
  obtain ⟨hle, hptsEq, hmulEq, hstreamEq, hsizeEq, hcountEq⟩ := runFields_spec tmp fc j
  generalize runFields tmp fc j = fields at *
  have hflags : fc.flags ≤ 8192 := hfc.flags
  have hid := hfc.streamId
  have hmulLt := hfc.sizeMul
  have hlsbLt := hfc.sizeLsb
  have hidx := hfc.headerIdx
  have hdelta := hfc.ptsDelta
  unfold putRun at h
  simp only [List.append_assoc] at h
  -- one field after the other, each with the position behind it
  have hflagsRead := readField_true (by lia) 0 h
  have h := rest_advance_append h
  have hfieldsRead := readField_true (by lia) 0 h
  have h := rest_advance_append h
  have hptsRead := readSigned_eq (by lia) (by lia) (fun hn => hpts.trans (hptsEq hn)) h
  have h := rest_advance_append h
  have hmulRead := readField_eq (by lia) (fun hn => hmul.trans (hmulEq hn)) h
  have h := rest_advance_append h
  have hstreamRead := readField_eq (by lia) (fun hn => hstream.trans (hstreamEq hn)) h
  have h := rest_advance_append h
  have hsizeRead := readField_eq (by lia) hsizeEq h
  have h := rest_advance_append h
  have hzero : ¬ fields > 4 → (0 : Int) = (0 : Nat) := fun _ => rfl
  have hresRead := readField_eq (by lia) hzero h
  have h := rest_advance_append h
  have hdefault : ¬ fields > 5 → toSigned 32 ((fc.sizeMul : Int) - fc.sizeLsb) = j := fun hn => by
    rw [← hcountEq hn]
    exact toSigned_thirtyTwo (by lia)
  have hcountRead := readField_eq (by lia) hdefault h
  have h := rest_advance_append h
  have hmatchRead := readSigned_skip (toUnsigned_lt_two_pow 64 _) 0 h
  have h := rest_advance_append h
  have hidxRead := readField_opt (by lia) tmp'.headIdx h
  rw [Nat.cast_zero] at hptsRead
  rw [Nat.cast_one] at hmulRead
  simp only [Nat.cast_ofNat, Nat.cast_zero] at hstreamRead hsizeRead hresRead hcountRead
  simp only [Nat.cast_ofNat] at hmatchRead hidxRead
  unfold readRun
  simp only [hflagsRead, hfieldsRead, hptsRead, hmulRead, hstreamRead, hsizeRead, hresRead,
    hcountRead, hmatchRead, hidxRead]
  simp only [advance_advance, putRun, List.length_append]
  rfl

/-! ## Runs -/

/-- Whether `'N'` is passed over on the way from `i` to `k`. -/
def passed (i k : Nat) : Nat := if i ≤ codeN ∧ codeN < k then 1 else 0

theorem passed_self (i : Nat) : passed i i = 0 := by
  unfold passed
  split_ifs <;> lia

theorem passed_succ {i : Nat} (hi : i ≠ codeN) (k : Nat) : passed (i + 1) k = passed i k := by
  unfold passed
  split_ifs <;> lia

variable {codes : List FrameCode} {first : FrameCode}

/-- **The end of a run** that the muxer finds, and what is in front of it. -/
theorem runLoop_spec {rounds i i' j' : Nat} (h : runLoop codes first rounds i j = (i', j'))
    (hi : i ≤ 256) (hrounds : 256 ≤ i + rounds) :
    i ≤ i' ∧ i' ≤ 256 ∧ i' ≠ codeN ∧ j' + i + passed i i' = j + i' ∧
      ∀ k, i ≤ k → k < i' → k ≠ codeN →
        continues first (codeAt codes k) (j + (k - i - passed i k)) := by
  have hcodeN : codeN = 78 := rfl
  induction rounds generalizing i j with
  | zero =>
    rw [runLoop] at h
    obtain ⟨rfl, rfl⟩ := Prod.mk.inj h
    refine ⟨le_rfl, hi, by lia, ?_, fun k hk hk' => absurd hk' (by lia)⟩
    rw [passed_self]
    lia
  | succ rounds ih =>
    rw [runLoop] at h
    by_cases hlt : i < 256
    · rw [if_pos hlt] at h
      by_cases hpass : i = codeN
      · rw [if_pos hpass] at h
        obtain ⟨hle, hle', hne, hcount, hcodes⟩ := ih h (by lia) (by lia)
        have hpassed : passed i i' = 1 := if_pos (by lia)
        have hnot : passed (i + 1) i' = 0 := if_neg (by lia)
        refine ⟨by lia, hle', hne, by lia, fun k hk hk' hkN => ?_⟩
        have hcode := hcodes k (by lia) hk' hkN
        have hnotK : passed (i + 1) k = 0 := if_neg (by lia)
        have hpassedK : passed i k = 1 := if_pos (by lia)
        rw [hnotK] at hcode
        rw [hpassedK]
        rwa [Nat.sub_sub, Nat.add_zero] at hcode
      · rw [if_neg hpass] at h
        by_cases hcontinues : continues first (codeAt codes i) j
        · rw [if_pos hcontinues] at h
          obtain ⟨hle, hle', hne, hcount, hcodes⟩ := ih h (by lia) (by lia)
          rw [passed_succ hpass] at hcount
          refine ⟨by lia, hle', hne, by lia, fun k hk hk' hkN => ?_⟩
          rcases Nat.eq_or_lt_of_le hk with rfl | hk
          · rw [passed_self, Nat.sub_self, Nat.add_zero]
            exact hcontinues
          · have hcode := hcodes k (by lia) hk' hkN
            have hindex : j + 1 + (k - (i + 1) - passed (i + 1) k) = j + (k - i - passed i k) := by
              rw [passed_succ hpass]
              unfold passed
              split_ifs <;> lia
            rwa [hindex] at hcode
        · rw [if_neg hcontinues] at h
          obtain ⟨rfl, rfl⟩ := Prod.mk.inj h
          refine ⟨le_rfl, hi, hpass, ?_, fun k hk hk' => absurd hk' (by lia)⟩
          rw [passed_self]
          lia
    · rw [if_neg hlt] at h
      obtain ⟨rfl, rfl⟩ := Prod.mk.inj h
      refine ⟨le_rfl, hi, by lia, ?_, fun k hk hk' => absurd hk' (by lia)⟩
      rw [passed_self]
      lia

theorem codeAt_set (codes : List FrameCode) (fc : FrameCode) (i k : Nat) :
    codeAt (codes.set i fc) k = if i = k ∧ i < codes.length then fc else codeAt codes k := by
  unfold codeAt
  rw [List.getD_eq_getElem?_getD, List.getD_eq_getElem?_getD, List.getElem?_set]
  by_cases hik : i = k
  · subst hik
    by_cases hi : i < codes.length
    · simp [hi]
    · simp [hi]
  · simp [hik]

/-- **A run that is filled**: the codes in it, and what is left alone. -/
theorem fillRun_spec (code : Nat → FrameCode) {left i : Nat} (hlength : codes.length = 256)
    (hle : i + left + passed i (i + left) ≤ 256) :
    (fillRun code j left i codes).1 = i + left + passed i (i + left) ∧
      (fillRun code j left i codes).2.length = 256 ∧
      ∀ k, codeAt (fillRun code j left i codes).2 k =
        if i ≤ k ∧ k < i + left + passed i (i + left) then
          if k = codeN then { codeAt codes codeN with flags := flagInvalid }
          else code (j + (k - i - passed i k))
        else codeAt codes k := by
  have hcodeN : codeN = 78 := rfl
  induction left generalizing i j codes with
  | zero =>
    rw [Nat.add_zero, passed_self]
    refine ⟨rfl, hlength, fun k => ?_⟩
    rw [if_neg (by lia), fillRun]
  | succ left ih =>
    rw [fillRun]
    by_cases hpass : i = codeN
    · have hpassed : passed i (i + (left + 1)) = 1 := if_pos (by lia)
      have hnot : passed (i + 1 + 1) (i + 1 + 1 + left) = 0 := if_neg (by lia)
      rw [hpassed] at hle ⊢
      rw [if_pos hpass, if_pos hpass]
      dsimp only
      obtain ⟨next, hnext⟩ : ∃ next, next =
          (codes.modify codeN fun ft => { ft with flags := flagInvalid }).set (i + 1) (code j) :=
        ⟨_, rfl⟩
      have hset (k : Nat) : codeAt next k = if i + 1 = k then code j
          else if i = k then { codeAt codes codeN with flags := flagInvalid }
          else codeAt codes k := by
        rw [hnext, codeAt_set, codeAt_modify, List.length_modify, hlength]
        by_cases hk : i + 1 = k
        · rw [if_pos hk, if_pos (by lia)]
        · rw [if_neg hk, if_neg (by lia)]
          by_cases hk' : i = k
          · rw [if_pos hk', if_pos (by lia), ← hk', hpass]
          · rw [if_neg hk', if_neg (by lia)]
      have hnextLength : next.length = 256 := by
        rw [hnext, List.length_set, List.length_modify, hlength]
      rw [← hnext]
      obtain ⟨hend, hlength', hcodes⟩ := ih (i := i + 1 + 1) (j := j + 1) hnextLength (by lia)
      rw [hnot] at hend hcodes
      refine ⟨by lia, hlength', fun k => ?_⟩
      rw [hcodes k, hset k]
      rcases Nat.lt_trichotomy k (i + 1) with hk | rfl | hk
      · rw [if_neg (by lia), if_neg (by lia)]
        by_cases hkN : i = k
        · rw [if_pos hkN, if_pos (by lia), if_pos (by lia)]
        · rw [if_neg hkN, if_neg (by lia)]
      · have hpassedK : passed i (i + 1) = 1 := if_pos (by lia)
        rw [if_neg (by lia), if_pos rfl, if_pos (by lia), if_neg (by lia), hpassedK]
        congr 1
        lia
      · have hpassedK : passed i k = 1 := if_pos (by lia)
        have hnotK : passed (i + 1 + 1) k = 0 := if_neg (by lia)
        by_cases hin : k < i + (left + 1) + 1
        · rw [if_pos (by lia), if_neg (by lia), if_pos (by lia), if_neg (by lia), hpassedK, hnotK]
          congr 1
          lia
        · rw [if_neg (by lia), if_neg (by lia), if_neg (by lia), if_neg (by lia)]
    · have hpassed : passed (i + 1) (i + 1 + left) = passed i (i + (left + 1)) := by
        rw [passed_succ hpass, Nat.add_assoc, Nat.add_comm 1 left]
      rw [if_neg hpass, if_neg hpass]
      have hset (k : Nat) :
          codeAt (codes.set i (code j)) k = if i = k then code j else codeAt codes k := by
        rw [codeAt_set, hlength]
        by_cases hk : i = k
        · rw [if_pos hk, if_pos (by lia)]
        · rw [if_neg hk, if_neg (by lia)]
      have hnextLength : (codes.set i (code j)).length = 256 := by rw [List.length_set, hlength]
      obtain ⟨hend, hlength', hcodes⟩ := ih (i := i + 1) (j := j + 1) hnextLength (by lia)
      rw [hpassed] at hend hcodes
      refine ⟨by lia, hlength', fun k => ?_⟩
      rw [hcodes k, hset codeN, if_neg hpass, hset k]
      rcases Nat.lt_trichotomy k i with hk | rfl | hk
      · rw [if_neg (by lia), if_neg (by lia), if_neg (by lia)]
      · rw [if_neg (by lia), if_pos rfl, if_pos (by lia), if_neg hpass, passed_self,
          Nat.sub_self, Nat.add_zero]
      · by_cases hin : k < i + (left + 1) + passed i (i + (left + 1))
        · rw [if_pos (by lia)]
          by_cases hkN : k = codeN
          · rw [if_pos hkN, if_pos (by lia), if_pos hkN]
          · rw [if_neg hkN, if_pos (by lia), if_neg hkN, passed_succ hpass]
            congr 1
            unfold passed
            split_ifs <;> lia
        · rw [if_neg (by lia), if_neg (by lia), if_neg (by lia)]

theorem eq_of_continues {fc : FrameCode} (hfirst : InRange nbStreams first)
    (hfc : InRange nbStreams fc) (h : continues first fc j) :
    fc = { first with sizeLsb := first.sizeLsb + j } := by
  obtain ⟨hpts, hflags, hstream, hmul, hlsb, hidx⟩ := of_decide_eq_true h
  have hreserved : fc.reservedCount = first.reservedCount :=
    hfc.reservedCount.trans hfirst.reservedCount.symm
  cases fc
  cases first
  simp_all

theorem runCode_eq (hstreams : nbStreams ≤ 250) {fc : FrameCode} (hfirst : InRange nbStreams first)
    (hfc : InRange nbStreams fc) (h : continues first fc j) {tmp : Tmp} {fields idx : Nat}
    (hidx : (tmp.after first fields).headIdx = idx) (hlt : idx < 7) :
    runCode (tmp.after first fields) first.flags first.sizeLsb 0 j =
      { fc with headerIdx := idx } := by
  have heq := eq_of_continues hfirst hfc h
  have hflags : first.flags ≤ 8192 := hfirst.flags
  have hid := hfirst.streamId
  have hmul := hfirst.sizeMul
  have hpts := hfirst.ptsDelta
  have hlsb : first.sizeLsb + j < 2 ^ 16 := by
    have hlsb := hfc.sizeLsb
    rwa [heq] at hlsb
  have hreserved : first.reservedCount = 0 := hfirst.reservedCount
  have hunsigned (width n : Nat) (hn : n < 2 ^ width) : toUnsigned width n = n := by
    rw [toUnsigned, ← Nat.cast_two, ← Nat.cast_pow, ← Int.natCast_mod, Int.toNat_natCast,
      Nat.mod_eq_of_lt hn]
  have hzero : toUnsigned 8 0 = 0 := rfl
  have hsigned : toSigned 16 first.ptsDelta = first.ptsDelta :=
    Int.bmod_eq_of_le (by lia) (by lia)
  rw [heq, runCode, hidx]
  dsimp only [Tmp.after, Tmp.next]
  rw [hunsigned 16 _ (by lia), hunsigned 8 _ (by lia), hunsigned 16 _ (by lia),
    ← Nat.cast_add, hunsigned 16 _ (by lia), hunsigned 8 _ (by lia), hzero, hsigned, hreserved]

end FFmpeg.Libavformat.NutHeader
