import FFmpeg.Libavformat.NutHeaderRuns

/-!
# The table in the main header of a NUT file

The demuxer reads the runs of the muxer, but it does not always get the table of frame codes:
a run with another header index than the run before it and with a length that has to be coded
is written without its header index.
-/

namespace FFmpeg.Libavformat.NutHeader

open Common Libavutil Crc Nut Nut.AVIOContext NutFrameCode

/-! ## The table -/

/-- The runs of a table from a code on: the first code and the number of codes. -/
def runs (codes : List FrameCode) : Nat → Nat → List (FrameCode × Nat)
  | 0, _ => []
  | rounds + 1, i =>
    if i < 256 then
      let run := runLoop codes (codeAt codes i) 256 i 0
      (codeAt codes i, run.2) :: runs codes rounds run.1
    else []

/-- A run is invalid, or it has the header index of the run before it, or its length is
known from its sizes. -/
def KeepsHeaderIdx (before run : FrameCode × Nat) : Prop :=
  run.1.flags = flagInvalid ∨ run.1.headerIdx = before.1.headerIdx ∨
    (run.2 : Int) = run.1.sizeMul - run.1.sizeLsb

variable {nbStreams : Nat} {codes codes' : List FrameCode} {bc : AVIOContext}

/-- The demuxer is at the start of a run of the muxer, or at `'N'` in front of it. -/
def AtRun (i d : Nat) : Prop := d = i ∨ d = codeN ∧ i = codeN + 1

theorem lt_of_runLoop (codes : List FrameCode) {i i' j : Nat} (hi : i < 256) (hiN : i ≠ codeN)
    (h : runLoop codes (codeAt codes i) 256 i 0 = (i', j)) : i < i' := by
  have hself : continues (codeAt codes i) (codeAt codes i) 0 := by simp [continues]
  rw [runLoop, if_pos hi, if_neg hiN, if_pos hself] at h
  have hspec := runLoop_spec h hi (by lia)
  lia

/-- **One run** is read: the demuxer gets to the next run, and has filled what is between. -/
theorem readFrameCodes_run (h : FrameTable nbStreams codes) (hstreams : nbStreams ≤ 250)
    {i d : Nat} (hi : i < 256) (hiN : i ≠ codeN) (hd : AtRun i d) {tmp tmp' : Tmp}
    (hpts : tmp'.pts = tmp.pts) (hmul : tmp'.mul = tmp.mul) (hstream : tmp'.stream = tmp.stream)
    {i' j : Nat} (hrun : runLoop codes (codeAt codes i) 256 i 0 = (i', j))
    (hlength : codes'.length = 256) {idx : Nat} (hidxLt : idx < 7)
    (hidx : (tmp'.after (codeAt codes i) (runFields tmp (codeAt codes i) j)).headIdx = idx)
    (rounds : Nat) {tail : Bytes}
    (hrest : bc.rest = putRun (codeAt codes i) (runFields tmp (codeAt codes i) j) j ++ tail) :
    ∃ d' filled, AtRun i' d' ∧ d ≤ d' ∧ filled.length = 256 ∧
      (∀ k, i ≤ k → k < i' → k ≠ codeN → k < d' ∧
        continues (codeAt codes i) (codeAt codes k) (k - i - passed i k) ∧
        codeAt filled k = { codeAt codes k with headerIdx := idx }) ∧
      (∀ k < d, codeAt filled k = codeAt codes' k) ∧
      (d ≤ codeN → codeN < d' → (codeAt filled codeN).flags = flagInvalid) ∧
      readFrameCodes nbStreams (rounds + 1) d tmp' codes' bc =
        readFrameCodes nbStreams rounds d' (tmp'.after (codeAt codes i)
          (runFields tmp (codeAt codes i) j)) filled
          (bc.advance (putRun (codeAt codes i) (runFields tmp (codeAt codes i) j) j).length) := by
  have hcodeN : codeN = 78 := rfl
  have hfirst := h.inRange i hi
  have hid := hfirst.streamId
  have hprogress := lt_of_runLoop codes hi hiN hrun
  obtain ⟨hle, hle', hneN, hcount, hcontinues⟩ := runLoop_spec hrun hi.le (by lia)
  have hfieldsLe := (runFields_spec tmp (codeAt codes i) j).1
  -- how many codes there are, from where the muxer and from where the demuxer is
  have hj : 0 < j ∧ j ≤ 256 ∧ j + d + (if d ≤ codeN then 1 else 0) ≤ 256 ∧
      AtRun i' (d + j + passed d (d + j)) ∧ d + j + passed d (d + j) ≤ 256 := by
    unfold AtRun passed at *
    rcases hd with rfl | ⟨rfl, rfl⟩
    · split_ifs at hcount ⊢ <;> lia
    · split_ifs at hcount ⊢ <;> lia
  obtain ⟨hpos, hjLe, hroom, hat, hend⟩ := hj
  obtain ⟨next, hnext⟩ : ∃ next, next =
      tmp'.after (codeAt codes i) (runFields tmp (codeAt codes i) j) := ⟨_, rfl⟩
  have hnextStream : toUnsigned 32 next.stream = (codeAt codes i).streamId := by
    rw [hnext]
    exact toUnsigned_thirtyTwo (by lia)
  have hread := readRun_putRun hfirst (by lia) hpts hmul hstream hjLe hrest
  rw [← hnext] at hread hidx ⊢
  obtain ⟨hfillEnd, hfillLength, hfill⟩ := fillRun_spec
    (runCode next (codeAt codes i).flags (codeAt codes i).sizeLsb 0) (j := 0) hlength hend
  refine ⟨_, _, hat, by lia, hfillLength, fun k hk hk' hkN => ?_, fun k hk => ?_, ?_, ?_⟩
  · have hcontinuesK := hcontinues k hk hk' hkN
    rw [Nat.zero_add] at hcontinuesK
    have hbetween : d ≤ k ∧ k < d + j + passed d (d + j) := by
      unfold AtRun passed at *
      rcases hd with rfl | ⟨rfl, rfl⟩
      · split_ifs at hcount ⊢ <;> lia
      · split_ifs at hcount ⊢ <;> lia
    have hindex : k - d - passed d k = k - i - passed i k := by
      unfold AtRun passed at *
      rcases hd with rfl | ⟨rfl, rfl⟩
      · rfl
      · split_ifs <;> lia
    refine ⟨hbetween.2, hcontinuesK, ?_⟩
    rw [hfill k, if_pos hbetween, if_neg hkN, Nat.zero_add, hindex, hnext]
    rw [hnext] at hidx
    exact runCode_eq hstreams hfirst (h.inRange k (by lia)) hcontinuesK hidx hidxLt
  · rw [hfill k, if_neg (by lia)]
  · intro hdN hd'N
    rw [hfill codeN, if_pos ⟨hdN, hd'N⟩, if_pos rfl]
  · have hdLt : d < 256 := by
      unfold AtRun at hd
      lia
    have hskip : ((runFields tmp (codeAt codes i) j : Int) - 8).toNat = 0 := by lia
    have hcountOk : ¬ ((j : Int) ≤ 0 ∨ (j : Int) > 256 - (if d ≤ codeN then 1 else 0) - d) := by
      split_ifs at hroom ⊢ <;> lia
    rw [readFrameCodes, if_pos hdLt, hread]
    dsimp only
    rw [hskip, skipFields, if_neg (by simp), if_neg hcountOk, hnextStream, if_neg (by lia),
      Int.toNat_natCast, hfillEnd]

theorem runs_cons {rounds i : Nat} (hi : i < 256) {i' j : Nat}
    (hrun : runLoop codes (codeAt codes i) 256 i 0 = (i', j)) :
    runs codes (rounds + 1) i = (codeAt codes i, j) :: runs codes rounds i' := by
  rw [runs, if_pos hi, hrun]

theorem writeFrameCodes_cons {rounds i : Nat} (hi : i < 256) {i' j : Nat}
    (hrun : runLoop codes (codeAt codes i) 256 i 0 = (i', j)) (tmp : Tmp) :
    writeFrameCodes codes (rounds + 1) i tmp =
      putRun (codeAt codes i) (runFields tmp (codeAt codes i) j) j ++
        writeFrameCodes codes rounds i' (Tmp.next (codeAt codes i)) := by
  rw [writeFrameCodes, if_pos hi]
  dsimp only
  rw [hrun]

theorem runs_end (codes : List FrameCode) (rounds : Nat) : runs codes rounds 256 = [] := by
  cases rounds <;> rfl

/-- What the demuxer has read from a code of the muxer on: all but the header index. -/
structure ReadFrom (codes : List FrameCode) (i d : Nat) (codes' read : List FrameCode) : Prop where
  length : read.length = 256
  kept : ∀ k < d, k ≠ codeN → codeAt read k = codeAt codes' k
  invalid : (codeAt read codeN).flags = flagInvalid
  code : ∀ k, i ≤ k → k < 256 → k ≠ codeN →
    ∃ idx, codeAt read k = { codeAt codes k with headerIdx := idx }

/-- The valid codes from a code on have their header index. -/
def SameHeaderIdx (codes : List FrameCode) (i : Nat) (read : List FrameCode) : Prop :=
  ∀ k, i ≤ k → k < 256 → (codeAt codes k).flags ≠ flagInvalid →
    (codeAt read k).headerIdx = (codeAt codes k).headerIdx

/-- **The runs** are read back, except for the header index of a run that is written without
it.  The induction is on the runs: as long as the demuxer has the header index of the run
before, it loses the one of a run exactly when the run has another one and a coded length. -/
theorem readFrameCodes_writeFrameCodes (h : FrameTable nbStreams codes)
    (hstreams : nbStreams ≤ 250) {rounds i d : Nat} (hrounds : 257 ≤ i + rounds) (hi : i ≤ 256)
    (hiN : i ≠ codeN) (hd : AtRun i d) {tmp tmp' : Tmp} (hpts : tmp'.pts = tmp.pts)
    (hmul : tmp'.mul = tmp.mul) (hstream : tmp'.stream = tmp.stream) {idx : Nat}
    (hidx : tmp'.headIdx = idx) (hidxLt : idx < 7) (hlength : codes'.length = 256)
    (hinvalid : codeN < d → (codeAt codes' codeN).flags = flagInvalid) {tail : Bytes}
    (hrest : bc.rest = writeFrameCodes codes rounds i tmp ++ tail) :
    ∃ read, readFrameCodes nbStreams rounds d tmp' codes' bc =
        (true, read, bc.advance (writeFrameCodes codes rounds i tmp).length) ∧
      ReadFrom codes i d codes' read ∧
      ∀ before, tmp.headIdx = idx → before.1.headerIdx = idx → (i = 0 → idx = 0) →
        (SameHeaderIdx codes i read ↔ (before :: runs codes rounds i).IsChain KeepsHeaderIdx) := by
  have hcodeN : codeN = 78 := rfl
  induction rounds generalizing i d tmp tmp' codes' bc idx with
  | zero => lia
  | succ rounds ih =>
    rcases Nat.lt_or_eq_of_le hi with hlt | rfl
    · obtain ⟨⟨i', j⟩, hrun⟩ : ∃ p, runLoop codes (codeAt codes i) 256 i 0 = p := ⟨_, rfl⟩
      obtain ⟨hle, hle', hneN, hcount, -⟩ := runLoop_spec hrun hi (by lia)
      have hprogress := lt_of_runLoop codes hlt hiN hrun
      obtain ⟨fields, hfields⟩ : ∃ n, n = runFields tmp (codeAt codes i) j := ⟨_, rfl⟩
      have hfirstIdx := (h.inRange i hlt).headerIdx
      obtain ⟨idx', hidx'⟩ : ∃ n, n = if fields > 7 then (codeAt codes i).headerIdx else idx :=
        ⟨_, rfl⟩
      have hafter : (tmp'.after (codeAt codes i) fields).headIdx = idx' := by
        rw [hidx', Tmp.after, hidx]
        split_ifs <;> rfl
      have hidxLt' : idx' < 7 := by
        rw [hidx']
        split_ifs <;> lia
      rw [writeFrameCodes_cons hlt hrun, List.append_assoc] at hrest
      obtain ⟨d', filled, hd', hdd', hfilled, hcode, hkept, hfillN, hstep⟩ :=
        readFrameCodes_run h hstreams hlt hiN hd hpts hmul hstream hrun hlength hidxLt'
          (by rw [← hfields]; exact hafter) rounds hrest
      rw [← hfields] at hstep hrest
      have hinvalid' : codeN < d' → (codeAt filled codeN).flags = flagInvalid := fun hlt' => by
        rcases Nat.lt_or_ge codeN d with hdN | hdN
        · rw [hkept codeN hdN]
          exact hinvalid hdN
        · exact hfillN hdN hlt'
      obtain ⟨read, hread, hfrom, hiff⟩ := ih (by lia) hle' hneN hd'
        (show (tmp'.after (codeAt codes i) fields).pts = (Tmp.next (codeAt codes i)).pts from rfl)
        rfl rfl hafter hidxLt' hfilled hinvalid' (rest_advance_append hrest)
      have hrunCode (k : Nat) (hk : i ≤ k) (hk' : k < i') (hkN : k ≠ codeN) :
          codeAt read k = { codeAt codes k with headerIdx := idx' } := by
        obtain ⟨hkd, -, heq⟩ := hcode k hk hk' hkN
        rw [hfrom.kept k hkd hkN, heq]
      refine ⟨read, ?_, ⟨hfrom.length, fun k hk hkN => ?_, hfrom.invalid, fun k hk hk' hkN => ?_⟩,
        fun before hsame hbefore hzero => ?_⟩
      · rw [hstep, hread, writeFrameCodes_cons hlt hrun, ← hfields, List.length_append,
          advance_advance]
      · rw [hfrom.kept k (by lia) hkN, hkept k hk]
      · rcases Nat.lt_or_ge k i' with hlt' | hge
        · exact ⟨idx', hrunCode k hk hlt' hkN⟩
        · exact hfrom.code k hge hk' hkN
      · have hfieldsEq := hfields
        unfold runFields at hfieldsEq
        rw [runs_cons hlt hrun, List.isChain_cons_cons]
        by_cases hlost : idx' = (codeAt codes i).headerIdx
        · -- the header index is known from here on
          have hkeeps : KeepsHeaderIdx before (codeAt codes i, j) := by
            by_cases hcounted : (j : Int) = (codeAt codes i).sizeMul - (codeAt codes i).sizeLsb
            · exact Or.inr (Or.inr hcounted)
            · rw [if_pos hcounted] at hfieldsEq
              rw [if_neg (by lia)] at hidx'
              exact Or.inr (Or.inl (hlost.symm.trans (hidx'.trans hbefore.symm)))
          have hsplit : SameHeaderIdx codes i read ↔ SameHeaderIdx codes i' read := by
            refine ⟨fun hall k hk => hall k (by lia), fun hall k hk hk' hvalid => ?_⟩
            rcases Nat.lt_or_ge k i' with hlt' | hge
            · have hkN : k ≠ codeN := fun heq =>
                hvalid ((h.invalid k hk').mpr (Or.inr (Or.inl heq)))
              have hcontinues := of_decide_eq_true (hcode k hk hlt' hkN).2.1
              rw [hrunCode k hk hlt' hkN]
              exact hlost.trans hcontinues.2.2.2.2.2.symm
            · exact hall k hge hk' hvalid
          rw [hsplit, hiff (codeAt codes i, j) (by rw [hlost]; rfl) hlost.symm (by lia)]
          exact ⟨fun hchain => ⟨hkeeps, hchain⟩, fun hchain => hchain.2⟩
        · -- the header index is not written
          have hcounted : (j : Int) ≠ (codeAt codes i).sizeMul - (codeAt codes i).sizeLsb := by
            intro hcounted
            rw [if_neg (not_not.mpr hcounted)] at hfieldsEq
            by_cases hchanged : tmp.headIdx ≠ (codeAt codes i).headerIdx
            · rw [if_pos hchanged] at hfieldsEq
              rw [if_pos (by lia)] at hidx'
              exact hlost hidx'
            · rw [if_neg hchanged] at hfieldsEq
              rw [if_neg (by split_ifs at hfieldsEq <;> lia)] at hidx'
              lia
          rw [if_pos hcounted] at hfieldsEq
          rw [if_neg (by lia)] at hidx'
          by_cases hflags : (codeAt codes i).flags = flagInvalid
          · have hlast : i = 255 := by
              rcases (h.invalid i hlt).mp hflags with rfl | heq | heq
              · rw [h.first] at hlost
                exact absurd (hidx'.trans (hzero rfl)) hlost
              · exact absurd heq hiN
              · exact heq
            have hend : i' = 256 := by lia
            rw [hend, runs_end]
            refine ⟨fun _ => ⟨Or.inl hflags, List.isChain_singleton _⟩, fun _ k hk hk' hvalid => ?_⟩
            have hk : k = i := by lia
            rw [hk] at hvalid
            exact absurd hflags hvalid
          · refine ⟨fun hall => ?_, fun hchain => ?_⟩
            · have hsameIdx := hall i le_rfl hlt hflags
              rw [hrunCode i le_rfl hprogress hiN] at hsameIdx
              exact absurd hsameIdx hlost
            · rcases hchain.1 with hkeeps | hkeeps | hkeeps
              · exact absurd hkeeps hflags
              · exact absurd (hidx'.trans (hbefore.symm.trans hkeeps.symm)) hlost
              · exact absurd hkeeps hcounted
    · have hd : d = 256 := by
        unfold AtRun at hd
        lia
      subst hd
      refine ⟨codes', ?_, ⟨hlength, fun k _ _ => rfl, hinvalid (by lia), fun k hk hk' => ?_⟩,
        fun before _ _ _ => ?_⟩
      · rw [readFrameCodes, if_neg (by lia), writeFrameCodes, if_neg (by lia)]
        rfl
      · lia
      · rw [runs_end]
        exact ⟨fun _ => List.isChain_singleton _, fun _ k hk hk' => absurd hk (by lia)⟩

end FFmpeg.Libavformat.NutHeader
