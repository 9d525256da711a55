import FFmpeg.Libavformat.NutFrameCode

/-!
# The table of frame codes

What every table of `build_frame_code` has: the fields are in the range of their types, a
stream is one of the file, and exactly three codes are invalid.
-/

namespace FFmpeg.Libavformat.NutFrameCode

open Common Nut

/-- A code whose fields are in range. -/
structure InRange (nbStreams : Nat) (fc : FrameCode) : Prop where
  flags : fc.flags ≤ flagInvalid
  streamId : fc.streamId < nbStreams
  sizeMul : fc.sizeMul < 2 ^ 16
  sizeLsb : fc.sizeLsb < 2 ^ 16
  ptsDelta : -2 ^ 15 ≤ fc.ptsDelta ∧ fc.ptsDelta < 2 ^ 15
  reservedCount : fc.reservedCount = 0
  headerIdx : fc.headerIdx < 7

/-- What `build_frame_code` gives. -/
structure FrameTable (nbStreams : Nat) (codes : List FrameCode) : Prop where
  length : codes.length = 256
  inRange : ∀ k < 256, InRange nbStreams (codeAt codes k)
  first : codeAt codes 0 = { FrameCode.zero with flags := flagInvalid }
  invalid : ∀ k < 256, (codeAt codes k).flags = flagInvalid ↔ k = 0 ∨ k = codeN ∨ k = 255

/-- A table that is being built: no code is invalid yet. -/
structure Building (nbStreams : Nat) (codes : List FrameCode) : Prop where
  length : codes.length = 256
  inRange : ∀ k, InRange nbStreams (codeAt codes k)
  valid : ∀ k, (codeAt codes k).flags < flagInvalid
  first : codeAt codes 0 = FrameCode.zero

variable {nbStreams : Nat} {codes codes' : List FrameCode}

theorem inRange_zero (h : 0 < nbStreams) : InRange nbStreams FrameCode.zero :=
  ⟨by decide, h, by decide, by decide, by decide, rfl, by decide⟩

theorem codeAt_modify (codes : List FrameCode) (f : FrameCode → FrameCode) (i k : Nat) :
    codeAt (codes.modify i f) k =
      if i = k ∧ i < codes.length then f (codeAt codes k) else codeAt codes k := by
  unfold codeAt
  rw [List.getD_eq_getElem?_getD, List.getD_eq_getElem?_getD, List.getElem?_modify]
  by_cases hik : i = k
  · subst hik
    by_cases hi : i < codes.length
    · simp [hi]
    · simp [hi]
  · simp [hik]

theorem findHeaderIdx_lt (p : MuxStream) (size : Int) (keyFrame : Bool) :
    findHeaderIdx p size keyFrame < 7 := by
  unfold findHeaderIdx
  split
  · decide
  · rename_i out _
    cases hidx : elisionHeaders.findIdx? fun header => decide (out = header) with
    | none => decide
    | some i =>
      have hlt : i < elisionHeaders.length := (List.findIdx?_eq_some_iff_getElem.mp hidx).1
      have hlength : elisionHeaders.length = 6 := rfl
      rw [Option.map_some, Option.getD_some]
      lia

theorem toUnsigned_lt_two_pow (width : Nat) (n : Int) : toUnsigned width n < 2 ^ width := by
  have hpos : (0 : Int) < 2 ^ width := by positivity
  have hlt := Int.emod_lt_of_pos n hpos
  have hnonneg := Int.emod_nonneg n hpos.ne'
  unfold toUnsigned
  zify
  rw [Int.toNat_of_nonneg hnonneg]
  exact hlt

theorem toSigned_sixteen (n : Int) : -2 ^ 15 ≤ toSigned 16 n ∧ toSigned 16 n < 2 ^ 15 := by
  unfold toSigned
  rw [Int.bmod_def]
  split_ifs <;> lia

/-! ## One change -/

/-- A change keeps a code in range and valid. -/
def KeepsRange (nbStreams : Nat) (f : FrameCode → FrameCode) : Prop :=
  ∀ fc, InRange nbStreams fc ∧ fc.flags < flagInvalid →
    InRange nbStreams (f fc) ∧ (f fc).flags < flagInvalid

variable {f : FrameCode → FrameCode}

theorem Building.modify (h : Building nbStreams codes) (hf : KeepsRange nbStreams f) {i : Nat}
    (hi : 0 < i) :
    Building nbStreams (codes.modify i f) := by
  refine ⟨by rw [List.length_modify, h.length], fun k => ?_, fun k => ?_, ?_⟩
  · rw [codeAt_modify]
    split_ifs
    · exact (hf _ ⟨h.inRange k, h.valid k⟩).1
    · exact h.inRange k
  · rw [codeAt_modify]
    split_ifs
    · exact (hf _ ⟨h.inRange k, h.valid k⟩).2
    · exact h.valid k
  · rw [codeAt_modify, if_neg fun h => absurd h.1 (by lia)]
    exact h.first

theorem Building.setCode (h : Building nbStreams codes) (hf : KeepsRange nbStreams f) {index : Int}
    (hi : 0 < index) (hset : setCode codes index f = some codes') : Building nbStreams codes' := by
  unfold NutFrameCode.setCode at hset
  split_ifs at hset with hindex
  · rw [← Option.some.inj hset]
    exact h.modify hf (by lia)

/-! ## The codes of a stream -/

variable {p : MuxStream} {streamId : Nat}

variable {start2 : Int} {state : List FrameCode × Int}

theorem Building.anyCodes (hstream : streamId < nbStreams) (keyframe0Esc : Bool)
    {keyFrames : List Bool} (h : Building nbStreams codes) (hpos : 0 < start2)
    (hcodes : anyCodes p streamId keyframe0Esc keyFrames (codes, start2) = some state) :
    Building nbStreams state.1 ∧ 0 < state.2 := by
  induction keyFrames generalizing codes start2 with
  | nil =>
    rw [NutFrameCode.anyCodes] at hcodes
    rw [← Option.some.inj hcodes]
    exact ⟨h, hpos⟩
  | cons keyFrame keyFrames ih =>
    rw [NutFrameCode.anyCodes] at hcodes
    by_cases hused : ¬ p.isAudio ∨ ¬ keyframe0Esc ∨ keyFrame
    · rw [if_pos hused] at hcodes
      obtain ⟨codes₁, hset, hrest⟩ := Option.bind_eq_some_iff.mp hcodes
      refine ih (h.setCode (fun fc hfc => ⟨?_, ?_⟩) hpos hset) (by lia) hrest
      · refine ⟨?_, hstream, by show 1 < 2 ^ 16; decide, hfc.1.sizeLsb, hfc.1.ptsDelta,
          hfc.1.reservedCount, ?_⟩
        · show (if keyFrame then flagKey else 0) ||| (flagSizeMsb ||| flagCodedPts) ≤ flagInvalid
          cases keyFrame <;> decide
        · show (if p.isAudio then findHeaderIdx p (-1) keyFrame else fc.headerIdx) < 7
          split_ifs
          · exact findHeaderIdx_lt p (-1) keyFrame
          · exact hfc.1.headerIdx
      · show (if keyFrame then flagKey else 0) ||| (flagSizeMsb ||| flagCodedPts) < flagInvalid
        cases keyFrame <;> decide
    · rw [if_neg hused] at hcodes
      exact ih h hpos hcodes

theorem Building.sizeCodes (hstream : streamId < nbStreams) (frameBytes : Int)
    {ptsPreds : List (Int × Int)} (h : Building nbStreams codes) (hpos : 0 < start2)
    (hcodes : sizeCodes p streamId frameBytes ptsPreds (codes, start2) = some state) :
    Building nbStreams state.1 ∧ 0 < state.2 := by
  induction ptsPreds generalizing codes start2 with
  | nil =>
    rw [NutFrameCode.sizeCodes] at hcodes
    rw [← Option.some.inj hcodes]
    exact ⟨h, hpos⟩
  | cons ptsPred ptsPreds ih =>
    obtain ⟨pts, pred⟩ := ptsPred
    rw [NutFrameCode.sizeCodes] at hcodes
    obtain ⟨codes₁, hset, hrest⟩ := Option.bind_eq_some_iff.mp hcodes
    refine ih (h.setCode (fun fc hfc => ⟨?_, ?_⟩) hpos hset) (by lia) hrest
    · exact ⟨by show 1 ≤ 8192; decide, hstream, toUnsigned_lt_two_pow 16 _,
        toUnsigned_lt_two_pow 16 _, toSigned_sixteen _, hfc.1.reservedCount, findHeaderIdx_lt p _ _⟩
    · show 1 < 8192
      decide

theorem Building.lsbCodes (hstream : streamId < nbStreams) (ptsDelta : Int) {start3 end3 : Int}
    (hpos : 0 < start3) {left : Nat} (hleft : left ≤ end3 - start3) (h : Building nbStreams codes)
    (hcodes : lsbCodes p streamId ptsDelta start3 end3 left codes = some codes') :
    Building nbStreams codes' := by
  induction left generalizing codes with
  | zero =>
    rw [NutFrameCode.lsbCodes] at hcodes
    rwa [← Option.some.inj hcodes]
  | succ left ih =>
    rw [NutFrameCode.lsbCodes] at hcodes
    obtain ⟨codes₁, hset, hrest⟩ := Option.bind_eq_some_iff.mp hcodes
    refine ih (by lia) (h.setCode (fun fc hfc => ⟨?_, ?_⟩) (by lia) hset) hrest
    · refine ⟨?_, hstream, toUnsigned_lt_two_pow 16 _, toUnsigned_lt_two_pow 16 _,
        toSigned_sixteen _, hfc.1.reservedCount, ?_⟩
      · show (if p.isAudio then flagKey else 0) ||| flagSizeMsb ≤ flagInvalid
        split_ifs <;> decide
      · show (if p.isAudio then findHeaderIdx p (-1) true else fc.headerIdx) < 7
        split_ifs
        · exact findHeaderIdx_lt p (-1) true
        · exact hfc.1.headerIdx
    · show (if p.isAudio then flagKey else 0) ||| flagSizeMsb < flagInvalid
      split_ifs <;> decide

/-- Behind the last code of a stream the loop has nothing to do. -/
theorem Building.predCodes (hstream : streamId < nbStreams) {end2 predCount pred : Int}
    (hpos : 0 < start2) (hcount : 0 < predCount) (hpred : 0 ≤ pred) {predTable : List Int}
    (h : Building nbStreams codes)
    (hcodes : predCodes p streamId start2 end2 predCount predTable pred codes = some codes') :
    Building nbStreams codes' := by
  induction predTable generalizing codes pred with
  | nil =>
    rw [NutFrameCode.predCodes] at hcodes
    rwa [← Option.some.inj hcodes]
  | cons value predTable ih =>
    rw [NutFrameCode.predCodes] at hcodes
    obtain ⟨codes₁, hlsb, hrest⟩ := Option.bind_eq_some_iff.mp hcodes
    refine ih (by lia) ?_ hrest
    rcases lt_or_ge start2 end2 with hlt | hge
    · have hnonneg : 0 ≤ ((end2 - start2) * pred).tdiv predCount :=
        Int.tdiv_nonneg (mul_nonneg (by lia) hpred) hcount.le
      have hmono : ((end2 - start2) * pred).tdiv predCount ≤
          ((end2 - start2) * (pred + 1)).tdiv predCount :=
        Int.tdiv_le_tdiv hcount (mul_le_mul_of_nonneg_left (by lia) (by lia))
      exact h.lsbCodes hstream _ (by lia) (by lia) hlsb
    · have hmono : ((end2 - start2) * (pred + 1)).tdiv predCount ≤
          ((end2 - start2) * pred).tdiv predCount :=
        Int.tdiv_le_tdiv hcount (mul_le_mul_of_nonpos_left (by lia) (by lia))
      rw [Int.toNat_of_nonpos (by lia)] at hlsb
      rw [NutFrameCode.lsbCodes] at hlsb
      rwa [← Option.some.inj hlsb]

theorem Building.fixedCodes (hstream : streamId < nbStreams) (hpos : 0 < start2)
    (h : Building nbStreams codes) (hcodes : fixedCodes p streamId codes start2 = some state) :
    Building nbStreams state.1 ∧ 0 < state.2 := by
  rw [NutFrameCode.fixedCodes] at hcodes
  by_cases haudio : p.isAudio
  · rw [if_pos haudio] at hcodes
    obtain ⟨bytes, -, hcodes⟩ := Option.bind_eq_some_iff.mp hcodes
    exact h.sizeCodes hstream bytes hpos hcodes
  · rw [if_neg haudio] at hcodes
    obtain ⟨codes₁, hset, hcodes⟩ := Option.bind_eq_some_iff.mp hcodes
    rw [← Option.some.inj hcodes]
    refine ⟨h.setCode (fun fc hfc => ⟨?_, ?_⟩) hpos hset, by show 0 < start2 + 1; lia⟩
    · exact ⟨by show flagKey ||| flagSizeMsb ≤ flagInvalid; decide, hstream,
        by show 1 < 2 ^ 16; decide, hfc.1.sizeLsb, toSigned_sixteen _, hfc.1.reservedCount,
        hfc.1.headerIdx⟩
    · show flagKey ||| flagSizeMsb < flagInvalid
      decide

theorem Building.streamCodes (hstream : streamId < nbStreams) {keyframe0Esc : Bool} {end2 : Int}
    (hpos : 0 < start2) (h : Building nbStreams codes)
    (hcodes : streamCodes p streamId keyframe0Esc start2 end2 codes = some codes') :
    Building nbStreams codes' := by
  rw [NutFrameCode.streamCodes] at hcodes
  obtain ⟨any, hany, hcodes⟩ := Option.bind_eq_some_iff.mp hcodes
  obtain ⟨hbuilding, hany'⟩ := h.anyCodes hstream keyframe0Esc hpos hany
  obtain ⟨fixed, hfixed, hpreds⟩ := Option.bind_eq_some_iff.mp hcodes
  obtain ⟨hbuilding', hfixed'⟩ := hbuilding.fixedCodes hstream hany' hfixed
  have hcount : 0 < ((predTable p).length : Int) := by
    unfold predTable
    split_ifs <;> decide
  exact hbuilding'.predCodes hstream hfixed' hcount le_rfl hpreds

variable {streams : List MuxStream}

theorem Building.streamsCodes {start : Nat} (hstart : 0 < start)
    (hstreams : streamId + streams.length ≤ nbStreams) (h : Building nbStreams codes)
    (hcodes : streamsCodes nbStreams start streams streamId codes = some codes') :
    Building nbStreams codes' := by
  induction streams generalizing streamId codes with
  | nil =>
    rw [NutFrameCode.streamsCodes] at hcodes
    rwa [← Option.some.inj hcodes]
  | cons p streams ih =>
    rw [NutFrameCode.streamsCodes] at hcodes
    rw [List.length_cons] at hstreams
    obtain ⟨codes₁, hstream, hrest⟩ := Option.bind_eq_some_iff.mp hcodes
    have hpos : 0 < start + (254 - start) * streamId / nbStreams := Nat.add_pos_left hstart _
    exact ih (by lia) (h.streamCodes (by lia) (by exact_mod_cast hpos) hstream) hrest

/-! ## The whole table -/

theorem building_start (h : 0 < nbStreams) :
    Building nbStreams (List.replicate 256 FrameCode.zero) := by
  have hcode (k : Nat) : codeAt (List.replicate 256 FrameCode.zero) k = FrameCode.zero := by
    rw [codeAt, List.getD_eq_getElem?_getD, List.getElem?_replicate]
    split_ifs <;> rfl
  refine ⟨List.length_replicate, fun k => ?_, fun k => ?_, hcode 0⟩
  · rw [hcode]
    exact inRange_zero h
  · rw [hcode]
    decide

/-- What the codes are after the move. -/
theorem codeAt_reserveCodes (hlength : codes.length = 256) {k : Nat} (hk : k < 256) :
    codeAt (reserveCodes codes) k =
      if k = 0 ∨ k = codeN ∨ k = 255 then
        { codeAt codes (if k ≤ codeN then k else k - 1) with flags := flagInvalid }
      else codeAt codes (if k ≤ codeN then k else k - 1) := by
  have hN : codeN = 78 := rfl
  have hmoved : codeAt (codes.take (codeN + 1) ++ ((codes.drop codeN).take (255 - codeN))) k =
      codeAt codes (if k ≤ codeN then k else k - 1) := by
    unfold codeAt
    rw [List.getD_eq_getElem?_getD, List.getD_eq_getElem?_getD, List.getElem?_append,
      List.length_take, hlength]
    by_cases hle : k ≤ codeN
    · rw [if_pos (by lia), if_pos hle, List.getElem?_take_of_lt (by lia)]
    · rw [if_neg (by lia), if_neg hle, List.getElem?_take_of_lt (by lia), List.getElem?_drop]
      congr 2
      lia
  have hmovedLength : (codes.take (codeN + 1) ++ ((codes.drop codeN).take (255 - codeN))).length =
      256 := by
    rw [List.length_append, List.length_take, List.length_take, List.length_drop]
    lia
  rw [reserveCodes]
  dsimp only
  rw [codeAt_modify, codeAt_modify, codeAt_modify]
  simp only [List.length_modify, hmovedLength, hmoved]
  rw [hN]
  split_ifs <;> first | rfl | lia

theorem length_reserveCodes (hlength : codes.length = 256) : (reserveCodes codes).length = 256 := by
  have hN : codeN = 78 := rfl
  rw [reserveCodes]
  simp only [List.length_modify, List.length_append, List.length_take, List.length_drop]
  lia

theorem Building.reserve (h : Building nbStreams codes) :
    FrameTable nbStreams (reserveCodes codes) := by
  refine ⟨length_reserveCodes h.length, fun k hk => ?_, ?_, fun k hk => ?_⟩
  · rw [codeAt_reserveCodes h.length hk]
    generalize (if k ≤ codeN then k else k - 1) = i
    have hrange := h.inRange i
    split_ifs
    · exact ⟨le_rfl, hrange.streamId, hrange.sizeMul, hrange.sizeLsb, hrange.ptsDelta,
        hrange.reservedCount, hrange.headerIdx⟩
    · exact hrange
  · rw [codeAt_reserveCodes h.length (by decide), if_pos (.inl rfl), if_pos (Nat.zero_le _),
      h.first]
  · rw [codeAt_reserveCodes h.length hk]
    generalize (if k ≤ codeN then k else k - 1) = i
    have hvalid := h.valid i
    split_ifs with hreserved
    · exact ⟨fun _ => hreserved, fun _ => rfl⟩
    · exact ⟨fun hflags => absurd hflags hvalid.ne, fun h => absurd h hreserved⟩

/-- **Every table that `build_frame_code` gives is in range**, and has three invalid codes. -/
theorem frameTable_buildFrameCode (hstreams : streams ≠ [])
    (h : buildFrameCode streams = some codes) :
    FrameTable streams.length codes := by
  have hpos := List.length_pos_of_ne_nil hstreams
  rw [buildFrameCode] at h
  obtain ⟨codes₁, hcodes, hreserve⟩ := Option.bind_eq_some_iff.mp h
  rw [← Option.some.inj hreserve]
  have hcoded : KeepsRange streams.length fun ft =>
      { ft with flags := flagCoded, sizeMul := 1, ptsDelta := 1 } := fun fc hfc =>
    ⟨⟨by show flagCoded ≤ flagInvalid; decide, hfc.1.streamId, by show 1 < 2 ^ 16; decide,
      hfc.1.sizeLsb, ⟨by show -2 ^ 15 ≤ (1 : Int); decide, by show (1 : Int) < 2 ^ 15; decide⟩,
      hfc.1.reservedCount, hfc.1.headerIdx⟩, by show flagCoded < flagInvalid; decide⟩
  have hescape : KeepsRange streams.length fun ft => { ft with
      flags := flagStreamId ||| (flagSizeMsb ||| flagCodedPts)
      sizeMul := 1 } := fun fc hfc =>
    ⟨⟨by show flagStreamId ||| (flagSizeMsb ||| flagCodedPts) ≤ flagInvalid; decide,
      hfc.1.streamId, by show 1 < 2 ^ 16; decide, hfc.1.sizeLsb, hfc.1.ptsDelta,
      hfc.1.reservedCount, hfc.1.headerIdx⟩,
      by show flagStreamId ||| (flagSizeMsb ||| flagCodedPts) < flagInvalid; decide⟩
  have hstart := (building_start hpos).modify hcoded (show 0 < 1 by decide)
  refine Building.reserve (Building.streamsCodes (by split_ifs <;> decide) (by lia) ?_ hcodes)
  by_cases hmany : 2 < streams.length
  · rw [if_pos hmany]
    exact hstart.modify hescape (by decide)
  · rw [if_neg hmany]
    exact hstart

end FFmpeg.Libavformat.NutFrameCode
