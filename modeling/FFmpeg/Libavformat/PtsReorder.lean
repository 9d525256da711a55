import FFmpeg.Common.SortingWindow
import FFmpeg.Libavutil.Mathematics

/-!
# Decoding timestamps from presentation timestamps

`update_dts_from_pts` of `libavformat/utils.c` goes through the packets that are buffered and gives
those of a stream the presentation timestamps in order, as far as a window of them allows.  The
packets are a list, in the order of `get_next_pkt`.
-/

namespace FFmpeg.Libavformat.PtsReorder

open Common SortingWindow Libavutil

/-- The codecs that `select_from_pts_buffer` tells apart. -/
inductive AVCodecID
  | h264
  | hevc
  | other
  deriving DecidableEq, Repr

/-- `AVStream`; `hasBFrames` is `internal->avctx->has_b_frames`. -/
structure AVStream where
  codecId : AVCodecID
  hasBFrames : Int
  ptsReorderError : List Int := List.replicate 17 0
  ptsReorderErrorCount : List Nat := List.replicate 17 0
  deriving DecidableEq, Repr

/-- `AVPacket`. -/
structure AVPacket where
  streamIndex : Nat
  pts : Int
  dts : Int
  deriving DecidableEq, Repr

/-- `MAX_REORDER_DELAY`. -/
def maxReorderDelay : Nat := 16

/-- A round of the loop for the best score; `best` is the score and `dts`. -/
def scoreRound (st : AVStream) (ptsBuffer : List Int) (best : Int × Int) (i : Nat) : Int × Int :=
  let count := st.ptsReorderErrorCount.getD i 0
  let score := (st.ptsReorderError.getD i 0).tdiv count
  if count ≠ 0 ∧ score < best.1 then (score, ptsBuffer.getD i avNoptsValue) else best

/-- A round of the loop that keeps the errors. -/
def errorRound (ptsBuffer : List Int) (dts : Int) (st : AVStream) (i : Nat) : AVStream :=
  let pts := ptsBuffer.getD i avNoptsValue
  if pts ≠ avNoptsValue then
    let error := st.ptsReorderError.getD i 0
    let diff := max ((|pts - dts| + error).bmod (2 ^ 64)) error
    let count := (st.ptsReorderErrorCount.getD i 0 + 1) % 256
    let halved := decide (250 < count)
    { st with
      ptsReorderError := st.ptsReorderError.set i (if halved then diff / 2 else diff)
      ptsReorderErrorCount := st.ptsReorderErrorCount.set i (if halved then count / 2 else count) }
  else st

/-- `select_from_pts_buffer`. -/
def selectFromPtsBuffer (st : AVStream) (ptsBuffer : List Int) (dts : Int) : Int × AVStream :=
  let delay := st.hasBFrames.toNat
  let selected :=
    if st.codecId = .other then (dts, st)
    else if dts = avNoptsValue then
      (((List.range delay).foldl (scoreRound st ptsBuffer) (int64Max, dts)).2, st)
    else (dts, (List.range delay).foldl (errorRound ptsBuffer dts) st)
  (if selected.1 = avNoptsValue then ptsBuffer.getD 0 avNoptsValue else selected.1, selected.2)

/-- The loop of swaps, over the entries from `pts_buffer[i]` on. -/
def swapLoop : Nat → List Int → List Int
  | rounds + 1, a :: b :: ptsBuffer =>
    if b < a then b :: swapLoop rounds (a :: ptsBuffer) else a :: b :: ptsBuffer
  | _, ptsBuffer => ptsBuffer

/-- The loop of `update_dts_from_pts`. -/
def updateDtsLoop (streamIndex : Nat) (st : AVStream) (ptsBuffer : List Int) :
    List AVPacket → AVStream × List AVPacket
  | [] => (st, [])
  | pkt :: pkts =>
    if pkt.streamIndex = streamIndex ∧ pkt.pts ≠ avNoptsValue ∧ st.hasBFrames ≤ maxReorderDelay then
      let ptsBuffer := swapLoop st.hasBFrames.toNat (ptsBuffer.set 0 pkt.pts)
      let selected := selectFromPtsBuffer st ptsBuffer pkt.dts
      let rest := updateDtsLoop streamIndex selected.2 ptsBuffer pkts
      (rest.1, { pkt with dts := selected.1 } :: rest.2)
    else
      let rest := updateDtsLoop streamIndex st ptsBuffer pkts
      (rest.1, pkt :: rest.2)

/-- `update_dts_from_pts`: the stream and the packets. -/
def updateDtsFromPts (st : AVStream) (streamIndex : Nat) (pktBuffer : List AVPacket) :
    AVStream × List AVPacket :=
  updateDtsLoop streamIndex st (List.replicate (maxReorderDelay + 1) avNoptsValue) pktBuffer

/-! ## The window -/

variable {st : AVStream} {streamIndex : Nat} {pkts : List AVPacket} {w : List Int}

theorem swapLoop_eq (x : Int) (w rest : List Int) :
    swapLoop w.length (x :: (w ++ rest)) = w.orderedInsert (· ≤ ·) x ++ rest := by
  induction w with
  | nil => cases rest <;> rfl
  | cons b w ih =>
    rw [List.length_cons, List.cons_append, swapLoop, List.orderedInsert_cons]
    by_cases hlt : b < x
    · rw [if_pos hlt, if_neg (not_le.2 hlt), ih, List.cons_append]
    · rw [if_neg hlt, if_pos (not_lt.1 hlt), List.cons_append, List.cons_append]

/-- The packets of a stream. -/
def ofStream (streamIndex : Nat) (pkts : List AVPacket) : List AVPacket :=
  pkts.filter fun pkt => pkt.streamIndex = streamIndex

/-- Packets of the stream have a `pts` only. -/
def PtsOnly (streamIndex : Nat) (pkts : List AVPacket) : Prop :=
  ∀ pkt ∈ pkts, pkt.streamIndex = streamIndex → avNoptsValue < pkt.pts ∧ pkt.dts = avNoptsValue

/-- The `dts` are what the window gives out for the `pts`, and nothing else changes. -/
theorem updateDtsLoop_eq (hcodec : st.codecId = .other) (hdelay : st.hasBFrames ≤ maxReorderDelay)
    (hpkts : PtsOnly streamIndex pkts) (a : Int) (hw : w.length = st.hasBFrames.toNat)
    (rest : List Int) :
    (updateDtsLoop streamIndex st (a :: (w ++ rest)) pkts).1 = st ∧
      ((ofStream streamIndex (updateDtsLoop streamIndex st (a :: (w ++ rest)) pkts).2).map
        fun pkt => pkt.dts) = emitted w ((ofStream streamIndex pkts).map fun pkt => pkt.pts) ∧
      List.Forall₂ (fun pkt pkt' => pkt' = { pkt with dts := pkt'.dts } ∧
          (pkt.streamIndex ≠ streamIndex → pkt' = pkt)) pkts
        (updateDtsLoop streamIndex st (a :: (w ++ rest)) pkts).2 := by
  induction pkts generalizing a w rest with
  | nil => exact ⟨rfl, rfl, .nil⟩
  | cons pkt pkts ih =>
    have hrest : PtsOnly streamIndex pkts := fun pkt' h => hpkts pkt' (List.mem_cons_of_mem _ h)
    rw [updateDtsLoop]
    -- a packet of the stream goes into the window, and the smallest entry comes out
    by_cases hindex : pkt.streamIndex = streamIndex
    · obtain ⟨hpts, hdts⟩ := hpkts pkt List.mem_cons_self hindex
      have hinsert := (List.perm_orderedInsert (· ≤ ·) pkt.pts w).length_eq
      obtain ⟨e, w', hv⟩ : ∃ e w', w.orderedInsert (· ≤ ·) pkt.pts = e :: w' :=
        List.exists_cons_of_length_pos (by rw [hinsert]; exact Nat.succ_pos _)
      have hlength : w'.length = st.hasBFrames.toNat := by
        rw [hv, List.length_cons, List.length_cons] at hinsert
        omega
      have hswap : swapLoop st.hasBFrames.toNat ((a :: (w ++ rest)).set 0 pkt.pts) =
          e :: (w' ++ rest) := by
        rw [List.set_cons_zero, ← hw, swapLoop_eq, hv, List.cons_append]
      have hselect : selectFromPtsBuffer st (e :: (w' ++ rest)) pkt.dts = (e, st) := by
        simp [selectFromPtsBuffer, hcodec, hdts]
      obtain ⟨hst, hemitted, hothers⟩ := ih hrest e hlength rest
      rw [if_pos ⟨hindex, hpts.ne', hdelay⟩]
      dsimp only
      rw [hswap, hselect]
      refine ⟨hst, ?_, .cons ⟨rfl, fun hne => absurd hindex hne⟩ hothers⟩
      have hfilter : ofStream streamIndex (pkt :: pkts) = pkt :: ofStream streamIndex pkts := by
        simp [ofStream, hindex]
      rw [hfilter, List.map_cons, emitted, hv, List.headD_cons, List.tail_cons, ← hemitted]
      simp [ofStream, hindex]
    · obtain ⟨hst, hemitted, hothers⟩ := ih hrest a hw rest
      rw [if_neg fun h => hindex h.1]
      refine ⟨hst, ?_, .cons ⟨rfl, fun _ => rfl⟩ hothers⟩
      simpa [ofStream, hindex] using hemitted

/-- The `dts` of a stream never exceed the `pts`, and they are in order exactly when no packet comes
behind more packets with a larger `pts` than the delay of the stream; then they are the `pts`
sorted, behind as many packets without `dts` as the delay says. -/
theorem updateDtsFromPts_sorted_iff (hcodec : st.codecId = .other)
    (hdelay : st.hasBFrames ≤ maxReorderDelay) (hpkts : PtsOnly streamIndex pkts) :
    let out := (updateDtsFromPts st streamIndex pkts).2
    let pts := (ofStream streamIndex pkts).map fun pkt => pkt.pts
    let dts := (ofStream streamIndex out).map fun pkt => pkt.dts
    let InTime := ∀ l₁ x l₂, pts = l₁ ++ x :: l₂ → l₁.countP (x < ·) ≤ st.hasBFrames.toNat
    List.Forall₂ (fun pkt pkt' => pkt' = { pkt with dts := pkt'.dts } ∧
        (pkt.streamIndex ≠ streamIndex → pkt' = pkt)) pkts out ∧
      List.Forall₂ (· ≤ ·) dts pts ∧ (dts.Pairwise (· ≤ ·) ↔ InTime) ∧
      (InTime → dts = (List.replicate st.hasBFrames.toNat avNoptsValue ++
        pts.insertionSort (· ≤ ·)).take pts.length) := by
  intro out pts dts InTime
  obtain ⟨w, hw⟩ : ∃ w, w = List.replicate st.hasBFrames.toNat avNoptsValue := ⟨_, rfl⟩
  have hlength : w.length = st.hasBFrames.toNat := by rw [hw, List.length_replicate]
  have hsorted : w.Pairwise (· ≤ ·) := by
    rw [hw, List.pairwise_replicate]
    exact Or.inr le_rfl
  have hbuffer : List.replicate (maxReorderDelay + 1) avNoptsValue =
      avNoptsValue :: (w ++ List.replicate (maxReorderDelay - st.hasBFrames.toNat) avNoptsValue) := by
    rw [hw, ← List.replicate_add, ← List.replicate_succ]
    congr 1
    omega
  have hrun := updateDtsLoop_eq hcodec hdelay hpkts avNoptsValue hlength
    (List.replicate (maxReorderDelay - st.hasBFrames.toNat) avNoptsValue)
  rw [← hbuffer] at hrun
  obtain ⟨-, hemitted, hothers⟩ := hrun
  replace hemitted : dts = emitted w pts := hemitted
  have hbelow : ∀ x ∈ pts, avNoptsValue < x := by
    intro x hx
    obtain ⟨pkt, hpkt, rfl⟩ := List.mem_map.1 hx
    obtain ⟨hmem, hindex⟩ := List.mem_filter.1 hpkt
    exact (hpkts pkt hmem (of_decide_eq_true hindex)).1
  -- no entry without a value is larger than a `pts`
  have hintime : ReorderedBy w pts ↔ InTime := by
    refine forall_congr' fun l₁ => forall_congr' fun x => forall_congr' fun l₂ =>
      imp_congr_right fun hl => ?_
    have hx := hbelow x (by rw [hl]; simp)
    have hnone : w.countP (x < ·) = 0 := by
      rw [hw, List.countP_replicate, if_neg (by simpa using hx.le)]
    rw [List.countP_append, hnone, Nat.zero_add, hlength]
  refine ⟨hothers, hemitted ▸ emitted_le hsorted pts, ?_, fun h => ?_⟩
  · rw [hemitted, emitted_sorted_iff hsorted, hintime]
  · rw [hemitted, emitted_eq_take hsorted (hintime.2 h)]
    congr 1
    have hperm : ((w ++ pts).insertionSort (· ≤ ·)).Perm (w ++ pts.insertionSort (· ≤ ·)) :=
      (List.perm_insertionSort _ _).trans ((List.perm_insertionSort _ _).symm.append_left w)
    rw [← hw]
    refine hperm.eq_of_pairwise' (List.pairwise_insertionSort _ _) ?_
    refine List.pairwise_append.2 ⟨hsorted, List.pairwise_insertionSort _ _, fun x hx y hy => ?_⟩
    rw [hw] at hx
    rw [List.eq_of_mem_replicate hx]
    exact (hbelow y ((List.mem_insertionSort _).1 hy)).le

/-- A packet comes behind one with a larger `pts`, and the stream has a delay of one. -/
theorem updateDtsFromPts_sorted_iff_late :
    let out := (updateDtsFromPts ⟨.other, 1, [], []⟩ 0
      [⟨0, 4, avNoptsValue⟩, ⟨1, 9, 9⟩, ⟨0, 2, avNoptsValue⟩]).2
    List.Forall₂ (· ≤ ·) ((ofStream 0 out).map fun pkt => pkt.dts) [4, 2] :=
  (@updateDtsFromPts_sorted_iff ⟨.other, 1, [], []⟩ 0
    [⟨0, 4, avNoptsValue⟩, ⟨1, 9, 9⟩, ⟨0, 2, avNoptsValue⟩] rfl (by decide)
    (by simp [PtsOnly, avNoptsValue, int64Min])).2.1

end FFmpeg.Libavformat.PtsReorder
