import FFmpeg.Libavfilter.FrameSyncTurns

/-!
# Schedules of the synchroniser

Frames and ends arrive on the links in any order between the calls of
`ff_framesync_activate`.  Every call makes turns of the tracks, so all schedules emit the
events of the tracks.
-/

namespace FFmpeg.Libavfilter.FrameSync

open Common Libavutil

section Work

variable {α : Type*} {nbIn : Nat} {fs : FFFrameSync α nbIn} {T : Fin nbIn → Track α}
  {todo : Fin nbIn → List (Option (AVFrame α))}

/-- The part of the work that belongs to one input. -/
def FFFrameSync.workAt (fs : FFFrameSync α nbIn) (i : Fin nbIn) : Nat :=
  (fs.parent.inputs i).fifo.length + (if (fs.parent.inputs i).statusOut = 0 then 1 else 0) +
    (if (fs.inputs i).haveNext then 1 else 0)

@[simp] theorem framesyncInjectStatus_links (fs : FFFrameSync α nbIn) (i : Fin nbIn)
    (status pts : Int) :
    (framesyncInjectStatus fs i status pts).parent.inputs = fs.parent.inputs := by
  simp [framesyncInjectStatus, FFFrameSync.setIn]

theorem framesyncInjectStatus_haveNext (fs : FFFrameSync α nbIn) (i j : Fin nbIn)
    (status pts : Int) : ((framesyncInjectStatus fs i status pts).inputs j).haveNext =
      if j = i then true else (fs.inputs j).haveNext := by
  by_cases hj : j = i
  · subst hj
    simp [framesyncInjectStatus, FFFrameSync.setIn]
  · simp [framesyncInjectStatus, FFFrameSync.setIn, hj]

/-- What is taken from a link is held by the input. -/
theorem Feeding.workAt_consumeInput_le {c : Consuming α nbIn} (h : Feeding c.fs todo T)
    (i j : Fin nbIn) : (FrameSync.consumeInput c i).fs.workAt j ≤ c.fs.workAt j := by
  by_cases hhas : (c.fs.inputs i).Has
  · have hsame : FrameSync.consumeInput c i = c := if_pos hhas
    rw [hsame]
  have hcond : ¬((c.fs.inputs i).haveNext = true ∨ (c.fs.inputs i).state = .eof) := hhas
  have hno : (c.fs.inputs i).haveNext = false := by simpa using (not_or.1 hcond).1
  have hout := (h.follows i).statusOut_eq_zero hhas
  unfold FrameSync.consumeInput
  rw [if_neg hcond]
  cases hfifo : (c.fs.parent.inputs i).fifo with
  | cons f fifo =>
    simp only [ffInlinkConsumeFrame, hfifo, framesyncInjectFrame, FFFrameSync.workAt,
      FFFrameSync.setIn, FFFrameSync.setLink]
    by_cases hj : j = i
    · subst hj
      simp [hfifo, hno]
    · simp [hj]
  | nil =>
    simp only [ffInlinkConsumeFrame, hfifo, ffInlinkAcknowledgeStatus, ne_eq, not_true_eq_false,
      if_false, hout]
    by_cases hin : (c.fs.parent.inputs i).statusIn = 0
    · by_cases hj : j = i
      · subst hj
        simp [hin, FFFrameSync.workAt, FFFrameSync.setLink]
      · simp [hin, FFFrameSync.workAt, FFFrameSync.setLink]
    · simp only [hin, if_false, Int.one_pos, if_true, FFFrameSync.workAt,
        framesyncInjectStatus_links, framesyncInjectStatus_haveNext, FFFrameSync.setLink]
      by_cases hj : j = i
      · subst hj
        simp [hfifo, hno, hin, hout]
      · simp [hj]

theorem Feeding.work_consumeFromFifos_le (h : Feeding fs todo T) :
    (FrameSync.consumeFromFifos fs).2.work ≤ fs.work := by
  have hloop (l : List (Fin nbIn)) {c : Consuming α nbIn} (hc : Feeding c.fs todo T)
      (j : Fin nbIn) : (l.foldl FrameSync.consumeInput c).fs.workAt j ≤ c.fs.workAt j := by
    induction l generalizing c with
    | nil => exact le_rfl
    | cons i l ih =>
      exact (ih (hc.consumeInput i).1.feeding).trans (hc.workAt_consumeInput_le i j)
  refine Finset.sum_le_sum fun j _ => ?_
  refine le_trans ?_ (hloop eachInput (c := ⟨fs, 0, 0⟩) h j)
  unfold FrameSync.consumeFromFifos
  dsimp only
  split
  · split
    · exact le_rfl
    · obtain ⟨hfifo, hout, -⟩ := requestFrames_keeps
        (eachInput.foldl FrameSync.consumeInput (⟨fs, 0, 0⟩ : Consuming α nbIn)).fs j
      rw [hfifo, hout]
      exact le_rfl
  · exact le_rfl

/-- A turn uses up the next frame or the end of some input. -/
theorem work_advanceInputs_lt (h : minPtsNext fs ≠ int64Max) :
    (advanceInputs (minPtsNext fs) fs).work < fs.work := by
  have hmoved := advanceInput_foldl (minPtsNext fs) fs (List.nodup_finRange nbIn)
  obtain ⟨fs', hfs'⟩ : ∃ fs', fs' = advanceInputs (minPtsNext fs) fs := ⟨_, rfl⟩
  have hinputs (i : Fin nbIn) : fs'.inputs i = (fs.inputs i).advance (minPtsNext fs) := by
    have hi := hmoved.inputs i
    rw [if_pos (List.mem_finRange i)] at hi
    rw [← hi, hfs', advanceInputs]
    dsimp only
    split <;> rfl
  have hlinks : fs'.parent.inputs = fs.parent.inputs := by
    rw [← hmoved.links, hfs', advanceInputs]
    dsimp only
    split <;> rfl
  obtain ⟨i, hnext, hpts⟩ : ∃ i, (fs.inputs i).haveNext = true ∧
      (fs.inputs i).ptsNext = minPtsNext fs := by
    rcases (foldl_min_spec (fun i => (fs.inputs i).haveNext = true)
      (fun i => (fs.inputs i).ptsNext) eachInput int64Max).2.2 with hmax | ⟨i, -, hnext, hpts⟩
    · exact absurd hmax h
    · exact ⟨i, hnext, hpts⟩
  have hle (j : Fin nbIn) (hj : (fs'.inputs j).haveNext = true) :
      (fs.inputs j).haveNext = true := by
    rw [hinputs j, FFFrameSyncIn.advance] at hj
    split at hj
    · cases hj
    · exact hj
  have hused : (fs'.inputs i).haveNext = false := by
    rw [hinputs i, FFFrameSyncIn.advance, if_pos (.inl hpts)]
    rfl
  rw [← hfs']
  refine Finset.sum_lt_sum (fun j _ => ?_) ⟨i, Finset.mem_univ i, ?_⟩
  · rw [hlinks]
    refine Nat.add_le_add_left ?_ _
    cases hj : (fs'.inputs j).haveNext with
    | false => simp
    | true => simp [hle j hj]
  · rw [hlinks, hused, hnext]
    simp

end Work

section Advance

variable {α : Type*} {nbIn : Nat} {fs : FFFrameSync α nbIn} {T : Fin nbIn → Track α}
  {todo : Fin nbIn → List (Option (AVFrame α))}

/-- What a callback sees of the synchroniser. -/
def FFFrameSync.event (fs : FFFrameSync α nbIn) : Event α nbIn :=
  ⟨fs.pts, fun i => (fs.inputs i).frame⟩

theorem advanceInputs_eof {pts : Int} (h : fs.eof = true) : (advanceInputs pts fs).eof = true := by
  have hmoved := advanceInput_foldl pts fs (List.nodup_finRange nbIn)
  have hkeep : (advanceInputs pts fs).eof = (eachInput.foldl (advanceInput pts) fs).eof := by
    unfold advanceInputs
    dsimp only
    split <;> rfl
  rw [hkeep, hmoved.eof]
  exact .inl h

theorem framesyncAdvance_of_done {fuel : Nat} (h : fs.frameReady = true ∨ fs.eof = true) :
    framesyncAdvance (fuel + 1) fs = some (0, fs) := by
  unfold framesyncAdvance
  exact if_pos (by simpa using h)

/-- How `framesync_advance` returns: at the end, waiting for an input, or with an event. -/
inductive Advanced (fs : FFFrameSync α nbIn) (todo : Fin nbIn → List (Option (AVFrame α)))
    (T : Fin nbIn → Track α) (ret : Int) : Prop
  | finished (T' : Fin nbIn → Track α) (heof : fs.eof = true) (hrun : Emits turn T [] T')
      (hend : turn T' = none)
  | waiting (T' : Fin nbIn → Track α) (hrun : Emits turn T [] T') (hgoing : Going fs todo T')
      (htodo : ∃ i, todo i ≠ [])
  | event (T' : Fin nbIn → Track α) (hret : ret = 0) (heof : fs.eof = false)
      (hready : fs.frameReady = true) (hrun : Emits turn T [fs.event] T')
      (hgoing : Going { fs with frameReady := false } todo T') (hopened : Opened fs)

theorem Advanced.of_emits {ret : Int} {T₁ : Fin nbIn → Track α} (h : Advanced fs todo T₁ ret)
    (hrun : Emits turn T [] T₁) : Advanced fs todo T ret := by
  cases h with
  | finished T' heof hrun' hend => exact .finished T' heof (by simpa using hrun.trans hrun') hend
  | waiting T' hrun' hgoing htodo =>
    exact .waiting T' (by simpa using hrun.trans hrun') hgoing htodo
  | event T' hret heof hready hrun' hgoing hopened =>
    exact .event T' hret heof hready (by simpa using hrun.trans hrun') hgoing hopened

theorem Going.todo_eq_nil (h : Going fs todo T) (i : Fin nbIn) :
    (fs.parent.inputs i).statusIn ≠ 0 ↔ todo i = [] := by
  rcases (h.feeding.follows i).arriving with ⟨hin, htodo⟩ | ⟨hin, l, htodo⟩
  · exact iff_of_true hin htodo
  · exact iff_of_false (by simp [hin]) (by simp [htodo])

/-- `framesync_advance` returns, with enough fuel for the work, in one of the three ways. -/
theorem Going.advances {fuel : Nat} (h : Going fs todo T) (hfuel : fs.work < fuel) :
    ∃ ret fs', framesyncAdvance fuel fs = some (ret, fs') ∧ Advanced fs' todo T ret := by
  induction fuel generalizing fs T with
  | zero => lia
  | succ fuel ih =>
    obtain ⟨hfeeding, hconsumed, -, hhas, hall⟩ := h.feeding.consumeFromFifos
    have hwork := h.feeding.work_consumeFromFifos_le
    have hshows := h.shows.of_consumed hconsumed
    have hnotdone : ¬(fs.frameReady || fs.eof) = true := by
      simp [h.feeding.notReady, h.notEof]
    rw [FrameSync.framesyncAdvance, if_neg hnotdone]
    have hwait (hret : (consumeFromFifos fs).1 ≤ 0) : ∃ i, todo i ≠ [] := by
      by_contra hnone
      simp only [not_exists, not_not] at hnone
      have := hall fun i => (h.todo_eq_nil i).2 (hnone i)
      lia
    obtain ⟨ret, fs₁, hfs₁⟩ : ∃ ret fs₁, consumeFromFifos fs = (ret, fs₁) := ⟨_, _, rfl⟩
    simp only [hfs₁] at hfeeding hconsumed hhas hwork hshows hwait ⊢
    cases heof : fs₁.eof with
    | true =>
      -- the last level has gone while frames were taken
      have hend : turn T = none := by
        rw [turn, if_pos (.inl (hfeeding.ended heof))]
      have hfinish {fs' : FFFrameSync α nbIn} (ret' : Int) (heof' : fs'.eof = true) :
          Advanced fs' todo T ret' := .finished T heof' (Emits.refl T) hend
      split
      · exact ⟨_, _, rfl, hfinish _ heof⟩
      · split
        · exact ⟨_, _, rfl, hfinish _ rfl⟩
        · rename_i hmax
          have hlt := work_advanceInputs_lt hmax
          obtain ⟨n, rfl⟩ : ∃ n, fuel = n + 1 := ⟨fuel - 1, by lia⟩
          rw [framesyncAdvance_of_done (.inr (advanceInputs_eof heof))]
          exact ⟨_, _, rfl, hfinish _ (advanceInputs_eof heof)⟩
    | false =>
      have hgoing : Going fs₁ todo T := ⟨hfeeding, heof, h.notStopped, hshows⟩
      split
      · rename_i hret
        exact ⟨_, _, rfl, .waiting T (Emits.refl T) hgoing (hwait hret)⟩
      · rename_i hret
        have hhas := hhas (by lia)
        have hmin := hfeeding.minPtsNext_eq hhas
        split
        · rename_i hmax
          refine ⟨_, _, rfl, .finished T rfl (Emits.refl T) ?_⟩
          rw [turn, if_pos (.inr (.inl (hmin ▸ hmax)))]
        · rename_i hmax
          have hlt := work_advanceInputs_lt hmax
          obtain ⟨n, rfl⟩ : ∃ n, fuel = n + 1 := ⟨fuel - 1, by lia⟩
          rw [hmin] at hmax hlt ⊢
          rcases hgoing.takeTurn hhas hmax with
            ⟨heof₂, hend⟩ | ⟨heof₂, e, T₂, hturn, hgoing₂, hopened, hready, hevent⟩
          · rw [framesyncAdvance_of_done (.inr heof₂)]
            exact ⟨_, _, rfl, .finished T heof₂ (Emits.refl T) hend⟩
          · cases e with
            | some ev =>
              rw [framesyncAdvance_of_done (.inl hready)]
              obtain rfl := hevent ev rfl
              exact ⟨_, _, rfl, .event T₂ rfl heof₂ hready (Emits.single hturn) hgoing₂ hopened⟩
            | none =>
              -- no event: the loop goes on
              have hsame : { advanceInputs (nextPts T) fs₁ with frameReady := false } =
                  advanceInputs (nextPts T) fs₁ := by
                rw [show false = (advanceInputs (nextPts T) fs₁).frameReady from hready.symm]
              rw [hsame] at hgoing₂
              obtain ⟨ret', fs', hrun, hadvanced⟩ := ih hgoing₂ (by lia)
              exact ⟨ret', fs', hrun, hadvanced.of_emits (Emits.single hturn)⟩

end Advance

section Callbacks

variable {α : Type*} {nbIn : Nat} {fs fs' : FFFrameSync α nbIn} {T : Fin nbIn → Track α}
  {todo : Fin nbIn → List (Option (AVFrame α))}

/-- Nothing but the current frames has changed. -/
def SameButFrames (fs fs' : FFFrameSync α nbIn) : Prop :=
  ∀ j, ∃ frame, fs'.inputs j = { fs.inputs j with frame := frame }

theorem Follows.of_frame {tb : AVRational} {x : FFFrameSyncIn α} {link : AVFilterLink α}
    {l : List (Option (AVFrame α))} {k : Track α} (h : Follows tb x link l k)
    (frame : Option (AVFrame α)) : Follows tb { x with frame := frame } link l k := by
  refine ⟨h.before, h.after, h.state, h.pts, ?_, h.arriving⟩
  cases h.next with
  | waiting hnext hended hout hsync hrest => exact .waiting hnext hended hout hsync hrest
  | frame f hnext hended hframe hpts hout hsync hrest =>
    exact .frame f hnext hended hframe hpts hout hsync hrest
  | status hnext hended hframe hpts hsync hrest hin =>
    exact .status hnext hended hframe hpts hsync hrest hin
  | finished hnext hended hframe hsync hrest hin =>
    exact .finished hnext hended hframe hsync hrest hin

variable {i : Fin nbIn}

theorem SameButFrames.outlasted (h : SameButFrames fs fs') (hlast : Outlasted fs i) :
    Outlasted fs' i := by
  intro j hj hsync
  obtain ⟨fj, hfj⟩ := h j
  obtain ⟨fi, hfi⟩ := h i
  rw [hfj] at hsync ⊢
  rw [hfi]
  exact hlast j hj hsync

theorem SameButFrames.opened (h : SameButFrames fs fs') (hopened : Opened fs) : Opened fs' := by
  intro j hj
  obtain ⟨fj, hfj⟩ := h j
  rw [hfj] at hj
  exact hopened j hj

theorem outlasted_of_not_needCopy (h : needCopy fs i = false) : Outlasted fs i := by
  intro j hj hsync
  have hall := List.any_eq_false.1 h j (List.mem_finRange j)
  simp only [decide_eq_true_eq, not_and, not_or, Bool.not_eq_true', Bool.not_eq_false,
    not_lt] at hall
  obtain ⟨hnext, hle⟩ := hall (by simpa using hj) (by simpa using hsync.ne')
  refine ⟨hnext, ?_⟩
  split at hle
  · rename_i hi
    exact .inr ⟨hi, hle⟩
  · exact .inl hle

/-- A callback takes the frame of one input. -/
theorem Going.getFrame (h : Going { fs with frameReady := false } todo T) (hopened : Opened fs)
    (i : Fin nbIn) : Going { (ffFramesyncGetFrame fs i true).2 with frameReady := false } todo T ∧
      Opened (ffFramesyncGetFrame fs i true).2 := by
  unfold ffFramesyncGetFrame
  split
  · exact ⟨h, hopened⟩
  · rw [if_pos rfl]
    cases hcopy : needCopy fs i with
    | true => exact ⟨h, hopened⟩
    | false =>
      have hsame : SameButFrames fs (fs.setIn i { fs.inputs i with frame := none }) := by
        intro j
        by_cases hj : j = i
        · subst hj
          exact ⟨none, by simp [FFFrameSync.setIn]⟩
        · exact ⟨(fs.inputs j).frame, by simp [FFFrameSync.setIn, hj]⟩
      have hopened' := hsame.opened hopened
      refine ⟨⟨⟨fun j => ?_, fun heof => ?_, h.feeding.ended, rfl⟩, h.notEof, h.notStopped,
        fun j => ?_⟩, hopened'⟩
      · obtain ⟨frame, hframe⟩ := hsame j
        simp only [Bool.false_eq_true, if_false]
        rw [hframe]
        exact (h.feeding.follows j).of_frame frame
      · have htop : topSync (fs.setIn i { fs.inputs i with frame := none }) = topSync fs :=
          topSync_setIn_le rfl
        have hlevel := h.feeding.level heof
        exact ⟨hlevel.1, hlevel.2.trans htop.symm⟩
      · by_cases hj : j = i
        · subst hj
          exact .inr ⟨by simp [FFFrameSync.setIn],
            hsame.outlasted (outlasted_of_not_needCopy hcopy), hopened'⟩
        · have hkeep : (fs.setIn i { fs.inputs i with frame := none }).inputs j = fs.inputs j := by
            simp [FFFrameSync.setIn, hj]
          show ((fs.setIn i { fs.inputs i with frame := none }).inputs j).frame = _ ∨ _
          rw [hkeep]
          refine (h.shows j).imp id ?_
          rintro ⟨hframe, hlast, -⟩
          refine ⟨?_, hsame.outlasted hlast, hopened'⟩
          show ((fs.setIn i { fs.inputs i with frame := none }).inputs j).frame = none
          rw [hkeep]
          exact hframe

theorem Going.callOnEvent (h : Going { fs with frameReady := false } todo T)
    (hopened : Opened fs) (onEvent : Callback α nbIn) :
    Going { callOnEvent onEvent fs with frameReady := false } todo T := by
  unfold FrameSync.callOnEvent
  generalize onEvent fs = l
  induction l generalizing fs with
  | nil => exact h
  | cons i l ih =>
    obtain ⟨hgoing, hopened'⟩ := h.getFrame hopened i
    exact ih hgoing hopened'

/-- The synchroniser is at a place of its tracks, or both have come to the end. -/
def At (fs : FFFrameSync α nbIn) (todo : Fin nbIn → List (Option (AVFrame α)))
    (T : Fin nbIn → Track α) : Prop :=
  (fs.eof = true ∧ turn T = none) ∨ Going fs todo T

theorem ffFramesyncActivate_of_eof (onEvent : Callback α nbIn) (h : fs.eof = true) :
    ffFramesyncActivate onEvent fs = some (0, none, fs) := by
  unfold ffFramesyncActivate
  rw [framesyncAdvance_of_done (.inr h)]
  simp [h]

/-- `ff_framesync_activate` makes turns of the tracks, up to an event, to the end, or to an
input that is missing a frame. -/
theorem At.activate (h : At fs todo T) (onEvent : Callback α nbIn) :
    ∃ ret e fs' T', ffFramesyncActivate onEvent fs = some (ret, e, fs') ∧
      Emits turn T e.toList T' ∧ At fs' todo T' ∧
      ((∀ i, todo i = []) → e = none → fs'.eof = true) := by
  rcases h with ⟨heof, hend⟩ | h
  · exact ⟨0, none, fs, T, ffFramesyncActivate_of_eof onEvent heof, Emits.refl T,
      .inl ⟨heof, hend⟩, fun _ _ => heof⟩
  obtain ⟨ret, fs₁, hrun, hadvanced⟩ := h.advances (Nat.lt_succ_self fs.work)
  unfold ffFramesyncActivate
  rw [hrun]
  cases hadvanced with
  | finished T' heof hrun' hend =>
    have hnone : ∃ ret', (if ret < 0 then some (ret, none, fs₁)
        else if fs₁.eof = true ∨ (!fs₁.frameReady) = true then some (0, none, fs₁)
        else some (0, some fs₁.event, { callOnEvent onEvent fs₁ with frameReady := false })) =
        some (ret', none, fs₁) := by
      split
      · exact ⟨_, rfl⟩
      · exact ⟨0, if_pos (.inl heof)⟩
    obtain ⟨ret', hret'⟩ := hnone
    exact ⟨ret', none, fs₁, T', hret', hrun', .inl ⟨heof, hend⟩, fun _ _ => heof⟩
  | waiting T' hrun' hgoing htodo =>
    have hnone : ∃ ret', (if ret < 0 then some (ret, none, fs₁)
        else if fs₁.eof = true ∨ (!fs₁.frameReady) = true then some (0, none, fs₁)
        else some (0, some fs₁.event, { callOnEvent onEvent fs₁ with frameReady := false })) =
        some (ret', none, fs₁) := by
      split
      · exact ⟨_, rfl⟩
      · exact ⟨0, if_pos (.inr (by simp [hgoing.feeding.notReady]))⟩
    obtain ⟨ret', hret'⟩ := hnone
    obtain ⟨i, hi⟩ := htodo
    exact ⟨ret', none, fs₁, T', hret', hrun', .inr hgoing, fun hall => absurd (hall i) hi⟩
  | event T' hret heof hready hrun' hgoing hopened =>
    subst hret
    refine ⟨0, some fs₁.event, _, T', ?_, hrun', .inr (hgoing.callOnEvent hopened onEvent),
      fun _ hnone => absurd hnone (by simp)⟩
    have hnot : ¬(fs₁.eof = true ∨ (!fs₁.frameReady) = true) := by simp [heof, hready]
    exact if_neg hnot

end Callbacks

section Schedules

variable {α : Type*} {nbIn : Nat}

/-- What happens around a synchroniser: a frame or the end arrives on an input, the output asks
for a frame or no longer does, or `ff_framesync_activate` is called. -/
inductive Action (α : Type*) (nbIn : Nat)
  | frame (i : Fin nbIn) (frame : AVFrame α)
  | eof (i : Fin nbIn) (pts : Int)
  | want (wanted : Bool)
  | activate

/-- A frame arrives on a link, as at the end of `ff_filter_frame`. -/
def AVFilterLink.addFrame (link : AVFilterLink α) (frame : AVFrame α) : AVFilterLink α :=
  { link with fifo := link.fifo ++ [frame], frameWantedOut := false }

/-- One action: the event, if there is one, and the synchroniser after it. -/
def act (onEvent : Callback α nbIn) (fs : FFFrameSync α nbIn) :
    Action α nbIn → Option (Option (Event α nbIn) × FFFrameSync α nbIn)
  | .frame i frame => some (none, fs.setLink i ((fs.parent.inputs i).addFrame frame))
  | .eof i pts => some (none, fs.setLink i
      (ffAvfilterLinkSetInStatus (fs.parent.inputs i) AVERROR.eof.toInt pts))
  | .want wanted => some (none, { fs with parent := { fs.parent with
      output := { fs.parent.output with frameWantedOut := wanted } } })
  | .activate => (ffFramesyncActivate onEvent fs).map fun r => (r.2.1, r.2.2)

/-- The events of a schedule, and the synchroniser after it. -/
def run (onEvent : Callback α nbIn) (fs : FFFrameSync α nbIn) :
    List (Action α nbIn) → Option (List (Event α nbIn) × FFFrameSync α nbIn)
  | [] => some ([], fs)
  | a :: sched =>
    match act onEvent fs a with
    | none => none
    | some (e, fs) =>
      match run onEvent fs sched with
      | none => none
      | some (es, fs) => some (e.toList ++ es, fs)

/-- What arrives on input `i`: frames and, as `none`, the end. -/
def arrivals (i : Fin nbIn) (sched : List (Action α nbIn)) : List (Option (AVFrame α)) :=
  sched.filterMap fun a =>
    match a with
    | .frame j frame => if j = i then some (some frame) else none
    | .eof j _ => if j = i then some none else none
    | _ => none

/-- All that arrives on an input with this stream. -/
def script (stream : List (AVFrame α)) : List (Option (AVFrame α)) := stream.map some ++ [none]

/-- Everything arrives before the first call. -/
def fromStart (streams : Fin nbIn → List (AVFrame α)) : List (Action α nbIn) :=
  eachInput.flatMap fun i => (streams i).map (.frame i) ++ [.eof i avNoptsValue]

variable {fs fs' : FFFrameSync α nbIn} {T : Fin nbIn → Track α}
  {todo : Fin nbIn → List (Option (AVFrame α))}

theorem arrivals_cons (i : Fin nbIn) (a : Action α nbIn) (sched : List (Action α nbIn)) :
    arrivals i (a :: sched) = arrivals i [a] ++ arrivals i sched := by
  rw [arrivals, ← List.singleton_append, List.filterMap_append]
  rfl

theorem arrivals_append (i : Fin nbIn) (l l' : List (Action α nbIn)) :
    arrivals i (l ++ l') = arrivals i l ++ arrivals i l' := List.filterMap_append

variable {tb : AVRational} {x : FFFrameSyncIn α} {link : AVFilterLink α}
  {l : List (Option (AVFrame α))} {k : Track α}

theorem Follows.addFrame {f : AVFrame α} (h : Follows tb x link (some f :: l) k) :
    Follows tb x (link.addFrame f) l k := by
  obtain ⟨hin, frames, hframes⟩ : link.statusIn = 0 ∧
      ∃ frames : List (AVFrame α), l = frames.map some ++ [none] := by
    rcases h.arriving with ⟨-, hnil⟩ | ⟨hin, frames, hframes⟩
    · cases hnil
    · cases frames with
      | nil => simp at hframes
      | cons g frames => exact ⟨hin, frames, by simpa using (List.cons.inj hframes).2⟩
  have hqueue : (link.addFrame f).fifo ++ l.reduceOption =
      link.fifo ++ (some f :: l).reduceOption := by
    simp [AVFilterLink.addFrame, List.reduceOption]
  refine ⟨h.before, h.after, h.state, h.pts, ?_, .inr ⟨hin, frames, hframes⟩⟩
  cases h.next with
  | waiting hnext hended hout hsync hrest =>
    exact .waiting hnext hended hout hsync (by rw [hqueue]; exact hrest)
  | frame g hnext hended hframe hpts hout hsync hrest =>
    exact .frame g hnext hended hframe hpts hout hsync (by rw [hqueue]; exact hrest)
  | status _ _ _ _ _ _ hne => exact absurd hin hne
  | finished _ _ _ _ _ hne => exact absurd hin hne

theorem Follows.setEof (pts : Int) (h : Follows tb x link (none :: l) k) :
    Follows tb x (ffAvfilterLinkSetInStatus link AVERROR.eof.toInt pts) l k := by
  obtain ⟨hin, hnil⟩ : link.statusIn = 0 ∧ l = [] := by
    rcases h.arriving with ⟨-, hnil⟩ | ⟨hin, frames, hframes⟩
    · cases hnil
    · cases frames with
      | nil => exact ⟨hin, by simpa using hframes⟩
      | cons g frames => simp at hframes
  have hne : AVERROR.eof.toInt ≠ 0 := by decide
  have hlink : ffAvfilterLinkSetInStatus link AVERROR.eof.toInt pts =
      { link with statusIn := AVERROR.eof.toInt, statusInPts := pts, frameWantedOut := false } := by
    unfold ffAvfilterLinkSetInStatus
    rw [hin, if_neg hne.symm]
  rw [hlink]
  refine ⟨h.before, h.after, h.state, h.pts, ?_, .inl ⟨hne, hnil⟩⟩
  cases h.next with
  | waiting hnext hended hout hsync hrest => exact .waiting hnext hended hout hsync hrest
  | frame g hnext hended hframe hpts hout hsync hrest =>
    exact .frame g hnext hended hframe hpts hout hsync hrest
  | status hnext hended hframe hpts hsync hrest _ =>
    exact .status hnext hended hframe hpts hsync hrest hne
  | finished hnext hended hframe hsync hrest _ =>
    exact .finished hnext hended hframe hsync hrest hne

theorem Going.setLink (h : Going fs todo T) {i : Fin nbIn}
    (hi : Follows fs.timeBase (fs.inputs i) link l (T i)) :
    Going (fs.setLink i link) (Function.update todo i l) T := by
  refine ⟨⟨fun j => ?_, h.feeding.level, h.feeding.ended, h.feeding.notReady⟩, h.notEof,
    h.notStopped, h.shows⟩
  by_cases hj : j = i
  · subst hj
    simpa [FFFrameSync.setLink] using hi
  · simpa [FFFrameSync.setLink, hj] using h.feeding.follows j

/-- One action of a schedule in which everything arrives in order. -/
theorem At.act (h : At fs todo T) (onEvent : Callback α nbIn) (a : Action α nbIn)
    (ha : ∀ i, arrivals i [a] <+: todo i) :
    ∃ e fs' T', act onEvent fs a = some (e, fs') ∧ Emits turn T e.toList T' ∧
      At fs' (fun i => (todo i).drop (arrivals i [a]).length) T' := by
  have hsame (a : Action α nbIn) (hnone : ∀ i, arrivals i [a] = []) :
      (fun i => (todo i).drop (arrivals i [a]).length) = todo := by
    funext i
    simp [hnone i]
  have hupdate (i : Fin nbIn) (a : Action α nbIn) (e : Option (AVFrame α))
      (l : List (Option (AVFrame α))) (hl : todo i = e :: l)
      (hone : ∀ j, arrivals j [a] = if i = j then [e] else []) :
      (fun j => (todo j).drop (arrivals j [a]).length) = Function.update todo i l := by
    funext j
    by_cases hj : i = j
    · subst hj
      simp [hone, hl]
    · simp [hone, hj, Ne.symm hj]
  cases a with
  | activate =>
    obtain ⟨ret, e, fs', T', hrun, hemits, hat, -⟩ := h.activate onEvent
    refine ⟨e, fs', T', by simp [FrameSync.act, hrun], hemits, ?_⟩
    rw [hsame _ fun i => rfl]
    exact hat
  | want wanted =>
    refine ⟨none, _, T, rfl, Emits.refl T, ?_⟩
    rw [hsame _ fun i => rfl]
    rcases h with hend | h
    · exact .inl hend
    · exact .inr ⟨⟨h.feeding.follows, h.feeding.level, h.feeding.ended, h.feeding.notReady⟩,
        h.notEof, h.notStopped, h.shows⟩
  | frame i f =>
    refine ⟨none, _, T, rfl, Emits.refl T, ?_⟩
    have hone (j : Fin nbIn) : arrivals j [Action.frame i f] = if i = j then [some f] else [] := by
      by_cases hj : i = j <;> simp [arrivals, hj]
    rcases h with hend | h
    · exact .inl hend
    · have hi := ha i
      rw [hone i, if_pos rfl] at hi
      obtain ⟨l, hl⟩ := hi
      rw [hupdate i _ (some f) l hl.symm hone]
      refine .inr (h.setLink (Follows.addFrame ?_))
      have hl' : some f :: l = todo i := hl
      rw [hl']
      exact h.feeding.follows i
  | eof i pts =>
    refine ⟨none, _, T, rfl, Emits.refl T, ?_⟩
    have hone (j : Fin nbIn) :
        arrivals j [(Action.eof i pts : Action α nbIn)] = if i = j then [none] else [] := by
      by_cases hj : i = j <;> simp [arrivals, hj]
    rcases h with hend | h
    · exact .inl hend
    · have hi := ha i
      rw [hone i, if_pos rfl] at hi
      obtain ⟨l, hl⟩ := hi
      rw [hupdate i _ none l hl.symm hone]
      refine .inr (h.setLink (Follows.setEof pts ?_))
      have hl' : none :: l = todo i := hl
      rw [hl']
      exact h.feeding.follows i

/-- A schedule in which everything arrives in order makes turns of the tracks. -/
theorem At.run (h : At fs todo T) (onEvent : Callback α nbIn) {sched : List (Action α nbIn)}
    (hsched : ∀ i, arrivals i sched <+: todo i) :
    ∃ es fs' T', run onEvent fs sched = some (es, fs') ∧ Emits turn T es T' ∧
      At fs' (fun i => (todo i).drop (arrivals i sched).length) T' := by
  induction sched generalizing fs todo T with
  | nil => exact ⟨[], fs, T, rfl, Emits.refl T, h⟩
  | cons a sched ih =>
    have hfirst (i : Fin nbIn) : arrivals i [a] <+: todo i := by
      have hi := hsched i
      rw [arrivals_cons] at hi
      exact (List.prefix_append _ _).trans hi
    obtain ⟨e, fs₁, T₁, hact, hemits, hat⟩ := h.act onEvent a hfirst
    have hrest (i : Fin nbIn) : arrivals i sched <+: (todo i).drop (arrivals i [a]).length := by
      obtain ⟨l, hl⟩ := hsched i
      rw [arrivals_cons, List.append_assoc] at hl
      rw [← hl, List.drop_left]
      exact List.prefix_append _ _
    obtain ⟨es, fs₂, T₂, hrun, hemits', hat'⟩ := ih hat hrest
    refine ⟨e.toList ++ es, fs₂, T₂, ?_, hemits.trans hemits', ?_⟩
    · simp only [FrameSync.run, hact, hrun]
    · have hdrop : (fun i => (todo i).drop (arrivals i (a :: sched)).length) =
          fun i => ((todo i).drop (arrivals i [a]).length).drop (arrivals i sched).length := by
        funext i
        rw [arrivals_cons, List.length_append, List.drop_drop]
      rw [hdrop]
      exact hat'

theorem run_append (onEvent : Callback α nbIn) {l l' : List (Action α nbIn)}
    {es es' : List (Event α nbIn)} {fs₁ fs₂ : FFFrameSync α nbIn}
    (h : run onEvent fs l = some (es, fs₁)) (h' : run onEvent fs₁ l' = some (es', fs₂)) :
    run onEvent fs (l ++ l') = some (es ++ es', fs₂) := by
  induction l generalizing fs es with
  | nil =>
    obtain ⟨rfl, rfl⟩ : [] = es ∧ fs = fs₁ := by simpa [run] using h
    simpa using h'
  | cons a l ih =>
    rw [run] at h
    rw [List.cons_append, run]
    cases hact : act onEvent fs a with
    | none => simp [hact] at h
    | some r =>
      obtain ⟨e, fs'⟩ := r
      simp only [hact] at h ⊢
      cases hrun : run onEvent fs' l with
      | none => simp [hrun] at h
      | some r' =>
        obtain ⟨es₁, fs₃⟩ := r'
        simp only [hrun, Option.some.injEq, Prod.mk.injEq] at h
        obtain ⟨rfl, rfl⟩ := h
        rw [ih hrun]
        simp

theorem run_of_eof (onEvent : Callback α nbIn) (h : fs.eof = true)
    (sched : List (Action α nbIn)) :
    ∃ fs', run onEvent fs sched = some ([], fs') ∧ fs'.eof = true := by
  induction sched generalizing fs with
  | nil => exact ⟨fs, rfl, h⟩
  | cons a sched ih =>
    obtain ⟨fs₁, hact, heof⟩ : ∃ fs₁, act onEvent fs a = some (none, fs₁) ∧ fs₁.eof = true := by
      cases a with
      | activate => exact ⟨fs, by simp [act, ffFramesyncActivate_of_eof onEvent h], h⟩
      | want wanted => exact ⟨_, rfl, h⟩
      | frame i f => exact ⟨_, rfl, h⟩
      | eof i pts => exact ⟨_, rfl, h⟩
    obtain ⟨fs', hrun, heof'⟩ := ih heof
    exact ⟨fs', by simp [run, hact, hrun], heof'⟩

theorem At.replicate (h : At fs todo T) (htodo : ∀ i, todo i = []) (onEvent : Callback α nbIn)
    (k : Nat) : ∃ es fs' T',
      FrameSync.run onEvent fs (List.replicate k .activate) = some (es, fs') ∧ Emits turn T es T' ∧ At fs' todo T' ∧ (fs'.eof = true ∨ k ≤ es.length) := by
  induction k generalizing fs T with
  | zero => exact ⟨[], fs, T, rfl, Emits.refl T, h, .inr (Nat.zero_le _)⟩
  | succ k ih =>
    obtain ⟨ret, e, fs₁, T₁, hact, hemits, hat, hnone⟩ := h.activate onEvent
    obtain ⟨es, fs₂, T₂, hrun, hemits', hat', hor⟩ := ih hat
    refine ⟨e.toList ++ es, fs₂, T₂, ?_, hemits.trans hemits', hat', ?_⟩
    · simp [List.replicate_succ, FrameSync.run, FrameSync.act, hact, hrun]
    · cases e with
      | some ev =>
        refine hor.imp id fun hle => ?_
        simp only [Option.toList_some, List.singleton_append, List.length_cons]
        lia
      | none =>
        -- the end has come, and stays
        left
        obtain ⟨fs', hrun', heof'⟩ :=
          run_of_eof onEvent (hnone htodo rfl) (List.replicate k .activate)
        rw [hrun] at hrun'
        obtain ⟨-, rfl⟩ : es = [] ∧ fs₂ = fs' := by simpa using hrun'
        exact heof'

end Schedules

section Configured

variable {α : Type*} {nbIn : Nat} {fs : FFFrameSync α nbIn}

/-- An input on which nothing has happened. -/
structure Untouched (x : FFFrameSyncIn α) : Prop where
  frame : x.frame = none
  haveNext : x.haveNext = false
  state : x.state = .bof

/-- The levels are set and nothing has happened. -/
theorem configureLevels_spec (hin : ∀ i, Untouched (fs.inputs i)) (heof : fs.eof = false)
    (hready : fs.frameReady = false) (hsync : ∃ i, 0 < ((configureLevels fs).inputs i).sync) :
    (∀ i, Untouched ((configureLevels fs).inputs i)) ∧
      (configureLevels fs).parent = fs.parent ∧ (configureLevels fs).eof = false ∧
      (configureLevels fs).frameReady = false ∧ (configureLevels fs).syncLevel ≠ 0 ∧
      (configureLevels fs).syncLevel = topSync (configureLevels fs) := by
  obtain ⟨fs₁, hfs₁⟩ : ∃ fs₁, fs₁ = { fs with
      inputs := fun i => { fs.inputs i with pts := avNoptsValue, ptsNext := avNoptsValue }
      syncLevel := 2 ^ 32 - 1 } := ⟨_, rfl⟩
  have hconf : configureLevels fs = framesyncSyncLevelUpdate fs₁ := by rw [hfs₁]; rfl
  rw [hconf] at hsync ⊢
  obtain ⟨i, hi⟩ := hsync
  rw [framesyncSyncLevelUpdate_inputs] at hi
  have hstate (j : Fin nbIn) : (fs₁.inputs j).state = .bof := by
    rw [hfs₁]
    exact (hin j).state
  have hne : topSync fs₁ ≠ 0 := by
    have hle : (fs₁.inputs i).sync ≤ topSync fs₁ :=
      Finset.le_sup (f := fun i => (fs₁.inputs i).sync) (Finset.mem_univ i)
    lia
  rcases @framesyncSyncLevelUpdate_spec α nbIn fs₁ (fun j heq => by simp [hstate j] at heq) with
    ⟨-, heq⟩ | ⟨hzero, -⟩
  · rw [heq]
    refine ⟨fun j => ?_, ?_, ?_, ?_, hne, rfl⟩
    · show Untouched (fs₁.inputs j)
      rw [hfs₁]
      exact ⟨(hin j).frame, (hin j).haveNext, (hin j).state⟩
    all_goals rw [hfs₁]
    · exact heof
    · exact hready
  · exact absurd hzero hne

/-- The options change modes and levels only. -/
theorem configureInputs_spec (hin : ∀ i, Untouched (fs.inputs i)) :
    (∀ i, Untouched ((configureInputs (configureOptions fs)).inputs i)) ∧
      (configureInputs (configureOptions fs)).parent = fs.parent ∧
      (configureInputs (configureOptions fs)).eof = fs.eof ∧
      (configureInputs (configureOptions fs)).frameReady = fs.frameReady := by
  have hoptions : (configureOptions fs).inputs = fs.inputs ∧
      (configureOptions fs).parent = fs.parent ∧ (configureOptions fs).eof = fs.eof ∧
      (configureOptions fs).frameReady = fs.frameReady := by
    unfold configureOptions
    dsimp only
    split <;> split <;> exact ⟨rfl, rfl, rfl, rfl⟩
  obtain ⟨hinputs, hparent, heof, hready⟩ := hoptions
  generalize configureOptions fs = fs₁ at hinputs hparent heof hready ⊢
  have hin₁ (i : Fin nbIn) : Untouched (fs₁.inputs i) := by
    rw [hinputs]
    exact hin i
  refine ⟨fun i => ?_, ?_, ?_, ?_⟩
  · obtain ⟨hframe, hnext, hstate⟩ := hin₁ i
    unfold configureInputs
    by_cases hi : 1 ≤ i.val
    all_goals
      dsimp only
      split <;> split <;> (try simp only [hi, if_true, if_false]) <;>
        exact ⟨hframe, hnext, hstate⟩
  all_goals
    unfold configureInputs
    dsimp only
    split <;> split <;> assumption

variable {parent : AVFilterContext α nbIn} {timeBase : AVRational} {settings : Fin nbIn → Setting}
  {optRepeatlast optShortest : Bool} {optEofAction : EOFAction}

/-- A configured synchroniser is at the start of its tracks. -/
theorem ffFramesyncConfigure_at (streams : Fin nbIn → List (AVFrame α))
    (hlinks : ∀ i, parent.inputs i = AVFilterLink.new)
    (hfs : ffFramesyncConfigure (ffFramesyncInit parent timeBase settings optRepeatlast optShortest
      optEofAction) = .ok fs) (hsync : ∃ i, 0 < (fs.inputs i).sync) :
    At fs (fun i => script (streams i)) (fun i => Track.start (fs.inputs i).before
      (fs.inputs i).after (fs.inputs i).sync
      ((streams i).map (·.rescale (fs.inputs i).timeBase fs.timeBase))) := by
  obtain ⟨hin, hparent, heof, hready⟩ := @configureInputs_spec α nbIn
    (ffFramesyncInit parent timeBase settings optRepeatlast optShortest optEofAction)
    (fun i => ⟨rfl, rfl, rfl⟩)
  obtain ⟨fs₁, hfs₁, heq⟩ : ∃ fs₁ : FFFrameSync α nbIn, fs = configureLevels fs₁ ∧
      (∀ i, Untouched (fs₁.inputs i)) ∧ fs₁.parent = parent ∧ fs₁.eof = false ∧
      fs₁.frameReady = false := by
    unfold ffFramesyncConfigure at hfs
    dsimp only at hfs
    split at hfs
    · split at hfs
      · cases hfs
      · exact ⟨_, (Except.ok.inj hfs).symm, hin, hparent, heof, hready⟩
    · exact ⟨_, (Except.ok.inj hfs).symm, hin, hparent, heof, hready⟩
  obtain ⟨hin₁, hparent₁, heof₁, hready₁⟩ := heq
  subst hfs₁
  obtain ⟨hin₂, hparent₂, heof₂, hready₂, hne, hlevel⟩ :=
    configureLevels_spec hin₁ heof₁ hready₁ hsync
  generalize configureLevels fs₁ = fs at hin₂ hparent₂ heof₂ hready₂ hne hlevel ⊢
  refine .inr ⟨⟨fun i => ?_, fun _ => ⟨hne, hlevel⟩, fun heof' => by simp [heof₂] at heof',
    hready₂⟩, heof₂, fun i hended => by simp [Track.start] at hended, fun i => .inl ?_⟩
  · rw [hparent₂, hparent₁, hlinks i]
    refine ⟨rfl, rfl, ?_, fun f hf => ?_, ?_, .inr ⟨rfl, streams i, rfl⟩⟩
    · rw [(hin₂ i).state]
      rfl
    · simp [Track.start] at hf
    · refine .waiting (hin₂ i).haveNext rfl rfl rfl ?_
      simp [Track.start, AVFilterLink.new, script, List.reduceOption, List.filterMap_append]
  · rw [(hin₂ i).frame]
    rfl

end Configured

section AnySchedule

variable {α : Type*} {nbIn : Nat}

/-- The stream of an input in the time base of the synchroniser. -/
def rescaled (fs : FFFrameSync α nbIn) (streams : Fin nbIn → List (AVFrame α)) (i : Fin nbIn) :
    List (AVFrame α) :=
  (streams i).map (·.rescale (fs.inputs i).timeBase fs.timeBase)

/-- The frames and the ends of all streams. -/
def arrivalCount (streams : Fin nbIn → List (AVFrame α)) : Nat := ∑ i, ((streams i).length + 1)

/-- `events` is what the synchroniser makes of the streams, however they arrive. -/
structure EventsOf (onEvent : Callback α nbIn) (fs : FFFrameSync α nbIn)
    (streams : Fin nbIn → List (AVFrame α)) (events : List (Event α nbIn)) : Prop where
  /-- Everything is available from the start. -/
  fromStart : ∀ k, arrivalCount streams < k → ∃ fs',
    run onEvent fs (FrameSync.fromStart streams ++ List.replicate k .activate) = some (events, fs')
  /-- In any order there are never other events, and none follows the end. -/
  anyOrder : ∀ sched, (∀ i, arrivals i sched <+: script (streams i)) →
    ∃ es fs', run onEvent fs sched = some (es, fs') ∧ es <+: events ∧
      (fs'.eof = true → es = events ∧
        ∀ more, ∃ fs'', run onEvent fs (sched ++ more) = some (events, fs''))
  /-- Once everything has arrived, enough calls make all the events. -/
  complete : ∀ sched, (∀ i, arrivals i sched = script (streams i)) →
    ∀ k, arrivalCount streams < k → ∃ fs', fs'.eof = true ∧
      run onEvent fs (sched ++ List.replicate k .activate) = some (events, fs')
  increasing : (events.map (·.pts)).Pairwise (· < ·)
  /-- The current frames are those that the streams say. -/
  frames : ∀ e ∈ events, ∀ i, e.frames i =
    currentAt (fs.inputs i).before (fs.inputs i).after (rescaled fs streams i) e.pts

theorem arrivals_fromStart (streams : Fin nbIn → List (AVFrame α)) (i : Fin nbIn) :
    arrivals i (fromStart streams) = script (streams i) := by
  have hone (j : Fin nbIn) :
      arrivals i ((streams j).map (Action.frame j) ++ [.eof j avNoptsValue]) =
        if j = i then script (streams j) else [] := by
    rw [arrivals_append]
    by_cases hj : j = i
    · subst hj
      simp [arrivals, script, List.filterMap_map]
    · simp [arrivals, hj, List.filterMap_map]
  have hall (l : List (Fin nbIn)) (hl : l.Nodup) :
      arrivals i (l.flatMap fun j => (streams j).map (Action.frame j) ++ [.eof j avNoptsValue]) =
        if i ∈ l then script (streams i) else [] := by
    induction l with
    | nil => simp [arrivals]
    | cons j l ih =>
      obtain ⟨hj, hl⟩ := List.nodup_cons.1 hl
      rw [List.flatMap_cons, arrivals_append, hone, ih hl]
      by_cases hij : j = i
      · subst hij
        simp [hj]
      · simp [hij, Ne.symm hij]
  unfold fromStart
  rw [hall _ (List.nodup_finRange nbIn), if_pos (List.mem_finRange i)]

/-- Frame synchronisation does not depend on the order of arrival: whatever arrives first, the
events are those of the streams. -/
theorem ffFramesyncActivate_anyOrder (onEvent : Callback α nbIn) {parent : AVFilterContext α nbIn}
    {timeBase : AVRational} {settings : Fin nbIn → Setting} {optRepeatlast optShortest : Bool}
    {optEofAction : EOFAction} {fs : FFFrameSync α nbIn} (streams : Fin nbIn → List (AVFrame α))
    (hlinks : ∀ i, parent.inputs i = AVFilterLink.new)
    (hfs : ffFramesyncConfigure (ffFramesyncInit parent timeBase settings optRepeatlast optShortest
      optEofAction) = .ok fs)
    (hsync : ∃ i, 0 < (fs.inputs i).sync) (hinc : ∀ i, Increasing (rescaled fs streams i)) :
    ∃ events, EventsOf onEvent fs streams events := by
  have hat := ffFramesyncConfigure_at streams hlinks hfs hsync
  obtain ⟨T, hT⟩ : ∃ T : Fin nbIn → Track α, T = fun i => Track.start (fs.inputs i).before
      (fs.inputs i).after (fs.inputs i).sync (rescaled fs streams i) := ⟨_, rfl⟩
  have hat' : At fs (fun i => script (streams i)) T := by rw [hT]; exact hat
  obtain ⟨events, Tend, hevents, hend⟩ :=
    exists_emits_none (fun _ _ _ hturn => budget_lt hturn) T
  have hbudget : budget T = arrivalCount streams := by
    refine Finset.sum_congr rfl fun i _ => ?_
    simp [hT, Track.budget, Track.start, rescaled]
  have hlast : ∀ sched, (∀ i, arrivals i sched = script (streams i)) →
      ∀ k, arrivalCount streams < k → ∃ fs', fs'.eof = true ∧
        run onEvent fs (sched ++ List.replicate k .activate) = some (events, fs') := by
    intro sched hsched k hk
    have hprefix (i : Fin nbIn) : arrivals i sched <+: script (streams i) := by rw [hsched i]
    obtain ⟨es, fs₁, T₁, hrun, hemits, hat₁⟩ := hat'.run onEvent hprefix
    obtain ⟨es', fs₂, T₂, hrun', hemits', hat₂, hor⟩ :=
      hat₁.replicate (fun i => by simp [hsched i]) onEvent k
    have hpaid := (hemits.trans hemits').length_add_le fun _ _ _ hturn => budget_lt hturn
    have heof : fs₂.eof = true := by
      refine hor.resolve_right fun hle => ?_
      rw [List.length_append] at hpaid
      lia
    have hstop : turn T₂ = none := by
      rcases hat₂ with ⟨-, hstop⟩ | hgoing
      · exact hstop
      · simp [hgoing.notEof] at heof
    refine ⟨fs₂, heof, ?_⟩
    rw [run_append onEvent hrun hrun', (hemits.trans hemits').eq_of_none hevents hstop hend]
  have hmodes (i : Fin nbIn) :
      (T i).before = (fs.inputs i).before ∧ (T i).after = (fs.inputs i).after := by
    rw [hT]
    exact ⟨rfl, rfl⟩
  have hfacts := events_of_emits hinc hevents hmodes
    fun i => by rw [hT]; exact passed_start _ _ _ _ _
  refine ⟨events, fun k hk => ?_, fun sched hsched => ?_, hlast, hfacts.1, hfacts.2.2⟩
  · obtain ⟨fs', -, hrun⟩ := hlast _ (arrivals_fromStart streams) k hk
    exact ⟨fs', hrun⟩
  · obtain ⟨es, fs₁, T₁, hrun, hemits, hat₁⟩ := hat'.run onEvent hsched
    refine ⟨es, fs₁, hrun, hemits.prefix_of_none hevents hend, fun heof => ?_⟩
    have hstop : turn T₁ = none := by
      rcases hat₁ with ⟨-, hstop⟩ | hgoing
      · exact hstop
      · simp [hgoing.notEof] at heof
    have hes : es = events := hemits.eq_of_none hevents hstop hend
    refine ⟨hes, fun more => ?_⟩
    obtain ⟨fs'', hmore, -⟩ := run_of_eof onEvent heof more
    refine ⟨fs'', ?_⟩
    rw [run_append onEvent hrun hmore, List.append_nil, hes]

/-- Two inputs, of which the second is extended to the past and to the future. -/
theorem ffFramesyncActivate_anyOrder_dual : ∃ fs : FFFrameSync Nat 2,
    ffFramesyncConfigure (ffFramesyncInit ⟨fun _ => AVFilterLink.new, AVFilterLink.new⟩ ⟨0, 1⟩
      ![⟨.stop, .null, ⟨1, 25⟩, 2⟩, ⟨.infinity, .infinity, ⟨1, 25⟩, 1⟩] true false
      .actionRepeat) = .ok fs ∧
    ∃ events, EventsOf (fun _ => [0]) fs
      ![[⟨0, 10⟩, ⟨1, 11⟩, ⟨5, 12⟩], [⟨1, 20⟩, ⟨3, 21⟩]] events := by
  obtain ⟨fs, hfs⟩ : ∃ fs : FFFrameSync Nat 2,
      ffFramesyncConfigure (ffFramesyncInit ⟨fun _ => AVFilterLink.new, AVFilterLink.new⟩ ⟨0, 1⟩
        ![⟨.stop, .null, ⟨1, 25⟩, 2⟩, ⟨.infinity, .infinity, ⟨1, 25⟩, 1⟩] true false
        .actionRepeat) = .ok fs := ⟨_, rfl⟩
  refine ⟨fs, hfs, ffFramesyncActivate_anyOrder _ _ (fun _ => rfl) hfs ?_ ?_⟩
  · cases hfs
    exact ⟨0, by decide⟩
  · cases hfs
    intro i
    unfold Increasing
    revert i
    decide

end AnySchedule

end FFmpeg.Libavfilter.FrameSync
