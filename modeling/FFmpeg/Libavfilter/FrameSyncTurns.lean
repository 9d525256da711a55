import FFmpeg.Libavfilter.FrameSyncFollows

/-!
# Turns of the synchroniser

Once no input is missing a frame, the rest of the loop of `framesync_advance` is one turn of
the tracks.
-/

namespace FFmpeg.Libavfilter.FrameSync

open Common Libavutil

section Input

variable {α : Type*}

/-- The condition under which `framesync_advance` moves an input. -/
def FFFrameSyncIn.Due (pts : Int) (x : FFFrameSyncIn α) : Prop :=
  x.ptsNext = pts ∨ (x.before = .infinity ∧ x.state = .bof)

instance (pts : Int) (x : FFFrameSyncIn α) : Decidable (x.Due pts) :=
  inferInstanceAs (Decidable (_ ∨ _))

/-- The input after its turn of the loop. -/
def FFFrameSyncIn.advance (pts : Int) (x : FFFrameSyncIn α) : FFFrameSyncIn α :=
  if x.Due pts then x.promote else x

variable {tb : AVRational} {x : FFFrameSyncIn α} {link : AVFilterLink α}
  {todo : List (Option (AVFrame α))} {k : Track α} {pts : Int}

theorem Follows.ptsNext_eq (h : Follows tb x link todo k) (hhas : x.Has)
    (hended : k.ended = false) : x.haveNext = true ∧ x.ptsNext = k.nextPts := by
  cases h.next with
  | waiting hnext _ _ _ _ =>
    rcases hhas with hhas | hhas
    · simp [hnext] at hhas
    · simp [h.state_eq_eof.1 hhas] at hended
  | frame f hnext _ _ hpts _ _ hrest => exact ⟨hnext, by simp only [hpts, Track.nextPts, hrest]⟩
  | status hnext _ _ hpts _ _ _ => exact ⟨hnext, hpts⟩
  | finished _ hyes _ _ _ _ => simp [hended] at hyes

theorem Follows.due_iff (h : Follows tb x link todo k) (hhas : x.Has) (hended : k.ended = false) :
    x.Due pts ↔ k.Due pts := by
  unfold FFFrameSyncIn.Due Track.Due
  rw [(h.ptsNext_eq hhas hended).2, h.before, h.state, Track.state_eq_bof]
  simp [hended]

theorem Follows.promote_eq (h : Follows tb x link todo k) (hhas : x.Has)
    (hended : k.ended = false) :
    x.promote.frame = k.next.current ∧ (x.promote.frame.isSome ↔ k.rest ≠ []) ∧
      (x.promote.state = .eof ↔ k.rest = []) := by
  cases h.next with
  | waiting hnext _ _ _ _ =>
    rcases hhas with hhas | hhas
    · simp [hnext] at hhas
    · simp [h.state_eq_eof.1 hhas] at hended
  | frame f _ _ hframe _ _ _ hrest =>
    refine ⟨?_, ?_, ?_⟩ <;>
      simp [FFFrameSyncIn.promote, hframe, Track.next, hrest, Track.current, hended]
  | status _ _ hframe _ _ hrest _ =>
    refine ⟨?_, ?_, ?_⟩ <;>
      simp [FFFrameSyncIn.promote, hframe, Track.next, hrest, Track.current]
  | finished _ hyes _ _ _ _ => simp [hended] at hyes

theorem Follows.promote_of_ended (h : Follows tb x link todo k) (hended : k.ended = true) :
    x.promote.frame = none ∧ x.promote.state = .eof := by
  cases h.next with
  | waiting _ hnot _ _ _ => simp [hended] at hnot
  | frame _ _ hnot _ _ _ _ _ => simp [hended] at hnot
  | status _ hnot _ _ _ _ _ => simp [hended] at hnot
  | finished _ _ hframe _ _ _ => simp [FFFrameSyncIn.promote, hframe]

/-- After its turn the input follows its track after a turn. -/
theorem Follows.advance (h : Follows tb x link todo k) (hhas : x.Has) :
    Follows tb (x.advance pts) link todo (k.advance pts) := by
  cases h.next with
  | waiting hnext hended _ _ _ =>
    rcases hhas with hhas | hhas
    · simp [hnext] at hhas
    · simp [h.state_eq_eof.1 hhas] at hended
  | frame f hnext hended hframe hpts hout hsync hrest =>
    by_cases hdue : k.Due pts
    · have hdue' : x.Due pts := (h.due_iff hhas hended).2 hdue
      rw [Track.advance_of_due hdue, FFFrameSyncIn.advance, if_pos hdue']
      have hkeep : k.next = { k with
          shown := k.shown ++ [f]
          rest := (link.fifo ++ todo.reduceOption).map (·.rescale x.timeBase tb) } := by
        simp only [Track.next, hrest]
      rw [hkeep]
      refine ⟨h.before, h.after, ?_, ?_, ?_, h.arriving⟩
      · simp [FFFrameSyncIn.promote, hframe, Track.state, hended]
      · intro g hg _
        have : f = g := by simpa using hg
        simp [FFFrameSyncIn.promote, hpts, this]
      · exact .waiting rfl hended hout hsync rfl
    · have hdue' : ¬x.Due pts := fun hdue' => hdue ((h.due_iff hhas hended).1 hdue')
      rw [Track.advance_of_not_due hdue, FFFrameSyncIn.advance, if_neg hdue']
      exact h
  | status hnext hended hframe hpts hsync hrest hin =>
    by_cases hdue : k.Due pts
    · have hdue' : x.Due pts := (h.due_iff hhas hended).2 hdue
      rw [Track.advance_of_due hdue, FFFrameSyncIn.advance, if_pos hdue']
      have hkeep : k.next = { k with ended := true } := by simp only [Track.next, hrest]
      rw [hkeep]
      refine ⟨h.before, h.after, ?_, fun _ _ hnot => absurd hnot (by simp), ?_, h.arriving⟩
      · simp [FFFrameSyncIn.promote, hframe, Track.state]
      · exact .finished rfl rfl rfl hsync hrest hin
    · have hdue' : ¬x.Due pts := fun hdue' => hdue ((h.due_iff hhas hended).1 hdue')
      rw [Track.advance_of_not_due hdue, FFFrameSyncIn.advance, if_neg hdue']
      exact h
  | finished hnext hended hframe hsync hrest hin =>
    -- an input that has ended may be due at `AV_NOPTS_VALUE`, and stays ended
    have hdue : ¬k.Due pts := fun hdue => by simp [hdue.1] at hended
    rw [Track.advance_of_not_due hdue, FFFrameSyncIn.advance]
    split
    · refine ⟨h.before, h.after, ?_, fun _ _ hnot => absurd hnot (by simp [hended]), ?_, h.arriving⟩
      · simp [FFFrameSyncIn.promote, hframe, Track.state, hended]
      · exact .finished rfl hended rfl hsync hrest hin
    · exact h

end Input

section Loop

variable {α : Type*} {nbIn : Nat}

/-- The end of this input stops all. -/
def FFFrameSyncIn.StopsAt (pts : Int) (x : FFFrameSyncIn α) : Prop :=
  x.Due pts ∧ x.promote.state = .eof ∧ x.after = .stop

/-- A frame of this input makes an event. -/
def FFFrameSyncIn.ReadyAt (pts : Int) (level : Nat) (x : FFFrameSyncIn α) : Prop :=
  x.Due pts ∧ x.sync = level ∧ x.promote.frame.isSome

/-- What the loop over some inputs does to the synchroniser. -/
structure Moved (pts : Int) (fs fs' : FFFrameSync α nbIn) (l : List (Fin nbIn)) : Prop where
  inputs : ∀ j, fs'.inputs j = if j ∈ l then (fs.inputs j).advance pts else fs.inputs j
  links : fs'.parent.inputs = fs.parent.inputs
  timeBase : fs'.timeBase = fs.timeBase
  syncLevel : fs'.syncLevel = fs.syncLevel
  eof : fs'.eof = true ↔ fs.eof = true ∨ ∃ i ∈ l, (fs.inputs i).StopsAt pts
  ready : fs'.eof = false →
    (fs'.frameReady = true ↔ fs.frameReady = true ∨ ∃ i ∈ l, (fs.inputs i).ReadyAt pts fs.syncLevel)

theorem advanceInput_moved (pts : Int) (fs : FFFrameSync α nbIn) (i : Fin nbIn) :
    Moved pts fs (advanceInput pts fs i) [i] := by
  by_cases hdue : (fs.inputs i).Due pts
  · obtain ⟨fs₁, hfs₁⟩ : ∃ fs₁, fs₁ =
        (if (fs.inputs i).promote.sync = fs.syncLevel ∧ (fs.inputs i).promote.frame.isSome then
          { fs.setIn i (fs.inputs i).promote with frameReady := true }
        else fs.setIn i (fs.inputs i).promote) := ⟨_, rfl⟩
    have hstep : advanceInput pts fs i =
        if (fs.inputs i).promote.state = .eof ∧ (fs.inputs i).promote.after = .stop then
          framesyncEof fs₁ else fs₁ := by
      rw [hfs₁]
      exact if_pos hdue
    have hinputs₁ : fs₁.inputs = Function.update fs.inputs i (fs.inputs i).promote := by
      rw [hfs₁]; split <;> rfl
    have hlinks₁ : fs₁.parent.inputs = fs.parent.inputs := by rw [hfs₁]; split <;> rfl
    have htb₁ : fs₁.timeBase = fs.timeBase := by rw [hfs₁]; split <;> rfl
    have hlevel₁ : fs₁.syncLevel = fs.syncLevel := by rw [hfs₁]; split <;> rfl
    have heof₁ : fs₁.eof = fs.eof := by rw [hfs₁]; split <;> rfl
    have hready₁ : fs₁.frameReady = true ↔
        fs.frameReady = true ∨ (fs.inputs i).ReadyAt pts fs.syncLevel := by
      rw [hfs₁]
      split
      · rename_i hyes
        exact iff_of_true rfl (.inr ⟨hdue, hyes.1, hyes.2⟩)
      · rename_i hno
        refine ⟨fun h => .inl h, ?_⟩
        rintro (h | ⟨-, hsync, hframe⟩)
        · exact h
        · exact absurd ⟨hsync, hframe⟩ hno
    have hinputs (j : Fin nbIn) : Function.update fs.inputs i (fs.inputs i).promote j =
        if j ∈ [i] then (fs.inputs j).advance pts else fs.inputs j := by
      by_cases hj : j = i
      · subst hj
        simp [FFFrameSyncIn.advance, hdue]
      · simp [hj]
    rw [hstep]
    split
    · rename_i hstop
      refine ⟨by simpa [hinputs₁] using hinputs, hlinks₁, htb₁, hlevel₁, ?_, fun hnot => ?_⟩
      · exact iff_of_true rfl (.inr ⟨i, List.mem_singleton_self i, hdue, hstop⟩)
      · simp at hnot
    · rename_i hstop
      refine ⟨by simpa [hinputs₁] using hinputs, hlinks₁, htb₁, hlevel₁, ?_, fun _ => ?_⟩
      · rw [heof₁]
        refine ⟨fun h => .inl h, ?_⟩
        rintro (h | ⟨j, hj, -, hstate, hafter⟩)
        · exact h
        · obtain rfl := List.mem_singleton.1 hj
          exact absurd ⟨hstate, hafter⟩ hstop
      · simpa using hready₁
  · have hstep : advanceInput pts fs i = fs := if_neg hdue
    rw [hstep]
    refine ⟨fun j => ?_, rfl, rfl, rfl, ?_, fun _ => ?_⟩
    · by_cases hj : j = i
      · subst hj
        simp [FFFrameSyncIn.advance, hdue]
      · simp [hj]
    · simp [FFFrameSyncIn.StopsAt, hdue]
    · simp [FFFrameSyncIn.ReadyAt, hdue]

/-- The loop over a list of different inputs. -/
theorem advanceInput_foldl (pts : Int) (fs : FFFrameSync α nbIn) {l : List (Fin nbIn)}
    (hl : l.Nodup) : Moved pts fs (l.foldl (advanceInput pts) fs) l := by
  induction l generalizing fs with
  | nil => exact ⟨by simp, rfl, rfl, rfl, by simp, by simp⟩
  | cons i l ih =>
    obtain ⟨hi, hl⟩ := List.nodup_cons.1 hl
    have hone := advanceInput_moved pts fs i
    have hrest := ih (advanceInput pts fs i) hl
    rw [List.foldl_cons]
    -- the other inputs are as they were before the turn of input `i`
    have hother (j : Fin nbIn) (hj : j ∈ l) : (advanceInput pts fs i).inputs j = fs.inputs j := by
      have hne : j ≠ i := fun h => hi (h ▸ hj)
      rw [hone.inputs j]
      simp [hne]
    refine ⟨fun j => ?_, hrest.links.trans hone.links, hrest.timeBase.trans hone.timeBase,
      hrest.syncLevel.trans hone.syncLevel, ?_, fun heof => ?_⟩
    · rw [hrest.inputs j, hone.inputs j]
      by_cases hj : j = i
      · subst hj
        simp [hi]
      · simp [hj]
    · rw [hrest.eof, hone.eof]
      simp only [List.mem_cons, List.not_mem_nil, or_false, exists_eq_left, exists_eq_or_imp,
        or_assoc]
      refine or_congr_right (or_congr_right (exists_congr fun j => and_congr_right fun hj => ?_))
      rw [hother j hj]
    · have heof₁ : (advanceInput pts fs i).eof = false := by
        by_contra hne
        have := hrest.eof.2 (.inl (by simpa using hne))
        simp [heof] at this
      rw [hrest.ready heof, hone.ready heof₁, hone.syncLevel]
      simp only [List.mem_cons, List.not_mem_nil, or_false, exists_eq_left, exists_eq_or_imp,
        or_assoc]
      refine or_congr_right (or_congr_right (exists_congr fun j => and_congr_right fun hj => ?_))
      rw [hother j hj]

end Loop

section Turn

variable {α : Type*} {nbIn : Nat} {fs : FFFrameSync α nbIn} {T : Fin nbIn → Track α}
  {todo : Fin nbIn → List (Option (AVFrame α))} {pts : Int}

/-- No other input with a level goes on before input `i`: its frame may be taken. -/
def Outlasted (fs : FFFrameSync α nbIn) (i : Fin nbIn) : Prop :=
  ∀ j, j ≠ i → 0 < (fs.inputs j).sync → (fs.inputs j).haveNext = true ∧
    (int64Max ≤ (fs.inputs j).ptsNext ∨
      ((fs.inputs i).haveNext = true ∧ (fs.inputs i).ptsNext ≤ (fs.inputs j).ptsNext))

/-- No input waits for a first frame that is extended to the past. -/
def Opened (fs : FFFrameSync α nbIn) : Prop :=
  ∀ i, ¬((fs.inputs i).before = .infinity ∧ (fs.inputs i).state = .bof)

/-- The current frames are those of the tracks, but for the frames that a callback has taken. -/
def Shows (fs : FFFrameSync α nbIn) (T : Fin nbIn → Track α) : Prop :=
  ∀ i, (fs.inputs i).frame = (T i).current ∨
    ((fs.inputs i).frame = none ∧ Outlasted fs i ∧ Opened fs)

/-- The synchroniser between two turns, before its end. -/
structure Going (fs : FFFrameSync α nbIn) (todo : Fin nbIn → List (Option (AVFrame α)))
    (T : Fin nbIn → Track α) : Prop where
  feeding : Feeding fs todo T
  notEof : fs.eof = false
  notStopped : ∀ i, (T i).ended = true → (T i).after ≠ .stop
  shows : Shows fs T

theorem Shows.of_consumed {fs' : FFFrameSync α nbIn} (h : Shows fs T)
    (hconsumed : ∀ i, Consumed (fs.inputs i) (fs'.inputs i)) : Shows fs' T := by
  intro i
  rw [(hconsumed i).frame]
  refine (h i).imp id ?_
  rintro ⟨hframe, hlast, hopened⟩
  refine ⟨hframe, fun j hj hsync => ?_, fun j hj => ?_⟩
  · have hsync' : 0 < (fs.inputs j).sync := by
      rcases (hconsumed j).next with heq | ⟨-, -, hle⟩
      · rwa [← heq]
      · lia
    obtain ⟨hnext, hpts⟩ := hlast j hj hsync'
    -- what has a next frame is not changed
    have hkeep (m : Fin nbIn) (hm : (fs.inputs m).haveNext = true) :
        fs'.inputs m = fs.inputs m := by
      rcases (hconsumed m).next with heq | ⟨hno, -, -⟩
      · exact heq
      · simp [hm] at hno
    rw [hkeep j hnext]
    refine ⟨hnext, hpts.imp id ?_⟩
    rintro ⟨hi, hle⟩
    rw [hkeep i hi]
    exact ⟨hi, hle⟩
  · rw [(hconsumed j).before, (hconsumed j).state] at hj
    exact hopened j hj

theorem Feeding.minPtsNext_eq (h : Feeding fs todo T) (hhas : ∀ i, (fs.inputs i).Has) :
    minPtsNext fs = nextPts T := by
  unfold minPtsNext nextPts
  congr 1
  funext m i
  by_cases hended : (T i).ended = false
  · obtain ⟨hnext, hpts⟩ := (h.follows i).ptsNext_eq (hhas i) hended
    simp [hnext, hpts, hended]
  · have hnext : (fs.inputs i).haveNext = false := by
      cases (h.follows i).next with
      | waiting hnext _ _ _ _ => exact hnext
      | frame _ _ hnot _ _ _ _ _ => exact absurd hnot hended
      | status _ hnot _ _ _ _ _ => exact absurd hnot hended
      | finished hnext _ _ _ _ _ => exact hnext
    simp [hnext, hended]

/-- If the frame of an input has been taken, and the input does not go on, then no input with
a level does. -/
theorem Outlasted.not_due {i j : Fin nbIn} (h : Outlasted fs i) (hopened : Opened fs)
    (hpts : pts < int64Max)
    (hmin : ∀ m, (fs.inputs m).haveNext = true → pts ≤ (fs.inputs m).ptsNext)
    (hi : ¬(fs.inputs i).Due pts) (hj : j ≠ i) (hsync : 0 < (fs.inputs j).sync) :
    ¬(fs.inputs j).Due pts := by
  obtain ⟨hnext, hor⟩ := h j hj hsync
  rintro (heq | hopen)
  · rcases hor with hmax | ⟨hnexti, hle⟩
    · lia
    · have := hmin i hnexti
      exact hi (.inl (by lia))
  · exact hopened j hopen

end Turn

section Turn

variable {α : Type*} {nbIn : Nat} {fs : FFFrameSync α nbIn} {T : Fin nbIn → Track α}
  {todo : Fin nbIn → List (Option (AVFrame α))} {pts : Int}

variable {tb : AVRational} {x : FFFrameSyncIn α} {link : AVFilterLink α}
  {l : List (Option (AVFrame α))} {k : Track α}

theorem Follows.stopsAt_iff (h : Follows tb x link l k) (hhas : x.Has)
    (hstopped : k.ended = true → k.after ≠ .stop) :
    x.StopsAt pts ↔ k.Due pts ∧ k.rest = [] ∧ k.after = .stop := by
  unfold FFFrameSyncIn.StopsAt
  rw [h.after]
  cases hended : k.ended with
  | true => exact iff_of_false (fun hx => hstopped hended hx.2.2) (fun hk => hstopped hended hk.2.2)
  | false => rw [h.due_iff hhas hended, (h.promote_eq hhas hended).2.2]

theorem Follows.readyAt_iff (h : Follows tb x link l k) (hhas : x.Has) (level : Nat) :
    x.ReadyAt pts level ↔ k.Due pts ∧ k.rest ≠ [] ∧ k.level = level := by
  unfold FFFrameSyncIn.ReadyAt
  rw [h.level_eq hhas]
  cases hended : k.ended with
  | true =>
    refine iff_of_false (fun hx => ?_) (fun hk => ?_)
    · simp [(h.promote_of_ended hended).1] at hx
    · simp [hk.1.1] at hended
  | false =>
    rw [h.due_iff hhas hended, (h.promote_eq hhas hended).2.1]
    tauto

/-- What is shown after a turn, if nothing stops. -/
theorem Going.shows_advance (h : Going fs todo T) (hhas : ∀ i, (fs.inputs i).Has)
    (hmax : pts < int64Max) (hpts : pts = nextPts T) {fs' : FFFrameSync α nbIn}
    (hinputs : ∀ i, fs'.inputs i = (fs.inputs i).advance pts) :
    Opened fs' ∧ Shows fs' (fun i => (T i).advance pts) ∧
      ((∃ i, (fs.inputs i).ReadyAt pts fs.syncLevel) →
        ∀ i, (fs'.inputs i).frame = ((T i).advance pts).current) := by
  have hmin (m : Fin nbIn) (hm : (fs.inputs m).haveNext = true) : pts ≤ (fs.inputs m).ptsNext := by
    rw [hpts, ← h.feeding.minPtsNext_eq hhas]
    exact (foldl_min_spec (fun i => (fs.inputs i).haveNext = true)
      (fun i => (fs.inputs i).ptsNext) eachInput int64Max).2.1 m (List.mem_finRange m) hm
  have hopened : Opened fs' := by
    rintro i ⟨hbefore, hbof⟩
    rw [hinputs i, FFFrameSyncIn.advance] at hbefore hbof
    split at hbof
    · simp only [FFFrameSyncIn.promote] at hbof
      split at hbof <;> cases hbof
    · rename_i hdue
      rw [if_neg hdue] at hbefore
      exact hdue (.inr ⟨hbefore, hbof⟩)
  -- an input that goes on shows what its track shows
  have hdueFrame (i : Fin nbIn) (hdue : (fs.inputs i).Due pts) :
      (fs'.inputs i).frame = ((T i).advance pts).current := by
    have hi := h.feeding.follows i
    rw [hinputs i, FFFrameSyncIn.advance, if_pos hdue]
    cases hended : (T i).ended with
    | true =>
      have hnot : ¬(T i).Due pts := fun hk => by simp [hk.1] at hended
      rw [Track.advance_of_not_due hnot, (hi.promote_of_ended hended).1]
      simp [Track.current, hended]
    | false =>
      rw [Track.advance_of_due ((hi.due_iff (hhas i) hended).1 hdue)]
      exact (hi.promote_eq (hhas i) hended).1
  have hkeep (i : Fin nbIn) (hdue : ¬(fs.inputs i).Due pts) :
      fs'.inputs i = fs.inputs i ∧ (T i).advance pts = T i := by
    refine ⟨by rw [hinputs i, FFFrameSyncIn.advance, if_neg hdue], ?_⟩
    refine Track.advance_of_not_due fun hk => hdue ?_
    exact ((h.feeding.follows i).due_iff (hhas i) hk.1).2 hk
  refine ⟨hopened, fun i => ?_, ?_⟩
  · by_cases hdue : (fs.inputs i).Due pts
    · exact .inl (hdueFrame i hdue)
    · obtain ⟨hsame, hk⟩ := hkeep i hdue
      show (fs'.inputs i).frame = ((T i).advance pts).current ∨ _
      rw [hsame, hk]
      refine (h.shows i).imp id ?_
      rintro ⟨hframe, hlast, hopen⟩
      refine ⟨hframe, fun j hj hsync => ?_, hopened⟩
      have hsync' : 0 < (fs.inputs j).sync := by
        rw [hinputs j, FFFrameSyncIn.advance] at hsync
        split at hsync <;> exact hsync
      have hj' := hlast.not_due hopen hmax hmin hdue hj hsync'
      rw [(hkeep j hj').1, hsame]
      exact hlast j hj hsync'
  · rintro ⟨s, hs, hlevel, -⟩ i
    by_cases hdue : (fs.inputs i).Due pts
    · exact hdueFrame i hdue
    · obtain ⟨hsame, hk⟩ := hkeep i hdue
      rw [hsame, hk]
      rcases h.shows i with hframe | ⟨-, hlast, hopen⟩
      · exact hframe
      · have hne : s ≠ i := fun heq => hdue (heq ▸ hs)
        have hpos := (h.feeding.level h.notEof).1
        exact absurd hs (hlast.not_due hopen hmax hmin hdue hne (by lia))

/-- One turn: it ends when the tracks end, and otherwise the synchroniser is at the next place
of its tracks, with an event when they emit one. -/
theorem Going.takeTurn (h : Going fs todo T) (hhas : ∀ i, (fs.inputs i).Has)
    (hmax : nextPts T ≠ int64Max) :
    ((advanceInputs (nextPts T) fs).eof = true ∧ turn T = none) ∨
      ((advanceInputs (nextPts T) fs).eof = false ∧ ∃ e T', FrameSync.turn T = some (e, T') ∧
        Going { advanceInputs (nextPts T) fs with frameReady := false } todo T' ∧
        Opened (advanceInputs (nextPts T) fs) ∧
        (advanceInputs (nextPts T) fs).frameReady = e.isSome ∧
        ∀ ev ∈ e, ev = ⟨(advanceInputs (nextPts T) fs).pts,
          fun i => ((advanceInputs (nextPts T) fs).inputs i).frame⟩) := by
  have hlt : nextPts T < int64Max := lt_of_le_of_ne (nextPts_le_int64Max T) hmax
  have hmoved := advanceInput_foldl (nextPts T) fs (List.nodup_finRange nbIn)
  obtain ⟨hpos, hlevel⟩ := h.feeding.level h.notEof
  have htop : FrameSync.syncLevel T = fs.syncLevel :=
    (syncLevel_eq_topSync h.feeding.follows hhas).trans hlevel.symm
  have hstops : (∃ i ∈ eachInput, (fs.inputs i).StopsAt (nextPts T)) ↔ Stops (nextPts T) T := by
    simp only [List.mem_finRange, true_and]
    exact exists_congr fun i =>
      (h.feeding.follows i).stopsAt_iff (hhas i) (h.notStopped i)
  have hreadies : (∃ i, (fs.inputs i).ReadyAt (nextPts T) fs.syncLevel) ↔
      ∃ i, (T i).Due (nextPts T) ∧ (T i).rest ≠ [] ∧ (T i).level = FrameSync.syncLevel T := by
    rw [htop]
    exact exists_congr fun i => (h.feeding.follows i).readyAt_iff (hhas i) _
  obtain ⟨fs₁, hfs₁⟩ : ∃ fs₁, fs₁ = eachInput.foldl (advanceInput (nextPts T)) fs := ⟨_, rfl⟩
  rw [← hfs₁] at hmoved
  have hinputs (i : Fin nbIn) : fs₁.inputs i = (fs.inputs i).advance (nextPts T) := by
    rw [hmoved.inputs i, if_pos (List.mem_finRange i)]
  obtain ⟨fs', hfs'⟩ : ∃ fs', fs' = advanceInputs (nextPts T) fs := ⟨_, rfl⟩
  have hfields : fs'.inputs = fs₁.inputs ∧ fs'.parent = fs₁.parent ∧ fs'.timeBase = fs₁.timeBase ∧
      fs'.syncLevel = fs₁.syncLevel ∧ fs'.eof = fs₁.eof ∧ fs'.pts = nextPts T := by
    rw [hfs', advanceInputs, ← hfs₁]
    dsimp only
    split <;> exact ⟨rfl, rfl, rfl, rfl, rfl, rfl⟩
  have hready : fs'.frameReady = true ↔ fs₁.frameReady = true ∧
      ¬∃ i, (fs₁.inputs i).state = .bof ∧ (fs₁.inputs i).before = .stop := by
    rw [hfs', advanceInputs, ← hfs₁]
    dsimp only
    split
    · rename_i hyes
      exact iff_of_false (by simp) (fun hno => hno.2 hyes.2)
    · rename_i hno
      exact ⟨fun hr => ⟨hr, fun hex => hno ⟨hr, hex⟩⟩, fun hr => hr.1⟩
  rw [← hfs']
  obtain ⟨hfin, hfpar, hftb, hflevel, hfeof, hfpts⟩ := hfields
  by_cases hstop : Stops (nextPts T) T
  · left
    refine ⟨?_, ?_⟩
    · rw [hfeof, hmoved.eof]
      exact .inr (hstops.2 hstop)
    · rw [FrameSync.turn, if_pos (.inr (.inr hstop))]
  · right
    have heof₁ : fs₁.eof = false := by
      by_contra hne
      rcases hmoved.eof.1 (by simpa using hne) with hyes | hyes
      · simp [h.notEof] at hyes
      · exact hstop (hstops.1 hyes)
    have hturn : ¬(FrameSync.syncLevel T = 0 ∨ nextPts T = int64Max ∨ Stops (nextPts T) T) := by
      rintro (hzero | hend | hs)
      · lia
      · exact hmax hend
      · exact hstop hs
    have hfollows (i : Fin nbIn) : Follows fs'.timeBase (fs'.inputs i) (fs'.parent.inputs i)
        (todo i) ((T i).advance (nextPts T)) := by
      rw [hfin, hfpar, hftb, hmoved.links, hmoved.timeBase, hinputs i]
      exact (h.feeding.follows i).advance (hhas i)
    have hinputs' (i : Fin nbIn) : fs'.inputs i = (fs.inputs i).advance (nextPts T) := by
      rw [hfin, hinputs i]
    obtain ⟨hopened, hshows, hall⟩ := h.shows_advance hhas hlt rfl hinputs'
    have hemit : fs'.frameReady = true ↔ Ready (nextPts T) T := by
      rw [hready, hmoved.ready heof₁, h.feeding.notReady]
      simp only [Bool.false_eq_true, false_or, List.mem_finRange, true_and]
      rw [hreadies, Ready, not_exists]
      refine and_congr_right fun _ => forall_congr' fun i => not_congr ?_
      rw [← hfin, (hfollows i).state, (hfollows i).before, Track.advance_before]
    have htopSync : topSync fs' = topSync fs := by
      unfold topSync
      congr 1
      funext i
      rw [hfin, hinputs i, FFFrameSyncIn.advance]
      split <;> rfl
    refine ⟨by rw [hfeof, heof₁], _, _, if_neg hturn, ?_, hopened, ?_, ?_⟩
    · refine ⟨⟨hfollows, fun _ => ?_, fun heof => ?_, rfl⟩, by rw [← heof₁, ← hfeof], ?_, hshows⟩
      · show fs'.syncLevel ≠ 0 ∧ fs'.syncLevel = topSync fs'
        rw [hflevel, hmoved.syncLevel, htopSync]
        exact ⟨hpos, hlevel⟩
      · exact absurd (hfeof.symm.trans heof) (by simp [heof₁])
      · intro i hended hafter
        rw [Track.advance_after] at hafter
        by_cases hdue : (T i).Due (nextPts T)
        · rw [Track.advance_of_due hdue] at hended
          have hrest : (T i).rest = [] := by
            by_contra hne
            obtain ⟨f, rest, hrest⟩ := List.exists_cons_of_ne_nil hne
            simp [Track.next, hrest, hdue.1] at hended
          exact hstop ⟨i, hdue, hrest, hafter⟩
        · rw [Track.advance_of_not_due hdue] at hended
          exact h.notStopped i hended hafter
    · by_cases hr : Ready (nextPts T) T
      · rw [if_pos hr]
        exact hemit.2 hr
      · rw [if_neg hr]
        simpa using fun hyes => hr (hemit.1 hyes)
    · intro ev hev
      by_cases hr : Ready (nextPts T) T
      · rw [if_pos hr] at hev
        obtain rfl : _ = ev := by simpa using hev
        rw [hfpts]
        congr 1
        funext i
        exact (hall (hreadies.2 hr.1) i).symm
      · rw [if_neg hr] at hev
        simp at hev

end Turn

end FFmpeg.Libavfilter.FrameSync
