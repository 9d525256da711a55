import Mathlib.Data.List.ReduceOption
import FFmpeg.Libavfilter.FrameSyncTracks

/-!
# The synchroniser follows its tracks

An input of the synchroniser holds at most one next frame, and its link the frames that have
arrived.  Taking frames from the links moves an input along its track only in appearance: the
track stays as it is.
-/

namespace FFmpeg.Libavfilter.FrameSync

open Common Libavutil

section Follows

variable {α : Type*}

/-- A frame with its time in another time base. -/
def AVFrame.rescale (frame : AVFrame α) (bq cq : AVRational) : AVFrame α :=
  { frame with pts := avRescaleQ frame.pts bq cq }

/-- Where the next frame of a track is: still in the link or to come, already taken, or the
end has been taken or passed. -/
inductive Next (tb : AVRational) (x : FFFrameSyncIn α) (link : AVFilterLink α)
    (todo : List (Option (AVFrame α))) (k : Track α) : Prop
  | waiting (hnext : x.haveNext = false) (hended : k.ended = false) (hout : link.statusOut = 0)
      (hsync : x.sync = k.sync)
      (hrest : k.rest = (link.fifo ++ todo.reduceOption).map (·.rescale x.timeBase tb))
  | frame (f : AVFrame α) (hnext : x.haveNext = true) (hended : k.ended = false)
      (hframe : x.frameNext = some f) (hpts : x.ptsNext = f.pts) (hout : link.statusOut = 0)
      (hsync : x.sync = k.sync)
      (hrest : k.rest = f :: (link.fifo ++ todo.reduceOption).map (·.rescale x.timeBase tb))
  | status (hnext : x.haveNext = true) (hended : k.ended = false) (hframe : x.frameNext = none)
      (hpts : x.ptsNext = k.nextPts) (hsync : x.sync = 0) (hrest : k.rest = [])
      (hin : link.statusIn ≠ 0)
  | finished (hnext : x.haveNext = false) (hended : k.ended = true) (hframe : x.frameNext = none)
      (hsync : x.sync = 0) (hrest : k.rest = []) (hin : link.statusIn ≠ 0)

/-- An input with its link is at a place of its track; `todo` is what has not arrived: the
frames to come and then the end. -/
structure Follows (tb : AVRational) (x : FFFrameSyncIn α) (link : AVFilterLink α)
    (todo : List (Option (AVFrame α))) (k : Track α) : Prop where
  before : x.before = k.before
  after : x.after = k.after
  state : x.state = k.state
  pts : ∀ f, k.shown.getLast? = some f → k.ended = false → x.pts = f.pts
  next : Next tb x link todo k
  arriving : (link.statusIn ≠ 0 ∧ todo = []) ∨
    (link.statusIn = 0 ∧ ∃ l : List (AVFrame α), todo = l.map some ++ [none])

/-- An input that need not wait. -/
def FFFrameSyncIn.Has (x : FFFrameSyncIn α) : Prop := x.haveNext = true ∨ x.state = .eof

variable {tb : AVRational} {x : FFFrameSyncIn α} {link : AVFilterLink α}
  {todo : List (Option (AVFrame α))} {k : Track α}

theorem Track.state_eq_eof : k.state = .eof ↔ k.ended = true := by
  unfold Track.state
  split <;> rename_i hended
  · simp [hended]
  · simp only [hended]
    split <;> simp

theorem Track.state_eq_bof : k.state = .bof ↔ k.ended = false ∧ k.shown = [] := by
  unfold Track.state
  split <;> rename_i hended
  · simp [hended]
  · cases k.shown <;> simp [hended]

theorem Follows.state_eq_eof (h : Follows tb x link todo k) : x.state = .eof ↔ k.ended = true := by
  rw [h.state, Track.state_eq_eof]

theorem Follows.level_le (h : Follows tb x link todo k) : k.level ≤ x.sync := by
  unfold Track.level
  cases h.next with
  | waiting _ _ _ hsync _ => rw [hsync]; split <;> lia
  | frame _ _ _ _ _ _ hsync _ => rw [hsync]; split <;> lia
  | status _ _ _ _ _ hrest _ => simp [hrest]
  | finished _ _ _ _ hrest _ => simp [hrest]

theorem Follows.level_eq (h : Follows tb x link todo k) (hhas : x.Has) : k.level = x.sync := by
  unfold Track.level
  cases h.next with
  | waiting hnext hended _ _ _ =>
    rcases hhas with hhas | hhas
    · simp [hnext] at hhas
    · simp [h.state_eq_eof.1 hhas] at hended
  | frame _ _ _ _ _ _ hsync hrest => simp [hsync, hrest]
  | status _ _ _ _ hsync hrest _ => simp [hrest, hsync]
  | finished _ _ _ hsync hrest _ => simp [hrest, hsync]

theorem Follows.sync_of_eof (h : Follows tb x link todo k) (heof : x.state = .eof) :
    x.sync = 0 := by
  have hended := h.state_eq_eof.1 heof
  cases h.next with
  | waiting _ hnot _ _ _ => simp [hended] at hnot
  | frame _ _ hnot _ _ _ _ _ => simp [hended] at hnot
  | status _ hnot _ _ _ _ _ => simp [hended] at hnot
  | finished _ _ _ hsync _ _ => exact hsync

theorem Follows.status_pts (h : Follows tb x link todo k) (hended : k.ended = false)
    (hrest : k.rest = []) :
    (if x.state ≠ .run ∨ x.after = .infinity then int64Max else framesyncPtsExtrapolate x.pts) =
      k.nextPts := by
  simp only [Track.nextPts, hrest, h.after, framesyncPtsExtrapolate]
  cases hlast : k.shown.getLast? with
  | none =>
    have hbof : x.state = .bof := by
      rw [h.state, Track.state_eq_bof]
      exact ⟨hended, List.getLast?_eq_none_iff.1 hlast⟩
    simp [hbof]
  | some f =>
    have hshown : k.shown ≠ [] := by
      rintro hnil
      simp [hnil] at hlast
    have hrun : x.state = .run := by
      rw [h.state]
      simp [Track.state, hended, hshown]
    simp [hrun, h.pts f hlast hended]

variable {link' : AVFilterLink α}

theorem Follows.injectFrame {f : AVFrame α} {fifo : List (AVFrame α)} (h : Follows tb x link todo k)
    (hhas : ¬x.Has) (hfifo : link.fifo = f :: fifo)
    (hlink : link'.fifo = fifo ∧ link'.statusOut = link.statusOut ∧ link'.statusIn = link.statusIn) :
    Follows tb
      { x with
        frameNext := some (f.rescale x.timeBase tb)
        ptsNext := (f.rescale x.timeBase tb).pts
        haveNext := true } link' todo k := by
  obtain ⟨hfifo', hout', hin'⟩ := hlink
  simp only [FFFrameSyncIn.Has, not_or] at hhas
  have hended : ¬k.ended = true := fun hended => hhas.2 (h.state_eq_eof.2 hended)
  refine ⟨h.before, h.after, h.state, h.pts, ?_, by rw [hin']; exact h.arriving⟩
  cases h.next with
  | waiting hnext hnot hout hsync hrest =>
    exact .frame _ rfl hnot rfl rfl (by rw [hout', hout]) hsync
      (by simpa [hfifo, hfifo'] using hrest)
  | frame _ hnext _ _ _ _ _ _ => exact absurd hnext hhas.1
  | status hnext _ _ _ _ _ _ => exact absurd hnext hhas.1
  | finished _ hyes _ _ _ _ => exact absurd hyes hended

theorem Follows.injectStatus (h : Follows tb x link todo k) (hhas : ¬x.Has) (hfifo : link.fifo = [])
    (hin : link.statusIn ≠ 0) (hlink : link'.statusIn = link.statusIn) :
    Follows tb
      { x with
        sync := 0
        frameNext := none
        ptsNext := if x.state ≠ .run ∨ x.after = .infinity then int64Max
          else framesyncPtsExtrapolate x.pts
        haveNext := true } link' todo k := by
  simp only [FFFrameSyncIn.Has, not_or] at hhas
  have hended : k.ended = false := by
    simpa using fun hended => hhas.2 (h.state_eq_eof.2 hended)
  have htodo : todo = [] := by
    rcases h.arriving with ⟨-, htodo⟩ | ⟨hzero, -⟩
    · exact htodo
    · exact absurd hzero hin
  have hrest : k.rest = [] := by
    cases h.next with
    | waiting _ _ _ _ hrest => simpa [hfifo, htodo, List.reduceOption] using hrest
    | frame _ hnext _ _ _ _ _ _ => exact absurd hnext hhas.1
    | status _ _ _ _ _ hrest _ => exact hrest
    | finished _ _ _ _ hrest _ => exact hrest
  exact ⟨h.before, h.after, h.state, h.pts,
    .status rfl hended rfl (h.status_pts hended hrest) rfl hrest (by rwa [hlink]),
    by rw [hlink]; exact h.arriving⟩

theorem Follows.statusOut_eq_zero (h : Follows tb x link todo k) (hhas : ¬x.Has) :
    link.statusOut = 0 := by
  simp only [FFFrameSyncIn.Has, not_or] at hhas
  cases h.next with
  | waiting _ _ hout _ _ => exact hout
  | frame _ hnext _ _ _ _ _ _ => exact absurd hnext hhas.1
  | status hnext _ _ _ _ _ _ => exact absurd hnext hhas.1
  | finished _ hended _ _ _ _ => exact absurd (h.state_eq_eof.2 hended) hhas.2

end Follows

section Taking

variable {α : Type*} {nbIn : Nat} {fs : FFFrameSync α nbIn} {T : Fin nbIn → Track α}
  {todo : Fin nbIn → List (Option (AVFrame α))}

theorem foldl_max_le {ι : Type*} (p : ι → Prop) [DecidablePred p] (f : ι → Nat) (l : List ι)
    (m b : Nat) : l.foldl (fun level i => if p i then max level (f i) else level) m ≤ b ↔
      m ≤ b ∧ ∀ i ∈ l, p i → f i ≤ b := by
  induction l generalizing m with
  | nil => simp
  | cons j l ih =>
    rw [List.foldl_cons, ih]
    by_cases hj : p j
    · simp [hj, and_assoc]
    · simp [hj]

/-- The highest level of the inputs. -/
def topSync (fs : FFFrameSync α nbIn) : Nat := Finset.univ.sup fun i => (fs.inputs i).sync

/-- The level that `framesync_sync_level_update` finds, when inputs have no level after their
end. -/
theorem level_eq_topSync (h : ∀ i, (fs.inputs i).state = .eof → (fs.inputs i).sync = 0) :
    eachInput.foldl (fun level i =>
      if (fs.inputs i).state ≠ .eof then max level (fs.inputs i).sync else level) 0 =
        topSync fs := by
  refine eq_of_forall_ge_iff fun b => ?_
  rw [foldl_max_le (fun i => (fs.inputs i).state ≠ .eof)]
  simp only [topSync, Finset.sup_le_iff, Finset.mem_univ, true_implies, List.mem_finRange,
    Nat.zero_le, true_and]
  refine forall_congr' fun i => ⟨fun hle => ?_, fun hle _ => hle⟩
  by_cases heof : (fs.inputs i).state = .eof
  · simp [h i heof]
  · exact hle heof

@[simp] theorem framesyncEof_inputs (fs : FFFrameSync α nbIn) :
    (framesyncEof fs).inputs = fs.inputs := rfl

@[simp] theorem framesyncEof_eof (fs : FFFrameSync α nbIn) : (framesyncEof fs).eof = true := rfl

@[simp] theorem framesyncEof_links (fs : FFFrameSync α nbIn) :
    (framesyncEof fs).parent.inputs = fs.parent.inputs := rfl

@[simp] theorem framesyncEof_timeBase (fs : FFFrameSync α nbIn) :
    (framesyncEof fs).timeBase = fs.timeBase := rfl

section SyncLevelUpdate

variable (fs)

@[simp] theorem framesyncSyncLevelUpdate_inputs :
    (framesyncSyncLevelUpdate fs).inputs = fs.inputs := by
  unfold framesyncSyncLevelUpdate; dsimp only; split <;> rfl

@[simp] theorem framesyncSyncLevelUpdate_links :
    (framesyncSyncLevelUpdate fs).parent.inputs = fs.parent.inputs := by
  unfold framesyncSyncLevelUpdate; dsimp only; split <;> rfl

@[simp] theorem framesyncSyncLevelUpdate_timeBase :
    (framesyncSyncLevelUpdate fs).timeBase = fs.timeBase := by
  unfold framesyncSyncLevelUpdate; dsimp only; split <;> rfl

end SyncLevelUpdate

theorem framesyncSyncLevelUpdate_spec
    (h : ∀ i, (fs.inputs i).state = .eof → (fs.inputs i).sync = 0) :
    (topSync fs ≠ 0 ∧ framesyncSyncLevelUpdate fs = { fs with syncLevel := topSync fs }) ∨
      (topSync fs = 0 ∧ framesyncSyncLevelUpdate fs = framesyncEof fs) := by
  unfold framesyncSyncLevelUpdate
  dsimp only
  rw [level_eq_topSync h]
  by_cases hlevel : topSync fs = 0
  · exact .inr ⟨hlevel, by simp [hlevel]⟩
  · exact .inl ⟨hlevel, by simp [hlevel]⟩

/-- While frames are taken, the synchroniser follows its tracks; the end may come only when the
tracks have no level. -/
structure Feeding (fs : FFFrameSync α nbIn) (todo : Fin nbIn → List (Option (AVFrame α)))
    (T : Fin nbIn → Track α) : Prop where
  follows : ∀ i, Follows fs.timeBase (fs.inputs i) (fs.parent.inputs i) (todo i) (T i)
  level : fs.eof = false → fs.syncLevel ≠ 0 ∧ fs.syncLevel = topSync fs
  ended : fs.eof = true → syncLevel T = 0
  notReady : fs.frameReady = false

theorem syncLevel_le_topSync
    (h : ∀ i, Follows fs.timeBase (fs.inputs i) (fs.parent.inputs i) (todo i) (T i)) :
    syncLevel T ≤ topSync fs :=
  Finset.sup_mono_fun fun i _ => (h i).level_le

theorem syncLevel_eq_topSync
    (h : ∀ i, Follows fs.timeBase (fs.inputs i) (fs.parent.inputs i) (todo i) (T i))
    (hhas : ∀ i, (fs.inputs i).Has) : syncLevel T = topSync fs :=
  Finset.sup_congr rfl fun i _ => (h i).level_eq (hhas i)

/-- What taking a next frame may change of an input. -/
structure Consumed (x x' : FFFrameSyncIn α) : Prop where
  before : x'.before = x.before
  state : x'.state = x.state
  frame : x'.frame = x.frame
  next : x' = x ∨ (x.haveNext = false ∧ x'.haveNext = true ∧ x'.sync ≤ x.sync)

theorem Consumed.refl (x : FFFrameSyncIn α) : Consumed x x := ⟨rfl, rfl, rfl, .inl rfl⟩

theorem Consumed.trans {x y z : FFFrameSyncIn α} (h : Consumed x y) (h' : Consumed y z) :
    Consumed x z := by
  refine ⟨h'.before.trans h.before, h'.state.trans h.state, h'.frame.trans h.frame, ?_⟩
  rcases h.next with rfl | ⟨hno, hyes, hsync⟩
  · exact h'.next
  · rcases h'.next with rfl | ⟨hnot, -, -⟩
    · exact .inr ⟨hno, hyes, hsync⟩
    · simp [hyes] at hnot

theorem Consumed.has {x x' : FFFrameSyncIn α} (h : Consumed x x') (hhas : x.Has) : x'.Has := by
  rcases hhas with hhas | hhas
  · rcases h.next with rfl | ⟨hno, -, -⟩
    · exact .inl hhas
    · simp [hhas] at hno
  · exact .inr (h.state.trans hhas)

@[simp] theorem ffUpdateLinkCurrentPts_keeps (link : AVFilterLink α) (pts : Int) :
    (ffUpdateLinkCurrentPts link pts).fifo = link.fifo ∧
      (ffUpdateLinkCurrentPts link pts).statusOut = link.statusOut ∧
      (ffUpdateLinkCurrentPts link pts).statusIn = link.statusIn := by
  unfold ffUpdateLinkCurrentPts
  split <;> simp

theorem topSync_setIn_le {x : FFFrameSyncIn α} {i : Fin nbIn} (h : x.sync = (fs.inputs i).sync) :
    topSync (fs.setIn i x) = topSync fs := by
  unfold topSync FFFrameSync.setIn
  congr 1
  funext j
  by_cases hj : j = i
  · subst hj
    simpa using h
  · simp [hj]

theorem Feeding.follows_set (h : Feeding fs todo T) {i : Fin nbIn} {x : FFFrameSyncIn α}
    {link : AVFilterLink α} (hi : Follows fs.timeBase x link (todo i) (T i)) (j : Fin nbIn) :
    Follows fs.timeBase (Function.update fs.inputs i x j)
      (Function.update fs.parent.inputs i link j) (todo j) (T j) := by
  by_cases hj : j = i
  · subst hj
    simpa using hi
  · simpa [hj] using h.follows j

/-- An end is taken: the input loses its level, and the last one to do so ends it all. -/
theorem framesyncInjectStatus_spec {i : Fin nbIn} {x : FFFrameSyncIn α} (status pts : Int)
    (h : ∀ j, (fs.inputs j).state = .eof → (fs.inputs j).sync = 0)
    (hx : x = { fs.inputs i with
      sync := 0
      frameNext := none
      ptsNext := if (fs.inputs i).state ≠ .run ∨ (fs.inputs i).after = .infinity
        then int64Max else framesyncPtsExtrapolate (fs.inputs i).pts
      haveNext := true }) :
    (framesyncInjectStatus fs i status pts).inputs = Function.update fs.inputs i x ∧
      (framesyncInjectStatus fs i status pts).parent.inputs = fs.parent.inputs ∧
      (framesyncInjectStatus fs i status pts).timeBase = fs.timeBase ∧
      ((topSync (framesyncInjectStatus fs i status pts) ≠ 0 ∧
          (framesyncInjectStatus fs i status pts).syncLevel =
            topSync (framesyncInjectStatus fs i status pts) ∧
          (framesyncInjectStatus fs i status pts).eof = fs.eof ∧
          (framesyncInjectStatus fs i status pts).frameReady = fs.frameReady) ∨
        (topSync (framesyncInjectStatus fs i status pts) = 0 ∧
          (framesyncInjectStatus fs i status pts).eof = true ∧
          (framesyncInjectStatus fs i status pts).frameReady = false)) := by
  obtain ⟨fs₁, hfs₁⟩ : ∃ fs₁, fs₁ = fs.setIn i { fs.inputs i with sync := 0 } := ⟨_, rfl⟩
  have hsync₁ (j : Fin nbIn) : (fs₁.inputs j).state = .eof → (fs₁.inputs j).sync = 0 := by
    by_cases hj : j = i
    · subst hj
      simp [hfs₁, FFFrameSync.setIn]
    · simpa [hfs₁, FFFrameSync.setIn, hj] using h j
  obtain ⟨fs₂, hfs₂⟩ : ∃ fs₂, fs₂ = framesyncSyncLevelUpdate fs₁ := ⟨_, rfl⟩
  have hinputs₂ : fs₂.inputs = fs₁.inputs := by simp [hfs₂]
  have hfinal : framesyncInjectStatus fs i status pts = fs₂.setIn i x := by
    unfold framesyncInjectStatus
    simp only [← hfs₁, ← hfs₂]
    congr 1
    rw [hinputs₂, hx, hfs₁]
    simp [FFFrameSync.setIn]
  have htop : topSync (fs₂.setIn i x) = topSync fs₁ := by
    rw [topSync_setIn_le]
    · simp [topSync, hinputs₂]
    · simp [hinputs₂, hx, hfs₁, FFFrameSync.setIn]
  rw [hfinal, htop]
  refine ⟨?_, ?_, ?_, ?_⟩
  · simp [FFFrameSync.setIn, hinputs₂, hfs₁]
  · simp [FFFrameSync.setIn, hfs₂, hfs₁]
  · simp [FFFrameSync.setIn, hfs₂, hfs₁]
  · rcases framesyncSyncLevelUpdate_spec hsync₁ with ⟨hlevel, heq⟩ | ⟨hlevel, heq⟩
    · rw [hfs₂, heq]
      exact .inl ⟨hlevel, rfl, by rw [hfs₁]; rfl, by rw [hfs₁]; rfl⟩
    · rw [hfs₂, heq]
      exact .inr ⟨hlevel, rfl, rfl⟩

/-- What one turn of the loop of `consume_from_fifos` keeps. -/
structure Fed (c c' : Consuming α nbIn) (todo : Fin nbIn → List (Option (AVFrame α)))
    (T : Fin nbIn → Track α) : Prop where
  feeding : Feeding c'.fs todo T
  consumed : ∀ j, Consumed (c.fs.inputs j) (c'.fs.inputs j)
  statusIn : ∀ j, (c'.fs.parent.inputs j).statusIn = (c.fs.parent.inputs j).statusIn

variable {c : Consuming α nbIn}

/-- One input: it has a next frame afterwards, or it is missing one and may still get it. -/
theorem Feeding.consumeInput (h : Feeding c.fs todo T) (i : Fin nbIn) :
    Fed c (consumeInput c i) todo T ∧
      (((consumeInput c i).nbMiss = c.nbMiss ∧ ((consumeInput c i).fs.inputs i).Has) ∨
        ((consumeInput c i).nbMiss = c.nbMiss + 1 ∧ (c.fs.parent.inputs i).statusIn = 0)) := by
  by_cases hhas : (c.fs.inputs i).Has
  · have hsame : FrameSync.consumeInput c i = c := by
      unfold FrameSync.consumeInput
      exact if_pos hhas
    rw [hsame]
    exact ⟨⟨h, fun _ => Consumed.refl _, fun _ => rfl⟩, .inl ⟨rfl, hhas⟩⟩
  have hi := h.follows i
  have hcond : ¬((c.fs.inputs i).haveNext = true ∨ (c.fs.inputs i).state = .eof) := hhas
  have hno : (c.fs.inputs i).haveNext = false := by
    simpa [FFFrameSyncIn.Has] using (not_or.1 hhas).1
  cases hfifo : (c.fs.parent.inputs i).fifo with
  | cons f fifo =>
    -- a frame is taken
    obtain ⟨link, hlink⟩ : ∃ link, link = ffUpdateLinkCurrentPts
        { c.fs.parent.inputs i with fifo := fifo } f.pts := ⟨_, rfl⟩
    have hkeeps : link.fifo = fifo ∧ link.statusOut = (c.fs.parent.inputs i).statusOut ∧
        link.statusIn = (c.fs.parent.inputs i).statusIn := by simp [hlink]
    obtain ⟨x, hx⟩ : ∃ x : FFFrameSyncIn α, x =
        { c.fs.inputs i with
          frameNext := some (f.rescale (c.fs.inputs i).timeBase c.fs.timeBase)
          ptsNext := (f.rescale (c.fs.inputs i).timeBase c.fs.timeBase).pts
          haveNext := true } := ⟨_, rfl⟩
    have hstep : FrameSync.consumeInput c i =
        { fs := (c.fs.setLink i link).setIn i x
          nbActive := c.nbActive + 1
          nbMiss := c.nbMiss } := by
      unfold FrameSync.consumeInput
      rw [if_neg hcond, ffInlinkConsumeFrame, hfifo]
      simp only [hlink, hx]
      rfl
    have hxFollows : Follows c.fs.timeBase x link (todo i) (T i) := by
      rw [hx]
      exact hi.injectFrame hhas hfifo hkeeps
    rw [hstep]
    refine ⟨⟨⟨h.follows_set hxFollows, ?_, h.ended, h.notReady⟩, ?_, ?_⟩, .inl ⟨rfl, ?_⟩⟩
    · intro heof
      have htop : topSync ((c.fs.setLink i link).setIn i x) = topSync (c.fs.setLink i link) :=
        topSync_setIn_le (by simp [hx, FFFrameSync.setLink])
      rw [htop]
      exact h.level heof
    · intro j
      by_cases hj : j = i
      · subst hj
        simp only [FFFrameSync.setIn, FFFrameSync.setLink, Function.update_self, hx]
        exact ⟨rfl, rfl, rfl, .inr ⟨hno, rfl, le_rfl⟩⟩
      · simpa [FFFrameSync.setIn, FFFrameSync.setLink, hj] using Consumed.refl _
    · intro j
      by_cases hj : j = i
      · subst hj
        simpa [FFFrameSync.setIn, FFFrameSync.setLink] using hkeeps.2.2
      · simp [FFFrameSync.setIn, FFFrameSync.setLink, hj]
    · simp [FFFrameSync.setIn, FFFrameSyncIn.Has, hx]
  | nil =>
    have hout := hi.statusOut_eq_zero hhas
    by_cases hin : (c.fs.parent.inputs i).statusIn = 0
    · -- nothing has arrived
      have hstep : FrameSync.consumeInput c i =
          { c with nbActive := c.nbActive + 1, nbMiss := c.nbMiss + 1 } := by
        unfold FrameSync.consumeInput
        rw [if_neg hcond, ffInlinkConsumeFrame, hfifo]
        simp [ffInlinkAcknowledgeStatus, hfifo, hout, hin, FFFrameSync.setLink]
      rw [hstep]
      exact ⟨⟨h, fun _ => Consumed.refl _, fun _ => rfl⟩, .inr ⟨rfl, hin⟩⟩
    · -- the end is taken, and the level may change
      obtain ⟨link, hlink⟩ : ∃ link, link = ffUpdateLinkCurrentPts
          { c.fs.parent.inputs i with statusOut := (c.fs.parent.inputs i).statusIn }
          (c.fs.parent.inputs i).statusInPts := ⟨_, rfl⟩
      have hkeeps : link.statusIn = (c.fs.parent.inputs i).statusIn := by simp [hlink]
      obtain ⟨x, hx⟩ : ∃ x : FFFrameSyncIn α, x =
          { c.fs.inputs i with
            sync := 0
            frameNext := none
            ptsNext := if (c.fs.inputs i).state ≠ .run ∨ (c.fs.inputs i).after = .infinity
              then int64Max else framesyncPtsExtrapolate (c.fs.inputs i).pts
            haveNext := true } := ⟨_, rfl⟩
      have hxFollows : Follows c.fs.timeBase x link (todo i) (T i) := by
        rw [hx]
        exact hi.injectStatus hhas hfifo hin hkeeps
      have hstep : FrameSync.consumeInput c i =
          { fs := framesyncInjectStatus (c.fs.setLink i link) i
              (c.fs.parent.inputs i).statusIn link.currentPts
            nbActive := c.nbActive + 1
            nbMiss := c.nbMiss } := by
        unfold FrameSync.consumeInput
        rw [if_neg hcond, ffInlinkConsumeFrame, hfifo]
        simp [ffInlinkAcknowledgeStatus, hfifo, hout, hin, hlink]
      obtain ⟨hinputs, hlinks, htb, hlevel⟩ := @framesyncInjectStatus_spec α nbIn
        (c.fs.setLink i link) i x (c.fs.parent.inputs i).statusIn link.currentPts
        (fun j => (h.follows j).sync_of_eof) hx
      rw [hstep]
      generalize framesyncInjectStatus (c.fs.setLink i link) i (c.fs.parent.inputs i).statusIn
        link.currentPts = fs' at hinputs hlinks htb hlevel ⊢
      have hfollows (j : Fin nbIn) :
          Follows fs'.timeBase (fs'.inputs j) (fs'.parent.inputs j) (todo j) (T j) := by
        rw [hinputs, hlinks, htb]
        exact h.follows_set hxFollows j
      refine ⟨⟨⟨hfollows, ?_, ?_, ?_⟩, ?_, ?_⟩, .inl ⟨rfl, ?_⟩⟩
      · intro heof
        rcases hlevel with ⟨hne, hlevel, -, -⟩ | ⟨-, hend, -⟩
        · exact ⟨by rw [hlevel]; exact hne, hlevel⟩
        · exact absurd (hend.symm.trans heof) (by simp)
      · intro heof
        rcases hlevel with ⟨-, -, hsame, -⟩ | ⟨hzero, -, -⟩
        · exact h.ended (by rw [← heof, hsame]; rfl)
        · exact Nat.le_zero.1 (hzero ▸ syncLevel_le_topSync hfollows)
      · rcases hlevel with ⟨-, -, -, hready⟩ | ⟨-, -, hready⟩
        · rw [hready]
          exact h.notReady
        · exact hready
      · intro j
        by_cases hj : j = i
        · subst hj
          simp only [hinputs, FFFrameSync.setLink, Function.update_self, hx]
          exact ⟨rfl, rfl, rfl, .inr ⟨hno, rfl, Nat.zero_le _⟩⟩
        · simpa [hinputs, FFFrameSync.setLink, hj] using Consumed.refl _
      · intro j
        by_cases hj : j = i
        · subst hj
          simpa [hlinks, FFFrameSync.setLink] using hkeeps
        · simp [hlinks, FFFrameSync.setLink, hj]
      · simp [hinputs, FFFrameSyncIn.Has, hx]

/-- The loop of `consume_from_fifos` over some inputs: if none misses a frame, they all have
one; and nothing that has ended is missing. -/
theorem Feeding.consumeInputs (h : Feeding c.fs todo T) (l : List (Fin nbIn)) :
    Fed c (l.foldl FrameSync.consumeInput c) todo T ∧
      c.nbMiss ≤ (l.foldl FrameSync.consumeInput c).nbMiss ∧
      ((l.foldl FrameSync.consumeInput c).nbMiss = c.nbMiss →
        ∀ i ∈ l, ((l.foldl FrameSync.consumeInput c).fs.inputs i).Has) ∧
      ((∀ i, (c.fs.parent.inputs i).statusIn ≠ 0) →
        (l.foldl FrameSync.consumeInput c).nbMiss = c.nbMiss) := by
  induction l generalizing c with
  | nil =>
    exact ⟨⟨h, fun _ => Consumed.refl _, fun _ => rfl⟩, le_rfl, by simp, fun _ => rfl⟩
  | cons i l ih =>
    obtain ⟨hfed, hone⟩ := h.consumeInput i
    obtain ⟨hfeds, hle, hhas, hnone⟩ := ih hfed.feeding
    simp only [List.foldl_cons]
    refine ⟨⟨hfeds.feeding, fun j => (hfed.consumed j).trans (hfeds.consumed j),
      fun j => (hfeds.statusIn j).trans (hfed.statusIn j)⟩, ?_, ?_, ?_⟩
    · rcases hone with ⟨hmiss, -⟩ | ⟨hmiss, -⟩ <;> lia
    · intro hsame j hj
      rcases hone with ⟨hmiss, hi⟩ | ⟨hmiss, -⟩
      · rcases List.mem_cons.1 hj with rfl | hj
        · exact (hfeds.consumed j).has hi
        · exact hhas (by lia) j hj
      · lia
    · intro hall
      rcases hone with ⟨hmiss, -⟩ | ⟨-, hin⟩
      · rw [hnone fun j => by rw [hfed.statusIn j]; exact hall j, hmiss]
      · exact absurd hin (hall i)

theorem requestFrames_keeps (fs : FFFrameSync α nbIn) (i : Fin nbIn) :
    ((requestFrames fs).parent.inputs i).fifo = (fs.parent.inputs i).fifo ∧
      ((requestFrames fs).parent.inputs i).statusOut = (fs.parent.inputs i).statusOut ∧
      ((requestFrames fs).parent.inputs i).statusIn = (fs.parent.inputs i).statusIn := by
  unfold requestFrames ffInlinkRequestFrame
  dsimp only
  split <;> simp

theorem Follows.of_link {tb : AVRational} {x : FFFrameSyncIn α} {link link' : AVFilterLink α}
    {l : List (Option (AVFrame α))} {k : Track α} (h : Follows tb x link l k)
    (hlink : link'.fifo = link.fifo ∧ link'.statusOut = link.statusOut ∧
      link'.statusIn = link.statusIn) : Follows tb x link' l k := by
  obtain ⟨hfifo, hout, hin⟩ := hlink
  refine ⟨h.before, h.after, h.state, h.pts, ?_, by rw [hin]; exact h.arriving⟩
  cases h.next with
  | waiting hnext hended hzero hsync hrest =>
    exact .waiting hnext hended (by rw [hout, hzero]) hsync (by rw [hfifo]; exact hrest)
  | frame f hnext hended hframe hpts hzero hsync hrest =>
    exact .frame f hnext hended hframe hpts (by rw [hout, hzero]) hsync (by rw [hfifo]; exact hrest)
  | status hnext hended hframe hpts hsync hrest hne =>
    exact .status hnext hended hframe hpts hsync hrest (by rwa [hin])
  | finished hnext hended hframe hsync hrest hne =>
    exact .finished hnext hended hframe hsync hrest (by rwa [hin])

/-- `consume_from_fifos` on a synchroniser that follows its tracks. -/
theorem Feeding.consumeFromFifos (h : Feeding fs todo T) :
    Feeding (consumeFromFifos fs).2 todo T ∧
      (∀ i, Consumed (fs.inputs i) ((consumeFromFifos fs).2.inputs i)) ∧
      (∀ i, ((consumeFromFifos fs).2.parent.inputs i).statusIn = (fs.parent.inputs i).statusIn) ∧
      (0 < (consumeFromFifos fs).1 → ∀ i, ((consumeFromFifos fs).2.inputs i).Has) ∧
      ((∀ i, (fs.parent.inputs i).statusIn ≠ 0) → 0 < (consumeFromFifos fs).1) := by
  obtain ⟨hfed, -, hhas, hnone⟩ :=
    Feeding.consumeInputs (c := ⟨fs, 0, 0⟩) h (List.finRange nbIn)
  unfold FrameSync.consumeFromFifos
  dsimp only
  generalize (List.finRange nbIn).foldl FrameSync.consumeInput ⟨fs, 0, 0⟩ = c at hfed hhas hnone ⊢
  split
  · rename_i hmiss
    have hnot : ¬∀ i, (fs.parent.inputs i).statusIn ≠ 0 := fun hall => hmiss (hnone hall)
    split
    · exact ⟨hfed.feeding, hfed.consumed, hfed.statusIn,
        fun hpos => absurd hpos (show ¬0 < ffErrorNotReady by decide),
        fun hall => absurd hall hnot⟩
    · refine ⟨⟨fun i => ?_, hfed.feeding.level, hfed.feeding.ended, hfed.feeding.notReady⟩,
        hfed.consumed, fun i => ?_, fun hpos => absurd hpos (lt_irrefl _),
        fun hall => absurd hall hnot⟩
      · exact (hfed.feeding.follows i).of_link (requestFrames_keeps c.fs i)
      · rw [(requestFrames_keeps c.fs i).2.2]
        exact hfed.statusIn i
  · rename_i hmiss
    exact ⟨hfed.feeding, hfed.consumed, hfed.statusIn,
      fun _ i => hhas (by simpa using hmiss) i (List.mem_finRange i), fun _ => Int.one_pos⟩

end Taking

end FFmpeg.Libavfilter.FrameSync
