import FFmpeg.Common.File
import FFmpeg.Libavcodec.AudioFrameQueue
import FFmpeg.Libavutil.MathematicsExact

/-!
# The time stamps of an encoder are exact

In every run of the queue the samples that remain are the queued ones and the delay, the
durations that are given sum up to what was added and the padding at most, and a time stamp
goes on from the one before by the samples that were asked for.
-/

namespace FFmpeg.Libavcodec.AudioFrameQueue

open Common Libavutil

/-! ## Rescaling -/

theorem avRescaleQ_self {a rate : Int} (ha : int64Min < a) (ha' : a ≤ int64Max) (hrate : 0 < rate)
    (hrate' : rate ≤ intMax) : avRescaleQ a ⟨1, rate⟩ ⟨1, rate⟩ = a := by
  have hmax : int64Max = 2 ^ 63 - 1 := rfl
  have hmin : int64Min = -2 ^ 63 := rfl
  have hint : intMax = 2 ^ 31 - 1 := rfl
  have hquotient (x : Int) : quotient x rate rate .nearInf = x := by
    have hterm : (AVRounding.nearInf.term rate) = rate / 2 := rfl
    rw [quotient, hterm, Int.mul_comm, Int.add_comm, Int.add_mul_ediv_left _ _ hrate.ne',
      Int.ediv_eq_zero_of_lt (by lia) (by lia), Int.zero_add]
  have hnonneg {x : Int} (hx : 0 ≤ x) (hx' : x ≤ int64Max) :
      avRescaleNonneg x rate rate .nearInf = x := by
    rw [avRescaleNonneg_eq .nearInf hx hx' hrate.le (by lia) hrate (by lia), hquotient, if_pos hx']
  unfold avRescaleQ avRescaleQRnd avRescaleRnd
  simp only [Int.one_mul]
  rw [if_neg (by lia), if_neg (by simp)]
  split_ifs with hneg
  · have hflip : AVRounding.nearInf.flip = .nearInf := rfl
    rw [hflip, max_eq_left (by lia), hnonneg (by lia) (by lia), Int.neg_neg]
    exact Int.bmod_eq_of_le (by lia) (by lia)
  · exact hnonneg (by lia) ha'

/-! ## Frames that follow each other -/

/-- Frames whose time stamps follow each other from a time on. -/
def Contiguous : Int → List AudioFrame → Prop
  | _, [] => True
  | base, frame :: frames =>
    frame.pts = base ∧ 0 ≤ frame.duration ∧ Contiguous (base + frame.duration) frames

/-- The duration of frames. -/
def total (frames : List AudioFrame) : Int := (frames.map AudioFrame.duration).sum

variable {frames : List AudioFrame} {base nbSamples : Int}

@[simp] theorem total_nil : total [] = 0 := rfl

@[simp] theorem total_cons (frame : AudioFrame) (frames : List AudioFrame) :
    total (frame :: frames) = frame.duration + total frames := rfl

theorem Contiguous.total_nonneg (h : Contiguous base frames) : 0 ≤ total frames := by
  induction frames generalizing base with
  | nil => exact le_rfl
  | cons frame frames ih =>
    rw [total_cons]
    exact Int.add_nonneg h.2.1 (ih h.2.2)

variable {frame : AudioFrame}

theorem Contiguous.concat (h : Contiguous base frames) (hpts : frame.pts = base + total frames)
    (hduration : 0 ≤ frame.duration) :
    Contiguous base (frames ++ [frame]) := by
  induction frames generalizing base with
  | nil => exact ⟨by rw [hpts, total_nil, Int.add_zero], hduration, trivial⟩
  | cons f frames ih =>
    refine ⟨h.1, h.2.1, ih h.2.2 ?_⟩
    rw [hpts, total_cons, Int.add_assoc]

theorem Contiguous.head_pts (h : Contiguous base frames) (hframe : frames[0]? = some frame) :
    frame.pts = base := by
  cases frames with
  | nil => simp at hframe
  | cons f frames =>
    rw [← Option.some.inj hframe]
    exact h.1

theorem Contiguous.advance (h : Contiguous base (frame :: frames)) (hbase : avNoptsValue < base)
    (n : Int) : (frame.advance n).pts = base + n := by
  have hpts := h.1
  rw [AudioFrame.advance, if_pos (by rw [hpts]; exact hbase.ne'), hpts]

theorem takeSamples_zero (frames : List AudioFrame) : takeSamples frames 0 = ⟨frames, 0, 0, 0⟩ := by
  cases frames with
  | nil => rfl
  | cons frame frames => rw [takeSamples, if_neg (not_not.mpr rfl)]

/-- What the loop leaves: the samples that were removed are gone from the front. -/
structure TakesFrom (frames : List AudioFrame) (base nbSamples : Int) (taken : Taken) : Prop where
  length : taken.frames.length = frames.length
  consumed_le : taken.consumed ≤ frames.length
  removed : taken.removed = min nbSamples (total frames)
  nbSamples : taken.nbSamples = nbSamples - taken.removed
  contiguous : Contiguous (base + taken.removed) (taken.frames.drop taken.consumed)
  total : total (taken.frames.drop taken.consumed) = total frames - taken.removed
  all : taken.nbSamples ≠ 0 → taken.consumed = frames.length

theorem consumed_cons (rest : Taken) (hframe : frame.duration = 0) (removed : Int) :
    (⟨frame :: rest.frames, rest.i + 1, rest.nbSamples, removed⟩ : Taken).consumed =
      rest.consumed + 1 := by
  unfold Taken.consumed
  dsimp only
  rw [Nat.add_sub_cancel]
  cases hi : rest.i with
  | zero =>
    rw [if_neg (fun hand => hand.2 hframe), if_neg (fun hand => absurd hand.1 (lt_irrefl 0))]
  | succ i =>
    have hget : (frame :: rest.frames).getD (i + 1) ⟨0, 0⟩ = rest.frames.getD i ⟨0, 0⟩ := rfl
    rw [hget, Nat.add_sub_cancel]
    split_ifs with h h' h'
    · rfl
    · exact absurd ⟨Nat.succ_pos i, h.2⟩ h'
    · exact absurd ⟨Nat.succ_pos _, h'.2⟩ h
    · rfl

/-- **The loop**, by induction on the frames: it stops in a frame or behind one. -/
theorem takeSamples_spec (h : Contiguous base frames) (hbase : avNoptsValue < base)
    (hnb : 0 ≤ nbSamples) : TakesFrom frames base nbSamples (takeSamples frames nbSamples) := by
  induction frames generalizing base nbSamples with
  | nil =>
    have hmin : (0 : Int) = min nbSamples 0 := by lia
    exact ⟨rfl, le_rfl, hmin, (Int.sub_zero _).symm, trivial, rfl, fun _ => rfl⟩
  | cons frame frames ih =>
    have htotal := h.2.2.total_nonneg
    have hduration := h.2.1
    rcases eq_or_lt_of_le hnb with rfl | hpos
    · rw [takeSamples_zero]
      have hmin : (0 : Int) = min 0 (total (frame :: frames)) := by
        rw [total_cons]
        lia
      refine ⟨rfl, Nat.zero_le _, hmin, rfl, ?_, ?_, fun hne => absurd rfl hne⟩
      · rw [Int.add_zero]
        exact h
      · rw [Int.sub_zero]
        rfl
    · rw [takeSamples, if_pos hpos.ne']
      dsimp only
      by_cases hwhole : frame.duration ≤ nbSamples
      · -- the frame is used up
        rw [min_eq_left hwhole]
        have hrest := ih h.2.2 (by lia) (show 0 ≤ nbSamples - frame.duration by lia)
        have hcount := hrest.nbSamples
        have hremoved := hrest.removed
        have hconsumed := consumed_cons (takeSamples frames (nbSamples - frame.duration))
          (show (frame.advance frame.duration).duration = 0 from Int.sub_self _)
          (frame.duration + (takeSamples frames (nbSamples - frame.duration)).removed)
        refine ⟨?_, ?_, ?_, ?_, ?_, ?_, fun hne => ?_⟩
        · rw [List.length_cons, List.length_cons, hrest.length]
        · rw [hconsumed, List.length_cons]
          exact Nat.succ_le_succ hrest.consumed_le
        · dsimp only
          rw [total_cons]
          lia
        · dsimp only
          lia
        · rw [hconsumed, List.drop_succ_cons, ← Int.add_assoc]
          exact hrest.contiguous
        · rw [hconsumed, List.drop_succ_cons, hrest.total, total_cons]
          dsimp only
          lia
        · rw [hconsumed, List.length_cons, hrest.all hne]
      · -- the samples are found, and a part of the frame is left
        rw [min_eq_right (by lia), Int.sub_self, takeSamples_zero]
        dsimp only
        have hpart : (frame.advance nbSamples).duration ≠ 0 := by
          show frame.duration - nbSamples ≠ 0
          lia
        have hconsumed : (⟨frame.advance nbSamples :: frames, 0 + 1, 0, nbSamples + 0⟩ :
            Taken).consumed = 0 := if_pos ⟨Nat.one_pos, hpart⟩
        refine ⟨rfl, ?_, ?_, ?_, ?_, ?_, fun hne => absurd rfl hne⟩
        · rw [hconsumed]
          exact Nat.zero_le _
        · dsimp only
          rw [total_cons]
          lia
        · dsimp only
          lia
        · rw [hconsumed, List.drop_zero, Int.add_zero]
          refine ⟨h.advance hbase nbSamples, ?_, ?_⟩
          · show 0 ≤ frame.duration - nbSamples
            lia
          · have hnext : base + nbSamples + (frame.advance nbSamples).duration =
                base + frame.duration := by
              show base + nbSamples + (frame.duration - nbSamples) = _
              lia
            rw [hnext]
            exact h.2.2
        · rw [hconsumed, List.drop_zero, total_cons, total_cons]
          show frame.duration - nbSamples + total frames = _
          dsimp only
          lia

/-! ## Runs -/

/-- What has happened so far: whether the latest frame found memory, the samples that were added,
requested and removed, those of the requested ones that were more than the queue had before
the latest frame was added, and whether the queue last ran empty from a single frame. -/
structure Ledger where
  started : Bool
  added : Int
  requested : Int
  removed : Int
  lost : Int
  single : Bool
  deriving DecidableEq, Repr

def Ledger.zero : Ledger := ⟨false, 0, 0, 0, 0, true⟩

def Ledger.add (l : Ledger) (nbSamples : Int) : Ledger :=
  { l with started := true, added := l.added + nbSamples, lost := l.requested - l.removed }

/-- A frame for which there was no memory. -/
def Ledger.fail (l : Ledger) : Ledger := { l with started := false }

def Ledger.remove (l : Ledger) (frameCount : Nat) (nbSamples duration : Int) : Ledger :=
  { l with
    requested := l.requested + nbSamples
    removed := l.removed + duration
    single := if frameCount = 0 then l.single else frameCount = 1 }

/-- A run: the time stamps of the frames go on from `t`, and each remove asks for some
samples.  The time stamps fit an `int64_t`, and the counts an `int`. -/
inductive QueueRun (avctx : AVCodecContext) (t : Int) : AudioFrameQueue → Ledger → Prop
  | init : QueueRun avctx t (ffAfQueueInit avctx) Ledger.zero
  | add {afq afq' : AudioFrameQueue} {l : Ledger} {malloc : FrameMalloc} {nbSamples : Int}
      (hrun : QueueRun avctx t afq l) (hnb : 0 ≤ nbSamples)
      (hfits : int64Min < t + l.added ∧ t + l.added ≤ int64Max)
      (hstep : ffAfQueueAdd malloc afq nbSamples (t + l.added) = some (.ok (), afq')) :
      QueueRun avctx t afq' (l.add nbSamples)
  | fail {afq afq' : AudioFrameQueue} {l : Ledger} {malloc : FrameMalloc} {nbSamples pts : Int}
      {err : AVERROR} (hrun : QueueRun avctx t afq l)
      (hstep : ffAfQueueAdd malloc afq nbSamples pts = some (.error err, afq')) :
      QueueRun avctx t afq' l.fail
  | remove {afq afq' : AudioFrameQueue} {l : Ledger} {nbSamples pts duration : Int}
      (hrun : QueueRun avctx t afq l) (hnb : 0 < nbSamples) (hfits : nbSamples ≤ intMax)
      (hstep : ffAfQueueRemove afq nbSamples = some (pts, duration, afq')) :
      QueueRun avctx t afq' (l.remove afq.frameCount nbSamples duration)

/-- The encoder: the time base is that of the samples, and the first time stamp with the
padding in front of it is one. -/
structure Encoder (avctx : AVCodecContext) (t : Int) : Prop where
  rate_pos : 0 < avctx.sampleRate
  rate_le : avctx.sampleRate ≤ intMax
  padding : 0 ≤ avctx.initialPadding
  timeBase : avctx.timeBase = ⟨1, avctx.sampleRate⟩
  start : avNoptsValue < t - avctx.initialPadding

/-- The queued frames. -/
def AudioFrameQueue.queued (afq : AudioFrameQueue) : List AudioFrame :=
  afq.frames.take afq.frameCount

/-- What holds in every state of a run. -/
structure Accounted (t : Int) (afq : AudioFrameQueue) (l : Ledger) : Prop where
  length : afq.frameAlloc / 16 ≤ afq.frames.length
  count_le : afq.frameCount ≤ afq.frames.length
  started : l.started = true → afq.frameAlloc ≠ 0 ∧ 0 < afq.frames.length
  not_started : l.started = false → afq.frameAlloc = 0
  delay : 0 ≤ afq.remainingDelay
  samples : afq.remainingSamples = total afq.queued + afq.remainingDelay
  contiguous : Contiguous (t - afq.avctx.initialPadding + l.removed) afq.queued
  balance : total afq.queued + afq.remainingDelay = afq.avctx.initialPadding + l.added - l.removed
  removed : 0 ≤ l.removed
  lost : 0 ≤ l.lost
  lost_le : l.removed ≤ l.requested - l.lost
  caught_up : 0 < afq.frameCount → l.requested - l.lost = l.removed
  slot : l.started = true → (afq.frameCount = 0 → l.single = true) →
    ∃ frame, afq.frames[0]? = some frame ∧
      frame.pts = t - afq.avctx.initialPadding + (l.requested - l.lost)

variable {avctx : AVCodecContext} {t : Int} {afq afq' : AudioFrameQueue} {l : Ledger}

theorem ffSamplesToTimeBase_eq (h : Encoder avctx t) {n : Int} (hn : avNoptsValue < n)
    (hn' : n ≤ int64Max) : ffSamplesToTimeBase avctx n = n := by
  rw [ffSamplesToTimeBase, if_neg hn.ne', h.timeBase]
  exact avRescaleQ_self hn hn' h.rate_pos h.rate_le

variable {malloc : FrameMalloc}

/-- There is room for one more frame, and the ones in front are kept. -/
theorem avFastReallocFrames_some {frames block : List AudioFrame} {frameAlloc size n : Nat}
    (hlength : frameAlloc / 16 ≤ frames.length)
    (h : avFastReallocFrames malloc frames frameAlloc (16 * (n + 1)) = (some block, size))
    (hn : n ≤ frames.length) :
    size / 16 ≤ block.length ∧ size ≠ 0 ∧ n < block.length ∧ block.take n = frames.take n := by
  unfold avFastReallocFrames at h
  split_ifs at h with hfits hlarge
  · obtain ⟨hblock, rfl⟩ := Prod.mk.inj h
    rw [← Option.some.inj hblock]
    exact ⟨hlength, by lia, by lia, rfl⟩
  · simp at h
  · dsimp only at h
    split at h
    · simp at h
    · rename_i fresh _
      obtain ⟨hblock, rfl⟩ := Prod.mk.inj h
      have hfresh := fresh.property
      generalize hsize : min (2 ^ 31 - 1) (max (16 * (n + 1) + 16 * (n + 1) / 16 + 32)
        (16 * (n + 1))) = size at *
      have hcopied : (frames.take (size / 16)).length = min (size / 16) frames.length :=
        List.length_take
      have hsame : (overwrite fresh.val 0 (frames.take (size / 16))).length = fresh.val.length :=
        length_overwrite_of_le (by lia)
      have htake := congrArg (List.take n)
        (take_overwrite_front fresh.val (frames.take (size / 16)))
      rw [List.take_take, List.take_take, hcopied, Nat.min_eq_left (by lia),
        Nat.min_eq_left (by lia)] at htake
      rw [← Option.some.inj hblock, hsame, hfresh]
      exact ⟨le_rfl, by lia, by lia, htake⟩

theorem queued_add {frames block : List AudioFrame} {n : Nat} (hlong : n < block.length)
    (htake : block.take n = frames.take n) (frame : AudioFrame) :
    (block.set n frame).take (n + 1) = frames.take n ++ [frame] := by
  rw [List.take_add_one, List.take_set_of_le le_rfl, List.getElem?_set_self hlong, htake]
  rfl

theorem accounted_init (he : Encoder avctx t) : Accounted t (ffAfQueueInit avctx) Ledger.zero where
  length := (Nat.zero_div 16).le
  count_le := le_rfl
  started := fun h => absurd h Bool.false_ne_true
  not_started := fun _ => rfl
  delay := he.padding
  samples := (Int.zero_add _).symm
  contiguous := trivial
  balance := by
    show 0 + avctx.initialPadding = avctx.initialPadding + 0 - 0
    lia
  removed := le_rfl
  lost := le_rfl
  lost_le := le_rfl
  caught_up := fun h => absurd h (lt_irrefl 0)
  slot := fun h => absurd h Bool.false_ne_true

/-- A frame is added. -/
theorem Accounted.add (he : Encoder avctx t) (h : Accounted t afq l) (hctx : afq.avctx = avctx)
    (hnb : 0 ≤ nbSamples) (hfits : int64Min < t + l.added ∧ t + l.added ≤ int64Max)
    (hstep : ffAfQueueAdd malloc afq nbSamples (t + l.added) = some (.ok (), afq')) :
    afq'.avctx = avctx ∧ Accounted t afq' (l.add nbSamples) := by
  unfold ffAfQueueAdd at hstep
  dsimp only at hstep
  obtain ⟨⟨block, size⟩, hnew⟩ : ∃ new, avFastReallocFrames malloc afq.frames afq.frameAlloc
    (16 * (afq.frameCount + 1)) = new := ⟨_, rfl⟩
  rw [hnew] at hstep
  cases block with
  | none => simp at hstep
  | some block =>
    obtain ⟨hlength, hsize, hroom, htake⟩ := avFastReallocFrames_some h.length hnew h.count_le
    dsimp only at hstep
    rw [if_pos hroom] at hstep
    have hafq := (Prod.mk.inj (Option.some.inj hstep)).2
    obtain ⟨frame, hframe⟩ : ∃ frame, frame = newFrame afq nbSamples (t + l.added) := ⟨_, rfl⟩
    rw [← hframe] at hafq
    have hqueued := queued_add hroom htake frame
    have hdelay := h.delay
    have hbalance := h.balance
    have hlost := h.lost_le
    have hremoved := h.removed
    have hpts : frame.pts = t + l.added - afq.remainingDelay := by
      have hne : t + l.added ≠ avNoptsValue := hfits.1.ne'
      rw [hframe, newFrame, if_pos hne, hctx, he.timeBase,
        avRescaleQ_self hfits.1 hfits.2 he.rate_pos he.rate_le]
    have hduration : frame.duration = nbSamples + afq.remainingDelay := by rw [hframe]; rfl
    have hcontiguous := h.contiguous.concat
      (show frame.pts = t - afq.avctx.initialPadding + l.removed + total afq.queued by
        rw [hpts]
        lia) (by rw [hduration]; lia)
    have htotal : total (afq.queued ++ [frame]) = total afq.queued + frame.duration := by
      simp [total]
    rw [← hafq]
    refine ⟨hctx, ⟨?_, ?_, ?_, ?_, ?_, ?_, ?_, ?_, ?_, ?_, ?_, ?_, ?_⟩⟩
    · dsimp only
      rw [List.length_set]
      exact hlength
    · dsimp only
      rw [List.length_set]
      exact hroom
    · exact fun _ => ⟨hsize, by dsimp only; rw [List.length_set]; lia⟩
    · exact fun hno => absurd hno (by simp [Ledger.add])
    · exact le_rfl
    · unfold AudioFrameQueue.queued
      dsimp only
      rw [hqueued, ← AudioFrameQueue.queued, htotal, hduration, h.samples]
      lia
    · unfold AudioFrameQueue.queued
      dsimp only [Ledger.add]
      rw [hqueued]
      exact hcontiguous
    · unfold AudioFrameQueue.queued
      dsimp only [Ledger.add]
      rw [hqueued, ← AudioFrameQueue.queued, htotal, hduration]
      lia
    · exact hremoved
    · dsimp only [Ledger.add]
      have hlostPos := h.lost
      lia
    · dsimp only [Ledger.add]
      lia
    · intro _
      dsimp only [Ledger.add]
      lia
    · intro _ _
      dsimp only [Ledger.add]
      rcases Nat.eq_zero_or_pos afq.frameCount with hzero | hpos
      · have hempty : afq.queued = [] := by rw [AudioFrameQueue.queued, hzero, List.take_zero]
        rw [hempty, total_nil] at hbalance
        refine ⟨frame, ?_, by rw [hpts]; lia⟩
        rw [hzero, List.getElem?_set_self (by lia)]
      · obtain ⟨first, hfirst⟩ : ∃ first, afq.frames[0]? = some first :=
          ⟨_, List.getElem?_eq_getElem (hpos.trans_le h.count_le)⟩
        refine ⟨first, ?_, ?_⟩
        · have hkept := congrArg (fun frames => frames[0]?) htake
          rw [List.getElem?_take, List.getElem?_take, if_pos hpos, if_pos hpos, hfirst] at hkept
          rw [List.getElem?_set_ne (by lia)]
          exact hkept
        · rw [h.contiguous.head_pts (by
            rw [AudioFrameQueue.queued, List.getElem?_take, if_pos hpos, hfirst])]
          lia

variable {pts : Int}

/-- No memory: the queued frames are kept. -/
theorem Accounted.fail (h : Accounted t afq l) {err : AVERROR}
    (hstep : ffAfQueueAdd malloc afq nbSamples pts = some (.error err, afq')) :
    afq'.avctx = afq.avctx ∧ Accounted t afq' l.fail := by
  unfold ffAfQueueAdd at hstep
  dsimp only at hstep
  obtain ⟨⟨block, size⟩, hnew⟩ : ∃ new, avFastReallocFrames malloc afq.frames afq.frameAlloc
    (16 * (afq.frameCount + 1)) = new := ⟨_, rfl⟩
  rw [hnew] at hstep
  cases block with
  | some block =>
    dsimp only at hstep
    split_ifs at hstep
    simp at hstep
  | none =>
    have hsize : size = 0 := by
      unfold avFastReallocFrames at hnew
      split_ifs at hnew
      · simp at hnew
      · exact (Prod.mk.inj hnew).2.symm
      · dsimp only at hnew
        split at hnew
        · exact (Prod.mk.inj hnew).2.symm
        · simp at hnew
    rw [← (Prod.mk.inj (Option.some.inj hstep)).2, hsize]
    exact ⟨rfl, { h with
      length := by simp
      started := fun hno => absurd hno Bool.false_ne_true
      not_started := fun _ => rfl
      slot := fun hno => absurd hno Bool.false_ne_true }⟩

theorem outPts_eq (h : Accounted t afq l) (hctx : afq.avctx = avctx)
    (hknown : l.started = true ∨ 0 < afq.frameCount)
    (hsingle : afq.frameCount = 0 → l.single = true) :
    outPts afq = some (t - avctx.initialPadding + (l.requested - l.lost)) := by
  have hslot : ∃ frame, afq.frames[0]? = some frame ∧
      frame.pts = t - avctx.initialPadding + (l.requested - l.lost) := by
    rcases Nat.eq_zero_or_pos afq.frameCount with hzero | hpos
    · rw [← hctx]
      exact h.slot (hknown.resolve_right (by lia)) hsingle
    · have hlong := hpos.trans_le h.count_le
      refine ⟨afq.frames[0], List.getElem?_eq_getElem hlong, ?_⟩
      have hhead : afq.queued[0]? = some afq.frames[0] := by
        rw [AudioFrameQueue.queued, List.getElem?_take, if_pos hpos, List.getElem?_eq_getElem hlong]
      have hpts := h.contiguous.head_pts hhead
      rw [hpts, h.caught_up hpos, hctx]
  have hsome : afq.frameCount ≠ 0 ∨ afq.frameAlloc ≠ 0 := by
    rcases hknown with hstarted | hpos
    · exact .inr (h.started hstarted).1
    · exact .inl hpos.ne'
  obtain ⟨frame, hframe, hpts⟩ := hslot
  rw [outPts, if_pos hsome, hframe, ← hpts]
  rfl

/-! ## Removing -/

/-- The queue behind the loop. -/
def afterLoop (afq : AudioFrameQueue) (taken : Taken) : AudioFrameQueue :=
  { afq with
    frames := overwrite (taken.frames ++ afq.frames.drop afq.frameCount) 0
      (((taken.frames ++ afq.frames.drop afq.frameCount).drop taken.consumed).take
        (afq.frameCount - taken.consumed))
    frameCount := afq.frameCount - taken.consumed
    remainingSamples := afq.remainingSamples - taken.removed }

theorem Accounted.length_queued (h : Accounted t afq l) : afq.queued.length = afq.frameCount := by
  rw [AudioFrameQueue.queued, List.length_take, Nat.min_eq_left h.count_le]

variable {taken : Taken}

theorem length_afterLoop (h : Accounted t afq l)
    (htaken : TakesFrom afq.queued base nbSamples taken) :
    (afterLoop afq taken).frames.length = afq.frames.length := by
  have hlength := htaken.length
  have hcount := h.length_queued
  have hle := h.count_le
  have hall : (taken.frames ++ afq.frames.drop afq.frameCount).length = afq.frames.length := by
    rw [List.length_append, List.length_drop]
    lia
  unfold afterLoop
  dsimp only
  rw [length_overwrite_of_le, hall]
  rw [List.length_take, List.length_drop]
  lia

theorem queued_afterLoop (h : Accounted t afq l)
    (htaken : TakesFrom afq.queued base nbSamples taken) :
    (afterLoop afq taken).queued = taken.frames.drop taken.consumed := by
  have hlength := htaken.length
  have hcount := h.length_queued
  have hconsumed := htaken.consumed_le
  have hleft : (taken.frames.drop taken.consumed).length = afq.frameCount - taken.consumed := by
    rw [List.length_drop]
    lia
  have hblock : (((taken.frames ++ afq.frames.drop afq.frameCount).drop taken.consumed).take
      (afq.frameCount - taken.consumed)) = taken.frames.drop taken.consumed := by
    rw [List.drop_append_of_le_length (by lia), List.take_left' hleft]
  unfold AudioFrameQueue.queued afterLoop
  dsimp only
  rw [hblock, ← hleft, take_overwrite_front]

theorem frames_afterLoop (hempty : afq.frameCount - taken.consumed = 0) :
    (afterLoop afq taken).frames = taken.frames ++ afq.frames.drop afq.frameCount := by
  unfold afterLoop
  dsimp only
  rw [hempty, List.take_zero, overwrite_nil]

/-- The queue when the first entry has taken the samples that were not there. -/
def afterRemove (afq : AudioFrameQueue) (taken : Taken) : AudioFrameQueue :=
  { afterLoop afq taken with
    frames := if taken.nbSamples = 0 then (afterLoop afq taken).frames else
      (afterLoop afq taken).frames.modify 0 fun frame =>
        if frame.pts ≠ avNoptsValue then { frame with pts := frame.pts + taken.nbSamples }
        else frame }

theorem frameCount_afterLoop (h : Accounted t afq l)
    (htaken : TakesFrom afq.queued base nbSamples taken) (hmissing : taken.nbSamples ≠ 0) :
    afq.frameCount - taken.consumed = 0 := by
  have hall := htaken.all hmissing
  have hcount := h.length_queued
  lia

theorem removeBeyond_afterLoop (h : Accounted t afq l)
    (htaken : TakesFrom afq.queued base nbSamples taken) :
    removeBeyond (afterLoop afq taken) taken.nbSamples = some (afterRemove afq taken) := by
  unfold removeBeyond afterRemove
  by_cases hzero : taken.nbSamples = 0
  · simp [hzero]
  · have hall := htaken.all hzero
    have hlength := htaken.length
    have hleft := htaken.total
    rw [List.drop_eq_nil_of_le (by lia), total_nil] at hleft
    have hsamples := h.samples
    have hempty : (afterLoop afq taken).frameCount = 0 := frameCount_afterLoop h htaken hzero
    have hdelay : (afterLoop afq taken).remainingSamples =
        (afterLoop afq taken).remainingDelay := by
      show afq.remainingSamples - taken.removed = afq.remainingDelay
      lia
    simp [hzero, hempty, hdelay]

theorem length_afterRemove (h : Accounted t afq l)
    (htaken : TakesFrom afq.queued base nbSamples taken) :
    (afterRemove afq taken).frames.length = afq.frames.length := by
  have hlength := length_afterLoop h htaken
  unfold afterRemove
  dsimp only
  split_ifs
  · exact hlength
  · rw [List.length_modify, hlength]

theorem queued_afterRemove (h : Accounted t afq l)
    (htaken : TakesFrom afq.queued base nbSamples taken) :
    (afterRemove afq taken).queued = taken.frames.drop taken.consumed := by
  rw [← queued_afterLoop h htaken]
  by_cases hzero : taken.nbSamples = 0
  · unfold afterRemove AudioFrameQueue.queued
    dsimp only
    rw [if_pos hzero]
  · have hempty := frameCount_afterLoop h htaken hzero
    show (afterRemove afq taken).frames.take (afq.frameCount - taken.consumed) =
      (afterLoop afq taken).frames.take (afq.frameCount - taken.consumed)
    rw [hempty, List.take_zero, List.take_zero]

/-- The first entry behind the loop, when the queue ran empty from a single frame or was
empty before: its time stamp has gone on by what was removed. -/
theorem slot_afterLoop (h : Accounted t afq l) (hbase : avNoptsValue < t - afq.avctx.initialPadding)
    (hnb : 0 < nbSamples) (hstarted : l.started = true)
    (hempty : afq.frameCount - (takeSamples afq.queued nbSamples).consumed = 0)
    (hsingle : if afq.frameCount = 0 then l.single = true else afq.frameCount = 1) :
    ∃ frame, (afterLoop afq (takeSamples afq.queued nbSamples)).frames[0]? = some frame ∧
      frame.pts = t - afq.avctx.initialPadding + (l.requested - l.lost) +
        (takeSamples afq.queued nbSamples).removed := by
  have hlength := h.length_queued
  rw [frames_afterLoop hempty]
  by_cases hzero : afq.frameCount = 0
  · rw [if_pos hzero] at hsingle
    rw [hzero] at hlength
    obtain ⟨frame, hframe, hpts⟩ := h.slot hstarted (fun _ => hsingle)
    rw [List.eq_nil_of_length_eq_zero hlength, hzero]
    exact ⟨frame, hframe, by rw [hpts]; exact (Int.add_zero _).symm⟩
  · rw [if_neg hzero] at hsingle
    rw [hsingle] at hlength
    obtain ⟨frame, hframe⟩ := List.length_eq_one_iff.mp hlength
    have htaken : takeSamples [frame] nbSamples =
        ⟨[frame.advance (min frame.duration nbSamples)], 1,
          nbSamples - min frame.duration nbSamples, min frame.duration nbSamples⟩ := by
      simp [takeSamples, hnb.ne']
    have hcontiguous := h.contiguous
    have hcaught := h.caught_up (by lia)
    have hremoved := h.removed
    rw [hframe] at hcontiguous
    rw [hframe, htaken, hcaught]
    exact ⟨frame.advance (min frame.duration nbSamples), rfl, hcontiguous.advance (by lia) _⟩

theorem slot_afterRemove (htaken : TakesFrom afq.queued base nbSamples taken)
    (hpts : avNoptsValue < pts + taken.removed)
    (hslot : ∃ frame, (afterLoop afq taken).frames[0]? = some frame ∧ frame.pts = pts + taken.removed) :
    ∃ frame, (afterRemove afq taken).frames[0]? = some frame ∧ frame.pts = pts + nbSamples := by
  have hcount := htaken.nbSamples
  obtain ⟨frame, hframe, hslot⟩ := hslot
  unfold afterRemove
  dsimp only
  split_ifs with hzero
  · exact ⟨frame, hframe, by lia⟩
  · have hne : frame.pts ≠ avNoptsValue := by lia
    refine ⟨{ frame with pts := frame.pts + taken.nbSamples }, ?_, by dsimp only; lia⟩
    rw [List.getElem?_modify, hframe]
    simp [hne]

/-- **Samples are removed.** -/
theorem Accounted.remove (he : Encoder avctx t) (h : Accounted t afq l) (hctx : afq.avctx = avctx)
    (hnb : 0 < nbSamples) :
    Accounted t (afterRemove afq (takeSamples afq.queued nbSamples))
      (l.remove afq.frameCount nbSamples (takeSamples afq.queued nbSamples).removed) := by
  have hstart := he.start
  have hremoved := h.removed
  rw [← hctx] at hstart
  have htaken := takeSamples_spec h.contiguous (by lia) hnb.le
  have hslot := slot_afterLoop h hstart hnb
  obtain ⟨taken, hdef⟩ : ∃ taken, taken = takeSamples afq.queued nbSamples := ⟨_, rfl⟩
  rw [← hdef] at htaken hslot ⊢
  have hqueued := queued_afterRemove h htaken
  have hlength := length_afterRemove h htaken
  have htotal := h.contiguous.total_nonneg
  have htook := htaken.removed
  have hleft := htaken.nbSamples
  have hrest := htaken.total
  have hsamples := h.samples
  have hbalance := h.balance
  have hlost := h.lost_le
  have hcount := h.count_le
  have hcaught : 0 < afq.frameCount - taken.consumed →
      l.requested + nbSamples - l.lost = l.removed + taken.removed := by
    intro hpos
    have hzero : taken.nbSamples = 0 := by
      by_contra hne
      have hempty := frameCount_afterLoop h htaken hne
      lia
    have hbefore := h.caught_up (by lia)
    lia
  have hcontiguous : Contiguous (t - afq.avctx.initialPadding + (l.removed + taken.removed))
      (taken.frames.drop taken.consumed) := by
    rw [← Int.add_assoc]
    exact htaken.contiguous
  refine ⟨?_, ?_, ?_, h.not_started, h.delay, ?_, ?_, ?_, ?_, h.lost, ?_, hcaught, ?_⟩
  · rw [hlength]
    exact h.length
  · rw [hlength]
    show afq.frameCount - taken.consumed ≤ _
    lia
  · rw [hlength]
    exact h.started
  · rw [hqueued]
    show afq.remainingSamples - taken.removed = _ + afq.remainingDelay
    lia
  · rw [hqueued]
    exact hcontiguous
  · rw [hqueued]
    show _ + afq.remainingDelay = afq.avctx.initialPadding + l.added - (l.removed + taken.removed)
    lia
  · show 0 ≤ l.removed + taken.removed
    lia
  · show l.removed + taken.removed ≤ l.requested + nbSamples - l.lost
    lia
  · intro hstarted hsingle
    show ∃ frame, (afterRemove afq taken).frames[0]? = some frame ∧
      frame.pts = t - afq.avctx.initialPadding + (l.requested + nbSamples - l.lost)
    rcases Nat.eq_zero_or_pos (afq.frameCount - taken.consumed) with hempty | hpos
    · have hone : if afq.frameCount = 0 then l.single = true else afq.frameCount = 1 := by
        have hsingle := hsingle hempty
        unfold Ledger.remove at hsingle
        dsimp only at hsingle
        split_ifs at hsingle ⊢ with hzero
        · exact hsingle
        · exact of_decide_eq_true hsingle
      obtain ⟨frame, hframe, hpts⟩ := slot_afterRemove htaken (by lia)
        (hslot hstarted hempty hone)
      exact ⟨frame, hframe, by lia⟩
    · have hlong : 0 < (afterRemove afq taken).frames.length := by lia
      refine ⟨_, List.getElem?_eq_getElem hlong, ?_⟩
      rw [hcaught hpos]
      refine hcontiguous.head_pts ?_
      rw [← hqueued, AudioFrameQueue.queued, List.getElem?_take]
      rw [if_pos (show 0 < (afterRemove afq taken).frameCount from hpos)]
      exact List.getElem?_eq_getElem hlong

/-- What a remove returns. -/
theorem ffAfQueueRemove_eq (he : Encoder avctx t) (h : Accounted t afq l) (hctx : afq.avctx = avctx)
    (hnb : 0 < nbSamples) (hfits : nbSamples ≤ intMax) (hpts : outPts afq = some pts) :
    ffAfQueueRemove afq nbSamples = some (ffSamplesToTimeBase avctx pts,
      (takeSamples afq.queued nbSamples).removed,
      afterRemove afq (takeSamples afq.queued nbSamples)) := by
  have hstart := he.start
  have hremoved := h.removed
  rw [← hctx] at hstart
  have htaken := takeSamples_spec h.contiguous (by lia) hnb.le
  have htotal := h.contiguous.total_nonneg
  have htook := htaken.removed
  have hmin : avNoptsValue < 0 := by decide
  have hmax : intMax ≤ int64Max := by decide
  have hduration := ffSamplesToTimeBase_eq he
    (show avNoptsValue < (takeSamples afq.queued nbSamples).removed by lia) (by lia)
  have hafter := removeBeyond_afterLoop h htaken
  have hkept : (afterRemove afq (takeSamples afq.queued nbSamples)).avctx = avctx := hctx
  unfold ffAfQueueRemove
  rw [hpts]
  show (removeBeyond (afterLoop afq (takeSamples afq.queued nbSamples))
    (takeSamples afq.queued nbSamples).nbSamples).bind _ = _
  rw [hafter]
  show some (ffSamplesToTimeBase (afterRemove afq (takeSamples afq.queued nbSamples)).avctx pts,
    ffSamplesToTimeBase (afterRemove afq (takeSamples afq.queued nbSamples)).avctx
      (takeSamples afq.queued nbSamples).removed, _) = _
  rw [hkept, hduration]

theorem outPts_none (h : Accounted t afq l) (hstarted : l.started = false)
    (hempty : afq.frameCount = 0) : outPts afq = some avNoptsValue := by
  have halloc := h.not_started hstarted
  simp [outPts, hempty, halloc]

theorem outPts_isSome (h : Accounted t afq l) : ∃ pts, outPts afq = some pts := by
  by_cases hsome : afq.frameCount ≠ 0 ∨ afq.frameAlloc ≠ 0
  · have hlong : 0 < afq.frames.length := by
      have hcount := h.count_le
      rcases hsome with hcounted | halloc
      · lia
      · cases hstarted : l.started with
        | true => exact (h.started hstarted).2
        | false => exact absurd (h.not_started hstarted) halloc
    exact ⟨afq.frames[0].pts, by rw [outPts, if_pos hsome, List.getElem?_eq_getElem hlong]; rfl⟩
  · exact ⟨avNoptsValue, if_neg hsome⟩

/-- **Every run**, by induction. -/
theorem QueueRun.accounted (he : Encoder avctx t) (h : QueueRun avctx t afq l) :
    afq.avctx = avctx ∧ Accounted t afq l := by
  induction h with
  | init => exact ⟨rfl, accounted_init he⟩
  | add hrun hnb hfits hstep ih => exact ih.2.add he ih.1 hnb hfits hstep
  | fail hrun hstep ih =>
    obtain ⟨hctx, hfail⟩ := ih.2.fail hstep
    exact ⟨hctx.trans ih.1, hfail⟩
  | @remove afq afq' l nbSamples pts duration hrun hnb hfits hstep ih =>
    obtain ⟨out, hout⟩ := outPts_isSome ih.2
    rw [ffAfQueueRemove_eq he ih.2 ih.1 hnb hfits hout] at hstep
    obtain ⟨-, hstep⟩ := Prod.mk.inj (Option.some.inj hstep)
    obtain ⟨hduration, hafq⟩ := Prod.mk.inj hstep
    rw [← hduration, ← hafq]
    exact ⟨ih.1, ih.2.remove he ih.1 hnb⟩

/-- **The time stamps are exact.**  In every state of a run the samples that remain are those of
the queued frames and the delay, and no more has been removed than was added and the padding.
A remove always has a result.  The queue has no time stamp while it is empty and has had no
frame, and otherwise the time stamp goes on by what was asked for, unless the queue last ran
empty from several frames. -/
theorem queueRun_exact {avctx : AVCodecContext} {t : Int} {afq : AudioFrameQueue} {l : Ledger}
    (he : Encoder avctx t) (hrun : QueueRun avctx t afq l) :
    afq.remainingSamples = total afq.queued + afq.remainingDelay ∧
      l.removed ≤ l.added + avctx.initialPadding ∧
      ∀ nbSamples, 0 < nbSamples → nbSamples ≤ intMax →
        ∃ pts duration afq', ffAfQueueRemove afq nbSamples = some (pts, duration, afq') ∧
          (l.started = false → afq.frameCount = 0 → pts = avNoptsValue) ∧
          (l.started = true ∨ 0 < afq.frameCount → (afq.frameCount = 0 → l.single = true) →
            t - avctx.initialPadding + (l.requested - l.lost) ≤ int64Max →
            pts = t - avctx.initialPadding + (l.requested - l.lost)) := by
  obtain ⟨hctx, h⟩ := hrun.accounted he
  have hbalance := h.balance
  have hdelay := h.delay
  have htotal := h.contiguous.total_nonneg
  rw [hctx] at hbalance
  refine ⟨h.samples, by lia, fun nbSamples hnb hfits => ?_⟩
  obtain ⟨out, hout⟩ := outPts_isSome h
  refine ⟨_, _, _, ffAfQueueRemove_eq he h hctx hnb hfits hout, ?_, ?_⟩
  · intro hstarted hempty
    rw [outPts_none h hstarted hempty] at hout
    rw [← Option.some.inj hout]
    exact if_pos rfl
  · intro hknown hsingle hsmall
    have hstart := he.start
    have hremoved := h.removed
    have hlost := h.lost_le
    rw [outPts_eq h hctx hknown hsingle] at hout
    rw [← Option.some.inj hout]
    exact ffSamplesToTimeBase_eq he (by lia) hsmall

/-! ## An overdrawn queue -/

/-- An encoder with a padding of 64 samples. -/
def padded : AVCodecContext := ⟨48000, 64, ⟨1, 48000⟩⟩

def zeroed : FrameMalloc := fun n => some ⟨List.replicate n ⟨0, 0⟩, List.length_replicate⟩

/-- Of 164 samples 200 were asked for, and then 100 were added. -/
def overdrawn : AudioFrameQueue :=
  ⟨padded, 0, 100, [⟨100, 100⟩, ⟨0, 0⟩, ⟨0, 0⟩], 1, 49⟩

theorem padded_encoder : Encoder padded 0 :=
  ⟨by decide, by decide, by decide, rfl, by decide⟩

theorem queueRun_overdrawn : QueueRun padded 0 overdrawn ⟨true, 200, 200, 164, 36, true⟩ := by
  have hadd : QueueRun padded 0 ⟨padded, 0, 164, [⟨-64, 164⟩, ⟨0, 0⟩, ⟨0, 0⟩], 1, 49⟩
      ⟨true, 100, 0, 0, 0, true⟩ :=
    @QueueRun.add padded 0 _ _ _ zeroed 100 .init (by decide) (by decide) (by decide)
  have hremove : QueueRun padded 0 ⟨padded, 0, 0, [⟨136, 0⟩, ⟨0, 0⟩, ⟨0, 0⟩], 0, 49⟩
      ⟨true, 100, 200, 164, 0, true⟩ :=
    @QueueRun.remove padded 0 _ _ _ 200 (-64) 164 hadd (by decide) (by decide) (by decide)
  exact @QueueRun.add padded 0 _ _ _ zeroed 100 hremove (by decide) (by decide) (by decide)

/-- The time stamp is that of the new frame, and not 136. -/
theorem not_pts_requested : ¬ ∀ (avctx : AVCodecContext) (t : Int) (afq : AudioFrameQueue)
    (l : Ledger), Encoder avctx t → QueueRun avctx t afq l → ∀ nbSamples, 0 < nbSamples →
      nbSamples ≤ intMax → ∀ pts duration afq',
        ffAfQueueRemove afq nbSamples = some (pts, duration, afq') →
          pts = t - avctx.initialPadding + l.requested := by
  intro hall
  have hpts := hall padded 0 overdrawn _ padded_encoder queueRun_overdrawn 50 (by decide)
    (by decide) 100 50 ⟨padded, 0, 50, [⟨150, 50⟩, ⟨0, 0⟩, ⟨0, 0⟩], 1, 49⟩ (by decide)
  exact absurd hpts (by decide)

theorem queueRun_exact_overdrawn : overdrawn.remainingSamples = total overdrawn.queued + 0 ∧
    (164 : Int) ≤ 200 + 64 ∧
      ∀ nbSamples, 0 < nbSamples → nbSamples ≤ intMax →
        ∃ pts duration afq', ffAfQueueRemove overdrawn nbSamples = some (pts, duration, afq') ∧
          (true = false → overdrawn.frameCount = 0 → pts = avNoptsValue) ∧
          (true = true ∨ 0 < overdrawn.frameCount → (overdrawn.frameCount = 0 → true = true) →
            (0 : Int) - 64 + (200 - 36) ≤ int64Max → pts = 0 - 64 + (200 - 36)) :=
  queueRun_exact padded_encoder queueRun_overdrawn

end FFmpeg.Libavcodec.AudioFrameQueue
