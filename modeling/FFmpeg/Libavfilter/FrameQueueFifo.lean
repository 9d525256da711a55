import FFmpeg.Common.Ring
import FFmpeg.Libavfilter.FrameQueue

/-!
# A frame queue is a fifo of frames

Every run of a frame queue, with memory or without, gives the frames of a fifo of the frames
that were added, and its four totals count the frames and the samples in the fifo.
-/

namespace FFmpeg.Libavfilter.FrameQueue

open Common Libavutil AudioFifo

/-! ## The fifo -/

/-- A frame in the fifo, with the samples that have not been skipped. -/
structure QueuedFrame where
  frame : Nat
  nbSamples : Nat
  deriving DecidableEq, Repr

/-- How many samples there are in the fifo. -/
def queuedSamples (q : List QueuedFrame) : Nat := (q.map QueuedFrame.nbSamples).sum

/-- The queue holds the frames of the fifo. -/
structure Represents (frames : Frames) (fq : FFFrameQueue) (q : List QueuedFrame) : Prop where
  length : fq.queue.length = fq.allocated
  allocated : ∃ k ≤ 27, fq.allocated = 2 ^ k
  tail_lt : fq.tail < fq.allocated
  queued : fq.queued = q.length
  le_allocated : q.length ≤ fq.allocated
  content : ringSlice fq.queue fq.tail q.length = q.map fun f => ⟨f.frame⟩
  totalFrames : fq.totalFramesHead - fq.totalFramesTail = BitVec.ofNat 64 q.length
  totalSamples : fq.totalSamplesHead - fq.totalSamplesTail = BitVec.ofNat 64 (queuedSamples q)
  nbSamples : ∀ f ∈ q, (frames f.frame).nbSamples = f.nbSamples ∧ f.nbSamples < 2 ^ 31
  nodup : (q.map QueuedFrame.frame).Nodup

variable {frames : Frames} {fq fq' : FFFrameQueue} {q : List QueuedFrame}

theorem represents_ffFramequeueInit (frames : Frames) : Represents frames ffFramequeueInit [] where
  length := rfl
  allocated := ⟨0, by lia, rfl⟩
  tail_lt := Nat.one_pos
  queued := rfl
  le_allocated := Nat.zero_le _
  content := rfl
  totalFrames := rfl
  totalSamples := rfl
  nbSamples := List.forall_mem_nil _
  nodup := List.nodup_nil

/-! ## Places in the array -/

theorem and_allocated {n i : Nat} (hpow : ∃ k ≤ 27, n = 2 ^ k) (hi : i < 2 * n) :
    i &&& (n - 1) = wrapIndex n i := by
  obtain ⟨k, -, rfl⟩ := hpow
  rw [Nat.and_two_pow_sub_one_eq_mod, wrapIndex]
  split_ifs with hwrap
  · rw [Nat.mod_eq_sub_mod hwrap, Nat.mod_eq_of_lt (by lia)]
  · exact Nat.mod_eq_of_lt (by lia)

variable {idx : Nat}

theorem Represents.bucket_eq (h : Represents frames fq q) (hidx : idx ≤ fq.allocated) :
    bucket fq idx = wrapIndex fq.queue.length (fq.tail + idx) := by
  have htail := h.tail_lt
  rw [bucket, and_allocated h.allocated (by lia), h.length]

theorem Represents.getElem?_bucket (h : Represents frames fq q) (hidx : idx < q.length) :
    fq.queue[bucket fq idx]? = (q[idx]?.map fun f => ⟨f.frame⟩) := by
  have htail := h.tail_lt
  have hle := h.le_allocated
  have hlength := h.length
  have hget := getElem?_ringSlice (show fq.tail ≤ fq.queue.length by lia)
    (show q.length ≤ fq.queue.length by lia) idx
  rw [if_pos hidx, h.content, List.getElem?_map] at hget
  rw [h.bucket_eq (by lia)]
  exact hget.symm

/-! ## Adding -/

theorem Represents.move (h : Represents frames fq q) {nq : List FFFrameBucket} {na : Nat}
    (hlength : nq.length = na) (hpow : ∃ k ≤ 27, na = 2 ^ k) (hle : fq.allocated ≤ na)
    (hcontent : ringSlice nq fq.tail q.length = ringSlice fq.queue fq.tail q.length) :
    Represents frames { fq with queue := nq, allocated := na } q where
  length := hlength
  allocated := hpow
  tail_lt := h.tail_lt.trans_le hle
  queued := h.queued
  le_allocated := h.le_allocated.trans hle
  content := hcontent.trans h.content
  totalFrames := h.totalFrames
  totalSamples := h.totalSamples
  nbSamples := h.nbSamples
  nodup := h.nodup

/-- More room: a full queue holds the same frames in a larger array. -/
theorem Represents.grow (h : Represents frames fq q) (hfull : fq.queued = fq.allocated)
    (malloc : BucketMalloc) :
    (FrameQueue.grow malloc fq = none ∧ ∃ n, malloc n = none ∨ 2 ^ 28 ≤ n) ∨
      ∃ fq', FrameQueue.grow malloc fq = some fq' ∧ Represents frames fq' q ∧
        q.length < fq'.allocated := by
  have hlength := h.length
  have hqueued := h.queued
  have htail := h.tail_lt
  have hunwrap (fresh : List FFFrameBucket) (hroom : fq.queue.length + fq.tail ≤ fresh.length) :=
    ringSlice_unwrap (show fq.tail ≤ fq.queue.length by lia) hroom
  have hall : fq.queue.length = q.length := by lia
  rw [hall] at hunwrap
  unfold FrameQueue.grow
  by_cases hone : fq.allocated = 1
  · rw [if_pos hone, avReallocArray, if_neg (by lia)]
    cases hmalloc : malloc 8 with
    | none => exact Or.inl ⟨rfl, 8, Or.inl hmalloc⟩
    | some fresh =>
      have hfresh := fresh.property
      have hzero : fq.tail = 0 := by lia
      have hcontent := hunwrap fresh.val (by lia)
      rw [hzero, List.take_zero, overwrite_nil] at hcontent
      refine Or.inr ⟨_, rfl, h.move ?_ ⟨3, by lia, rfl⟩ (by lia) ?_, ?_⟩
      · dsimp only
        rw [overwrite_nil, List.take_of_length_le (by lia), length_overwrite_of_le (by lia)]
        exact hfresh
      · dsimp only
        rw [overwrite_nil, List.take_of_length_le (by lia), hzero]
        exact hcontent
      · show q.length < 8
        lia
  · have hdouble : fq.allocated <<< 1 = 2 * fq.allocated := by
      rw [Nat.shiftLeft_eq]
      lia
    rw [if_neg hone, hdouble]
    dsimp only
    unfold avReallocArray
    by_cases hlarge : 2 ^ 31 - 1 < 2 * fq.allocated * 8
    · rw [if_pos hlarge]
      exact Or.inl ⟨rfl, 2 * fq.allocated, Or.inr (by lia)⟩
    · rw [if_neg hlarge]
      cases hmalloc : malloc (2 * fq.allocated) with
      | none => exact Or.inl ⟨rfl, _, Or.inl hmalloc⟩
      | some fresh =>
        have hfresh := fresh.property
        have hcopy : (overwrite fresh.val 0 fq.queue).length = 2 * fq.allocated := by
          rw [length_overwrite_of_le (by lia), hfresh]
        have hpow : ∃ k ≤ 27, 2 * fq.allocated = 2 ^ k := by
          obtain ⟨k, hk, heq⟩ := h.allocated
          refine ⟨k + 1, ?_, by rw [heq, Nat.pow_succ, Nat.mul_comm]⟩
          by_contra hbig
          have hk : k = 27 := by lia
          rw [hk] at heq
          lia
        -- what goes on at the start of the array is moved when there is such
        have hnq : (if fq.tail + fq.queued > fq.allocated then
            overwrite (overwrite fresh.val 0 fq.queue) fq.allocated
              ((overwrite fresh.val 0 fq.queue).take (fq.tail + fq.queued - fq.allocated))
            else overwrite fresh.val 0 fq.queue) =
              overwrite (overwrite fresh.val 0 fq.queue) q.length (fq.queue.take fq.tail) := by
          have hsame : (overwrite fresh.val 0 fq.queue).take fq.tail = fq.queue.take fq.tail := by
            have htake : (overwrite fresh.val 0 fq.queue).take (0 + fq.queue.length) = _ :=
              take_overwrite (Nat.zero_le fresh.val.length)
            rw [Nat.zero_add, List.take_zero, List.nil_append] at htake
            have hprefix := congrArg (List.take fq.tail) htake
            rwa [List.take_take, Nat.min_eq_left (by lia)] at hprefix
          have hcount : fq.tail + fq.queued - fq.allocated = fq.tail := by lia
          split_ifs with hwraps
          · rw [hcount, hsame, ← hall, hlength]
          · have hzero : fq.tail = 0 := by lia
            rw [hzero, List.take_zero, overwrite_nil]
        refine Or.inr ⟨_, rfl, h.move ?_ hpow (by lia) ?_, ?_⟩
        · rw [hnq, length_overwrite_of_le, hcopy]
          rw [List.length_take]
          lia
        · rw [hnq]
          exact hunwrap fresh.val (by lia)
        · show q.length < 2 * fq.allocated
          lia

theorem set_eq_overwrite {α : Type*} {l : List α} {i : Nat} (hi : i < l.length) (x : α) :
    l.set i x = overwrite l i [x] := by
  rw [List.set_eq_take_cons_drop x hi, overwrite, List.append_assoc]
  rfl

theorem add_sub_bitVec (a b c : BitVec 64) : a + b - c = a - c + b := by
  bv_omega

theorem sub_add_bitVec (a b c : BitVec 64) : a - (b + c) = a - b - c := by
  bv_omega

theorem add_sub_cancel_bitVec (a b : BitVec 64) : a + b - b = a := by
  bv_omega

variable {frame : Nat}

/-- A frame is put behind the ones that are in the queue. -/
theorem Represents.put (h : Represents frames fq q) (hroom : q.length < fq.allocated) {n : Nat}
    (hnb : (frames frame).nbSamples = n) (hn : n < 2 ^ 31) (hnew : frame ∉ q.map QueuedFrame.frame) :
    ∃ fq', FrameQueue.put frames fq frame = some fq' ∧
      Represents frames fq' (q ++ [⟨frame, n⟩]) := by
  have hlength := h.length
  have htail := h.tail_lt
  have hbucket := h.bucket_eq hroom.le
  have hlt : bucket fq fq.queued < fq.queue.length := by
    rw [h.queued, hbucket, wrapIndex]
    split_ifs <;> lia
  unfold FrameQueue.put
  rw [if_pos hlt]
  refine ⟨_, rfl, ⟨?_, h.allocated, h.tail_lt, ?_, ?_, ?_, ?_, ?_, ?_, ?_⟩⟩
  · rw [List.length_set, hlength]
  · rw [List.length_append, ← h.queued]
    rfl
  · rw [List.length_append]
    exact hroom
  · dsimp only
    rw [set_eq_overwrite hlt, h.queued, hbucket]
    have hone : ([⟨frame⟩] : List FFFrameBucket).length = 1 := rfl
    rw [h.queued, hbucket] at hlt
    have hsize : (overwrite fq.queue (wrapIndex fq.queue.length (fq.tail + q.length))
        [⟨frame⟩]).length = fq.queue.length := length_overwrite_of_le hlt
    rw [List.length_append, List.length_singleton, ringSlice_add (by lia) (by lia), hsize,
      ringSlice_overwrite (by lia) (by rw [hone]; lia) (by rw [hone]; lia), h.content,
      List.map_append]
    exact congrArg _ (ringSlice_overwrite_self hlt)
  · have htotal := h.totalFrames
    dsimp only
    rw [List.length_append, List.length_singleton, BitVec.ofNat_add, ← htotal]
    exact add_sub_bitVec _ _ _
  · have htotal := h.totalSamples
    have hsum : queuedSamples (q ++ [⟨frame, n⟩]) = queuedSamples q + n := by
      simp [queuedSamples]
    dsimp only
    rw [hsum, BitVec.ofNat_add, ← htotal, hnb, BitVec.ofInt_natCast]
    exact add_sub_bitVec _ _ _
  · intro f hf
    rcases List.mem_append.mp hf with hf | hf
    · exact h.nbSamples f hf
    · rw [List.mem_singleton.mp hf]
      exact ⟨hnb, hn⟩
  · rw [List.map_append, List.nodup_append]
    refine ⟨h.nodup, List.nodup_singleton _, ?_⟩
    rintro a ha b hb rfl
    rw [List.mem_singleton.mp hb] at ha
    exact hnew ha

/-! ## Taking, peeking and skipping -/

theorem Represents.peek (h : Represents frames fq q) (hidx : idx < q.length) :
    ffFramequeuePeek fq idx = some q[idx].frame := by
  rw [ffFramequeuePeek, h.getElem?_bucket hidx, List.getElem?_eq_getElem hidx]
  rfl

variable {f : QueuedFrame}

/-- The first frame is taken. -/
theorem Represents.take (h : Represents frames fq (f :: q)) :
    ∃ fq', ffFramequeueTake frames fq = some (f.frame, fq') ∧ Represents frames fq' q := by
  have hlength := h.length
  have htail := h.tail_lt
  have hle := h.le_allocated
  have hcontent := h.content
  obtain ⟨hnb, -⟩ := h.nbSamples f List.mem_cons_self
  rw [List.length_cons] at hle hcontent
  have hnext : (fq.tail + 1) &&& (fq.allocated - 1) = wrapIndex fq.allocated (fq.tail + 1) :=
    and_allocated h.allocated (by lia)
  unfold ffFramequeueTake
  rw [h.getElem?_bucket (Nat.zero_lt_succ _)]
  refine ⟨_, rfl, ⟨hlength, h.allocated, ?_, ?_, ?_, ?_, ?_, ?_, ?_, ?_⟩⟩
  · dsimp only
    rw [hnext, wrapIndex]
    split_ifs <;> lia
  · dsimp only
    rw [h.queued]
    rfl
  · exact (Nat.le_succ _).trans hle
  · have hdrop := drop_ringSlice (k := 1) (show fq.tail ≤ fq.queue.length by lia)
      (show q.length + 1 ≤ fq.queue.length by lia) (by lia)
    rw [hcontent, List.map_cons, List.drop_one, List.tail_cons, Nat.add_sub_cancel] at hdrop
    dsimp only
    rw [hnext, ← hlength]
    exact hdrop.symm
  · have htotal := h.totalFrames
    dsimp only
    rw [sub_add_bitVec, htotal, List.length_cons, BitVec.ofNat_add]
    exact add_sub_cancel_bitVec _ _
  · have htotal := h.totalSamples
    have hsum : queuedSamples (f :: q) = queuedSamples q + f.nbSamples := by
      simp [queuedSamples, Nat.add_comm]
    dsimp only
    rw [sub_add_bitVec, htotal, hsum, hnb, BitVec.ofInt_natCast, BitVec.ofNat_add]
    exact add_sub_cancel_bitVec _ _
  · exact fun g hg => h.nbSamples g (List.mem_cons_of_mem f hg)
  · exact (List.nodup_cons.mp h.nodup).2

theorem Represents.write (h : Represents frames fq q) (hout : frame ∉ q.map QueuedFrame.frame)
    (value : AVFrame) :
    Represents (Function.update frames frame value) fq q := by
  refine { h with nbSamples := fun f hf => ?_ }
  have hne : f.frame ≠ frame := fun heq => hout (heq ▸ List.mem_map_of_mem hf)
  rw [Function.update_of_ne hne]
  exact h.nbSamples f hf

/-- Samples of the first frame are skipped. -/
theorem Represents.skip (h : Represents frames fq (f :: q)) {samples : Nat}
    (hsamples : samples < f.nbSamples)
    (hplanes : (frames f.frame).planes ≤ (frames f.frame).extendedData.length)
    (timeBase : AVRational) :
    ∃ fq', ffFramequeueSkipSamples frames fq samples timeBase =
        some (Function.update frames f.frame ((frames f.frame).skip samples timeBase), fq') ∧
      Represents (Function.update frames f.frame ((frames f.frame).skip samples timeBase)) fq'
        (⟨f.frame, f.nbSamples - samples⟩ :: q) := by
  obtain ⟨hnb, hlt⟩ := h.nbSamples f List.mem_cons_self
  have hsame : (⟨f.frame, f.nbSamples - samples⟩ :: q).map QueuedFrame.frame =
      (f :: q).map QueuedFrame.frame := rfl
  unfold ffFramequeueSkipSamples
  rw [h.getElem?_bucket (Nat.zero_lt_succ _)]
  refine ⟨_, if_pos hplanes, ⟨h.length, h.allocated, h.tail_lt, h.queued, h.le_allocated, h.content,
    h.totalFrames, ?_, fun g hg => ?_, hsame ▸ h.nodup⟩⟩
  · have htotal := h.totalSamples
    have hsum : queuedSamples (f :: q) =
        queuedSamples (⟨f.frame, f.nbSamples - samples⟩ :: q) + samples := by
      simp only [queuedSamples, List.map_cons, List.sum_cons]
      lia
    dsimp only
    rw [sub_add_bitVec, htotal, hsum, BitVec.ofNat_add]
    exact add_sub_cancel_bitVec _ _
  · rcases List.mem_cons.mp hg with rfl | hg
    · rw [Function.update_self]
      have hnew : ((frames f.frame).skip samples timeBase).nbSamples =
          (f.nbSamples - samples : Int) := by
        rw [AVFrame.skip, hnb]
        exact Int.bmod_eq_of_le (by lia) (by lia)
      dsimp only
      rw [hnew]
      lia
    · have hne : g.frame ≠ f.frame := fun heq =>
        (List.nodup_cons.mp h.nodup).1 (heq ▸ List.mem_map_of_mem hg)
      rw [Function.update_of_ne hne]
      exact h.nbSamples g (List.mem_cons_of_mem f hg)

/-! ## Runs -/

/-- An operation on a queue.  The owner of a frame that is not in the queue may change it. -/
inductive QueueOp
  | add (malloc : BucketMalloc) (frame : Nat)
  | take
  | peek (idx : Nat)
  | skipSamples (samples : Nat) (timeBase : AVRational)
  | write (frame : Nat) (value : AVFrame)

/-- The result of an operation. -/
inductive QueueOutput
  | ret (ret : Except AVERROR Unit)
  | frame (frame : Nat)
  | none

/-- The memory and the queue. -/
structure QueueState where
  frames : Frames
  fq : FFFrameQueue

/-- One operation on the queue. -/
def queueStep (s : QueueState) : QueueOp → Option (QueueOutput × QueueState)
  | .add malloc frame =>
    (ffFramequeueAdd malloc s.frames s.fq frame).map fun r => (.ret r.1, ⟨s.frames, r.2⟩)
  | .take => (ffFramequeueTake s.frames s.fq).map fun r => (.frame r.1, ⟨s.frames, r.2⟩)
  | .peek idx => (ffFramequeuePeek s.fq idx).map fun frame => (.frame frame, s)
  | .skipSamples samples timeBase =>
    (ffFramequeueSkipSamples s.frames s.fq samples timeBase).map fun r => (.none, ⟨r.1, r.2⟩)
  | .write frame value => some (.none, ⟨Function.update s.frames frame value, s.fq⟩)

/-- Whether a frame is in the queue. -/
def InQueue (fq : FFFrameQueue) (frame : Nat) : Prop :=
  ∃ idx < fq.queued, ffFramequeuePeek fq idx = some frame

/-- What a caller has to keep to: a frame is not added twice and has a number of samples, the
frames asked for are there, and fewer samples are skipped than the first frame has. -/
def Permitted (s : QueueState) : QueueOp → Prop
  | .add _ frame =>
    ¬ InQueue s.fq frame ∧ 0 ≤ (s.frames frame).nbSamples ∧ (s.frames frame).nbSamples < 2 ^ 31
  | .take => 0 < s.fq.queued
  | .peek idx => idx < s.fq.queued
  | .skipSamples samples _ => 0 < s.fq.queued ∧ ∀ frame, ffFramequeuePeek s.fq 0 = some frame →
      samples < (s.frames frame).nbSamples ∧
        (s.frames frame).planes ≤ (s.frames frame).extendedData.length
  | .write frame _ => ¬ InQueue s.fq frame

/-- A run of permitted operations. -/
inductive QueueRun : QueueState → List QueueOp → List QueueOutput → QueueState → Prop
  | nil (s : QueueState) : QueueRun s [] [] s
  | cons {s s' s'' : QueueState} {op : QueueOp} {ops : List QueueOp} {out : QueueOutput}
      {outs : List QueueOutput} (hop : Permitted s op) (hstep : queueStep s op = some (out, s'))
      (hrun : QueueRun s' ops outs s'') : QueueRun s (op :: ops) (out :: outs) s''

/-- What an operation means for the fifo.  Adding fails only where there is no memory. -/
inductive FifoStep : List Nat → QueueOp → QueueOutput → List Nat → Prop
  | add (q : List Nat) (malloc : BucketMalloc) (frame : Nat) :
      FifoStep q (.add malloc frame) (.ret (.ok ())) (q ++ [frame])
  | addFails (q : List Nat) {malloc : BucketMalloc} (frame : Nat)
      (hmemory : ∃ n, malloc n = none ∨ 2 ^ 28 ≤ n) :
      FifoStep q (.add malloc frame) (.ret (.error .enomem)) q
  | take (frame : Nat) (q : List Nat) : FifoStep (frame :: q) .take (.frame frame) q
  | peek {q : List Nat} {idx frame : Nat} (hframe : q[idx]? = some frame) :
      FifoStep q (.peek idx) (.frame frame) q
  | skipSamples (q : List Nat) (samples : Nat) (timeBase : AVRational) :
      FifoStep q (.skipSamples samples timeBase) .none q
  | write (q : List Nat) (frame : Nat) (value : AVFrame) : FifoStep q (.write frame value) .none q

/-- A run of the fifo. -/
inductive FifoRun : List Nat → List QueueOp → List QueueOutput → List Nat → Prop
  | nil (q : List Nat) : FifoRun q [] [] q
  | cons {q q' q'' : List Nat} {op : QueueOp} {ops : List QueueOp} {out : QueueOutput}
      {outs : List QueueOutput} (hstep : FifoStep q op out q') (hrun : FifoRun q' ops outs q'') :
      FifoRun q (op :: ops) (out :: outs) q''

theorem Represents.inQueue (h : Represents frames fq q) (hmem : frame ∈ q.map QueuedFrame.frame) :
    InQueue fq frame := by
  obtain ⟨f, hf, rfl⟩ := List.mem_map.mp hmem
  obtain ⟨idx, hidx, rfl⟩ := List.getElem_of_mem hf
  exact ⟨idx, by rw [h.queued]; exact hidx, h.peek hidx⟩

theorem ffFramequeueAdd_error {malloc : BucketMalloc} {e : AVERROR}
    (h : ffFramequeueAdd malloc frames fq frame = some (.error e, fq')) : fq' = fq := by
  unfold ffFramequeueAdd at h
  split_ifs at h
  · split at h
    · exact (Prod.mk.inj (Option.some.inj h)).2.symm
    · simp at h
  · simp at h

theorem Represents.add (h : Represents frames fq q) (malloc : BucketMalloc)
    (hnew : frame ∉ q.map QueuedFrame.frame) {n : Nat} (hnb : (frames frame).nbSamples = n)
    (hn : n < 2 ^ 31) :
    (ffFramequeueAdd malloc frames fq frame = some (.error .enomem, fq) ∧
        ∃ n, malloc n = none ∨ 2 ^ 28 ≤ n) ∨
      ∃ fq', ffFramequeueAdd malloc frames fq frame = some (.ok (), fq') ∧
        Represents frames fq' (q ++ [⟨frame, n⟩]) := by
  unfold ffFramequeueAdd
  by_cases hfull : fq.queued = fq.allocated
  · rw [if_pos hfull]
    rcases h.grow hfull malloc with ⟨hgrow, hmemory⟩ | ⟨fq', hgrow, hrep, hroom⟩
    · rw [hgrow]
      exact Or.inl ⟨rfl, hmemory⟩
    · obtain ⟨fq'', hput, hrep'⟩ := hrep.put hroom hnb hn hnew
      rw [hgrow]
      dsimp only
      rw [hput]
      exact Or.inr ⟨fq'', rfl, hrep'⟩
  · have hqueued := h.queued
    have hle := h.le_allocated
    obtain ⟨fq', hput, hrep⟩ := h.put (by lia) hnb hn hnew
    rw [if_neg hfull, hput]
    exact Or.inr ⟨fq', rfl, hrep⟩

variable {s : QueueState}

/-- A permitted operation has a result, and it is one on the fifo. -/
theorem queueStep_refines (h : Represents s.frames s.fq q) {op : QueueOp} (hop : Permitted s op) :
    ∃ out s' q', queueStep s op = some (out, s') ∧ Represents s'.frames s'.fq q' ∧
      FifoStep (q.map QueuedFrame.frame) op out (q'.map QueuedFrame.frame) := by
  have hqueued := h.queued
  cases op with
  | add malloc frame =>
    obtain ⟨hout, hpos, hlt⟩ := hop
    have hnew : frame ∉ q.map QueuedFrame.frame := fun hmem => hout (h.inQueue hmem)
    have hnb : (s.frames frame).nbSamples = (s.frames frame).nbSamples.toNat :=
      (Int.toNat_of_nonneg hpos).symm
    rcases h.add malloc hnew hnb (by lia) with ⟨hadd, hmemory⟩ | ⟨fq', hadd, hrep⟩
    · exact ⟨_, s, q, by rw [queueStep, hadd]; rfl, h, .addFails _ frame hmemory⟩
    · refine ⟨_, ⟨s.frames, fq'⟩, _, by rw [queueStep, hadd]; rfl, hrep, ?_⟩
      rw [List.map_append]
      exact .add _ malloc frame
  | take =>
    cases q with
    | nil => exact absurd hop (by rw [Permitted, hqueued]; exact Nat.lt_irrefl 0)
    | cons f q =>
      obtain ⟨fq', htake, hrep⟩ := h.take
      exact ⟨_, ⟨s.frames, fq'⟩, q, by rw [queueStep, htake]; rfl, hrep, .take f.frame _⟩
  | peek idx =>
    have hidx : idx < q.length := by
      rw [← hqueued]
      exact hop
    refine ⟨_, s, q, by rw [queueStep, h.peek hidx]; rfl, h, .peek ?_⟩
    rw [List.getElem?_map, List.getElem?_eq_getElem hidx]
    rfl
  | skipSamples samples timeBase =>
    obtain ⟨hpos, hhead⟩ := hop
    cases q with
    | nil => exact absurd hpos (by rw [hqueued]; exact Nat.lt_irrefl 0)
    | cons f q =>
      obtain ⟨hsamples, hplanes⟩ := hhead f.frame (h.peek (Nat.zero_lt_succ _))
      have hnb := (h.nbSamples f List.mem_cons_self).1
      have hlt : samples < f.nbSamples := by lia
      obtain ⟨fq', hskip, hrep⟩ := h.skip hlt hplanes timeBase
      exact ⟨_, ⟨_, fq'⟩, _, by rw [queueStep, hskip]; rfl, hrep, .skipSamples _ samples timeBase⟩
  | write frame value =>
    exact ⟨_, ⟨_, s.fq⟩, q, rfl, h.write (fun hmem => hop (h.inQueue hmem)) value,
      .write _ frame value⟩

theorem QueueRun.refines {s' : QueueState} {ops : List QueueOp} {outs : List QueueOutput}
    (hrun : QueueRun s ops outs s') (h : Represents s.frames s.fq q) :
    ∃ q', Represents s'.frames s'.fq q' ∧
      FifoRun (q.map QueuedFrame.frame) ops outs (q'.map QueuedFrame.frame) := by
  induction hrun generalizing q with
  | nil s => exact ⟨q, h, .nil _⟩
  | cons hop hstep hrun ih =>
    obtain ⟨out, s₁, q₁, heq, hrep, hfifo⟩ := queueStep_refines h hop
    cases hstep.symm.trans heq
    obtain ⟨q', hrep', hrest⟩ := ih hrep
    exact ⟨q', hrep', .cons hfifo hrest⟩

/-- The queue has the frames of the fifo, and its totals count them and their samples. -/
structure Accounted (s : QueueState) (q : List Nat) : Prop where
  frames : ∀ idx, idx < q.length → ffFramequeuePeek s.fq idx = q[idx]?
  queued : s.fq.queued = q.length
  totalFrames : (s.fq.totalFramesHead - s.fq.totalFramesTail).toNat = s.fq.queued
  totalSamples : ((s.fq.totalSamplesHead - s.fq.totalSamplesTail).toNat : Int) =
    (q.map fun frame => (s.frames frame).nbSamples).sum
  allocated : ∃ k, s.fq.allocated = 2 ^ k

theorem queuedSamples_lt {q : List QueuedFrame} (h : ∀ f ∈ q, f.nbSamples < 2 ^ 31) :
    queuedSamples q ≤ q.length * 2 ^ 31 := by
  have hle : ∀ n ∈ q.map QueuedFrame.nbSamples, n ≤ 2 ^ 31 := by
    intro n hn
    obtain ⟨f, hf, rfl⟩ := List.mem_map.mp hn
    exact (h f hf).le
  have hsum := List.sum_le_card_nsmul _ _ hle
  rwa [List.length_map, smul_eq_mul] at hsum

theorem Represents.accounted (h : Represents s.frames s.fq q) :
    Accounted s (q.map QueuedFrame.frame) := by
  obtain ⟨k, hk, hpow⟩ := h.allocated
  have hle := h.le_allocated
  have hsmall : (2 : Nat) ^ k ≤ 2 ^ 27 := Nat.pow_le_pow_right (by lia) hk
  have hsamples := queuedSamples_lt fun f hf => (h.nbSamples f hf).2
  refine ⟨fun idx hidx => ?_, ?_, ?_, ?_, k, hpow⟩
  · rw [List.length_map] at hidx
    rw [h.peek hidx, List.getElem?_map, List.getElem?_eq_getElem hidx]
    rfl
  · rw [List.length_map, h.queued]
  · rw [h.totalFrames, BitVec.toNat_ofNat, h.queued, Nat.mod_eq_of_lt (by lia)]
  · have hsame : (q.map QueuedFrame.frame).map (fun frame => (s.frames frame).nbSamples) =
        (q.map QueuedFrame.nbSamples).map Nat.cast := by
      rw [List.map_map, List.map_map]
      exact List.map_congr_left fun f hf => (h.nbSamples f hf).1
    rw [h.totalSamples, BitVec.toNat_ofNat, Nat.mod_eq_of_lt (by lia), hsame, queuedSamples,
      Nat.cast_list_sum]

/-- Frames of 1024 samples, with two bytes each. -/
def monoFrames : Frames := fun _ => ⟨.s16, 1, 48000, 0, 1024, 2048, [0], [0]⟩

/-- Memory that is all zero. -/
def zeroBuckets : BucketMalloc := fun n => some ⟨List.replicate n ⟨0⟩, List.length_replicate⟩

instance (fq : FFFrameQueue) (frame : Nat) : Decidable (InQueue fq frame) :=
  inferInstanceAs (Decidable (∃ idx < fq.queued, ffFramequeuePeek fq idx = some frame))

end FFmpeg.Libavfilter.FrameQueue
