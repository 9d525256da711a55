import FFmpeg.Common.Planes
import FFmpeg.Libavutil.AudioFifo
import FFmpeg.Libavutil.FifoQueue

/-!
# Audio fifos as queues of samples

`AVAudioFifo` refines one queue of frames, of which each plane holds its samples.  The count
of the audio fifo is the length of the queue and goes for all planes, over every run of
calls, whatever allocations fail in the middle of them.
-/

namespace FFmpeg.Libavutil.AudioFifo

open Common

/-! ## The queue -/

/-- The bytes copied to each plane are its samples of some frames. -/
def Shows (planes : Nat) (data : List Bytes) (frames : List (Frame UInt8)) : Prop :=
  ∀ i, i < planes → data.getD i [] = plane frames i

/-- What a call means for the queue. -/
inductive QueueStep (planes width : Nat) (q : List (Frame UInt8)) :
    Call → Output → List (Frame UInt8) → Prop
  | write (memory : Memory) (data : List Bytes) (nbSamples : Int) :
      QueueStep planes width q (.write memory data nbSamples) (.code nbSamples)
        (q ++ framesOf width nbSamples.toNat data)
  | writeFails (memory : Memory) (data : List Bytes) (nbSamples : Int) {ret : Int}
      (hret : ret < 0) :
      QueueStep planes width q (.write memory data nbSamples) (.code ret) q
  | read {nbSamples : Int} {data : List Bytes} (hnb : 0 ≤ nbSamples)
      (hshows : Shows planes data (q.take nbSamples.toNat)) :
      QueueStep planes width q (.read nbSamples) ⟨min nbSamples q.length, data⟩
        (q.drop nbSamples.toNat)
  | readFails {nbSamples : Int} (hnb : nbSamples < 0) :
      QueueStep planes width q (.read nbSamples) (.code AVERROR.einval.toInt) q
  | peek {nbSamples : Int} {data : List Bytes} (hnb : 0 ≤ nbSamples)
      (hshows : Shows planes data (q.take nbSamples.toNat)) :
      QueueStep planes width q (.peek nbSamples) ⟨min nbSamples q.length, data⟩ q
  | peekFails {nbSamples : Int} (hnb : nbSamples < 0) :
      QueueStep planes width q (.peek nbSamples) (.code AVERROR.einval.toInt) q
  | peekAt {nbSamples offset : Int} {data : List Bytes} (hnb : 0 ≤ nbSamples)
      (hoffset : 0 ≤ offset) (hlt : offset < q.length)
      (hle : offset + min nbSamples q.length ≤ q.length)
      (hshows : Shows planes data
        (slice q offset.toNat (min nbSamples q.length).toNat)) :
      QueueStep planes width q (.peekAt nbSamples offset) ⟨min nbSamples q.length, data⟩ q
  | peekAtFails {nbSamples offset : Int}
      (hargs : nbSamples < 0 ∨ offset < 0 ∨ q.length ≤ offset ∨
        q.length < offset + min nbSamples q.length) :
      QueueStep planes width q (.peekAt nbSamples offset) (.code AVERROR.einval.toInt) q
  | drain {nbSamples : Int} (hnb : 0 ≤ nbSamples) :
      QueueStep planes width q (.drain nbSamples) (.code 0) (q.drop nbSamples.toNat)
  | drainFails {nbSamples : Int} (hnb : nbSamples < 0) :
      QueueStep planes width q (.drain nbSamples) (.code AVERROR.einval.toInt) q
  | reset : QueueStep planes width q .reset (.code 0) []
  | realloc (memory : Memory) (nbSamples : Int) :
      QueueStep planes width q (.realloc memory nbSamples) (.code 0) q
  | reallocFails (memory : Memory) (nbSamples : Int) {ret : Int} (hret : ret < 0) :
      QueueStep planes width q (.realloc memory nbSamples) (.code ret) q

/-- A run of the queue. -/
inductive QueueRun (planes width : Nat) :
    List (Frame UInt8) → List Call → List Output → List (Frame UInt8) → Prop
  | nil (q : List (Frame UInt8)) : QueueRun planes width q [] [] q
  | cons {q q' q'' : List (Frame UInt8)} {c : Call} {calls : List Call} {out : Output}
      {outs : List Output} (hstep : QueueStep planes width q c out q')
      (hrun : QueueRun planes width q' calls outs q'') :
      QueueRun planes width q (c :: calls) (out :: outs) q''

/-- What a caller has to keep to: it writes no negative number of samples, and passes as
many planes as there are, each with all of the samples. -/
def Permits (af : AVAudioFifo) : Call → Prop
  | .write _ data nbSamples => 0 ≤ nbSamples ∧ data.length = af.buf.length ∧
      ∀ samples ∈ data, nbSamples * af.sampleSize ≤ samples.length
  | _ => True

/-- A run of calls. -/
inductive CallRun : AVAudioFifo → List Call → List Output → AVAudioFifo → Prop
  | nil (af : AVAudioFifo) : CallRun af [] [] af
  | cons {af af' af'' : AVAudioFifo} {c : Call} {calls : List Call} {out : Output}
      {outs : List Output} (hcall : Permits af c) (hstep : call af c = some (out, af'))
      (hrun : CallRun af' calls outs af'') : CallRun af (c :: calls) (out :: outs) af''

theorem QueueStep.unchanged {planes width : Nat} {q q' : List (Frame UInt8)} {c : Call}
    {out : Output} (h : QueueStep planes width q c out q') (hret : out.ret < 0)
    (hcall : ∀ memory data nbSamples, c = .write memory data nbSamples → 0 ≤ nbSamples) :
    q' = q := by
  cases h with
  | write memory data nbSamples =>
    have hnb := hcall memory data nbSamples rfl
    have hneg : nbSamples < 0 := hret
    lia
  | read hnb =>
    have hneg : min _ (q.length : Int) < 0 := hret
    lia
  | drain => exact absurd hret (lt_irrefl 0)
  | reset => exact absurd hret (lt_irrefl 0)
  | _ => rfl

/-! ## Planes in lock step -/

/-- The fifo of each plane holds what `c` says. -/
def Planes (buf : List AVFifoBuffer) (c : Nat → Bytes) : Prop :=
  ∀ i f, buf[i]? = some f → Represents f (c i)

variable {buf : List AVFifoBuffer} {c : Nat → Bytes}

variable {f : AVFifoBuffer}

theorem planes_cons : Planes (f :: buf) c ↔ Represents f (c 0) ∧ Planes buf fun i => c (i + 1) := by
  constructor
  · intro h
    exact ⟨h 0 f rfl, fun i g hg => h (i + 1) g hg⟩
  · rintro ⟨hfirst, hrest⟩ i g hg
    cases i with
    | zero =>
      cases hg
      exact hfirst
    | succ i => exact hrest i g hg

theorem planes_nil : Planes [] c :=
  fun _ _ hf => nomatch hf

theorem mapM_planes {α β : Type} {f : α → Option β} {P : Nat → α → β → Prop} {l : List α}
    (h : ∀ i a, l[i]? = some a → ∃ b, f a = some b ∧ P i a b) :
    ∃ r, l.mapM f = some r ∧ r.length = l.length ∧
      ∀ i b, r[i]? = some b → ∃ a, l[i]? = some a ∧ P i a b := by
  induction l generalizing P with
  | nil => exact ⟨[], rfl, rfl, fun _ _ hb => nomatch hb⟩
  | cons a l ih =>
    obtain ⟨b, hb, hP⟩ := h 0 a rfl
    obtain ⟨r, hr, hlength, hall⟩ := ih (P := fun i => P (i + 1)) fun i a ha => h (i + 1) a ha
    refine ⟨b :: r, ?_, congrArg (· + 1) hlength, ?_⟩
    · rw [List.mapM_cons, hb, hr]
      rfl
    · intro i b' hb'
      cases i with
      | zero =>
        cases hb'
        exact ⟨a, rfl, hP⟩
      | succ i => exact hall i b' hb'

/-- Each fifo grows or is left alone; the content stays in any case. -/
theorem reallocPlanes_spec (memory : Memory) (size : Nat) (h : Planes buf c) (start : Nat) :
    ∃ ret buf', reallocPlanes memory size start buf = some (ret, buf') ∧
      buf'.length = buf.length ∧ Planes buf' c ∧
      (∀ n : Int, (∀ f ∈ buf, n ≤ f.buffer.length) → ∀ f ∈ buf', n ≤ f.buffer.length) ∧
      ((ret = 0 ∧ ∀ f ∈ buf', size ≤ f.buffer.length) ∨ ret < 0) := by
  induction buf generalizing c start with
  | nil =>
    exact ⟨0, [], rfl, rfl, planes_nil, fun n hn => hn, .inl ⟨rfl, fun f hf => nomatch hf⟩⟩
  | cons f buf ih =>
    obtain ⟨hfirst, hrest⟩ := planes_cons.mp h
    obtain ⟨ret, f', hf, hrep, hmono, hret⟩ :=
      hfirst.realloc2 (memory.planes start) size
    rw [reallocPlanes, hf, Option.bind_some]
    rcases hret with ⟨rfl, hsize⟩ | ⟨hneg, rfl⟩
    · obtain ⟨ret, buf', hbuf, hlength, hplanes, hkeep, hret⟩ := ih hrest (start + 1)
      refine ⟨ret, f' :: buf', ?_, congrArg (· + 1) hlength, planes_cons.mpr ⟨hrep, hplanes⟩,
        ?_, ?_⟩
      · rw [if_neg (lt_irrefl 0), hbuf]
        rfl
      · intro n hn
        obtain ⟨hself, hothers⟩ := List.forall_mem_cons.mp hn
        exact List.forall_mem_cons.mpr ⟨by lia, hkeep n hothers⟩
      · rcases hret with ⟨hzero, hall⟩ | hneg
        · exact .inl ⟨hzero, List.forall_mem_cons.mpr ⟨hsize, hall⟩⟩
        · exact .inr hneg
    · refine ⟨ret, f' :: buf, ?_, rfl, h, fun n hn => hn, .inr hneg⟩
      rw [if_pos hneg]

variable {data : List Bytes}

/-- Each plane takes its samples. -/
theorem writePlanes_spec {size : Nat} (h : Planes buf c)
    (hroom : ∀ i f, buf[i]? = some f → (c i).length + size ≤ f.buffer.length)
    (hplanes : data.length = buf.length) (hdata : ∀ samples ∈ data, size ≤ samples.length) :
    ∃ buf', writePlanes size buf data = some (0, buf') ∧ buf'.length = buf.length ∧
      Planes buf' (fun i => c i ++ (data.getD i []).take size) ∧
      ∀ n : Int, (∀ f ∈ buf, n ≤ f.buffer.length) → ∀ f ∈ buf', n ≤ f.buffer.length := by
  induction buf generalizing c data with
  | nil => exact ⟨[], rfl, rfl, planes_nil, fun n hn => hn⟩
  | cons f buf ih =>
    cases data with
    | nil => cases hplanes
    | cons src data =>
      obtain ⟨hfirst, hrest⟩ := planes_cons.mp h
      obtain ⟨hsrc, hdata⟩ := List.forall_mem_cons.mp hdata
      have hlength : (src.take size).length = size := by
        rw [List.length_take, Nat.min_eq_left hsrc]
      have hspace : (c 0).length + (src.take size).length ≤ f.buffer.length := by
        rw [hlength]
        exact hroom 0 f rfl
      obtain ⟨f', hf, hrep, hbuffer⟩ := hfirst.write hspace
      obtain ⟨buf', hbuf, hlen, hplanes', hkeep⟩ := ih hrest
        (fun i g hg => hroom (i + 1) g hg) (Nat.succ.inj hplanes) hdata
      rw [hlength] at hf
      refine ⟨f' :: buf', ?_, congrArg (· + 1) hlen, planes_cons.mpr ⟨hrep, hplanes'⟩, ?_⟩
      · rw [writePlanes, if_neg (by lia), Int.toNat_natCast, hf, Option.bind_some,
          if_neg (not_not.mpr rfl), hbuf]
        rfl
      · intro n hn
        obtain ⟨hself, hothers⟩ := List.forall_mem_cons.mp hn
        refine List.forall_mem_cons.mpr ⟨?_, hkeep n hothers⟩
        rw [hbuffer]
        exact hself

/-! ## The representation -/

/-- The audio fifo holds the frames `q`. -/
structure Holds (af : AVAudioFifo) (q : List (Frame UInt8)) : Prop where
  /-- what a sample takes in a plane; an interleaved plane has the samples of all channels -/
  width : 0 < af.sampleSize ∧ af.sampleSize = avGetBytesPerSample af.sampleFmt *
    if avSampleFmtIsPlanar af.sampleFmt then 1 else af.channels
  framed : Framed af.buf.length af.sampleSize.toNat q
  planes : Planes af.buf (plane q)
  count : af.nbSamples = q.length
  room : ∀ f ∈ af.buf, af.allocatedSamples * af.sampleSize ≤ f.buffer.length

variable {af : AVAudioFifo} {q : List (Frame UInt8)}

theorem lt_of_getElem? {α : Type} {l : List α} {i : Nat} {a : α} (h : l[i]? = some a) :
    i < l.length :=
  (List.getElem?_eq_some_iff.mp h).1

theorem Holds.toNat_mul (h : Holds af q) (n : Int) :
    (n * af.sampleSize).toNat = n.toNat * af.sampleSize.toNat := by
  have hwidth := h.width.1
  rcases Int.le_total 0 n with hn | hn
  · exact Int.toNat_mul hn (by lia)
  · have hneg : n * af.sampleSize ≤ 0 := Int.mul_nonpos_of_nonpos_of_nonneg hn (by lia)
    rw [Int.toNat_of_nonpos hneg, Int.toNat_of_nonpos hn, Nat.zero_mul]

theorem Holds.length_plane (h : Holds af q) {i : Nat} (hi : i < af.buf.length) :
    (plane q i).length = q.length * af.sampleSize.toNat :=
  h.framed.length_plane hi

theorem Holds.mul_le_length (h : Holds af q) {i n : Nat} (hi : i < af.buf.length)
    (hn : n ≤ q.length) : n * af.sampleSize.toNat ≤ (plane q i).length := by
  rw [h.length_plane hi]
  exact Nat.mul_le_mul_right _ hn

theorem Holds.planes_getElem (h : Holds af q) {i : Nat} (hf : af.buf[i]? = some f) :
    Represents f (plane q i) :=
  h.planes i f hf

variable {nbSamples : Int}

theorem Holds.bufferSize (h : Holds af q) {bufSize : Int}
    (hsize : avSamplesGetBufferSize af.channels nbSamples af.sampleFmt = .ok bufSize) :
    bufSize = nbSamples * af.sampleSize ∧ 0 < nbSamples := by
  unfold avSamplesGetBufferSize at hsize
  dsimp only at hsize
  split_ifs at hsize with hargs hlimit hplanar
  · cases hsize
    rw [h.width.2, if_pos hplanar, Int.mul_one]
    exact ⟨rfl, by lia⟩
  · cases hsize
    rw [h.width.2, if_neg hplanar, Int.mul_assoc]
    exact ⟨rfl, by lia⟩

/-! ## The calls -/

theorem Holds.realloc (h : Holds af q) (memory : Memory) (nbSamples : Int) :
    ∃ ret af', avAudioFifoRealloc memory af nbSamples = some (ret, af') ∧ Holds af' q ∧
      af'.buf.length = af.buf.length ∧ af'.sampleSize = af.sampleSize ∧
      ((ret = 0 ∧ af'.allocatedSamples = nbSamples) ∨ ret < 0) := by
  rw [avAudioFifoRealloc]
  cases hsize : avSamplesGetBufferSize af.channels nbSamples af.sampleFmt with
  | error e =>
    refine ⟨_, af, rfl, h, rfl, rfl, .inr ?_⟩
    cases e <;> decide
  | ok bufSize =>
    obtain ⟨rfl, hpos⟩ := h.bufferSize hsize
    obtain ⟨ret, buf', hbuf, hlength, hplanes, hkeep, hret⟩ :=
      reallocPlanes_spec memory (nbSamples * af.sampleSize).toNat h.planes 0
    simp only [hbuf, Option.map_some]
    have hframed : Framed buf'.length af.sampleSize.toNat q := by
      rw [hlength]
      exact h.framed
    rcases hret with ⟨rfl, hall⟩ | hneg
    · rw [if_neg (lt_irrefl 0)]
      refine ⟨0, _, rfl, ⟨h.width, hframed, hplanes, h.count, ?_⟩, hlength, rfl, .inl ⟨rfl, rfl⟩⟩
      intro f hf
      exact Int.toNat_le.mp (hall f hf)
    · rw [if_pos hneg]
      exact ⟨ret, _, rfl, ⟨h.width, hframed, hplanes, h.count, hkeep _ h.room⟩, hlength, rfl,
        .inr hneg⟩

theorem Holds.makeSpace (h : Holds af q) (memory : Memory) (hnb : 0 ≤ nbSamples) :
    ∃ ret af', makeSpace memory af nbSamples = some (ret, af') ∧ Holds af' q ∧
      af'.buf.length = af.buf.length ∧ af'.sampleSize = af.sampleSize ∧
      ((ret = 0 ∧ q.length + nbSamples ≤ af'.allocatedSamples) ∨ ret < 0) := by
  have hcount := h.count
  unfold AudioFifo.makeSpace avAudioFifoSpace avAudioFifoSize
  dsimp only
  split_ifs with hspace hoverflow
  · exact ⟨_, af, rfl, h, rfl, rfl, .inr (by decide)⟩
  · obtain ⟨ret, af', heq, hholds, hlength, hwidth, hret⟩ :=
      h.realloc memory (2 * (af.nbSamples + nbSamples))
    refine ⟨ret, af', heq, hholds, hlength, hwidth, ?_⟩
    rcases hret with ⟨hzero, hallocated⟩ | hneg
    · exact .inl ⟨hzero, by lia⟩
    · exact .inr hneg
  · exact ⟨0, af, rfl, h, rfl, rfl, .inl ⟨rfl, by lia⟩⟩

theorem Holds.write (h : Holds af q) (memory : Memory)
    (hpermits : Permits af (.write memory data nbSamples)) :
    ∃ out af' q', avAudioFifoWrite memory af data nbSamples = some (out, af') ∧ Holds af' q' ∧
      af'.buf.length = af.buf.length ∧ af'.sampleSize = af.sampleSize ∧
      QueueStep af.buf.length af.sampleSize.toNat q (.write memory data nbSamples) out q' := by
  obtain ⟨hnb, hplanes, hdata⟩ := hpermits
  obtain ⟨ret, af', heq, hholds, hlength, hwidth, hret⟩ := h.makeSpace memory hnb
  rw [avAudioFifoWrite, heq, Option.bind_some]
  rcases hret with ⟨rfl, hspace⟩ | hneg
  · rw [if_neg (lt_irrefl 0)]
    rw [← hlength] at hplanes
    rw [← hwidth] at hdata
    have hpos := hholds.width.1
    have hroom : ∀ i f, af'.buf[i]? = some f →
        (plane q i).length + (nbSamples * af'.sampleSize).toNat ≤ f.buffer.length := by
      intro i f hf
      have hallocated := hholds.room f (List.mem_of_getElem? hf)
      have hmul : (q.length + nbSamples) * af'.sampleSize ≤ af'.allocatedSamples * af'.sampleSize :=
        Int.mul_le_mul_of_nonneg_right hspace (by lia)
      have hsplit : ((q.length : Int) + nbSamples) * af'.sampleSize =
          q.length * af'.sampleSize + nbSamples * af'.sampleSize := Int.add_mul _ _ _
      have hnonneg : 0 ≤ nbSamples * af'.sampleSize := Int.mul_nonneg hnb (by lia)
      have hself : ((q.length * af'.sampleSize.toNat : Nat) : Int) = q.length * af'.sampleSize := by
        rw [Nat.cast_mul, Int.toNat_of_nonneg (by lia)]
      rw [hholds.length_plane (lt_of_getElem? hf)]
      lia
    have hshort : ∀ samples ∈ data, (nbSamples * af'.sampleSize).toNat ≤ samples.length :=
      fun samples hsamples => Int.toNat_le.mpr (hdata samples hsamples)
    obtain ⟨buf', hbuf, hlen, hnew, hkeep⟩ :=
      writePlanes_spec hholds.planes hroom hplanes hshort
    rw [Int.toNat_of_nonneg (Int.mul_nonneg hnb (by lia))] at hbuf
    rw [hbuf, Option.map_some]
    refine ⟨_, _, q ++ framesOf af.sampleSize.toNat nbSamples.toNat data, rfl, ?_,
      hlen.trans hlength, hwidth, .write memory data nbSamples⟩
    rw [← hwidth]
    rw [hholds.toNat_mul] at hnew hshort
    have hframed : Framed data.length af'.sampleSize.toNat
        (framesOf af'.sampleSize.toNat nbSamples.toNat data) := framed_framesOf hshort
    refine ⟨hholds.width, ?_, ?_, ?_, hkeep _ hholds.room⟩
    · show Framed buf'.length _ _
      rw [hlen]
      rw [hplanes] at hframed
      exact hholds.framed.append hframed
    · intro i f hf
      have hi : i < data.length := by
        rw [hplanes, ← hlen]
        exact lt_of_getElem? hf
      rw [plane_append, plane_framesOf hi]
      exact hnew i f hf
    · show af'.nbSamples + nbSamples = _
      rw [hholds.count, List.length_append, length_framesOf, Nat.cast_add, Int.toNat_of_nonneg hnb]
  · rw [if_pos hneg]
    exact ⟨_, af', q, rfl, hholds, hlength, hwidth, .writeFails memory data nbSamples hneg⟩

theorem take_drop_min (q : List (Frame UInt8)) {n : Int} (hn : 0 ≤ n) :
    q.take (min n q.length).toNat = q.take n.toNat ∧
      q.drop (min n q.length).toNat = q.drop n.toNat := by
  rcases Int.le_total n q.length with hle | hle
  · rw [Int.min_eq_left hle]
    exact ⟨rfl, rfl⟩
  · have hlength : q.length ≤ n.toNat := by lia
    rw [Int.min_eq_right hle, Int.toNat_natCast, List.take_length, List.drop_length,
      List.take_of_length_le hlength, List.drop_eq_nil_of_le hlength]
    exact ⟨rfl, rfl⟩

theorem shows_nil (planes : Nat) : Shows planes [] [] :=
  fun _ _ => rfl

theorem Holds.peek (h : Holds af q) (nbSamples : Int) :
    ∃ out, avAudioFifoPeek af nbSamples = some (out, af) ∧
      QueueStep af.buf.length af.sampleSize.toNat q (.peek nbSamples) out q := by
  unfold avAudioFifoPeek
  dsimp only
  rw [h.count]
  split_ifs with hneg hzero
  · exact ⟨_, rfl, .peekFails hneg⟩
  · obtain ⟨htake, _⟩ := take_drop_min q (Int.not_lt.mp hneg)
    rw [hzero] at htake
    refine ⟨.code 0, rfl, ?_⟩
    rw [← hzero]
    refine .peek (Int.not_lt.mp hneg) ?_
    rw [← htake]
    exact shows_nil _
  · obtain ⟨htake, _⟩ := take_drop_min q (Int.not_lt.mp hneg)
    obtain ⟨data, hdata, hlength, hall⟩ := mapM_planes (l := af.buf)
      (f := fun f => avFifoGenericPeek f (min nbSamples q.length * af.sampleSize).toNat)
      (P := fun i _ b => b = plane (q.take nbSamples.toNat) i) (by
        intro i f hf
        have hi := lt_of_getElem? hf
        have hle := h.mul_le_length (n := (min nbSamples q.length).toNat) hi (by lia)
        rw [h.toNat_mul, (h.planes_getElem hf).peek hle, h.framed.take_plane hi, htake]
        exact ⟨_, rfl, rfl⟩)
    rw [hdata, Option.map_some]
    refine ⟨_, rfl, .peek (Int.not_lt.mp hneg) ?_⟩
    intro i hi
    have hi' : i < data.length := by rw [hlength]; exact hi
    obtain ⟨_, _, hshown⟩ := hall i data[i] (List.getElem?_eq_getElem hi')
    rw [List.getD_eq_getElem data [] hi']
    exact hshown

theorem Holds.peekAt (h : Holds af q) (nbSamples offset : Int) :
    ∃ out, avAudioFifoPeekAt af nbSamples offset = some (out, af) ∧
      QueueStep af.buf.length af.sampleSize.toNat q (.peekAt nbSamples offset) out q := by
  unfold avAudioFifoPeekAt
  dsimp only
  rw [h.count]
  split_ifs with hrange hneg hzero hbehind
  · exact ⟨_, rfl, .peekAtFails (.inr (hrange.imp_right .inl))⟩
  · exact ⟨_, rfl, .peekAtFails (.inl hneg)⟩
  · refine ⟨.code 0, rfl, ?_⟩
    rw [← hzero]
    refine .peekAt (by lia) (by lia) (by lia) (by lia) ?_
    rw [hzero]
    exact shows_nil _
  · exact ⟨_, rfl, .peekAtFails (.inr (.inr (.inr (by lia))))⟩
  · obtain ⟨data, hdata, hlength, hall⟩ := mapM_planes (l := af.buf)
      (f := fun f => avFifoGenericPeekAt f (offset * af.sampleSize).toNat
        (min nbSamples q.length * af.sampleSize).toNat)
      (P := fun i _ b =>
        b = plane (slice q offset.toNat (min nbSamples q.length).toNat) i) (by
        intro i f hf
        have hi := lt_of_getElem? hf
        have hle := h.mul_le_length (n := offset.toNat + (min nbSamples q.length).toNat) hi
          (by lia)
        rw [Nat.add_mul] at hle
        rw [h.toNat_mul, h.toNat_mul, (h.planes_getElem hf).peekAt hle, h.framed.slice_plane hi]
        exact ⟨_, rfl, rfl⟩)
    rw [hdata, Option.map_some]
    refine ⟨_, rfl, .peekAt (by lia) (by lia) (by lia) (by lia) ?_⟩
    intro i hi
    have hi' : i < data.length := by rw [hlength]; exact hi
    obtain ⟨_, _, hshown⟩ := hall i data[i] (List.getElem?_eq_getElem hi')
    rw [List.getD_eq_getElem data [] hi']
    exact hshown

/-- The frames behind the first ones. -/
theorem Holds.dropped (h : Holds af q) {n : Int} (hn : 0 ≤ n) {buf : List AVFifoBuffer}
    (hlength : buf.length = af.buf.length)
    (hplanes : ∀ i f, buf[i]? = some f → ∃ old, af.buf[i]? = some old ∧ f.buffer = old.buffer ∧
      Represents f ((plane q i).drop ((min n q.length).toNat * af.sampleSize.toNat))) :
    Holds { af with buf := buf, nbSamples := q.length - min n q.length }
      (q.drop n.toNat) where
  width := h.width
  framed := by
    show Framed buf.length _ _
    rw [hlength]
    exact h.framed.sublist (List.drop_sublist _ q)
  planes := by
    intro i f hf
    obtain ⟨old, hold, _, hrep⟩ := hplanes i f hf
    rw [h.framed.drop_plane (lt_of_getElem? hold), (take_drop_min q hn).2] at hrep
    exact hrep
  count := by
    show (q.length : Int) - min n q.length = _
    rw [List.length_drop]
    lia
  room := by
    intro f hf
    obtain ⟨i, hi⟩ := List.mem_iff_getElem?.mp hf
    obtain ⟨old, hold, hbuffer, _⟩ := hplanes i f hi
    rw [hbuffer]
    exact h.room old (List.mem_of_getElem? hold)

theorem Holds.read (h : Holds af q) (nbSamples : Int) :
    ∃ out af' q', avAudioFifoRead af nbSamples = some (out, af') ∧ Holds af' q' ∧
      af'.buf.length = af.buf.length ∧ af'.sampleSize = af.sampleSize ∧
      QueueStep af.buf.length af.sampleSize.toNat q (.read nbSamples) out q' := by
  unfold avAudioFifoRead
  dsimp only
  rw [h.count]
  split_ifs with hneg hzero
  · exact ⟨_, af, q, rfl, h, rfl, rfl, .readFails hneg⟩
  · obtain ⟨htake, hdrop⟩ := take_drop_min q (Int.not_lt.mp hneg)
    rw [hzero] at htake hdrop
    refine ⟨.code 0, af, q.drop nbSamples.toNat, rfl, ?_, rfl, rfl, ?_⟩
    · rw [← hdrop]
      exact h
    · rw [← hzero]
      refine .read (Int.not_lt.mp hneg) ?_
      rw [← htake]
      exact shows_nil _
  · have hnb := Int.not_lt.mp hneg
    obtain ⟨htake, _⟩ := take_drop_min q hnb
    obtain ⟨r, hr, hlength, hall⟩ := mapM_planes (l := af.buf)
      (f := fun f => avFifoGenericRead f (min nbSamples q.length * af.sampleSize).toNat)
      (P := fun i f b => b.1 = plane (q.take nbSamples.toNat) i ∧ b.2.buffer = f.buffer ∧
        Represents b.2
          ((plane q i).drop ((min nbSamples q.length).toNat * af.sampleSize.toNat))) (by
        intro i f hf
        have hi := lt_of_getElem? hf
        have hle := h.mul_le_length (n := (min nbSamples q.length).toNat) hi (by lia)
        obtain ⟨f', hf', hrep, hbuffer⟩ := (h.planes_getElem hf).read hle
        rw [h.toNat_mul, hf', h.framed.take_plane hi, htake]
        exact ⟨_, rfl, rfl, hbuffer, hrep⟩)
    rw [hr, Option.map_some]
    refine ⟨_, _, q.drop nbSamples.toNat, rfl, h.dropped hnb ?_ ?_, ?_, rfl, .read hnb ?_⟩
    · rw [List.length_map, hlength]
    · intro i f hf
      rw [List.getElem?_map] at hf
      obtain ⟨b, hb, rfl⟩ := Option.map_eq_some_iff.mp hf
      obtain ⟨old, hold, _, hbuffer, hrep⟩ := hall i b hb
      exact ⟨old, hold, hbuffer, hrep⟩
    · show (r.map _).length = _
      rw [List.length_map, hlength]
    · intro i hi
      have hi' : i < r.length := by rw [hlength]; exact hi
      obtain ⟨_, _, hshown, _⟩ := hall i r[i] (List.getElem?_eq_getElem hi')
      rw [List.getD_eq_getElem _ [] (by rw [List.length_map]; exact hi'), List.getElem_map]
      exact hshown

theorem Holds.drain (h : Holds af q) (nbSamples : Int) :
    ∃ out af' q', avAudioFifoDrain af nbSamples = (out, af') ∧ Holds af' q' ∧
      af'.buf.length = af.buf.length ∧ af'.sampleSize = af.sampleSize ∧
      QueueStep af.buf.length af.sampleSize.toNat q (.drain nbSamples) out q' := by
  unfold avAudioFifoDrain
  dsimp only
  rw [h.count]
  split_ifs with hneg hzero
  · exact ⟨_, af, q, rfl, h, rfl, rfl, .drainFails hneg⟩
  · have hnb := Int.not_lt.mp hneg
    refine ⟨_, _, q.drop nbSamples.toNat, rfl, h.dropped hnb (List.length_map _) ?_,
      List.length_map _, rfl, .drain hnb⟩
    intro i f hf
    rw [List.getElem?_map] at hf
    obtain ⟨old, hold, rfl⟩ := Option.map_eq_some_iff.mp hf
    have hle := h.mul_le_length (n := (min nbSamples q.length).toNat) (lt_of_getElem? hold)
      (by lia)
    refine ⟨old, hold, rfl, ?_⟩
    rw [h.toNat_mul]
    exact (h.planes_getElem hold).drain hle
  · obtain ⟨_, hdrop⟩ := take_drop_min q (Int.not_lt.mp hneg)
    rw [not_not.mp hzero] at hdrop
    refine ⟨.code 0, af, q.drop nbSamples.toNat, rfl, ?_, rfl, rfl, .drain (Int.not_lt.mp hneg)⟩
    rw [← hdrop]
    exact h

theorem Holds.reset (h : Holds af q) : Holds (avAudioFifoReset af) [] where
  width := h.width
  framed := framed_nil
  planes := by
    intro i f hf
    rw [avAudioFifoReset, List.getElem?_map] at hf
    obtain ⟨old, hold, rfl⟩ := Option.map_eq_some_iff.mp hf
    exact represents_fifoAllocCommon (h.planes_getElem hold).small
  count := rfl
  room := by
    intro f hf
    obtain ⟨old, hold, rfl⟩ := List.mem_map.mp hf
    exact h.room old hold

/-! ## Runs -/

theorem Holds.call (h : Holds af q) {c : Call} (hpermits : Permits af c) :
    ∃ out af' q', call af c = some (out, af') ∧ Holds af' q' ∧
      af'.buf.length = af.buf.length ∧ af'.sampleSize = af.sampleSize ∧
      QueueStep af.buf.length af.sampleSize.toNat q c out q' := by
  cases c with
  | write memory data nbSamples => exact h.write memory hpermits
  | read nbSamples => exact h.read nbSamples
  | peek nbSamples =>
    obtain ⟨out, heq, hstep⟩ := h.peek nbSamples
    exact ⟨out, af, q, heq, h, rfl, rfl, hstep⟩
  | peekAt nbSamples offset =>
    obtain ⟨out, heq, hstep⟩ := h.peekAt nbSamples offset
    exact ⟨out, af, q, heq, h, rfl, rfl, hstep⟩
  | drain nbSamples =>
    obtain ⟨out, af', q', heq, hrest⟩ := h.drain nbSamples
    exact ⟨out, af', q', congrArg some heq, hrest⟩
  | reset => exact ⟨_, _, [], rfl, h.reset, List.length_map _, rfl, .reset⟩
  | realloc memory nbSamples =>
    obtain ⟨ret, af', heq, hholds, hlength, hwidth, hret⟩ := h.realloc memory nbSamples
    refine ⟨_, af', q, by rw [AudioFifo.call, heq, Option.map_some], hholds, hlength, hwidth, ?_⟩
    rcases hret with ⟨rfl, _⟩ | hneg
    · exact .realloc memory nbSamples
    · exact .reallocFails memory nbSamples hneg

theorem CallRun.refines {af' : AVAudioFifo} {calls : List Call} {outs : List Output}
    (h : Holds af q) (hrun : CallRun af calls outs af') :
    ∃ q', Holds af' q' ∧ af'.buf.length = af.buf.length ∧ af'.sampleSize = af.sampleSize ∧
      QueueRun af.buf.length af.sampleSize.toNat q calls outs q' := by
  induction hrun generalizing q with
  | nil af => exact ⟨q, h, rfl, rfl, .nil q⟩
  | cons hcall hstep hrun ih =>
    obtain ⟨out, af₁, q₁, heq, hholds, hlength, hwidth, hqueue⟩ := h.call hcall
    cases hstep.symm.trans heq
    obtain ⟨q', hholds', hlength', hwidth', hrest⟩ := ih hholds
    rw [hlength, hwidth] at hrest
    exact ⟨q', hholds', hlength'.trans hlength, hwidth'.trans hwidth, .cons hqueue hrest⟩

theorem of_mem_mapM {α β : Type} {f : α → Option β} {l : List α} {r : List β}
    (h : l.mapM f = some r) {b : β} (hb : b ∈ r) : ∃ a, f a = some b := by
  induction l generalizing r with
  | nil =>
    cases h
    cases hb
  | cons a l ih =>
    rw [List.mapM_cons] at h
    obtain ⟨b', hfirst, h⟩ := Option.bind_eq_some_iff.mp h
    obtain ⟨rest, hrest, h⟩ := Option.bind_eq_some_iff.mp h
    cases h
    rcases List.mem_cons.mp hb with rfl | hb
    · exact ⟨a, hfirst⟩
    · exact ih hrest hb

theorem avGetBytesPerSample_nonneg (sampleFmt : AVSampleFormat) :
    0 ≤ avGetBytesPerSample sampleFmt :=
  Int.natCast_nonneg _

/-- A new audio fifo is empty. -/
theorem holds_avAudioFifoAlloc {memory : Memory} {sampleFmt : AVSampleFormat} {channels : Int}
    (h : avAudioFifoAlloc memory sampleFmt channels nbSamples = some af) :
    Holds af [] := by
  unfold avAudioFifoAlloc at h
  cases hsize : avSamplesGetBufferSize channels nbSamples sampleFmt with
  | error e =>
    rw [hsize] at h
    cases h
  | ok bufSize =>
    rw [hsize] at h
    dsimp only at h
    have hstructs : memory.structs = true := by
      by_contra hno
      rw [if_neg hno] at h
      cases h
    rw [if_pos hstructs] at h
    obtain ⟨buf, hbuf, rfl⟩ := Option.map_eq_some_iff.mp h
    have hbytes := avGetBytesPerSample_nonneg sampleFmt
    -- the line size is a number of samples, so that the division is exact
    obtain ⟨width, hwidth, hpos, hline⟩ : ∃ width, 0 < width ∧ 0 < nbSamples ∧
        width = avGetBytesPerSample sampleFmt *
          (if avSampleFmtIsPlanar sampleFmt then 1 else channels) ∧
        bufSize = nbSamples * width := by
      unfold avSamplesGetBufferSize at hsize
      dsimp only at hsize
      split_ifs at hsize with hargs hlimit hplanar
      · cases hsize
        rw [if_pos hplanar]
        exact ⟨_, by lia, by lia, rfl, by ring⟩
      · cases hsize
        rw [if_neg hplanar]
        exact ⟨_, Int.mul_pos (by lia) (by lia), by lia, rfl, by ring⟩
    obtain ⟨hwidth', rfl⟩ := hline
    rw [Int.mul_ediv_cancel_left _ (by lia)]
    have hfifo : ∀ f ∈ buf, Represents f [] ∧ nbSamples * width ≤ f.buffer.length := by
      intro f hf
      obtain ⟨i, hi⟩ := of_mem_mapM hbuf hf
      obtain ⟨block, hblock, rfl⟩ := Option.map_eq_some_iff.mp hi
      obtain ⟨hlength, hsmall⟩ := length_of_avMalloc hblock
      refine ⟨represents_fifoAllocCommon (by lia), ?_⟩
      show nbSamples * width ≤ block.length
      lia
    exact ⟨⟨hwidth, hwidth'⟩, framed_nil, fun i f hf => (hfifo f (List.mem_of_getElem? hf)).1,
      rfl, fun f hf => (hfifo f hf).2⟩

/-- From allocation on, whatever is called with whatever failures, the calls are those of one
queue of frames that starts empty, each plane holds the bytes of as many samples as the
audio fifo counts, and the next call ends, leaving the queue alone if it fails. -/
theorem callRun_refines_queue {memory : Memory} {sampleFmt : AVSampleFormat}
    {channels nbSamples : Int} {af af' : AVAudioFifo} {calls : List Call} {outs : List Output}
    (halloc : avAudioFifoAlloc memory sampleFmt channels nbSamples = some af)
    (hrun : CallRun af calls outs af') :
    ∃ q : List (Frame UInt8), QueueRun af.buf.length af.sampleSize.toNat [] calls outs q ∧
      af'.nbSamples = q.length ∧
      (∀ f ∈ af'.buf, avFifoSize f = af'.nbSamples * af'.sampleSize) ∧
      ∀ c, Permits af' c → ∃ out af'' q', call af' c = some (out, af'') ∧
        QueueStep af.buf.length af.sampleSize.toNat q c out q' ∧
        (out.ret < 0 → q' = q) := by
  obtain ⟨q, hholds, hlength, hwidth, hqueue⟩ := hrun.refines (holds_avAudioFifoAlloc halloc)
  refine ⟨q, hqueue, hholds.count, ?_, ?_⟩
  · intro f hf
    obtain ⟨i, hi⟩ := List.mem_iff_getElem?.mp hf
    have hpos := hholds.width.1
    rw [(hholds.planes_getElem hi).avFifoSize_eq, hholds.length_plane (lt_of_getElem? hi),
      hholds.count, Nat.cast_mul, Int.toNat_of_nonneg (by lia)]
  · intro c hpermits
    obtain ⟨out, af'', q', heq, _, _, _, hstep⟩ := hholds.call hpermits
    rw [hlength, hwidth] at hstep
    refine ⟨out, af'', q', heq, hstep, fun hret => hstep.unchanged hret ?_⟩
    rintro memory data nbSamples rfl
    exact hpermits.1

/-- Memory for everything. -/
def plenty : Memory where
  structs := true
  planes := fun _ => zeroMalloc

/-- Two samples on two planes, of which one is read after the fifo has been told to be
smaller. -/
theorem callRun_refines_queue_stereo :
    ∃ q : List (Frame UInt8), QueueRun 2 2 []
      [.write plenty [[1, 2, 3, 4], [5, 6, 7, 8]] 2, .realloc plenty 1, .read 1]
      [.code 2, .code 0, ⟨1, [[1, 2], [5, 6]]⟩] q ∧ q.length = 1 := by
  have halloc : avAudioFifoAlloc plenty .s16p 2 2 =
      some ⟨[⟨[0, 0, 0, 0], 0, 0, 0, 0⟩, ⟨[0, 0, 0, 0], 0, 0, 0, 0⟩], 0, 2, 2, .s16p, 2⟩ := rfl
  have hpermits : Permits
      ⟨[⟨[0, 0, 0, 0], 0, 0, 0, 0⟩, ⟨[0, 0, 0, 0], 0, 0, 0, 0⟩], 0, 2, 2, .s16p, 2⟩
      (.write plenty [[1, 2, 3, 4], [5, 6, 7, 8]] 2) := by
    refine ⟨by decide, rfl, ?_⟩
    decide
  have hwrite : call
      ⟨[⟨[0, 0, 0, 0], 0, 0, 0, 0⟩, ⟨[0, 0, 0, 0], 0, 0, 0, 0⟩], 0, 2, 2, .s16p, 2⟩
      (.write plenty [[1, 2, 3, 4], [5, 6, 7, 8]] 2) = some (.code 2,
        ⟨[⟨[1, 2, 3, 4], 0, 0, 0, 4⟩, ⟨[5, 6, 7, 8], 0, 0, 0, 4⟩], 2, 2, 2, .s16p, 2⟩) := rfl
  have hrealloc : call
      ⟨[⟨[1, 2, 3, 4], 0, 0, 0, 4⟩, ⟨[5, 6, 7, 8], 0, 0, 0, 4⟩], 2, 2, 2, .s16p, 2⟩
      (.realloc plenty 1) = some (.code 0,
        ⟨[⟨[1, 2, 3, 4], 0, 0, 0, 4⟩, ⟨[5, 6, 7, 8], 0, 0, 0, 4⟩], 2, 1, 2, .s16p, 2⟩) := rfl
  have hread : call
      ⟨[⟨[1, 2, 3, 4], 0, 0, 0, 4⟩, ⟨[5, 6, 7, 8], 0, 0, 0, 4⟩], 2, 1, 2, .s16p, 2⟩
      (.read 1) = some (⟨1, [[1, 2], [5, 6]]⟩,
        ⟨[⟨[1, 2, 3, 4], 2, 0, 2, 4⟩, ⟨[5, 6, 7, 8], 2, 0, 2, 4⟩], 1, 1, 2, .s16p, 2⟩) := rfl
  have hrun := CallRun.cons (show Permits _ (.realloc plenty 1) from trivial) hrealloc
    (.cons (show Permits _ (.read 1) from trivial) hread (.nil _))
  obtain ⟨q, hqueue, hcount, _⟩ := callRun_refines_queue halloc (.cons hpermits hwrite hrun)
  exact ⟨q, hqueue, Int.ofNat.inj hcount.symm⟩

end FFmpeg.Libavutil.AudioFifo
