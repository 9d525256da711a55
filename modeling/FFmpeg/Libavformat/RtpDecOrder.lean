import Mathlib.Tactic
import FFmpeg.Libavformat.RtpDec
import FFmpeg.Libavformat.SrtpRoundTrip

/-!
# The order of received packets

In a run whose sequence numbers lie in a window of half the number space, a
packet is handed on either again or not behind the last accepted one, and every
queued buffer is freed once.
-/

namespace FFmpeg.Libavformat.Rtp

open Common Libavutil Srtp

/-! ## What is claimed of a run -/

/-- The number of the last accepted packet. -/
def lastAccepted (handed : List Handed) : Option Nat :=
  (handed.filter Handed.accepted).getLast?.map Handed.seq

/-- The buffers handed over from the queue. -/
def dequeued (handed : List Handed) : List Bytes :=
  (handed.filter Handed.queued).map Handed.buf

/-- The numbers handed over never decrease in serial order. -/
def NeverDecreases (handed : List Handed) : Prop :=
  handed.IsChain fun a b => 0 ≤ serialDiff 32768 b.seq a.seq

/-- A packet repeats a number handed over before, or it is not behind the last accepted
packet. -/
def NeverBehind (handed : List Handed) : Prop :=
  ∀ before h after, handed = before ++ h :: after →
    (∃ e ∈ before, e.seq = h.seq) ∨ ∀ last ∈ lastAccepted before, 0 ≤ serialDiff 32768 h.seq last

/-- Every queued buffer has been handed over and freed, or it waits and is freed with the
queue. -/
def FreedOnce {ω : Type} (s : RTPDemuxContext ω) : Prop :=
  s.freed = dequeued s.handed ∧ (ffRtpResetPacketQueue s).freed.Perm s.enqueued

/-- The header of an RTP packet of a payload type. -/
def ValidHeader (payloadType : Nat) (buf : Bytes) : Prop :=
  12 ≤ buf.length ∧ buf.getD 0 0 &&& 0xc0 = 0x80 ∧ rtpPtIsRtcp (buf.getD 1 0) = false ∧
    (buf.getD 1 0 &&& 0x7f).toNat = payloadType

/-- The true number of the packet lies in the window that starts at `first`, and its 16
bits are not all zero. -/
def TrueSeqInWindow (first : Nat) (buf : Bytes) : Prop :=
  ∃ n, first ≤ n ∧ n < first + 32768 ∧ rtpSeq buf = n % rtpSeqMod ∧ rtpSeq buf ≠ 0

/-- A condition on the buffer of a call. -/
def Call.Buffer (P : Bytes → Prop) : Call → Prop
  | .packet buf _ => P buf
  | .next => True

/-! ## Sequence numbers in a window -/

/-- The distance of a sequence number from the first one. -/
abbrev seqOffset (first seq : Nat) : Nat :=
  serialOffset 32768 first seq

/-- A sequence number of the window. -/
def InWindow (first seq : Nat) : Prop :=
  seq ≠ 0 ∧ seq < rtpSeqMod ∧ seqOffset first seq < 32768

variable {first : Nat}

variable {buf : Bytes}

theorem inWindow_of_trueSeqInWindow (h : TrueSeqInWindow first buf) :
    InWindow first (rtpSeq buf) := by
  obtain ⟨n, hfirst, hn, hseq, hne⟩ := h
  have hoffset : seqOffset first (n % rtpSeqMod) = n - first :=
    serialOffset_mod hfirst (by lia)
  refine ⟨hne, ?_, ?_⟩
  · rw [hseq]
    exact Nat.mod_lt n (by decide)
  · rw [hseq, hoffset]
    lia

theorem serialDiff_of_inWindow {a b : Nat} (ha : InWindow first a) (hb : InWindow first b) :
    serialDiff 32768 a b = (seqOffset first a : Int) - seqOffset first b :=
  serialDiff_eq (by decide) ha.2.2 hb.2.2

theorem InWindow.inj {a b : Nat} (ha : InWindow first a) (hb : InWindow first b)
    (h : seqOffset first a = seqOffset first b) : a = b :=
  serialOffset_inj (by decide) ha.2.1 hb.2.1 h

/-! ## Logs -/

theorem lastAccepted_append (handed : List Handed) (h : Handed) :
    lastAccepted (handed ++ [h]) = if h.accepted then some h.seq else lastAccepted handed := by
  unfold lastAccepted
  by_cases ha : h.accepted = true
  · simp [ha, List.filter_append]
  · simp [ha, List.filter_append]

theorem neverBehind_append {handed : List Handed} {h : Handed} (hs : NeverBehind handed)
    (hh : (∃ e ∈ handed, e.seq = h.seq) ∨
      ∀ last ∈ lastAccepted handed, 0 ≤ serialDiff 32768 h.seq last) :
    NeverBehind (handed ++ [h]) := by
  intro before h' after heq
  rcases List.eq_nil_or_concat after with rfl | ⟨init, last, rfl⟩
  · obtain ⟨hbefore, heq⟩ := List.append_inj' heq rfl
    obtain rfl := List.singleton_inj.mp heq
    rwa [← hbefore]
  · rw [List.concat_eq_append, ← List.cons_append, ← List.append_assoc] at heq
    exact hs before h' init (List.append_inj' heq rfl).1

/-! ## One packet -/

variable {ω : Type} (d : Depacketizer ω)

theorem rtpDepacketize_cases (s : RTPDemuxContext ω) (buf : Bytes) :
    ∃ depacketizer, (rtpDepacketize d s buf).2 = { s with depacketizer := depacketizer } := by
  unfold rtpDepacketize
  cases rtpPayload buf with
  | error rv => exact ⟨s.depacketizer, rfl⟩
  | ok payload =>
    dsimp only
    cases d.parsePacket with
    | some parsePacket => exact ⟨_, rfl⟩
    | none =>
      dsimp only
      split_ifs
      · exact ⟨_, rfl⟩
      · exact ⟨s.depacketizer, rfl⟩

theorem rtpParsePacketInternal_cases (s : RTPDemuxContext ω) (queued : Bool) (buf : Bytes) :
    ∃ accepted statistics depacketizer, (rtpParsePacketInternal d s queued buf).2 =
      { s with
        ssrc := rb 4 buf 8
        statistics := statistics
        seq := if accepted then rtpSeq buf else s.seq
        depacketizer := depacketizer
        handed := s.handed ++ [⟨rtpSeq buf, buf, queued, accepted⟩] } := by
  unfold rtpParsePacketInternal
  dsimp only
  split_ifs with htype hvalid
  · exact ⟨false, s.statistics, s.depacketizer, rfl⟩
  · obtain ⟨depacketizer, hd⟩ := rtpDepacketize_cases d
      (hand { s with
        statistics := (rtpValidPacketInSequence s.statistics (rtpSeq buf)).2
        seq := rtpSeq buf } buf queued true) buf
    exact ⟨true, _, depacketizer, hd⟩
  · exact ⟨false, _, s.depacketizer, rfl⟩

/-! ## The queue -/

theorem insertPacket_perm (packet : RTPPacket) (queue : List RTPPacket) :
    (insertPacket packet queue).Perm (packet :: queue) := by
  induction queue with
  | nil => exact List.Perm.refl _
  | cons cur next ih =>
    rw [insertPacket]
    split_ifs
    · exact List.Perm.refl _
    · exact (ih.cons cur).trans (List.Perm.swap packet cur next)

/-- The queue is sorted by the distance from the first number. -/
def SortedQueue (first : Nat) (queue : List RTPPacket) : Prop :=
  queue.Pairwise fun p q => seqOffset first p.seq ≤ seqOffset first q.seq

theorem insertPacket_sorted {packet : RTPPacket} {queue : List RTPPacket}
    (hpacket : InWindow first packet.seq) (hqueue : ∀ p ∈ queue, InWindow first p.seq)
    (hs : SortedQueue first queue) : SortedQueue first (insertPacket packet queue) := by
  induction queue with
  | nil => exact List.pairwise_singleton _ _
  | cons cur next ih =>
    obtain ⟨hcur, hnext⟩ := List.pairwise_cons.mp hs
    have hdiff := serialDiff_of_inWindow hpacket (hqueue cur List.mem_cons_self)
    rw [insertPacket]
    split_ifs with hbefore
    · refine List.pairwise_cons.mpr ⟨?_, hs⟩
      intro p hp
      rcases List.mem_cons.mp hp with rfl | hp
      · lia
      · exact le_trans (by lia) (hcur p hp)
    · refine List.pairwise_cons.mpr ⟨?_, ih (fun p hp => hqueue p (List.mem_cons_of_mem _ hp)) hnext⟩
      intro p hp
      rcases List.mem_cons.mp ((insertPacket_perm packet next).mem_iff.mp hp) with rfl | hp
      · lia
      · exact hcur p hp

/-! ## The invariant -/

/-- What every call keeps. -/
structure Ordered (first : Nat) (s : RTPDemuxContext ω) : Prop where
  size : 1 < s.queueSize
  seq_eq : s.seq = (lastAccepted s.handed).getD 0
  accepted : ∀ last ∈ lastAccepted s.handed, InWindow first last
  started : s.queue ≠ [] → s.seq ≠ 0
  window : ∀ p ∈ s.queue, p.seq = rtpSeq p.buf ∧ InWindow first p.seq
  sorted : SortedQueue first s.queue
  ahead : ∀ p ∈ s.queue,
    (∃ h ∈ s.handed, h.seq = p.seq) ∨ seqOffset first s.seq < seqOffset first p.seq
  order : NeverBehind s.handed
  freed : s.freed = dequeued s.handed
  owned : (s.freed ++ s.queue.map RTPPacket.buf).Perm s.enqueued

variable {s : RTPDemuxContext ω}

theorem Ordered.congr {t : RTPDemuxContext ω} (h : Ordered first s)
    (hsize : t.queueSize = s.queueSize) (hseq : t.seq = s.seq) (hqueue : t.queue = s.queue)
    (hhanded : t.handed = s.handed) (henqueued : t.enqueued = s.enqueued)
    (hfreed : t.freed = s.freed) : Ordered first t := by
  constructor
  · rw [hsize]
    exact h.size
  · rw [hseq, hhanded]
    exact h.seq_eq
  · rw [hhanded]
    exact h.accepted
  · rw [hqueue, hseq]
    exact h.started
  · rw [hqueue]
    exact h.window
  · rw [hqueue]
    exact h.sorted
  · rw [hqueue, hhanded, hseq]
    exact h.ahead
  · rw [hhanded]
    exact h.order
  · rw [hfreed, hhanded]
    exact h.freed
  · rw [hfreed, hqueue, henqueued]
    exact h.owned

theorem Ordered.lastAccepted_eq (h : Ordered first s) {last : Nat}
    (hlast : last ∈ lastAccepted s.handed) : last = s.seq := by
  have hseq := h.seq_eq
  rw [Option.mem_def.mp hlast] at hseq
  exact hseq.symm

theorem Ordered.seq_inWindow (h : Ordered first s) (hne : s.seq ≠ 0) : InWindow first s.seq := by
  cases hlast : lastAccepted s.handed with
  | none =>
    have hseq := h.seq_eq
    rw [hlast] at hseq
    exact absurd hseq hne
  | some last => exact h.lastAccepted_eq hlast ▸ h.accepted last hlast

/-- Handing a packet over keeps the invariant when the packet is not behind the last
accepted one or repeats a number, and no waiting packet is behind it unless it repeats one
too.  The queue is the old one, or loses the packet that is handed over. -/
theorem Ordered.hand {t : RTPDemuxContext ω} (h : Ordered first s) (queued accepted : Bool)
    (hbuf : InWindow first (rtpSeq buf))
    (hbehind : (∃ e ∈ s.handed, e.seq = rtpSeq buf) ∨ ∀ last ∈ lastAccepted s.handed, 0 ≤ serialDiff 32768 (rtpSeq buf) last)
    (hahead : ∀ p ∈ t.queue, (∃ e ∈ s.handed, e.seq = p.seq) ∨ seqOffset first (rtpSeq buf) ≤ seqOffset first p.seq)
    (hsize : t.queueSize = s.queueSize) (hseq : t.seq = if accepted then rtpSeq buf else s.seq)
    (hhanded : t.handed = s.handed ++ [⟨rtpSeq buf, buf, queued, accepted⟩])
    (henqueued : t.enqueued = s.enqueued)
    (hqueue : s.queue = (if queued then [⟨rtpSeq buf, buf⟩] else []) ++ t.queue)
    (hfreed : t.freed = s.freed ++ if queued then [buf] else []) : Ordered first t := by
  have hsub : ∀ p ∈ t.queue, p ∈ s.queue := by
    intro p hp
    rw [hqueue]
    exact List.mem_append_right _ hp
  have hlast := lastAccepted_append s.handed ⟨rtpSeq buf, buf, queued, accepted⟩
  rw [← hhanded] at hlast
  constructor
  · rw [hsize]
    exact h.size
  · rw [hseq, hlast]
    cases accepted with
    | true => rfl
    | false => exact h.seq_eq
  · rw [hlast]
    intro last hmem
    cases accepted with
    | true =>
      cases Option.mem_some.mp hmem
      exact hbuf
    | false => exact h.accepted last hmem
  · intro hne
    rw [hseq]
    cases accepted with
    | true => exact hbuf.1
    | false =>
      obtain ⟨p, hp⟩ := List.exists_mem_of_ne_nil _ hne
      exact h.started (List.ne_nil_of_mem (hsub p hp))
  · exact fun p hp => h.window p (hsub p hp)
  · have hsorted := h.sorted
    rw [hqueue] at hsorted
    exact (List.pairwise_append.mp hsorted).2.1
  · intro p hp
    rw [hhanded, hseq]
    have hwindow := (h.window p (hsub p hp)).2
    cases accepted with
    | true =>
      rcases hahead p hp with ⟨e, he, heq⟩ | hle
      · exact Or.inl ⟨e, List.mem_append_left _ he, heq⟩
      · -- a packet level with this one carries the same number
        rcases Nat.eq_or_lt_of_le hle with heq | hlt
        · exact Or.inl ⟨_, List.mem_append_right _ List.mem_cons_self, hbuf.inj hwindow heq⟩
        · exact Or.inr hlt
    | false =>
      rcases h.ahead p (hsub p hp) with ⟨e, he, heq⟩ | hlt
      · exact Or.inl ⟨e, List.mem_append_left _ he, heq⟩
      · exact Or.inr hlt
  · rw [hhanded]
    exact neverBehind_append h.order hbehind
  · rw [hfreed, hhanded, h.freed]
    cases queued <;> simp [dequeued, List.filter_append]
  · have howned := h.owned
    rw [hqueue] at howned
    rw [hfreed, henqueued]
    cases queued with
    | true => simpa using howned
    | false => simpa using howned

/-! ## The routes of a packet -/

variable {d}

theorem Ordered.direct (h : Ordered first s) (hbuf : InWindow first (rtpSeq buf))
    (hbehind : ∀ last ∈ lastAccepted s.handed, 0 ≤ serialDiff 32768 (rtpSeq buf) last)
    (hahead : ∀ p ∈ s.queue, (∃ e ∈ s.handed, e.seq = p.seq) ∨ seqOffset first (rtpSeq buf) ≤ seqOffset first p.seq) :
    Ordered first (rtpParsePacketInternal d s false buf).2 := by
  obtain ⟨accepted, statistics, depacketizer, heq⟩ := rtpParsePacketInternal_cases d s false buf
  rw [heq]
  exact h.hand false accepted hbuf (Or.inr hbehind) hahead rfl rfl rfl rfl rfl
    (List.append_nil _).symm

/-- The first packet of the queue is handed over. -/
theorem Ordered.parseQueued (h : Ordered first s) : Ordered first (rtpParseQueuedPacket d s).2 := by
  unfold rtpParseQueuedPacket
  cases hqueue : s.queue with
  | nil => exact h
  | cons packet next =>
    obtain ⟨accepted, statistics, depacketizer, heq⟩ :=
      rtpParsePacketInternal_cases d s true packet.buf
    have hmem : packet ∈ s.queue := hqueue ▸ List.mem_cons_self
    obtain ⟨hseq, hwindow⟩ := h.window packet hmem
    have hsorted := h.sorted
    rw [hqueue] at hsorted
    have hpacket : packet = ⟨rtpSeq packet.buf, packet.buf⟩ := by
      rw [← hseq]
    dsimp only
    rw [heq]
    refine h.hand true accepted (hseq ▸ hwindow) ?_ ?_ rfl rfl rfl rfl ?_ rfl
    · rw [← hseq]
      rcases h.ahead packet hmem with hagain | hlt
      · exact Or.inl hagain
      · refine Or.inr fun last hlast => ?_
        rw [serialDiff_of_inWindow hwindow (h.accepted last hlast), h.lastAccepted_eq hlast]
        lia
    · intro p hp
      rw [← hseq]
      exact Or.inr ((List.pairwise_cons.mp hsorted).1 p hp)
    · rw [hqueue, if_pos rfl, ← hpacket]
      rfl

theorem Ordered.enqueue (h : Ordered first s) (hbuf : InWindow first (rtpSeq buf)) (hne : s.seq ≠ 0)
    (hlt : seqOffset first s.seq < seqOffset first (rtpSeq buf)) (alloc : Bool) :
    Ordered first (enqueuePacket alloc s buf).2 := by
  unfold enqueuePacket
  split_ifs
  · have hperm := insertPacket_perm ⟨rtpSeq buf, buf⟩ s.queue
    refine ⟨h.size, h.seq_eq, h.accepted, fun _ => hne, ?_, ?_, ?_, h.order, h.freed, ?_⟩
    · intro p hp
      rcases List.mem_cons.mp (hperm.mem_iff.mp hp) with rfl | hp
      · exact ⟨rfl, hbuf⟩
      · exact h.window p hp
    · exact insertPacket_sorted hbuf (fun p hp => (h.window p hp).2) h.sorted
    · intro p hp
      rcases List.mem_cons.mp (hperm.mem_iff.mp hp) with rfl | hp
      · exact Or.inr hlt
      · exact h.ahead p hp
    · have hbufs : ((insertPacket ⟨rtpSeq buf, buf⟩ s.queue).map RTPPacket.buf).Perm
          (s.queue.map RTPPacket.buf ++ [buf]) :=
        (hperm.map RTPPacket.buf).trans (List.perm_append_singleton _ _).symm
      have happend := hbufs.append_left s.freed
      rw [← List.append_assoc] at happend
      exact happend.trans (h.owned.append_right [buf])
  · exact h

/-- Whichever route it takes, a packet keeps the invariant. -/
theorem Ordered.reorder (h : Ordered first s) (hbuf : InWindow first (rtpSeq buf)) (alloc : Bool) :
    Ordered first (rtpReorder d alloc s buf).2 := by
  have hsize := h.size
  unfold rtpReorder
  split_ifs with hfirst
  · have hempty : s.seq = 0 ∧ s.queue = [] := hfirst.resolve_right (by lia)
    refine h.direct hbuf ?_ ?_
    · -- no packet has been accepted yet
      intro last hlast
      exact absurd ((h.lastAccepted_eq hlast).trans hempty.1) (h.accepted last hlast).1
    · intro p hp
      rw [hempty.2] at hp
      cases hp
  · have hne : s.seq ≠ 0 := by
      intro hzero
      exact hfirst (Or.inl ⟨hzero, by_contra fun hqueue => h.started hqueue hzero⟩)
    have hdiff := serialDiff_of_inWindow hbuf (h.seq_inWindow hne)
    dsimp only
    split_ifs with hold hnext hfail hfull
    · exact h
    · refine h.direct hbuf ?_ ?_
      · intro last hlast
        rw [h.lastAccepted_eq hlast]
        lia
      · intro p hp
        refine (h.ahead p hp).imp_right fun hlt => ?_
        lia
    · exact h.enqueue hbuf hne (by lia) alloc
    · exact (h.enqueue hbuf hne (by lia) alloc).parseQueued
    · exact h.enqueue hbuf hne (by lia) alloc

/-! ## Calls -/

theorem Ordered.parseOne (h : Ordered first s) (alloc : Bool) {buf : Option Bytes}
    (hbuf : ∀ b ∈ buf, InWindow first (rtpSeq b)) :
    Ordered first (rtpParseOnePacket d alloc s buf).2 := by
  cases buf with
  | none =>
    unfold rtpParseOnePacket rtpParseNext
    split_ifs
    · exact h.parseQueued
    · cases d.parsePacket with
      | none => exact h
      | some parsePacket => exact h.congr rfl rfl rfl rfl rfl rfl
  | some buf =>
    unfold rtpParseOnePacket
    dsimp only
    split_ifs
    · exact h
    · exact h
    · exact h.congr rfl rfl rfl rfl rfl rfl
    · exact h.reorder (hbuf buf rfl) alloc

theorem Ordered.parseAfter (h : Ordered first s) (rounds : Nat) (rv : Int) :
    Ordered first (rtpParseAfter d rounds rv s).2 := by
  induction rounds generalizing rv s with
  | zero => exact h
  | succ rounds ih =>
    rw [rtpParseAfter]
    split_ifs
    · exact ih h.parseQueued _
    · exact h

theorem Ordered.parseDecrypted (h : Ordered first s) (alloc : Bool) {buf : Option Bytes}
    (hbuf : ∀ b ∈ buf, InWindow first (rtpSeq b)) :
    Ordered first (rtpParseDecrypted d alloc s buf).2 := by
  have hone := h.parseOne (d := d) alloc hbuf
  exact (hone.congr (t := { (rtpParseOnePacket d alloc s buf).2 with
    prevRet := (rtpParseOnePacket d alloc s buf).1 }) rfl rfl rfl rfl rfl rfl).parseAfter _ _

variable {crypto : Crypto}

/-- Decryption does not touch the first eight bytes. -/
theorem take_ffSrtpDecrypt {srtp : SRTPContext} {out : Bytes}
    (h : (ffSrtpDecrypt crypto srtp buf).1 = .ok out) : out.take 8 = buf.take 8 := by
  have htake (n : Nat) (hn : 8 ≤ n) : (buf.take n).take 8 = buf.take 8 := by
    rw [List.take_take, Nat.min_eq_left hn]
  unfold ffSrtpDecrypt at h
  dsimp only at h
  split_ifs at h with hshort hrtcp htag htag
  · unfold decryptRtcp at h
    dsimp only at h
    split_ifs at h with hauth hlen hclear
    · injection h with h
      rw [← h, List.take_take, Nat.min_eq_left (by lia), htake _ (by lia)]
    · injection h with h
      have hpacket : ((buf.take (buf.length - srtp.rtcpHmacSize)).take
          (buf.length - srtp.rtcpHmacSize - 4)).take 8 = buf.take 8 := by
        rw [List.take_take, Nat.min_eq_left (by lia), htake _ (by lia)]
      have hlength : (buf.take 8).length = 8 := by
        rw [List.length_take]
        lia
      rw [← h, cryptRtcp, hpacket, List.take_left' hlength]
  · unfold decryptRtp at h
    dsimp only at h
    split_ifs at h with hauth hlen
    obtain ⟨_, _, h12⟩ := cryptRtp_cryptRtp crypto h
    have h8 := congrArg (List.take 8) h12
    rwa [List.take_take, List.take_take, Nat.min_eq_left (by lia), htake _ (by lia)] at h8

/-- One call keeps the invariant. -/
theorem Ordered.step {call : Call} (h : Ordered first s)
    (hcall : call.Buffer fun buf => InWindow first (rtpSeq buf)) :
    Ordered first (ffRtpParsePacket d crypto s call).2 := by
  cases call with
  | next =>
    apply h.parseDecrypted
    intro b hb
    cases hb
  | packet buf alloc =>
    have hbuf : InWindow first (rtpSeq buf) := hcall
    unfold ffRtpParsePacket
    cases hsrtp : s.srtp with
    | none =>
      apply h.parseDecrypted
      intro b hb
      cases Option.mem_some.mp hb
      exact hbuf
    | some srtp =>
      dsimp only
      cases hdec : ffSrtpDecrypt crypto srtp buf with
      | mk out srtp' =>
        cases out with
        | error e => exact h.congr rfl rfl rfl rfl rfl rfl
        | ok out =>
          have hout : rtpSeq out = rtpSeq buf :=
            rb_congr (take_ffSrtpDecrypt (by rw [hdec])) (by lia)
          apply (h.congr (t := { s with srtp := some srtp' }) rfl rfl rfl rfl rfl rfl).parseDecrypted
          intro b hb
          cases Option.mem_some.mp hb
          rw [hout]
          exact hbuf

theorem ordered_ffRtpParseOpen (first : Nat) (st : Bool) (payloadType : Nat) {queueSize : Int}
    (hsize : 1 < queueSize) (srtp : Option SRTPContext) (depacketizer : ω) :
    Ordered first (ffRtpParseOpen st payloadType queueSize srtp depacketizer) where
  size := hsize
  seq_eq := rfl
  accepted := by
    intro last hlast
    cases hlast
  started := fun h => absurd rfl h
  window := by
    intro p hp
    cases hp
  sorted := List.Pairwise.nil
  ahead := by
    intro p hp
    cases hp
  order := by
    intro before h after heq
    cases before <;> cases heq
  freed := rfl
  owned := List.Perm.refl _

theorem Ordered.parseAll {calls : List Call} (h : Ordered first s)
    (hcalls : ∀ call ∈ calls, call.Buffer fun buf => InWindow first (rtpSeq buf)) :
    Ordered first (parseAll d crypto s calls) := by
  induction calls generalizing s with
  | nil => exact h
  | cons call calls ih =>
    exact ih (h.step (hcalls call List.mem_cons_self))
      fun c hc => hcalls c (List.mem_cons_of_mem call hc)

/-- In every run of calls with a jitter buffer, a packet that is handed over repeats a
number or is not behind the last accepted packet, and every queued buffer is freed once. -/
theorem parseAll_neverBehind (d : Depacketizer ω) (crypto : Crypto) (st : Bool)
    (payloadType first : Nat) {queueSize : Int} (hsize : 1 < queueSize)
    (srtp : Option SRTPContext) (depacketizer : ω) {calls : List Call}
    (hcalls : ∀ call ∈ calls, call.Buffer (TrueSeqInWindow first)) :
    NeverBehind (parseAll d crypto
      (ffRtpParseOpen st payloadType queueSize srtp depacketizer) calls).handed ∧
    FreedOnce (parseAll d crypto
      (ffRtpParseOpen st payloadType queueSize srtp depacketizer) calls) := by
  have hwindow : ∀ call ∈ calls, call.Buffer fun buf => InWindow first (rtpSeq buf) := by
    intro call hmem
    have hcall := hcalls call hmem
    cases call with
    | packet buf alloc => exact inWindow_of_trueSeqInWindow hcall
    | next => trivial
  have hopen := ordered_ffRtpParseOpen first st payloadType hsize srtp depacketizer
  have h : Ordered first (parseAll d crypto
      (ffRtpParseOpen st payloadType queueSize srtp depacketizer) calls) :=
    hopen.parseAll hwindow
  exact ⟨h.order, h.freed, h.owned⟩

theorem rtpParseAfter_done (s : RTPDemuxContext ω) (rounds : Nat) (rv : Int)
    (hrounds : s.queue.length ≤ rounds) :
    ¬((rtpParseAfter d rounds rv s).1 < 0 ∧ hasNextPacket (rtpParseAfter d rounds rv s).2) := by
  induction rounds generalizing rv s with
  | zero =>
    have hempty : s.queue = [] := List.eq_nil_of_length_eq_zero (by lia)
    rw [rtpParseAfter, hasNextPacket, hempty]
    exact fun h => absurd h.2 Bool.false_ne_true
  | succ rounds ih =>
    rw [rtpParseAfter]
    split_ifs with hcond
    · apply ih
      unfold rtpParseQueuedPacket
      cases hqueue : s.queue with
      | nil =>
        rw [hqueue]
        exact Nat.zero_le rounds
      | cons packet next =>
        rw [hqueue] at hrounds
        exact Nat.le_of_succ_le_succ hrounds
    · exact hcond

/-! ## A jump in the sequence numbers -/

/-- A cipher and a tag of zeros. -/
def zeroCrypto : Crypto where
  aes := fun _ _ => List.replicate 16 0
  hmacSha1 := fun _ _ => List.replicate 20 0
  length_aes := fun _ _ => List.length_replicate
  length_hmacSha1 := fun _ _ => List.length_replicate

/-- Payloads are copied to a packet. -/
def copyPayload : Depacketizer Unit where
  parsePacket := none
  newPacket := fun _ _ _ => (0, ())
  rtcpParsePacket := fun _ _ => (-1, ())

/-- An RTP packet of payload type 96 without payload. -/
def headerOnly (seq : Nat) : Bytes :=
  [0x80, 96] ++ putBE 2 seq ++ List.replicate 8 0

/-- Packets 5000 and 5001 arrive after 100 and 101, and then 102. -/
def jumpingCalls : List Call :=
  [100, 101, 5000, 5001, 102].map fun seq => .packet (headerOnly seq) true

theorem jumpingCalls_inWindow : ∀ call ∈ jumpingCalls,
    call.Buffer (ValidHeader 96) ∧ call.Buffer (TrueSeqInWindow 100) := by
  intro call hcall
  obtain ⟨seq, hseq, rfl⟩ := List.mem_map.mp hcall
  have hsmall : 100 ≤ seq ∧ seq < 65536 ∧ seq < 32868 := by
    simp only [List.mem_cons, List.not_mem_nil, or_false] at hseq
    lia
  have hrtp : rtpSeq (headerOnly seq) = seq := by
    show getBE (putBE 2 seq) = seq
    exact getBE_putBE_of_lt (by lia)
  have hversion : (0x80 : UInt8) &&& 0xc0 = 0x80 := by decide
  have htype : ((96 : UInt8) &&& 0x7f).toNat = 96 := by decide
  refine ⟨⟨le_of_eq rfl, hversion, rfl, htype⟩, seq, hsmall.1, hsmall.2.2, ?_, ?_⟩
  · rw [hrtp, rtpSeqMod, Nat.mod_eq_of_lt hsmall.2.1]
  · rw [hrtp]
    lia

theorem parseAll_neverBehind_jumping :
    NeverBehind (parseAll copyPayload zeroCrypto
      (ffRtpParseOpen true 96 2 none ()) jumpingCalls).handed ∧
    FreedOnce (parseAll copyPayload zeroCrypto
      (ffRtpParseOpen true 96 2 none ()) jumpingCalls) :=
  parseAll_neverBehind copyPayload zeroCrypto true 96 100 (by decide) none ()
    fun call hcall => (jumpingCalls_inWindow call hcall).2

/-- Packet 5000 is handed over when the queue is full and turned down as a jump; packet 102
follows. -/
theorem not_neverDecreases_jumping :
    ¬ ∀ (ω : Type) (d : Depacketizer ω) (crypto : Crypto) (st : Bool) (payloadType first : Nat)
      (queueSize : Int) (srtp : Option SRTPContext) (depacketizer : ω) (calls : List Call),
      1 < queueSize →
      (∀ call ∈ calls, call.Buffer (ValidHeader payloadType) ∧
        call.Buffer (TrueSeqInWindow first)) →
      NeverDecreases (parseAll d crypto
        (ffRtpParseOpen st payloadType queueSize srtp depacketizer) calls).handed ∧
      FreedOnce (parseAll d crypto
        (ffRtpParseOpen st payloadType queueSize srtp depacketizer) calls) := by
  intro h
  have hclaim := (h Unit copyPayload zeroCrypto true 96 100 2 none () jumpingCalls (by decide)
    jumpingCalls_inWindow).1
  have hhanded : (parseAll copyPayload zeroCrypto
      (ffRtpParseOpen true 96 2 none ()) jumpingCalls).handed.map Handed.seq =
      [100, 101, 5000, 102] := by
    decide
  have hchain := (List.isChain_map (R := fun a b : Nat => 0 ≤ serialDiff 32768 b a)
    Handed.seq).mpr hclaim
  rw [hhanded] at hchain
  revert hchain
  decide

end FFmpeg.Libavformat.Rtp
