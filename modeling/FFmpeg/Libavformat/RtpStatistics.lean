import FFmpeg.Libavformat.RtpDec

/-!
# What a receiver reports

The statistics of `libavformat/rtpdec.c` count in fields of 16 and 32 bits.  They are compared with
numbers that do not wrap: the number of the packet a session began with, the highest number since,
and how many packets have come.
-/

namespace FFmpeg.Libavformat.Rtp

/-- The report block that `ff_rtp_check_and_send_back_rr` writes, as far as it comes from the
counts: the word with the fraction and the number of packets lost, and the highest number. -/
def reportBlock (s : RTPStatistics) : Nat × Nat × RTPStatistics :=
  let extendedMax := (s.cycles + s.maxSeq) % 2 ^ 32
  let expected := (extendedMax + 2 ^ 32 - s.baseSeq) % 2 ^ 32
  let lost := min ((expected + 2 ^ 32 - s.received) % 2 ^ 32) 0xffffff
  let expectedInterval : Nat := (expected + 2 ^ 32 - s.expectedPrior) % 2 ^ 32
  let receivedInterval : Nat := (s.received + 2 ^ 32 - s.receivedPrior) % 2 ^ 32
  let lostInterval := ((expectedInterval : Int) - receivedInterval).bmod (2 ^ 32)
  let fraction :=
    if expectedInterval = 0 ∨ lostInterval ≤ 0 then 0
    else (lostInterval.toNat <<< 8) % 2 ^ 32 / expectedInterval
  ((fraction <<< 24) % 2 ^ 32 ||| lost, extendedMax,
    { s with expectedPrior := expected, receivedPrior := s.received })

/-! ## Numbers that do not wrap -/

/-- Since a sequence was initialised: the number of that packet, the highest number, how many
packets came, and the number that would begin the sequence anew. -/
structure Session where
  first : Nat
  highest : Nat
  received : Nat
  bad : Option Nat
  deriving DecidableEq, Repr

/-- A sender that is on probation behind a packet, or valid. -/
inductive Source
  | probation (last : Nat)
  | valid (session : Session)
  deriving DecidableEq, Repr

/-- How far a number is ahead of the highest one. -/
def Session.ahead (a : Session) (seq : Nat) : Nat :=
  (seq + 65536 - a.highest % 65536) % 65536

/-- A packet comes. -/
def Source.packet : Source → Nat → Source
  | .probation last, seq =>
    if seq = last + 1 then .valid ⟨seq, seq, 1, none⟩ else .probation seq
  | .valid a, seq =>
    if a.ahead seq < 3000 then
      .valid { a with highest := a.highest + a.ahead seq, received := a.received + 1 }
    else if a.ahead seq ≤ 65436 then
      if a.bad = some seq then .valid ⟨seq, seq, 1, none⟩
      else .valid { a with bad := some ((seq + 1) % 65536) }
    else .valid { a with received := a.received + 1 }

/-- The packets from the first to the highest one. -/
def Session.expected (a : Session) : Nat := a.highest + 1 - a.first

/-! ## Runs -/

/-- What happens to the statistics. -/
inductive Event
  | packet (seq : Nat)
  | report
  deriving DecidableEq, Repr

/-- A run of the statistics. -/
def runStatistics (s : RTPStatistics) : List Event → RTPStatistics
  | [] => s
  | .packet seq :: events => runStatistics (rtpValidPacketInSequence s seq).2 events
  | .report :: events => runStatistics (reportBlock s).2.2 events

/-- The same run with numbers that do not wrap. -/
def Source.run (source : Source) : List Event → Source
  | [] => source
  | .packet seq :: events => (source.packet seq).run events
  | .report :: events => source.run events

/-- The fields of the statistics are the numbers, as far as they have room. -/
def Tracks (s : RTPStatistics) : Source → Prop
  | .probation last => s.probation = 1 ∧ s.maxSeq = last
  | .valid a =>
    s.probation = 0 ∧ s.maxSeq = a.highest % 65536 ∧
      (s.cycles + s.maxSeq) % 2 ^ 32 = a.highest % 2 ^ 32 ∧
      s.baseSeq = (a.first + (2 ^ 32 - 1)) % 2 ^ 32 ∧ s.badSeq = a.bad.getD 65537 ∧
      s.received = a.received % 2 ^ 32 ∧ a.first ≤ a.highest

variable {s : RTPStatistics} {source : Source} {seq : Nat}

theorem tracks_initialised (s : RTPStatistics) (hseq : seq < 65536) (hprobation : s.probation = 0) :
    Tracks (countReceived (rtpInitSequence s seq)) (.valid ⟨seq, seq, 1, none⟩) := by
  refine ⟨hprobation, (Nat.mod_eq_of_lt hseq).symm, ?_, rfl, rfl, rfl, le_rfl⟩
  show (0 + seq) % 2 ^ 32 = seq % 2 ^ 32
  rw [Nat.zero_add]

/-- A packet that comes. -/
theorem Tracks.packet (h : Tracks s source) (hseq : seq < 65536) :
    Tracks (rtpValidPacketInSequence s seq).2 (source.packet seq) := by
  cases source with
  | probation last =>
    obtain ⟨hprobation, rfl⟩ := h
    by_cases hnext : seq = s.maxSeq + 1
    · have htracks := tracks_initialised { s with probation := 0, maxSeq := seq } hseq rfl
      simpa [rtpValidPacketInSequence, Source.packet, hprobation, hnext] using hnext ▸ htracks
    · simp [rtpValidPacketInSequence, Source.packet, hprobation, hnext, Tracks, countReceived]
  | valid a =>
    obtain ⟨hprobation, hmax, hcycles, hbase, hbad, hreceived, hle⟩ := h
    have hahead : (seq + rtpSeqMod - s.maxSeq) % rtpSeqMod = a.ahead seq := by
      rw [hmax]
      rfl
    have hdef : a.ahead seq = (seq + 65536 - a.highest % 65536) % 65536 := rfl
    unfold rtpValidPacketInSequence Source.packet
    dsimp only
    rw [if_neg (not_not.2 hprobation), hahead]
    by_cases hdropout : a.ahead seq < 3000
    · rw [if_pos hdropout, if_pos hdropout]
      refine ⟨hprobation, ?_, ?_, hbase, hbad, ?_, hle.trans (Nat.le_add_right _ _)⟩
      · show seq = (a.highest + a.ahead seq) % 65536
        omega
      · show ((if seq < s.maxSeq then (s.cycles + rtpSeqMod) % 2 ^ 32 else s.cycles) + seq) %
          2 ^ 32 = (a.highest + a.ahead seq) % 2 ^ 32
        -- the number is below the highest one exactly when it has wrapped
        rw [show rtpSeqMod = 65536 from rfl]
        split_ifs <;> omega
      · show (s.received + 1) % 2 ^ 32 = (a.received + 1) % 2 ^ 32
        omega
    · rw [if_neg hdropout, if_neg hdropout, show rtpSeqMod - 100 = 65436 from rfl]
      by_cases hjump : a.ahead seq ≤ 65436
      · -- the second packet in a row behind a jump begins the sequence anew
        have hrestart : seq = s.badSeq ↔ a.bad = some seq := by
          rw [hbad]
          cases a.bad with
          | none => simp; omega
          | some bad => simp [eq_comm]
        rw [if_pos hjump, if_pos hjump]
        by_cases hsame : a.bad = some seq
        · rw [if_pos (hrestart.2 hsame), if_pos hsame]
          exact tracks_initialised s hseq hprobation
        · rw [if_neg (fun h => hsame (hrestart.1 h)), if_neg hsame]
          exact ⟨hprobation, hmax, hcycles, hbase, rfl, hreceived, hle⟩
      · rw [if_neg hjump, if_neg hjump]
        refine ⟨hprobation, hmax, hcycles, hbase, hbad, ?_, hle⟩
        show (s.received + 1) % 2 ^ 32 = (a.received + 1) % 2 ^ 32
        omega

theorem Tracks.report (h : Tracks s source) : Tracks (reportBlock s).2.2 source := by
  obtain ⟨expected, received, hreport⟩ : ∃ expected received, (reportBlock s).2.2 =
      { s with expectedPrior := expected, receivedPrior := received } := ⟨_, _, rfl⟩
  rw [hreport]
  cases source <;> exact h

theorem Tracks.run (h : Tracks s source) {events : List Event}
    (hevents : ∀ seq, Event.packet seq ∈ events → seq < 65536) :
    Tracks (runStatistics s events) (source.run events) := by
  induction events generalizing s source with
  | nil => exact h
  | cons event events ih =>
    have hrest : ∀ seq, Event.packet seq ∈ events → seq < 65536 := fun seq hmem =>
      hevents seq (List.mem_cons_of_mem _ hmem)
    cases event with
    | packet seq => exact ih (h.packet (hevents seq List.mem_cons_self)) hrest
    | report => exact ih h.report hrest

/-! ## Reports -/

variable {a : Session}

theorem Tracks.expected (h : Tracks s (.valid a)) (hexpected : a.expected < 2 ^ 32) :
    ((s.cycles + s.maxSeq) % 2 ^ 32 + 2 ^ 32 - s.baseSeq) % 2 ^ 32 = a.expected := by
  obtain ⟨-, -, hcycles, hbase, -, -, hle⟩ := h
  rw [hcycles, hbase]
  unfold Session.expected at hexpected ⊢
  omega

theorem word_mod {lost : Nat} (fraction : Nat) (hlost : lost < 2 ^ 24) :
    ((fraction <<< 24) % 2 ^ 32 ||| lost) % 2 ^ 24 = lost := by
  have hhigh : (fraction <<< 24) % 2 ^ 32 % 2 ^ 24 = 0 := by
    rw [Nat.shiftLeft_eq]
    omega
  rw [Nat.or_mod_two_pow, hhigh, Nat.zero_or, Nat.mod_eq_of_lt hlost]

theorem reportBlock_lost (s : RTPStatistics) : (reportBlock s).1 % 2 ^ 24 =
    min ((((s.cycles + s.maxSeq) % 2 ^ 32 + 2 ^ 32 - s.baseSeq) % 2 ^ 32 + 2 ^ 32 - s.received) %
      2 ^ 32) 0xffffff := by
  unfold reportBlock
  exact word_mod _ ((Nat.min_le_right _ _).trans_lt (by decide))

/-- Whatever packets come and whatever is reported in between, a report has the highest number, and
the number of packets that are lost as long as no more have come than were expected. -/
theorem reportBlock_run {base : Nat} {events : List Event}
    (hevents : ∀ seq, Event.packet seq ∈ events → seq < 65536)
    (hvalid : (Source.probation base).run events = .valid a) (hexpected : a.expected < 2 ^ 31)
    (hreceived : a.received < 2 ^ 31) :
    (reportBlock (runStatistics (rtpInitStatistics base) events)).2.1 = a.highest % 2 ^ 32 ∧
      ((reportBlock (runStatistics (rtpInitStatistics base) events)).1 % 2 ^ 24 =
        min (a.expected - a.received) 0xffffff ↔ a.received ≤ a.expected) := by
  obtain ⟨s, hs⟩ : ∃ s, s = runStatistics (rtpInitStatistics base) events := ⟨_, rfl⟩
  have htracks : Tracks s (.valid a) := by
    rw [hs, ← hvalid]
    have hinit : Tracks (rtpInitStatistics base) (.probation base) := ⟨rfl, rfl⟩
    exact hinit.run hevents
  have hcount := htracks.expected (hexpected.trans (by decide))
  obtain ⟨-, -, hcycles, -, -, hgot, -⟩ := htracks
  rw [← hs, reportBlock_lost, hcount, hgot, Nat.mod_eq_of_lt (hreceived.trans (by decide))]
  refine ⟨hcycles, ?_⟩
  rcases Nat.lt_or_ge a.expected a.received with hmore | hfewer
  · -- the difference is taken without a sign, and is far too large
    have hwrapped : (a.expected + 2 ^ 32 - a.received) % 2 ^ 32 =
        a.expected + 2 ^ 32 - a.received := Nat.mod_eq_of_lt (by omega)
    have hlarge : 0xffffff ≤ a.expected + 2 ^ 32 - a.received := by omega
    rw [hwrapped, Nat.min_eq_right hlarge, Nat.sub_eq_zero_of_le hmore.le, Nat.zero_min]
    exact iff_of_false (Nat.succ_ne_zero _) hmore.not_ge
  · have hdifference : (a.expected + 2 ^ 32 - a.received) % 2 ^ 32 =
        a.expected - a.received := by omega
    rw [hdifference]
    exact iff_of_true rfl hfewer

/-- The number wraps, and a packet is lost. -/
theorem reportBlock_run_wraps :
    (reportBlock (runStatistics (rtpInitStatistics 65534)
      [.packet 65535, .report, .packet 1])).2.1 = 65537 % 2 ^ 32 := by
  have hvalid : (Source.probation 65534).run [.packet 65535, .report, .packet 1] =
      .valid ⟨65535, 65537, 2, none⟩ := by
    simp [Source.run, Source.packet, Session.ahead]
  exact (reportBlock_run (by simp) hvalid (by simp [Session.expected]) (by simp)).1

end FFmpeg.Libavformat.Rtp
