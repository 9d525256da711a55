import Mathlib.Tactic
import FFmpeg.Libavformat.RtmpPktChunk

/-!
# Reading back one written RTMP packet

Writer and reader each keep a history.  As long as the two agree (`Synced`) a
message that needs no continuation chunk, or whose channel id is below 64, is
read back whole and the histories agree again.
-/

namespace FFmpeg.Libavformat.Rtmp

open Common Libavutil

/-! ## The two histories -/

/-- A writer's and a reader's history entry agree on all that headers use. -/
structure EntrySynced (w r : RTMPPacket) : Prop where
  type : w.type = r.type
  timestamp : w.timestamp = r.timestamp
  extra : w.extra = r.extra
  size : w.size = r.size
  tsField : w.tsField = r.tsField
  read : r.read = 0

/-- The histories of writer and reader agree on every channel. -/
def Synced (w r : History) : Prop :=
  ∀ c, EntrySynced (w.entry c) (r.entry c)

theorem synced_nil : Synced [] [] :=
  fun _ => ⟨rfl, rfl, rfl, rfl, rfl, rfl⟩

variable {m : Message}

theorem EntrySynced.headerFits {w r : RTMPPacket} (h : EntrySynced w r) (tsField : UInt32) :
    HeaderFits (m.sentPacket tsField) r (headerMode (m.sentPacket tsField) w) := by
  unfold HeaderFits headerMode
  by_cases hdelta : useDelta (m.sentPacket tsField) w = true
  · have hextra : (m.sentPacket tsField).extra = w.extra := by
      simp only [useDelta, Bool.and_eq_true, decide_eq_true_eq] at hdelta
      exact hdelta.1.2
    simp only [if_pos hdelta]
    by_cases hsame : (m.sentPacket tsField).type = w.type ∧ (m.sentPacket tsField).size = w.size
    · simp only [if_pos hsame]
      by_cases hts : (m.sentPacket tsField).tsField = w.tsField
      · simp [hts, hextra, hsame, h.tsField, h.size, h.type, h.extra]
      · simp [hts, hextra, hsame, h.size, h.type, h.extra]
    · simp [if_neg hsame, hextra, h.extra]
  · simp [hdelta]

theorem EntrySynced.timestamp_eq {w r : RTMPPacket} (h : EntrySynced w r) (tsField : UInt32) :
    (if headerMode (m.sentPacket tsField) w = .twelveBytes then sentTimestamp m.toPacket w
      else sentTimestamp m.toPacket w + r.timestamp) = m.timestamp := by
  have hsame : useDelta (m.sentPacket tsField) w = useDelta m.toPacket w := rfl
  unfold headerMode sentTimestamp
  rw [hsame, ← h.timestamp]
  by_cases hdelta : useDelta m.toPacket w = true
  · have hmode : (if (m.sentPacket tsField).type = w.type ∧ (m.sentPacket tsField).size = w.size
        then if (m.sentPacket tsField).tsField = w.tsField then RTMPPacketSize.oneByte
          else .fourBytes
        else .eightBytes) ≠ .twelveBytes := by
      split <;> [split; skip] <;> simp
    simp only [if_pos hdelta, if_neg hmode]
    exact UInt32.sub_add_cancel _ _
  · simp only [if_neg hdelta, if_true]
    rfl

/-! ## The payload loop of the writer -/

/-- The continuation chunks of `m` from payload offset `off` on. -/
def Message.continuations (m : Message) (chunkSize : Nat) (ts : UInt32) (rounds off : Nat) :
    Bytes :=
  if off < m.payload.length then
    UInt8.ofNat (0xC0 ||| m.channelId) :: (putExtendedTs (sentTsField ts) ts ++
      (writeChunks chunkSize (m.sentPacket (sentTsField ts)) ts rounds off).1)
  else []

variable {chunkSize rounds : Nat}

/-- What `writeChunks` sends from payload offset `off` on: the payload of one
chunk and then the continuation chunks. -/
theorem writeChunks_eq (hcs : 1 ≤ chunkSize) (m : Message) (ts : UInt32) {off : Nat}
    (hrounds : m.payload.length - off ≤ rounds) :
    ∃ more, m.payload.length - (off + (m.chunkPayload chunkSize off).length) ≤ more ∧
      (writeChunks chunkSize (m.sentPacket (sentTsField ts)) ts rounds off).1 =
        m.chunkPayload chunkSize off ++
          m.continuations chunkSize ts more (off + (m.chunkPayload chunkSize off).length) := by
  have hlen := m.length_chunkPayload chunkSize off
  have hsize : (m.sentPacket (sentTsField ts)).size = m.payload.length := rfl
  have hdata : (m.sentPacket (sentTsField ts)).data = m.payload := rfl
  by_cases hoff : off < m.payload.length
  · obtain ⟨more, rfl⟩ : ∃ more, rounds = more + 1 := ⟨rounds - 1, by lia⟩
    refine ⟨more, by lia, ?_⟩
    have hchunk : (m.payload.drop off).take (m.chunkPayload chunkSize off).length =
        m.chunkPayload chunkSize off := by
      rw [hlen]
      rfl
    have hmin : min chunkSize (m.payload.length - off) = (m.chunkPayload chunkSize off).length := by
      rw [hlen, Nat.min_comm]
    simp only [writeChunks, hsize, hdata, if_pos hoff, hmin, hchunk, Message.continuations]
    split
    · rfl
    · simp
  · have hnil : m.chunkPayload chunkSize off = [] := by
      rw [← List.length_eq_zero_iff, hlen]
      lia
    refine ⟨0, by lia, ?_⟩
    cases rounds with
    | zero => simp [writeChunks, hnil, hoff, Message.continuations]
    | succ rounds => simp [writeChunks, hnil, hsize, hoff, Message.continuations]

/-- The bytes the framing needs for `rest` payload bytes in continuation chunks
when every chunk starts with `1 + ext` header bytes. -/
def continuationCost (chunkSize ext rest : Nat) : Nat :=
  rest + (rest + chunkSize - 1) / chunkSize * (1 + ext)

theorem continuationCost_zero (hcs : 1 ≤ chunkSize) (ext : Nat) :
    continuationCost chunkSize ext 0 = 0 := by
  have hz : (0 + chunkSize - 1) / chunkSize = 0 := Nat.div_eq_of_lt (by lia)
  rw [continuationCost, hz, Nat.zero_mul]

theorem continuationCost_step (hcs : 1 ≤ chunkSize) (ext : Nat) {rest : Nat} (hrest : 0 < rest) :
    continuationCost chunkSize ext rest =
      1 + ext + min rest chunkSize + continuationCost chunkSize ext (rest - min rest chunkSize) := by
  unfold continuationCost
  by_cases hle : rest ≤ chunkSize
  · have hone : (rest + chunkSize - 1) / chunkSize = 1 :=
      Nat.div_eq_of_lt_le (by lia) (by lia)
    have hzero : (rest - min rest chunkSize + chunkSize - 1) / chunkSize = 0 :=
      Nat.div_eq_of_lt (by lia)
    rw [hone, hzero]
    lia
  · have hsucc : (rest + chunkSize - 1) / chunkSize =
        (rest - min rest chunkSize + chunkSize - 1) / chunkSize + 1 := by
      rw [← Nat.add_div_right _ (by lia)]
      congr 1
      lia
    rw [hsucc, Nat.add_mul]
    lia

theorem length_continuations (hcs : 1 ≤ chunkSize) (m : Message) (ts : UInt32) {off : Nat}
    (hrounds : m.payload.length - off ≤ rounds) :
    (m.continuations chunkSize ts rounds off).length =
      continuationCost chunkSize (putExtendedTs (sentTsField ts) ts).length
        (m.payload.length - off) := by
  induction hrest : m.payload.length - off using Nat.strong_induction_on
    generalizing rounds off with
  | _ rest ih =>
    have hlen := m.length_chunkPayload chunkSize off
    by_cases hoff : off < m.payload.length
    · obtain ⟨more, hmore, heq⟩ := writeChunks_eq hcs m ts hrounds
      have hnext := ih (m.payload.length - (off + (m.chunkPayload chunkSize off).length))
        (by lia) hmore rfl
      have hsub : rest - min rest chunkSize =
          m.payload.length - (off + (m.chunkPayload chunkSize off).length) := by lia
      rw [Message.continuations, if_pos hoff, heq,
        continuationCost_step hcs _ (show 0 < rest by lia), hsub, ← hnext, ← hrest, ← hlen]
      simp only [List.length_cons, List.length_append]
      lia
    · obtain rfl : rest = 0 := by lia
      simp [Message.continuations, hoff, continuationCost_zero hcs]

/-! ## Reading what was written -/

/-- The outcome `r` of a read: the message `m` is returned, the bytes `rest` are
left, and only the history entry of the message's channel has changed. -/
def ReadDone (m : Message) (tsField : UInt32) (rest : Bytes) (prevPkt : History)
    (r : Except AVERROR Nat × Reader) : Prop :=
  ∃ n p prevPkt', r = (.ok n, ⟨rest, p, prevPkt'⟩) ∧ m.ReadAs p ∧
    Settled m tsField (prevPkt'.entry m.channelId) ∧
    ∀ c, c ≠ m.channelId → prevPkt'.entry c = prevPkt.entry c

variable {prevPkt : History}

theorem ChunkOutcome.readDone {tsField : UInt32} {off : Nat} {rest : Bytes}
    {r : Except AVERROR Nat × Reader} (h : ChunkOutcome m tsField off rest prevPkt r)
    (hoff : ¬ off < m.payload.length) :
    ReadDone m tsField rest prevPkt r := by
  rw [ChunkOutcome, if_neg hoff] at h
  obtain ⟨n, p, e, hr, hread, hsettled⟩ := h
  refine ⟨n, p, _, hr, hread, ?_, fun c hc => entry_put_of_ne _ _ hc⟩
  rwa [entry_put_self]

theorem readInternal_of_ok {n : Nat} {hdr : UInt8} {s s' : Reader}
    (h : rtmpPacketReadOneChunk chunkSize hdr s = (.ok n, s')) :
    ffRtmpPacketReadInternal chunkSize (rounds + 1) hdr s = (.ok n, s') := by
  simp [ffRtmpPacketReadInternal, h]

theorem readInternal_of_eagain {hdr hdr' : UInt8} {s s' : Reader} {h' : Bytes}
    (h : rtmpPacketReadOneChunk chunkSize hdr s = (.error .eagain, s')) (hnext : s'.h = hdr' :: h') :
    ffRtmpPacketReadInternal chunkSize (rounds + 1) hdr s =
      ffRtmpPacketReadInternal chunkSize rounds hdr' { s' with h := h' } := by
  simp [ffRtmpPacketReadInternal, h, hnext]

/-- Reading the continuation chunks of a message on a channel below 64.  The
induction is on the rounds left; every chunk brings `Partial` forward. -/
theorem readInternal_continuations (hcs : 1 ≤ chunkSize) (hc : m.channelId < 64) (ts : UInt32)
    (rest : Bytes) {more off : Nat} (p : RTMPPacket)
    (hparked : Partial m (sentTsField ts) off (prevPkt.entry m.channelId))
    (hoff : off < m.payload.length) (hmore : m.payload.length - off ≤ more)
    (hrounds : m.payload.length - off ≤ rounds) :
    ReadDone m (sentTsField ts) rest prevPkt
      (ffRtmpPacketReadInternal chunkSize rounds (UInt8.ofNat (0xC0 ||| m.channelId))
        ⟨putExtendedTs (sentTsField ts) ts ++
          ((writeChunks chunkSize (m.sentPacket (sentTsField ts)) ts more off).1 ++ rest),
          p, prevPkt⟩) := by
  induction rounds generalizing more off prevPkt p with
  | zero => lia
  | succ rounds ih =>
      have hlen := m.length_chunkPayload chunkSize off
      obtain ⟨more', hmore', heq⟩ := writeChunks_eq hcs m ts hmore
      rw [heq, List.append_assoc]
      have hchunk := readOneChunk_continuation hc hparked hoff.le chunkSize p
        (m.continuations chunkSize ts more' (off + (m.chunkPayload chunkSize off).length) ++ rest)
      by_cases hlt : off + (m.chunkPayload chunkSize off).length < m.payload.length
      · rw [ChunkOutcome, if_pos hlt] at hchunk
        obtain ⟨p', e, hread, hparked'⟩ := hchunk
        have hentry : (prevPkt.put m.channelId e).entry m.channelId = e := entry_put_self _ _ _
        obtain ⟨n, q, prevPkt', hr, hq, hsettled, hother⟩ :=
          ih p' (by rw [hentry]; exact hparked') hlt hmore' (by lia)
        refine ⟨n, q, prevPkt', ?_, hq, hsettled, fun c hne => ?_⟩
        · rw [readInternal_of_eagain hread
            (by simp only [Message.continuations, if_pos hlt, List.cons_append]; rfl), ← hr,
            List.append_assoc]
        · rw [hother c hne, entry_put_of_ne _ _ hne]
      · obtain ⟨n, q, prevPkt', hr, hq⟩ := hchunk.readDone hlt
        refine ⟨n, q, prevPkt', ?_, hq⟩
        rw [readInternal_of_ok hr]
        simp [Message.continuations, if_neg hlt]

theorem entry_write (chunkSize : Nat) (m : Message) (prevPkt : History) :
    ((ffRtmpPacketWrite chunkSize m.toPacket prevPkt).prevPkt.entry m.channelId).tsField =
        sentTsField (sentTimestamp m.toPacket (prevPkt.entry m.channelId)) ∧
      (∀ tsField e, Settled m tsField e →
        e.tsField = sentTsField (sentTimestamp m.toPacket (prevPkt.entry m.channelId)) →
        EntrySynced ((ffRtmpPacketWrite chunkSize m.toPacket prevPkt).prevPkt.entry m.channelId)
          e) ∧
      ∀ c, c ≠ m.channelId →
        (ffRtmpPacketWrite chunkSize m.toPacket prevPkt).prevPkt.entry c = prevPkt.entry c := by
  have hput : ∃ e, (ffRtmpPacketWrite chunkSize m.toPacket prevPkt).prevPkt =
      prevPkt.put m.channelId e ∧ e.type = m.type ∧ e.timestamp = m.timestamp ∧
      e.extra = m.extra ∧ e.size = m.payload.length ∧
      e.tsField = sentTsField (sentTimestamp m.toPacket (prevPkt.entry m.channelId)) := by
    refine ⟨_, rfl, rfl, rfl, rfl, rfl, ?_⟩
    show sentTsField (sentTimestamp m.toPacket
      ((ffRtmpCheckAllocArray prevPkt m.channelId).entry m.channelId)) = _
    rw [entry_checkAllocArray]
  obtain ⟨e, hhistory, htype, htimestamp, hextra, hsize, htsField⟩ := hput
  rw [hhistory, entry_put_self]
  refine ⟨htsField, fun tsField e' h' hts => ?_, fun c hc => entry_put_of_ne _ _ hc⟩
  exact ⟨htype.trans h'.type.symm, htimestamp.trans h'.timestamp.symm,
    hextra.trans h'.extra.symm, hsize.trans h'.size.symm, htsField.trans hts.symm, h'.read⟩

theorem out_write (chunkSize : Nat) (m : Message) (prevPkt : History) :
    let prev := prevPkt.entry m.channelId
    let ts := sentTimestamp m.toPacket prev
    let pkt := m.sentPacket (sentTsField ts)
    (ffRtmpPacketWrite chunkSize m.toPacket prevPkt).out =
      putChannelId m.channelId (headerMode pkt prev) ++
        putMessageHeader pkt (headerMode pkt prev) ++ putExtendedTs (sentTsField ts) ts ++
        (writeChunks chunkSize pkt ts m.payload.length 0).1 := by
  have hentry := entry_checkAllocArray prevPkt m.channelId m.channelId
  simp only [← hentry]
  rfl

/-- The bytes of a written message start with a chunk the reader understands;
its continuation chunks follow. -/
theorem read_firstChunk (hcs : 1 ≤ chunkSize) {w r : History} (hsync : Synced w r) (m : Message) :
    let ts := sentTimestamp m.toPacket (w.entry m.channelId)
    let n := (m.chunkPayload chunkSize 0).length
    ∃ hdr tail more, m.payload.length - n ≤ more ∧
      (ffRtmpPacketWrite chunkSize m.toPacket w).out = hdr :: (tail ++
        (m.chunkPayload chunkSize 0 ++ m.continuations chunkSize ts more n)) ∧
      ∀ p rest, ChunkOutcome m (sentTsField ts) n rest r
        (rtmpPacketReadOneChunk chunkSize hdr
          ⟨tail ++ (m.chunkPayload chunkSize 0 ++ rest), p, r⟩) := by
  intro ts n
  have hentry := hsync m.channelId
  obtain ⟨hdr, tail, hhdr, hout⟩ := readOneChunk_first (m := m) hentry.read
    (hentry.headerFits (sentTsField ts)) (hentry.timestamp_eq (sentTsField ts)) chunkSize
  obtain ⟨more, hmore, heq⟩ := writeChunks_eq hcs m ts
    (show m.payload.length - 0 ≤ m.payload.length by lia)
  rw [Nat.zero_add] at hmore heq
  refine ⟨hdr, tail, more, hmore, ?_, hout⟩
  rw [out_write, heq, hhdr, List.cons_append]

/-- A message on a small channel id, or one that fits a single chunk, is read
back, and the histories are in step again afterwards. -/
theorem read_write (hcs : 1 ≤ chunkSize) {w r : History} (hsync : Synced w r)
    (hm : m.channelId < 64 ∨ m.payload.length ≤ chunkSize) (p : RTMPPacket) (rest : Bytes) :
    ∃ n p' r', ffRtmpPacketRead chunkSize
        ⟨(ffRtmpPacketWrite chunkSize m.toPacket w).out ++ rest, p, r⟩ =
          (.ok n, ⟨rest, p', r'⟩) ∧ m.ReadAs p' ∧
      Synced (ffRtmpPacketWrite chunkSize m.toPacket w).prevPkt r' := by
  have hlen := m.length_chunkPayload chunkSize 0
  obtain ⟨hdr, tail, more, hmore, hout, hchunk⟩ := read_firstChunk hcs hsync m
  set ts := sentTimestamp m.toPacket (w.entry m.channelId) with hts
  have hdone : ReadDone m (sentTsField ts) rest r
      (ffRtmpPacketRead chunkSize
        ⟨(ffRtmpPacketWrite chunkSize m.toPacket w).out ++ rest, p, r⟩) := by
    have hfirst := hchunk p
      (m.continuations chunkSize ts more (m.chunkPayload chunkSize 0).length ++ rest)
    simp only [hout, ffRtmpPacketRead, List.cons_append, List.append_assoc]
    by_cases hlt : (m.chunkPayload chunkSize 0).length < m.payload.length
    · have hc : m.channelId < 64 := by lia
      rw [ChunkOutcome, if_pos hlt] at hfirst
      obtain ⟨p', e, hread, hparked⟩ := hfirst
      have hentry : (r.put m.channelId e).entry m.channelId = e := entry_put_self _ _ _
      have hrounds : m.payload.length - (m.chunkPayload chunkSize 0).length ≤
          (tail ++ (m.chunkPayload chunkSize 0 ++
            (m.continuations chunkSize ts more (m.chunkPayload chunkSize 0).length ++
              rest))).length := by
        have hcost := length_continuations hcs m ts hmore
        simp only [List.length_append, hcost, continuationCost]
        lia
      obtain ⟨n, q, prevPkt', hr, hq, hsettled, hother⟩ :=
        readInternal_continuations hcs hc ts rest p' (by rw [hentry]; exact hparked) hlt hmore
          hrounds
      refine ⟨n, q, prevPkt', ?_, hq, hsettled, fun c hne => ?_⟩
      · rw [readInternal_of_eagain hread
          (by simp only [Message.continuations, if_pos hlt, List.cons_append]; rfl), ← hr,
          List.append_assoc]
      · rw [hother c hne, entry_put_of_ne _ _ hne]
    · obtain ⟨n, q, prevPkt', hr, hq⟩ := hfirst.readDone hlt
      refine ⟨n, q, prevPkt', ?_, hq⟩
      rw [readInternal_of_ok hr]
      simp [Message.continuations, if_neg hlt]
  obtain ⟨n, p', r', hr, hread, hsettled, hother⟩ := hdone
  refine ⟨n, p', r', hr, hread, fun c => ?_⟩
  obtain ⟨-, hsynced, hwrite⟩ := entry_write chunkSize m w
  by_cases hc : c = m.channelId
  · subst hc
    exact hsynced _ _ hsettled hsettled.tsField
  · rw [hother c hc, hwrite c hc]
    exact hsync c

end FFmpeg.Libavformat.Rtmp
