import Mathlib.Tactic
import FFmpeg.Libavformat.RtmpPktSync

/-!
# How many bytes an RTMP read takes

A lower bound on the bytes that `ff_rtmp_packet_read_internal` consumes before
it returns a packet of a given channel id of 64 or more.  The header of every
chunk of such a channel has at least one byte more than the marker byte the
writer sends, so a read that starts at a marker runs out of bytes.
-/

namespace FFmpeg.Libavformat.Rtmp

open Common Libavutil

/-- The length of the extended timestamp that goes with a timestamp field. -/
def extendedLength (tsField : UInt32) : Nat :=
  if tsField = 0xFFFFFF then 4 else 0

theorem length_putExtendedTs (tsField timestamp : UInt32) :
    (putExtendedTs tsField timestamp).length = extendedLength tsField := by
  unfold putExtendedTs extendedLength
  split <;> simp

theorem ffurlReadComplete_some {h buf rest : Bytes} {n : Nat}
    (heq : ffurlReadComplete h n = some (buf, rest)) : rest.length + n = h.length := by
  unfold ffurlReadComplete at heq
  split at heq
  · simp only [Option.some.injEq, Prod.mk.injEq] at heq
    rw [← heq.2, List.length_drop]
    lia
  · cases heq

variable {hdr : UInt8}

theorem readChannelId_some {h rest : Bytes} {c w : Nat}
    (heq : readChannelId hdr h = some (c, w, rest)) :
    rest.length ≤ h.length ∧ (64 ≤ c → rest.length + 1 ≤ h.length) := by
  have hbits : (hdr &&& 0x3F).toNat ≤ 63 := by
    rw [UInt8.toNat_and]
    exact Nat.and_le_right
  unfold readChannelId at heq
  dsimp only at heq
  split at heq
  · simp only [Option.bind_eq_bind, Option.bind_eq_some_iff] at heq
    obtain ⟨⟨buf, r⟩, hread, heq⟩ := heq
    have hlen := ffurlReadComplete_some hread
    simp only [Option.some.injEq, Prod.mk.injEq] at heq
    obtain ⟨-, -, rfl⟩ := heq
    lia
  · simp only [Option.some.injEq, Prod.mk.injEq] at heq
    obtain ⟨rfl, -, rfl⟩ := heq
    lia

variable {prev : RTMPPacket}

/-- A one-byte header takes its fields from the history; any other carries at
least the timestamp field. -/
theorem readMessageHeader_some {fmt : RTMPPacketSize} {h rest : Bytes} {m : MessageHeader}
    (heq : readMessageHeader prev fmt h = some (m, rest)) :
    if fmt = .oneByte then m.tsField = prev.tsField ∧ rest = h
      else rest.length + 3 ≤ h.length := by
  unfold readMessageHeader at heq
  split
  · next hone =>
    simp only [if_pos hone, Option.some.injEq, Prod.mk.injEq] at heq
    obtain ⟨rfl, rfl⟩ := heq
    exact ⟨rfl, rfl⟩
  · next hone =>
    simp only [if_neg hone, Option.bind_eq_bind, Option.bind_eq_some_iff] at heq
    obtain ⟨⟨buf₁, r₁⟩, h₁, heq⟩ := heq
    have hlen₁ := ffurlReadComplete_some h₁
    by_cases hfour : fmt = .fourBytes
    · simp only [if_pos hfour, Option.some.injEq, Prod.mk.injEq] at heq
      obtain ⟨-, rfl⟩ := heq
      lia
    · simp only [if_neg hfour, Option.bind_eq_some_iff] at heq
      obtain ⟨⟨buf₂, r₂⟩, h₂, ⟨buf₃, r₃⟩, h₃, heq⟩ := heq
      have hlen₂ : r₂.length + 3 = r₁.length := ffurlReadComplete_some h₂
      have hlen₃ : r₃.length + 1 = r₂.length := ffurlReadComplete_some h₃
      by_cases htwelve : fmt = .twelveBytes
      · simp only [if_pos htwelve, Option.bind_eq_some_iff] at heq
        obtain ⟨⟨buf₄, r₄⟩, h₄, heq⟩ := heq
        have hlen₄ : r₄.length + 4 = r₃.length := ffurlReadComplete_some h₄
        simp only [Option.some.injEq, Prod.mk.injEq] at heq
        obtain ⟨-, rfl⟩ := heq
        lia
      · simp only [if_neg htwelve, Option.some.injEq, Prod.mk.injEq] at heq
        obtain ⟨-, rfl⟩ := heq
        lia

theorem readTsValue_some {tsField ts : UInt32} {h rest : Bytes}
    (heq : readTsValue tsField h = some (ts, rest)) :
    rest.length + extendedLength tsField = h.length := by
  unfold readTsValue at heq
  unfold extendedLength
  split
  · next hfull =>
    simp only [if_pos hfull, Option.bind_eq_bind, Option.bind_eq_some_iff] at heq
    obtain ⟨⟨buf, r⟩, hread, heq⟩ := heq
    simp only [Option.some.injEq, Prod.mk.injEq] at heq
    obtain ⟨-, rfl⟩ := heq
    exact ffurlReadComplete_some hread
  · next hfull =>
    simp only [if_neg hfull, Option.some.injEq, Prod.mk.injEq] at heq
    obtain ⟨-, rfl⟩ := heq
    lia

/-- The result of a read that goes on: a packet or the request for more. -/
def Proceeds (r : Except AVERROR Nat) : Prop :=
  r = .error .eagain ∨ ∃ n, r = .ok n

/-- The entry of an unfinished message is `off` payload bytes further. -/
structure Advanced (e e' : RTMPPacket) (off : Nat) : Prop where
  read : e'.read ≠ 0
  size : e'.size = e.size
  offset : e'.offset = off
  tsField : e'.tsField = e.tsField

variable {chunkSize : Nat} {r : Except AVERROR Nat}

theorem readChunkData_cases {channelId : Nat} {p : RTMPPacket} {h : Bytes} {prevPkt : History}
    {s' : Reader} (heq : readChunkData chunkSize channelId p prev h prevPkt = (r, s'))
    (hr : Proceeds r) :
    s'.h.length + min (prev.size - p.offset) chunkSize = h.length ∧ s'.p.channelId = p.channelId ∧
      ∃ e, s'.prevPkt = prevPkt.set channelId e ∧ e.channelId = prev.channelId ∧
        (r = .error .eagain → p.offset + min (prev.size - p.offset) chunkSize < prev.size ∧
          (p.read ≠ 0 → Advanced prev e (p.offset + min (prev.size - p.offset) chunkSize))) ∧
        (∀ n, r = .ok n → prev.size ≤ p.offset + min (prev.size - p.offset) chunkSize) := by
  unfold readChunkData at heq
  cases hread : ffurlReadComplete h (min (prev.size - p.offset) chunkSize) with
  | none =>
      simp only [hread, Prod.mk.injEq] at heq
      obtain ⟨rfl, -⟩ := heq
      rcases hr with h' | ⟨n, h'⟩ <;> cases h'
  | some q =>
      obtain ⟨buf, rest⟩ := q
      have hlen := ffurlReadComplete_some hread
      simp only [hread] at heq
      split at heq
      · next hmore =>
        simp only [Prod.mk.injEq] at heq
        obtain ⟨rfl, rfl⟩ := heq
        refine ⟨hlen, rfl, _, rfl, rfl, fun _ => ⟨by lia, fun hp => ⟨?_, rfl, rfl, rfl⟩⟩, ?_⟩
        · show p.read + _ ≠ 0
          lia
        · intro n h'
          cases h'
      · next hdone =>
        simp only [Prod.mk.injEq] at heq
        obtain ⟨rfl, rfl⟩ := heq
        refine ⟨hlen, rfl, _, rfl, rfl, ?_, fun n _ => by lia⟩
        intro h'
        cases h'

/-- Every unfinished message is filed under its own channel id. -/
def Filed (prevPkt : History) : Prop :=
  ∀ c, (prevPkt.entry c).read ≠ 0 → (prevPkt.entry c).channelId = c

/-- The entry of a chunk's channel that holds an unfinished message moves on by
the chunk's payload, for at least as many header bytes as listed. -/
structure ChunkTaken (chunkSize : Nat) (hdr : UInt8) (s s' : Reader) (r : Except AVERROR Nat)
    (c : Nat) : Prop where
  cost : s'.h.length + min ((s.prevPkt.entry c).size - (s.prevPkt.entry c).offset) chunkSize +
      extendedLength (s.prevPkt.entry c).tsField +
      (if RTMPPacketSize.ofHdr hdr = .oneByte then 1 else 0) ≤ s.h.length
  advanced : r = .error .eagain → Advanced (s.prevPkt.entry c) (s'.prevPkt.entry c)
      ((s.prevPkt.entry c).offset +
        min ((s.prevPkt.entry c).size - (s.prevPkt.entry c).offset) chunkSize)
  unfinished : r = .error .eagain → (s.prevPkt.entry c).offset +
      min ((s.prevPkt.entry c).size - (s.prevPkt.entry c).offset) chunkSize <
      (s.prevPkt.entry c).size
  finished : ∀ n, r = .ok n → (s.prevPkt.entry c).size ≤ (s.prevPkt.entry c).offset +
      min ((s.prevPkt.entry c).size - (s.prevPkt.entry c).offset) chunkSize

theorem startChunk_fst {channelId : Nat} (w : Nat) (m : MessageHeader) (ts : UInt32)
    (p : RTMPPacket) (hfiled : prev.read ≠ 0 → prev.channelId = channelId) :
    (startChunk channelId m ts w p prev).1.channelId = channelId ∧
      (prev.read ≠ 0 → (startChunk channelId m ts w p prev).1.offset = prev.offset ∧
        (startChunk channelId m ts w p prev).1.read ≠ 0) := by
  unfold startChunk
  by_cases hidle : prev.read = 0
  · simp [hidle, ffRtmpPacketCreate]
  · have hread : prev.read + w ≠ 0 := by lia
    simp only [if_neg hidle]
    exact ⟨hfiled hidle, fun _ => by simpa using hread⟩

theorem startChunk_snd (channelId w : Nat) (m : MessageHeader) (ts : UInt32)
    (p prev : RTMPPacket) :
    (startChunk channelId m ts w p prev).2.channelId = channelId ∧
      (startChunk channelId m ts w p prev).2.size = m.size ∧
      (prev.read ≠ 0 → (startChunk channelId m ts w p prev).2.tsField = prev.tsField) := by
  unfold startChunk
  by_cases hidle : prev.read = 0 <;> simp [hidle]

/-- What one chunk does to the reader, whatever bytes it is fed: only the entry
of the chunk's own channel changes. -/
theorem readOneChunk_cases {s s' : Reader} (heq : rtmpPacketReadOneChunk chunkSize hdr s = (r, s'))
    (hr : Proceeds r) (hfiled : Filed s.prevPkt) :
    ∃ c, s'.p.channelId = c ∧ s'.h.length ≤ s.h.length ∧ Filed s'.prevPkt ∧
      (∀ c', c' ≠ c → s'.prevPkt.entry c' = s.prevPkt.entry c') ∧
      ((s.prevPkt.entry c).read ≠ 0 → 64 ≤ c → ChunkTaken chunkSize hdr s s' r c) := by
  unfold rtmpPacketReadOneChunk at heq
  cases hchannel : readChannelId hdr s.h with
  | none =>
      simp only [hchannel, Prod.mk.injEq] at heq
      obtain ⟨rfl, -⟩ := heq
      rcases hr with h' | ⟨n, h'⟩ <;> cases h'
  | some q =>
    obtain ⟨c, w, h₁⟩ := q
    obtain ⟨hle₁, hlt₁⟩ := readChannelId_some hchannel
    simp only [hchannel, entry_checkAllocArray] at heq
    cases hheader : readMessageHeader (s.prevPkt.entry c) (RTMPPacketSize.ofHdr hdr) h₁ with
    | none =>
        simp only [hheader, Prod.mk.injEq] at heq
        obtain ⟨rfl, -⟩ := heq
        rcases hr with h' | ⟨n, h'⟩ <;> cases h'
    | some q =>
      obtain ⟨m, h₂⟩ := q
      have hcost₂ := readMessageHeader_some hheader
      simp only [hheader] at heq
      cases hts : readTsValue m.tsField h₂ with
      | none =>
          simp only [hts, Prod.mk.injEq] at heq
          obtain ⟨rfl, -⟩ := heq
          rcases hr with h' | ⟨n, h'⟩ <;> cases h'
      | some q =>
        obtain ⟨ts, h₃⟩ := q
        have hcost₃ := readTsValue_some hts
        simp only [hts] at heq
        split at heq
        · simp only [Prod.mk.injEq] at heq
          obtain ⟨rfl, -⟩ := heq
          rcases hr with h' | ⟨n, h'⟩ <;> cases h'
        · next hmatch =>
          obtain ⟨hlen, hchan, e, hset, hfile, hagain, hok⟩ := readChunkData_cases heq hr
          obtain ⟨hstart, hresume⟩ := startChunk_fst (w + m.written) m
            (if RTMPPacketSize.ofHdr hdr = .twelveBytes then ts
              else ts + (s.prevPkt.entry c).timestamp) s.p (hfiled c)
          obtain ⟨hentry, hsize, htsField⟩ := startChunk_snd c (w + m.written) m
            (if RTMPPacketSize.ofHdr hdr = .twelveBytes then ts
              else ts + (s.prevPkt.entry c).timestamp) s.p (s.prevPkt.entry c)
          have hput : s'.prevPkt = s.prevPkt.put c e := hset
          have hother : ∀ c', c' ≠ c → s'.prevPkt.entry c' = s.prevPkt.entry c' :=
            fun c' hne => hput ▸ entry_put_of_ne _ _ hne
          have hheaderLe : h₂.length ≤ h₁.length := by
            split at hcost₂
            · exact hcost₂.2 ▸ le_rfl
            · lia
          refine ⟨c, hchan.trans hstart, by lia, ?_, hother, fun hread hc => ?_⟩
          · intro c' hread
            by_cases hne : c' = c
            · subst hne
              rw [hput, entry_put_self, hfile, hentry]
            · rw [hother c' hne] at hread ⊢
              exact hfiled c' hread
          · obtain ⟨hoffset, hpread⟩ := hresume hread
            have hsame : m.size = (s.prevPkt.entry c).size := by
              by_contra hne
              exact hmatch ⟨hread, hne⟩
            have hself : s'.prevPkt.entry c = e := by rw [hput, entry_put_self]
            rw [hsize, hoffset, hsame] at hlen hagain hok
            refine ⟨?_, fun h' => ?_, fun h' => (hagain h').1, hok⟩
            · have hext := hlt₁ hc
              have hfour : extendedLength (s.prevPkt.entry c).tsField ≤ 4 := by
                unfold extendedLength
                split <;> lia
              by_cases hone : RTMPPacketSize.ofHdr hdr = .oneByte
              · rw [if_pos hone] at hcost₂ ⊢
                rw [hcost₂.1, hcost₂.2] at hcost₃
                lia
              · rw [if_neg hone] at hcost₂ ⊢
                lia
            · obtain ⟨h₁, h₂, h₃, h₄⟩ := (hagain h').2 hpread
              rw [hself]
              exact ⟨h₁, h₂.trans (hsize.trans hsame), h₃, h₄.trans (htsField hread)⟩

/-! ## A whole read -/

/-- A read that returns a packet of a channel id of 64 or more, of which `rest`
payload bytes were missing, has taken at least the bytes the writer sends for
them.  The induction is on the rounds; a chunk of another channel leaves the
entry alone. -/
theorem readInternal_cost (hcs : 1 ≤ chunkSize) {c : Nat} (hc : 64 ≤ c) {rounds n : Nat}
    {s s' : Reader} (hfiled : Filed s.prevPkt)
    (heq : ffRtmpPacketReadInternal chunkSize rounds hdr s = (.ok n, s'))
    (hchannel : s'.p.channelId = c) (hread : (s.prevPkt.entry c).read ≠ 0)
    (hrest : (s.prevPkt.entry c).offset < (s.prevPkt.entry c).size) :
    s'.h.length + continuationCost chunkSize (extendedLength (s.prevPkt.entry c).tsField)
        ((s.prevPkt.entry c).size - (s.prevPkt.entry c).offset) +
        (if RTMPPacketSize.ofHdr hdr = .oneByte then 1 else 0) ≤ s.h.length + 1 := by
  induction rounds generalizing hdr s with
  | zero => simp [ffRtmpPacketReadInternal] at heq
  | succ rounds ih =>
    have hstep := continuationCost_step hcs (extendedLength (s.prevPkt.entry c).tsField)
      (show 0 < (s.prevPkt.entry c).size - (s.prevPkt.entry c).offset by lia)
    cases hchunk : rtmpPacketReadOneChunk chunkSize hdr s with
    | mk r t =>
      simp only [ffRtmpPacketReadInternal, hchunk] at heq
      split at heq
      · next hagain =>
        -- the chunk leaves its message unfinished and the next first byte is taken
        simp only [Prod.mk.injEq] at hagain
        obtain ⟨rfl, rfl⟩ := hagain
        obtain ⟨c', -, hle, hfiled', hother, htaken⟩ :=
          readOneChunk_cases hchunk (Or.inl rfl) hfiled
        split at heq
        · simp at heq
        · next hdr' h' hnext =>
          rw [hnext, List.length_cons] at hle
          by_cases hsame : c' = c
          · subst hsame
            obtain ⟨hcost, hadvanced, hunfinished, -⟩ := htaken hread hc
            obtain ⟨hread', hsize', hoffset', htsField'⟩ := hadvanced rfl
            have hbound := ih (s := { t with h := h' }) hfiled' heq hread' (by
              show (t.prevPkt.entry c').offset < (t.prevPkt.entry c').size
              rw [hsize', hoffset']
              exact hunfinished rfl)
            simp only [hsize', hoffset', htsField'] at hbound
            rw [hnext, List.length_cons] at hcost
            have hsub : (s.prevPkt.entry c').size - ((s.prevPkt.entry c').offset +
                min ((s.prevPkt.entry c').size - (s.prevPkt.entry c').offset) chunkSize) =
                (s.prevPkt.entry c').size - (s.prevPkt.entry c').offset -
                min ((s.prevPkt.entry c').size - (s.prevPkt.entry c').offset) chunkSize := by
              lia
            rw [hsub] at hbound
            lia
          · have hentry := hother c (Ne.symm hsame)
            have hbound := ih (s := { t with h := h' }) hfiled'
              heq (by show (t.prevPkt.entry c).read ≠ 0; rw [hentry]; exact hread)
              (by show (t.prevPkt.entry c).offset < (t.prevPkt.entry c).size
                  rw [hentry]; exact hrest)
            simp only [hentry] at hbound
            split <;> lia
      · -- the chunk completes a packet, which must be the one returned
        simp only [Prod.mk.injEq] at heq
        obtain ⟨rfl, rfl⟩ := heq
        obtain ⟨c', hchan, -, -, -, htaken⟩ := readOneChunk_cases hchunk (Or.inr ⟨n, rfl⟩) hfiled
        obtain rfl : c' = c := hchan.symm.trans hchannel
        obtain ⟨hcost, -, -, hfinished⟩ := htaken hread hc
        have hdone := hfinished n rfl
        have hzero : (s.prevPkt.entry c').size - (s.prevPkt.entry c').offset -
            min ((s.prevPkt.entry c').size - (s.prevPkt.entry c').offset) chunkSize = 0 := by
          lia
        rw [hzero, continuationCost_zero hcs] at hstep
        lia

end FFmpeg.Libavformat.Rtmp
