import Mathlib.Tactic
import FFmpeg.Libavformat.RtmpPktCost

/-!
# Round trips through the RTMP chunk framing

A sequence of messages is written with one history and read back with another.
All messages come back exactly when no message on a channel id of 64 or more
needs a continuation chunk: the marker byte `0xC0 | channel_id` has room for
the ids below 64 only, while the first byte of a message is written with care
for the larger ids.
-/

namespace FFmpeg.Libavformat.Rtmp

open Common Libavutil

/-- `ff_rtmp_packet_write` for one message after the other. -/
def writeAll (chunkSize : Nat) : List Message → History → Bytes × History
  | [], prevPkt => ([], prevPkt)
  | m :: ms, prevPkt =>
    let w := ffRtmpPacketWrite chunkSize m.toPacket prevPkt
    let (out, prevPkt) := writeAll chunkSize ms w.prevPkt
    (w.out ++ out, prevPkt)

/-- `ff_rtmp_packet_read` called `n` times, each time with a zeroed packet: the
packets returned and the bytes left over, or `none` if a call failed. -/
def readAll (chunkSize : Nat) : Nat → Bytes → History → Option (List RTMPPacket × Bytes)
  | 0, h, _ => some ([], h)
  | n + 1, h, prevPkt =>
    match ffRtmpPacketRead chunkSize ⟨h, {}, prevPkt⟩ with
    | (.ok _, s) => (readAll chunkSize n s.h s.prevPkt).map fun (ps, h) => (s.p :: ps, h)
    | (.error _, _) => none

/-- The messages written are the packets read, and all bytes are consumed. -/
def RoundTrips (chunkSize : Nat) (ms : List Message) : Prop :=
  ∃ ps, readAll chunkSize ms.length (writeAll chunkSize ms []).1 [] = some (ps, []) ∧
    List.Forall₂ Message.ReadAs ms ps

/-- Every initial part of the sequence round-trips: the reader has kept up with
the writer after each message. -/
def RoundTripsThroughout (chunkSize : Nat) (ms : List Message) : Prop :=
  ∀ k, RoundTrips chunkSize (ms.take k)

/-- A message that the marker byte of its continuation chunks can name, or that
needs no continuation chunk. -/
def Message.Framable (m : Message) (chunkSize : Nat) : Prop :=
  m.channelId < 64 ∨ m.payload.length ≤ chunkSize

theorem writeAll_append (chunkSize : Nat) (ms ms' : List Message) (prevPkt : History) :
    (writeAll chunkSize (ms ++ ms') prevPkt).1 =
      (writeAll chunkSize ms prevPkt).1 ++
        (writeAll chunkSize ms' (writeAll chunkSize ms prevPkt).2).1 := by
  induction ms generalizing prevPkt with
  | nil => rfl
  | cons m ms ih => simp [writeAll, ih, List.append_assoc]

variable {chunkSize : Nat}

/-- Framable messages are read back from histories that are in step, and what
follows them is read with histories that are in step again. -/
theorem readAll_writeAll (hcs : 1 ≤ chunkSize) {ms : List Message}
    (hms : ∀ m ∈ ms, m.Framable chunkSize) {w r : History} (hsync : Synced w r) (rest : Bytes)
    (n : Nat) :
    ∃ ps r', Synced (writeAll chunkSize ms w).2 r' ∧ List.Forall₂ Message.ReadAs ms ps ∧
      readAll chunkSize (ms.length + n) ((writeAll chunkSize ms w).1 ++ rest) r =
        (readAll chunkSize n rest r').map fun (qs, h) => (ps ++ qs, h) := by
  induction ms generalizing w r with
  | nil =>
      refine ⟨[], r, hsync, .nil, ?_⟩
      simp [writeAll]
  | cons m ms ih =>
      obtain ⟨k, p, r₁, hread, hm, hsync₁⟩ := read_write hcs hsync
        (hms m List.mem_cons_self) {} ((writeAll chunkSize ms
          (ffRtmpPacketWrite chunkSize m.toPacket w).prevPkt).1 ++ rest)
      obtain ⟨ps, r', hsync', hps, hall⟩ :=
        ih (fun m' hm' => hms m' (List.mem_cons_of_mem _ hm')) hsync₁
      refine ⟨p :: ps, r', hsync', .cons hm hps, ?_⟩
      have hlen : (m :: ms).length + n = (ms.length + n) + 1 := by
        simp only [List.length_cons]
        lia
      simp only [hlen, readAll, writeAll, List.append_assoc, hread, hall, Option.map_map]
      rfl

theorem markerBits_high (c : Nat) : (UInt8.ofNat (0xC0 ||| c) >>> 6).toNat = 3 := by
  have hhigh : (0xC0 ||| c) / 2 ^ 6 % 2 ^ 2 = 3 := by
    apply Nat.eq_of_testBit_eq
    intro i
    have hthree : ∀ i, Nat.testBit 3 i = decide (i < 2) := Nat.testBit_two_pow_sub_one 2
    have hmarker : i < 2 → Nat.testBit 0xC0 (i + 6) = true := by
      intro hi
      interval_cases i <;> rfl
    rw [Nat.testBit_mod_two_pow, Nat.testBit_div_two_pow, Nat.testBit_or, hthree]
    by_cases hi : i < 2
    · simp [hi, hmarker hi]
    · simp [hi]
  rw [UInt8.toNat_shiftRight, UInt8.toNat_ofNat']
  have hmod : (6 : UInt8).toNat % 8 = 6 := rfl
  rw [hmod, Nat.shiftRight_eq_div_pow]
  lia

theorem ofHdr_marker (c : Nat) : RTMPPacketSize.ofHdr (UInt8.ofNat (0xC0 ||| c)) = .oneByte := by
  simp only [RTMPPacketSize.ofHdr, markerBits_high]

variable {m : Message}

/-- A message on a channel id of 64 or more that needs a continuation chunk is
not read back from its own bytes: they run out. -/
theorem not_read_write (hcs : 1 ≤ chunkSize) {w r : History} (hsync : Synced w r)
    (hm : ¬ m.Framable chunkSize) (p : RTMPPacket) {n : Nat} {s' : Reader}
    (hread : ffRtmpPacketRead chunkSize ⟨(ffRtmpPacketWrite chunkSize m.toPacket w).out, p, r⟩ = (.ok n, s')) :
    s'.p.channelId ≠ m.channelId := by
  intro hchannel
  obtain ⟨hdr, tail, more, hmore, hout, hchunk⟩ := read_firstChunk hcs hsync m
  have hlen := m.length_chunkPayload chunkSize 0
  have hbig : 64 ≤ m.channelId ∧ chunkSize < m.payload.length := by
    unfold Message.Framable at hm
    lia
  set ts := sentTimestamp m.toPacket (w.entry m.channelId) with hts
  have hlt : (m.chunkPayload chunkSize 0).length < m.payload.length := by lia
  have hfirst := hchunk p (m.continuations chunkSize ts more (m.chunkPayload chunkSize 0).length)
  rw [ChunkOutcome, if_pos hlt] at hfirst
  obtain ⟨p', e, hagain, hparked⟩ := hfirst
  have hentry : (r.put m.channelId e).entry m.channelId = e := entry_put_self _ _ _
  have hcost := length_continuations hcs m ts hmore
  have hcont : m.continuations chunkSize ts more (m.chunkPayload chunkSize 0).length =
      UInt8.ofNat (0xC0 ||| m.channelId) :: (putExtendedTs (sentTsField ts) ts ++
        (writeChunks chunkSize (m.sentPacket (sentTsField ts)) ts more
          (m.chunkPayload chunkSize 0).length).1) := by
    rw [Message.continuations, if_pos hlt]
  have hfiled : Filed (r.put m.channelId e) := by
    intro c hc
    by_cases hne : c = m.channelId
    · rw [hne, hentry, hparked.channelId]
    · rw [entry_put_of_ne _ _ hne] at hc
      exact absurd (hsync c).read hc
  rw [hout] at hread
  simp only [ffRtmpPacketRead] at hread
  rw [readInternal_of_eagain hagain hcont] at hread
  have hbound := readInternal_cost hcs hbig.1 hfiled hread hchannel
    (by rw [hentry]; exact hparked.read)
    (by rw [hentry, hparked.offset, hparked.size]; exact hlt)
  simp only [hentry, hparked.offset, hparked.size, hparked.tsField, ofHdr_marker,
    if_true, ← length_putExtendedTs _ ts, ← hcost, hcont, List.length_cons] at hbound
  lia

theorem readAll_one {h rest : Bytes} {r : History} {p : RTMPPacket}
    (heq : readAll chunkSize 1 h r = some ([p], rest)) :
    ∃ n s, ffRtmpPacketRead chunkSize ⟨h, {}, r⟩ = (.ok n, s) ∧ s.p = p := by
  simp only [readAll] at heq
  split at heq
  · next n s hread =>
    simp only [Option.map_some, Option.some.injEq, Prod.mk.injEq, List.cons.injEq, and_true] at heq
    exact ⟨n, s, hread, heq.1⟩
  · cases heq

theorem not_roundTrips (hcs : 1 ≤ chunkSize) {pre : List Message}
    (hpre : ∀ m' ∈ pre, m'.Framable chunkSize) (hm : ¬ m.Framable chunkSize) :
    ¬ RoundTrips chunkSize (pre ++ [m]) := by
  rintro ⟨ps, hread, hps⟩
  obtain ⟨qs, r', hsync, hqs, hall⟩ :=
    readAll_writeAll hcs hpre synced_nil (writeAll chunkSize [m] (writeAll chunkSize pre []).2).1 1
  rw [writeAll_append, List.length_append, List.length_singleton, hall] at hread
  obtain ⟨⟨os, rest⟩, hlast, heq⟩ := Option.map_eq_some_iff.mp hread
  simp only [Prod.mk.injEq] at heq
  obtain ⟨rfl, rfl⟩ := heq
  -- the last packet would have to be the message that cannot be framed
  obtain ⟨p, rfl, hp⟩ : ∃ p, os = [p] ∧ m.ReadAs p := by
    have hlast := List.forall₂_drop pre.length hps
    rw [List.drop_left, hqs.length_eq, List.drop_left] at hlast
    cases hlast with
    | cons hp hnil =>
      cases hnil
      exact ⟨_, rfl, hp⟩
  obtain ⟨n, s, hone, rfl⟩ := readAll_one hlast
  have hout : (writeAll chunkSize [m] (writeAll chunkSize pre []).2).1 =
      (ffRtmpPacketWrite chunkSize m.toPacket (writeAll chunkSize pre []).2).out := by
    simp [writeAll]
  rw [hout] at hone
  exact not_read_write hcs hsync hm {} hone hp.channelId

/-- **Exactly the framable sequences survive the chunk framing.**  Every initial
part of a sequence of messages is read back from the bytes written for it, each
message with its channel id, type, timestamp, extra field and payload and with
no byte left over, if and only if no message on a channel id of 64 or more is
longer than a chunk. -/
theorem roundTrips_iff {chunkSize : Nat} (hcs : 1 ≤ chunkSize) (ms : List Message) :
    RoundTripsThroughout chunkSize ms ↔
      ∀ m ∈ ms, m.channelId < 64 ∨ m.payload.length ≤ chunkSize := by
  constructor
  · intro htrips
    by_contra hbad
    push Not at hbad
    obtain ⟨bad, hmem, hbig⟩ := hbad
    have hfound : (ms.find? fun m => 64 ≤ m.channelId ∧ chunkSize < m.payload.length).isSome := by
      rw [List.find?_isSome]
      exact ⟨bad, hmem, by simpa using hbig⟩
    obtain ⟨m, hfind⟩ := Option.isSome_iff_exists.mp hfound
    obtain ⟨hm, pre, post, rfl, hpre⟩ := List.find?_eq_some_iff_append.mp hfind
    have hpre' : ∀ m' ∈ pre, m'.Framable chunkSize := by
      intro m' hm'
      have := hpre m' hm'
      simp only [Bool.not_eq_true', decide_eq_false_iff_not] at this
      unfold Message.Framable
      lia
    have hm' : ¬ m.Framable chunkSize := by
      have := of_decide_eq_true hm
      unfold Message.Framable
      lia
    have htake : (pre ++ m :: post).take (pre.length + 1) = pre ++ [m] := by
      simp [List.take_append]
    apply not_roundTrips hcs hpre' hm'
    rw [← htake]
    exact htrips _
  · intro hms k
    have htake : ∀ m ∈ ms.take k, m.Framable chunkSize :=
      fun m hm => hms m (List.mem_of_mem_take hm)
    obtain ⟨ps, r', -, hps, hall⟩ := readAll_writeAll hcs htake synced_nil [] 0
    refine ⟨ps, ?_, hps⟩
    simpa [readAll] using hall

/-- The framing at the default chunk size of 128 bytes, for two messages that
share channel 3 and one on channel 70. -/
theorem roundTrips_iff_defaultChunkSize :
    RoundTripsThroughout 128
      [⟨3, 8, 100, 1, [1, 2, 3], by decide, by decide, by decide⟩,
        ⟨3, 8, 200, 1, [4, 5, 6], by decide, by decide, by decide⟩,
        ⟨70, 9, 0, 1, [7], by decide, by decide, by decide⟩] :=
  (roundTrips_iff (by decide) _).mpr (by decide)

/-- A message of two bytes on channel 64 at chunk size 1 does not come back: its
continuation marker reads as a header of a channel id that takes one more byte. -/
theorem not_roundTrips_channel64 :
    ¬ ∀ (chunkSize : Nat) (ms : List Message), 1 ≤ chunkSize → RoundTrips chunkSize ms := by
  intro h
  obtain ⟨ps, hread, -⟩ :=
    h 1 [⟨64, 9, 0, 1, [7, 0], by decide, by decide, by decide⟩] (by decide)
  have hnone : readAll 1 1 (writeAll 1
      [⟨64, 9, 0, 1, [7, 0], by decide, by decide, by decide⟩] []).1 [] = none := by
    decide
  rw [List.length_singleton, hnone] at hread
  cases hread

end FFmpeg.Libavformat.Rtmp
