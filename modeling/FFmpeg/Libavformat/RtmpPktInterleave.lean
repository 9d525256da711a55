import Mathlib.Tactic
import FFmpeg.Libavformat.RtmpPktRoundTrip

/-!
# Reassembling interleaved RTMP chunk streams

Messages on different channels may be sent with their chunks mixed.  The part
of a message that has been read waits in the history entry of its channel, so
whatever the mixture, each message is returned when its last chunk arrives.
-/

namespace FFmpeg.Libavformat.Rtmp

open Common Libavutil

/-! ## Chunk streams -/

/-- The bytes of the chunk `index` of a message: a first chunk with a 12-byte
header, or a continuation chunk. -/
def Message.chunkBytes (m : Message) (chunkSize index : Nat) : Bytes :=
  let tsField := sentTsField m.timestamp
  if index = 0 then
    putChannelId m.channelId .twelveBytes ++ putMessageHeader (m.sentPacket tsField) .twelveBytes ++
      putExtendedTs tsField m.timestamp ++ m.chunkPayload chunkSize 0
  else
    UInt8.ofNat (0xC0 ||| m.channelId) ::
      (putExtendedTs tsField m.timestamp ++ m.chunkPayload chunkSize (index * chunkSize))

/-- The number of chunks of a message; an empty payload still takes one. -/
def Message.chunkCount (m : Message) (chunkSize : Nat) : Nat :=
  (m.payload.length - 1) / chunkSize + 1

/-- A chunk: its message and its number within the message. -/
abbrev Chunk := Message × Nat

/-- The bytes of a string of chunks. -/
def chunksBytes (chunkSize : Nat) (l : List Chunk) : Bytes :=
  l.flatMap fun c => c.1.chunkBytes chunkSize c.2

/-- `l` consists of the chunks of the messages `ms`, those of one message in
their order. -/
structure Interleaving (chunkSize : Nat) (ms : List Message) (l : List Chunk) : Prop where
  mem : ∀ c ∈ l, c.1 ∈ ms
  filter : ∀ m ∈ ms, l.filter (fun c => c.1 = m) =
    (List.range (m.chunkCount chunkSize)).map fun i => (m, i)

/-- The messages of `l` in the order of their last chunks. -/
def finished (chunkSize : Nat) (l : List Chunk) : List Message :=
  (l.filter fun c => c.2 + 1 = c.1.chunkCount chunkSize).map Prod.fst

/-! ## One chunk -/

variable {m : Message} {chunkSize index : Nat}

theorem Message.chunkEnd (hcs : 1 ≤ chunkSize) (hindex : index < m.chunkCount chunkSize) :
    index * chunkSize ≤ m.payload.length ∧
      (index * chunkSize + (m.chunkPayload chunkSize (index * chunkSize)).length <
          m.payload.length ↔ index + 1 < m.chunkCount chunkSize) ∧
      (index + 1 < m.chunkCount chunkSize →
        index * chunkSize + (m.chunkPayload chunkSize (index * chunkSize)).length =
          (index + 1) * chunkSize) := by
  have hlen := m.length_chunkPayload chunkSize (index * chunkSize)
  have hsucc : (index + 1) * chunkSize = index * chunkSize + chunkSize := Nat.succ_mul _ _
  have hle : index * chunkSize ≤ m.payload.length - 1 := by
    rw [← Nat.le_div_iff_mul_le (by lia)]
    unfold chunkCount at hindex
    lia
  have hnext : index + 1 < m.chunkCount chunkSize ↔
      (index + 1) * chunkSize ≤ m.payload.length - 1 := by
    rw [← Nat.le_div_iff_mul_le (by lia)]
    unfold chunkCount
    lia
  rw [hnext]
  lia

/-- How far the reader is with a message once `index` of its chunks have been
read: nothing waits in the history, or the message does. -/
def Progress (chunkSize : Nat) (m : Message) (index : Nat) (e : RTMPPacket) : Prop :=
  if index = 0 then e.read = 0
  else Partial m (sentTsField m.timestamp) (index * chunkSize) e

variable {prevPkt : History}

/-- A chunk is read: its message is parked again, or returned after the last
chunk. -/
theorem readOneChunk_chunk (hcs : 1 ≤ chunkSize) (hchannel : m.channelId < 64)
    (hindex : index < m.chunkCount chunkSize)
    (hprogress : Progress chunkSize m index (prevPkt.entry m.channelId)) :
    ∃ hdr tail, m.chunkBytes chunkSize index = hdr :: tail ∧
      ∀ (p : RTMPPacket) (rest : Bytes),
        ChunkOutcome m (sentTsField m.timestamp)
          (index * chunkSize + (m.chunkPayload chunkSize (index * chunkSize)).length) rest prevPkt
          (rtmpPacketReadOneChunk chunkSize hdr ⟨tail ++ rest, p, prevPkt⟩) := by
  unfold Progress at hprogress
  unfold Message.chunkBytes
  by_cases hzero : index = 0
  · subst hzero
    simp only [if_true] at hprogress ⊢
    have hfits : HeaderFits (m.sentPacket (sentTsField m.timestamp))
        (prevPkt.entry m.channelId) .twelveBytes := by
      simp [HeaderFits]
    obtain ⟨hdr, tail, hput, hchunk⟩ := readOneChunk_first hprogress hfits (if_pos rfl) chunkSize
    refine ⟨hdr, tail ++ m.chunkPayload chunkSize 0, by rw [hput]; rfl, fun p rest => ?_⟩
    rw [List.append_assoc, Nat.zero_mul, Nat.zero_add]
    exact hchunk p rest
  · simp only [if_neg hzero] at hprogress ⊢
    refine ⟨_, _, rfl, fun p rest => ?_⟩
    rw [List.append_assoc]
    exact readOneChunk_continuation hchannel hprogress (Message.chunkEnd hcs hindex).1
      chunkSize p rest

/-! ## A suffix of the chunks -/

/-- The chunks still to come and the history the reader has by then. -/
structure Reading (chunkSize : Nat) (ms : List Message) (l : List Chunk) (prevPkt : History) :
    Prop where
  mem : ∀ c ∈ l, c.1 ∈ ms
  rest : ∀ m ∈ ms, ∃ index ≤ m.chunkCount chunkSize,
    l.filter (fun c => c.1 = m) =
      (List.range' index (m.chunkCount chunkSize - index)).map (fun i => (m, i)) ∧
    (index < m.chunkCount chunkSize → Progress chunkSize m index (prevPkt.entry m.channelId))

variable {ms : List Message} {l : List Chunk}

theorem Interleaving.reading (h : Interleaving chunkSize ms l) : Reading chunkSize ms l [] where
  mem := h.mem
  rest m hm := by
    refine ⟨0, Nat.zero_le _, ?_, fun _ => ?_⟩
    · rw [h.filter m hm, List.range_eq_range', Nat.sub_zero]
    · rfl

theorem Reading.head (h : Reading chunkSize ms ((m, index) :: l) prevPkt) :
    index < m.chunkCount chunkSize ∧ Progress chunkSize m index (prevPkt.entry m.channelId) ∧
      l.filter (fun c => c.1 = m) =
        (List.range' (index + 1) (m.chunkCount chunkSize - (index + 1))).map (fun i => (m, i)) := by
  obtain ⟨start, hstart, hfilter, hprogress⟩ := h.rest m (h.mem _ List.mem_cons_self)
  rw [List.filter_cons_of_pos (by simp)] at hfilter
  cases hrest : m.chunkCount chunkSize - start with
  | zero => simp [hrest] at hfilter
  | succ k =>
    simp only [hrest, List.range'_succ, List.map_cons, List.cons.injEq, Prod.mk.injEq,
      true_and] at hfilter
    obtain ⟨rfl, hfilter⟩ := hfilter
    have hlt : index < m.chunkCount chunkSize := by lia
    have hk : k = m.chunkCount chunkSize - (index + 1) := by lia
    exact ⟨hlt, hprogress hlt, hk ▸ hfilter⟩

/-- After a chunk of `m` has been read only the entry of its channel differs,
and it shows the progress of `m` if more of it is to come. -/
theorem Reading.tail {e : RTMPPacket} (hchannels : (ms.map Message.channelId).Nodup)
    (h : Reading chunkSize ms ((m, index) :: l) prevPkt)
    (he : index + 1 < m.chunkCount chunkSize → Progress chunkSize m (index + 1) e) :
    Reading chunkSize ms l (prevPkt.put m.channelId e) where
  mem c hc := h.mem c (List.mem_cons_of_mem _ hc)
  rest m' hm' := by
    obtain ⟨hlt, -, hfilter⟩ := h.head
    by_cases hsame : m' = m
    · subst hsame
      refine ⟨index + 1, hlt, hfilter, fun hmore => ?_⟩
      rw [entry_put_self]
      exact he hmore
    · obtain ⟨start, hstart, hrest, hprogress⟩ := h.rest m' hm'
      rw [List.filter_cons_of_neg (by simpa using Ne.symm hsame)] at hrest
      refine ⟨start, hstart, hrest, fun hmore => ?_⟩
      have hne : m'.channelId ≠ m.channelId := fun heq =>
        hsame (List.inj_on_of_nodup_map hchannels hm' (h.mem _ List.mem_cons_self) heq)
      rw [entry_put_of_ne _ _ hne]
      exact hprogress hmore

/-- One call of `ff_rtmp_packet_read_internal` takes the chunks up to the first
last chunk of a message and returns that message.  The induction is on the
chunks to come. -/
theorem readInternal_reading (hcs : 1 ≤ chunkSize) (hchannels : (ms.map Message.channelId).Nodup)
    (hsmall : ∀ m ∈ ms, m.channelId < 64) (h : Reading chunkSize ms l prevPkt) {hdr : UInt8}
    {bytes : Bytes} (hbytes : chunksBytes chunkSize l = hdr :: bytes) {rounds : Nat}
    (hrounds : l.length ≤ rounds) (p : RTMPPacket) :
    ∃ m post n p' prevPkt',
      ffRtmpPacketReadInternal chunkSize rounds hdr ⟨bytes, p, prevPkt⟩ =
        (.ok n, ⟨chunksBytes chunkSize post, p', prevPkt'⟩) ∧
      finished chunkSize l = m :: finished chunkSize post ∧ m.ReadAs p' ∧
      Reading chunkSize ms post prevPkt' ∧ post.length < l.length := by
  induction l generalizing prevPkt hdr bytes rounds p with
  | nil => simp [chunksBytes] at hbytes
  | cons c l ih =>
    obtain ⟨m, index⟩ := c
    obtain ⟨hlt, hprogress, hfilter⟩ := h.head
    obtain ⟨-, hunfinished, hend⟩ := Message.chunkEnd hcs hlt
    have hm : m ∈ ms := h.mem _ List.mem_cons_self
    obtain ⟨hdr', tail, hchunkBytes, hchunk⟩ :=
      readOneChunk_chunk hcs (hsmall m hm) hlt hprogress
    simp only [chunksBytes, List.flatMap_cons, hchunkBytes, List.cons_append,
      List.cons.injEq] at hbytes
    obtain ⟨rfl, rfl⟩ := hbytes
    obtain ⟨rounds, rfl⟩ : ∃ k, rounds = k + 1 := ⟨rounds - 1, by simp at hrounds; lia⟩
    specialize hchunk p (chunksBytes chunkSize l)
    unfold ChunkOutcome at hchunk
    by_cases hmore : index + 1 < m.chunkCount chunkSize
    · rw [if_pos (hunfinished.mpr hmore), hend hmore] at hchunk
      obtain ⟨p', e, hread, hparked⟩ := hchunk
      have hreading := h.tail hchannels (e := e) fun _ => by
        rw [Progress, if_neg (Nat.succ_ne_zero _)]
        exact hparked
      -- more of `m` is to come, so the bytes do not end here
      obtain ⟨hdr'', bytes', hnext⟩ : ∃ hdr'' bytes', chunksBytes chunkSize l = hdr'' :: bytes' := by
        cases l with
        | nil =>
          have hlen := congrArg List.length hfilter
          simp only [List.filter_nil, List.length_nil, List.length_map, List.length_range'] at hlen
          lia
        | cons c l =>
          obtain ⟨m', index'⟩ := c
          obtain ⟨hlt', hprogress', -⟩ := hreading.head
          obtain ⟨hdr'', tail', heq, -⟩ := readOneChunk_chunk hcs
            (hsmall m' (hreading.mem _ List.mem_cons_self)) hlt' hprogress'
          exact ⟨hdr'', tail' ++ chunksBytes chunkSize l, by
            simp [chunksBytes, List.flatMap_cons, heq]⟩
      obtain ⟨q, post, n, p'', prevPkt', hinternal, hfinished, hq, hpost, hlen⟩ :=
        ih hreading hnext (by simpa using hrounds) p'
      refine ⟨q, post, n, p'', prevPkt', ?_, ?_, hq, hpost, hlen.trans (Nat.lt_succ_self _)⟩
      · exact (readInternal_of_eagain hread hnext).trans hinternal
      · have hnot : index + 1 ≠ m.chunkCount chunkSize := by lia
        simpa [finished, hnot] using hfinished
    · rw [if_neg (fun hlt' => hmore (hunfinished.mp hlt'))] at hchunk
      obtain ⟨n, p', e, hread, hq, -⟩ := hchunk
      have hlast : index + 1 = m.chunkCount chunkSize := by lia
      refine ⟨m, l, n, p', _, readInternal_of_ok hread, ?_, hq,
        h.tail hchannels fun hmore' => absurd hmore' hmore, Nat.lt_succ_self _⟩
      simp [finished, hlast]

theorem Message.chunkBytes_ne_nil (m : Message) (chunkSize index : Nat) :
    m.chunkBytes chunkSize index ≠ [] := by
  unfold Message.chunkBytes putChannelId
  split
  · split
    · simp
    · split <;> simp
  · simp

theorem length_le_chunksBytes (chunkSize : Nat) (l : List Chunk) :
    l.length ≤ (chunksBytes chunkSize l).length := by
  induction l with
  | nil => exact Nat.zero_le _
  | cons c l ih =>
    have hpos := List.length_pos_iff.mpr (c.1.chunkBytes_ne_nil chunkSize c.2)
    unfold chunksBytes at ih ⊢
    rw [List.flatMap_cons, List.length_append, List.length_cons]
    lia

theorem readAll_reading (hcs : 1 ≤ chunkSize) (hchannels : (ms.map Message.channelId).Nodup)
    (hsmall : ∀ m ∈ ms, m.channelId < 64) (h : Reading chunkSize ms l prevPkt) :
    ∃ ps, readAll chunkSize (finished chunkSize l).length (chunksBytes chunkSize l) prevPkt =
      some (ps, []) ∧ List.Forall₂ Message.ReadAs (finished chunkSize l) ps := by
  induction hl : l.length using Nat.strong_induction_on generalizing l prevPkt with
  | _ n ih =>
    cases hbytes : chunksBytes chunkSize l with
    | nil =>
      have hle := length_le_chunksBytes chunkSize l
      rw [hbytes, List.length_nil] at hle
      obtain rfl := List.length_eq_zero_iff.mp (Nat.le_zero.mp hle)
      exact ⟨[], rfl, .nil⟩
    | cons hdr bytes =>
      have hle := length_le_chunksBytes chunkSize l
      rw [hbytes, List.length_cons] at hle
      obtain ⟨m, post, k, p, prevPkt', hread, hfinished, hp, hpost, hlt⟩ :=
        readInternal_reading hcs hchannels hsmall h hbytes hle {}
      obtain ⟨ps, hall, hps⟩ := ih post.length (hl ▸ hlt) hpost rfl
      refine ⟨p :: ps, ?_, hfinished ▸ .cons hp hps⟩
      simp [hfinished, readAll, ffRtmpPacketRead, hread, hall]

theorem Interleaving.finished_perm (hms : ms.Nodup) (h : Interleaving chunkSize ms l) :
    (finished chunkSize l).Perm ms := by
  rw [List.perm_iff_count]
  intro m
  have hcount : (finished chunkSize l).count m =
      (l.filter fun c => c.1 = m).countP fun c => c.2 + 1 = c.1.chunkCount chunkSize := by
    rw [finished, List.count, List.countP_map, List.countP_filter, List.countP_filter]
    refine List.countP_congr fun c _ => ?_
    simp [and_comm]
  rw [hcount, hms.count]
  split
  · next hm =>
    have hnot : ∀ i ∈ List.range ((m.payload.length - 1) / chunkSize),
        ¬ i = (m.payload.length - 1) / chunkSize := fun i hi => (List.mem_range.mp hi).ne
    rw [h.filter m hm, List.countP_map, Message.chunkCount, List.range_succ, List.countP_append,
      List.countP_eq_zero.mpr (by simpa [Message.chunkCount] using hnot)]
    simp [Message.chunkCount]
  · next hm =>
    rw [List.countP_eq_zero]
    intro c hc
    rw [List.mem_filter, decide_eq_true_eq] at hc
    exact absurd (hc.2 ▸ h.mem c hc.1) hm

/-- **Interleaved messages are reassembled.**  Messages on different channels
below 64 are returned once each, in the order of their last chunks and with
all their fields and their payload, and all bytes are consumed. -/
theorem readAll_interleaving {chunkSize : Nat} (hcs : 1 ≤ chunkSize) {ms : List Message}
    (hchannels : (ms.map Message.channelId).Nodup) (hsmall : ∀ m ∈ ms, m.channelId < 64)
    {l : List Chunk} (h : Interleaving chunkSize ms l) :
    ∃ ps, readAll chunkSize ms.length (chunksBytes chunkSize l) [] = some (ps, []) ∧
      List.Forall₂ Message.ReadAs (finished chunkSize l) ps ∧
      (finished chunkSize l).Perm ms := by
  have hperm := h.finished_perm (List.Nodup.of_map _ hchannels)
  obtain ⟨ps, hread, hps⟩ := readAll_reading hcs hchannels hsmall h.reading
  exact ⟨ps, hperm.length_eq ▸ hread, hps, hperm⟩

/-- A message of three bytes whose timestamp takes the extended field. -/
def audioMessage : Message := ⟨4, 8, 0x1000000, 1, [1, 2, 3], by decide, by decide, by decide⟩

/-- A message of two bytes on another channel. -/
def videoMessage : Message := ⟨5, 9, 7, 1, [4, 5], by decide, by decide, by decide⟩

/-- The chunks of two messages at chunk size 1, mixed. -/
def mixedChunks : List Chunk :=
  [(audioMessage, 0), (videoMessage, 0), (audioMessage, 1), (videoMessage, 1), (audioMessage, 2)]

/-- The shorter message is returned first although it starts later. -/
theorem readAll_mixedChunks :
    ∃ ps, readAll 1 2 (chunksBytes 1 mixedChunks) [] = some (ps, []) ∧
      List.Forall₂ Message.ReadAs (finished 1 mixedChunks) ps ∧
      (finished 1 mixedChunks).Perm [audioMessage, videoMessage] := by
  have h : Interleaving 1 [audioMessage, videoMessage] mixedChunks := ⟨by decide, by decide⟩
  exact readAll_interleaving (by decide) (by decide) (by decide) h

end FFmpeg.Libavformat.Rtmp
