import FFmpeg.Libavformat.RtpDecH264
import FFmpeg.Libavformat.RtpEncH264

/-!
# Fragments of HEVC

A unit that does not fit into a payload loses its header of two bytes.  The receiver takes the
type from the header of the fragments, and the rest from the header of the payload, in which
the sender always writes the temporal id 0.
-/

namespace FFmpeg.Libavformat.RtpHevcFragments

open Common Avc Libavutil RtpDecH264 RtpDecHevc RtpEncH264

/-! ## The sender -/

/-- The fragments of the rest of a unit, behind some bytes and the header with the flags. -/
def fragmentsBehind (front : Bytes) (max : Nat) : Nat → UInt8 → Bytes → List Bytes
  | 0, _, _ => []
  | rounds + 1, header, nal =>
    if nal.length + (front.length + 1) > max then
      (front ++ header :: nal.take (max - (front.length + 1))) ::
        fragmentsBehind front max rounds (header &&& ~~~((1 : UInt8) <<< 7))
          (nal.drop (max - (front.length + 1)))
    else [front ++ (header ||| (1 : UInt8) <<< 6) :: nal]

theorem overwrite_behind (front : Bytes) (header : UInt8) (tail new : Bytes) :
    overwrite (front ++ header :: tail) (front.length + 1) new =
      front ++ header :: (new ++ tail.drop new.length) := by
  have hsplit : front ++ header :: tail = (front ++ [header]) ++ tail := by simp
  have hlength : (front ++ [header]).length = front.length + 1 := by simp
  rw [overwrite, hsplit, ← hlength, List.take_left, ← List.drop_drop, List.drop_left]
  simp

theorem modify_behind (front : Bytes) (header : UInt8) (tail : Bytes) (f : UInt8 → UInt8) :
    (front ++ header :: tail).modify front.length f = front ++ f header :: tail := by
  induction front with
  | nil => rfl
  | cons b front ih => simpa using ih

variable {s : RTPMuxContext} {header : UInt8} {nal : Bytes}

/-- The loop over the fragments keeps the header in front of them in the buffer. -/
theorem sendFragments_sent (front : Bytes) (last : Bool) {rounds : Nat} {tail : Bytes}
    (hbuf : s.buf = front ++ header :: tail) (hroom : s.maxPayloadSize ≤ s.buf.length)
    (hmax : front.length + 1 < s.maxPayloadSize) (hrounds : nal.length < rounds) :
    ∃ s' new, sendFragments front.length (front.length + 1) last rounds s nal = some s' ∧
      s'.sent = s.sent ++ new ∧
      new.map (·.buf1) = fragmentsBehind front s.maxPayloadSize rounds header nal := by
  induction rounds generalizing s header tail nal with
  | zero => lia
  | succ rounds ih =>
    have hlength : s.buf.length = front.length + 1 + tail.length := by
      rw [hbuf, List.length_append, List.length_cons]
      lia
    unfold sendFragments fragmentsBehind
    by_cases hlong : nal.length + (front.length + 1) > s.maxPayloadSize
    · -- a full payload, and the start flag is cleared
      obtain ⟨n, hn⟩ : ∃ n, n = s.maxPayloadSize - (front.length + 1) := ⟨_, rfl⟩
      have htake : (nal.take n).length = n := by
        rw [List.length_take]
        lia
      have hwritten : overwrite s.buf (front.length + 1) (nal.take n) =
          front ++ header :: (nal.take n ++ tail.drop n) := by
        rw [hbuf, overwrite_behind, htake]
      have hpayload : (front ++ header :: (nal.take n ++ tail.drop n)).take s.maxPayloadSize =
          front ++ header :: nal.take n := by
        have hsplit : front ++ header :: (nal.take n ++ tail.drop n) =
            (front ++ header :: nal.take n) ++ tail.drop n := by simp
        rw [hsplit]
        refine List.take_left' ?_
        rw [List.length_append, List.length_cons, htake]
        lia
      have hdrop : (nal.drop n).length < rounds := by
        rw [List.length_drop]
        lia
      obtain ⟨s₁, hs₁⟩ : ∃ s₁ : RTPMuxContext, s₁ =
          { s with
            buf := front ++ (header &&& ~~~((1 : UInt8) <<< 7)) :: (nal.take n ++ tail.drop n)
            sent := s.sent ++ [⟨front ++ header :: nal.take n, false⟩] } := ⟨_, rfl⟩
      have hroom₁ : s₁.maxPayloadSize ≤ s₁.buf.length := by
        simp only [hs₁, List.length_append, List.length_cons, htake, List.length_drop]
        lia
      obtain ⟨s', new, hrun, hsent, hnew⟩ := ih (s := s₁) (by rw [hs₁]) hroom₁
        (by rw [hs₁]; exact hmax) hdrop
      refine ⟨s', ⟨front ++ header :: nal.take n, false⟩ :: new, ?_, ?_, ?_⟩
      · rw [if_pos hlong, ← hrun, hs₁]
        simp only [← hn, hwritten, ffRtpSendData, modify_behind, hpayload]
      · rw [hsent, hs₁]
        simp
      · rw [if_pos hlong, List.map_cons, hnew, hs₁, ← hn]
    · have hpayload : (front ++ (header ||| (1 : UInt8) <<< 6) ::
          (nal ++ tail.drop nal.length)).take (nal.length + (front.length + 1)) =
          front ++ (header ||| (1 : UInt8) <<< 6) :: nal := by
        have hsplit : front ++ (header ||| (1 : UInt8) <<< 6) :: (nal ++ tail.drop nal.length) =
            (front ++ (header ||| (1 : UInt8) <<< 6) :: nal) ++ tail.drop nal.length := by simp
        rw [hsplit]
        refine List.take_left' ?_
        rw [List.length_append, List.length_cons]
        lia
      rw [if_neg hlong, if_neg hlong]
      refine ⟨_, [⟨front ++ (header ||| (1 : UInt8) <<< 6) :: nal, last⟩], rfl, ?_, rfl⟩
      simp only [ffRtpSendData, hbuf, modify_behind, overwrite_behind, hpayload]

/-! ## The receiver -/

/-- The packets made of the payloads, one behind the other. -/
def receive : List Bytes → Except AVERROR Bytes
  | [] => .ok []
  | buf :: bufs => do
    let pkt ← hevcHandlePacket false buf
    let rest ← receive bufs
    return pkt ++ rest

/-- The two bytes in front of every fragment. -/
def payloadHeader : Bytes := [(49 : UInt8) <<< 1, 1]

theorem hevcHandlePacket_fragment {body : Bytes} (hbody : body ≠ [])
    (hflags : header &&& 0x80 = 0 ∨ header &&& 0x40 = 0) :
    hevcHandlePacket false (payloadHeader ++ header :: body) =
      .ok (ffH264HandleFragPacket body (header &&& 0x80 != 0) [(header &&& 0x3f) <<< 1, 1]) := by
  obtain ⟨b, rest, rfl⟩ := List.exists_cons_of_ne_nil hbody
  have hboth : ¬(header &&& 0x80 ≠ 0 ∧ header &&& 0x40 ≠ 0) := by
    rintro ⟨hstart, hend⟩
    exact hflags.elim hstart hend
  have hzero : (98 : UInt8) &&& 0x81 = 0 := by decide
  show hevcHandlePacket false (98 :: 1 :: header :: b :: rest) = _
  unfold hevcHandlePacket
  rw [if_neg (by simp [payloadHeaderSize])]
  simp only [List.getD_cons_zero, List.getD_cons_succ]
  rw [if_neg (by decide), if_neg (by decide), if_neg (by decide), if_neg (by decide),
    if_pos (by decide)]
  unfold hevcHandleFragment
  simp only [payloadHeaderSize, List.drop_succ_cons, List.drop_zero, List.getD_cons_zero,
    List.getD_cons_succ, fuHeaderSize, List.length_cons]
  rw [if_neg (by simp), if_neg (by simp), if_neg hboth, hzero, UInt8.zero_or]
  rfl

theorem receive_cons_ok {buf pkt rest : Bytes} {bufs : List Bytes}
    (hbuf : hevcHandlePacket false buf = .ok pkt) (hbufs : receive bufs = .ok rest) :
    receive (buf :: bufs) = .ok (pkt ++ rest) := by
  rw [receive, hbuf, hbufs]
  rfl

theorem startBits (b : UInt8) : (b &&& ~~~((1 : UInt8) <<< 7)) &&& 0x80 = 0 ∧
    (b ||| (1 : UInt8) <<< 6) &&& 0x80 = b &&& 0x80 :=
  forall_byte (p := fun b => (b &&& ~~~((1 : UInt8) <<< 7)) &&& 0x80 = 0 ∧
    (b ||| (1 : UInt8) <<< 6) &&& 0x80 = b &&& 0x80) (by decide +kernel) b

/-- The header of the first fragment. -/
def firstHeader (b : UInt8) : UInt8 := (b >>> 1 &&& (0x3f : UInt8)) ||| (1 : UInt8) <<< 7

theorem firstHeader_spec (b : UInt8) : firstHeader b &&& 0x80 = 0x80 ∧
    firstHeader b &&& 0x40 = 0 ∧ (firstHeader b &&& 0x3f) <<< 1 = b &&& 0x7e :=
  forall_byte (p := fun b => firstHeader b &&& 0x80 = 0x80 ∧ firstHeader b &&& 0x40 = 0 ∧
    (firstHeader b &&& 0x3f) <<< 1 = b &&& 0x7e) (by decide +kernel) b

theorem receive_fragmentsBehind {max : Nat} (hmax : 5 ≤ max) {rounds : Nat}
    (hheader : header &&& 0x80 = 0) (hnal : nal ≠ []) (hrounds : nal.length ≤ rounds) :
    receive (fragmentsBehind payloadHeader max rounds header nal) = .ok nal := by
  have hfront : payloadHeader.length = 2 := rfl
  induction rounds generalizing header nal with
  | zero => exact absurd (List.length_eq_zero_iff.1 (Nat.le_zero.1 hrounds)) hnal
  | succ rounds ih =>
    unfold fragmentsBehind
    rw [hfront]
    by_cases hlong : nal.length + (2 + 1) > max
    · have hbody : nal.take (max - (2 + 1)) ≠ [] := by
        rw [← List.length_pos_iff, List.length_take]
        lia
      have hrest : nal.drop (max - (2 + 1)) ≠ [] := by
        rw [← List.length_pos_iff, List.length_drop]
        lia
      have hlater := ih (startBits header).1 hrest (by rw [List.length_drop]; lia)
      rw [if_pos hlong,
        receive_cons_ok (hevcHandlePacket_fragment hbody (.inl hheader)) hlater, hheader]
      exact congrArg Except.ok (List.take_append_drop _ _)
    · have hlast : (header ||| (1 : UInt8) <<< 6) &&& 0x80 = 0 := by rw [(startBits header).2, hheader]
      have hnil : receive [] = .ok [] := rfl
      rw [if_neg hlong, receive_cons_ok (hevcHandlePacket_fragment hnal (.inl hlast)) hnil, hlast]
      exact congrArg Except.ok (List.append_nil nal)

/-! ## Both -/

/-- A sender for HEVC with its buffer. -/
structure Ready (s : RTPMuxContext) : Prop where
  codecId : s.codecId = .hevc
  length_buf : s.maxPayloadSize ≤ s.buf.length
  maxPayloadSize : 5 ≤ s.maxPayloadSize

theorem flushBuffered_keeps (s : RTPMuxContext) (last : Bool) :
    (flushBuffered s last).codecId = s.codecId ∧ (flushBuffered s last).buf = s.buf ∧
      (flushBuffered s last).maxPayloadSize = s.maxPayloadSize := by
  unfold flushBuffered
  dsimp only
  split
  · split
    · split <;> exact ⟨rfl, rfl, rfl⟩
    · exact ⟨rfl, rfl, rfl⟩
  · exact ⟨rfl, rfl, rfl⟩

/-- What the receiver makes of a unit in fragments: the type is that of the unit, and the other
fields of its header are those of the header of the payload. -/
theorem receive_nalSend (hs : Ready s) (last : Bool) (hlong : s.maxPayloadSize < nal.length) :
    ∃ s' new, nalSend s nal last = some s' ∧ s'.sent = (flushBuffered s false).sent ++ new ∧
      receive (new.map (·.buf1)) =
        .ok (startSequence ++ [byte nal 0 &&& 0x7e, 1] ++ nal.drop 2) := by
  have hmax := hs.maxPayloadSize
  obtain ⟨hcodec, hbuf, hsize⟩ := flushBuffered_keeps s false
  obtain ⟨header, hheader⟩ : ∃ header : UInt8, header = firstHeader (byte nal 0) := ⟨_, rfl⟩
  obtain ⟨s₁, hs₁⟩ : ∃ s₁ : RTPMuxContext, s₁ =
      { flushBuffered s false with
        buf := overwrite (flushBuffered s false).buf 0 [(49 : UInt8) <<< 1, 1, header] } := ⟨_, rfl⟩
  have hroom := hs.length_buf
  have hlength : s₁.buf.length = s.buf.length := by
    rw [hs₁]
    show (overwrite (flushBuffered s false).buf 0 [_, _, _]).length = _
    rw [length_overwrite_of_le (by rw [hbuf]; show 0 + 3 ≤ _; lia), hbuf]
  have hfront : s₁.buf = payloadHeader ++ header :: s.buf.drop 3 := by
    rw [hs₁]
    show overwrite (flushBuffered s false).buf 0 [_, _, _] = _
    rw [overwrite, hbuf]
    rfl
  have hsize₁ : s₁.maxPayloadSize = s.maxPayloadSize := by rw [hs₁]; exact hsize
  have hrounds : (nal.drop 2).length < nal.length := by
    rw [List.length_drop]
    lia
  obtain ⟨s', new, hrun, hsent, hnew⟩ := sendFragments_sent payloadHeader last hfront
    (by rw [hsize₁, hlength]; exact hroom)
    (by rw [hsize₁]; show 2 + 1 < _; lia) hrounds
  refine ⟨s', new, ?_, by rw [hsent, hs₁], ?_⟩
  · unfold nalSend
    rw [if_neg (by lia)]
    dsimp only
    rw [hs₁, hheader] at hrun
    split
    · rename_i hcase
      rw [hcodec, hs.codecId] at hcase
      cases hcase
    · exact hrun
  · obtain ⟨hstart, hend, htype⟩ := firstHeader_spec (byte nal 0)
    rw [← hheader] at hstart hend htype
    obtain ⟨rounds, hr⟩ : ∃ rounds, nal.length = rounds + 1 := ⟨nal.length - 1, by lia⟩
    have hbody : (nal.drop 2).take (s.maxPayloadSize - (2 + 1)) ≠ [] := by
      rw [← List.length_pos_iff, List.length_take, List.length_drop]
      lia
    have hrest : (nal.drop 2).drop (s.maxPayloadSize - (2 + 1)) ≠ [] := by
      rw [← List.length_pos_iff, List.length_drop, List.length_drop]
      lia
    have hlater := receive_fragmentsBehind hmax (startBits header).1 hrest
      (show _ ≤ rounds by rw [List.length_drop, List.length_drop]; lia)
    have hlength₂ : payloadHeader.length = 2 := rfl
    rw [hnew, hsize₁, hr, fragmentsBehind, hlength₂, if_pos (by rw [List.length_drop]; lia),
      receive_cons_ok (hevcHandlePacket_fragment hbody (.inr hend)) hlater, hstart, htype]
    refine congrArg Except.ok ?_
    show startSequence ++ [byte nal 0 &&& 0x7e, 1] ++ _ ++ _ = _
    rw [List.append_assoc, List.take_append_drop]

/-- A unit of HEVC of the base layer. -/
structure IsNal (nal : Bytes) : Prop where
  forbidden : byte nal 0 &&& 0x80 = 0
  layerId : byte nal 0 &&& 1 = 0 ∧ byte nal 1 &&& 0xf8 = 0
  temporalId : byte nal 1 &&& 0x07 ≠ 0
  type_lt : byte nal 0 >>> 1 &&& (0x3f : UInt8) < 48

/-- The fragments that `nal_send` makes of a unit are put together to the unit. -/
def Carries (s : RTPMuxContext) (nal : Bytes) (last : Bool) : Prop :=
  ∃ s' new, nalSend s nal last = some s' ∧ s'.sent = (flushBuffered s false).sent ++ new ∧
    receive (new.map (·.buf1)) = .ok (startSequence ++ nal)

/-- The header in front of the fragments has the temporal id 0, so only units with that one
keep their header. -/
theorem carries_iff {s : RTPMuxContext} (hs : Ready s) {nal : Bytes} (hnal : IsNal nal)
    (last : Bool) (hlong : s.maxPayloadSize < nal.length) :
    Carries s nal last ↔ byte nal 1 &&& 0x07 = 1 := by
  obtain ⟨s', new, hrun, hsent, hreceive⟩ := receive_nalSend hs last hlong
  have hmax := hs.maxPayloadSize
  obtain ⟨b₀, b₁, rest, rfl⟩ : ∃ b₀ b₁ rest, nal = b₀ :: b₁ :: rest := by
    match nal, hlong with
    | [], hlong => exact absurd hlong (by simp)
    | [_], hlong => exact absurd hlong (by simp; lia)
    | b₀ :: b₁ :: rest, _ => exact ⟨b₀, b₁, rest, rfl⟩
  have hbyte₀ : byte (b₀ :: b₁ :: rest) 0 = b₀ := rfl
  have hbyte₁ : byte (b₀ :: b₁ :: rest) 1 = b₁ := rfl
  have hkeep : b₀ &&& 0x7e = b₀ :=
    forall_byte (p := fun b => b &&& 0x80 = 0 → b &&& 1 = 0 → b &&& 0x7e = b)
      (by decide +kernel) b₀ hnal.forbidden hnal.layerId.1
  have htid : b₁ &&& 0x07 = b₁ :=
    forall_byte (p := fun b => b &&& 0xf8 = 0 → b &&& 0x07 = b)
      (by decide +kernel) b₁ hnal.layerId.2
  rw [hbyte₀] at hreceive
  rw [hbyte₁]
  rw [hkeep] at hreceive
  rw [htid]
  constructor
  · rintro ⟨s'', new', hrun', hsent', hreceive'⟩
    rw [hrun] at hrun'
    obtain rfl := Option.some.inj hrun'
    obtain rfl : new = new' := List.append_cancel_left (hsent.symm.trans hsent')
    rw [hreceive] at hreceive'
    have hbytes := Except.ok.inj hreceive'
    rw [List.append_assoc] at hbytes
    have hhead := List.append_cancel_left hbytes
    simpa using (List.cons.inj (List.cons.inj hhead).2).1.symm
  · rintro rfl
    exact ⟨s', new, hrun, hsent, by rw [hreceive]; simp⟩

/-- A sender of payloads of five bytes. -/
def sender : RTPMuxContext where
  codecId := .hevc
  mode0 := false
  timestamp := 0
  curTimestamp := 0
  maxPayloadSize := 5
  buf := List.replicate 17 0
  bufPtr := 0
  nalLengthSize := 0
  bufferedNals := 0
  sent := []

theorem carries_iff_vps :
    Carries sender [0x40, 0x01, 0x0c, 0x01, 0xff, 0xff] true ↔
      byte [0x40, 0x01, 0x0c, 0x01, 0xff, 0xff] 1 &&& 0x07 = 1 :=
  carries_iff ⟨rfl, by decide, by decide⟩ ⟨by decide, by decide, by decide, by decide⟩ true
    (by decide)

/-- A slice of the temporal id 1 comes back with the temporal id 0. -/
theorem not_carries_temporalId :
    Ready sender ∧ IsNal [0x00, 0x02, 0xd0, 0x11, 0x22, 0x33] ∧
      sender.maxPayloadSize < ([0x00, 0x02, 0xd0, 0x11, 0x22, 0x33] : Bytes).length ∧
      ¬Carries sender [0x00, 0x02, 0xd0, 0x11, 0x22, 0x33] true := by
  have hready : Ready sender := ⟨rfl, by decide, by decide⟩
  refine ⟨hready, ⟨by decide, by decide, by decide, by decide⟩, by decide, ?_⟩
  rintro ⟨s'', new', hrun', hsent', hreceive'⟩
  obtain ⟨s', new, hrun, hsent, hreceive⟩ := receive_nalSend hready true
    (show sender.maxPayloadSize < ([0x00, 0x02, 0xd0, 0x11, 0x22, 0x33] : Bytes).length by decide)
  rw [hrun] at hrun'
  obtain rfl := Option.some.inj hrun'
  obtain rfl : new = new' := List.append_cancel_left (hsent.symm.trans hsent')
  rw [hreceive] at hreceive'
  exact absurd (Except.ok.inj hreceive') (by decide)

end FFmpeg.Libavformat.RtpHevcFragments
