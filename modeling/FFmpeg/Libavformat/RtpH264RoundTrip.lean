import FFmpeg.Libavformat.AvcNalUnits
import FFmpeg.Libavformat.RtpDecH264
import FFmpeg.Libavformat.RtpEncH264Groups

/-!
# H.264 over RTP

An access unit is sent and its payloads are handed to the receiver in order.  Each
group of units comes back as its units behind start codes, except a group of several
of which one has a length that the two bytes in front of it cannot hold.
-/

namespace FFmpeg.Libavformat.RtpH264

open Common Avc AvcNalUnits Libavutil RtpDecH264 RtpEncH264 RtpEncH264Groups

/-! ## The access unit -/

/-- A NAL unit of H.264 as a stream can carry it. -/
structure IsNal (u : Bytes) : Prop where
  carried : Carried u
  one_le_type : 1 ≤ byte u 0 &&& 0x1f
  type_le : byte u 0 &&& 0x1f ≤ 23
  forbidden : byte u 0 &&& 0x80 = 0

/-- An access unit: its units and its bytes.  Each unit is behind a start code when
`nal_length_size` is zero, and behind a length of that many bytes otherwise. -/
inductive AccessUnit : Nat → List Bytes → Bytes → Prop
  | nil (nalLengthSize : Nat) : AccessUnit nalLengthSize [] []
  | annexB {u : Bytes} {units : List Bytes} {rest : Bytes} (code : Startcode) (hu : IsNal u)
      (h : AccessUnit 0 units rest) : AccessUnit 0 (u :: units) (code.bytes ++ (u ++ rest))
  | lengthPrefixed {n : Nat} {u : Bytes} {units : List Bytes} {rest : Bytes} (hpos : 1 ≤ n)
      (hn : n ≤ 4) (hu : IsNal u) (hlength : u.length < 256 ^ n) (h : AccessUnit n units rest) :
      AccessUnit n (u :: units) (putBE n u.length ++ (u ++ rest))

variable {n : Nat} {units : List Bytes} {bytes : Bytes}

theorem AccessUnit.isNal (h : AccessUnit n units bytes) : ∀ u ∈ units, IsNal u := by
  induction h with
  | nil => exact fun u hu => absurd hu List.not_mem_nil
  | annexB code hu h ih =>
    intro v hv
    rcases List.mem_cons.mp hv with rfl | hrest
    · exact hu
    · exact ih v hrest
  | lengthPrefixed hpos hn hu hlength h ih =>
    intro v hv
    rcases List.mem_cons.mp hv with rfl | hrest
    · exact hu
    · exact ih v hrest

theorem AccessUnit.startsWithCode (h : AccessUnit 0 units bytes) : StartsWithCode bytes := by
  cases h with
  | nil => exact Or.inl rfl
  | annexB code hu h =>
    exact Or.inr ⟨code, _, List.append_ne_nil_of_left_ne_nil hu.carried.nonempty _, rfl⟩
  | lengthPrefixed hpos => exact absurd hpos (by decide)

/-! ## The units in the input -/

theorem skipZeros_zero {buf : Bytes} {r : Nat} (hzero : byte buf r = 0) (rounds : Nat) :
    skipZeros buf (rounds + 1) r = skipZeros buf rounds (r + 1) := by
  rw [skipZeros, if_pos hzero]

theorem skipZeros_one {buf : Bytes} {r : Nat} (hone : byte buf r = 1) (rounds : Nat) :
    skipZeros buf (rounds + 1) r = some (r + 1) := by
  rw [skipZeros, if_neg (by rw [hone]; decide)]

variable {rounds : Nat}

theorem skipZeros_code {pre rest : Bytes} {code : Startcode} (hrounds : code.bytes.length ≤ rounds) :
    skipZeros (pre ++ (code.bytes ++ rest)) rounds pre.length =
      some (pre.length + code.bytes.length) := by
  have hbyte : ∀ i, byte (pre ++ (code.bytes ++ rest)) (pre.length + i) =
      byte (code.bytes ++ rest) i := byte_append_add pre _
  obtain ⟨spare, rfl⟩ := Nat.exists_eq_add_of_le' hrounds
  cases code with
  | three =>
    have hthree : Startcode.three.bytes.length = 3 := rfl
    have h₀ : byte (pre ++ (Startcode.three.bytes ++ rest)) pre.length = 0 := hbyte 0
    rw [hthree, skipZeros_zero h₀, skipZeros_zero (hbyte 1), skipZeros_one (hbyte 2)]
  | four =>
    have hfour : Startcode.four.bytes.length = 4 := rfl
    have h₀ : byte (pre ++ (Startcode.four.bytes ++ rest)) pre.length = 0 := hbyte 0
    rw [hfour, skipZeros_zero h₀, skipZeros_zero (hbyte 1), skipZeros_zero (hbyte 2),
      skipZeros_one (hbyte 3)]

theorem slice_append (pre l rest : Bytes) : slice (pre ++ (l ++ rest)) pre.length l.length = l := by
  rw [slice, List.drop_left, List.take_left]

variable {u : Bytes}

theorem ffAvcMp4FindStartcode_eq (pre : Bytes) (rest : Bytes) (hlength : u.length < 256 ^ n) :
    ffAvcMp4FindStartcode (pre ++ (putBE n u.length ++ (u ++ rest))) pre.length
      (pre ++ (putBE n u.length ++ (u ++ rest))).length n = some (pre.length + n + u.length) := by
  have hres := slice_append pre (putBE n u.length) (u ++ rest)
  rw [length_putBE] at hres
  unfold ffAvcMp4FindStartcode
  rw [hres, getBE_putBE_of_lt hlength]
  simp only [List.length_append, length_putBE]
  rw [if_neg (by lia), if_neg (by lia)]

theorem nalAt_eq (bigEndian : Bool) (address : Nat) (h : AccessUnit n (u :: units) bytes)
    (pre : Bytes) :
    ∃ code rest, bytes = code ++ (u ++ rest) ∧ AccessUnit n units rest ∧
      nalAt bigEndian address (pre ++ bytes) (pre ++ bytes).length n pre.length =
        some (pre.length + code.length, pre.length + code.length + u.length) := by
  cases h with
  | annexB code hu h =>
    refine ⟨code.bytes, _, rfl, h, ?_⟩
    have hsplit : ∀ rest, pre ++ (code.bytes ++ (u ++ rest)) = (pre ++ code.bytes) ++ (u ++ rest) :=
      fun rest => (List.append_assoc _ _ _).symm
    have hend := ffAvcFindStartcode_nalEnd bigEndian address (pre ++ code.bytes) hu.carried
      h.startsWithCode rfl
    have hpre : (pre ++ code.bytes).length = pre.length + code.bytes.length := List.length_append
    rw [hpre] at hend
    unfold nalAt
    rw [if_neg (not_not.mpr rfl), skipZeros_code (by simp only [List.length_append]; lia)]
    simp only [hsplit, Option.bind_eq_bind, Option.bind_some, hend]
    rfl
  | lengthPrefixed hpos hn hu hlength h =>
    refine ⟨putBE n u.length, _, rfl, h, ?_⟩
    unfold nalAt
    rw [if_pos (by lia), ffAvcMp4FindStartcode_eq pre _ hlength, Option.getD_some, length_putBE]

variable {s : RTPMuxContext}

/-- The loop makes one call for each unit; the induction is on the units that remain. -/
theorem sendNals_eq (bigEndian : Bool) (address : Nat) (pre : Bytes) {pending : List Bytes}
    (h : AccessUnit n units bytes) (hs : Holds s pending) (hmax : 4 ≤ s.maxPayloadSize)
    (hn : s.nalLengthSize = n) (hrounds : bytes.length < rounds) :
    sendNals bigEndian address (pre ++ bytes) (pre ++ bytes).length rounds s pre.length =
      sendUnits s units := by
  induction units generalizing bytes pre s pending rounds with
  | nil =>
    obtain ⟨rounds, rfl⟩ := Nat.exists_eq_add_of_le' (show 1 ≤ rounds by lia)
    have hnil : bytes = [] := by cases h; rfl
    rw [hnil, List.append_nil, sendNals, if_neg (lt_irrefl _)]
    rfl
  | cons u units ih =>
    obtain ⟨rounds, rfl⟩ := Nat.exists_eq_add_of_le' (show 1 ≤ rounds by lia)
    obtain ⟨code, rest, hbytes, hrest, hat⟩ := nalAt_eq bigEndian address h pre
    have hpos := (h.isNal u List.mem_cons_self).carried.length_pos
    have hlength : bytes.length = code.length + (u.length + rest.length) := by
      rw [hbytes, List.length_append, List.length_append]
    have hcode : pre ++ bytes = (pre ++ code) ++ (u ++ rest) := by
      rw [hbytes, List.append_assoc]
    have hunit : pre ++ bytes = (pre ++ code ++ u) ++ rest := by
      simp only [hbytes, List.append_assoc]
    have hslice : slice (pre ++ bytes) (pre.length + code.length) u.length = u := by
      rw [hcode, ← List.length_append]
      exact slice_append _ _ _
    -- only behind the last unit the input ends
    have hlast : (pre.length + code.length + u.length == (pre ++ bytes).length) =
        units.isEmpty := by
      rw [Bool.eq_iff_iff, beq_iff_eq, List.isEmpty_iff, List.length_append, hlength]
      constructor
      · intro hend
        by_contra hne
        obtain ⟨v, units', rfl⟩ := List.exists_cons_of_ne_nil hne
        obtain ⟨code', rest', hrest', -, -⟩ := nalAt_eq bigEndian address hrest pre
        have hv := (hrest.isNal v List.mem_cons_self).carried.length_pos
        have hlength' := congrArg List.length hrest'
        rw [List.length_append, List.length_append] at hlength'
        lia
      · rintro rfl
        have hnil : rest = [] := by cases hrest; rfl
        rw [hnil, List.length_nil]
        lia
    obtain ⟨s₁, hrun, hsends⟩ := nalSend_sends hs hmax u units.isEmpty
    have hstart : pre.length < (pre ++ bytes).length := by
      rw [List.length_append]
      lia
    have hpre : pre.length + code.length + u.length = (pre ++ code ++ u).length := by
      rw [List.length_append, List.length_append]
    rw [sendNals, if_pos hstart, hn, hat, sendUnits, hrun]
    simp only [Option.bind_eq_bind, Option.bind_some]
    rw [if_neg (by lia), Nat.add_sub_cancel_left, hslice, hlast, hrun, Option.bind_some, hpre,
      hunit]
    exact ih _ hrest hsends.holds (hsends.maxPayloadSize ▸ hmax) (hsends.nalLengthSize.trans hn)
      (by lia)

/-! ## The receiver -/

/-- The packets made of the payloads, one behind the other. -/
def receive : List Bytes → Except AVERROR Bytes
  | [] => .ok []
  | buf :: bufs => do
    let pkt ← h264HandlePacket buf
    let rest ← receive bufs
    return pkt ++ rest

/-- What the receiver is to make of the units. -/
def expected (units : List Bytes) : Bytes :=
  units.flatMap fun u => startSequence ++ u

theorem receive_append (bufs bufs' : List Bytes) :
    receive (bufs ++ bufs') = do
      let pkt ← receive bufs
      let rest ← receive bufs'
      return pkt ++ rest := by
  induction bufs with
  | nil =>
    show receive bufs' = (receive bufs').bind fun rest => .ok rest
    cases receive bufs' <;> rfl
  | cons buf bufs ih =>
    rw [List.cons_append, receive, receive, ih]
    cases h264HandlePacket buf with
    | error e => rfl
    | ok pkt =>
      cases receive bufs with
      | error e => rfl
      | ok rest =>
        cases receive bufs' with
        | error e => rfl
        | ok rest' => exact congrArg Except.ok (List.append_assoc pkt rest rest').symm

theorem receive_singleton (buf : Bytes) : receive [buf] = h264HandlePacket buf := by
  rw [receive, receive]
  cases h264HandlePacket buf with
  | error e => rfl
  | ok pkt => exact congrArg Except.ok (List.append_nil pkt)

theorem header_of_fragment (b : UInt8) (hb : b &&& 0x80 = 0) :
    (28 ||| (b &&& 0x60)) &&& 0xe0 ||| (b &&& 0x1f ||| (1 : UInt8) <<< (7 : UInt8)) &&& 0x1f = b :=
  forall_byte (p := fun b => b &&& 0x80 = 0 → (28 ||| (b &&& 0x60)) &&& 0xe0 |||
    (b &&& 0x1f ||| (1 : UInt8) <<< (7 : UInt8)) &&& 0x1f = b) (by decide +kernel) b hb

theorem fragmentBits (b : UInt8) :
    (28 ||| (b &&& 0x60)) &&& 0x1f = 28 ∧ (b &&& 0x1f ||| (1 : UInt8) <<< (7 : UInt8)) >>> 7 = 1 ∧
      (b &&& ~~~((1 : UInt8) <<< (7 : UInt8))) >>> 7 = 0 ∧
      (b ||| (1 : UInt8) <<< (6 : UInt8)) >>> 7 = b >>> 7 :=
  forall_byte (p := fun b => (28 ||| (b &&& 0x60)) &&& 0x1f = 28 ∧
    (b &&& 0x1f ||| (1 : UInt8) <<< (7 : UInt8)) >>> 7 = 1 ∧
    (b &&& ~~~((1 : UInt8) <<< (7 : UInt8))) >>> 7 = 0 ∧
    (b ||| (1 : UInt8) <<< (6 : UInt8)) >>> 7 = b >>> 7) (by decide +kernel) b

theorem h264HandlePacket_nal (hu : IsNal u) : h264HandlePacket u = .ok (startSequence ++ u) := by
  have htype : 1 ≤ u.getD 0 0 &&& 0x1f ∧ u.getD 0 0 &&& 0x1f ≤ 23 :=
    ⟨hu.one_le_type, hu.type_le⟩
  unfold h264HandlePacket
  rw [if_neg hu.carried.nonempty]
  simp only [if_pos htype]
  rw [if_pos (Or.inr trivial)]
  rfl

theorem h264HandlePacket_aggregate (src : Bytes) :
    h264HandlePacket (24 :: src) = ffH264HandleAggregatedPacket 0 src := by
  have htype : (24 :: src).getD 0 0 &&& 0x1f = 24 := (by decide : (24 : UInt8) &&& 0x1f = 24)
  rw [h264HandlePacket, if_neg (List.cons_ne_nil 24 src)]
  simp only [htype]
  rw [if_neg (by decide), if_pos (by decide)]
  rfl

variable {indicator : UInt8}

theorem h264HandlePacket_fragment (hindicator : indicator &&& 0x1f = 28) (header : UInt8)
    {body : Bytes} (hbody : body ≠ []) :
    h264HandlePacket ([indicator, header] ++ body) =
      .ok (ffH264HandleFragPacket body (header >>> 7 != 0)
        [indicator &&& 0xe0 ||| header &&& 0x1f]) := by
  have hpos := List.length_pos_iff.mpr hbody
  have htype : ([indicator, header] ++ body).getD 0 0 &&& 0x1f = 28 := hindicator
  have hlength : ¬ ([indicator, header] ++ body).length < 3 := by
    rw [List.length_append]
    show ¬ 2 + _ < 3
    lia
  have hne : [indicator, header] ++ body ≠ [] := List.cons_ne_nil _ _
  unfold h264HandlePacket
  rw [if_neg hne]
  simp only [htype]
  rw [if_neg (by decide), if_neg (by decide), if_neg (by decide), if_pos (by decide),
    h264HandlePacketFuA, if_neg hlength]
  rfl

variable {max : Nat}

theorem receive_fragmentsFrom (hmax : 4 ≤ max) (hindicator : indicator &&& 0x1f = 28)
    {header : UInt8} (hheader : header >>> 7 = 0) {nal : Bytes} (hnal : nal ≠ [])
    (hrounds : nal.length ≤ rounds) :
    receive (fragmentsFrom max indicator rounds header nal) = .ok nal := by
  induction rounds generalizing header nal with
  | zero => exact absurd (List.length_eq_zero_iff.mp (Nat.le_zero.mp hrounds)) hnal
  | succ rounds ih =>
    unfold fragmentsFrom
    by_cases hlong : nal.length + 2 > max
    · have hbody : nal.take (max - 2) ≠ [] := by
        rw [← List.length_pos_iff, List.length_take]
        lia
      have hrest : nal.drop (max - 2) ≠ [] := by
        rw [← List.length_pos_iff, List.length_drop]
        lia
      rw [if_pos hlong, receive, h264HandlePacket_fragment hindicator header hbody, hheader,
        ih (fragmentBits header).2.2.1 hrest (by rw [List.length_drop]; lia)]
      exact congrArg Except.ok (List.take_append_drop _ _)
    · rw [if_neg hlong, receive_singleton, h264HandlePacket_fragment hindicator _ hnal,
        (fragmentBits header).2.2.2, hheader]
      rfl

theorem receive_fragments (hmax : 4 ≤ max) (hu : IsNal u) (hlong : max < u.length) :
    receive (fragments max u) = .ok (startSequence ++ u) := by
  obtain ⟨b, body, rfl⟩ := List.exists_cons_of_ne_nil hu.carried.nonempty
  have hlength : (b :: body).length = body.length + 1 := rfl
  have hbody : body.take (max - 2) ≠ [] := by
    rw [← List.length_pos_iff, List.length_take]
    lia
  have hrest : body.drop (max - 2) ≠ [] := by
    rw [← List.length_pos_iff, List.length_drop]
    lia
  have hbyte : byte (b :: body) 0 = b := rfl
  have hforbidden := hu.forbidden
  rw [hbyte] at hforbidden
  rw [fragments, hlength, hbyte, fragmentsFrom, List.drop_one, List.tail_cons,
    if_pos (by lia), receive, h264HandlePacket_fragment (fragmentBits b).1 _ hbody,
    (fragmentBits b).2.1, header_of_fragment b hforbidden,
    receive_fragmentsFrom hmax (fragmentBits b).1 (fragmentBits _).2.2.1 hrest
      (by rw [List.length_drop]; lia)]
  refine congrArg Except.ok ?_
  show startSequence ++ [b] ++ body.take (max - 2) ++ body.drop (max - 2) = _
  rw [List.append_assoc, List.take_append_drop, List.append_assoc]
  rfl

variable {group : List Bytes}

/-- The walk over units whose lengths are as stored. -/
theorem aggregatedNals_append (rest : Bytes) (rounds : Nat)
    (h : ∀ u ∈ group, u ≠ [] ∧ u.length < 2 ^ 16) :
    aggregatedNals 0 (group.length + rounds)
        ((group.flatMap fun u => putBE 2 u.length ++ u) ++ rest) = do
      let nals ← aggregatedNals 0 rounds rest
      return group ++ nals := by
  induction group with
  | nil =>
    rw [List.length_nil, Nat.zero_add, List.flatMap_nil, List.nil_append]
    cases aggregatedNals 0 rounds rest <;> rfl
  | cons u group ih =>
    obtain ⟨hne, hlt⟩ := h u List.mem_cons_self
    have hpos := List.length_pos_iff.mpr hne
    have hsize : getBE (putBE 2 u.length) = u.length := getBE_putBE_of_lt hlt
    have hrounds : (u :: group).length + rounds = (group.length + rounds) + 1 := by
      rw [List.length_cons]
      lia
    have hsplit : ((u :: group).flatMap fun u => putBE 2 u.length ++ u) ++ rest =
        putBE 2 u.length ++ (u ++ ((group.flatMap fun u => putBE 2 u.length ++ u) ++ rest)) := by
      rw [List.flatMap_cons, List.append_assoc, List.append_assoc]
    rw [hrounds, hsplit, aggregatedNals, if_pos (by simp only [List.length_append, length_putBE]; lia),
      List.take_left' (length_putBE 2 _), List.drop_left' (length_putBE 2 _), hsize]
    dsimp only
    rw [if_pos (by rw [List.length_append]; lia), Nat.add_zero, List.drop_left, List.take_left,
      ih fun v hv => h v (List.mem_cons_of_mem u hv)]
    cases aggregatedNals 0 rounds rest <;> rfl

theorem aggregatedNals_wide (u rest : Bytes) (rounds : Nat) (h : 2 ^ 16 ≤ u.length) :
    aggregatedNals 0 (rounds + 1) (putBE 2 u.length ++ (u ++ rest)) = do
      let nals ← aggregatedNals 0 rounds ((u ++ rest).drop (u.length % 2 ^ 16))
      return u.take (u.length % 2 ^ 16) :: nals := by
  have hlt := Nat.mod_lt u.length (show 0 < 2 ^ 16 by norm_num)
  have hsize : getBE (putBE 2 u.length) = u.length % 2 ^ 16 := getBE_putBE 2 u.length
  norm_num at h hlt hsize ⊢
  rw [aggregatedNals, if_pos (by simp only [List.length_append, length_putBE]; lia),
    List.take_left' (length_putBE 2 _), List.drop_left' (length_putBE 2 _), hsize]
  dsimp only
  rw [if_pos (by rw [List.length_append]; lia), Nat.add_zero,
    List.take_append_of_le_length (by lia)]
  rfl

/-! ## Groups of units -/

/-- A group of several units has lengths that two bytes hold. -/
def Narrow (group : List Bytes) : Prop :=
  2 ≤ group.length → ∀ u ∈ group, u.length < 2 ^ 16

theorem length_le_flatMap (group : List Bytes) :
    group.length ≤ (group.flatMap fun u => putBE 2 u.length ++ u).length := by
  induction group with
  | nil => exact Nat.le_refl 0
  | cons u group ih =>
    rw [List.flatMap_cons, List.length_append, List.length_append, length_putBE, List.length_cons]
    lia

theorem aggregatedNals_nil (rounds : Nat) : aggregatedNals 0 rounds [] = .ok [] := by
  cases rounds <;> rfl

theorem receive_payloads (hmax : 4 ≤ max) (hnal : ∀ u ∈ group, IsNal u) (hnarrow : Narrow group) :
    receive (payloads max group) = .ok (expected group) := by
  match group with
  | [] => rfl
  | [u] =>
    have hu := hnal u List.mem_cons_self
    have hexpected : expected [u] = startSequence ++ u := List.flatMap_singleton _ _
    rw [payloads, hexpected]
    by_cases hle : u.length ≤ max
    · rw [if_pos hle, receive_singleton, h264HandlePacket_nal hu]
    · rw [if_neg hle]
      exact receive_fragments hmax hu (Nat.lt_of_not_le hle)
  | u :: v :: group =>
    have hlt := hnarrow (by rw [List.length_cons, List.length_cons]; lia)
    obtain ⟨spare, hspare⟩ := Nat.exists_eq_add_of_le (length_le_flatMap (u :: v :: group))
    have hwalk := aggregatedNals_append [] spare
      fun w hw => ⟨(hnal w hw).carried.nonempty, hlt w hw⟩
    rw [List.append_nil, aggregatedNals_nil, ← hspare] at hwalk
    rw [payloads, receive_singleton, aggregate, h264HandlePacket_aggregate,
      ffH264HandleAggregatedPacket, hwalk]
    refine congrArg Except.ok ?_
    rw [List.append_nil]
    rfl

/-- What the receiver makes of whole groups: nothing, or something with a start code in
front. -/
def Continues (l : Bytes) : Prop :=
  l = [] ∨ startSequence <+: l

theorem continues_append {l l' : Bytes} (h : Continues l) (h' : Continues l') :
    Continues (l ++ l') := by
  rcases h with rfl | h
  · exact h'
  · exact Or.inr (h.trans (List.prefix_append l l'))

theorem continues_expected (units : List Bytes) : Continues (expected units) := by
  cases units with
  | nil => exact Or.inl rfl
  | cons u units =>
    rw [expected, List.flatMap_cons, List.append_assoc]
    exact Or.inr (List.prefix_append _ _)

variable {gs : List (List Bytes)}

theorem receive_groups_continues (hmax : 4 ≤ max) (hnal : ∀ group ∈ gs, ∀ u ∈ group, IsNal u)
    {out : Bytes} (hout : receive (gs.flatMap (payloads max)) = .ok out) : Continues out := by
  induction gs generalizing out with
  | nil =>
    cases hout
    exact Or.inl rfl
  | cons group gs ih =>
    rw [List.flatMap_cons, receive_append] at hout
    have hfirst : ∀ pkt, receive (payloads max group) = .ok pkt → Continues pkt := by
      intro pkt hpkt
      by_cases hnarrow : Narrow group
      · rw [receive_payloads hmax (hnal group List.mem_cons_self) hnarrow] at hpkt
        cases hpkt
        exact continues_expected group
      · match group, hnarrow with
        | [], hnarrow => exact absurd (fun h => absurd h (by decide)) hnarrow
        | [u], hnarrow => exact absurd (fun h => absurd h (by decide : ¬ 2 ≤ 1)) hnarrow
        | u :: v :: group, _ =>
          rw [payloads, receive_singleton, aggregate, h264HandlePacket_aggregate,
            ffH264HandleAggregatedPacket] at hpkt
          cases hwalk : aggregatedNals 0 _ _ with
          | error e =>
            rw [hwalk] at hpkt
            cases hpkt
          | ok nals =>
            rw [hwalk] at hpkt
            cases hpkt
            exact continues_expected nals
    cases hpkt : receive (payloads max group) with
    | error e =>
      rw [hpkt] at hout
      cases hout
    | ok pkt =>
      cases hrest : receive (gs.flatMap (payloads max)) with
      | error e =>
        rw [hpkt, hrest] at hout
        cases hout
      | ok rest =>
        rw [hpkt, hrest] at hout
        cases hout
        exact continues_append (hfirst pkt hpkt)
          (ih (fun g hg => hnal g (List.mem_cons_of_mem group hg)) hrest)

theorem not_continues (hu : IsNal u) {k : Nat} (hk : k + 4 ≤ u.length) (rest : Bytes) :
    ¬ Continues (u.drop k ++ rest) := by
  have hdrop : (u.drop k).length = u.length - k := List.length_drop
  rintro (hnil | hstart)
  · have hlength := congrArg List.length hnil
    rw [List.length_append, List.length_nil] at hlength
    lia
  · have hinside : startSequence <+: u.drop k :=
      List.prefix_of_prefix_length_le hstart (List.prefix_append _ _)
        (by show 4 ≤ _; lia)
    apply hu.carried.noStartcode
    have hcode : [0, 0, 1] <:+: startSequence := ⟨[0], [], rfl⟩
    exact hcode.trans (hinside.isInfix.trans (List.drop_suffix k u).isInfix)

theorem exists_wide (h : ¬ ∀ u ∈ group, u.length < 2 ^ 16) :
    ∃ before u behind, group = before ++ u :: behind ∧ (∀ v ∈ before, v.length < 2 ^ 16) ∧
      2 ^ 16 ≤ u.length := by
  induction group with
  | nil => exact absurd (fun u hu => absurd hu List.not_mem_nil) h
  | cons v group ih =>
    by_cases hv : v.length < 2 ^ 16
    · have hrest : ¬ ∀ u ∈ group, u.length < 2 ^ 16 := fun hall => h fun u hu => by
        rcases List.mem_cons.mp hu with rfl | hmem
        · exact hv
        · exact hall u hmem
      obtain ⟨before, u, behind, rfl, hbefore, hu⟩ := ih hrest
      refine ⟨v :: before, u, behind, rfl, ?_, hu⟩
      intro w hw
      rcases List.mem_cons.mp hw with rfl | hmem
      · exact hv
      · exact hbefore w hmem
    · exact ⟨[], v, group, rfl, fun w hw => absurd hw List.not_mem_nil, Nat.le_of_not_lt hv⟩

/-- A group with a wide unit does not come back, whatever is received behind it: the part
that is taken for the unit is followed by a start code, or by nothing. -/
theorem receive_wide (hnal : ∀ u ∈ group, IsNal u) (hwide : ¬ Narrow group) {out tail : Bytes}
    (hout : receive (payloads max group) = .ok out) (htail : Continues tail) (others : Bytes) :
    out ++ tail ≠ expected group ++ others := by
  intro heq
  obtain ⟨hseveral, hmem⟩ : 2 ≤ group.length ∧ ¬ ∀ u ∈ group, u.length < 2 ^ 16 := by
    by_contra hneg
    exact hwide fun hseveral => by_contra fun hmem => hneg ⟨hseveral, hmem⟩
  obtain ⟨before, u, behind, hgroup, hbefore, hu⟩ := exists_wide hmem
  have hlt := Nat.mod_lt u.length (show 0 < 2 ^ 16 by norm_num)
  have hpayload : payloads max group = [aggregate group] := by
    match group, hseveral with
    | u :: v :: group, _ => rfl
  obtain ⟨spare, hspare⟩ := Nat.exists_eq_add_of_le (length_le_flatMap group)
  have hrounds : group.length + spare = before.length + ((behind.length + spare) + 1) := by
    rw [hgroup, List.length_append, List.length_cons]
    lia
  have hbytes : (group.flatMap fun u => putBE 2 u.length ++ u) =
      (before.flatMap fun u => putBE 2 u.length ++ u) ++ (putBE 2 u.length ++
        (u ++ behind.flatMap fun u => putBE 2 u.length ++ u)) := by
    rw [hgroup, List.flatMap_append, List.flatMap_cons, List.append_assoc]
  rw [hpayload, receive_singleton, aggregate, h264HandlePacket_aggregate,
    ffH264HandleAggregatedPacket, hspare, hrounds, hbytes, aggregatedNals_append _ _ (fun w hw =>
      ⟨(hnal w (by rw [hgroup]; exact List.mem_append_left _ hw)).carried.nonempty, hbefore w hw⟩),
    aggregatedNals_wide _ _ _ hu] at hout
  cases hwalk : aggregatedNals 0 (behind.length + spare)
      ((u ++ behind.flatMap fun u => putBE 2 u.length ++ u).drop (u.length % 2 ^ 16)) with
  | error e =>
    rw [hwalk] at hout
    cases hout
  | ok nals =>
    rw [hwalk] at hout
    have hparts : out = expected before ++ (startSequence ++ (u.take (u.length % 2 ^ 16) ++
        expected nals)) := by
      cases hout
      show expected (before ++ u.take (u.length % 2 ^ 16) :: nals) = _
      simp only [expected, List.flatMap_append, List.flatMap_cons, List.append_assoc]
    have hwhole : expected group ++ others = expected before ++ (startSequence ++
        (u.take (u.length % 2 ^ 16) ++ (u.drop (u.length % 2 ^ 16) ++
          (expected behind ++ others)))) := by
      rw [← List.append_assoc (List.take _ u), List.take_append_drop, hgroup]
      simp only [expected, List.flatMap_append, List.flatMap_cons, List.append_assoc]
    rw [hparts, hwhole] at heq
    simp only [List.append_assoc, List.append_cancel_left_eq] at heq
    have hnal := hnal u (by rw [hgroup]; exact List.mem_append_right _ List.mem_cons_self)
    apply not_continues hnal (k := u.length % 2 ^ 16) (by lia) (expected behind ++ others)
    rw [← heq]
    exact continues_append (continues_expected nals) htail

/-- Groups come back as their units if and only if none has a wide unit. -/
theorem receive_groups_iff (hmax : 4 ≤ max) (hnal : ∀ group ∈ gs, ∀ u ∈ group, IsNal u) :
    receive (gs.flatMap (payloads max)) = .ok (expected gs.flatten) ↔
      ∀ group ∈ gs, Narrow group := by
  induction gs with
  | nil => exact ⟨fun _ group hgroup => absurd hgroup List.not_mem_nil, fun _ => rfl⟩
  | cons group gs ih =>
    have hnal' : ∀ g ∈ gs, ∀ u ∈ g, IsNal u := fun g hg => hnal g (List.mem_cons_of_mem group hg)
    have hflatten : expected (group :: gs).flatten = expected group ++ expected gs.flatten := by
      rw [List.flatten_cons, expected, List.flatMap_append]
      rfl
    rw [List.forall_mem_cons, ← ih hnal', List.flatMap_cons, receive_append, hflatten]
    by_cases hnarrow : Narrow group
    · rw [receive_payloads hmax (hnal group List.mem_cons_self) hnarrow, and_iff_right hnarrow]
      cases hrest : receive (gs.flatMap (payloads max)) with
      | error e =>
        constructor
        · intro hout
          cases hout
        · intro hout
          cases hout
      | ok rest =>
        show Except.ok (expected group ++ rest) = Except.ok _ ↔ Except.ok rest = Except.ok _
        rw [Except.ok.injEq, Except.ok.injEq, List.append_cancel_left_eq]
    · refine ⟨fun hout => ?_, fun h => absurd h.1 hnarrow⟩
      cases hpkt : receive (payloads max group) with
      | error e =>
        rw [hpkt] at hout
        cases hout
      | ok pkt =>
        cases hrest : receive (gs.flatMap (payloads max)) with
        | error e =>
          rw [hpkt, hrest] at hout
          cases hout
        | ok rest =>
          rw [hpkt, hrest] at hout
          refine absurd (Except.ok.inj hout) (receive_wide (hnal group List.mem_cons_self) hnarrow
            hpkt (receive_groups_continues hmax hnal' hrest) _)

/-! ## Arrival -/

/-- What is to be said of the payloads of an access unit: none is too long, just the last
one has the marker, and the receiver gets the units back. -/
structure Arrives (max : Nat) (units : List Bytes) (sent : List Payload) : Prop where
  length_le : ∀ p ∈ sent, p.buf1.length ≤ max
  marker : ∀ (i : Nat) (hi : i < sent.length), sent[i].m = decide (i + 1 = sent.length)
  received : receive (sent.map Payload.buf1) = .ok (expected units)

theorem length_le_of_fragment (hmax : 4 ≤ max) (indicator header : UInt8) (nal : Bytes) :
    ∀ p ∈ fragmentsFrom max indicator rounds header nal, p.length ≤ max := by
  induction rounds generalizing header nal with
  | zero => exact fun p hp => absurd hp List.not_mem_nil
  | succ rounds ih =>
    unfold fragmentsFrom
    split_ifs with hlong
    · intro p hp
      rcases List.mem_cons.mp hp with rfl | hrest
      · rw [List.length_append, List.length_take]
        show 2 + _ ≤ _
        lia
      · exact ih _ _ p hrest
    · intro p hp
      rw [List.mem_singleton.mp hp, List.length_append]
      show 2 + _ ≤ _
      lia

theorem length_le_of_payload (hmax : 4 ≤ max) (hfits : Fits max group) :
    ∀ p ∈ payloads max group, p.length ≤ max := by
  match group with
  | [] => exact fun p hp => absurd hp List.not_mem_nil
  | [u] =>
    by_cases hle : u.length ≤ max
    · rw [payloads, if_pos hle]
      intro p hp
      rwa [List.mem_singleton.mp hp]
    · rw [payloads, if_neg hle]
      exact length_le_of_fragment hmax _ _ _
  | u :: v :: group =>
    intro p hp
    rw [List.mem_singleton.mp hp]
    rcases hfits with ⟨w, hw⟩ | hle
    · exact absurd (congrArg List.length hw) (by simp)
    · exact hle

theorem isNal_of_mem_groups (max : Nat) (hnal : ∀ u ∈ units, IsNal u) :
    ∀ group ∈ groups max [] units, ∀ u ∈ group, IsNal u := by
  intro group hgroup u hu
  apply hnal
  have hflatten := flatten_groups max [] units
  rw [List.nil_append] at hflatten
  rw [← hflatten]
  exact List.mem_flatten_of_mem hgroup hu

theorem arrives_iff (hmax : 4 ≤ max) (hnal : ∀ u ∈ units, IsNal u) :
    Arrives max units (marked true ((groups max [] units).flatMap (payloads max))) ↔
      ∀ group ∈ groups max [] units, Narrow group := by
  have hiff := receive_groups_iff hmax (isNal_of_mem_groups max hnal)
  rw [flatten_groups, List.nil_append] at hiff
  rw [← hiff]
  constructor
  · intro h
    have hreceived := h.received
    rwa [map_buf1_marked] at hreceived
  · intro h
    refine ⟨?_, ?_, by rwa [map_buf1_marked]⟩
    · intro p hp
      have hmem := List.mem_map_of_mem (f := Payload.buf1) hp
      rw [map_buf1_marked] at hmem
      obtain ⟨group, hgroup, hpayload⟩ := List.mem_flatMap.mp hmem
      exact length_le_of_payload hmax
        (fits_of_mem_groups (Or.inr (Nat.zero_le _)) group hgroup) _ hpayload
    · intro i hi
      rw [m_getElem_marked, Bool.true_and]

/-- The payloads of an access unit are those of its groups. -/
theorem ffRtpSendH264Hevc_sends (bigEndian : Bool) (address : Nat) {buf1 : Bytes} (hs : Holds s [])
    (hmax : 4 ≤ s.maxPayloadSize) (h : AccessUnit s.nalLengthSize units buf1) :
    ∃ s', ffRtpSendH264Hevc bigEndian address s buf1 = some s' ∧ Sends s s' []
      (marked true ((groups s.maxPayloadSize [] units).flatMap (payloads s.maxPayloadSize))) := by
  have hptr : s.bufPtr = 0 := hs.bufPtr
  obtain ⟨s₀, hs₀⟩ : ∃ s₀, s₀ = { s with timestamp := s.curTimestamp, bufPtr := 0 } := ⟨_, rfl⟩
  have hstart : Sends s s₀ [] [] := by
    rw [hs₀]
    exact ⟨⟨hs.codecId, hs.mode0, hs.length_buf, rfl, Nat.zero_le _, rfl, hs.bufferedNals⟩, rfl,
      rfl, (List.append_nil _).symm⟩
  have hfirst : (if s.nalLengthSize ≠ 0 then
      if (ffAvcMp4FindStartcode buf1 0 buf1.length s.nalLengthSize).isSome then 0
        else buf1.length
      else ffAvcFindStartcode bigEndian address buf1 0 buf1.length) = 0 := by
    generalize s.nalLengthSize = n at h ⊢
    cases h with
    | nil => split_ifs <;> rfl
    | annexB code hu h =>
      rw [if_neg (not_not.mpr rfl)]
      exact ffAvcFindStartcode_zero _ _ (h.annexB code hu).startsWithCode
    | @lengthPrefixed n u units rest hpos hn hu hlength h =>
      have hend := ffAvcMp4FindStartcode_eq [] rest hlength
      rw [if_pos (by lia)]
      exact if_pos (by rw [List.nil_append] at hend; exact congrArg Option.isSome hend)
  have hloop := sendNals_eq bigEndian address [] h hstart.holds
    (by rw [hstart.maxPayloadSize]; exact hmax) hstart.nalLengthSize (Nat.lt_succ_self _)
  obtain ⟨s', hrun, hsends⟩ := sendUnits_sends units hstart.holds
    (by rw [hstart.maxPayloadSize]; exact hmax)
  rw [hstart.maxPayloadSize] at hsends
  rw [List.nil_append, List.length_nil, hrun] at hloop
  refine ⟨flushBuffered s' true, ?_, hstart.trans hsends⟩
  unfold ffRtpSendH264Hevc
  dsimp only
  rw [hfirst, ← hs₀, hloop]
  rfl

/-- **When an access unit arrives whole.**  No unit of 65536 bytes or more shares its
payload with another one. -/
theorem ffRtpSendH264Hevc_arrives_iff (bigEndian : Bool) (address : Nat) {s : RTPMuxContext}
    {units : List Bytes} {buf1 : Bytes} (hs : Holds s []) (hmax : 4 ≤ s.maxPayloadSize)
    (h : AccessUnit s.nalLengthSize units buf1) :
    ∃ s' new, ffRtpSendH264Hevc bigEndian address s buf1 = some s' ∧ Sends s s' [] new ∧
      (Arrives s.maxPayloadSize units new ↔
        ∀ group ∈ groups s.maxPayloadSize [] units, Narrow group) := by
  obtain ⟨s', hrun, hsends⟩ := ffRtpSendH264Hevc_sends bigEndian address hs hmax h
  exact ⟨s', _, hrun, hsends, arrives_iff hmax h.isNal⟩

theorem isNal_of_ne_zero {b : UInt8} {body : Bytes} (hbody : ∀ c ∈ b :: body, c ≠ 0)
    (hpos : 1 ≤ b &&& 0x1f) (hle : b &&& 0x1f ≤ 23) (hforbidden : b &&& 0x80 = 0) :
    IsNal (b :: body) := by
  refine ⟨⟨List.cons_ne_nil b body, ?_, ?_⟩, hpos, hle, hforbidden⟩
  · intro hcode
    exact hbody 0 (hcode.subset List.mem_cons_self) rfl
  · exact hbody _ (List.getLast_mem _)

/-- The sender with this payload size and nothing sent. -/
def start (maxPayloadSize nalLengthSize : Nat) : RTPMuxContext where
  codecId := .h264
  mode0 := false
  timestamp := 0
  curTimestamp := 0
  maxPayloadSize := maxPayloadSize
  buf := List.replicate (maxPayloadSize + 12) 0
  bufPtr := 0
  nalLengthSize := nalLengthSize
  bufferedNals := 0
  sent := []

theorem holds_start (maxPayloadSize nalLengthSize : Nat) : Holds (start maxPayloadSize nalLengthSize) [] where
  codecId := rfl
  mode0 := rfl
  length_buf := by
    show maxPayloadSize ≤ (List.replicate (maxPayloadSize + 12) (0 : UInt8)).length
    rw [List.length_replicate]
    lia
  bufPtr := rfl
  bufPtr_le := Nat.zero_le _
  content := rfl
  bufferedNals := rfl

theorem ffRtpSendH264Hevc_arrives_iff_twoUnits :
    ∃ s' new, ffRtpSendH264Hevc false 0 (start 8 2) [0, 3, 0x65, 1, 2, 0, 2, 0x41, 3] = some s' ∧
      Sends (start 8 2) s' [] new ∧
      (Arrives 8 [[0x65, 1, 2], [0x41, 3]] new ↔
        ∀ group ∈ groups 8 [] [[0x65, 1, 2], [0x41, 3]], Narrow group) := by
  have hunit : IsNal [0x65, 1, 2] :=
    isNal_of_ne_zero (by simp) (by decide) (by decide) (by decide)
  have hunit' : IsNal [0x41, 3] :=
    isNal_of_ne_zero (by simp) (by decide) (by decide) (by decide)
  exact ffRtpSendH264Hevc_arrives_iff false 0 (holds_start 8 2) (by decide)
    (.lengthPrefixed (by decide) (by decide) hunit (by decide)
      (.lengthPrefixed (by decide) (by decide) hunit' (by decide) (.nil 2)))

/-- A unit of 65536 bytes. -/
def wideUnit : Bytes := 0x41 :: List.replicate 65535 1

theorem length_wideUnit : wideUnit.length = 65536 := by
  rw [wideUnit, List.length_cons, List.length_replicate]

theorem isNal_wideUnit : IsNal wideUnit := by
  refine isNal_of_ne_zero ?_ (by decide) (by decide) (by decide)
  intro c hc
  rcases List.mem_cons.mp hc with rfl | hrest
  · decide
  · rw [List.eq_of_mem_replicate hrest]
    decide

theorem groups_pair {v : Bytes} (h : 6 + u.length + v.length ≤ max) :
    groups max [] [u, v] = [[u, v]] := by
  have hempty : (buffered []).length = 0 := rfl
  have hsize := length_buffered_concat [] u
  rw [if_pos rfl, List.nil_append] at hsize
  have hfirst : place max [] u = ([], [u]) := if_pos (by lia)
  have hsecond : place max [u] v = ([], [u, v]) := if_pos (by lia)
  rw [groups, hfirst, groups, hsecond]
  rfl

theorem groups_wideUnit : groups 65543 [] [wideUnit, [0x41]] = [[wideUnit, [0x41]]] := by
  apply groups_pair
  rw [length_wideUnit, List.length_singleton]

/-- The length of the first unit is sent as zero. -/
theorem not_arrives_wideUnit :
    ¬ ∀ (bigEndian : Bool) (address : Nat) (s : RTPMuxContext) (units : List Bytes) (buf1 : Bytes),
      Holds s [] → 4 ≤ s.maxPayloadSize → AccessUnit s.nalLengthSize units buf1 →
      ∃ s' new, ffRtpSendH264Hevc bigEndian address s buf1 = some s' ∧ Sends s s' [] new ∧
        Arrives s.maxPayloadSize units new := by
  intro h
  have hunit : IsNal [0x41] := isNal_of_ne_zero (by simp) (by decide) (by decide) (by decide)
  have hnal : ∀ u ∈ [wideUnit, [0x41]], IsNal u := by
    intro u hu
    rcases List.mem_cons.mp hu with rfl | hrest
    · exact isNal_wideUnit
    · rw [List.mem_singleton.mp hrest]
      exact hunit
  have hunits : AccessUnit 0 [wideUnit, [0x41]] _ :=
    .annexB .four isNal_wideUnit (.annexB .four hunit (.nil 0))
  have hmax : 4 ≤ (start 65543 0).maxPayloadSize := show 4 ≤ 65543 by norm_num
  obtain ⟨s', new, hrun, hsends, harrives⟩ := h false 0 (start 65543 0) _ _ (holds_start 65543 0)
    hmax hunits
  obtain ⟨s'', hrun', hsends'⟩ := ffRtpSendH264Hevc_sends false 0 (holds_start 65543 0) hmax hunits
  rw [hrun'] at hrun
  cases hrun
  have hnew := List.append_cancel_left (hsends.sent.symm.trans hsends'.sent)
  rw [hnew] at harrives
  have hnarrow := (arrives_iff hmax hnal).mp harrives [wideUnit, [0x41]]
    (by rw [show (start 65543 0).maxPayloadSize = 65543 from rfl, groups_wideUnit]
        exact List.mem_singleton_self _)
  have hlt := hnarrow (by decide) wideUnit List.mem_cons_self
  rw [length_wideUnit] at hlt
  norm_num at hlt

end FFmpeg.Libavformat.RtpH264
