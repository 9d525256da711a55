import FFmpeg.Libavformat.RtpEncH264

/-!
# What the sender makes of a list of units

Units are put into groups, and a group becomes one payload, or the fragments of its
only unit.  The functions that send keep what is buffered equal to the group that is
open, so the payloads of a run are those of the groups, in order, and only the last
one has the marker.
-/

namespace FFmpeg.Libavformat.RtpEncH264Groups

open Common Avc RtpEncH264

/-! ## Groups -/

/-- The payload that carries several units, each behind its length. -/
def aggregate (group : List Bytes) : Bytes :=
  24 :: group.flatMap fun u => putBE 2 u.length ++ u

/-- What the buffer holds when these units are in it. -/
def buffered : List Bytes → Bytes
  | [] => []
  | u :: group => aggregate (u :: group)

/-- The fragments of the rest of a unit, behind a header of two bytes. -/
def fragmentsFrom (max : Nat) (indicator : UInt8) : Nat → UInt8 → Bytes → List Bytes
  | 0, _, _ => []
  | rounds + 1, header, nal =>
    if nal.length + 2 > max then
      ([indicator, header] ++ nal.take (max - 2)) ::
        fragmentsFrom max indicator rounds (header &&& ~~~((1 : UInt8) <<< (7 : UInt8))) (nal.drop (max - 2))
    else [[indicator, header ||| (1 : UInt8) <<< (6 : UInt8)] ++ nal]

/-- The fragments of a unit. -/
def fragments (max : Nat) (u : Bytes) : List Bytes :=
  fragmentsFrom max (28 ||| (byte u 0 &&& 0x60)) u.length
    ((byte u 0 &&& 0x1f) ||| (1 : UInt8) <<< (7 : UInt8)) (u.drop 1)

/-- The payloads of a group. -/
def payloads (max : Nat) : List Bytes → List Bytes
  | [] => []
  | [u] => if u.length ≤ max then [u] else fragments max u
  | u :: v :: group => [aggregate (u :: v :: group)]

/-- The groups that a unit closes, and the group that is open behind it.  It joins the
open group when a byte more than needed would be left, and is sent alone when it fills
the payload exactly. -/
def place (max : Nat) (pending : List Bytes) (u : Bytes) : List (List Bytes) × List Bytes :=
  let size := (buffered pending).length
  if size + 3 + u.length ≤ max then ([], pending ++ [u])
  else if 3 + u.length ≤ max ∧ size + 2 + u.length ≠ max then ([pending], [u])
  else ([pending, [u]], [])

/-- The groups of the units that follow an open group. -/
def groups (max : Nat) : List Bytes → List Bytes → List (List Bytes)
  | pending, [] => [pending]
  | pending, u :: units =>
    (place max pending u).1 ++ groups max (place max pending u).2 units

theorem flatten_place (max : Nat) (pending : List Bytes) (u : Bytes) :
    (place max pending u).1.flatten ++ (place max pending u).2 = pending ++ [u] := by
  unfold place
  dsimp only
  split_ifs <;> simp

theorem flatten_groups (max : Nat) (pending units : List Bytes) :
    (groups max pending units).flatten = pending ++ units := by
  induction units generalizing pending with
  | nil => simp [groups]
  | cons u units ih =>
    rw [groups, List.flatten_append, ih, ← List.append_assoc, flatten_place, List.append_assoc]
    rfl

variable {group : List Bytes}

theorem buffered_eq (h : group ≠ []) : buffered group = aggregate group := by
  cases group with
  | nil => exact absurd rfl h
  | cons u group => rfl

theorem aggregate_concat (group : List Bytes) (u : Bytes) :
    aggregate (group ++ [u]) = aggregate group ++ (putBE 2 u.length ++ u) := by
  rw [aggregate, List.flatMap_append, List.flatMap_singleton, aggregate, List.cons_append]

theorem length_buffered_concat (group : List Bytes) (u : Bytes) :
    (buffered (group ++ [u])).length =
      (if group = [] then 1 else (buffered group).length) + 2 + u.length := by
  rw [buffered_eq (by simp), aggregate_concat, List.length_append, List.length_append, length_putBE,
    Nat.add_assoc]
  congr 1
  by_cases h : group = []
  · rw [if_pos h, h]
    rfl
  · rw [if_neg h, buffered_eq h]

theorem length_buffered_pos (h : group ≠ []) : 0 < (buffered group).length := by
  rw [buffered_eq h, aggregate, List.length_cons]
  exact Nat.succ_pos _

/-- A group is a single unit, or fits into a payload. -/
def Fits (max : Nat) (group : List Bytes) : Prop :=
  (∃ u, group = [u]) ∨ (buffered group).length ≤ max

variable {max : Nat} {pending : List Bytes}

theorem fits_place (hpending : Fits max pending) (u : Bytes) :
    (∀ group ∈ (place max pending u).1, Fits max group) ∧ Fits max (place max pending u).2 := by
  unfold place
  dsimp only
  split_ifs with hjoin hopen
  · refine ⟨by simp, Or.inr ?_⟩
    rw [length_buffered_concat]
    split_ifs <;> lia
  · exact ⟨by simpa using hpending, Or.inl ⟨u, rfl⟩⟩
  · refine ⟨?_, Or.inr (Nat.zero_le _)⟩
    intro group hgroup
    rcases List.mem_cons.mp hgroup with rfl | hrest
    · exact hpending
    · exact Or.inl ⟨u, List.mem_singleton.mp hrest⟩

theorem fits_of_mem_groups {units : List Bytes} (hpending : Fits max pending) :
    ∀ group ∈ groups max pending units, Fits max group := by
  induction units generalizing pending with
  | nil =>
    intro group hgroup
    obtain rfl := List.mem_singleton.mp hgroup
    exact hpending
  | cons u units ih =>
    obtain ⟨hclosed, hopen⟩ := fits_place hpending u
    intro group hgroup
    rcases List.mem_append.mp hgroup with hplace | hrest
    · exact hclosed group hplace
    · exact ih hopen group hrest

theorem fragmentsFrom_ne_nil {rounds : Nat} (hrounds : 0 < rounds) (indicator header : UInt8)
    (nal : Bytes) : fragmentsFrom max indicator rounds header nal ≠ [] := by
  cases rounds with
  | zero => exact absurd hrounds (lt_irrefl 0)
  | succ rounds =>
    unfold fragmentsFrom
    split_ifs <;> exact List.cons_ne_nil _ _

theorem payloads_ne_nil (h : group ≠ []) : payloads max group ≠ [] := by
  match group, h with
  | [u], _ =>
    rw [payloads]
    split_ifs with hle
    · exact List.cons_ne_nil _ _
    · exact fragmentsFrom_ne_nil (by lia) _ _ _
  | u :: v :: group, _ => exact List.cons_ne_nil _ _

theorem groups_payloads_ne_nil {units : List Bytes} (h : pending ++ units ≠ []) :
    (groups max pending units).flatMap (payloads max) ≠ [] := by
  intro hnil
  rw [List.flatMap_eq_nil_iff] at hnil
  apply h
  rw [← flatten_groups max, List.flatten_eq_nil_iff]
  intro group hgroup
  by_contra hne
  exact payloads_ne_nil hne (hnil group hgroup)

/-! ## Markers -/

/-- Payloads of which the last one has the marker, if any. -/
def marked (last : Bool) : List Bytes → List Payload
  | [] => []
  | [p] => [⟨p, last⟩]
  | p :: q :: ps => ⟨p, false⟩ :: marked last (q :: ps)

theorem marked_cons {last : Bool} {p : Bytes} {ps : List Bytes} (h : ps ≠ []) :
    marked last (p :: ps) = ⟨p, false⟩ :: marked last ps := by
  cases ps with
  | nil => exact absurd rfl h
  | cons q ps => rfl

theorem marked_append {last : Bool} (ps : List Bytes) {qs : List Bytes} (h : qs ≠ []) :
    marked last (ps ++ qs) = marked false ps ++ marked last qs := by
  induction ps with
  | nil => rfl
  | cons p ps ih =>
    rw [List.cons_append, marked_cons (by simp [h]), ih]
    cases ps <;> rfl

theorem map_buf1_marked (last : Bool) (ps : List Bytes) :
    (marked last ps).map Payload.buf1 = ps := by
  induction ps with
  | nil => rfl
  | cons p ps ih =>
    cases ps with
    | nil => rfl
    | cons q ps => rw [marked, List.map_cons, ih]

theorem length_marked (last : Bool) (ps : List Bytes) : (marked last ps).length = ps.length := by
  rw [← List.length_map Payload.buf1, map_buf1_marked]

theorem m_getElem_marked (last : Bool) (ps : List Bytes) {i : Nat}
    (hi : i < (marked last ps).length) :
    ((marked last ps)[i]).m = (last && decide (i + 1 = (marked last ps).length)) := by
  induction ps generalizing i with
  | nil => exact absurd hi (Nat.not_lt_zero i)
  | cons p ps ih =>
    cases ps with
    | nil =>
      obtain rfl : i = 0 := Nat.lt_one_iff.mp hi
      simp [marked]
    | cons q ps =>
      cases i with
      | zero => simp [marked, length_marked]
      | succ i =>
        have hrest := ih (i := i) (Nat.lt_of_succ_lt_succ hi)
        simpa [marked] using hrest

/-! ## Sending -/

/-- The sender of H.264 in mode 1 with a group open. -/
structure Holds (s : RTPMuxContext) (pending : List Bytes) : Prop where
  codecId : s.codecId = .h264
  mode0 : s.mode0 = false
  length_buf : s.maxPayloadSize ≤ s.buf.length
  bufPtr : s.bufPtr = (buffered pending).length
  bufPtr_le : s.bufPtr ≤ s.maxPayloadSize
  content : s.buf.take s.bufPtr = buffered pending
  bufferedNals : s.bufferedNals = pending.length

/-- A function that sends, up to a state with another group open. -/
structure Sends (s s' : RTPMuxContext) (pending : List Bytes) (new : List Payload) : Prop where
  holds : Holds s' pending
  maxPayloadSize : s'.maxPayloadSize = s.maxPayloadSize
  nalLengthSize : s'.nalLengthSize = s.nalLengthSize
  sent : s'.sent = s.sent ++ new

variable {s : RTPMuxContext}

theorem Sends.trans {s' s'' : RTPMuxContext} {pending' : List Bytes} {new new' : List Payload}
    (h : Sends s s' pending new) (h' : Sends s' s'' pending' new') :
    Sends s s'' pending' (new ++ new') :=
  ⟨h'.holds, h'.maxPayloadSize.trans h.maxPayloadSize, h'.nalLengthSize.trans h.nalLengthSize,
    by rw [h'.sent, h.sent, List.append_assoc]⟩

theorem Holds.self (h : Holds s pending) : Sends s s pending [] :=
  ⟨h, rfl, rfl, (List.append_nil _).symm⟩

theorem Holds.send (h : Holds s pending) (buf1 : Bytes) (m : Bool) :
    Sends s (ffRtpSendData s buf1 m) pending [⟨buf1, m⟩] :=
  ⟨⟨h.codecId, h.mode0, h.length_buf, h.bufPtr, h.bufPtr_le, h.content, h.bufferedNals⟩, rfl, rfl,
    rfl⟩

theorem Sends.reset {s' : RTPMuxContext} {new : List Payload} (h : Sends s s' pending new) :
    Sends s { s' with bufPtr := 0, bufferedNals := 0 } [] new :=
  ⟨⟨h.holds.codecId, h.holds.mode0, h.holds.length_buf, rfl, Nat.zero_le _, rfl, rfl⟩,
    h.maxPayloadSize, h.nalLengthSize, h.sent⟩

/-- What is sent when the buffer is flushed. -/
theorem flushBuffered_sends (h : Holds s pending) (last : Bool) :
    Sends s (flushBuffered s last) [] (marked last (payloads s.maxPayloadSize pending)) := by
  have hlength := h.bufPtr
  have hcontent := h.content
  have hle := h.bufPtr_le
  unfold flushBuffered
  match pending with
  | [] =>
    have hzero : ¬ s.bufPtr ≠ 0 := not_not.mpr hlength
    rw [if_neg hzero]
    exact h.self.reset
  | [u] =>
    have hsize : (buffered [u]).length = 3 + u.length := by
      have := length_buffered_concat [] u
      simpa [Nat.add_assoc] using this
    have hnal : slice s.buf 3 (s.bufPtr - 3) = u := by
      rw [slice, ← List.drop_take, hcontent, buffered, aggregate, List.flatMap_singleton]
      exact List.drop_left' (length_putBE 2 _)
    have hcount : s.bufferedNals = 1 := h.bufferedNals
    rw [if_pos (by lia), if_pos hcount, h.codecId]
    simp only [hnal]
    rw [payloads, if_pos (by lia)]
    exact (h.send u last).reset
  | u :: v :: group =>
    have hpos := length_buffered_pos (List.cons_ne_nil u (v :: group))
    have hcount : ¬ s.bufferedNals = 1 := by
      rw [h.bufferedNals, List.length_cons, List.length_cons]
      lia
    rw [if_pos (by lia), if_neg hcount, hcontent]
    exact (h.send _ last).reset

theorem put_content (bytes : Bytes) {old : Bytes} (hold : s.buf.take s.bufPtr = old)
    (hroom : s.bufPtr + bytes.length ≤ s.buf.length) :
    (put s bytes).buf.take (put s bytes).bufPtr = old ++ bytes ∧
      (put s bytes).buf.length = s.buf.length := by
  refine ⟨?_, length_overwrite_of_le hroom⟩
  show (overwrite s.buf s.bufPtr bytes).take (s.bufPtr + bytes.length) = old ++ bytes
  rw [take_overwrite (by lia), hold]

variable {u : Bytes}

/-- A unit joins the group that is open. -/
theorem Holds.join (h : Holds s pending) (hfits : s.bufPtr + 3 + u.length ≤ s.maxPayloadSize) :
    let s₁ := if s.bufPtr = 0 then put s (aggregationHeader s.codecId) else s
    let s₂ := put (put s₁ (putBE 2 u.length)) u
    Sends s { s₂ with bufferedNals := s₂.bufferedNals + 1 } (pending ++ [u]) [] := by
  have hroom := h.length_buf
  -- the header is in front of the first unit
  obtain ⟨s₁, hs₁, hcontent, hlength, hptr, hrest⟩ : ∃ s₁ : RTPMuxContext,
      s₁ = (if s.bufPtr = 0 then put s (aggregationHeader s.codecId) else s) ∧
      s₁.buf.take s₁.bufPtr = aggregate pending ∧ s₁.buf.length = s.buf.length ∧
      s₁.bufPtr ≤ s.bufPtr + 1 ∧ s₁ = { s with buf := s₁.buf, bufPtr := s₁.bufPtr } := by
    by_cases hzero : s.bufPtr = 0
    · have hnil : pending = [] := by
        by_contra hne
        have hpos := length_buffered_pos hne
        have hsize := h.bufPtr
        lia
      have hheader : aggregationHeader s.codecId = [24] := by rw [h.codecId]; rfl
      obtain ⟨hput, hlen⟩ := put_content [24] h.content
        (by rw [List.length_singleton]; lia)
      refine ⟨put s [24], by rw [if_pos hzero, hheader], ?_, hlen, le_rfl, rfl⟩
      rw [hput, hnil]
      rfl
    · have hne : pending ≠ [] := by
        rintro rfl
        exact hzero h.bufPtr
      refine ⟨s, by rw [if_neg hzero], ?_, rfl, Nat.le_succ _, rfl⟩
      rw [h.content, buffered_eq hne]
  rw [← hs₁]
  obtain ⟨hput, hlen⟩ := put_content (putBE 2 u.length) hcontent
    (by rw [length_putBE]; lia)
  have hptr' : (put s₁ (putBE 2 u.length)).bufPtr = s₁.bufPtr + 2 := by
    show s₁.bufPtr + (putBE 2 u.length).length = _
    rw [length_putBE]
  obtain ⟨hput', hlen'⟩ := put_content u hput
    (by lia)
  have hbytes : buffered (pending ++ [u]) = aggregate pending ++ putBE 2 u.length ++ u := by
    rw [buffered_eq (by simp), aggregate_concat, List.append_assoc]
  have hptr'' : (put (put s₁ (putBE 2 u.length)) u).bufPtr = s₁.bufPtr + 2 + u.length := by
    show (put s₁ (putBE 2 u.length)).bufPtr + u.length = _
    rw [hptr']
  have hmax : s₁.maxPayloadSize = s.maxPayloadSize := by rw [hrest]
  refine ⟨⟨?_, ?_, ?_, ?_, ?_, ?_, ?_⟩, hmax, ?_, ?_⟩
  · show s₁.codecId = _
    rw [hrest]
    exact h.codecId
  · show s₁.mode0 = _
    rw [hrest]
    exact h.mode0
  · show s₁.maxPayloadSize ≤ _
    rw [hmax, hlen', hlen, hlength]
    exact hroom
  · show (put (put s₁ (putBE 2 u.length)) u).bufPtr = _
    have hfull := congrArg List.length hput'
    rw [List.length_take] at hfull
    rw [hbytes, ← hfull]
    lia
  · show (put (put s₁ (putBE 2 u.length)) u).bufPtr ≤ s₁.maxPayloadSize
    lia
  · exact hput'.trans hbytes.symm
  · show s₁.bufferedNals + 1 = _
    rw [hrest, List.length_append, List.length_singleton]
    exact congrArg (· + 1) h.bufferedNals
  · show s₁.nalLengthSize = _
    rw [hrest]
  · show s₁.sent = _
    rw [hrest, List.append_nil]

theorem Holds.setBuf (h : Holds s []) (buf : Bytes) (hlength : buf.length = s.buf.length) :
    Sends s { s with buf := buf } [] [] := by
  have hzero : s.bufPtr = 0 := h.bufPtr
  refine ⟨⟨h.codecId, h.mode0, hlength ▸ h.length_buf, hzero, h.bufPtr_le, ?_, h.bufferedNals⟩,
    rfl, rfl, (List.append_nil _).symm⟩
  show buf.take s.bufPtr = []
  rw [hzero, List.take_zero]

theorem overwrite_two (a b : UInt8) (tail new : Bytes) :
    overwrite (a :: b :: tail) 2 new = [a, b] ++ new ++ tail.drop new.length := by
  rw [overwrite, Nat.add_comm, List.drop_succ_cons, List.drop_succ_cons]
  rfl

/-- The loop over the fragments keeps the header in front of them in the buffer. -/
theorem sendFragments_sends {indicator : UInt8} (last : Bool) {rounds : Nat} {header : UInt8}
    {tail nal : Bytes} (h : Holds s []) (hmax : 4 ≤ s.maxPayloadSize)
    (hbuf : s.buf = indicator :: header :: tail) (hrounds : nal.length < rounds) :
    ∃ s', sendFragments 1 2 last rounds s nal = some s' ∧
      Sends s s' [] (marked last (fragmentsFrom s.maxPayloadSize indicator rounds header nal)) := by
  induction rounds generalizing s header tail nal with
  | zero => exact absurd hrounds (Nat.not_lt_zero _)
  | succ rounds ih =>
    have hroom := h.length_buf
    have htail : s.buf.length = tail.length + 2 := by rw [hbuf]; rfl
    unfold sendFragments fragmentsFrom
    by_cases hlong : nal.length + 2 > s.maxPayloadSize
    · have htake : (nal.take (s.maxPayloadSize - 2)).length = s.maxPayloadSize - 2 := by
        rw [List.length_take]
        lia
      have hwritten : overwrite s.buf 2 (nal.take (s.maxPayloadSize - 2)) =
          indicator :: header :: (nal.take (s.maxPayloadSize - 2) ++
            tail.drop (s.maxPayloadSize - 2)) := by
        rw [hbuf, overwrite_two, htake, List.append_assoc]
        rfl
      have hpayload : (overwrite s.buf 2 (nal.take (s.maxPayloadSize - 2))).take s.maxPayloadSize =
          [indicator, header] ++ nal.take (s.maxPayloadSize - 2) := by
        rw [hbuf, overwrite_two]
        refine List.take_left' ?_
        rw [List.length_append, htake]
        show 2 + _ = _
        lia
      have hlength : (overwrite s.buf 2 (nal.take (s.maxPayloadSize - 2))).length = s.buf.length :=
        length_overwrite_of_le (by lia)
      have hsent := (h.setBuf _ hlength).trans ((h.setBuf _ hlength).holds.send
        ([indicator, header] ++ nal.take (s.maxPayloadSize - 2)) false)
      have hflag := hsent.trans (hsent.holds.setBuf
        ((overwrite s.buf 2 (nal.take (s.maxPayloadSize - 2))).modify 1
          fun b => b &&& ~~~((1 : UInt8) <<< (7 : UInt8))) (List.length_modify _ _ _))
      rw [List.append_nil, List.nil_append] at hflag
      have hdrop : (nal.drop (s.maxPayloadSize - 2)).length < rounds := by
        rw [List.length_drop]
        lia
      obtain ⟨s', hrun, hsends⟩ := ih hflag.holds hmax (by rw [hwritten]; rfl) hdrop
      refine ⟨s', ?_, ?_⟩
      · rw [if_pos hlong]
        dsimp only
        rw [hpayload]
        exact hrun
      · rw [if_pos hlong, marked_cons (fragmentsFrom_ne_nil (by lia) _ _ _)]
        exact hflag.trans hsends
    · have hheader : s.buf.modify 1 (fun b => b ||| (1 : UInt8) <<< (6 : UInt8)) =
          indicator :: (header ||| (1 : UInt8) <<< (6 : UInt8)) :: tail := by
        rw [hbuf]
        rfl
      have hlength : (overwrite (s.buf.modify 1 fun b => b ||| (1 : UInt8) <<< (6 : UInt8)) 2
          nal).length = s.buf.length := by
        rw [length_overwrite_of_le (by rw [List.length_modify]; lia), List.length_modify]
      have hpayload : (overwrite (s.buf.modify 1 fun b => b ||| (1 : UInt8) <<< (6 : UInt8)) 2
          nal).take (nal.length + 2) = [indicator, header ||| (1 : UInt8) <<< (6 : UInt8)] ++ nal := by
        rw [hheader, overwrite_two]
        exact List.take_left' (by rw [List.length_append]; exact Nat.add_comm _ _)
      rw [if_neg hlong, if_neg hlong]
      refine ⟨_, rfl, ?_⟩
      show Sends s (ffRtpSendData { s with buf := _ } (List.take (nal.length + 2) _) last) [] _
      rw [hpayload]
      exact (h.setBuf _ hlength).trans ((h.setBuf _ hlength).holds.send _ last)

theorem sendWhole_join (h : Holds s pending) (last : Bool)
    (hfits : (buffered pending).length + 3 + u.length ≤ s.maxPayloadSize) :
    Sends s (sendWhole s u last) (pending ++ [u]) [] := by
  rw [← h.bufPtr] at hfits
  have hroom : ¬ s.bufPtr + 2 + u.length > s.maxPayloadSize := by lia
  unfold sendWhole
  simp only [h.codecId, h.mode0]
  rw [if_neg hroom, if_pos ⟨by lia, trivial⟩]
  exact h.join hfits

theorem sendWhole_open (h : Holds s pending) (last : Bool)
    (hfull : s.maxPayloadSize < (buffered pending).length + 2 + u.length)
    (hfits : 3 + u.length ≤ s.maxPayloadSize) :
    Sends s (sendWhole s u last) [u] (marked false (payloads s.maxPayloadSize pending)) := by
  rw [← h.bufPtr] at hfull
  have hflush := flushBuffered_sends h false
  have hzero : (flushBuffered s false).bufPtr = 0 := hflush.holds.bufPtr
  have hjoin := hflush.trans (hflush.holds.join (u := u)
    (by rw [hzero, hflush.maxPayloadSize]; lia))
  unfold sendWhole
  simp only [h.codecId, h.mode0]
  rw [if_pos hfull, if_pos ⟨by rw [hzero, hflush.maxPayloadSize]; lia, trivial⟩]
  rw [List.append_nil, hflush.holds.codecId] at hjoin
  rw [hflush.holds.codecId]
  exact hjoin

theorem sendWhole_alone (h : Holds s pending) (last : Bool)
    (hjoin : s.maxPayloadSize < (buffered pending).length + 3 + u.length)
    (hopen : ¬ (3 + u.length ≤ s.maxPayloadSize ∧ (buffered pending).length + 2 + u.length ≠ s.maxPayloadSize)) :
    Sends s (sendWhole s u last) []
      (marked false (payloads s.maxPayloadSize pending) ++ [⟨u, last⟩]) := by
  rw [← h.bufPtr] at hjoin hopen
  have hflush := flushBuffered_sends h false
  have hzero : (flushBuffered s false).bufPtr = 0 := hflush.holds.bufPtr
  unfold sendWhole
  simp only [h.codecId, h.mode0]
  by_cases hfull : s.bufPtr + 2 + u.length > s.maxPayloadSize
  · have hagain := flushBuffered_sends hflush.holds false
    have hsend := hflush.trans (hagain.trans (hagain.holds.send u last))
    rw [if_pos hfull, if_neg fun hfits => ?_]
    · exact hsend
    · rw [hzero, hflush.maxPayloadSize] at hfits
      lia
  · rw [if_neg hfull, if_neg (by lia)]
    exact hflush.trans (hflush.holds.send u last)

/-- A unit that does not fit into a payload. -/
theorem nalSend_fragments (h : Holds s pending) (last : Bool) (hmax : 4 ≤ s.maxPayloadSize)
    (hlong : s.maxPayloadSize < u.length) :
    ∃ s', nalSend s u last = some s' ∧
      Sends s s' [] (marked false (payloads s.maxPayloadSize pending) ++
        marked last (fragments s.maxPayloadSize u)) := by
  have hflush := flushBuffered_sends h false
  have hroom := hflush.holds.length_buf
  rw [hflush.maxPayloadSize] at hroom
  have hheader : ∃ tail, overwrite (flushBuffered s false).buf 0
      [28 ||| (byte u 0 &&& 0x60), byte u 0 &&& 0x1f ||| (1 : UInt8) <<< (7 : UInt8)] =
      (28 ||| (byte u 0 &&& 0x60)) :: (byte u 0 &&& 0x1f ||| (1 : UInt8) <<< (7 : UInt8)) :: tail :=
    ⟨_, rfl⟩
  obtain ⟨tail, htail⟩ := hheader
  have hset := hflush.holds.setBuf (overwrite (flushBuffered s false).buf 0
    [28 ||| (byte u 0 &&& 0x60), byte u 0 &&& 0x1f ||| (1 : UInt8) <<< (7 : UInt8)])
    (length_overwrite_of_le (by show 0 + 2 ≤ _; lia))
  have hdrop : (u.drop 1).length < u.length := by
    rw [List.length_drop]
    lia
  obtain ⟨s', hrun, hsends⟩ := sendFragments_sends last hset.holds
    (by rw [hset.maxPayloadSize, hflush.maxPayloadSize]; exact hmax) htail hdrop
  refine ⟨s', ?_, ?_⟩
  · have hwhole : ¬ u.length ≤ s.maxPayloadSize := by lia
    have hmode : ¬ (flushBuffered s false).mode0 = true := by rw [hflush.holds.mode0]; decide
    unfold nalSend
    rw [if_neg hwhole]
    dsimp only
    split
    · rw [if_neg hmode]
      exact hrun
    · rename_i hcodec
      rw [hflush.holds.codecId] at hcodec
      cases hcodec
  · refine hflush.trans (hset.trans ?_)
    rw [fragments, ← hflush.maxPayloadSize]
    exact hsends

/-- What one call of `nal_send` does to the group that is open. -/
theorem nalSend_sends (h : Holds s pending) (hmax : 4 ≤ s.maxPayloadSize) (u : Bytes) (last : Bool) :
    ∃ s', nalSend s u last = some s' ∧
      Sends s s' (place s.maxPayloadSize pending u).2
        (marked (last && (place s.maxPayloadSize pending u).2.isEmpty)
          ((place s.maxPayloadSize pending u).1.flatMap (payloads s.maxPayloadSize))) := by
  unfold place
  dsimp only
  by_cases hlong : s.maxPayloadSize < u.length
  · rw [if_neg (by lia), if_neg (by lia)]
    obtain ⟨s', hrun, hsends⟩ := nalSend_fragments h last hmax hlong
    refine ⟨s', hrun, ?_⟩
    have halone : payloads s.maxPayloadSize [u] = fragments s.maxPayloadSize u := if_neg (by lia)
    have hne : fragments s.maxPayloadSize u ≠ [] := fragmentsFrom_ne_nil (by lia) _ _ _
    rw [List.flatMap_cons, List.flatMap_singleton, halone, marked_append _ hne, List.isEmpty_nil,
      Bool.and_true]
    exact hsends
  have hwhole : nalSend s u last = some (sendWhole s u last) := if_pos (by lia)
  refine ⟨_, hwhole, ?_⟩
  by_cases hjoin : (buffered pending).length + 3 + u.length ≤ s.maxPayloadSize
  · rw [if_pos hjoin]
    exact sendWhole_join h last hjoin
  rw [if_neg hjoin]
  by_cases hopen : 3 + u.length ≤ s.maxPayloadSize ∧
      (buffered pending).length + 2 + u.length ≠ s.maxPayloadSize
  · rw [if_pos hopen, List.flatMap_singleton, List.isEmpty_cons, Bool.and_false]
    exact sendWhole_open h last (by lia) hopen.1
  · rw [if_neg hopen]
    have halone : payloads s.maxPayloadSize [u] = [u] := if_pos (by lia)
    rw [List.flatMap_cons, List.flatMap_singleton, halone, marked_append _ (List.cons_ne_nil u []),
      List.isEmpty_nil, Bool.and_true]
    exact sendWhole_alone h last (by lia) hopen

/-! ## A list of units -/

/-- The calls of `nal_send` for the units of an access unit. -/
def sendUnits (s : RTPMuxContext) : List Bytes → Option RTPMuxContext
  | [] => some s
  | u :: units => do
    let s ← nalSend s u units.isEmpty
    sendUnits s units

/-- The units that remain are sent in their groups; the induction is on them. -/
theorem sendUnits_sends (units : List Bytes) (h : Holds s pending) (hmax : 4 ≤ s.maxPayloadSize) :
    ∃ s', sendUnits s units = some s' ∧
      Sends s (flushBuffered s' true) []
        (marked true ((groups s.maxPayloadSize pending units).flatMap
          (payloads s.maxPayloadSize))) := by
  induction units generalizing s pending with
  | nil =>
    refine ⟨s, rfl, ?_⟩
    rw [groups, List.flatMap_singleton]
    exact flushBuffered_sends h true
  | cons u units ih =>
    obtain ⟨s₁, hrun, hsends⟩ := nalSend_sends h hmax u units.isEmpty
    obtain ⟨s', hrest, hsends'⟩ := ih hsends.holds (hsends.maxPayloadSize ▸ hmax)
    rw [hsends.maxPayloadSize] at hsends'
    have hall := hsends.trans hsends'
    refine ⟨s', by rw [sendUnits, hrun]; exact hrest, ?_⟩
    rw [groups, List.flatMap_append]
    generalize place s.maxPayloadSize pending u = placed at hall ⊢
    by_cases hnil : placed.2 ++ units = []
    · -- the last unit has been sent, and the buffer is empty
      obtain ⟨hopen, rfl⟩ := List.append_eq_nil_iff.mp hnil
      rw [hopen, groups, List.flatMap_singleton, payloads, List.append_nil]
      rw [hopen, groups, List.flatMap_singleton, payloads, marked, List.append_nil] at hall
      exact hall
    · have hfalse : (units.isEmpty && placed.2.isEmpty) = false := by
        rw [Bool.and_eq_false_iff, List.isEmpty_eq_false_iff, List.isEmpty_eq_false_iff]
        by_contra hboth
        rw [not_or, not_not, not_not] at hboth
        exact hnil (List.append_eq_nil_iff.mpr ⟨hboth.2, hboth.1⟩)
      rw [hfalse] at hall
      rw [marked_append _ (groups_payloads_ne_nil hnil)]
      exact hall

end FFmpeg.Libavformat.RtpEncH264Groups
