import FFmpeg.Libavformat.NutIndexRuns

/-!
# The index of a NUT file is read back

What `write_index` writes for a set of syncpoints and the keyframes of every stream is
found from the end of the file, and `find_and_decode_index` adds an entry for each of
these keyframes, as long as there are fewer syncpoints than it accepts.
-/

namespace FFmpeg.Libavformat.NutIndex

open Common Libavutil Crc Nut Nut.AVIOContext IndexEntries

/-! ## The streams -/

/-- The streams after the entries of all of them have been added. -/
def addIndices (memory : Bool) (sps : List Syncpoint) :
    List AVStream → List (List Int) → Option (List AVStream)
  | st :: streams, pts :: keyframePts => do
    let st ← addEntries memory st (indexOf sps pts)
    let streams ← addIndices memory sps streams keyframePts
    some (st :: streams)
  | _, _ => some []

variable {sps : List Syncpoint} {keyframePts : List (List Int)}

theorem writeStreams_spec (memory : Bool) (hsmall : sps.length < 2 ^ 61)
    (h : ∀ pts ∈ keyframePts, Keyframes sps.length pts) :
    ∃ bytes, writeStreams sps.length keyframePts = some bytes ∧
      ∀ {bc : AVIOContext} {tail : Bytes} (streams : List AVStream),
        streams.length = keyframePts.length → bc.rest = bytes ++ tail →
        readStreams memory (readPositions sps) streams bc =
          (addIndices memory sps streams keyframePts).map fun streams' =>
            (true, bc.advance bytes.length, streams') := by
  induction keyframePts with
  | nil =>
    refine ⟨[], rfl, fun {bc tail} streams hlength _ => ?_⟩
    rw [List.length_eq_zero_iff.mp hlength]
    rfl
  | cons pts keyframePts ih =>
    obtain ⟨rest, hrest, hreadRest⟩ := ih fun p hp => h p (List.mem_cons_of_mem pts hp)
    have hpts := h pts List.mem_cons_self
    have habove : ∀ p ∈ pts.drop 0, isSet p → -1 < p := fun p hp hset => by
      have hnonneg := (hpts.range p hp hset).1
      lia
    obtain ⟨runs, hruns, hreadRuns⟩ := writeRuns_spec memory hpts.length hpts
      (show 0 < sps.length + 1 by lia) (show sps.length < 0 + (sps.length + 1) by lia) le_rfl
      habove hsmall
    refine ⟨runs ++ rest, ?_, fun {bc tail} streams hlength hbytes => ?_⟩
    · rw [writeStreams, hruns, hrest]
      rfl
    · obtain ⟨st, streams, rfl⟩ := List.exists_cons_of_length_eq_add_one hlength
      rw [List.append_assoc] at hbytes
      have hcount : (readPositions sps).length = sps.length := List.length_map _
      rw [readStreams, hcount, hreadRuns st rfl (by decide) hbytes, addIndices, indexOf,
        List.drop_zero]
      cases addEntries memory st (entriesOf sps pts.zipIdx) with
      | none => rfl
      | some st' =>
        have hnext := hreadRest streams (Nat.succ.inj hlength) (rest_advance_append hbytes)
        rw [advance_advance, ← List.length_append] at hnext
        simp only [Option.map_some, Option.bind_eq_bind, Option.bind_some]
        rw [if_neg (by decide), hnext]
        cases addIndices memory sps streams keyframePts <;> rfl

/-! ## The packet and where it is -/

/-- The number of groups of seven bits, by the logarithm. -/
theorem vLengthLoop_eq {rounds val i : Nat} (h : val < 2 ^ (7 * (rounds + 1))) :
    vLengthLoop rounds val i = i + Nat.log2 val / 7 := by
  have hsmall {val : Nat} (hval : val < 128) : Nat.log2 val / 7 = 0 := by
    rcases Nat.eq_zero_or_pos val with rfl | hpos
    · rfl
    · exact Nat.div_eq_of_lt ((Nat.log2_lt hpos.ne').mpr hval)
  induction rounds generalizing val i with
  | zero => rw [vLengthLoop, hsmall h, Nat.add_zero]
  | succ rounds ih =>
    rw [vLengthLoop]
    by_cases hmore : val >>> 7 ≠ 0
    · rw [Nat.shiftRight_eq_div_pow] at hmore ⊢
      have hshift : val / 2 ^ 7 < 2 ^ (7 * (rounds + 1)) := by
        apply Nat.div_lt_of_lt_mul
        rwa [← Nat.pow_add, Nat.add_comm 7, ← Nat.mul_succ]
      have hne : val ≠ 0 := by lia
      have hseven : 7 ≤ val.log2 := (Nat.le_log2 hne).mpr (by lia)
      obtain ⟨k, hk⟩ := Nat.exists_eq_add_of_le' hseven
      have hlog : (val / 2 ^ 7).log2 = k := by
        obtain ⟨hlow, hhigh⟩ := (Nat.log2_eq_iff hne).mp hk
        rw [Nat.log2_eq_iff hmore, Nat.le_div_iff_mul_le (by norm_num), ← Nat.pow_add,
          Nat.div_lt_iff_lt_mul (by norm_num), ← Nat.pow_add]
        exact ⟨hlow, by rwa [Nat.add_right_comm]⟩
      rw [if_pos hmore, ih hshift, hlog, hk]
      lia
    · rw [if_neg hmore]
      rw [not_not, Nat.shiftRight_eq_div_pow] at hmore
      rw [hsmall (by lia), Nat.add_zero]

theorem getVLength_eq {val : Nat} (h : val < 2 ^ 64) : getVLength val = Nat.log2 val / 7 + 1 := by
  rw [getVLength, vLengthLoop_eq (h.trans (by norm_num)), Nat.add_comm]

/-- **The pointer is the size of the packet it is in.** -/
theorem length_putPacket {index : Bytes} (h : index.length + 8 + 4 < 2 ^ 64) (ptr startcode : Nat) :
    (putPacket (index ++ putBE 8 ptr) startcode).length = indexPtr (index.length + 8 + 4) := by
  have hlength : (index ++ putBE 8 ptr).length + 4 = index.length + 8 + 4 := by
    rw [List.length_append, length_putBE]
  rw [putPacket_eq, packetLength, hlength, indexPtr]
  by_cases hlong : index.length + 8 + 4 > 4096
  · rw [if_pos hlong, if_pos hlong]
    simp only [List.length_append, length_putBE, length_checksum, length_putV h, getVLength_eq h]
    lia
  · rw [if_neg hlong, if_neg hlong]
    simp only [List.length_append, length_putBE, length_checksum, length_putV h, getVLength_eq h,
      List.length_nil]
    lia

variable {bc : AVIOContext} {tail : Bytes}

theorem rest_avioSeek {front : Bytes} (h : bc.content = front ++ tail) :
    avioSeek bc front.length = { bc with pos := front.length, eofReached := false } ∧
      (avioSeek bc front.length).rest = tail := by
  have hseek : avioSeek bc front.length = { bc with pos := front.length, eofReached := false } := by
    rw [avioSeek, if_neg (by lia), Int.toNat_natCast]
  refine ⟨hseek, ?_⟩
  rw [hseek, AVIOContext.rest, h, List.drop_left]

variable {n : Nat}

theorem avioRB_putBE (hn : n < 2 ^ 64) (h : bc.rest = putBE 8 n ++ tail) :
    avioRB 8 bc = (n, bc.advance 8) := by
  have hread := avioRB_append h
  rwa [length_putBE, getBE_putBE_of_lt (by norm_num; lia)] at hread

/-- A file with this packet at its end. -/
structure EndsWith (bc : AVIOContext) (front dynBuf : Bytes) : Prop where
  content : bc.content = front ++ putPacket dynBuf indexStartcode
  lt : bc.content.length < 2 ^ 63

variable {index dynBuf front : Bytes}

/-- The pointer is behind the index and in front of the checksum, and it is the way back to
the start of the packet. -/
theorem EndsWith.pointer (hfile : EndsWith bc front dynBuf)
    (hdynBuf : dynBuf = index ++ putBE 8 (indexPtr (index.length + 8 + 4)))
    (hsize : index.length + 8 + 4 < 2 ^ 64) :
    bc.content.length = front.length + indexPtr (index.length + 8 + 4) ∧
      ∃ before, bc.content = before ++ (putBE 8 (indexPtr (index.length + 8 + 4)) ++
        putLE 4 (checksum dynBuf)) := by
  obtain ⟨ptr, hptr⟩ : ∃ ptr, ptr = indexPtr (index.length + 8 + 4) := ⟨_, rfl⟩
  obtain ⟨crc, hcrc⟩ : ∃ crc, crc = putLE 4 (checksum dynBuf) := ⟨_, rfl⟩
  have hpacket := putPacket_eq dynBuf indexStartcode
  rw [← hptr] at hdynBuf ⊢
  rw [← hcrc] at hpacket ⊢
  refine ⟨?_, front ++ (putBE 8 indexStartcode ++
    (packetLength indexStartcode (dynBuf.length + 4) ++ index)), ?_⟩
  · rw [hfile.content, List.length_append, hdynBuf, length_putPacket hsize, hptr]
  · rw [hfile.content, hpacket]
    conv_lhs => rw [hdynBuf]
    conv_rhs => rw [hdynBuf]
    simp only [List.append_assoc]

theorem EndsWith.position {before : Bytes} {ptr : Nat}
    (hcontent : bc.content = before ++ (putBE 8 ptr ++ putLE 4 (checksum dynBuf))) :
    bc.content.length = before.length + 12 := by
  rw [hcontent, List.length_append, List.length_append, length_putBE, length_checksum]

variable {s : Reading}

/-- **The index is found from the end of the file.** -/
theorem EndsWith.header (hfile : EndsWith s.bc front dynBuf)
    (hdynBuf : dynBuf = index ++ putBE 8 (indexPtr (index.length + 8 + 4)))
    (hsize : dynBuf.length + 4 < 2 ^ 31) (memory : Bool) (timeBase : List AVRational)
    (findDuration : Reading → Reading) :
    ∃ bc, findAndDecodeIndex memory timeBase findDuration s =
        decodeIndex memory timeBase (((dynBuf.length + 4 : Nat) : Int) + bc.pos) { s with bc :=
            bc } ∧
      Checks bc 0#32 [] ∧ bc.eofReached = false ∧
      bc.rest = dynBuf ++ (putLE 4 (checksum dynBuf) ++ []) := by
  have hindex : index.length + 8 + 4 < 2 ^ 31 := by
    rw [hdynBuf, List.length_append, length_putBE] at hsize
    lia
  obtain ⟨hlength, before, hbefore⟩ := hfile.pointer hdynBuf (by lia)
  have hbeforeLength := EndsWith.position hbefore
  have hlt := hfile.lt
  obtain ⟨ptr, hptr⟩ : ∃ ptr, ptr = indexPtr (index.length + 8 + 4) := ⟨_, rfl⟩
  rw [← hptr] at hlength hbefore
  have hposition : (s.bc.content.length : Int) - 12 = before.length := by lia
  obtain ⟨hseek, hrest⟩ := rest_avioSeek hbefore
  have hreadPtr := avioRB_putBE (show ptr < 2 ^ 64 by lia) hrest
  have hback : toSigned 64 ((s.bc.content.length : Int) - ptr) = front.length := by
    rw [hlength, Nat.cast_add, add_sub_cancel_right]
    exact toSigned_natCast (by lia)
  have hcontent' : ((avioSeek s.bc before.length).advance 8).content = s.bc.content := by
    rw [hseek]
    rfl
  obtain ⟨hseek', hrest'⟩ :=
    rest_avioSeek (hcontent'.trans (hfile.content.trans (by rw [putPacket_eq])))
  have hreadCode := avioRB_putBE (show indexStartcode < 2 ^ 64 by decide) hrest'
  have hbehind := rest_advance_append hrest'
  rw [length_putBE] at hbehind
  obtain ⟨bc, hheader, hchecks, hrestBc, -, -, heof⟩ := getPacketheader_packetLength hsize hbehind
  refine ⟨bc, ?_, hchecks, ?_, ?_⟩
  · rw [findAndDecodeIndex, if_neg (by lia), hposition, hreadPtr]
    dsimp only
    rw [hback, hreadCode]
    dsimp only
    rw [if_neg (not_not.mpr rfl), hheader]
    rfl
  · rw [heof, advance_eofReached, hseek']
  · rw [hrestBc, List.append_nil]

/-! ## The index -/

/-- A muxer with these syncpoints, which have been added one after the other, and with a
table of keyframes for each stream. -/
structure Muxer (nut : NUTContext) (sps : List Syncpoint) : Prop where
  added : (nut.syncpoints, nut.spCount) = addSyncpoints sps
  increasing : Increasing sps
  keyframes : ∀ pts ∈ nut.keyframePts, Keyframes sps.length pts
  timeBase : nut.timeBase ≠ []

variable {nut : NUTContext}

theorem toUnsigned_lt (n : Int) : toUnsigned 64 n < 2 ^ 64 := by
  unfold toUnsigned
  lia

theorem writeIndex_eq (h : Muxer nut sps) (hsmall : sps.length < 2 ^ 61) :
    ∃ index runs, writeIndex nut = some (index ++ putBE 8 (indexPtr (index.length + 8 + 4))) ∧
      writeStreams sps.length nut.keyframePts = some runs ∧
      index = putTt nut.timeBase nut.maxPtsTb nut.maxPts ++
        (putV sps.length ++ (syncpointBytes 0 sps ++ runs)) := by
  obtain ⟨runs, hruns, -⟩ := writeStreams_spec false hsmall h.keyframes
  obtain ⟨helems, hcount⟩ := elems_addSyncpoints h.increasing
  rw [← h.added] at helems hcount
  dsimp only at helems hcount
  have hincreasing : Increasing nut.syncpoints.elems := by
    rw [helems]
    exact h.increasing
  have hsyncpoints := writeSyncpoints_eq (helems.trans (List.nil_append sps).symm) hincreasing
    ⟨0, 0, 0⟩ (by norm_num) (by simp) h.increasing.pos ⟨none, none⟩
  refine ⟨_, runs, ?_, hruns, rfl⟩
  rw [writeIndex, hcount, hsyncpoints, Option.bind_eq_bind, Option.bind_some, hruns,
    Option.bind_some]
  simp only [List.append_assoc]
  rfl

/-- The start of an index is read: the duration and the number of syncpoints. -/
theorem decodeIndex_eq (h : Muxer nut sps) (hsmall : sps.length < 2 ^ 61) (memory : Bool)
    (endPos : Int)
    (hrest : s.bc.rest = putTt nut.timeBase nut.maxPtsTb nut.maxPts ++ (putV sps.length ++ tail)) :
    ∃ duration bc, bc = s.bc.advance
        (putTt nut.timeBase nut.maxPtsTb nut.maxPts ++ putV sps.length).length ∧
      bc.rest = tail ∧ decodeIndex memory nut.timeBase endPos s =
        if sps.length < maxSyncpoints ∧ sps.length > 0 then
          decodeEntries memory sps.length endPos ⟨bc, s.streams, duration, true⟩
        else some (.error .invalidData, ⟨bc, s.streams, duration, true⟩) := by
  obtain ⟨v, hv⟩ : ∃ v, v = toUnsigned 64 (toUnsigned 64 nut.maxPts * nut.timeBase.length +
    nut.maxPtsTb) := ⟨_, rfl⟩
  rw [putTt, ← hv] at hrest ⊢
  have hmaxPts := ffioReadVarlen_putV (hv ▸ toUnsigned_lt _) hrest
  have hnext := rest_advance_append hrest
  have hcount := ffioReadVarlen_putV (by lia) hnext
  have hmod := Nat.mod_lt v (List.length_pos_of_ne_nil h.timeBase)
  refine ⟨avRescaleQ (toSigned 64 (v / nut.timeBase.length :
      Nat)) nut.timeBase[v % nut.timeBase.length]
    avTimeBaseQ, _, rfl, ?_, ?_⟩
  · rw [List.length_append, ← advance_advance]
    exact rest_advance_append hnext
  · rw [decodeIndex, hmaxPts]
    dsimp only
    rw [List.getElem?_eq_getElem hmod, Option.bind_eq_bind, Option.bind_some, hcount,
      advance_advance,
      List.length_append]

/-- **The entries of an index are added**, and its checksum agrees. -/
theorem decodeEntries_eq (h : Muxer nut sps) (hsmall : sps.length < 2 ^ 61) {runs : Bytes}
    (hruns : writeStreams sps.length nut.keyframePts = some runs) {dynBuf done left : Bytes}
    (hstreams : s.streams.length = nut.keyframePts.length) (hchecks : Checks s.bc 0#32 done)
    (heof : s.bc.eofReached = false)
    (hdynBuf : dynBuf = done ++ (syncpointBytes 0 sps ++ (runs ++ left)))
    (hrest : s.bc.rest = syncpointBytes 0 sps ++ (runs ++ (left ++ (putLE 4 (checksum dynBuf) ++ [])))) :
    ∃ bc, decodeEntries true sps.length
        (s.bc.pos + (syncpointBytes 0 sps ++ runs ++ left).length + 4 : Nat) s =
      (addIndices true sps s.streams nut.keyframePts).map fun streams =>
        (.ok (), { s with bc := bc, streams := streams }) := by
  obtain ⟨runs', hruns', hread⟩ := writeStreams_spec true hsmall h.keyframes
  obtain rfl : runs = runs' := Option.some.inj (hruns.symm.trans hruns')
  have hsyncpoints := readSyncpoints_eq h.increasing.pairwise h.increasing.pos h.increasing.lt hrest
  rw [Nat.cast_zero] at hsyncpoints
  have hbehind := rest_advance_append hrest
  have hall : s.bc.rest =
      (syncpointBytes 0 sps ++ runs) ++ (left ++ (putLE 4 (checksum dynBuf) ++ [])) := by
    rw [hrest, List.append_assoc]
  have hchecks' := hchecks.advance hall
  have hdone : dynBuf = (done ++ (syncpointBytes 0 sps ++ runs)) ++ left := by
    rw [hdynBuf]
    simp only [List.append_assoc]
  obtain ⟨bc, hskip, hget, -, -, -⟩ := packet_end hchecks' hdone heof (rest_advance_append hall)
  refine ⟨bc, ?_⟩
  have hend : ((s.bc.pos + (syncpointBytes 0 sps ++ runs ++ left).length + 4 : Nat) : Int) =
      ((s.bc.advance (syncpointBytes 0 sps ++ runs).length).pos : Int) + (left.length + 4) := by
    simp only [advance_pos, List.length_append]
    push_cast
    ring
  rw [decodeEntries, if_neg (by decide), hsyncpoints, hend]
  dsimp only
  rw [if_neg (by decide)]
  have hreadAll := hread s.streams hstreams hbehind
  rw [readPositions, advance_advance, ← List.length_append] at hreadAll
  rw [hreadAll]
  cases addIndices true sps s.streams nut.keyframePts with
  | none => rfl
  | some streams =>
    simp only [Option.map_some, Option.bind_eq_bind, Option.bind_some]
    rw [if_neg (by decide), hskip]
    dsimp only
    rw [if_neg (by decide), hget]
    rfl

/-- What a dynamic buffer holds, `INT_MAX / 2` bytes. -/
def dynBufMax : Nat := 1073741823

/-- **Up to the number of syncpoints** an index is read as it has been written. -/
theorem findAndDecodeIndex_count (h : Muxer nut sps) (hsmall : sps.length < 2 ^ 61) {runs : Bytes}
    (hindex : index = putTt nut.timeBase nut.maxPtsTb nut.maxPts ++ (putV sps.length ++ (syncpointBytes 0 sps ++ runs)))
    (hdynBuf : dynBuf = index ++ putBE 8 (indexPtr (index.length + 8 + 4)))
    (hmax : dynBuf.length ≤ dynBufMax) (hfile : EndsWith s.bc front dynBuf)
    (findDuration : Reading → Reading) :
    ∃ duration bc done left, dynBuf = done ++ (syncpointBytes 0 sps ++ (runs ++ left)) ∧
      Checks bc 0#32 done ∧ bc.eofReached = false ∧
      bc.rest = syncpointBytes 0 sps ++ (runs ++ (left ++ (putLE 4 (checksum dynBuf) ++ []))) ∧
      findAndDecodeIndex true nut.timeBase findDuration s =
        if sps.length < maxSyncpoints ∧ sps.length > 0 then
          decodeEntries true sps.length
            (bc.pos + (syncpointBytes 0 sps ++ runs ++ left).length + 4 : Nat)
            ⟨bc, s.streams, duration, true⟩
        else some (.error .invalidData, ⟨bc, s.streams, duration, true⟩) := by
  have hsize : dynBuf.length + 4 < 2 ^ 31 := by
    have hdef : dynBufMax = 1073741823 := rfl
    lia
  obtain ⟨bc, hheader, hchecks, heof, hrest⟩ :=
      hfile.header hdynBuf hsize true nut.timeBase findDuration
  obtain ⟨left, hleft⟩ : ∃ left, left = putBE 8 (indexPtr (index.length + 8 + 4)) := ⟨_, rfl⟩
  rw [← hleft, hindex] at hdynBuf
  have hrestIndex : bc.rest = putTt nut.timeBase nut.maxPtsTb nut.maxPts ++ (putV sps.length ++
      (syncpointBytes 0 sps ++ (runs ++ (left ++ (putLE 4 (checksum dynBuf) ++ []))))) := by
    rw [hrest]
    generalize putLE 4 (checksum dynBuf) = crc
    rw [hdynBuf]
    simp only [List.append_assoc]
  obtain ⟨duration, bc', hbc', hrest', hdecode⟩ := decodeIndex_eq h hsmall (s := { s with bc :=
      bc })
    true (((dynBuf.length + 4 : Nat) : Int) + bc.pos) hrestIndex
  have hstart : bc.rest = (putTt nut.timeBase nut.maxPtsTb nut.maxPts ++ putV sps.length) ++
      (syncpointBytes 0 sps ++ (runs ++ (left ++ (putLE 4 (checksum dynBuf) ++ [])))) := by
    rw [hrestIndex, List.append_assoc]
  have hchecks' := hchecks.advance hstart
  rw [List.nil_append, ← hbc'] at hchecks'
  have hend : ((dynBuf.length + 4 : Nat) : Int) + bc.pos =
      (bc'.pos + (syncpointBytes 0 sps ++ runs ++ left).length + 4 : Nat) := by
    rw [hbc', advance_pos, hdynBuf]
    simp only [List.length_append]
    push_cast
    ring
  refine ⟨duration, bc', _, left, ?_, hchecks', ?_, hrest', ?_⟩
  · rw [hdynBuf]
    simp only [List.append_assoc]
  · rw [hbc']
    exact heof
  · rw [hheader, hdecode, hend]

theorem addIndices_nil {streams : List AVStream} (hstreams : streams.length = keyframePts.length)
    (h : ∀ pts ∈ keyframePts, Keyframes 0 pts) (memory : Bool) :
    addIndices memory [] streams keyframePts = some streams := by
  induction keyframePts generalizing streams with
  | nil =>
    rw [List.length_eq_zero_iff.mp hstreams]
    rfl
  | cons pts keyframePts ih =>
    obtain ⟨st, streams, rfl⟩ := List.exists_cons_of_length_eq_add_one hstreams
    have hpts := List.length_eq_zero_iff.mp (h pts List.mem_cons_self).length
    rw [addIndices, ih (Nat.succ.inj hstreams) fun p hp => h p (List.mem_cons_of_mem pts hp), hpts]
    rfl

/-- The index is written and read back.  The pointer in front of the last checksum of the
file leads back to the start code of the packet, and for each stream exactly the entries of
the keyframes are added, in their order.  (An index of no syncpoints at all is refused, and
nothing is added for it.) -/
def IndexRoundTrips (nut : NUTContext) (sps : List Syncpoint) : Prop :=
  ∃ dynBuf, writeIndex nut = some dynBuf ∧ (dynBuf.length ≤ dynBufMax →
    ∀ (s : Reading) (front : Bytes) (findDuration : Reading → Reading),
      EndsWith s.bc front dynBuf → s.streams.length = nut.keyframePts.length →
      s.bc.content.length - getBE (slice s.bc.content (s.bc.content.length - 12) 8) = front.length ∧
        slice s.bc.content front.length 8 = putBE 8 indexStartcode ∧
        ∃ bc duration, findAndDecodeIndex true nut.timeBase findDuration s =
          (addIndices true sps s.streams nut.keyframePts).map fun streams =>
            (if sps = [] then .error .invalidData else .ok (), ⟨bc, streams, duration, true⟩))

/-- **The index round-trips** for every set of fewer than `INT_MAX / 8` syncpoints at positions
below `2 ^ 62`, and every table of keyframes for each stream. -/
theorem indexRoundTrips (h : Muxer nut sps) (hcount : sps.length < maxSyncpoints) :
    IndexRoundTrips nut sps := by
  have hsmall : sps.length < 2 ^ 61 := hcount.trans (by decide)
  obtain ⟨index, runs, hwrite, hruns, hindex⟩ := writeIndex_eq h hsmall
  refine ⟨_, hwrite, fun hmax s front findDuration hfile hstreams => ?_⟩
  have hindexSize : index.length + 8 + 4 < 2 ^ 64 := by
    have hdef : dynBufMax = 1073741823 := rfl
    rw [List.length_append, length_putBE] at hmax
    lia
  obtain ⟨hlength, before, hbefore⟩ := hfile.pointer rfl hindexSize
  have hposition := EndsWith.position hbefore
  have hlt := hfile.lt
  refine ⟨?_, ?_, ?_⟩
  · have hslice : slice s.bc.content (s.bc.content.length - 12) 8 =
        putBE 8 (indexPtr (index.length + 8 + 4)) := by
      rw [hposition, Nat.add_sub_cancel, hbefore, slice, List.drop_left,
        List.take_left' (length_putBE 8 _)]
    rw [hslice, getBE_putBE_of_lt (by norm_num; lia), hlength, Nat.add_sub_cancel]
  · rw [hfile.content, putPacket_eq, slice, List.drop_left, List.take_left' (length_putBE 8 _)]
  · obtain ⟨duration, bc, done, left, hdynBuf, hchecks, heof, hrest, hdecode⟩ :=
      findAndDecodeIndex_count h hsmall hindex rfl hmax hfile findDuration
    rw [hdecode]
    by_cases hnone : sps = []
    · have hkeyframes := h.keyframes
      subst hnone
      refine ⟨bc, duration, ?_⟩
      rw [if_neg fun hpos => lt_irrefl 0 hpos.2, addIndices_nil hstreams hkeyframes, if_pos rfl]
      rfl
    · rw [if_pos ⟨hcount, List.length_pos_of_ne_nil hnone⟩, if_neg hnone]
      obtain ⟨bc', hentries⟩ := decodeEntries_eq h hsmall hruns
        (s := ⟨bc, s.streams, duration, true⟩) hstreams hchecks heof hdynBuf hrest
      exact ⟨bc', duration, hentries⟩

/-- A muxer with syncpoints at 64 and 160, and a keyframe behind the first one in the second
of its streams. -/
def twoSyncpoints : NUTContext :=
  { timeBase := [⟨1, 25⟩, ⟨1, 48000⟩]
    maxPts := 7
    maxPtsTb := 1
    spCount := (addSyncpoints [⟨64, 0, 0⟩, ⟨160, 64, 5⟩]).2
    syncpoints := (addSyncpoints [⟨64, 0, 0⟩, ⟨160, 64, 5⟩]).1
    keyframePts := [[avNoptsValue, avNoptsValue], [avNoptsValue, 3]] }

theorem indexRoundTrips_twoSyncpoints : IndexRoundTrips twoSyncpoints [⟨64, 0, 0⟩, ⟨160, 64, 5⟩] :=
  indexRoundTrips
    { added := rfl
      increasing := ⟨by decide, by decide, by decide⟩
      keyframes := fun pts hpts => by
        have hcases : pts = [avNoptsValue, avNoptsValue] ∨ pts = [avNoptsValue, 3] := by
          simpa [twoSyncpoints] using hpts
        rcases hcases with rfl | rfl
        · exact ⟨rfl, rfl, by decide, by decide⟩
        · exact ⟨rfl, rfl, by decide, by decide⟩
      timeBase := by decide } (by decide)

/-! ## What is not read back -/

/-- A stream without entries, whose timestamps do not wrap. -/
def emptyStream : AVStream := ⟨.ignore, avNoptsValue, 33, []⟩

/-- A reader of a file that is an index only. -/
def readingOf (dynBuf : Bytes) : Reading :=
  ⟨⟨putPacket dynBuf indexStartcode, 0, false, false, 0#32, 0⟩, [emptyStream], 0, false⟩

/-- A muxer with these syncpoints and a keyframe at 0 behind the last but one. -/
def lastKeyframe (sps : List Syncpoint) : NUTContext :=
  { timeBase := [⟨1, 25⟩]
    maxPts := 0
    maxPtsTb := 0
    spCount := (addSyncpoints sps).2
    syncpoints := (addSyncpoints sps).1
    keyframePts := [List.replicate (sps.length - 1) avNoptsValue ++ [0]] }

/-- A keyframe has an entry, but the reader reports an error and adds nothing. -/
def NothingAdded (sps : List Syncpoint) : Prop :=
  indexOf sps (List.replicate (sps.length - 1) avNoptsValue ++ [0]) ≠ [] ∧
    ∃ dynBuf, writeIndex (lastKeyframe sps) = some dynBuf ∧ dynBuf.length ≤ dynBufMax ∧
      ∃ s, findAndDecodeIndex true [⟨1, 25⟩] id (readingOf dynBuf) = some (.error .invalidData, s) ∧
        s.streams = [emptyStream]

theorem length_putV_le {val : Nat} (h : val < 2 ^ 64) : (putV val).length ≤ 10 := by
  rw [length_putV h]
  exact (lt_getVLength h).2.1

theorem endsWith_readingOf {dynBuf : Bytes} (h : dynBuf.length ≤ dynBufMax) :
    EndsWith (readingOf dynBuf).bc [] dynBuf := by
  have hdef : dynBufMax = 1073741823 := rfl
  have hnumber := length_putV_le (show dynBuf.length + 4 < 2 ^ 64 by lia)
  refine ⟨rfl, ?_⟩
  show (putPacket dynBuf indexStartcode).length < 2 ^ 63
  rw [putPacket_eq, packetLength]
  simp only [List.length_append, length_putBE, length_checksum]
  split_ifs
  · rw [length_checksum]
    lia
  · rw [List.length_nil]
    lia

variable {sps : List Syncpoint}

theorem NothingAdded.refutes (h : NothingAdded sps) (hsps : sps ≠ []) :
    ¬ IndexRoundTrips (lastKeyframe sps) sps := by
  rintro ⟨dynBuf, hwrite, hread⟩
  obtain ⟨-, dynBuf', hwrite', hmax, s, herror, -⟩ := h
  obtain rfl : dynBuf = dynBuf' := Option.some.inj (hwrite.symm.trans hwrite')
  obtain ⟨-, -, bc, duration, hok⟩ :=
    hread hmax (readingOf dynBuf) [] id (endsWith_readingOf hmax) rfl
  have hresult := herror.symm.trans hok
  rw [if_neg hsps] at hresult
  cases hadd : addIndices true sps (readingOf dynBuf).streams (lastKeyframe sps).keyframePts with
  | none =>
    rw [hadd] at hresult
    cases hresult
  | some streams =>
    rw [hadd] at hresult
    cases hresult

/-- Syncpoints with 16 bytes between them, behind a position. -/
def everySixteen (first count : Nat) : List Syncpoint :=
  (List.range' first count).map fun i => ⟨16 * (i + 1), 0, 0⟩

theorem length_syncpointBytes_everySixteen (first count : Nat) :
    (syncpointBytes first (everySixteen first count)).length = count := by
  induction count generalizing first with
  | zero => rfl
  | succ count ih =>
    have hshift : (16 * (first + 1)) >>> 4 = first + 1 := by
      rw [Nat.shiftRight_eq_div_pow]
      lia
    rw [everySixteen, List.range'_succ, List.map_cons, syncpointBytes]
    dsimp only
    rw [hshift, Nat.add_sub_cancel_left, List.length_append]
    have hrest := ih (first + 1)
    rw [everySixteen] at hrest
    rw [hrest, Nat.add_comm]
    rfl

theorem increasing_everySixteen {count : Nat} (h : count < 2 ^ 57) :
    Increasing (everySixteen 0 count) := by
  refine ⟨?_, ?_, ?_⟩
  · rw [everySixteen, List.pairwise_map]
    have hrange : (List.range' 0 count).Pairwise (· < ·) := List.pairwise_lt_range'
    refine hrange.imp fun {i j} hlt => ?_
    rw [Nat.shiftRight_eq_div_pow, Nat.shiftRight_eq_div_pow]
    dsimp only
    lia
  · intro sp hsp
    obtain ⟨i, -, rfl⟩ := List.mem_map.mp hsp
    rw [Nat.shiftRight_eq_div_pow]
    show 0 < 16 * (i + 1) / 2 ^ 4
    lia
  · intro sp hsp
    obtain ⟨i, hi, rfl⟩ := List.mem_map.mp hsp
    have hlt := (List.mem_range'_1.mp hi).2
    show 16 * (i + 1) < 2 ^ 62
    lia

theorem isSet_noptsValue : isSet avNoptsValue = false := by decide

theorem keyframes_last (n : Nat) (hn : 0 < n) :
    Keyframes (n + 1) (List.replicate n avNoptsValue ++ [0]) := by
  have hunset : ∀ p ∈ List.replicate n avNoptsValue, ¬ isSet p = true := fun p hp => by
    rw [List.eq_of_mem_replicate hp, isSet_noptsValue]
    exact Bool.false_ne_true
  refine ⟨by simp, ?_, ?_, ?_⟩
  · obtain ⟨n, rfl⟩ := Nat.exists_eq_add_of_le' hn
    rfl
  · intro p hp hset
    rcases List.mem_append.mp hp with hp | hp
    · exact absurd hset (hunset p hp)
    · rw [List.mem_singleton.mp hp]
      exact ⟨le_rfl, by norm_num⟩
  · rw [List.pairwise_append]
    refine ⟨List.pairwise_of_forall_mem_list fun p hp q _ hset => absurd hset (hunset p hp),
      List.pairwise_singleton _ _, fun p hp q _ hset => absurd hset (hunset p hp)⟩

theorem muxer_lastKeyframe (h : Increasing sps) (hlength : 1 < sps.length) :
    Muxer (lastKeyframe sps) sps where
  added := rfl
  increasing := h
  keyframes pts hpts := by
    have hlast := keyframes_last (sps.length - 1) (by lia)
    rw [Nat.sub_add_cancel (by lia)] at hlast
    rw [List.mem_singleton.mp hpts]
    exact hlast
  timeBase := List.cons_ne_nil _ _

theorem writeDeltas_unset (n : Nat) (l : List Int) (lastPts : Int) :
    writeDeltas (List.replicate n avNoptsValue ++ l) lastPts = writeDeltas l lastPts := by
  induction n with
  | zero => rfl
  | succ n ih =>
    rw [List.replicate_succ, List.cons_append, writeDeltas, isSet_noptsValue, if_pos (by decide),
      ih]

theorem writeStreams_last (hn : 0 < n) :
    writeStreams (n + 1) [List.replicate n avNoptsValue ++ [0]] =
      some (putV (1 + 4 * n) ++ putV 1) := by
  have hlength : (List.replicate n avNoptsValue ++ [0]).length = n + 1 := by simp
  have hhead : (List.replicate n avNoptsValue ++ [0]).head?.any isSet = false := by
    obtain ⟨n, rfl⟩ := Nat.exists_eq_add_of_le' hn
    rfl
  have hlast : decide (0 + 1 = n + 1) = false := decide_eq_false (by omega)
  have hrun : ((List.replicate n avNoptsValue ++ [0]).takeWhile
      fun pts => isSet pts == false).length = n := by
    have hset : (isSet 0 == false) = false := by decide
    rw [List.takeWhile_append_of_pos (fun p hp => by
      rw [List.eq_of_mem_replicate hp, isSet_noptsValue]; rfl), List.takeWhile_cons, hset,
      if_neg Bool.false_ne_true, List.append_nil, List.length_replicate]
  have hdelta : writeDeltas [0] (-1) = some (putV 1, 0) := by decide
  rw [writeStreams, writeRuns, if_pos (by omega), if_neg fun h => lt_irrefl 0 h.1]
  dsimp only
  rw [List.take_of_length_le hlength.le, List.drop_zero, hhead, hlast, Bool.false_xor, hrun,
    List.take_of_length_le hlength.le, writeDeltas_unset, hdelta]
  simp only [Option.bind_eq_bind, Option.bind_some]
  rw [writeRuns, if_neg (by omega)]
  simp [writeStreams]

theorem indexOf_last (hn : 0 < n) (sps : List Syncpoint) (hlength : n ≤ sps.length) :
    indexOf sps (List.replicate n avNoptsValue ++ [0]) ≠ [] := by
  have hentry : sps[n - 1]? = some sps[n - 1] := List.getElem?_eq_getElem (by lia)
  rw [indexOf, List.zipIdx_append, entriesOf_append, List.length_replicate, Nat.zero_add]
  refine List.append_ne_nil_of_right_ne_nil _ ?_
  have hset : isSet 0 = true := by decide
  rw [List.zipIdx_singleton, entriesOf, List.filterMap_cons]
  dsimp only
  rw [if_pos hset, hentry]
  exact List.cons_ne_nil _ _

/-- More syncpoints than the reader accepts. -/
def manySyncpoints : List Syncpoint := everySixteen 0 maxSyncpoints

theorem length_manySyncpoints : manySyncpoints.length = maxSyncpoints := by
  rw [manySyncpoints, everySixteen, List.length_map, List.length_range']

theorem muxer_manySyncpoints : Muxer (lastKeyframe manySyncpoints) manySyncpoints :=
  muxer_lastKeyframe (increasing_everySixteen (by decide)) (by rw [length_manySyncpoints]; decide)

theorem nothingAdded_manySyncpoints : NothingAdded manySyncpoints := by
  obtain ⟨count, hcount⟩ : ∃ count, count = maxSyncpoints := ⟨_, rfl⟩
  have hvalue : count = 268435455 := hcount
  have hlength : manySyncpoints.length = count := length_manySyncpoints.trans hcount.symm
  have hmuxer := muxer_manySyncpoints
  obtain ⟨index, runs, hwrite, hruns, hindex⟩ := writeIndex_eq hmuxer (by omega)
  have hsyncpoints : (syncpointBytes 0 manySyncpoints).length = count := by
    rw [manySyncpoints, ← hcount]
    exact length_syncpointBytes_everySixteen 0 count
  have hrunsLength : runs.length ≤ 20 := by
    have hlast := writeStreams_last (n := manySyncpoints.length - 1) (by omega)
    rw [Nat.sub_add_cancel (by omega)] at hlast
    have heq : runs = putV (1 + 4 * (manySyncpoints.length - 1)) ++ putV 1 :=
      Option.some.inj (hruns.symm.trans hlast)
    have hrun := length_putV_le (show 1 + 4 * (manySyncpoints.length - 1) < 2 ^ 64 by omega)
    have hone := length_putV_le (show 1 < 2 ^ 64 by norm_num)
    rw [heq, List.length_append]
    omega
  have hmax : (index ++ putBE 8 (indexPtr (index.length + 8 + 4))).length ≤ dynBufMax := by
    have hdef : dynBufMax = 1073741823 := rfl
    have htt := length_putV_le (toUnsigned_lt (toUnsigned 64 (lastKeyframe manySyncpoints).maxPts *
      (lastKeyframe manySyncpoints).timeBase.length + (lastKeyframe manySyncpoints).maxPtsTb))
    have hnumber := length_putV_le (show manySyncpoints.length < 2 ^ 64 by omega)
    rw [List.length_append, length_putBE, hindex, putTt]
    simp only [List.length_append, hsyncpoints]
    omega
  obtain ⟨duration, bc, done, left, -, -, -, -, hdecode⟩ :=
      findAndDecodeIndex_count hmuxer (by omega) hindex rfl hmax (endsWith_readingOf hmax) id
  rw [if_neg (by omega)] at hdecode
  exact ⟨indexOf_last (by omega) _ (by omega), _, hwrite, hmax, _, hdecode, rfl⟩

/-- A file of 4 EiB with a syncpoint at its start and one at its end. -/
def farSyncpoints : List Syncpoint := [⟨16, 0, 0⟩, ⟨2 ^ 62 + 32, 16, 0⟩]

theorem nothingAdded_farSyncpoints : NothingAdded farSyncpoints := by
  have hrun : (writeIndex (lastKeyframe farSyncpoints)).any (fun dynBuf =>
      dynBuf.length ≤ dynBufMax ∧ (findAndDecodeIndex true [⟨1, 25⟩] id (readingOf dynBuf)).any
        fun r => r.1 = .error .invalidData ∧ r.2.streams = [emptyStream]) = true := by
    decide +kernel
  obtain ⟨dynBuf, hwrite, hread⟩ := (Option.any_eq_true _ _).mp hrun
  obtain ⟨hmax, hread⟩ := of_decide_eq_true hread
  obtain ⟨r, hread, hresult⟩ := (Option.any_eq_true _ _).mp hread
  obtain ⟨herror, hstreams⟩ := of_decide_eq_true hresult
  refine ⟨by decide, dynBuf, hwrite, hmax, r.2, ?_, hstreams⟩
  rw [hread, ← herror]

/-- An index of `INT_MAX / 8` syncpoints is not read back, and neither is one with a syncpoint
behind `2 ^ 62`, which the tree does not keep in order. -/
theorem not_indexRoundTrips :
    (Muxer (lastKeyframe manySyncpoints) manySyncpoints ∧ NothingAdded manySyncpoints ∧
      ¬ IndexRoundTrips (lastKeyframe manySyncpoints) manySyncpoints) ∧
    (farSyncpoints.Pairwise (fun sp sp' => sp.pos >>> 4 < sp'.pos >>> 4) ∧
      Keyframes 2 [avNoptsValue, 0] ∧ NothingAdded farSyncpoints ∧
      ¬ IndexRoundTrips (lastKeyframe farSyncpoints) farSyncpoints) := by
  refine ⟨⟨muxer_manySyncpoints, nothingAdded_manySyncpoints, ?_⟩, by decide,
    keyframes_last 1 (by decide), nothingAdded_farSyncpoints, ?_⟩
  · refine nothingAdded_manySyncpoints.refutes fun hnil => ?_
    have hlength := length_manySyncpoints
    rw [hnil] at hlength
    cases hlength
  · exact nothingAdded_farSyncpoints.refutes (List.cons_ne_nil _ _)
end FFmpeg.Libavformat.NutIndex
