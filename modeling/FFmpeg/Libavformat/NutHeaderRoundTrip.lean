import FFmpeg.Libavformat.NutHeaderTable

/-!
# The main header of a NUT file is read back

With reduced time bases the demuxer accepts every main header of the muxer, and it gets the
same time bases and elision headers; it gets the same frame codes exactly when every run
keeps its header index.
-/

namespace FFmpeg.Libavformat.NutHeader

open Common Libavutil Crc Nut Nut.AVIOContext NutFrameCode

variable {bc : AVIOContext}

/-! ## Time bases -/

/-- A time base of two `int`s. -/
def InInt (tb : AVRational) : Prop :=
  -2 ^ 31 ≤ tb.num ∧ tb.num < 2 ^ 31 ∧ -2 ^ 31 ≤ tb.den ∧ tb.den < 2 ^ 31

/-- A time base that a demuxer accepts. -/
def Reduced (tb : AVRational) : Prop :=
  0 < tb.num ∧ 0 < tb.den ∧ Nat.gcd tb.num.toNat tb.den.toNat = 1

/-- The two numbers of a time base. -/
def putTimeBase (tb : AVRational) : Bytes :=
  putV (toUnsigned 64 tb.num) ++ putV (toUnsigned 64 tb.den)

theorem toUnsigned_int {n : Int} (hlow : -2 ^ 31 ≤ n) (hhigh : n < 2 ^ 31) :
    toUnsigned 64 n < 2 ^ 64 ∧ (0 < n → toUnsigned 64 n = n.toNat) ∧
      (toUnsigned 64 n > 0 ∧ toUnsigned 64 n < 2 ^ 31 ↔ 0 < n) := by
  unfold toUnsigned
  lia

variable {tail : Bytes}

theorem readTimeBases_putTimeBase {l : List AVRational} (hl : ∀ tb ∈ l, InInt tb)
    (h : bc.rest = l.flatMap putTimeBase ++ tail) :
    ((∀ tb ∈ l, Reduced tb) → readTimeBases l.length bc =
      (true, l, bc.advance (l.flatMap putTimeBase).length)) ∧
      ((readTimeBases l.length bc).1 = true → ∀ tb ∈ l, Reduced tb) := by
  induction l generalizing bc with
  | nil => exact ⟨fun _ => rfl, fun _ => List.forall_mem_nil _⟩
  | cons tb l ih =>
    obtain ⟨hnumLow, hnumHigh, hdenLow, hdenHigh⟩ := hl tb List.mem_cons_self
    obtain ⟨hnumLt, hnumEq, hnumPos⟩ := toUnsigned_int hnumLow hnumHigh
    obtain ⟨hdenLt, hdenEq, hdenPos⟩ := toUnsigned_int hdenLow hdenHigh
    rw [List.flatMap_cons, putTimeBase, List.append_assoc, List.append_assoc] at h
    have hnum := ffioReadVarlen_putV hnumLt h
    have h := rest_advance_append h
    have hden := ffioReadVarlen_putV hdenLt h
    have h := rest_advance_append h
    obtain ⟨hread, hreduced⟩ := ih (fun t ht => hl t (List.mem_cons_of_mem tb ht)) h
    rw [List.length_cons, readTimeBases, hnum, List.forall_mem_cons]
    dsimp only
    rw [hden]
    by_cases hn : 0 < tb.num
    · rw [if_neg (not_not.mpr (hnumPos.mpr hn))]
      by_cases hd : 0 < tb.den
      · rw [if_neg (not_not.mpr (hdenPos.mpr hd)), hnumEq hn, hdenEq hd]
        by_cases hgcd : Nat.gcd tb.num.toNat tb.den.toNat = 1
        · rw [if_neg (not_not.mpr hgcd)]
          refine ⟨fun hall => ?_, fun hok => ⟨⟨hn, hd, hgcd⟩, hreduced ?_⟩⟩
          · have htb : (⟨(tb.num.toNat : Int), (tb.den.toNat : Int)⟩ : AVRational) = tb := by
              rw [Int.toNat_of_nonneg hn.le, Int.toNat_of_nonneg hd.le]
            rw [hnumEq hn, hdenEq hd] at hread
            rw [hread hall.2, htb, advance_advance, advance_advance, List.flatMap_cons, putTimeBase,
              List.length_append, List.length_append, hnumEq hn, hdenEq hd, Nat.add_assoc]
          · rw [hnumEq hn, hdenEq hd]
            exact hok
        · rw [if_pos hgcd]
          exact ⟨fun hall => absurd hall.1.2.2 hgcd, fun hok => absurd hok Bool.false_ne_true⟩
      · rw [if_pos fun hpos => hd (hdenPos.mp hpos)]
        exact ⟨fun hall => absurd hall.1.2.1 hd, fun hok => absurd hok Bool.false_ne_true⟩
    · rw [if_pos fun hpos => hn (hnumPos.mp hpos)]
      exact ⟨fun hall => absurd hall.1.1 hn, fun hok => absurd hok Bool.false_ne_true⟩

/-! ## Elision headers -/

/-- The length of a header and the header. -/
def putHeader (header : Bytes) : Bytes := putV header.length ++ header

theorem readHeaders_putHeader {l : List Bytes} {rem : Int}
    (hl : ∀ header ∈ l, 0 < header.length ∧ header.length < 256)
    (hrem : (l.map List.length).sum ≤ rem) (h : bc.rest = l.flatMap putHeader ++ tail) :
    readHeaders l.length rem bc = (true, l, bc.advance (l.flatMap putHeader).length) := by
  induction l generalizing bc rem with
  | nil => rfl
  | cons header l ih =>
    obtain ⟨hpos, hlt⟩ := hl header List.mem_cons_self
    rw [List.map_cons, List.sum_cons] at hrem
    rw [List.flatMap_cons, putHeader, List.append_assoc, List.append_assoc] at h
    have hlen := ffioReadVarlen_putV (show header.length < 2 ^ 64 by lia) h
    have h := rest_advance_append h
    have hhdr := avioRead_append h
    have h := rest_advance_append h
    have hrem : ((l.map List.length).sum : Int) ≤ rem - header.length := by lia
    have hrest := ih (fun t ht => hl t (List.mem_cons_of_mem header ht)) hrem h
    rw [List.length_cons, readHeaders, hlen]
    dsimp only
    rw [if_neg (not_not.mpr ⟨hpos, hlt⟩), if_neg (by lia), hhdr]
    dsimp only
    rw [hrest, advance_advance, advance_advance, List.flatMap_cons, putHeader, List.length_append,
      List.length_append, Nat.add_assoc]

theorem elisionHeaders_ok : (∀ header ∈ elisionHeaders, 0 < header.length ∧ header.length < 256) ∧
    (elisionHeaders.map List.length).sum ≤ 1024 := by decide

/-! ## The end of the header -/

/-- The flags, from version 4 on. -/
def putFlags (nut : NUTContext) : Bytes :=
  if nut.version > 3 then putV (toUnsigned 64 nut.flags) else []

/-- The number of the elision headers, and the headers. -/
def putHeaders (nut : NUTContext) : Bytes :=
  putV nut.header.length ++ nut.header.flatMap putHeader

variable {nut demux : NUTContext} {dynBuf done tail : Bytes}

theorem length_putV_bounds {val : Nat} (h : val < 2 ^ 64) :
    1 ≤ (putV val).length ∧ (putV val).length ≤ 10 := by
  obtain ⟨hpos, hle, -⟩ := lt_getVLength h
  rw [length_putV h]
  exact ⟨hpos, hle⟩

theorem decodeEnd_eq (hversion : demux.version = nut.version) (hchecks : Checks bc 0#32 done)
    (hdyn : dynBuf = done ++ putFlags nut) (heof : bc.eofReached = false)
    (h : bc.rest = putFlags nut ++ (putLE 4 (checksum dynBuf) ++ tail)) :
    ∃ flags bc', decodeEnd (bc.pos + (putFlags nut).length + 4) demux bc =
      some (.ok { demux with flags := flags }, bc') := by
  have hflags := toUnsigned_lt_two_pow 64 nut.flags
  obtain ⟨hpos, -⟩ := length_putV_bounds hflags
  obtain ⟨next, hnext⟩ : ∃ next, next = bc.advance (putFlags nut).length := ⟨_, rfl⟩
  have hread : ∃ flags,
      ((if demux.version > 3 ∧ (bc.pos + (putFlags nut).length + 4 : Int) > bc.pos + 4 then
        toSigned 32 (ffioReadVarlen bc).1 else demux.flags) = flags) ∧
      (if demux.version > 3 ∧ (bc.pos + (putFlags nut).length + 4 : Int) > bc.pos + 4 then
        (ffioReadVarlen bc).2 else bc) = next := by
    rw [hnext, hversion]
    by_cases hcoded : nut.version > 3
    · unfold putFlags at h ⊢
      rw [if_pos hcoded] at h ⊢
      rw [if_pos ⟨hcoded, by lia⟩, if_pos ⟨hcoded, by lia⟩, ffioReadVarlen_putV hflags h]
      exact ⟨_, rfl, rfl⟩
    · rw [if_neg fun hand => hcoded hand.1, if_neg fun hand => hcoded hand.1, putFlags,
        if_neg hcoded]
      exact ⟨_, rfl, rfl⟩
  obtain ⟨flags, hread, hbehind⟩ := hread
  have hchecks := hchecks.advance h
  have hrest := rest_advance_append h
  rw [← hdyn, ← hnext] at hchecks
  rw [← hnext] at hrest
  obtain ⟨bc', hskip, hget, -⟩ := packet_end hchecks
    (show dynBuf = dynBuf ++ [] from (List.append_nil _).symm) (by rw [hnext]; exact heof) hrest
  have hend : (bc.pos + (putFlags nut).length + 4 : Int) =
      next.pos + (([] : Bytes).length + 4) := by
    rw [hnext, advance_pos, List.length_nil]
    push_cast
    ring
  refine ⟨flags, bc', ?_⟩
  unfold decodeEnd
  simp only [decide_eq_true_eq]
  rw [hread, hbehind, hend, hskip]
  dsimp only
  rw [if_neg (by simp), hget, Option.bind_eq_bind, Option.bind_some, if_neg (by simp)]

theorem decodeHeaders_eq (hheader : nut.header = elisionHeaders)
    (hversion : demux.version = nut.version) (hchecks : Checks bc 0#32 done)
    (hdyn : dynBuf = done ++ (putHeaders nut ++ putFlags nut)) (heof : bc.eofReached = false)
    (h : bc.rest = putHeaders nut ++ (putFlags nut ++ (putLE 4 (checksum dynBuf) ++ tail))) :
    ∃ flags bc', decodeHeaders (bc.pos + (putHeaders nut ++ putFlags nut).length + 4) demux bc =
      some (.ok { demux with header := nut.header, flags := flags }, bc') := by
  have hlength : nut.header.length = 6 := by rw [hheader]; rfl
  have hchecks := hchecks.advance h
  have hend := rest_advance_append h
  rw [putHeaders, List.append_assoc] at h
  have hpos := (length_putV_bounds (show nut.header.length < 2 ^ 64 by lia)).1
  have hcount := ffioReadVarlen_putV (show nut.header.length < 2 ^ 64 by lia) h
  have hmore : (bc.pos + (putHeaders nut ++ putFlags nut).length + 4 : Int) > bc.pos + 4 := by
    rw [putHeaders, List.length_append, List.length_append]
    lia
  have hrem : ((nut.header.map List.length).sum : Int) ≤ 1024 := by
    rw [hheader]
    decide
  have hread := readHeaders_putHeader (hheader ▸ elisionHeaders_ok.1) hrem (rest_advance_append h)
  rw [advance_advance, ← List.length_append, ← putHeaders] at hread
  have hsplit : (bc.pos + (putHeaders nut ++ putFlags nut).length + 4 : Int) =
      (bc.advance (putHeaders nut).length).pos + (putFlags nut).length + 4 := by
    rw [List.length_append, advance_pos]
    push_cast
    ring
  rw [decodeHeaders, if_pos hmore, hcount]
  dsimp only
  rw [if_neg (by lia), hread]
  dsimp only
  rw [if_neg (by simp), hsplit]
  exact decodeEnd_eq
    (show ({ demux with header := nut.header } : NUTContext).version = nut.version from hversion)
    hchecks (by rw [hdyn, List.append_assoc]) heof hend

/-! ## The whole header -/

/-- What the muxer has set before it writes the main header. -/
structure Muxer (streams : List MuxStream) (nut : NUTContext) : Prop where
  version : nut.version = 3 ∨ nut.version = 4
  nbStreams : nut.nbStreams = streams.length
  streams_pos : 0 < streams.length
  streams_le : streams.length ≤ 250
  maxDistance : nut.maxDistance < 2 ^ 32
  timeBase_pos : 0 < nut.timeBase.length
  timeBase_le : nut.timeBase.length ≤ streams.length
  timeBase_int : ∀ tb ∈ nut.timeBase, InInt tb
  frameCode : buildFrameCode streams = some nut.frameCode
  header : nut.header = elisionHeaders

/-- What is in front of the time bases. -/
def putFront (nut : NUTContext) : Bytes :=
  putV nut.version ++ (if nut.version > 3 then putV 1 else []) ++ putV nut.nbStreams ++
    putV nut.maxDistance ++ putV nut.timeBase.length

/-- What is behind the number of time bases. -/
def putBehind (nut : NUTContext) : Bytes :=
  nut.timeBase.flatMap putTimeBase ++ (writeFrameCodes nut.frameCode 257 0 Tmp.start ++
    (putHeaders nut ++ putFlags nut))

theorem writeMainheader_eq (nut : NUTContext) :
    writeMainheader nut = putFront nut ++ putBehind nut := by
  simp only [writeMainheader, putFront, putBehind, putHeaders, putFlags, List.append_assoc]
  rfl

/-- The runs whose header index is lost. -/
def KeepsAll (codes : List FrameCode) : Prop := (runs codes 257 0).IsChain KeepsHeaderIdx

/-- The time bases, the frame codes and the headers of another context. -/
structure Carried (nut read : NUTContext) : Prop where
  timeBase : read.timeBase = nut.timeBase
  header : read.header = nut.header
  frameCode : ∀ k < 256, (codeAt nut.frameCode k).flags ≠ flagInvalid →
    codeAt read.frameCode k = codeAt nut.frameCode k

variable {streams : List MuxStream}

variable {codes : List FrameCode}

theorem readFrameCodes_table {nbStreams : Nat} {codes' : List FrameCode}
    (h : FrameTable nbStreams codes) (hstreams : nbStreams ≤ 250) (hcodes : codes'.length = 256)
    (hrest : bc.rest = writeFrameCodes codes 257 0 Tmp.start ++ tail) :
    ∃ read, readFrameCodes nbStreams 257 0 Tmp.start codes' bc =
        (true, read, bc.advance (writeFrameCodes codes 257 0 Tmp.start).length) ∧
      ReadFrom codes 0 0 codes' read ∧ (SameHeaderIdx codes 0 read ↔ KeepsAll codes) := by
  unfold KeepsAll
  obtain ⟨rounds, hrounds⟩ : ∃ rounds, rounds = 256 := ⟨_, rfl⟩
  have hmore : 257 = rounds + 1 := by lia
  rw [hmore] at hrest ⊢
  obtain ⟨read, hrun, hfrom, hiff⟩ := readFrameCodes_writeFrameCodes h hstreams
    (show 257 ≤ 0 + (rounds + 1) by lia) (by lia) (by decide) (Or.inl rfl)
    (show Tmp.start.pts = Tmp.start.pts from rfl) rfl rfl
    (show Tmp.start.headIdx = (0 : Nat) from rfl) (by lia) hcodes (fun hlt => by lia) hrest
  refine ⟨read, hrun, hfrom, ?_⟩
  obtain ⟨⟨i', j⟩, hfirst⟩ : ∃ p, runLoop codes (codeAt codes 0) 256 0 0 = p := ⟨_, rfl⟩
  have hkeeps : KeepsHeaderIdx (FrameCode.zero, 0) (codeAt codes 0, j) := by
    rw [h.first]
    exact Or.inl rfl
  rw [hiff (FrameCode.zero, 0) rfl rfl fun _ => rfl, runs_cons (by lia) hfirst,
    List.isChain_cons_cons]
  exact ⟨fun hand => hand.2, fun hchain => ⟨hkeeps, hchain⟩⟩

theorem decodeCodes_of_run {endPos : Int} {timeBase : List AVRational} {n : Nat}
    {bc' bc'' : AVIOContext} (htime : readTimeBases n bc = (true, timeBase, bc'))
    (hrun : readFrameCodes demux.nbStreams 257 0 Tmp.start demux.frameCode bc' = (true, codes, bc''))
    (hinvalid : (codeAt codes codeN).flags = flagInvalid) :
    decodeCodes endPos n demux bc =
      decodeHeaders endPos { demux with timeBase := timeBase, frameCode := codes } bc'' := by
  unfold decodeCodes
  rw [htime]
  dsimp only
  rw [if_neg (by simp), hrun]
  dsimp only
  rw [if_neg (by simp), if_neg (not_not.mpr hinvalid)]

theorem decodeCodes_eq (h : Muxer streams nut) (hversion : demux.version = nut.version)
    (hstreams : demux.nbStreams = nut.nbStreams) (hcodes : demux.frameCode.length = 256)
    (hchecks : Checks bc 0#32 done) (hdyn : dynBuf = done ++ putBehind nut)
    (heof : bc.eofReached = false)
    (hrest : bc.rest = putBehind nut ++ (putLE 4 (checksum dynBuf) ++ tail)) :
    ∃ result bc', decodeCodes (bc.pos + (putBehind nut).length + 4) nut.timeBase.length demux bc =
        some (result, bc') ∧
      ((∃ read, result = .ok read ∧ Carried nut read) ↔
        (∀ tb ∈ nut.timeBase, Reduced tb) ∧ KeepsAll nut.frameCode) := by
  have htable := frameTable_buildFrameCode
    (List.ne_nil_of_length_pos h.streams_pos) h.frameCode
  have hle := h.streams_le
  rw [← h.nbStreams, ← hstreams] at htable hle
  have hend : (bc.pos + (putBehind nut).length + 4 : Int) =
      ((bc.advance (nut.timeBase.flatMap putTimeBase).length).advance
        (writeFrameCodes nut.frameCode 257 0 Tmp.start).length).pos +
        (putHeaders nut ++ putFlags nut).length + 4 := by
    rw [putBehind, List.length_append, List.length_append, advance_advance, advance_pos]
    push_cast
    ring
  rw [hend]
  unfold putBehind at hrest hdyn
  simp only [List.append_assoc] at hrest
  obtain ⟨hread, hreduced⟩ := readTimeBases_putTimeBase h.timeBase_int hrest
  have hchecks := hchecks.advance hrest
  have hrest := rest_advance_append hrest
  by_cases hall : ∀ tb ∈ nut.timeBase, Reduced tb
  · obtain ⟨codes, hrun, hfrom, hchain⟩ := readFrameCodes_table htable hle hcodes hrest
    rw [decodeCodes_of_run (hread hall) hrun hfrom.invalid]
    obtain ⟨flags, bc', hdecode⟩ := decodeHeaders_eq h.header
      (show ({ demux with timeBase := nut.timeBase, frameCode := codes } : NUTContext).version =
        nut.version from hversion)
      (hchecks.advance hrest) (by simp only [hdyn, List.append_assoc]) heof
      (rest_advance_append hrest)
    refine ⟨_, bc', hdecode, ?_⟩
    rw [← hchain]
    refine ⟨?_, fun hand => ⟨_, rfl, rfl, rfl, fun k hk hvalid => ?_⟩⟩
    · rintro ⟨read, hok, hcarried⟩
      rw [← Except.ok.inj hok] at hcarried
      exact ⟨hall, fun k _ hk hvalid => congrArg FrameCode.headerIdx
        (hcarried.frameCode k hk hvalid)⟩
    · have hkN : k ≠ codeN := fun heq => hvalid ((htable.invalid k hk).mpr (Or.inr (Or.inl heq)))
      obtain ⟨idx, hcode⟩ := hfrom.code k (Nat.zero_le k) hk hkN
      have hidx := hand.2 k (Nat.zero_le k) hk hvalid
      show codeAt codes k = codeAt nut.frameCode k
      rw [hcode] at hidx ⊢
      dsimp only at hidx
      rw [hidx]
  · have hfail : (readTimeBases nut.timeBase.length bc).1 = false :=
      Bool.eq_false_iff.mpr fun hok => hall (hreduced hok)
    unfold decodeCodes
    dsimp only
    rw [hfail]
    refine ⟨_, _, rfl, fun hok => ?_, fun hand => absurd hand.1 hall⟩
    obtain ⟨read, heq, -⟩ := hok
    exact absurd heq (by simp)

/-! ## Sizes -/

theorem vLengthLoop_le (rounds val i : Nat) : vLengthLoop rounds val i ≤ i + rounds := by
  induction rounds generalizing val i with
  | zero => exact le_rfl
  | succ rounds ih =>
    rw [vLengthLoop]
    have hnext := ih (val >>> 7) (i + 1)
    split_ifs <;> lia

theorem length_putV_le_ten (val : Nat) : (putV val).length ≤ 10 := by
  have hle := vLengthLoop_le 9 val 1
  rw [putV, length_putVLoop, getVLength]
  lia

theorem length_opt_le_ten {l : Bytes} (h : l.length ≤ 10) (p : Prop) [Decidable p] :
    (if p then l else []).length ≤ 10 := by
  split_ifs
  · exact h
  · exact Nat.zero_le 10

theorem length_putRun_le (fc : FrameCode) (fields j : Nat) : (putRun fc fields j).length ≤ 100 := by
  have hflags := length_putV_le_ten fc.flags
  have hfields := length_putV_le_ten fields
  have hopt (p : Prop) [Decidable p] (val : Nat) : (if p then putV val else []).length ≤ 10 :=
    length_opt_le_ten (length_putV_le_ten val) p
  have hpts : (if fields > 0 then putS fc.ptsDelta else []).length ≤ 10 := hopt _ _
  have hmul := hopt (fields > 1) fc.sizeMul
  have hstream := hopt (fields > 2) fc.streamId
  have hsize := hopt (fields > 3) fc.sizeLsb
  have hres := hopt (fields > 4) 0
  have hcount := hopt (fields > 5) j
  have hmatch := hopt (fields > 6) (toUnsigned 64 (1 - 2 ^ 62))
  have hidx := hopt (fields > 7) fc.headerIdx
  simp only [putRun, List.length_append]
  lia

theorem length_writeFrameCodes_le (codes : List FrameCode) (rounds i : Nat) (tmp : Tmp) :
    (writeFrameCodes codes rounds i tmp).length ≤ rounds * 100 := by
  induction rounds generalizing i tmp with
  | zero => exact Nat.zero_le _
  | succ rounds ih =>
    rw [writeFrameCodes]
    split_ifs
    · dsimp only
      have hrun := length_putRun_le (codeAt codes i)
        (runFields tmp (codeAt codes i) (runLoop codes (codeAt codes i) 256 i 0).2)
        (runLoop codes (codeAt codes i) 256 i 0).2
      have hrest := ih (runLoop codes (codeAt codes i) 256 i 0).1 (Tmp.next (codeAt codes i))
      rw [List.length_append]
      lia
    · exact Nat.zero_le _

theorem length_flatMap_putTimeBase (l : List AVRational) :
    2 * l.length ≤ (l.flatMap putTimeBase).length ∧
      (l.flatMap putTimeBase).length ≤ 20 * l.length := by
  induction l with
  | nil => exact ⟨le_rfl, le_rfl⟩
  | cons tb l ih =>
    have hnum := length_putV_bounds (toUnsigned_lt_two_pow 64 tb.num)
    have hden := length_putV_bounds (toUnsigned_lt_two_pow 64 tb.den)
    rw [List.flatMap_cons, putTimeBase, List.length_append, List.length_append, List.length_cons]
    lia

theorem length_writeMainheader (h : Muxer streams nut) :
    2 * nut.timeBase.length ≤ (writeMainheader nut).length ∧
      (writeMainheader nut).length + 4 < 2 ^ 31 := by
  have hle := h.timeBase_le.trans h.streams_le
  have htimes := length_flatMap_putTimeBase nut.timeBase
  have hruns := length_writeFrameCodes_le nut.frameCode 257 0 Tmp.start
  have hheaders : (putHeaders nut).length ≤ 100 := by
    rw [putHeaders, h.header]
    decide
  have hversion := length_putV_le_ten nut.version
  have hminor := length_opt_le_ten (length_putV_le_ten 1) (nut.version > 3)
  have hstreams := length_putV_le_ten nut.nbStreams
  have hdistance := length_putV_le_ten nut.maxDistance
  have hcount := length_putV_le_ten nut.timeBase.length
  have hflags : (putFlags nut).length ≤ 10 := length_opt_le_ten (length_putV_le_ten _) _
  rw [writeMainheader_eq, putFront, putBehind]
  simp only [List.length_append]
  lia

/-! ## The main header -/

/-- The demuxer behind the start code of the main header. -/
structure AtMainHeader (nut : NUTContext) (bc : AVIOContext) : Prop where
  eof : bc.eofReached = false
  content : ∃ tail, putBE 8 mainStartcode ++ bc.rest =
    putPacket (writeMainheader nut) mainStartcode ++ tail

theorem ffioReadVarlen_minor {version : Nat} {minor : Bytes}
    (hminor : minor = if version > 3 then putV 1 else []) (h : bc.rest = minor ++ tail) :
    (if (version : Int) > 3 then (ffioReadVarlen bc).2 else bc) = bc.advance minor.length := by
  by_cases hmore : version > 3
  · have hmore' : (version : Int) > 3 := by lia
    rw [if_pos hmore] at hminor
    rw [hminor] at h
    rw [if_pos hmore', ffioReadVarlen_putV (by lia) h, hminor]
  · have hmore' : ¬ (version : Int) > 3 := by lia
    rw [if_neg hmore', hminor, if_neg hmore]
    rfl

/-- What is in front of the time bases is read. -/
theorem decodeMainHeader_eq (h : Muxer streams nut) (hat : AtMainHeader nut bc)
    (demux : NUTContext) : ∃ demux' bc' done tail,
      decodeMainHeader true demux bc =
        decodeCodes (bc'.pos + (putBehind nut).length + 4) nut.timeBase.length demux' bc' ∧
      demux'.version = nut.version ∧ demux'.nbStreams = nut.nbStreams ∧
      demux'.frameCode = demux.frameCode ∧ Checks bc' 0#32 done ∧
      writeMainheader nut = done ++ putBehind nut ∧ bc'.eofReached = false ∧
      bc'.rest = putBehind nut ++ (putLE 4 (checksum (writeMainheader nut)) ++ tail) := by
  obtain ⟨tail, htail⟩ := hat.content
  obtain ⟨hcount, hsize⟩ := length_writeMainheader h
  have hstreamsPos := h.streams_pos
  have hstreamsLe := h.streams_le
  have htimePos := h.timeBase_pos
  have htimeLe := h.timeBase_le
  have hdistance := h.maxDistance
  have hnb := h.nbStreams
  rw [putPacket_eq, List.append_assoc, List.append_cancel_left_eq, List.append_assoc] at htail
  obtain ⟨bc', hget, hchecks, hrest, -, -, heof⟩ := getPacketheader_packetLength hsize htail
  have hlength : toUnsigned 64 ((writeMainheader nut).length + 4 : Nat) =
      (writeMainheader nut).length + 4 := by
    unfold toUnsigned
    lia
  have hfront : bc'.rest = putFront nut ++
      (putBehind nut ++ (putLE 4 (checksum (writeMainheader nut)) ++ tail)) := by
    rw [hrest]
    conv_lhs => rw [writeMainheader_eq]
    simp only [List.append_assoc]
    rw [← writeMainheader_eq]
  have hend : (((writeMainheader nut).length + 4 : Nat) : Int) + bc'.pos =
      (bc'.advance (putFront nut).length).pos + (putBehind nut).length + 4 := by
    rw [writeMainheader_eq, List.length_append, advance_pos]
    push_cast
    ring
  -- one number after the other
  have hread := hfront
  unfold putFront at hread
  simp only [List.append_assoc] at hread
  have hversionLt : nut.version < 2 ^ 31 := by
    have hversion := h.version
    lia
  have hversionOk : ¬ ((nut.version : Int) < 2 ∨ (nut.version : Int) > 4) := by
    rcases h.version with heq | heq
    · rw [heq]
      decide
    · rw [heq]
      decide
  have hversion := ffioReadVarlen_putV (show nut.version < 2 ^ 64 by lia) hread
  have hread := rest_advance_append hread
  have hsigned := toSigned_thirtyTwo hversionLt
  obtain ⟨minor, hminor⟩ : ∃ l, l = if nut.version > 3 then putV 1 else [] := ⟨_, rfl⟩
  rw [← hminor] at hread
  have hskip := ffioReadVarlen_minor hminor hread
  have hread := rest_advance_append hread
  have hcountStreams := ffioReadVarlen_putV (show nut.nbStreams < 2 ^ 64 by lia) hread
  have hread := rest_advance_append hread
  have hdistanceRead := ffioReadVarlen_putV (show nut.maxDistance < 2 ^ 64 by lia) hread
  have hread := rest_advance_append hread
  have htimeCount := ffioReadVarlen_putV (show nut.timeBase.length < 2 ^ 64 by lia) hread
  have hfrontLength : (putFront nut).length = (putV nut.version).length + minor.length +
      (putV nut.nbStreams).length + (putV nut.maxDistance).length +
      (putV nut.timeBase.length).length := by
    simp only [putFront, ← hminor, List.length_append]
  unfold decodeMainHeader
  rw [hget, Option.bind_eq_bind, Option.bind_some]
  dsimp only
  rw [hversion]
  dsimp only
  rw [hsigned, if_neg hversionOk]
  simp only [decide_eq_true_eq]
  rw [hskip, hcountStreams]
  dsimp only
  rw [if_neg (by lia), hdistanceRead]
  dsimp only
  rw [htimeCount, hlength]
  dsimp only
  rw [if_neg (by lia), if_neg (by simp), hend]
  simp only [advance_advance, ← hfrontLength]
  exact ⟨_, _, _, tail, rfl, Int.toNat_natCast _, rfl, rfl, hchecks.advance hfront,
    writeMainheader_eq nut, heof.trans hat.eof, rest_advance_append hfront⟩

/-- The demuxer accepts the main header, with the same frame codes, time bases and elision
headers. -/
def MainHeaderCarried (nut : NUTContext) : Prop :=
  ∀ demux bc, demux.frameCode.length = 256 → AtMainHeader nut bc →
    ∃ read bc', decodeMainHeader true demux bc = some (.ok read, bc') ∧ Carried nut read

theorem decodeMainHeader_result (h : Muxer streams nut) (hlength : demux.frameCode.length = 256)
    (hat : AtMainHeader nut bc) :
    ∃ result bc', decodeMainHeader true demux bc = some (result, bc') ∧
      ((∃ read, result = .ok read ∧ Carried nut read) ↔
        (∀ tb ∈ nut.timeBase, Reduced tb) ∧ KeepsAll nut.frameCode) := by
  obtain ⟨demux', bc', done, tail, heq, hversion, hstreams, hcodes, hchecks, hdyn, heof, hrest⟩ :=
    decodeMainHeader_eq h hat demux
  rw [heq]
  exact decodeCodes_eq h hversion hstreams (hcodes ▸ hlength) hchecks hdyn heof hrest

theorem keepsAll_of_carried (h : Muxer streams nut) (hcarried : MainHeaderCarried nut) :
    (∀ tb ∈ nut.timeBase, Reduced tb) ∧ KeepsAll nut.frameCode := by
  obtain ⟨bc, hbc⟩ : ∃ bc : AVIOContext, bc =
      ⟨(putPacket (writeMainheader nut) mainStartcode).drop 8, 0, false, false, 0#32, 0⟩ :=
    ⟨_, rfl⟩
  have hat : AtMainHeader nut bc := by
    rw [hbc]
    refine ⟨rfl, [], ?_⟩
    rw [List.append_nil, putPacket_eq]
    show putBE 8 mainStartcode ++ List.drop 0 (List.drop 8 (putBE 8 mainStartcode ++ _)) = _
    rw [List.drop_zero, List.drop_left' (length_putBE 8 _)]
  obtain ⟨demux, hdemux⟩ : ∃ demux : NUTContext, demux.frameCode.length = 256 :=
    ⟨⟨0, 0, 0, 0, [], List.replicate 256 FrameCode.zero, [], 0⟩, List.length_replicate⟩
  obtain ⟨read, bc', hread, hcarries⟩ := hcarried demux bc hdemux hat
  obtain ⟨result, bc'', hresult, hiff⟩ := decodeMainHeader_result h hdemux hat
  rw [hread] at hresult
  exact hiff.mp ⟨read, (Prod.mk.inj (Option.some.inj hresult)).1.symm, hcarries⟩

instance (before run : FrameCode × Nat) : Decidable (KeepsHeaderIdx before run) :=
  inferInstanceAs (Decidable (_ ∨ _ ∨ _))

/-! ## Video streams -/

theorem keepsAll_of_headerIdx (idx : Nat) (h : ∀ k, (codeAt codes k).headerIdx = idx) :
    KeepsAll codes := by
  have hrun : ∀ rounds i, ∀ run ∈ runs codes rounds i, run.1.headerIdx = idx := by
    intro rounds
    induction rounds with
    | zero => exact fun i run hrun => absurd hrun List.not_mem_nil
    | succ rounds ih =>
      intro i run hrun
      rw [runs] at hrun
      split at hrun
      · rcases List.mem_cons.1 hrun with rfl | hrest
        · exact h i
        · exact ih _ run hrest
      · cases hrun
  refine List.Pairwise.isChain (List.pairwise_of_forall_mem_list fun before hbefore run hafter => ?_)
  exact Or.inr (Or.inl ((hrun _ _ run hafter).trans (hrun _ _ before hbefore).symm))

/-- No code has an elision header. -/
def NoHeaders (codes : List FrameCode) : Prop := ∀ fc ∈ codes, fc.headerIdx = 0

section Video

variable {p : MuxStream} {streamId : Nat} {codes codes' : List FrameCode}

variable {f : FrameCode → FrameCode}

theorem NoHeaders.modify (h : NoHeaders codes) (hf : ∀ fc, (f fc).headerIdx = fc.headerIdx)
    (i : Nat) : NoHeaders (codes.modify i f) := by
  intro fc hfc
  obtain ⟨k, hk⟩ := List.mem_iff_getElem?.1 hfc
  rw [List.getElem?_modify] at hk
  obtain ⟨before, hbefore, rfl⟩ := Option.map_eq_some_iff.1 hk
  have hzero := h before (List.mem_of_getElem? hbefore)
  split
  · rw [hf, hzero]
  · exact hzero

theorem NoHeaders.setCode (h : NoHeaders codes) (hf : ∀ fc, (f fc).headerIdx = fc.headerIdx)
    {index : Int} (hset : setCode codes index f = some codes') : NoHeaders codes' := by
  unfold NutFrameCode.setCode at hset
  split_ifs at hset with hindex
  rw [← Option.some.inj hset]
  exact h.modify hf _

theorem NoHeaders.anyCodes (hvideo : p.isAudio = false) (keyframe0Esc : Bool)
    {keyFrames : List Bool} {start2 : Int} {state : List FrameCode × Int} (h : NoHeaders codes)
    (hcodes : anyCodes p streamId keyframe0Esc keyFrames (codes, start2) = some state) :
    NoHeaders state.1 := by
  induction keyFrames generalizing codes start2 with
  | nil =>
    rw [NutFrameCode.anyCodes] at hcodes
    rwa [← Option.some.inj hcodes]
  | cons keyFrame keyFrames ih =>
    rw [NutFrameCode.anyCodes, if_pos (Or.inl (by rw [hvideo]; decide))] at hcodes
    obtain ⟨codes₁, hset, hrest⟩ := Option.bind_eq_some_iff.mp hcodes
    refine ih (h.setCode (fun fc => ?_) hset) hrest
    show (if p.isAudio then findHeaderIdx p (-1) keyFrame else fc.headerIdx) = fc.headerIdx
    rw [hvideo, if_neg Bool.false_ne_true]

theorem NoHeaders.lsbCodes (hvideo : p.isAudio = false) (ptsDelta start3 end3 : Int) {left : Nat}
    (h : NoHeaders codes)
    (hcodes : lsbCodes p streamId ptsDelta start3 end3 left codes = some codes') :
    NoHeaders codes' := by
  induction left generalizing codes with
  | zero =>
    rw [NutFrameCode.lsbCodes] at hcodes
    rwa [← Option.some.inj hcodes]
  | succ left ih =>
    rw [NutFrameCode.lsbCodes] at hcodes
    obtain ⟨codes₁, hset, hrest⟩ := Option.bind_eq_some_iff.mp hcodes
    refine ih (h.setCode (fun fc => ?_) hset) hrest
    show (if p.isAudio then findHeaderIdx p (-1) true else fc.headerIdx) = fc.headerIdx
    rw [hvideo, if_neg Bool.false_ne_true]

theorem NoHeaders.predCodes (hvideo : p.isAudio = false) {start2 end2 predCount pred : Int}
    {predTable : List Int} (h : NoHeaders codes)
    (hcodes : predCodes p streamId start2 end2 predCount predTable pred codes = some codes') :
    NoHeaders codes' := by
  induction predTable generalizing codes pred with
  | nil =>
    rw [NutFrameCode.predCodes] at hcodes
    rwa [← Option.some.inj hcodes]
  | cons value predTable ih =>
    rw [NutFrameCode.predCodes] at hcodes
    obtain ⟨codes₁, hlsb, hrest⟩ := Option.bind_eq_some_iff.mp hcodes
    exact ih (h.lsbCodes hvideo _ _ _ hlsb) hrest

theorem NoHeaders.streamCodes (hvideo : p.isAudio = false) {keyframe0Esc : Bool}
    {start2 end2 : Int} (h : NoHeaders codes)
    (hcodes : streamCodes p streamId keyframe0Esc start2 end2 codes = some codes') :
    NoHeaders codes' := by
  rw [NutFrameCode.streamCodes] at hcodes
  obtain ⟨any, hany, hcodes⟩ := Option.bind_eq_some_iff.mp hcodes
  obtain ⟨fixed, hfixed, hpreds⟩ := Option.bind_eq_some_iff.mp hcodes
  rw [NutFrameCode.fixedCodes, if_neg (by rw [hvideo]; decide)] at hfixed
  obtain ⟨codes₁, hset, hfixed⟩ := Option.bind_eq_some_iff.mp hfixed
  rw [← Option.some.inj hfixed] at hpreds
  have hany' := h.anyCodes hvideo keyframe0Esc hany
  exact (hany'.setCode (by intro fc; rfl) hset).predCodes hvideo hpreds

variable {streams : List MuxStream}

theorem NoHeaders.streamsCodes {nbStreams start : Nat} (hvideo : ∀ p ∈ streams, p.isAudio = false)
    (h : NoHeaders codes)
    (hcodes : streamsCodes nbStreams start streams streamId codes = some codes') :
    NoHeaders codes' := by
  induction streams generalizing streamId codes with
  | nil =>
    rw [NutFrameCode.streamsCodes] at hcodes
    rwa [← Option.some.inj hcodes]
  | cons p streams ih =>
    rw [NutFrameCode.streamsCodes] at hcodes
    obtain ⟨codes₁, hstream, hrest⟩ := Option.bind_eq_some_iff.mp hcodes
    exact ih (fun q hq => hvideo q (List.mem_cons_of_mem p hq))
      (h.streamCodes (hvideo p List.mem_cons_self) hstream) hrest

theorem NoHeaders.reserve (h : NoHeaders codes) : NoHeaders (reserveCodes codes) := by
  have hmoved : NoHeaders (codes.take (codeN + 1) ++ (codes.drop codeN).take (255 - codeN)) := by
    intro fc hfc
    rcases List.mem_append.1 hfc with hlow | hhigh
    · exact h fc (List.mem_of_mem_take hlow)
    · exact h fc (List.mem_of_mem_drop (List.mem_of_mem_take hhigh))
  exact ((hmoved.modify (by intro fc; rfl) _).modify (by intro fc; rfl) _).modify
    (by intro fc; rfl) _

theorem noHeaders_buildFrameCode (hvideo : ∀ p ∈ streams, p.isAudio = false)
    (h : buildFrameCode streams = some codes) :
    NoHeaders codes := by
  rw [buildFrameCode] at h
  obtain ⟨codes₁, hcodes, hreserve⟩ := Option.bind_eq_some_iff.mp h
  rw [← Option.some.inj hreserve]
  have hzero : NoHeaders (List.replicate 256 FrameCode.zero) := fun fc hfc => by
    rw [List.eq_of_mem_replicate hfc]
    rfl
  refine NoHeaders.reserve (NoHeaders.streamsCodes hvideo ?_ hcodes)
  split_ifs
  · exact (hzero.modify (by intro fc; rfl) 1).modify (by intro fc; rfl) 2
  · exact hzero.modify (by intro fc; rfl) 1

theorem NoHeaders.keepsAll (h : NoHeaders codes) : KeepsAll codes := by
  apply keepsAll_of_headerIdx 0
  intro k
  rw [codeAt, List.getD_eq_getElem?_getD]
  cases hk : codes[k]? with
  | none => rfl
  | some fc => exact h fc (List.mem_of_getElem? hk)

end Video

/-- The context of a muxer of version 3 for these streams. -/
def muxed (streams : List MuxStream) (timeBase : List AVRational) : NUTContext where
  version := 3
  minorVersion := 0
  nbStreams := streams.length
  maxDistance := 32768
  timeBase := timeBase
  frameCode := (buildFrameCode streams).getD []
  header := elisionHeaders
  flags := 0

theorem muxed_frameCode {streams : List MuxStream} (h : buildFrameCode streams ≠ none)
    (timeBase : List AVRational) :
    buildFrameCode streams = some (muxed streams timeBase).frameCode :=
  (Option.getD_of_ne_none h []).symm

/-- MPEG-4 video of 25 frames a second. -/
def mpeg4Stream : MuxStream := ⟨false, .mpeg4, 0, 0, 0, 1, 0, ⟨1, 1⟩⟩

theorem muxer_mpeg4 : Muxer [mpeg4Stream] (muxed [mpeg4Stream] [⟨1, 25⟩]) := by
  have hcodes : buildFrameCode [mpeg4Stream] ≠ none := by decide +kernel
  exact ⟨Or.inl rfl, rfl, by decide, by decide, by decide, by decide, by decide,
    by unfold InInt; decide, muxed_frameCode hcodes _, rfl⟩

/-- MP3 audio at 48 kHz whose average bit rate is just below 128 kbit/s: of the four codes for
frames of one size, two are for a size of no MP3 header, and have no elision header. -/
def mp3Stream : MuxStream := ⟨true, .mp3, 48000, 127999, 0, 0, 1152, ⟨0, 1⟩⟩

theorem muxer_mp3 : Muxer [mp3Stream] (muxed [mp3Stream] [⟨1, 48000⟩]) := by
  have hcodes : buildFrameCode [mp3Stream] ≠ none := by decide +kernel
  exact ⟨Or.inl rfl, rfl, by decide, by decide, by decide, by decide, by decide,
    by unfold InInt; decide, muxed_frameCode hcodes _, rfl⟩

end FFmpeg.Libavformat.NutHeader
