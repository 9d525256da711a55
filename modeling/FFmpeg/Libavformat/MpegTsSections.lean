import FFmpeg.Libavformat.MpegTs

/-!
# The scan of the section buffer

The buffer is scanned from its beginning whenever something has been put behind it.  The scan
calls for every whole section that it meets, and stops at stuffing, at the end of the buffer or in
a section that is not complete.
-/

namespace FFmpeg.Libavformat.MpegTs

open Common Libavutil Crc

variable {ts ts' : MpegTSContext} {check : Bool} {pre sec tail bytes part data : Bytes}
  {whole : List Bytes}

/-- A section: its length stands in its header, it does not look like stuffing, and the check, if
it is looked at, is right. -/
structure IsSection (check : Bool) (sec : Bytes) : Prop where
  header : 3 ≤ sec.length
  fits : sec.length ≤ maxSectionSize
  length_eq : sectionLength sec 0 = sec.length
  first : sec.getD 0 0 ≠ 0xff
  crc : check = true → avCrc avCrc32Ieee 0 (BitVec.allOnes 32) sec = 0#32

/-- The beginning of a section. -/
def Begins (check : Bool) (part : Bytes) : Prop :=
  part ≠ [] ∧ ∃ rest, rest ≠ [] ∧ IsSection check (part ++ rest)

/-- What the section filter does not change. -/
structure Same (ts ts' : MpegTSContext) : Prop where
  pid : ts'.tss.pid = ts.tss.pid
  lastCc : ts'.tss.lastCc = ts.tss.lastCc
  discard : ts'.tss.discard = ts.tss.discard
  checkCrc : ts'.tss.sectionFilter.checkCrc = ts.tss.sectionFilter.checkCrc

theorem Same.refl (ts : MpegTSContext) : Same ts ts := ⟨rfl, rfl, rfl, rfl⟩

theorem Same.trans {ts'' : MpegTSContext} (h : Same ts ts') (h' : Same ts' ts'') : Same ts ts'' :=
  ⟨h'.pid.trans h.pid, h'.lastCc.trans h.lastCc, h'.discard.trans h.discard,
    h'.checkCrc.trans h.checkCrc⟩

/-- The buffer holds `bytes`, before stale ones. -/
structure Buffered (ts : MpegTSContext) (bytes : Bytes) : Prop where
  length_eq : ts.tss.sectionFilter.sectionBuf.length = maxSectionSize
  index_eq : ts.tss.sectionFilter.sectionIndex = bytes.length
  hSize : ts.tss.sectionFilter.sectionHSize = none
  buf_eq : ∃ stale, ts.tss.sectionFilter.sectionBuf = bytes ++ stale

theorem Buffered.length_le (h : Buffered ts bytes) : bytes.length ≤ maxSectionSize := by
  obtain ⟨stale, hstale⟩ := h.buf_eq
  rw [← h.length_eq, hstale, List.length_append]
  exact Nat.le_add_right _ _

/-! ## Sections in the buffer -/

theorem getD_append_inside {l l' : Bytes} {i : Nat} (hi : i < l.length) :
    (l ++ l').getD i 0 = l.getD i 0 := by
  simp [List.getElem?_append_left hi]

theorem getD_append_behind {l l' : Bytes} (i : Nat) :
    (l ++ l').getD (l.length + i) 0 = l'.getD i 0 := by
  simp [List.getElem?_append_right (Nat.le_add_right _ i)]

theorem sectionLength_behind (h : 3 ≤ sec.length) (tail : Bytes) :
    sectionLength (pre ++ (sec ++ tail)) pre.length = sectionLength sec 0 := by
  have hone : (pre ++ (sec ++ tail)).getD (pre.length + 1) 0 = sec.getD 1 0 :=
    (getD_append_behind 1).trans (getD_append_inside (by lia))
  have htwo : (pre ++ (sec ++ tail)).getD (pre.length + 2) 0 = sec.getD 2 0 :=
    (getD_append_behind 2).trans (getD_append_inside (by lia))
  rw [sectionLength, sectionLength, avRb16, avRb16, Nat.add_assoc, hone, htwo]

theorem callSection_spec (h : Buffered ts (pre ++ sec ++ tail))
    (hsec : IsSection ts.tss.sectionFilter.checkCrc sec) :
    Buffered (callSection ts pre.length sec.length) (pre ++ sec ++ tail) ∧
      Same ts (callSection ts pre.length sec.length) ∧
      (callSection ts pre.length sec.length).tss.sectionFilter.calls =
        ts.tss.sectionFilter.calls ++ [sec] := by
  obtain ⟨stale, hstale⟩ := h.buf_eq
  have hcur : slice ts.tss.sectionFilter.sectionBuf pre.length sec.length = sec := by
    rw [hstale, slice, List.append_assoc, List.append_assoc, List.drop_left, List.take_left]
  have hcrc := hsec.crc
  rw [linear_avCrc32Ieee.avCrc_eq] at hcrc
  unfold callSection
  simp only [hcur, linear_avCrc32Ieee.avCrc_eq]
  split
  · rename_i hcheck
    rw [if_pos (hcrc hcheck)]
    exact ⟨⟨h.length_eq, h.index_eq, rfl, h.buf_eq⟩, ⟨rfl, rfl, rfl, rfl⟩, rfl⟩
  · exact ⟨⟨h.length_eq, h.index_eq, rfl, h.buf_eq⟩, ⟨rfl, rfl, rfl, rfl⟩, rfl⟩

theorem scanSections_section (h : Buffered ts (pre ++ sec ++ tail))
    (hsec : IsSection ts.tss.sectionFilter.checkCrc sec) (rounds : Nat) :
    scanSections (rounds + 1) ts pre.length =
      scanSections rounds (callSection ts pre.length sec.length) (pre.length + sec.length) := by
  have hle := h.length_le
  have hheader := hsec.header
  obtain ⟨stale, hstale⟩ := h.buf_eq
  have hbuf : ts.tss.sectionFilter.sectionBuf = pre ++ (sec ++ (tail ++ stale)) := by
    rw [hstale, List.append_assoc, List.append_assoc]
  have hfirst : ts.tss.sectionFilter.sectionBuf.getD pre.length 0 ≠ 0xff := by
    have hzero : (pre ++ (sec ++ (tail ++ stale))).getD (pre.length + 0) 0 = sec.getD 0 0 :=
      (getD_append_behind 0).trans (getD_append_inside (by lia))
    rw [hbuf]
    exact hzero ▸ hsec.first
  have hlength : sectionLength ts.tss.sectionFilter.sectionBuf pre.length = sec.length := by
    rw [hbuf, sectionLength_behind hheader, hsec.length_eq]
  have hindex := h.index_eq
  simp only [List.length_append] at hle hindex
  have hknown : ts.tss.sectionFilter.sectionHSize = none ∧
      pre.length + 3 ≤ ts.tss.sectionFilter.sectionIndex := ⟨h.hSize, by lia⟩
  have hinside : pre.length + sec.length ≤ ts.tss.sectionFilter.sectionIndex := by lia
  simp only [scanSections, hlength]
  rw [if_pos ⟨by lia, hfirst⟩, if_neg (fun hboth => absurd hsec.fits (not_le.2 hboth.2)),
    if_pos hknown]
  exact if_pos hinside

theorem scanSections_whole (h : Buffered ts (pre ++ whole.flatten ++ tail))
    (hwhole : ∀ sec ∈ whole, IsSection ts.tss.sectionFilter.checkCrc sec) (rounds : Nat) :
    ∃ ts', scanSections (rounds + whole.length) ts pre.length =
        scanSections rounds ts' (pre ++ whole.flatten).length ∧
      Buffered ts' (pre ++ whole.flatten ++ tail) ∧ Same ts ts' ∧
      ts'.tss.sectionFilter.calls = ts.tss.sectionFilter.calls ++ whole := by
  induction whole generalizing ts pre with
  | nil => exact ⟨ts, by simp, by simpa using h, Same.refl ts, by simp⟩
  | cons sec whole ih =>
    have hsec := hwhole sec List.mem_cons_self
    have hsplit : pre ++ (sec :: whole).flatten ++ tail =
        pre ++ sec ++ (whole.flatten ++ tail) := by simp
    rw [hsplit] at h
    obtain ⟨hbuffered, hsame, hcalls⟩ := callSection_spec h hsec
    rw [← List.append_assoc] at hbuffered
    obtain ⟨ts', hscan, hbuffered', hsame', hcalls'⟩ := ih hbuffered (fun s hs => by
      rw [hsame.checkCrc]
      exact hwhole s (List.mem_cons_of_mem sec hs))
    refine ⟨ts', ?_, by simpa using hbuffered', hsame.trans hsame', by simp [hcalls', hcalls]⟩
    rw [List.length_cons, ← Nat.add_assoc, scanSections_section h hsec, ← List.length_append, hscan]
    simp

/-- The scan stops at the end of what the buffer holds, and in a section that is not complete it
asks for more. -/
theorem scanSections_end (h : Buffered ts (pre ++ tail))
    (htail : tail = [] ∨ tail.getD 0 0 = 0xff ∨ Begins ts.tss.sectionFilter.checkCrc tail)
    (rounds : Nat) :
    Buffered (scanSections (rounds + 1) ts pre.length) (pre ++ tail) ∧
      Same ts (scanSections (rounds + 1) ts pre.length) ∧
      (scanSections (rounds + 1) ts pre.length).tss.sectionFilter.calls =
        ts.tss.sectionFilter.calls ∧
      (Begins ts.tss.sectionFilter.checkCrc tail →
        (scanSections (rounds + 1) ts pre.length).tss.sectionFilter.endOfSectionReached =
          false) := by
  obtain ⟨stale, hstale⟩ := h.buf_eq
  have hle := h.length_le
  have hindex := h.index_eq
  rw [List.length_append] at hle hindex
  have hstop : ∀ flag, Buffered (ts.setSection { ts.tss.sectionFilter with
      sectionHSize := none, endOfSectionReached := flag }) (pre ++ tail) := fun flag =>
    ⟨h.length_eq, h.index_eq, rfl, h.buf_eq⟩
  by_cases hscan : pre.length < maxSectionSize ∧
      ts.tss.sectionFilter.sectionBuf.getD pre.length 0 ≠ 0xff
  · -- no section is complete here
    have hbreak : scanSections (rounds + 1) ts pre.length =
        ts.setSection { ts.tss.sectionFilter with
          sectionHSize := none, endOfSectionReached := false } := by
      simp only [scanSections, if_pos hscan, h.hSize, true_and]
      by_cases hknown : pre.length + 3 ≤ ts.tss.sectionFilter.sectionIndex
      · rcases htail with rfl | hstuffing | ⟨hne, rest, hrest, hsec⟩
        · rw [List.length_nil] at hindex
          lia
        · have hpos : 0 < tail.length := by lia
          refine absurd ?_ hscan.2
          rw [hstale, List.append_assoc]
          exact (getD_append_behind 0).trans ((getD_append_inside hpos).trans hstuffing)
        · have hlength : sectionLength ts.tss.sectionFilter.sectionBuf pre.length =
              (tail ++ rest).length := by
            have hheader : sectionLength tail 0 = sectionLength (tail ++ rest) 0 := by
              rw [sectionLength, sectionLength, avRb16, avRb16,
                getD_append_inside (by lia), getD_append_inside (by lia)]
            rw [hstale, List.append_assoc, sectionLength_behind (by lia), hheader, hsec.length_eq]
          have hfits := hsec.fits
          have hmore : 0 < rest.length := List.length_pos_of_ne_nil hrest
          rw [hlength, if_neg (fun hboth => absurd hfits (not_le.2 hboth.2)), if_pos hknown]
          simp only []
          rw [if_neg (by rw [List.length_append]; lia)]
      · simp only [hknown, false_and, if_false]
    rw [hbreak]
    exact ⟨hstop false, ⟨rfl, rfl, rfl, rfl⟩, rfl, fun _ => rfl⟩
  · have hsame : scanSections (rounds + 1) ts pre.length = ts := by
      simp only [scanSections, if_neg hscan]
    rw [hsame]
    refine ⟨h, Same.refl ts, rfl, ?_⟩
    rintro ⟨hne, rest, hrest, hsec⟩
    have hpos : 0 < tail.length := List.length_pos_of_ne_nil hne
    refine absurd ⟨by lia, ?_⟩ hscan
    have hfirst : ts.tss.sectionFilter.sectionBuf.getD (pre.length + 0) 0 =
        (tail ++ rest).getD 0 0 := by
      rw [hstale, List.append_assoc, getD_append_behind, getD_append_inside hpos,
        getD_append_inside hpos]
    exact hfirst ▸ hsec.first

/-- What may stand behind the whole sections. -/
def Ends (check : Bool) (tail : Bytes) : Prop :=
  tail = [] ∨ tail.getD 0 0 = 0xff ∨ Begins check tail

/-- The whole scan: the calls are those for the whole sections. -/
theorem scanSections_spec (h : Buffered ts (whole.flatten ++ tail))
    (hwhole : ∀ sec ∈ whole, IsSection ts.tss.sectionFilter.checkCrc sec)
    (htail : Ends ts.tss.sectionFilter.checkCrc tail) :
    Buffered (scanSections (maxSectionSize + 1) ts 0) (whole.flatten ++ tail) ∧
      Same ts (scanSections (maxSectionSize + 1) ts 0) ∧
      (scanSections (maxSectionSize + 1) ts 0).tss.sectionFilter.calls =
        ts.tss.sectionFilter.calls ++ whole ∧
      (Begins ts.tss.sectionFilter.checkCrc tail →
        (scanSections (maxSectionSize + 1) ts 0).tss.sectionFilter.endOfSectionReached =
          false) := by
  have hcount : whole.length ≤ whole.flatten.length := by
    clear h
    induction whole with
    | nil => exact Nat.le_refl 0
    | cons sec whole ih =>
      have hheader := (hwhole sec List.mem_cons_self).header
      have hrest := ih fun s hs => hwhole s (List.mem_cons_of_mem sec hs)
      simp only [List.flatten_cons, List.length_append, List.length_cons]
      lia
  have hle := h.length_le
  rw [List.length_append] at hle
  obtain ⟨ts₁, hscan, hbuffered, hsame, hcalls⟩ :=
    @scanSections_whole ts [] tail whole h hwhole (maxSectionSize - whole.length + 1)
  rw [show maxSectionSize - whole.length + 1 + whole.length = maxSectionSize + 1 by lia] at hscan
  have hlast := scanSections_end hbuffered (hsame.checkCrc ▸ htail) (maxSectionSize - whole.length)
  rw [List.length_nil] at hscan
  rw [hsame.checkCrc, ← hscan] at hlast
  obtain ⟨hbuffered', hsame', hcalls', hflag⟩ := hlast
  exact ⟨hbuffered', hsame.trans hsame', hcalls'.trans hcalls, hflag⟩

/-! ## Writing to the buffer -/

/-- The buffer has its size. -/
def Ready (ts : MpegTSContext) : Prop :=
  ts.tss.sectionFilter.sectionBuf.length = maxSectionSize

/-- The packets so far hold the sections `whole` and the beginning `part` of one that goes on; the
buffer holds as much of it as fits. -/
structure Pending (ts : MpegTSContext) (whole : List Bytes) (part : Bytes) : Prop where
  buffered : Buffered ts ((whole.flatten ++ part).take maxSectionSize)
  wanted : ts.tss.sectionFilter.endOfSectionReached = false

theorem writeSectionData_start (h : Ready ts)
    (hlen : (whole.flatten ++ tail).length ≤ maxSectionSize)
    (hwhole : ∀ sec ∈ whole, IsSection ts.tss.sectionFilter.checkCrc sec)
    (htail : Ends ts.tss.sectionFilter.checkCrc tail) :
    Ready (writeSectionData ts (whole.flatten ++ tail) true) ∧
      Same ts (writeSectionData ts (whole.flatten ++ tail) true) ∧
      (writeSectionData ts (whole.flatten ++ tail) true).tss.sectionFilter.calls =
        ts.tss.sectionFilter.calls ++ whole ∧
      (Begins ts.tss.sectionFilter.checkCrc tail →
        Pending (writeSectionData ts (whole.flatten ++ tail) true) whole tail) := by
  have hbuffered : Buffered (ts.setSection { ts.tss.sectionFilter with
      sectionBuf := overwrite ts.tss.sectionFilter.sectionBuf 0 (whole.flatten ++ tail)
      sectionIndex := (whole.flatten ++ tail).length
      sectionHSize := none
      endOfSectionReached := false }) (whole.flatten ++ tail) := by
    refine ⟨?_, rfl, rfl, ⟨_, rfl⟩⟩
    exact (length_overwrite_of_le (by rw [h]; lia)).trans h
  obtain ⟨hlast, hsame, hcalls, hflag⟩ := scanSections_spec hbuffered hwhole htail
  refine ⟨hlast.length_eq, ⟨hsame.pid, hsame.lastCc, hsame.discard, hsame.checkCrc⟩, hcalls,
    fun hbegins => ⟨?_, hflag hbegins⟩⟩
  rw [List.take_of_length_le hlen]
  exact hlast

/-- The bytes are put behind those that the buffer holds, as many of them as fit. -/
def putBehind (ts : MpegTSContext) (data : Bytes) : MpegTSContext :=
  let sec := ts.tss.sectionFilter
  let len := min data.length (maxSectionSize - sec.sectionIndex)
  ts.setSection { sec with
    sectionBuf := overwrite sec.sectionBuf sec.sectionIndex (data.take len)
    sectionIndex := sec.sectionIndex + len }

theorem writeSectionData_eq (h : ts.tss.sectionFilter.endOfSectionReached = false) :
    writeSectionData ts data false = scanSections (maxSectionSize + 1) (putBehind ts data) 0 := by
  unfold writeSectionData
  simp only [Bool.false_eq_true, if_false]
  exact if_neg (by rw [h]; decide)

theorem putBehind_buffered (h : Buffered ts (bytes.take maxSectionSize)) (data : Bytes) :
    Buffered (putBehind ts data) ((bytes ++ data).take maxSectionSize) := by
  obtain ⟨stale, hstale⟩ := h.buf_eq
  have hlength := h.length_eq
  have hindex := h.index_eq
  obtain ⟨held, hheld⟩ : ∃ held, held = bytes.take maxSectionSize := ⟨_, rfl⟩
  have hheldLength : held.length = min maxSectionSize bytes.length := by
    rw [hheld, List.length_take]
  rw [← hheld] at hstale hindex
  have hnew : data.take (min data.length (maxSectionSize - held.length)) =
      data.take (maxSectionSize - bytes.length) := by
    rw [List.take_eq_take_iff]
    lia
  have hjoin : (bytes ++ data).take maxSectionSize =
      held ++ data.take (min data.length (maxSectionSize - held.length)) := by
    rw [List.take_append, hnew, hheld]
  have hroom : held.length + (data.take (min data.length (maxSectionSize - held.length))).length ≤
      maxSectionSize := by
    rw [List.length_take]
    lia
  rw [hjoin]
  refine ⟨?_, ?_, h.hSize, ?_⟩
  · simp only [putBehind, MpegTSContext.setSection, hindex]
    exact (length_overwrite_of_le (by rw [hlength]; exact hroom)).trans hlength
  · simp only [putBehind, MpegTSContext.setSection, hindex, List.length_append, List.length_take]
    lia
  · simp only [putBehind, MpegTSContext.setSection, hindex, hstale]
    exact ⟨_, by rw [overwrite, List.take_left]⟩

/-- The bytes that go on with a section: the buffer is scanned again, with the sections that
have been called for. -/
theorem writeSectionData_more (h : Pending ts whole part) {all : List Bytes}
    (hsplit : (whole.flatten ++ part ++ data).take maxSectionSize = all.flatten ++ tail)
    (hall : ∀ sec ∈ all, IsSection ts.tss.sectionFilter.checkCrc sec)
    (htail : Ends ts.tss.sectionFilter.checkCrc tail) :
    Buffered (writeSectionData ts data false) (all.flatten ++ tail) ∧
      Same ts (writeSectionData ts data false) ∧
      (writeSectionData ts data false).tss.sectionFilter.calls = ts.tss.sectionFilter.calls ++ all ∧
      (Begins ts.tss.sectionFilter.checkCrc tail →
        (writeSectionData ts data false).tss.sectionFilter.endOfSectionReached = false) := by
  have hbuffered := putBehind_buffered h.buffered data
  rw [hsplit] at hbuffered
  obtain ⟨hlast, hsame, hcalls, hflag⟩ := scanSections_spec hbuffered hall htail
  rw [writeSectionData_eq h.wanted]
  exact ⟨hlast, ⟨hsame.pid, hsame.lastCc, hsame.discard, hsame.checkCrc⟩, hcalls, hflag⟩

theorem writeSectionData_middle (h : Pending ts whole part)
    (hwhole : ∀ sec ∈ whole, IsSection ts.tss.sectionFilter.checkCrc sec)
    (hroom : whole.flatten.length < maxSectionSize)
    (hbegins : Begins ts.tss.sectionFilter.checkCrc (part ++ data)) :
    Pending (writeSectionData ts data false) whole (part ++ data) ∧
      Same ts (writeSectionData ts data false) ∧
      (writeSectionData ts data false).tss.sectionFilter.calls =
        ts.tss.sectionFilter.calls ++ whole := by
  obtain ⟨hne, rest, hrest, hsec⟩ := hbegins
  obtain ⟨tail, htail⟩ :
      ∃ tail, tail = (part ++ data).take (maxSectionSize - whole.flatten.length) := ⟨_, rfl⟩
  have hsplit : (whole.flatten ++ part ++ data).take maxSectionSize = whole.flatten ++ tail := by
    rw [List.append_assoc, List.take_append, List.take_of_length_le hroom.le, htail]
  have hcut : Begins ts.tss.sectionFilter.checkCrc tail := by
    refine ⟨?_, (part ++ data).drop (maxSectionSize - whole.flatten.length) ++ rest, ?_, ?_⟩
    · rw [htail]
      intro hnil
      rcases List.take_eq_nil_iff.1 hnil with hzero | hempty
      · lia
      · exact hne hempty
    · exact List.append_ne_nil_of_right_ne_nil _ hrest
    · rwa [htail, ← List.append_assoc, List.take_append_drop]
  obtain ⟨hlast, hsame, hcalls, hflag⟩ := writeSectionData_more h hsplit hwhole (.inr (.inr hcut))
  refine ⟨⟨?_, hflag hcut⟩, hsame, hcalls⟩
  rwa [← List.append_assoc, hsplit]

/-- The end of a section, with stuffing behind it: if the sections of its buffer fit there is a
call for it, too. -/
theorem writeSectionData_last (h : Pending ts whole part) {n : Nat}
    (hwhole : ∀ sec ∈ whole, IsSection ts.tss.sectionFilter.checkCrc sec)
    (hroom : whole.flatten.length < maxSectionSize)
    (hsec : IsSection ts.tss.sectionFilter.checkCrc (part ++ data)) :
    Ready (writeSectionData ts (data ++ List.replicate n 0xff) false) ∧
      Same ts (writeSectionData ts (data ++ List.replicate n 0xff) false) ∧
      (writeSectionData ts (data ++ List.replicate n 0xff) false).tss.sectionFilter.calls =
        ts.tss.sectionFilter.calls ++ whole ++
          if (whole.flatten ++ (part ++ data)).length ≤ maxSectionSize then [part ++ data]
          else [] := by
  by_cases hfits : (whole.flatten ++ (part ++ data)).length ≤ maxSectionSize
  · obtain ⟨m, hm⟩ : ∃ m, m = min (maxSectionSize - (whole.flatten ++ (part ++ data)).length) n :=
      ⟨_, rfl⟩
    have hsplit : (whole.flatten ++ part ++ (data ++ List.replicate n 0xff)).take maxSectionSize =
        (whole ++ [part ++ data]).flatten ++ List.replicate m 0xff := by
      have hassoc : whole.flatten ++ part ++ (data ++ List.replicate n 0xff) =
          whole.flatten ++ (part ++ data) ++ List.replicate n (0xff : UInt8) := by
        simp only [List.append_assoc]
      rw [hassoc, List.take_append, List.take_of_length_le hfits, List.take_replicate, ← hm,
        List.flatten_append, List.flatten_singleton]
    have hends : Ends ts.tss.sectionFilter.checkCrc (List.replicate m 0xff) := by
      cases m with
      | zero => exact .inl rfl
      | succ m => exact .inr (.inl rfl)
    obtain ⟨hlast, hsame, hcalls, -⟩ := writeSectionData_more h hsplit (fun s hs => by
      rcases List.mem_append.1 hs with hs | hs
      · exact hwhole s hs
      · rwa [List.mem_singleton.1 hs]) hends
    exact ⟨hlast.length_eq, hsame, by rw [hcalls, if_pos hfits, List.append_assoc]⟩
  · obtain ⟨tail, htail⟩ :
        ∃ tail, tail = (part ++ data).take (maxSectionSize - whole.flatten.length) := ⟨_, rfl⟩
    rw [List.length_append] at hfits
    have hsplit : (whole.flatten ++ part ++ (data ++ List.replicate n 0xff)).take maxSectionSize =
        whole.flatten ++ tail := by
      have hassoc : whole.flatten ++ part ++ (data ++ List.replicate n 0xff) =
          whole.flatten ++ (part ++ data ++ List.replicate n (0xff : UInt8)) := by
        simp only [List.append_assoc]
      rw [hassoc, List.take_append, List.take_of_length_le hroom.le,
        List.take_append_of_le_length (by lia), htail]
    have hcut : Begins ts.tss.sectionFilter.checkCrc tail := by
      refine ⟨?_, (part ++ data).drop (maxSectionSize - whole.flatten.length), ?_, ?_⟩
      · rw [htail]
        intro hnil
        rcases List.take_eq_nil_iff.1 hnil with hzero | hempty
        · lia
        · rw [hempty, List.length_nil] at hfits
          lia
      · intro hnil
        have hle := List.drop_eq_nil_iff.1 hnil
        lia
      · rwa [htail, List.take_append_drop]
    obtain ⟨hlast, hsame, hcalls, -⟩ := writeSectionData_more h hsplit hwhole (.inr (.inr hcut))
    refine ⟨hlast.length_eq, hsame, ?_⟩
    rw [hcalls, if_neg (by rwa [List.length_append]), List.append_nil]

end FFmpeg.Libavformat.MpegTs
