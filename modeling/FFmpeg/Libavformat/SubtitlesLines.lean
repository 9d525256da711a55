import FFmpeg.Libavformat.SubtitlesChunks

/-!
# Reading lines

`ff_subtitles_read_line` stores a byte and a NUL behind it while both fit.  It reads the break that
ends the line and looks at what follows, to take the second byte of a CRLF.  A look that finds an LF
takes it whatever ended the line.

What is in front of a reader are bytes, of which the first of a character of several is marked: a
look at it loses the others.
-/

namespace FFmpeg.Libavformat.Subtitles

open Common Libavutil Utf8 AvioSource

/-! ## Every read takes a byte -/

theorem surrogates_lt {hi low : Nat} (h : ¬ (0x3FF < low ∨ 0x3FF < hi)) :
    (low + (hi <<< 10) + 0x10000) % 2 ^ 32 < 0x200000 := by
  rw [Nat.shiftLeft_eq]
  exact (Nat.mod_le _ _).trans_lt (by lia)

theorem ne_zero_of_surrogate {n : Nat} (h : (n + 2 ^ 32 - 0xD800) % 2 ^ 32 < 0x800) : n ≠ 0 := by
  rintro rfl
  exact absurd h (by decide)

variable {get16bit : AVIOContext → Nat × AVIOContext}

theorem getUtf16_cases {pb : AVIOContext} {P : Option Nat × AVIOContext → Prop}
    (hnone : P (none, (get16bit (get16bit pb).2).2))
    (hpair : ∀ hi low, ¬ (0x3FF < low ∨ 0x3FF < hi) → (get16bit pb).1 ≠ 0 → P (some ((low + (hi <<< 10) + 0x10000) % 2 ^ 32), (get16bit (get16bit pb).2).2))
    (hunit : P (some (get16bit pb).1, (get16bit pb).2)) : P (getUtf16 get16bit pb) := by
  unfold getUtf16
  dsimp only
  split_ifs with hhi hbad
  · exact hnone
  · exact hpair _ _ hbad (ne_zero_of_surrogate hhi)
  · exact hunit

theorem getUtf16_bound
    (hget : ∀ pb, (get16bit pb).1 < 2 ^ 16 ∧ (get16bit pb).2.rest.length ≤ pb.rest.length ∧ ((get16bit pb).1 ≠ 0 → (get16bit pb).2.rest.length < pb.rest.length))
    (pb : AVIOContext) :
    (getUtf16 get16bit pb).2.rest.length ≤ pb.rest.length ∧
      ∀ val, (getUtf16 get16bit pb).1 = some val → val ≠ 0 →
        val < 0x200000 ∧ (getUtf16 get16bit pb).2.rest.length < pb.rest.length := by
  obtain ⟨hfirst, hrest, hread⟩ := hget pb
  obtain ⟨-, hrest', -⟩ := hget (get16bit pb).2
  refine getUtf16_cases (P := fun c => c.2.rest.length ≤ pb.rest.length ∧
    ∀ val, c.1 = some val → val ≠ 0 → val < 0x200000 ∧ c.2.rest.length < pb.rest.length)
    ⟨hrest'.trans hrest, fun val hval => by cases hval⟩ (fun hi low hlow hne => ?_) ?_
  · refine ⟨hrest'.trans hrest, fun val hval _ => ⟨?_, hrest'.trans_lt (hread hne)⟩⟩
    exact (Option.some.inj hval) ▸ surrogates_lt hlow
  · refine ⟨hrest, fun val hval hne => ?_⟩
    have hunit : (get16bit pb).1 = val := Option.some.inj hval
    exact ⟨by lia, hread (by rw [hunit]; exact hne)⟩

theorem avioR8_bound (pb : AVIOContext) :
    (avioR8 pb).2.rest.length ≤ pb.rest.length ∧
      ((avioR8 pb).1 ≠ 0 → (avioR8 pb).2.rest.length < pb.rest.length) := by
  obtain ⟨rest, eof⟩ := pb
  cases rest with
  | nil => exact ⟨Nat.le_refl _, fun h => absurd rfl h⟩
  | cons b rest => exact ⟨Nat.le_succ _, fun _ => Nat.lt_succ_self _⟩

theorem avioRl16_bound (pb : AVIOContext) :
    (avioRl16 pb).1 < 2 ^ 16 ∧ (avioRl16 pb).2.rest.length ≤ pb.rest.length ∧
      ((avioRl16 pb).1 ≠ 0 → (avioRl16 pb).2.rest.length < pb.rest.length) := by
  obtain ⟨hlow, hlow'⟩ := avioR8_bound pb
  obtain ⟨hhigh, hhigh'⟩ := avioR8_bound (avioR8 pb).2
  have hvalue : (avioRl16 pb).1 = (avioR8 (avioR8 pb).2).1.toNat * 256 + (avioR8 pb).1.toNat := by
    rw [← shiftLeft_or_byte, Nat.or_comm]
    rfl
  have hbyte := (avioR8 pb).1.toNat_lt
  have hbyte' := (avioR8 (avioR8 pb).2).1.toNat_lt
  refine ⟨by rw [hvalue]; lia, hhigh.trans hlow, fun hne => ?_⟩
  by_cases hzero : (avioR8 pb).1 = 0
  · refine (hhigh' fun h => hne ?_).trans_le hlow
    rw [hvalue, hzero, h]
    rfl
  · exact hhigh.trans_lt (hlow' hzero)

theorem avioRb16_bound (pb : AVIOContext) :
    (avioRb16 pb).1 < 2 ^ 16 ∧ (avioRb16 pb).2.rest.length ≤ pb.rest.length ∧
      ((avioRb16 pb).1 ≠ 0 → (avioRb16 pb).2.rest.length < pb.rest.length) := by
  obtain ⟨hlow, hlow'⟩ := avioR8_bound pb
  obtain ⟨hhigh, hhigh'⟩ := avioR8_bound (avioR8 pb).2
  have hvalue : (avioRb16 pb).1 = (avioR8 pb).1.toNat * 256 + (avioR8 (avioR8 pb).2).1.toNat := by
    rw [← shiftLeft_or_byte]
    rfl
  have hbyte := (avioR8 pb).1.toNat_lt
  have hbyte' := (avioR8 (avioR8 pb).2).1.toNat_lt
  refine ⟨by rw [hvalue]; lia, hhigh.trans hlow, fun hne => ?_⟩
  by_cases hzero : (avioR8 pb).1 = 0
  · refine (hhigh' fun h => hne ?_).trans_le hlow
    rw [hvalue, hzero, h]
    rfl
  · exact hhigh.trans_lt (hlow' hzero)

variable {r : FFTextReader}

/-- Reading into an empty buffer: the stream gets no longer, and shorter by more than what goes into
the buffer unless the result is zero. -/
theorem putCharacter_bound
    (hget : ∀ pb, (get16bit pb).1 < 2 ^ 16 ∧ (get16bit pb).2.rest.length ≤ pb.rest.length ∧ ((get16bit pb).1 ≠ 0 → (get16bit pb).2.rest.length < pb.rest.length))
    (hempty : ¬ r.bufPos < r.buf.length) :
    bytesLeft (putCharacter r (getUtf16 get16bit r.pb)).2 ≤ bytesLeft r ∧
      ((putCharacter r (getUtf16 get16bit r.pb)).1 ≠ 0 →
        (putCharacter r (getUtf16 get16bit r.pb)).2.pb.rest.length < r.pb.rest.length ∧
          bytesLeft (putCharacter r (getUtf16 get16bit r.pb)).2 < bytesLeft r) := by
  obtain ⟨hle, hval⟩ := getUtf16_bound hget r.pb
  cases hresult : getUtf16 get16bit r.pb with
  | mk result pb =>
  rw [hresult] at hle hval
  cases result with
  | none =>
    refine ⟨?_, fun h => absurd rfl h⟩
    show r.buf.length - r.bufPos + 4 * pb.rest.length ≤ bytesLeft r
    unfold bytesLeft
    lia
  | some val =>
    unfold putCharacter
    dsimp only
    split_ifs with hzero
    · refine ⟨?_, fun h => absurd rfl h⟩
      show r.buf.length - r.bufPos + 4 * pb.rest.length ≤ bytesLeft r
      unfold bytesLeft
      lia
    · obtain ⟨hlt, hshorter⟩ := hval val rfl hzero
      obtain ⟨n, hn, hshort⟩ := exists_shortest_of_lt hlt
      have hlength : (putUtf8 val).length = n + 1 := by
        rw [putUtf8_eq (by lia) hshort, length_sequence]
      have hleft : (putUtf8 val).length - 1 + 4 * pb.rest.length < bytesLeft r := by
        unfold bytesLeft
        lia
      exact ⟨hleft.le, fun _ => ⟨hshorter, hleft⟩⟩

theorem ffTextR8_bound (r : FFTextReader) :
    bytesLeft (ffTextR8 r).2 ≤ bytesLeft r ∧
      ((ffTextR8 r).1 ≠ 0 → bytesLeft (ffTextR8 r).2 < bytesLeft r ∧
        (¬ r.bufPos < r.buf.length → (ffTextR8 r).2.pb.rest.length < r.pb.rest.length)) := by
  unfold ffTextR8
  split_ifs with hbuf
  · have hlt : r.buf.length - (r.bufPos + 1) + 4 * r.pb.rest.length < bytesLeft r := by
      unfold bytesLeft
      lia
    exact ⟨hlt.le, fun _ => ⟨hlt, fun h => absurd hbuf h⟩⟩
  · cases r.type with
    | utf8 =>
      obtain ⟨hle, hlt⟩ := avioR8_bound r.pb
      refine ⟨?_, fun hne => ⟨?_, fun _ => hlt hne⟩⟩
      · show r.buf.length - r.bufPos + 4 * (avioR8 r.pb).2.rest.length ≤ bytesLeft r
        unfold bytesLeft
        lia
      · have hshorter := hlt hne
        show r.buf.length - r.bufPos + 4 * (avioR8 r.pb).2.rest.length < bytesLeft r
        unfold bytesLeft
        lia
    | utf16le =>
      obtain ⟨hle, hlt⟩ := putCharacter_bound avioRl16_bound hbuf
      dsimp only
      exact ⟨hle, fun hne => ⟨(hlt hne).2, fun _ => (hlt hne).1⟩⟩
    | utf16be =>
      obtain ⟨hle, hlt⟩ := putCharacter_bound avioRb16_bound hbuf
      dsimp only
      exact ⟨hle, fun hne => ⟨(hlt hne).2, fun _ => (hlt hne).1⟩⟩

theorem bytesLeft_peek (hne : (ffTextPeekR8 r).1 ≠ 0) :
    bytesLeft (ffTextR8 (ffTextPeekR8 r).2).2 < bytesLeft r := by
  obtain ⟨-, hlt⟩ := ffTextR8_bound r
  unfold ffTextPeekR8 at hne ⊢
  split_ifs at hne ⊢ with hbuf
  · refine (hlt ?_).1
    rw [ffTextR8, if_pos hbuf]
    exact hne
  · by_cases heof : avioFeof (ffTextR8 r).2.pb = true
    · simp only [if_pos heof] at hne ⊢
      exact (ffTextR8_bound _).1.trans_lt (hlt hne).1
    · simp only [if_neg heof] at hne ⊢
      have hshorter := (hlt hne).2 hbuf
      show 0 + 4 * (ffTextR8 r).2.pb.rest.length < bytesLeft r
      unfold bytesLeft
      lia

/-! ## Nothing is written outside of the buffer -/

theorem store_eq {buf : Bytes} {i : Nat} (h : i < buf.length) (c : UInt8) :
    store buf i c = some (buf.set i c) := if_pos h

theorem readLineLoop_inside (room cur : Nat) (buf : Bytes) (h : cur + room < buf.length)
    (tr : FFTextReader) :
    ∃ ret cur' buf' tr', readLineLoop room cur buf tr = some (ret, cur', buf', tr') ∧
      buf'.length = buf.length ∧ cur ≤ cur' ∧ (cur' = cur → buf' = buf) ∧
      ∀ n, ret = some (.ok n) → n = cur' := by
  induction room generalizing cur buf tr with
  | zero => exact ⟨none, cur, buf, tr, rfl, rfl, Nat.le_refl _, fun _ => rfl, fun n h => by cases h⟩
  | succ room ih =>
    rw [readLineLoop]
    split_ifs with hzero heof hbreak
    · exact ⟨_, cur, buf, _, rfl, rfl, Nat.le_refl _, fun _ => rfl,
        fun n h => (Except.ok.inj (Option.some.inj h)).symm⟩
    · exact ⟨_, cur, buf, _, rfl, rfl, Nat.le_refl _, fun _ => rfl,
        fun n h => by cases Option.some.inj h⟩
    · exact ⟨none, cur, buf, _, rfl, rfl, Nat.le_refl _, fun _ => rfl, fun n h => by cases h⟩
    · rw [store_eq (by lia)]
      dsimp only [Option.bind_eq_bind, Option.bind_some]
      rw [store_eq (by rw [List.length_set]; lia)]
      dsimp only [Option.bind_some]
      obtain ⟨ret, cur', buf', tr', hrun, hlength, hle, -, hret⟩ :=
        ih (cur + 1) ((buf.set cur (ffTextR8 tr).1).set (cur + 1) 0)
          (by rw [List.length_set, List.length_set]; lia) (ffTextR8 tr).2
      refine ⟨ret, cur', buf', tr', hrun, ?_, by lia, fun h => by lia, hret⟩
      rw [hlength, List.length_set, List.length_set]

theorem skipCr_isSome {fuel : Nat} {tr : FFTextReader} (h : bytesLeft tr < fuel) :
    ∃ tr', skipCr fuel tr = some tr' := by
  induction fuel generalizing tr with
  | zero => exact absurd h (Nat.not_lt_zero _)
  | succ fuel ih =>
    rw [skipCr]
    split_ifs with hcr
    · have hne : (ffTextPeekR8 tr).1 ≠ 0 := by
        rw [hcr]
        decide
      exact ih ((bytesLeft_peek hne).trans_le (Nat.le_of_lt_succ h))
    · exact ⟨_, rfl⟩

theorem skipBreak_isSome (tr : FFTextReader) : ∃ tr', skipBreak tr = some tr' := by
  obtain ⟨tr', hskip⟩ := skipCr_isSome (Nat.lt_succ_self (bytesLeft tr))
  rw [skipBreak, hskip]
  exact ⟨_, rfl⟩

theorem ffSubtitlesReadLine_inside (tr : FFTextReader) {buf : Bytes} {size : Nat} (hsize : 1 ≤ size)
    (hbuf : buf.length = size) :
    ∃ ret buf' tr', ffSubtitlesReadLine tr buf size = some (ret, buf', tr') ∧
      buf'.length = size ∧ (ret = .ok 0 → buf' = buf) := by
  obtain ⟨ret, cur, buf', tr₁, hrun, hlength, -, hsame, hret⟩ :=
    readLineLoop_inside (size - 1) 0 buf (by lia) tr
  rw [hbuf] at hlength
  rw [ffSubtitlesReadLine, if_neg (by lia), hrun]
  cases ret with
  | none =>
    obtain ⟨tr', hskip⟩ := skipBreak_isSome tr₁
    refine ⟨.ok cur, buf', tr', ?_, hlength, fun h => hsame (Except.ok.inj h)⟩
    dsimp only [Option.bind_eq_bind, Option.bind_some]
    rw [hskip]
    rfl
  | some ret =>
    refine ⟨ret, buf', tr₁, rfl, hlength, fun h => hsame ?_⟩
    exact (hret 0 (by rw [h])).symm

/-! ## Characters of several bytes -/

theorem contBytes_high {m v : Nat} : ∀ c ∈ contBytes m v, 0x80 ≤ c := by
  induction m with
  | zero => exact fun c hc => absurd hc List.not_mem_nil
  | succ m ih =>
    intro c hc
    rw [contBytes] at hc
    rcases List.mem_cons.1 hc with rfl | hc
    · have hdigit := Nat.mod_lt (v / 64 ^ m) (show 0 < 64 by decide)
      rw [UInt8.le_iff_toNat_le, UInt8.toNat_ofNat', Nat.mod_eq_of_lt (by lia)]
      exact Nat.le_add_right 128 _
    · exact ih c hc

theorem first_high {n v : Nat} (hpos : 0 < n) (hn : n ≤ 3) (hv : v < limit n) :
    0x80 ≤ UInt8.ofNat (lead n + v / 64 ^ n) := by
  have hlead : 0x80 ≤ lead n ∧ lead n + v / 64 ^ n < 256 := by
    rw [limit, if_neg (by lia)] at hv
    interval_cases n
    · exact ⟨by decide, by change 192 + v / 64 < 256; lia⟩
    · exact ⟨by decide, by change 224 + v / 4096 < 256; lia⟩
    · exact ⟨by decide, by change 240 + v / 262144 < 256; lia⟩
  rw [UInt8.le_iff_toNat_le, UInt8.toNat_ofNat', Nat.mod_eq_of_lt hlead.2]
  exact hlead.1.trans (Nat.le_add_right _ _)

variable {units : List Bytes}

theorem Carries.high {type : FFUtfType} {rest : Bytes} (h : Carries type rest units) {b : UInt8}
    {p : Bytes} (hunit : (b :: p) ∈ units) (hlong : p ≠ []) : ∀ c ∈ b :: p, 0x80 ≤ c := by
  cases h with
  | bytes =>
    obtain ⟨c, -, hc⟩ := List.mem_map.1 hunit
    exact absurd (List.cons.inj hc).2.symm hlong
  | characters type chars =>
    obtain ⟨ch, -, hch⟩ := List.mem_map.1 hunit
    obtain ⟨n, hn, hshort⟩ := exists_shortest ch
    rw [utf8EncodeChar_eq hn hshort, Utf8.sequence] at hch
    obtain ⟨rfl, rfl⟩ := List.cons.inj hch
    have hpos : 0 < n := by
      by_contra hzero
      rw [show n = 0 by lia] at hlong
      exact hlong rfl
    intro c hc
    rcases List.mem_cons.1 hc with rfl | hc
    · exact first_high hpos hn hshort.2
    · exact contBytes_high c hc

/-! ## Marked bytes -/

/-- A byte, and whether it is the first of a character of several. -/
abbrev Marked := UInt8 × Bool

def markUnit : Bytes → List Marked
  | [] => []
  | b :: p => (b, !p.isEmpty) :: p.map fun c => (c, false)

def bytesOf (m : List Marked) : Bytes := m.map fun x => x.1

/-- These bytes are in front of the reader, and if there are any, nothing was read behind the end of
the stream. -/
def Front (tr : FFTextReader) (m : List Marked) : Prop :=
  ∃ pending units, Stands tr pending units ∧
    m = pending.map (fun c => (c, false)) ++ units.flatMap markUnit ∧
    (m ≠ [] → tr.pb.eofReached = false)

theorem bytesOf_map (p : Bytes) : bytesOf (p.map fun c => (c, false)) = p := by
  rw [bytesOf, List.map_map]
  exact List.map_id p

theorem bytesOf_append (m m' : List Marked) : bytesOf (m ++ m') = bytesOf m ++ bytesOf m' :=
  List.map_append

theorem bytesOf_markUnits (units : List Bytes) :
    bytesOf (units.flatMap markUnit) = units.flatten := by
  induction units with
  | nil => rfl
  | cons unit units ih =>
    rw [List.flatMap_cons, bytesOf_append, ih, List.flatten_cons]
    cases unit with
    | nil => rfl
    | cons b p => exact congrArg (b :: · ++ _) (bytesOf_map p)

theorem markUnit_singles (l : Bytes) :
    (singles l).flatMap markUnit = l.map fun c => (c, false) := by
  induction l with
  | nil => rfl
  | cons b l ih => exact congrArg ((b, false) :: ·) ih

/-- The marks say where the units of several bytes begin. -/
theorem multibyteAt_iff (hne : ∀ unit ∈ units, unit ≠ []) (place : Nat) :
    MultibyteAt units place ↔ ∃ b, (units.flatMap markUnit)[place]? = some (b, true) := by
  induction units generalizing place with
  | nil =>
    refine iff_of_false ?_ (by rintro ⟨b, hb⟩; cases hb)
    rintro ⟨before, unit, behind, hunits, -⟩
    exact List.cons_ne_nil _ _ (List.append_eq_nil_iff.1 hunits.symm).2
  | cons first units ih =>
    have hrest := fun unit hunit => hne unit (List.mem_cons_of_mem _ hunit)
    cases first with
    | nil => exact absurd rfl (hne [] List.mem_cons_self)
    | cons c p =>
    have hlength : (markUnit (c :: p)).length = (c :: p).length := by
      rw [markUnit, List.length_cons, List.length_map, List.length_cons]
    rw [List.flatMap_cons]
    constructor
    · rintro ⟨before, unit, behind, hunits, hplace, hlong⟩
      cases before with
      | nil =>
        obtain ⟨rfl, rfl⟩ := List.cons.inj hunits
        have hzero : place = 0 := hplace.symm
        rw [hzero]
        refine ⟨c, ?_⟩
        cases p with
        | nil => exact absurd hlong (Nat.lt_irrefl 1)
        | cons d p => rfl
      | cons _ before =>
        obtain ⟨rfl, rfl⟩ := List.cons.inj hunits
        rw [List.flatten_cons, List.length_append] at hplace
        obtain ⟨b, hb⟩ := (ih hrest before.flatten.length).1 ⟨before, unit, behind, rfl, rfl, hlong⟩
        refine ⟨b, ?_⟩
        rw [List.getElem?_append_right (by lia), hlength, ← hplace, Nat.add_sub_cancel_left]
        exact hb
    · rintro ⟨b, hb⟩
      rcases Nat.lt_or_ge place (c :: p).length with hin | hbehind
      · rw [List.getElem?_append_left (by lia)] at hb
        cases place with
        | zero =>
          refine ⟨[], c :: p, units, rfl, rfl, ?_⟩
          cases p with
          | nil => exact absurd (Prod.mk.inj (Option.some.inj hb)).2 (by decide)
          | cons d p => exact Nat.succ_lt_succ (Nat.succ_pos _)
        | succ place =>
          rw [markUnit, List.getElem?_cons_succ, List.getElem?_map] at hb
          obtain ⟨d, -, hd⟩ := Option.map_eq_some_iff.1 hb
          cases hd
      · rw [List.getElem?_append_right (by lia), hlength] at hb
        have hmulti : MultibyteAt ((c :: p) :: units) _ := ((ih hrest _).2 ⟨b, hb⟩).cons
        rwa [Nat.add_sub_cancel' hbehind] at hmulti

/-! ## Reading and looking -/

variable {tr : FFTextReader} {m : List Marked} {b : UInt8} {mark : Bool}

theorem Front.r8 (h : Front tr ((b, mark) :: m)) :
    ∃ tr', ffTextR8 tr = (b, tr') ∧ Front tr' m ∧ tr'.pb.eofReached = false := by
  obtain ⟨pending, units, hstands, hm, heof⟩ := h
  have hopen := heof (List.cons_ne_nil _ _)
  match pending, units, hstands with
  | c :: p, units, hstands =>
    obtain ⟨hb, rfl⟩ := List.cons.inj hm
    obtain ⟨rfl, -⟩ := Prod.mk.inj hb
    obtain ⟨tr', hread, hstands', hpb⟩ := hstands.r8_pending
    have hopen' : tr'.pb.eofReached = false := by rw [hpb]; exact hopen
    exact ⟨tr', hread, ⟨p, units, hstands', rfl, fun _ => hopen'⟩, hopen'⟩
  | [], [], hstands => cases hm
  | [], [] :: units, hstands => exact absurd rfl (hstands.carries.ne_nil [] List.mem_cons_self)
  | [], (c :: p) :: units, hstands =>
    obtain ⟨hb, rfl⟩ := List.cons.inj hm
    obtain ⟨rfl, -⟩ := Prod.mk.inj hb
    obtain ⟨tr', hread, hstands', hopen'⟩ := hstands.r8_unit
    exact ⟨tr', hread, ⟨p, units, hstands', rfl, fun _ => hopen'⟩, hopen'⟩

theorem Front.stands_nil (h : Front tr []) : Stands tr [] [] := by
  obtain ⟨pending, units, hstands, hm, -⟩ := h
  obtain ⟨hpending, hunits⟩ := List.append_eq_nil_iff.1 hm.symm
  have hnil : units = [] := by
    cases units with
    | nil => rfl
    | cons unit units =>
      cases unit with
      | nil => exact absurd rfl (hstands.carries.ne_nil [] List.mem_cons_self)
      | cons c p => cases hunits
  rwa [List.map_eq_nil_iff.1 hpending, hnil] at hstands

theorem Stands.front_nil (h : Stands tr [] []) : Front tr [] :=
  ⟨[], [], h, rfl, fun hne => absurd rfl hne⟩

theorem Front.eof_nil (h : Front tr []) : ffTextEof tr = tr.pb.eofReached := by
  have hlength := Nat.le_of_not_lt h.stands_nil.length_le
  rw [ffTextEof, decide_eq_true hlength, Bool.true_and, avioFeof]

theorem Front.eof_cons (h : Front tr ((b, mark) :: m)) : ffTextEof tr = false := by
  obtain ⟨pending, units, hstands, -, heof⟩ := h
  rw [ffTextEof, avioFeof, heof (List.cons_ne_nil _ _), Bool.and_false]

theorem Front.eof_ne (h : Front tr m) (hne : m ≠ []) : ffTextEof tr = false := by
  cases m with
  | nil => exact absurd rfl hne
  | cons x m =>
    obtain ⟨b, mark⟩ := x
    exact h.eof_cons

theorem Front.r8_nil (h : Front tr []) :
    ∃ tr', ffTextR8 tr = (0, tr') ∧ Front tr' [] ∧ tr'.pb.eofReached = true := by
  obtain ⟨tr', hread, hstands, heof⟩ := h.stands_nil.r8_end
  exact ⟨tr', hread, hstands.front_nil, heof⟩

theorem Front.peek_nil (h : Front tr []) :
    ∃ tr', ffTextPeekR8 tr = (0, tr') ∧ Front tr' [] ∧ tr'.pb.eofReached = true := by
  obtain ⟨tr', hread, hstands, heof⟩ := h.stands_nil.peek_end
  exact ⟨tr', hread, hstands.front_nil, heof⟩

theorem Front.peek (h : Front tr ((b, false) :: m)) :
    ∃ tr', ffTextPeekR8 tr = (b, tr') ∧ Front tr' ((b, false) :: m) := by
  obtain ⟨pending, units, hstands, hm, heof⟩ := h
  match pending, units, hstands with
  | c :: p, units, hstands =>
    obtain ⟨hb, -⟩ := List.cons.inj hm
    obtain ⟨rfl, -⟩ := Prod.mk.inj hb
    exact ⟨tr, hstands.peek_pending, b :: p, units, hstands, hm, heof⟩
  | [], [], hstands => cases hm
  | [], [] :: units, hstands => exact absurd rfl (hstands.carries.ne_nil [] List.mem_cons_self)
  | [], (c :: p) :: units, hstands =>
    obtain ⟨hb, hrest⟩ := List.cons.inj hm
    obtain ⟨rfl, hsingle⟩ := Prod.mk.inj hb
    obtain ⟨tr', hread, hstands', hopen⟩ := hstands.peek_unit
    have hp : p = [] := by
      cases p with
      | nil => rfl
      | cons d p => cases hsingle
    subst hp
    refine ⟨tr', hread, [b], units, hstands', ?_, fun _ => hopen⟩
    rw [hrest]
    rfl

theorem Front.peek_multibyte (h : Front tr ((b, true) :: m)) :
    ∃ tr' p m', ffTextPeekR8 tr = (b, tr') ∧ m = p.map (fun c => (c, false)) ++ m' ∧ p ≠ [] ∧
      (∀ c ∈ b :: p, 0x80 ≤ c) ∧ Front tr' ((b, false) :: m') := by
  obtain ⟨pending, units, hstands, hm, heof⟩ := h
  match pending, units, hstands with
  | c :: p, units, hstands =>
    obtain ⟨hb, -⟩ := List.cons.inj hm
    cases hb
  | [], [], hstands => cases hm
  | [], [] :: units, hstands => exact absurd rfl (hstands.carries.ne_nil [] List.mem_cons_self)
  | [], (c :: p) :: units, hstands =>
    obtain ⟨hb, hrest⟩ := List.cons.inj hm
    obtain ⟨rfl, hlong⟩ := Prod.mk.inj hb
    obtain ⟨tr', hread, hstands', hopen⟩ := hstands.peek_unit
    have hp : p ≠ [] := by
      rintro rfl
      cases hlong
    exact ⟨tr', p, units.flatMap markUnit, hread, hrest, hp,
      hstands.carries.high List.mem_cons_self hp, [b], units, hstands', rfl, fun _ => hopen⟩

/-! ## The break behind a line -/

theorem skipBreak_of_ne {tr₁ tr₂ : FFTextReader} (hpeek : ffTextPeekR8 tr = (b, tr₁))
    (hcr : b ≠ cr) {c : UInt8} (hagain : ffTextPeekR8 tr₁ = (c, tr₂)) :
    skipBreak tr = some (if c = lf then (ffTextR8 tr₂).2 else tr₂) := by
  have hskip : skipCr (bytesLeft tr + 1) tr = some tr₁ := by
    rw [skipCr, hpeek]
    exact if_neg hcr
  rw [skipBreak, hskip]
  dsimp only [Option.bind_eq_bind, Option.bind_some]
  rw [hagain]

theorem Front.skipBreak_nil (h : Front tr []) :
    ∃ tr', skipBreak tr = some tr' ∧ Front tr' [] ∧ tr'.pb.eofReached = true := by
  obtain ⟨tr₁, hpeek, h₁, -⟩ := h.peek_nil
  obtain ⟨tr₂, hagain, h₂, heof⟩ := h₁.peek_nil
  exact ⟨tr₂, (skipBreak_of_ne hpeek (by decide) hagain).trans rfl, h₂, heof⟩

theorem Front.skipBreak_plain (h : Front tr ((b, false) :: m)) (hcr : b ≠ cr) (hlf : b ≠ lf) :
    ∃ tr', skipBreak tr = some tr' ∧ Front tr' ((b, false) :: m) := by
  obtain ⟨tr₁, hpeek, h₁⟩ := h.peek
  obtain ⟨tr₂, hagain, h₂⟩ := h₁.peek
  exact ⟨tr₂, (skipBreak_of_ne hpeek hcr hagain).trans (by rw [if_neg hlf]), h₂⟩

theorem Front.skipBreak_lf (h : Front tr ((lf, false) :: m)) :
    ∃ tr', skipBreak tr = some tr' ∧ Front tr' m ∧ tr'.pb.eofReached = false := by
  obtain ⟨tr₁, hpeek, h₁⟩ := h.peek
  obtain ⟨tr₂, hagain, h₂⟩ := h₁.peek
  obtain ⟨tr', hread, h', hopen⟩ := h₂.r8
  refine ⟨tr', (skipBreak_of_ne hpeek (by decide) hagain).trans ?_, h', hopen⟩
  rw [if_pos rfl, hread]

theorem Front.skipBreak_multibyte (h : Front tr ((b, true) :: m)) :
    ∃ tr' p m', skipBreak tr = some tr' ∧ m = p.map (fun c => (c, false)) ++ m' ∧ p ≠ [] ∧
      (∀ c ∈ b :: p, 0x80 ≤ c) ∧ Front tr' ((b, false) :: m') := by
  obtain ⟨tr₁, p, m', hpeek, hm, hp, hhigh, h₁⟩ := h.peek_multibyte
  obtain ⟨tr₂, hagain, h₂⟩ := h₁.peek
  have hb := hhigh b List.mem_cons_self
  have hcr : b ≠ cr := by rintro rfl; exact absurd hb (by decide)
  have hlf : b ≠ lf := by rintro rfl; exact absurd hb (by decide)
  refine ⟨tr₂, p, m', (skipBreak_of_ne hpeek hcr hagain).trans ?_, hm, hp, hhigh, h₂⟩
  rw [if_neg hlf]

/-! ## The line itself -/

theorem ne_of_isEol (h : isEol b = false) : b ≠ cr ∧ b ≠ lf := by
  rw [isEol, Bool.or_eq_false_iff] at h
  exact ⟨of_decide_eq_false h.1, of_decide_eq_false h.2⟩

/-- What the buffer holds behind a line with this content. -/
def Holds (buf buf' : Bytes) (cur : Nat) (content : Bytes) : Prop :=
  buf'.length = buf.length ∧ (content = [] → buf' = buf) ∧
    (content ≠ [] → buf'.take (cur + content.length + 1) = buf.take cur ++ content ++ [0])

theorem take_store (buf : Bytes) (cur : Nat) (h : cur + 1 < buf.length) (c : UInt8) :
    ((buf.set cur c).set (cur + 1) 0).take (cur + 1) = buf.take cur ++ [c] ∧
      ((buf.set cur c).set (cur + 1) 0).take (cur + 2) = buf.take cur ++ [c] ++ [0] := by
  have hfirst : ((buf.set cur c).set (cur + 1) 0).take (cur + 1) = buf.take cur ++ [c] := by
    rw [List.take_set_of_le (Nat.le_refl _), List.take_add_one, List.take_set_of_le (Nat.le_refl _),
      List.getElem?_set_self (by lia)]
    rfl
  refine ⟨hfirst, ?_⟩
  rw [List.take_add_one, hfirst, List.getElem?_set_self (by rw [List.length_set]; lia)]
  rfl

theorem readLineLoop_content {content : List Marked} (hplain : Plain (bytesOf content))
    (room cur : Nat) (buf : Bytes) (hroom : cur + content.length + room < buf.length)
    (h : Front tr (content ++ m)) :
    ∃ buf' tr', readLineLoop (room + content.length) cur buf tr =
        readLineLoop room (cur + content.length) buf' tr' ∧
      Front tr' m ∧ Holds buf buf' cur (bytesOf content) := by
  induction content generalizing cur buf tr with
  | nil => exact ⟨buf, tr, rfl, h, rfl, fun _ => rfl, fun hne => absurd rfl hne⟩
  | cons x content ih =>
    obtain ⟨b, mark⟩ := x
    obtain ⟨hzero, hbreak⟩ := hplain b List.mem_cons_self
    have hrest : Plain (bytesOf content) := fun c hc => hplain c (List.mem_cons_of_mem _ hc)
    rw [List.length_cons] at hroom
    obtain ⟨tr₁, hread, h₁, -⟩ := Front.r8 h
    obtain ⟨hcr, hlf⟩ := ne_of_isEol hbreak
    have heol : ¬ (b = cr ∨ b = lf) := not_or.2 ⟨hcr, hlf⟩
    obtain ⟨htake, htake'⟩ := take_store buf cur (by lia) b
    have hlength : ((buf.set cur b).set (cur + 1) 0).length = buf.length := by
      rw [List.length_set, List.length_set]
    obtain ⟨buf', tr', hrun, h', hsame, hnil, hcons⟩ := ih hrest (cur + 1)
      ((buf.set cur b).set (cur + 1) 0) (by rw [hlength]; lia) h₁
    refine ⟨buf', tr', ?_, h', hsame.trans hlength,
      fun hnone => absurd hnone (List.cons_ne_nil _ _), fun _ => ?_⟩
    · rw [List.length_cons, ← Nat.add_assoc, readLineLoop, hread]
      dsimp only
      rw [if_neg hzero, if_neg heol, store_eq (by lia)]
      dsimp only [Option.bind_eq_bind, Option.bind_some]
      rw [store_eq (by rw [List.length_set]; lia)]
      dsimp only [Option.bind_some]
      rw [hrun, Nat.add_right_comm, Nat.add_assoc]
    · cases content with
      | nil =>
        rw [hnil rfl]
        exact htake'
      | cons y content =>
        have hbytes := hcons (List.cons_ne_nil _ _)
        have hsplit : buf.take cur ++ bytesOf ((b, mark) :: y :: content) ++ [0] =
            buf.take cur ++ [b] ++ bytesOf (y :: content) ++ [0] := by
          rw [List.append_assoc (buf.take cur) [b]]
          rfl
        rw [hsplit, ← htake, ← hbytes]
        congr 1
        show cur + ((bytesOf (y :: content)).length + 1) + 1 = _
        lia

theorem exists_of_bytesOf {l rest : Bytes} (h : bytesOf m = l ++ b :: rest) :
    ∃ content mark m', m = content ++ (b, mark) :: m' ∧ bytesOf content = l ∧
      bytesOf m' = rest := by
  obtain ⟨content, tail, rfl, hcontent, htail⟩ := List.map_eq_append_iff.1 h
  obtain ⟨x, m', rfl, rfl, hrest⟩ := List.map_eq_cons_iff.1 htail
  exact ⟨content, x.2, m', rfl, hcontent, hrest⟩

section Line

variable {buf line rest : Bytes} {size : Nat}

theorem ffSubtitlesReadLine_last (hplain : Plain line) (hsize : line.length + 1 < size)
    (hbuf : buf.length = size) (h : Front tr m) (hm : bytesOf m = line) :
    ∃ buf' tr', ffSubtitlesReadLine tr buf size = some (.ok line.length, buf', tr') ∧
      ffTextEof tr' = true ∧
      (line ≠ [] → buf'.take (line.length + 1) = line ++ [0]) := by
  have hlength : m.length = line.length := by rw [← hm, bytesOf, List.length_map]
  obtain ⟨room, rfl⟩ : ∃ room, size = room + 1 + m.length + 1 := ⟨size - m.length - 2, by lia⟩
  obtain ⟨buf', tr₁, hrun, h₁, -, -, hholds⟩ := readLineLoop_content (m := []) (by rwa [hm])
    (room + 1) 0 buf (by lia) (by rwa [List.append_nil])
  obtain ⟨tr', hread, h', heof⟩ := h₁.r8_nil
  have hend : ffTextEof tr' = true := h'.eof_nil.trans heof
  rw [hm] at hholds
  refine ⟨buf', tr', ?_, hend, fun hne => by simpa using hholds hne⟩
  rw [ffSubtitlesReadLine, if_neg (Nat.succ_ne_zero _), Nat.add_sub_cancel, hrun, readLineLoop,
    hread]
  dsimp only
  rw [if_pos rfl, hend, Nat.zero_add, hlength]
  rfl

/-- A line with a break behind it. -/
theorem ffSubtitlesReadLine_break {e : UInt8} (he : e = cr ∨ e = lf) (hplain : Plain line)
    (hsize : line.length + 1 < size) (hbuf : buf.length = size) (h : Front tr m)
    (hm : bytesOf m = line ++ e :: rest) :
    ∃ content mark m₁ buf' tr₁, m = content ++ (e, mark) :: m₁ ∧ bytesOf content = line ∧
      bytesOf m₁ = rest ∧ Front tr₁ m₁ ∧ tr₁.pb.eofReached = false ∧ buf'.length = size ∧
      (line ≠ [] → buf'.take (line.length + 1) = line ++ [0]) ∧
      ∀ tr', skipBreak tr₁ = some tr' →
        ffSubtitlesReadLine tr buf size = some (.ok line.length, buf', tr') := by
  obtain ⟨content, mark, m₁, rfl, hcontent, hrest⟩ := exists_of_bytesOf hm
  have hlength : content.length = line.length := by rw [← hcontent, bytesOf, List.length_map]
  obtain ⟨room, rfl⟩ : ∃ room, size = room + 1 + content.length + 1 :=
    ⟨size - content.length - 2, by lia⟩
  obtain ⟨buf', tr₁, hrun, h₁, hsame, -, hholds⟩ := readLineLoop_content (by rwa [hcontent])
    (room + 1) 0 buf (by lia) h
  obtain ⟨tr₂, hread, h₂, hopen⟩ := h₁.r8
  have hzero : e ≠ 0 := by
    rcases he with rfl | rfl <;> decide
  rw [hcontent] at hholds
  refine ⟨content, mark, m₁, buf', tr₂, rfl, hcontent, hrest, h₂, hopen, hsame.trans hbuf,
    fun hne => by simpa using hholds hne, fun tr' hskip => ?_⟩
  rw [ffSubtitlesReadLine, if_neg (Nat.succ_ne_zero _), Nat.add_sub_cancel, hrun, readLineLoop,
    hread]
  dsimp only
  rw [if_neg hzero, if_pos he, Nat.zero_add, hlength]
  dsimp only [Option.bind_eq_bind, Option.bind_some]
  rw [hskip]
  rfl

end Line

end FFmpeg.Libavformat.Subtitles
