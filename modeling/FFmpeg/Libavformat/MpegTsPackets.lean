import FFmpeg.Libavformat.MpegTsSections

/-!
# Sections in packets

A packet carries the rest of a section that has begun before, the sections that begin in it, and
stuffing behind the last one of them.  The demuxer calls for each section once, as long as no
section goes on behind a packet in which another one has begun, too: every packet that goes on
with it makes the demuxer call for the other one again.
-/

namespace FFmpeg.Libavformat.MpegTs

open Common

/-! ## Packets -/

/-- What one packet carries: more of a section, or a packet with a pointer field, with the rest of
a section, whole sections and the beginning of a section that goes on. -/
inductive Piece
  | more (data : Bytes) (stuffing : Nat)
  | start (rest : Bytes) (whole : List Bytes) (part : Bytes) (stuffing : Nat)

/-- Whether a section begins in the packet. -/
def Piece.isStart : Piece → Bool
  | .more _ _ => false
  | .start _ _ _ _ => true

def Piece.payload : Piece → Bytes
  | .more data n => data ++ List.replicate n 0xff
  | .start rest whole part n =>
    UInt8.ofNat rest.length :: (rest ++ (whole.flatten ++ (part ++ List.replicate n 0xff)))

/-- No section that goes on in the next packet has another one before it. -/
def Piece.Tidy : Piece → Prop
  | .more _ _ => True
  | .start _ whole part _ => part = [] ∨ whole = []

/-- The rest of a section and the sections behind it, split into packets. -/
inductive Splits : Bytes → List Bytes → List Piece → Prop
  | done : Splits [] [] []
  | middle {data rest : Bytes} {sections : List Bytes} {pieces : List Piece} :
      data ≠ [] → rest ≠ [] → Splits rest sections pieces →
      Splits (data ++ rest) sections (.more data 0 :: pieces)
  | last {data : Bytes} {sections : List Bytes} {pieces : List Piece} (n : Nat) :
      data ≠ [] → Splits [] sections pieces → Splits data sections (.more data n :: pieces)
  | whole {rest : Bytes} {whole sections : List Bytes} {pieces : List Piece} (n : Nat) :
      whole ≠ [] → Splits [] sections pieces →
      Splits rest (whole ++ sections) (.start rest whole [] n :: pieces)
  | part {rest part left : Bytes} {whole sections : List Bytes} {pieces : List Piece} :
      part ≠ [] → left ≠ [] → Splits left sections pieces →
      Splits rest (whole ++ (part ++ left) :: sections) (.start rest whole part 0 :: pieces)

/-- A packet with a payload, with an adaptation field before it or without one. -/
structure Carries (pid cc : Nat) (isStart : Bool) (payload packet : Bytes) : Prop where
  length_eq : packet.length = tsPacketSize
  pid_eq : avRb16 packet 1 &&& 0x1fff = pid
  start_eq : isStart = decide (packet.getD 1 0 &&& 0x40 ≠ 0)
  cc_eq : (packet.getD 3 0 &&& 0xf).toNat = cc
  payload_eq : (packet.getD 3 0 >>> 4) &&& 3 = 1 ∧ payload = packet.drop 4 ∨
    (packet.getD 3 0 >>> 4) &&& 3 = 3 ∧ payload = packet.drop (4 + ((packet.getD 4 0).toNat + 1))

/-- The packets of a PID that carry the pieces: the counter counts them, behind `last` unless that
is negative, and packets without a payload do not count. -/
inductive Packets (pid : Nat) : Int → List Piece → List Bytes → Prop
  | nil (last : Int) : Packets pid last [] []
  | idle {last : Int} {pieces : List Piece} {packet : Bytes} {packets : List Bytes} {cc : Nat} :
      avRb16 packet 1 &&& 0x1fff = pid → (packet.getD 3 0 >>> 4) &&& 3 = 2 →
      (packet.getD 3 0 &&& 0xf).toNat = cc → last < 0 ∨ (cc : Int) = last →
      Packets pid cc pieces packets → Packets pid last pieces (packet :: packets)
  | payload {last : Int} {piece : Piece} {pieces : List Piece} {packet : Bytes}
      {packets : List Bytes} {cc : Nat} :
      Carries pid cc piece.isStart piece.payload packet → last < 0 ∨ (cc : Int) = (last + 1) % 16 →
      Packets pid cc pieces packets → Packets pid last (piece :: pieces) (packet :: packets)

variable {ts ts' : MpegTSContext} {pid cc : Nat} {packet payload data rest part pending : Bytes}
  {isStart check : Bool} {whole sections : List Bytes} {pieces : List Piece} {packets : List Bytes}
  {last : Int}

/-- The context with another counter. -/
def withCc (ts : MpegTSContext) (cc : Nat) : MpegTSContext :=
  { ts with tss := { ts.tss with lastCc := cc } }

theorem Carries.length_le (h : Carries pid cc isStart payload packet) : payload.length ≤ 184 := by
  have hlength := h.length_eq
  unfold tsPacketSize at hlength
  rcases h.payload_eq with ⟨-, rfl⟩ | ⟨-, rfl⟩ <;> rw [List.length_drop] <;> lia

theorem handlePacket_idle (hpid : avRb16 packet 1 &&& 0x1fff = ts.tss.pid)
    (hafc : (packet.getD 3 0 >>> 4) &&& 3 = 2) (hcc : (packet.getD 3 0 &&& 0xf).toNat = cc)
    (hdiscard : ts.tss.discard = false) : handlePacket ts packet false = withCc ts cc := by
  obtain ⟨⟨pid, lastCc, discard, sec⟩, validity⟩ := ts
  obtain rfl : discard = false := hdiscard
  have hpayload : (2 : UInt8) &&& 1 = 0 := by decide
  simp only [handlePacket, hpid, hafc, hcc, withCc, hpayload]
  simp

theorem handlePacket_carries (h : Carries ts.tss.pid cc isStart payload packet)
    (hcc : ts.tss.lastCc < 0 ∨ (cc : Int) = (ts.tss.lastCc + 1) % 16)
    (hdiscard : ts.tss.discard = false) (hpos : payload ≠ []) :
    handlePacket ts packet false = handlePayload (withCc ts cc) payload isStart true := by
  obtain ⟨⟨pid, lastCc, discard, sec⟩, validity⟩ := ts
  obtain rfl : discard = false := hdiscard
  have hlength := h.length_eq
  have hcc' : lastCc < 0 ∨ (lastCc + 1) % 16 = (cc : Int) := hcc.imp id Eq.symm
  have hslice : ∀ p, slice packet p (tsPacketSize - p) = packet.drop p := by
    intro p
    rw [slice, List.take_of_length_le]
    rw [List.length_drop, hlength]
  rcases h.payload_eq with ⟨hafc, rfl⟩ | ⟨hafc, rfl⟩
  · have hadaptation : (1 : UInt8) &&& 2 = 0 := by decide
    simp only [handlePacket, h.pid_eq, ← h.start_eq, hafc, h.cc_eq, hslice, hadaptation]
    simp [hcc', withCc, tsPacketSize]
  · have hboth : (3 : UInt8) &&& 2 ≠ 0 ∧ (3 : UInt8) &&& 1 ≠ 0 := by decide
    have hinside : 4 + ((packet.getD 4 0).toNat + 1) < tsPacketSize := by
      by_contra hge
      exact hpos (List.drop_eq_nil_of_le (by lia))
    simp only [handlePacket, h.pid_eq, ← h.start_eq, hafc, h.cc_eq, hslice]
    simp [hcc', withCc, hboth]
    intro hle
    rw [List.getD_eq_getElem?_getD] at hinside
    lia

/-! ## Pieces -/

theorem handlePayload_more (n : Nat) :
    handlePayload ts (Piece.more data n).payload false true =
      writeSectionData ts (data ++ List.replicate n 0xff) false := by
  simp [handlePayload, Piece.payload]

theorem handlePayload_start {n : Nat} (hrest : rest.length < 256) (hnext : whole ≠ [] ∨ part ≠ [])
    (hwhole : ∀ sec ∈ whole, sec ≠ []) :
    handlePayload ts (Piece.start rest whole part n).payload true true =
      writeSectionData (if rest = [] then ts else writeSectionData ts rest false)
        (whole.flatten ++ (part ++ List.replicate n 0xff)) true := by
  have hlen : (UInt8.ofNat rest.length).toNat = rest.length := by
    rw [UInt8.toNat_ofNat']
    exact Nat.mod_eq_of_lt hrest
  have hbehind : whole.flatten ++ (part ++ List.replicate n (0xff : UInt8)) ≠ [] := by
    intro hnil
    obtain ⟨hflat, htail⟩ := List.append_eq_nil_iff.1 hnil
    rcases hnext with hsome | hsome
    · obtain ⟨sec, hsec⟩ := List.exists_mem_of_ne_nil whole hsome
      exact hwhole sec hsec (List.flatten_eq_nil_iff.1 hflat sec hsec)
    · exact hsome (List.append_eq_nil_iff.1 htail).1
  have hpos := List.length_pos_of_ne_nil hbehind
  simp only [handlePayload, Piece.payload, if_true, List.getD_cons_zero, List.drop_one,
    List.tail_cons, hlen, List.take_left, List.drop_left]
  rw [if_neg (by rw [List.length_append]; lia), if_pos (by rw [List.length_append]; lia)]
  by_cases hnone : rest = []
  · subst hnone
    simp
  · simp [hnone]

/-- The state between two packets: nothing goes on, or the section `part ++ pending` does, behind
the sections `whole` of the same packet. -/
structure Between (ts : MpegTSContext) (whole : List Bytes) (part pending : Bytes) : Prop where
  ready : Ready ts
  goesOn : pending ≠ [] → Pending ts whole part ∧
    (∀ sec ∈ whole, IsSection ts.tss.sectionFilter.checkCrc sec) ∧
    whole.flatten.length ≤ 183 ∧ IsSection ts.tss.sectionFilter.checkCrc (part ++ pending)

/-- The section that goes on. -/
def owed (part pending : Bytes) : List Bytes := if pending = [] then [] else [part ++ pending]

/-- A lower bound for the calls that the section that goes on still brings about. -/
def debt (whole : List Bytes) (part pending : Bytes) : Nat :=
  if pending = [] then 0
  else if whole ≠ [] ∧ (whole.flatten ++ part).length ≤ 183 then 2 else 1

/-- The section that goes on comes to its end. -/
theorem Between.finish (h : Between ts whole part pending) (hne : pending ≠ [])
    (hlen : pending.length ≤ 184) (n : Nat) :
    ∃ extra, Ready (writeSectionData ts (pending ++ List.replicate n 0xff) false) ∧
      Same ts (writeSectionData ts (pending ++ List.replicate n 0xff) false) ∧
      (writeSectionData ts (pending ++ List.replicate n 0xff) false).tss.sectionFilter.calls =
        ts.tss.sectionFilter.calls ++ extra ∧
      debt whole part pending ≤ extra.length ∧
      (whole = [] → extra = owed part pending) := by
  obtain ⟨hpending, hwhole, hroom, hsec⟩ := h.goesOn hne
  obtain ⟨hready, hsame, hcalls⟩ := writeSectionData_last (n := n) hpending hwhole
    (hroom.trans_lt (by decide)) hsec
  refine ⟨_, hready, hsame, by rw [hcalls, List.append_assoc], ?_, ?_⟩
  · have hmax : maxSectionSize = 4096 := rfl
    have hcount : whole ≠ [] → 1 ≤ whole.length := fun h => List.length_pos_of_ne_nil h
    rw [debt, if_neg hne]
    by_cases hfirst : whole ≠ [] ∧ (whole.flatten ++ part).length ≤ 183
    · have hone := hcount hfirst.1
      have hfits : (whole.flatten ++ (part ++ pending)).length ≤ maxSectionSize := by
        have hboth := hfirst.2
        simp only [List.length_append] at hboth ⊢
        lia
      rw [if_pos hfirst, if_pos hfits, List.length_append, List.length_singleton]
      lia
    · rw [if_neg hfirst, List.length_append]
      by_cases hsome : whole = []
      · subst hsome
        rw [if_pos (by simpa using hsec.fits)]
        simp
      · have hone := hcount hsome
        lia
  · rintro rfl
    rw [if_pos (by simpa using hsec.fits), owed, if_neg hne]
    rfl

/-- A packet that only goes on with the section. -/
theorem Between.middle (h : Between ts whole part (data ++ rest)) (hdata : data ≠ [])
    (hrest : rest ≠ []) :
    Between (writeSectionData ts data false) whole (part ++ data) rest ∧
      Same ts (writeSectionData ts data false) ∧
      (writeSectionData ts data false).tss.sectionFilter.calls =
        ts.tss.sectionFilter.calls ++ whole ∧
      debt whole part (data ++ rest) ≤ whole.length + debt whole (part ++ data) rest ∧
      owed (part ++ data) rest = owed part (data ++ rest) := by
  have hne : data ++ rest ≠ [] := List.append_ne_nil_of_left_ne_nil hdata rest
  obtain ⟨hpending, hwhole, hroom, hsec⟩ := h.goesOn hne
  have hbegins : Begins ts.tss.sectionFilter.checkCrc (part ++ data) :=
    ⟨List.append_ne_nil_of_right_ne_nil part hdata, rest, hrest, by rwa [List.append_assoc]⟩
  obtain ⟨hnext, hsame, hcalls⟩ := writeSectionData_middle hpending hwhole
    (hroom.trans_lt (by decide)) hbegins
  refine ⟨⟨hnext.buffered.length_eq, fun _ => ⟨hnext, ?_, hroom, ?_⟩⟩, hsame, hcalls, ?_, ?_⟩
  · rw [hsame.checkCrc]
    exact hwhole
  · rw [hsame.checkCrc, List.append_assoc]
    exact hsec
  · rw [debt, debt, if_neg hne, if_neg hrest]
    by_cases hsome : whole = []
    · subst hsome
      simp
    · have hcount : 1 ≤ whole.length := List.length_pos_of_ne_nil hsome
      split <;> split <;> lia
  · rw [owed, owed, if_neg hne, if_neg hrest, List.append_assoc]

theorem Between.settle (h : Between ts whole part pending) (hlen : pending.length ≤ 184) :
    ∃ extra, Ready (if pending = [] then ts else writeSectionData ts pending false) ∧
      Same ts (if pending = [] then ts else writeSectionData ts pending false) ∧
      (if pending = [] then ts else writeSectionData ts pending false).tss.sectionFilter.calls =
        ts.tss.sectionFilter.calls ++ extra ∧
      debt whole part pending ≤ extra.length ∧
      (whole = [] → extra = owed part pending) := by
  by_cases hnone : pending = []
  · subst hnone
    exact ⟨[], by simpa using h.ready, by simpa using Same.refl ts, by simp, by simp [debt],
      fun _ => by simp [owed]⟩
  · simp only [if_neg hnone]
    have hlast := h.finish hnone hlen 0
    simpa using hlast

theorem Ready.start (h : Ready ts) {n : Nat}
    (hlen : (whole.flatten ++ (part ++ List.replicate n 0xff)).length ≤ 183)
    (hwhole : ∀ sec ∈ whole, IsSection ts.tss.sectionFilter.checkCrc sec)
    (hpart : part = [] ∧ pending = [] ∨
      n = 0 ∧ part ≠ [] ∧ pending ≠ [] ∧
        IsSection ts.tss.sectionFilter.checkCrc (part ++ pending)) :
    Between (writeSectionData ts (whole.flatten ++ (part ++ List.replicate n 0xff)) true) whole part
        pending ∧
      Same ts (writeSectionData ts (whole.flatten ++ (part ++ List.replicate n 0xff)) true) ∧
      (writeSectionData ts (whole.flatten ++ (part ++ List.replicate n 0xff))
        true).tss.sectionFilter.calls = ts.tss.sectionFilter.calls ++ whole := by
  have hends : Ends ts.tss.sectionFilter.checkCrc (part ++ List.replicate n 0xff) := by
    rcases hpart with ⟨rfl, rfl⟩ | ⟨rfl, hpart, hpending, hsec⟩
    · cases n with
      | zero => exact .inl rfl
      | succ n => exact .inr (.inl rfl)
    · exact .inr (.inr (by simpa using ⟨hpart, pending, hpending, hsec⟩))
  obtain ⟨hready, hsame, hcalls, hgoesOn⟩ :=
    writeSectionData_start h (hlen.trans (by decide)) hwhole hends
  refine ⟨⟨hready, fun hne => ?_⟩, hsame, hcalls⟩
  rcases hpart with ⟨-, hnone⟩ | ⟨rfl, hpart, hpending, hsec⟩
  · exact absurd hnone hne
  · rw [hsame.checkCrc]
    simp only [List.replicate_zero, List.append_nil, List.length_append] at hlen hgoesOn ⊢
    exact ⟨hgoesOn ⟨hpart, pending, hpending, hsec⟩, hwhole, by lia, hsec⟩

/-! ## Runs -/

/-- The packets go through `handle_packet` one after the other. -/
def handlePackets (ts : MpegTSContext) (packets : List Bytes) : MpegTSContext :=
  packets.foldl (fun ts packet => handlePacket ts packet false) ts

/-- What a packet does: it calls for some sections, others are left.  A tidy packet changes nothing
about the calls that are due, and every packet makes at least as many as there are sections. -/
structure Step (ts ts' : MpegTSContext) (whole : List Bytes) (part pending : Bytes)
    (sections : List Bytes) (piece : Piece) (pieces : List Piece) (extra whole' : List Bytes)
    (part' pending' : Bytes) (sections' : List Bytes) : Prop where
  between : Between ts' whole' part' pending'
  same : Same ts ts'
  calls_eq : ts'.tss.sectionFilter.calls = ts.tss.sectionFilter.calls ++ extra
  splits : Splits pending' sections' pieces
  subset : ∀ sec ∈ sections', sec ∈ sections
  tidy : whole = [] → piece.Tidy → whole' = [] ∧
    extra ++ (owed part' pending' ++ sections') = owed part pending ++ sections
  most : debt whole part pending + sections.length ≤
    extra.length + (debt whole' part' pending' + sections'.length)
  untidy : ¬ piece.Tidy → debt whole part pending + sections.length <
    extra.length + (debt whole' part' pending' + sections'.length)

variable {piece : Piece}

theorem handlePayload_step (hbetween : Between ts whole part pending)
    (hsplits : Splits pending sections (piece :: pieces)) (hlen : piece.payload.length ≤ 184)
    (hsections : ∀ sec ∈ sections, IsSection ts.tss.sectionFilter.checkCrc sec) :
    ∃ extra whole' part' pending' sections',
      Step ts (handlePayload ts piece.payload piece.isStart true) whole part pending sections piece
        pieces extra whole' part' pending' sections' := by
  cases hsplits with
  | @middle data rest _ _ hdata hrest hsplits =>
    obtain ⟨hnext, hsame, hcalls, hdebt, howed⟩ := hbetween.middle hdata hrest
    have hwrite := @handlePayload_more ts data 0
    rw [List.replicate_zero, List.append_nil] at hwrite
    refine ⟨whole, whole, part ++ data, rest, sections, ?_⟩
    rw [show (Piece.more data 0).isStart = false from rfl, hwrite]
    refine ⟨hnext, hsame, hcalls, hsplits, fun _ h => h, ?_, by lia, fun h => absurd trivial h⟩
    rintro rfl -
    exact ⟨rfl, by rw [howed]; rfl⟩
  | @last data _ _ n hdata hsplits =>
    have hle : pending.length ≤ 184 := by
      simp only [Piece.payload, List.length_append] at hlen
      lia
    obtain ⟨extra, hready, hsame, hcalls, hdebt, hextra⟩ := hbetween.finish hdata hle n
    refine ⟨extra, [], [], [], sections, ?_⟩
    rw [show (Piece.more pending n).isStart = false from rfl, handlePayload_more]
    refine ⟨⟨hready, fun h => absurd rfl h⟩, hsame, hcalls, hsplits, fun _ h => h, ?_, ?_,
      fun h => absurd trivial h⟩
    · rintro hnone -
      exact ⟨rfl, by rw [hextra hnone]; rfl⟩
    · rw [show debt [] [] [] = 0 from rfl]
      lia
  | @whole _ next sections' _ n hnext hsplits =>
    simp only [Piece.payload, List.length_cons, List.length_append] at hlen
    obtain ⟨extra, hready, hsame, hcalls, hdebt, hextra⟩ := hbetween.settle (by lia)
    have hnextSections : ∀ sec ∈ next, IsSection (if pending = [] then ts
        else writeSectionData ts pending false).tss.sectionFilter.checkCrc sec := fun sec h => by
      rw [hsame.checkCrc]
      exact hsections sec (List.mem_append_left _ h)
    obtain ⟨hstart, hsame', hcalls'⟩ := @Ready.start _ [] [] next hready n
      (by simp only [List.length_append]; lia) hnextSections (.inl ⟨rfl, rfl⟩)
    refine ⟨extra ++ next, [], [], [], sections', ?_⟩
    rw [show (Piece.start pending next [] n).isStart = true from rfl,
      handlePayload_start (by lia) (.inl hnext) (fun sec h hnil => by
        have hheader := (hnextSections sec h).header
        rw [hnil] at hheader
        exact absurd hheader (by decide))]
    refine ⟨⟨hstart.ready, fun h => absurd rfl h⟩, hsame.trans hsame', ?_, hsplits,
      fun _ h => List.mem_append_right _ h, ?_, ?_, fun h => absurd (.inl rfl) h⟩
    · rw [hcalls', hcalls, List.append_assoc]
    · rintro hnone -
      exact ⟨rfl, by rw [hextra hnone, List.append_assoc]; rfl⟩
    · rw [show debt [] [] [] = 0 from rfl]
      simp only [List.length_append]
      lia
  | @part _ begun left next sections' _ hbegun hleft hsplits =>
    simp only [Piece.payload, List.length_cons, List.length_append] at hlen
    obtain ⟨extra, hready, hsame, hcalls, hdebt, hextra⟩ := hbetween.settle (by lia)
    have hnextSections : ∀ sec ∈ next, IsSection (if pending = [] then ts
        else writeSectionData ts pending false).tss.sectionFilter.checkCrc sec := fun sec h => by
      rw [hsame.checkCrc]
      exact hsections sec (List.mem_append_left _ h)
    have hsec : IsSection (if pending = [] then ts
        else writeSectionData ts pending false).tss.sectionFilter.checkCrc (begun ++ left) := by
      rw [hsame.checkCrc]
      exact hsections _ (List.mem_append_right _ List.mem_cons_self)
    obtain ⟨hstart, hsame', hcalls'⟩ := @Ready.start _ begun left next hready 0
      (by simp only [List.length_append]; lia) hnextSections (.inr ⟨rfl, hbegun, hleft, hsec⟩)
    have hdebtPos : 1 ≤ debt next begun left := by
      rw [debt, if_neg hleft]
      split <;> lia
    refine ⟨extra ++ next, next, begun, left, sections', ?_⟩
    rw [show (Piece.start pending next begun 0).isStart = true from rfl,
      handlePayload_start (by lia) (.inr hbegun) (fun sec h hnil => by
        have hheader := (hnextSections sec h).header
        rw [hnil] at hheader
        exact absurd hheader (by decide))]
    refine ⟨hstart, hsame.trans hsame', ?_, hsplits,
      fun _ h => List.mem_append_right _ (List.mem_cons_of_mem _ h), ?_, ?_, ?_⟩
    · rw [hcalls', hcalls, List.append_assoc]
    · rintro hnone htidy
      obtain rfl : next = [] := htidy.resolve_left hbegun
      exact ⟨rfl, by rw [hextra hnone, owed, owed, if_neg hleft]; simp⟩
    · simp only [List.length_append, List.length_cons]
      lia
    · intro htidy
      have hnext : next ≠ [] := fun hnil => htidy (.inr hnil)
      have htwo : debt next begun left = 2 := by
        rw [debt, if_neg hleft, if_pos ⟨hnext, by rw [List.length_append]; lia⟩]
      simp only [List.length_append, List.length_cons]
      lia

theorem Between.withCc (h : Between ts whole part pending) (cc : Nat) :
    Between (withCc ts cc) whole part pending := by
  refine ⟨h.ready, fun hne => ?_⟩
  obtain ⟨hpending, hrest⟩ := h.goesOn hne
  exact ⟨⟨⟨hpending.buffered.length_eq, hpending.buffered.index_eq, hpending.buffered.hSize,
    hpending.buffered.buf_eq⟩, hpending.wanted⟩, hrest⟩

theorem Splits.payload_ne (h : Splits pending sections (piece :: pieces)) : piece.payload ≠ [] := by
  cases h with
  | middle hdata _ _ => exact List.append_ne_nil_of_left_ne_nil hdata _
  | last n hdata _ => exact List.append_ne_nil_of_left_ne_nil hdata _
  | whole n _ _ => exact List.cons_ne_nil _ _
  | part _ _ _ => exact List.cons_ne_nil _ _

/-- The calls of a whole run: for tidy pieces exactly one for each section, and otherwise more than
there are sections. -/
theorem handlePackets_calls (hpackets : Packets pid last pieces packets)
    (hsplits : Splits pending sections pieces) (hpid : ts.tss.pid = pid)
    (hlast : ts.tss.lastCc = last) (hdiscard : ts.tss.discard = false)
    (hbetween : Between ts whole part pending)
    (hsections : ∀ sec ∈ sections, IsSection ts.tss.sectionFilter.checkCrc sec) :
    ∃ extra, (handlePackets ts packets).tss.sectionFilter.calls =
        ts.tss.sectionFilter.calls ++ extra ∧
      (whole = [] → (∀ piece ∈ pieces, piece.Tidy) → extra = owed part pending ++ sections) ∧
      debt whole part pending + sections.length ≤ extra.length ∧
      ((∃ piece ∈ pieces, ¬ piece.Tidy) →
        debt whole part pending + sections.length < extra.length) := by
  induction hpackets generalizing ts whole part pending sections with
  | nil last =>
    cases hsplits
    exact ⟨[], by simp [handlePackets], fun _ _ => by simp [owed], by simp [debt], by simp⟩
  | @idle last pieces packet packets cc hpid' hafc hcc hnext hrest ih =>
    have hpacket := handlePacket_idle (hpid'.trans hpid.symm) hafc hcc hdiscard
    have hrun : handlePackets ts (packet :: packets) = handlePackets (withCc ts cc) packets := by
      rw [handlePackets, List.foldl_cons, hpacket]
      rfl
    rw [hrun]
    exact @ih (withCc ts cc) _ _ _ _ hsplits hpid rfl hdiscard (hbetween.withCc cc) hsections
  | @payload last piece pieces packet packets cc hcarries hnext hrest ih =>
    rw [← hpid] at hcarries
    rw [← hlast] at hnext
    have hpacket := handlePacket_carries hcarries hnext hdiscard hsplits.payload_ne
    obtain ⟨extra, whole', part', pending', sections', hstep⟩ :=
      handlePayload_step (hbetween.withCc cc) hsplits hcarries.length_le hsections
    have hrun : handlePackets ts (packet :: packets) =
        handlePackets (handlePayload (withCc ts cc) piece.payload piece.isStart true) packets := by
      rw [handlePackets, List.foldl_cons, hpacket]
      rfl
    obtain ⟨more, hcalls, hexact, hmost, hstrict⟩ := ih hstep.splits (hstep.same.pid.trans hpid)
      hstep.same.lastCc (hstep.same.discard.trans hdiscard) hstep.between (fun sec h => by
        rw [hstep.same.checkCrc]
        exact hsections sec (hstep.subset sec h))
    have hfirst := hstep.most
    refine ⟨extra ++ more, ?_, ?_, ?_, ?_⟩
    · rw [hrun, hcalls, hstep.calls_eq, List.append_assoc]
      rfl
    · intro hnone htidy
      obtain ⟨hnone', hextra⟩ := hstep.tidy hnone (htidy piece List.mem_cons_self)
      rw [hexact hnone' (fun p h => htidy p (List.mem_cons_of_mem piece h)), hextra]
    · rw [List.length_append]
      lia
    · rintro ⟨bad, hbad, huntidy⟩
      rw [List.length_append]
      rcases List.mem_cons.1 hbad with rfl | hbad
      · have hmore := hstep.untidy huntidy
        lia
      · have hmore := hstrict ⟨bad, hbad, huntidy⟩
        lia

end FFmpeg.Libavformat.MpegTs
