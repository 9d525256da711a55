import FFmpeg.Libavformat.MpegTsPackets

/-!
# Sections that are written and read again

`mpegts_write_section` gives every section packets of its own, so its packets are tidy, and its
check is right for the demuxer.
-/

namespace FFmpeg.Libavformat.MpegTs

open Common Libavutil Crc

/-! ## The check -/

theorem putBE_avBswap32 (crc : BitVec 32) : putBE 4 (avBswap32 crc).toNat = putLE 4 crc.toNat := by
  have happend : ∀ (n : Nat) (x : BitVec n) (y : BitVec 8),
      (x ++ y).toNat = x.toNat * 256 + y.toNat := by
    intro n x y
    rw [BitVec.toNat_append, ← Nat.shiftLeft_add_eq_or_of_lt y.isLt, Nat.shiftLeft_eq]
  have hbytes : (avBswap32 crc).toNat = getBE [UInt8.ofBitVec (crc.extractLsb' 0 8),
      UInt8.ofBitVec (crc.extractLsb' 8 8), UInt8.ofBitVec (crc.extractLsb' 16 8),
      UInt8.ofBitVec (crc.extractLsb' 24 8)] := by
    simp only [avBswap32, happend, getBE, List.length_cons, List.length_nil, UInt8.toNat_ofBitVec]
    ring
  have hbyte : ∀ k, UInt8.ofBitVec (crc.extractLsb' k 8) = UInt8.ofNat (crc.toNat / 2 ^ k) := by
    intro k
    apply UInt8.toNat_inj.mp
    rw [UInt8.toNat_ofBitVec, BitVec.extractLsb'_toNat, UInt8.toNat_ofNat',
      Nat.shiftRight_eq_div_pow]
  have hput := putBE_getBE [UInt8.ofBitVec (crc.extractLsb' 0 8),
    UInt8.ofBitVec (crc.extractLsb' 8 8), UInt8.ofBitVec (crc.extractLsb' 16 8),
    UInt8.ofBitVec (crc.extractLsb' 24 8)]
  rw [← hbytes] at hput
  refine hput.trans ?_
  simp only [hbyte, putLE, Nat.div_div_eq_div_mul]
  norm_num

variable {buf : Bytes}

theorem withCrc_eq (address : Nat) :
    withCrc address buf = buf.take (buf.length - 4) ++
      putLE 4 (avCrc avCrc32Ieee address (BitVec.allOnes 32)
        (buf.take (buf.length - 4))).toNat := by
  have hbehind : buf.length ≤ buf.length - 4 + 4 := by lia
  unfold withCrc
  simp only [putBE_avBswap32]
  rw [overwrite, length_putLE, List.drop_eq_nil_of_le hbehind, List.append_nil]

theorem length_withCrc (address : Nat) (hlen : 4 ≤ buf.length) :
    (withCrc address buf).length = buf.length := by
  rw [withCrc_eq address, List.length_append, List.length_take, length_putLE]
  lia

theorem avCrc_withCrc (address : Nat) :
    avCrc avCrc32Ieee 0 (BitVec.allOnes 32) (withCrc address buf) = 0#32 := by
  have hself := linear_avCrc32Ieee.avCrc_self
  simp only [linear_avCrc32Ieee.avCrc_eq] at hself
  rw [withCrc_eq address, linear_avCrc32Ieee.avCrc_eq, List.foldl_append,
    linear_avCrc32Ieee.avCrc_eq, hself 0]

/-! ## The packets -/

variable {s : MpegTSSection} {pid cc address : Nat} {first : Bool} {body buf : Bytes}
  {bufs : List (Nat × Bytes)}

theorem pid_byte : ∀ high : Fin 32,
    (UInt8.ofNat high).toNat = high ∧ (UInt8.ofNat high ||| 0x40).toNat = high + 64 ∧
      (UInt8.ofNat high ||| 0x40) &&& 0x40 ≠ 0 ∧ UInt8.ofNat high &&& 0x40 = 0 := by
  decide

theorem cc_byte : ∀ cc : Fin 16,
    (((0x10 ||| UInt8.ofNat cc) ||| 0x20 : UInt8) >>> 4) &&& 3 = 3 ∧
      ((0x10 ||| UInt8.ofNat cc : UInt8) >>> 4) &&& 3 = 1 ∧
      (((0x10 ||| UInt8.ofNat cc) ||| 0x20 : UInt8) &&& 0xf).toNat = cc ∧
      ((0x10 ||| UInt8.ofNat cc : UInt8) &&& 0xf).toNat = cc := by
  decide

/-- A packet of the muxer. -/
theorem packetHeader_carries (hpid : s.pid < 8192) (hcc : cc < 16)
    (hlen : (packetHeader s cc first ++ body).length = tsPacketSize) :
    Carries s.pid cc first ((if first then [0] else []) ++ body)
      (packetHeader s cc first ++ body) := by
  have hshift : s.pid >>> 8 = s.pid / 256 := Nat.shiftRight_eq_div_pow s.pid 8
  have hlow : (UInt8.ofNat s.pid).toNat = s.pid % 256 := UInt8.toNat_ofNat'
  obtain ⟨hclear, hset, hstart, hgoesOn⟩ := pid_byte ⟨s.pid >>> 8, by lia⟩
  obtain ⟨hboth, hpayload, hccBoth, hccPayload⟩ := cc_byte ⟨cc, hcc⟩
  unfold packetHeader at hlen ⊢
  dsimp only at hclear hset hstart hgoesOn hboth hpayload hccBoth hccPayload
  generalize UInt8.ofNat (s.pid >>> 8) = high at *
  generalize (0x10 ||| UInt8.ofNat cc : UInt8) = counter at *
  generalize UInt8.ofNat s.pid = low at *
  refine ⟨hlen, ?_, ?_, ?_, ?_⟩
  · rw [show (0x1fff : Nat) = 2 ^ 13 - 1 from rfl, Nat.and_two_pow_sub_one_eq_mod]
    cases first
    · simp [avRb16, getBE, hlow, hclear]
      omega
    · simp [avRb16, getBE, hlow, hset, -UInt8.toNat_or]
      omega
  · cases first
    · simp [hgoesOn]
    · simp [hstart]
  · cases s.discontinuity
    · simpa using hccPayload
    · simpa using hccBoth
  · cases s.discontinuity
    · exact .inl ⟨by simpa using hpayload, by simp⟩
    · exact .inr ⟨by simpa using hboth, by simp⟩

theorem length_packetHeader_le (s : MpegTSSection) (cc : Nat) (first : Bool) :
    (packetHeader s cc first).length ≤ 7 := by
  unfold packetHeader
  cases first <;> cases s.discontinuity <;> simp

/-! ## The pieces -/

/-- What a packet of the muxer carries: the section goes on with `rest`. -/
def pieceOf (first : Bool) (data rest : Bytes) (n : Nat) : Piece :=
  if first then
    if rest = [] then .start [] [data] [] n else .start [] [] data n
  else .more data n

theorem pieceOf_payload (first : Bool) (data rest : Bytes) (n : Nat) :
    (pieceOf first data rest n).payload =
      (if first then [0] else []) ++ (data ++ List.replicate n 0xff) := by
  unfold pieceOf
  split
  · split <;> simp [Piece.payload]
  · simp [Piece.payload]

theorem pieceOf_isStart (first : Bool) (data rest : Bytes) (n : Nat) :
    (pieceOf first data rest n).isStart = first := by
  unfold pieceOf
  cases first
  · rfl
  · rw [if_pos rfl]
    split <;> rfl

theorem pieceOf_tidy (first : Bool) (data rest : Bytes) (n : Nat) :
    (pieceOf first data rest n).Tidy := by
  unfold pieceOf
  split
  · split
    · exact .inl rfl
    · exact .inr rfl
  · trivial

variable {pieces : List Piece}

theorem pieceOf_splits {data rest : Bytes} {n : Nat} {sections : List Bytes} (hdata : data ≠ [])
    (hn : rest ≠ [] → n = 0) (h : Splits rest sections pieces) (first : Bool) :
    Splits (if first then [] else data ++ rest)
      ((if first then [data ++ rest] else []) ++ sections)
      (pieceOf first data rest n :: pieces) := by
  by_cases hrest : rest = []
  · subst hrest
    cases first
    · simpa [pieceOf] using Splits.last n hdata h
    · have hwhole := @Splits.whole [] [data] _ _ n (List.cons_ne_nil data []) h
      simpa [pieceOf] using hwhole
  · obtain rfl := hn hrest
    cases first
    · simpa [pieceOf] using Splits.middle hdata hrest h
    · have hpart := @Splits.part [] data rest [] _ _ hdata hrest h
      simpa [pieceOf, hrest] using hpart

/-! ## Runs of the muxer -/

/-- What is written between two states: the rest of a section and the sections `done`. -/
structure Written (s s' : MpegTSSection) (rest : Bytes) (done : List Bytes) (pieces : List Piece)
    (packets : List Bytes) : Prop where
  pid_eq : s'.pid = s.pid
  packets_eq : s'.packets = s.packets ++ packets
  tidy : ∀ piece ∈ pieces, piece.Tidy
  splits : ∀ {sections pieces'}, Splits [] sections pieces' →
    Splits rest (done ++ sections) (pieces ++ pieces')
  carries : ∀ {last : Int} {pieces' packets'}, last < 0 ∨ last = s.cc →
    Packets s.pid s'.cc pieces' packets' →
      Packets s.pid last (pieces ++ pieces') (packets ++ packets')

theorem Packets.begin {last : Int} {packets : List Bytes} {cc : Nat}
    (h : Packets pid cc pieces packets) (hlast : last < 0 ∨ last = cc) :
    Packets pid last pieces packets := by
  rcases hlast with hneg | rfl
  · cases h with
    | nil _ => exact .nil last
    | idle hpid hafc hcc _ hrest => exact .idle hpid hafc hcc (.inl hneg) hrest
    | payload hcarries _ hrest => exact .payload hcarries (.inl hneg) hrest
  · exact h

theorem Written.refl (s : MpegTSSection) : Written s s [] [] [] [] where
  pid_eq := rfl
  packets_eq := (List.append_nil _).symm
  tidy := fun _ h => absurd h List.not_mem_nil
  splits := id
  carries := fun hlast h => h.begin hlast

theorem Written.trans {s' s'' : MpegTSSection} {rest : Bytes} {done done' : List Bytes}
    {pieces' : List Piece} {packets packets' : List Bytes}
    (h : Written s s' rest done pieces packets) (h' : Written s' s'' [] done' pieces' packets') :
    Written s s'' rest (done ++ done') (pieces ++ pieces') (packets ++ packets') where
  pid_eq := h'.pid_eq.trans h.pid_eq
  packets_eq := by rw [h'.packets_eq, h.packets_eq, List.append_assoc]
  tidy := fun piece hpiece => (List.mem_append.1 hpiece).elim (h.tidy piece) (h'.tidy piece)
  splits := fun hsplits => by
    simpa only [List.append_assoc] using h.splits (h'.splits hsplits)
  carries := fun hlast hpackets => by
    have hsecond := h'.carries (.inr rfl) (h.pid_eq ▸ hpackets)
    rw [h.pid_eq] at hsecond
    simpa only [List.append_assoc] using h.carries hlast hsecond

/-- The loop of the muxer writes the section. -/
theorem writeSectionLoop_written (hpid : s.pid < 8192) {rounds : Nat}
    (hrounds : buf.length ≤ rounds) (hfirst : first = true → buf ≠ []) :
    ∃ pieces packets, Written s (writeSectionLoop rounds s first buf)
      (if first then [] else buf) (if first then [buf] else []) pieces packets := by
  induction rounds generalizing s first buf with
  | zero =>
    obtain rfl : buf = [] := List.eq_nil_of_length_eq_zero (by lia)
    obtain rfl : first = false := by
      cases first
      · rfl
      · exact absurd rfl (hfirst rfl)
    exact ⟨[], [], Written.refl s⟩
  | succ rounds ih =>
    by_cases hnone : buf = []
    · subst hnone
      obtain rfl : first = false := by
        cases first
        · rfl
        · exact absurd rfl (hfirst rfl)
      exact ⟨[], [], Written.refl s⟩
    · have hpos : 0 < buf.length := List.length_pos_of_ne_nil hnone
      obtain ⟨cc, hcc⟩ : ∃ cc, cc = (s.cc + 1) &&& 0xf := ⟨_, rfl⟩
      obtain ⟨q, hq⟩ : ∃ q, q = packetHeader s cc first := ⟨_, rfl⟩
      obtain ⟨len, hlen⟩ : ∃ len, len = min (tsPacketSize - q.length) buf.length := ⟨_, rfl⟩
      obtain ⟨n, hn⟩ : ∃ n, n = tsPacketSize - (q ++ buf.take len).length := ⟨_, rfl⟩
      have hmod : cc = (s.cc + 1) % 16 := by
        rw [hcc, show (0xf : Nat) = 2 ^ 4 - 1 from rfl, Nat.and_two_pow_sub_one_eq_mod]
      have hheader : q.length ≤ 7 := hq ▸ length_packetHeader_le s cc first
      have hsize : tsPacketSize = 188 := rfl
      have htake : (buf.take len).length = len := by
        rw [List.length_take]
        lia
      rw [List.length_append, htake] at hn
      have hcarries : Carries s.pid cc (pieceOf first (buf.take len) (buf.drop len) n).isStart
          (pieceOf first (buf.take len) (buf.drop len) n).payload
          (q ++ buf.take len ++ List.replicate n 0xff) := by
        rw [pieceOf_isStart, pieceOf_payload, hq, List.append_assoc]
        refine packetHeader_carries hpid (by lia) ?_
        rw [← hq, List.length_append, List.length_append, htake, List.length_replicate]
        lia
      obtain ⟨pieces, packets, hnext⟩ := @ih
        { s with cc := cc, discontinuity := false,
                 packets := s.packets ++ [q ++ buf.take len ++ List.replicate n 0xff] }
        false (buf.drop len) hpid (by rw [List.length_drop]; lia) (fun h => by cases h)
      have hloop : writeSectionLoop (rounds + 1) s first buf = writeSectionLoop rounds
          { s with cc := cc, discontinuity := false,
                   packets := s.packets ++ [q ++ buf.take len ++ List.replicate n 0xff] }
          false (buf.drop len) := by
        simp only [writeSectionLoop, if_pos hpos, ← hcc, ← hq, ← hlen, List.length_append, htake,
          ← hn]
      refine ⟨pieceOf first (buf.take len) (buf.drop len) n :: pieces,
        (q ++ buf.take len ++ List.replicate n 0xff) :: packets, ?_⟩
      rw [hloop]
      refine ⟨hnext.pid_eq, ?_, ?_, fun hsplits => ?_, fun hlast hpackets => ?_⟩
      · rw [hnext.packets_eq]
        simp only [List.append_assoc, List.singleton_append]
      · intro piece hpiece
        rcases List.mem_cons.1 hpiece with rfl | hpiece
        · exact pieceOf_tidy first _ _ n
        · exact hnext.tidy piece hpiece
      · have hrest := hnext.splits hsplits
        have hdata : buf.take len ≠ [] := by
          intro hnil
          rw [hnil, List.length_nil] at htake
          lia
        have hstuffing : buf.drop len ≠ [] → n = 0 := by
          intro hne
          have hmore : 0 < (buf.drop len).length := List.length_pos_of_ne_nil hne
          rw [List.length_drop] at hmore
          lia
        have hpiece := pieceOf_splits hdata hstuffing hrest first
        rwa [List.take_append_drop] at hpiece
      · refine .payload hcarries ?_ (hnext.carries (.inr rfl) hpackets)
        rcases hlast with hneg | rfl
        · exact .inl hneg
        · exact .inr (by rw [hmod]; push_cast; rfl)

/-- Sections that are written one after the other. -/
def mpegtsWriteSections (s : MpegTSSection) (bufs : List (Nat × Bytes)) : MpegTSSection :=
  bufs.foldl (fun s buf => mpegtsWriteSection s buf.1 buf.2) s

theorem mpegtsWriteSections_written (hpid : s.pid < 8192) (hlen : ∀ buf ∈ bufs, 4 ≤ buf.2.length) :
    ∃ pieces packets, Written s (mpegtsWriteSections s bufs) []
      (bufs.map fun buf => withCrc buf.1 buf.2) pieces packets := by
  induction bufs generalizing s with
  | nil => exact ⟨[], [], Written.refl s⟩
  | cons buf bufs ih =>
    have hbuf := length_withCrc buf.1 (hlen buf List.mem_cons_self)
    have hfour := hlen buf List.mem_cons_self
    have hne : withCrc buf.1 buf.2 ≠ [] := by
      intro hnil
      rw [hnil, List.length_nil] at hbuf
      lia
    obtain ⟨pieces, packets, hfirst⟩ := @writeSectionLoop_written s true (withCrc buf.1 buf.2) hpid
      _ (Nat.le_refl _) (fun _ => hne)
    obtain ⟨pieces', packets', hrest⟩ := @ih (mpegtsWriteSection s buf.1 buf.2)
      (hfirst.pid_eq ▸ hpid) (fun b h => hlen b (List.mem_cons_of_mem buf h))
    exact ⟨_, _, hfirst.trans hrest⟩

/-! ## Reassembly -/

theorem between_open (pid : Nat) (check : Bool) :
    Between (mpegtsOpenSectionFilter pid check) [] [] [] :=
  ⟨List.length_replicate, fun h => absurd rfl h⟩

theorem isSection_withCrc {check : Bool} (h : IsSection false (withCrc address buf)) :
    IsSection check (withCrc address buf) :=
  ⟨h.header, h.fits, h.length_eq, h.first, fun _ => avCrc_withCrc address⟩

/-- **Reassembly**: the calls are those for the sections, each once and in order, if and only if
no section goes on behind a packet in which another one has begun before it; and so they are for
the packets of the muxer. -/
theorem handlePackets_calls_iff {pid : Nat} {check : Bool} {sections : List Bytes}
    {pieces : List Piece} {packets : List Bytes} {s : MpegTSSection} {bufs : List (Nat × Bytes)}
    (hsections : ∀ sec ∈ sections, IsSection check sec) (hsplits : Splits [] sections pieces)
    (hpackets : Packets pid (-1) pieces packets) (hpid : s.pid = pid) (hlt : pid < 8192)
    (hnone : s.packets = [])
    (hbufs : ∀ buf ∈ bufs, 4 ≤ buf.2.length ∧ IsSection false (withCrc buf.1 buf.2)) :
    ((handlePackets (mpegtsOpenSectionFilter pid check) packets).tss.sectionFilter.calls =
        sections ↔ ∀ piece ∈ pieces, piece.Tidy) ∧
      (handlePackets (mpegtsOpenSectionFilter pid check)
        (mpegtsWriteSections s bufs).packets).tss.sectionFilter.calls =
        bufs.map fun buf => withCrc buf.1 buf.2 := by
  subst hpid
  constructor
  · obtain ⟨extra, hcalls, hexact, hmost, hstrict⟩ := handlePackets_calls hpackets hsplits rfl rfl
      rfl (between_open s.pid check) hsections
    rw [hcalls]
    show extra = sections ↔ _
    constructor
    · intro heq
      by_contra huntidy
      push Not at huntidy
      have hmore := hstrict huntidy
      rw [heq] at hmore
      lia
    · exact hexact rfl
  · obtain ⟨pieces, packets, hwritten⟩ :=
      mpegtsWriteSections_written hlt (fun buf h => (hbufs buf h).1)
    have hsplits := hwritten.splits .done
    have hcarries := hwritten.carries (.inl (show (-1 : Int) < 0 by decide)) (.nil _)
    rw [List.append_nil, List.append_nil] at hsplits hcarries
    have hpieces : ∀ sec ∈ bufs.map fun buf => withCrc buf.1 buf.2, IsSection check sec := by
      intro sec hsec
      obtain ⟨buf, hbuf, rfl⟩ := List.mem_map.1 hsec
      exact isSection_withCrc (hbufs buf hbuf).2
    obtain ⟨extra, hcalls, hexact, -, -⟩ := handlePackets_calls hcarries hsplits rfl rfl rfl
      (between_open s.pid check) hpieces
    rw [hwritten.packets_eq, hnone, List.nil_append, hcalls]
    exact hexact rfl hwritten.tidy

/-- A section without a body. -/
def shortSection : Bytes := [0x42, 0, 4, 209, 250, 115, 18]

/-- A section that does not fit behind another one. -/
def longSection : Bytes := [0x42, 0, 177] ++ List.replicate 173 0 ++ [235, 26, 89, 3]

theorem isSection_shortSection : IsSection true shortSection :=
  ⟨by decide, by decide, by decide, by decide, fun _ => by decide +kernel⟩

theorem isSection_longSection : IsSection true longSection :=
  ⟨by decide +kernel, by decide +kernel, by decide +kernel, by decide, fun _ => by
    rw [linear_avCrc32Ieee.avCrc_eq]
    decide +kernel⟩

/-- A section in a packet of its own, read and written. -/
theorem handlePackets_calls_iff_short :
    ((handlePackets (mpegtsOpenSectionFilter 17 true)
        [[0x47, 0x40, 17, 0x10, 0] ++ shortSection ++
          List.replicate 176 0xff]).tss.sectionFilter.calls = [shortSection] ↔
        ∀ piece ∈ [Piece.start [] [shortSection] [] 176], piece.Tidy) ∧
      (handlePackets (mpegtsOpenSectionFilter 17 true)
        (mpegtsWriteSections ⟨17, 15, true, []⟩
          [(0, [0x42, 0, 4, 0, 0, 0, 0])]).packets).tss.sectionFilter.calls =
        [(0, [0x42, 0, 4, 0, 0, 0, 0])].map fun buf => withCrc buf.1 buf.2 := by
  have hcrc : withCrc 0 [0x42, 0, 4, 0, 0, 0, 0] = shortSection := by decide +kernel
  have hpackets : Packets 17 (-1) [Piece.start [] [shortSection] [] 176]
      [[0x47, 0x40, 17, 0x10, 0] ++ shortSection ++ List.replicate 176 0xff] :=
    @Packets.payload 17 _ _ _ _ _ 0 ⟨by decide +kernel, by decide, by decide, by decide,
      by decide +kernel⟩ (.inl (by decide)) (.nil _)
  have hsplits : Splits [] [shortSection] [.start [] [shortSection] [] 176] :=
    @Splits.whole [] [shortSection] [] [] 176 (by decide) .done
  have hsections : ∀ sec ∈ [shortSection], IsSection true sec := by
    intro sec hsec
    rw [List.mem_singleton.1 hsec]
    exact isSection_shortSection
  have hbufs : ∀ buf ∈ [((0 : Nat), ([0x42, 0, 4, 0, 0, 0, 0] : Bytes))],
      4 ≤ buf.2.length ∧ IsSection false (withCrc buf.1 buf.2) := by
    intro buf hbuf
    rw [List.mem_singleton.1 hbuf]
    refine ⟨by decide, ?_⟩
    rw [hcrc]
    exact ⟨by decide, by decide, by decide, by decide, fun h => by cases h⟩
  exact @handlePackets_calls_iff 17 true _ _ _ ⟨17, 15, true, []⟩ _ hsections hsplits hpackets rfl
    (by decide) rfl hbufs

/-- Behind a short section a long one begins, which goes on in the next packet: there are two calls
for the short one. -/
theorem handlePackets_calls_twice :
    (∀ sec ∈ [shortSection, longSection], IsSection true sec) ∧
      Splits [] [shortSection, longSection]
        [.start [] [shortSection] (longSection.take 176) 0, .more (longSection.drop 176) 180] ∧
      Packets 17 (-1)
        [.start [] [shortSection] (longSection.take 176) 0, .more (longSection.drop 176) 180]
        [[0x47, 0x40, 17, 0x10, 0] ++ shortSection ++ longSection.take 176,
          [0x47, 0, 17, 0x11] ++ longSection.drop 176 ++ List.replicate 180 0xff] ∧
      (handlePackets (mpegtsOpenSectionFilter 17 true)
        [[0x47, 0x40, 17, 0x10, 0] ++ shortSection ++ longSection.take 176,
          [0x47, 0, 17, 0x11] ++ longSection.drop 176 ++
            List.replicate 180 0xff]).tss.sectionFilter.calls ≠ [shortSection, longSection] := by
  refine ⟨?_, ?_, ?_, ?_⟩
  · intro sec hsec
    rcases List.mem_cons.1 hsec with rfl | hsec
    · exact isSection_shortSection
    · rw [List.mem_singleton.1 hsec]
      exact isSection_longSection
  · exact @Splits.part [] (longSection.take 176) (longSection.drop 176) [shortSection] [] _
      (by decide) (by decide +kernel) (.last 180 (by decide +kernel) .done)
  · refine @Packets.payload 17 _ _ _ _ _ 0 ⟨by decide +kernel, by decide, by decide, by decide,
      by decide +kernel⟩ (.inl (by decide)) ?_
    exact @Packets.payload 17 _ _ _ _ _ 1 ⟨by decide +kernel, by decide, by decide, by decide,
      by decide +kernel⟩ (.inr (by decide)) (.nil _)
  · decide +kernel

end FFmpeg.Libavformat.MpegTs
