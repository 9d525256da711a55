import FFmpeg.Libavcodec.Packet
import FFmpeg.Libavutil.BufferValues
import Mathlib.Logic.Function.Basic

/-!
# Packets have value semantics

Each packet stands for a byte string, and an operation changes the byte strings of the packets that
it is about and of no others, whether they share a buffer or not.  `av_shrink_packet` is the
exception: it writes zeros behind the new end without a look at who else shows these bytes, and
this holds as long as nobody does.
-/

namespace FFmpeg.Libavcodec.Packet

open Common Libavutil Buffer BufferValues
open PacketSideData (AVPacketSideData avPktDataNb avInputBufferPaddingSize)

variable {Arg Free : Type}

/-! ## What is promised -/

/-- The byte string of each packet. -/
abbrev Values := Nat → Option Bytes

/-- The byte strings of the packets of a state. -/
def values (s : State Arg Free) : Values :=
  fun p => (s.packets.load p).bind (packetBytes s)

/-- What an operation does to byte strings, with what it returns. -/
def Acts (v : Values) (a : Action) (packet : Option Nat) (ret : Int) (v' : Values) : Prop :=
  match a with
  | .new _ p size =>
    (ret = 0 ∧ ∃ bytes, (bytes.length : Int) = size ∧ v' = Function.update v p (some bytes)) ∨
      (ret < 0 ∧ v' = v)
  | .ref _ dst src =>
    (ret = 0 ∧ v' = Function.update v dst (v src)) ∨
      (ret < 0 ∧ v' = Function.update v dst (some []))
  | .clone _ src =>
    (ret = 0 ∧ ∃ q, packet = some q ∧ v q = none ∧ v' = Function.update v q (v src)) ∨
      (ret < 0 ∧ packet = none ∧ v' = v)
  | .moveRef dst src => v' = Function.update (Function.update v dst (v src)) src (some [])
  | .makeWritable _ _ => (ret = 0 ∨ ret < 0) ∧ v' = v
  | .makeRefcounted _ _ => (ret = 0 ∨ ret < 0) ∧ v' = v
  | .grow _ p growBy =>
    (ret = 0 ∧ ∃ old more : Bytes, v p = some old ∧ (more.length : Int) = growBy ∧
      v' = Function.update v p (some (old ++ more))) ∨ (ret < 0 ∧ v' = v)
  | .shrink p size => v' = Function.update v p ((v p).map (List.take size.toNat))
  | .unref p => v' = Function.update v p (some [])

/-- The packet that is blank when the operation fails. -/
def destination : Action → Option Nat
  | .ref _ dst _ => some dst
  | _ => none

/-- What a step promises. -/
structure Meets (s : State Arg Free) (a : Action) (r : Result Arg Free) : Prop where
  values : Acts (values s) a r.packet r.ret (values r.state)
  /-- on failure the packets are as they were, with their data and their sizes -/
  failed : r.ret < 0 → ∀ p, destination a ≠ some p → r.state.packets.load p = s.packets.load p
  /-- on failure the destination is blank -/
  blank : r.ret < 0 → ∀ p, destination a = some p → ∃ pkt, r.state.packets.load p = some pkt ∧
    pkt.buf = none ∧ pkt.data = none ∧ pkt.size = 0

/-- A packet nobody has freed. -/
def LivePacket (s : State Arg Free) (p : Nat) : Prop := (s.packets.load p).isSome

/-- What the operations ask of their callers: live packets, and sizes that are an `int`. -/
def Legal (s : State Arg Free) : Action → Prop
  | .new _ p size => LivePacket s p ∧ IsInt size
  | .ref _ dst src => LivePacket s dst ∧ LivePacket s src
  | .clone _ src => LivePacket s src
  | .moveRef dst src => LivePacket s dst ∧ LivePacket s src
  | .makeWritable _ p => LivePacket s p
  | .makeRefcounted _ p => LivePacket s p
  | .grow _ p growBy => LivePacket s p ∧ IsInt growBy
  | .shrink p size => LivePacket s p ∧ IsInt size
  | .unref p => LivePacket s p

/-- What a packet needs of the memory: its data is there, and there is padding behind the data
of a packet with a buffer. -/
inductive Backed (s : State Arg Free) (pkt : AVPacket) : Prop
  | blank (hbuf : pkt.buf = none) (hdata : pkt.data = none) (hsize : pkt.size = 0)
  | outer {d offset : Nat} {block : Bytes} (hbuf : pkt.buf = none)
      (hdata : pkt.data = some (.outer d offset)) (hblock : s.outer.load d = some block)
      (hin : offset + pkt.size ≤ block.length)
  | buffer {r offset : Nat} {ref : AVBufferRef} (hbuf : pkt.buf = some r)
      (href : s.mem.refs.load r = some ref) (hdata : pkt.data = some (.block ref.data offset))
      (hlow : ref.offset ≤ offset)
      (hin : offset + pkt.size + avInputBufferPaddingSize ≤ ref.offset + ref.size)

/-- Elements of side data that have the bytes that they say. -/
def Whole (sideData : List AVPacketSideData) : Prop := ∀ sd ∈ sideData, sd.size ≤ sd.data.length

/-- A packet that may be used. -/
structure Sound (s : State Arg Free) (pkt : AVPacket) : Prop where
  nonneg : 0 ≤ pkt.size
  room : pkt.size + avInputBufferPaddingSize ≤ intMax
  backed : Backed s pkt
  sideData : Whole pkt.sideData

/-- Packets that may be used, no two of which have one reference. -/
structure Valid (s : State Arg Free) : Prop where
  ledger : Ledger s.mem none
  sound : ∀ p pkt, s.packets.load p = some pkt → Sound s pkt
  exclusive : ∀ p q pkt pkt' r, s.packets.load p = some pkt → s.packets.load q = some pkt' →
    pkt.buf = some r → pkt'.buf = some r → p = q

/-- Behind the data of a packet with a buffer there are the bytes of the padding. -/
def Padded (s : State Arg Free) : Prop :=
  ∀ p pkt r, s.packets.load p = some pkt → pkt.buf = some r →
    ∃ ref offset, s.mem.refs.load r = some ref ∧ pkt.data = some (.block ref.data offset) ∧
      ref.offset ≤ offset ∧
      offset + pkt.size + avInputBufferPaddingSize ≤ ref.offset + ref.size ∧
      ∃ bytes, readAt s.mem.blocks ref.data (offset + pkt.size.toNat) avInputBufferPaddingSize =
        some bytes

/-- The data of a packet has none of the bytes that are zeroed behind a place. -/
def Apart (place : Place) (pos : Int) (pkt : AVPacket) : Prop :=
  match place, pkt.data with
  | .block d offset, some (.block d' offset') =>
    d' ≠ d ∨ offset' + pkt.size ≤ offset + pos ∨ offset + pos + avInputBufferPaddingSize ≤ offset'
  | .outer d offset, some (.outer d' offset') =>
    d' ≠ d ∨ offset' + pkt.size ≤ offset + pos ∨ offset + pos + avInputBufferPaddingSize ≤ offset'
  | _, _ => True

/-- The memory behind a place that is zeroed: it is there, and no other packet shows it. -/
structure Clear (s : State Arg Free) (p : Nat) (place : Option Place) (pos : Int) : Prop where
  nonneg : 0 ≤ pos
  inside : ∀ d offset block, place = some (.outer d offset) → s.outer.load d = some block →
    offset + pos + avInputBufferPaddingSize ≤ block.length
  apart : ∀ at' q pkt, place = some at' → q ≠ p → s.packets.load q = some pkt → Apart at' pos pkt

/-- There is room for one more reference to the buffer of a packet. -/
def RefFits (s : State Arg Free) (memory : PacketMemory) (src : Nat) : Prop :=
  memory.buffer.ref = true → ∀ pkt r ref, s.packets.load src = some pkt → pkt.buf = some r →
    s.mem.refs.load r = some ref → references s.mem ref.buffer + 1 < 2 ^ 32

/-- When a step keeps its promise: the zeros that `av_shrink_packet` writes, and those that
`av_grow_packet` writes into a shared buffer that has the wanted size already, are nobody's
data, and the reference count has room for what the step takes. -/
def Fine (s : State Arg Free) : Action → Prop
  | .ref memory dst src => src ≠ dst → RefFits s memory src
  | .clone memory src => RefFits s memory src
  | .grow _ p growBy => ∀ pkt r ref place, s.packets.load p = some pkt → pkt.buf = some r →
      s.mem.refs.load r = some ref → avBufferIsWritable s.mem r = some false →
      dataOffset ref pkt.data = some place →
      ref.size = pkt.size + growBy + avInputBufferPaddingSize + place.2 →
      Clear s p pkt.data (pkt.size + growBy)
  | .shrink p size => ∀ pkt, s.packets.load p = some pkt → size < pkt.size → Clear s p pkt.data size
  | _ => True

/-- A step of anybody. -/
def Moves (s t : State Arg Free) : Prop :=
  ∃ a r, Legal s a ∧ step s a = some r ∧ r.state = t

/-- A step that keeps its promise. -/
def MovesFine (s t : State Arg Free) : Prop :=
  ∃ a r, Legal s a ∧ Fine s a ∧ step s a = some r ∧ r.state = t

/-- A step of the byte strings. -/
def Acting (v v' : Values) : Prop := ∃ a packet ret, Acts v a packet ret v'

/-! ## The memory -/

section

variable {s t : State Arg Free} {m m' : Buffer.State Arg Free} {pkt : AVPacket}

variable {blocks : Cells Bytes}

theorem readAt_part {data offset n k i : Nat} {bytes : Bytes}
    (h : readAt blocks data offset n = some bytes) (hin : i + k ≤ n) :
    readAt blocks data (offset + i) k = some (slice bytes i k) := by
  rw [readAt] at h
  obtain ⟨block, hblock, hread⟩ := Option.bind_eq_some_iff.mp h
  split_ifs at hread with hfits
  · rw [readAt_eq hblock (by lia), ← Option.some.inj hread, slice_slice hin]

theorem readAt_writeAt {blocks' : Cells Bytes} {data offset : Nat} {src : Bytes}
    (h : writeAt blocks data offset src = some blocks') {d pos n : Nat}
    (hapart : d ≠ data ∨ pos + n ≤ offset ∨ offset + src.length ≤ pos) :
    readAt blocks' d pos n = readAt blocks d pos n := by
  rw [writeAt] at h
  obtain ⟨block, hblock, hwrite⟩ := Option.bind_eq_some_iff.mp h
  split_ifs at hwrite with hfits
  obtain rfl := Option.some.inj hwrite
  by_cases hd : d = data
  · subst hd
    rw [readAt, readAt, Cells.load_store_self hblock, hblock, Option.bind_some, Option.bind_some,
      length_overwrite_of_le hfits]
    rw [slice_overwrite_of_disjoint (by lia) (by lia)]
  · rw [readAt, readAt, Cells.load_store_of_ne _ _ hd]

theorem readAt_length {data offset n : Nat} {bytes : Bytes}
    (h : readAt blocks data offset n = some bytes) : bytes.length = n := by
  rw [readAt] at h
  obtain ⟨block, hblock, hread⟩ := Option.bind_eq_some_iff.mp h
  split_ifs at hread with hfits
  rw [← Option.some.inj hread, length_slice]
  lia

theorem packetBytes_view {r offset : Nat} {ref : AVBufferRef} {bytes : Bytes}
    (href : s.mem.refs.load r = some ref) (hview : view s.mem r = some bytes)
    (hdata : pkt.data = some (.block ref.data offset)) (hlow : ref.offset ≤ offset)
    (hnonneg : 0 ≤ pkt.size) (hin : offset + pkt.size ≤ ref.offset + ref.size) :
    packetBytes s pkt = some (slice bytes (offset - ref.offset) pkt.size.toNat) := by
  rw [view_eq href] at hview
  have hpart := readAt_part hview (show offset - ref.offset + pkt.size.toNat ≤ ref.size.toNat by
    lia)
  rw [Nat.add_sub_cancel' hlow] at hpart
  rw [packetBytes, hdata]
  exact hpart

theorem Sound.bytes (h : Sound s pkt) (hledger : Ledger s.mem none) :
    ∃ bytes, packetBytes s pkt = some bytes ∧ bytes.length = pkt.size.toNat := by
  have hnonneg := h.nonneg
  rcases h.backed with ⟨-, hdata, hsize⟩ | @⟨d, offset, block, -, hdata, hblock, hin⟩ |
    ⟨-, href, hdata, hlow, hin⟩
  · exact ⟨[], by rw [packetBytes, hdata, hsize]; rfl, by rw [hsize]; rfl⟩
  · have hread := readAt_eq hblock (show offset + pkt.size.toNat ≤ block.length by lia)
    exact ⟨_, by rw [packetBytes, hdata]; exact hread, readAt_length hread⟩
  · obtain ⟨block, -, hroom, hview⟩ := hledger.shown href
    have hread := packetBytes_view href hview hdata hlow hnonneg (by lia)
    rw [packetBytes, hdata] at hread
    exact ⟨_, by rw [packetBytes, hdata]; exact hread, readAt_length hread⟩

theorem Sound.frame (h : Sound s pkt) (hledger : Ledger s.mem none) (houter : t.outer = s.outer)
    (hsame : ∀ r, pkt.buf = some r → Same s.mem t.mem r) :
    Sound t pkt ∧ packetBytes t pkt = packetBytes s pkt := by
  have hnonneg := h.nonneg
  rcases h.backed with ⟨hbuf, hdata, hsize⟩ | ⟨hbuf, hdata, hblock, hin⟩ |
    ⟨hbuf, href, hdata, hlow, hin⟩
  · refine ⟨⟨hnonneg, h.room, .blank hbuf hdata hsize, h.sideData⟩, ?_⟩
    rw [packetBytes, packetBytes, hdata]
    rfl
  · refine ⟨⟨hnonneg, h.room, .outer hbuf hdata (by rwa [houter]) hin, h.sideData⟩, ?_⟩
    rw [packetBytes, packetBytes, hdata]
    show readAt t.outer _ _ _ = readAt s.outer _ _ _
    rw [houter]
  · obtain ⟨hload, hview⟩ := hsame _ hbuf
    obtain ⟨block, -, -, hshown⟩ := hledger.shown href
    have href' := hload.trans href
    refine ⟨⟨hnonneg, h.room, .buffer hbuf href' hdata hlow hin, h.sideData⟩, ?_⟩
    rw [packetBytes_view href' (hview.trans hshown) hdata hlow hnonneg (by lia),
      packetBytes_view href hshown hdata hlow hnonneg (by lia)]

theorem Sound.live (h : Sound s pkt) {r : Nat} (hbuf : pkt.buf = some r) : Live s.mem r := by
  rcases h.backed with ⟨hnone, -, -⟩ | ⟨hnone, -, -, -⟩ | ⟨hsome, href, -, -, -⟩
  · rw [hnone] at hbuf
    cases hbuf
  · rw [hnone] at hbuf
    cases hbuf
  · cases hbuf.symm.trans hsome
    exact live_of_load href

theorem sound_resetPacket (s : State Arg Free) (pkt : AVPacket) : Sound s (resetPacket pkt) :=
  ⟨le_rfl, by show (0 : Int) + 64 ≤ intMax; decide, .blank rfl rfl rfl,
    fun _ hsd => absurd hsd List.not_mem_nil⟩

theorem packetBytes_resetPacket (s : State Arg Free) (pkt : AVPacket) :
    packetBytes s (resetPacket pkt) = some [] := rfl

/-! ## One packet changes -/

/-- One packet becomes another one, and the others keep what they need and their data. -/
theorem Valid.update (h : Valid s) {p : Nat} {old new : AVPacket}
    (hp : s.packets.load p = some old) (hledger : Ledger t.mem none)
    (hpackets : t.packets = s.packets.store p new)
    (hothers : ∀ q pkt, q ≠ p → s.packets.load q = some pkt →
      Sound t pkt ∧ packetBytes t pkt = packetBytes s pkt)
    (hnew : Sound t new)
    (hfresh : ∀ q pkt r, q ≠ p → s.packets.load q = some pkt → pkt.buf = some r →
      new.buf ≠ some r) :
    Valid t ∧ values t = Function.update (values s) p (packetBytes t new) := by
  have hself : t.packets.load p = some new := by
    rw [hpackets]
    exact Cells.load_store_self hp new
  have hother : ∀ q, q ≠ p → t.packets.load q = s.packets.load q := fun q hq => by
    rw [hpackets]
    exact Cells.load_store_of_ne _ _ hq
  refine ⟨⟨hledger, fun q pkt hq => ?_, fun q q' pkt pkt' r hq hq' hbuf hbuf' => ?_⟩, ?_⟩
  · by_cases hqp : q = p
    · rw [hqp, hself] at hq
      exact Option.some.inj hq ▸ hnew
    · rw [hother q hqp] at hq
      exact (hothers q pkt hqp hq).1
  · by_cases hqp : q = p
    · by_cases hqp' : q' = p
      · rw [hqp, hqp']
      · rw [hqp, hself] at hq
        rw [hother q' hqp'] at hq'
        rw [← Option.some.inj hq] at hbuf
        exact absurd hbuf (hfresh q' pkt' r hqp' hq' hbuf')
    · rw [hother q hqp] at hq
      by_cases hqp' : q' = p
      · rw [hqp', hself] at hq'
        rw [← Option.some.inj hq'] at hbuf'
        exact absurd hbuf' (hfresh q pkt r hqp hq hbuf)
      · rw [hother q' hqp'] at hq'
        exact h.exclusive q q' pkt pkt' r hq hq' hbuf hbuf'
  · funext q
    by_cases hqp : q = p
    · rw [hqp, Function.update_self, values, hself, Option.bind_some]
    · rw [Function.update_of_ne hqp, values, values, hother q hqp]
      cases hq : s.packets.load q with
      | none => rfl
      | some pkt => exact (hothers q pkt hqp hq).2

theorem Sound.setPackets (h : Sound s pkt) (packets : Cells AVPacket) :
    Sound { s with packets := packets } pkt := by
  refine ⟨h.nonneg, h.room, ?_, h.sideData⟩
  rcases h.backed with ⟨hbuf, hdata, hsize⟩ | ⟨hbuf, hdata, hblock, hin⟩ |
    ⟨hbuf, href, hdata, hlow, hin⟩
  · exact .blank hbuf hdata hsize
  · exact .outer hbuf hdata hblock hin
  · exact .buffer hbuf href hdata hlow hin

theorem Valid.setPacket (h : Valid s) {p : Nat} {old new : AVPacket}
    (hp : s.packets.load p = some old) (hledger : Ledger m none)
    (hsame : ∀ q pkt r, q ≠ p → s.packets.load q = some pkt → pkt.buf = some r → Same s.mem m r)
    (hnew : Sound { s with mem := m } new)
    (hfresh : ∀ q pkt r, q ≠ p → s.packets.load q = some pkt → pkt.buf = some r →
      new.buf ≠ some r) :
    Valid { s with mem := m, packets := s.packets.store p new } ∧
      values { s with mem := m, packets := s.packets.store p new } =
        Function.update (values s) p (packetBytes { s with mem := m } new) :=
  h.update hp hledger rfl (fun q pkt hqp hq =>
    (h.sound q pkt hq).frame h.ledger rfl fun r hbuf => hsame q pkt r hqp hq hbuf)
    (hnew.setPackets _) hfresh

theorem Valid.buf_ne (h : Valid s) {p q : Nat} {pkt pkt' : AVPacket} {r r' : Nat}
    (hp : s.packets.load p = some pkt) (hbuf : pkt.buf = some r) (hqp : q ≠ p)
    (hq : s.packets.load q = some pkt') (hbuf' : pkt'.buf = some r') : r' ≠ r := fun heq =>
  hqp (h.exclusive q p pkt' pkt r hq hp (heq ▸ hbuf') hbuf)

theorem Valid.mem (h : Valid s) (hledger : Ledger m none)
    (hsame : ∀ q pkt r, s.packets.load q = some pkt → pkt.buf = some r → Same s.mem m r) :
    Valid { s with mem := m } ∧ values { s with mem := m } = values s := by
  have hkept : ∀ q pkt, s.packets.load q = some pkt →
      Sound { s with mem := m } pkt ∧ packetBytes { s with mem := m } pkt = packetBytes s pkt :=
    fun q pkt hq => (h.sound q pkt hq).frame h.ledger rfl fun r hbuf => hsame q pkt r hq hbuf
  refine ⟨⟨hledger, fun q pkt hq => (hkept q pkt hq).1, h.exclusive⟩, ?_⟩
  funext q
  rw [values, values]
  cases hq : s.packets.load q with
  | none => rfl
  | some pkt => exact (hkept q pkt hq).2

end

/-! ## New buffers -/

section

variable {s : State Arg Free} {m : Buffer.State Arg Free} {pkt : AVPacket} {q : Nat}
variable {ref : AVBufferRef}

theorem ne_of_fresh {r : Nat} (hlive : Live m r) (hfresh : m.refs.load q = none) : r ≠ q := by
  rintro rfl
  rw [Live, hfresh] at hlive
  exact absurd hlive (by simp)

variable {r : Buffer.Result Arg Free}

theorem fillBuf_spec (hledger : Ledger r.state none) (href : r.ref = some q)
    (hq : r.state.refs.load q = some ref) (hwritable : avBufferIsWritable r.state q = some true)
    {pos : Nat} {src : Bytes} (hin : (pos + src.length : Int) ≤ ref.size) :
    ∃ r', fillBuf r pos src = some r' ∧ r'.ret = r.ret ∧ r'.ref = r.ref ∧
      Ledger r'.state none ∧ r'.state.refs = r.state.refs ∧
      avBufferIsWritable r'.state q = some true ∧
      (∀ p, Live r.state p → p ≠ q → Same r.state r'.state p) ∧
      ∃ old, view r.state q = some old ∧ view r'.state q = some (overwrite old pos src) := by
  obtain ⟨blocks, hblocks, hledger', hsame, hview⟩ := hledger.write hq hwritable hin
  refine ⟨{ r with state := { r.state with blocks := blocks } }, ?_, rfl, rfl, hledger', rfl,
    hwritable, hsame, hview⟩
  rw [fillBuf, href, Option.bind_some, hq, Option.bind_some, hblocks, Option.map_some]

/-- What a function does that makes a buffer for data of some size: it fails and changes nothing
that is shown, or there is a new reference, with room for the padding. -/
structure Provides (m : Buffer.State Arg Free) (size : Int) (P : Bytes → Prop)
    (r : Buffer.Result Arg Free) : Prop where
  ledger : Ledger r.state none
  same : ∀ p, Live m p → Same m r.state p
  outcome : r.ret < 0 ∨ (r.ret = 0 ∧ 0 ≤ size ∧ size + avInputBufferPaddingSize ≤ intMax ∧
    ∃ q ref bytes, r.ref = some q ∧ m.refs.load q = none ∧ r.state.refs.load q = some ref ∧
      ref.offset = 0 ∧ ref.size = size + avInputBufferPaddingSize ∧
      avBufferIsWritable r.state q = some true ∧ view r.state q = some bytes ∧
      P (bytes.take size.toNat))

variable {size : Int}

theorem isWritable_of_creates {r : Buffer.State Arg Free × Option Nat} {data : Nat}
    (h : Creates m r data size false) (hq : r.2 = some q) :
    m.refs.load q = none ∧ (∃ ref, r.1.refs.load q = some ref ∧ ref.offset = 0 ∧
      ref.size = size) ∧ avBufferIsWritable r.1 q = some true := by
  obtain ⟨hfresh, hload, buf, hbuf, -, -, hone, hreadonly⟩ := h.fresh q hq
  refine ⟨hfresh, ⟨_, hload, rfl, rfl⟩, ?_⟩
  rw [avBufferIsWritable, hload, Option.bind_some, hbuf, Option.map_some, hone, hreadonly]
  rfl

theorem view_isSome (h : Ledger m none) (hq : m.refs.load q = some ref) :
    ∃ bytes, view m q = some bytes ∧ bytes.length = ref.size.toNat := by
  obtain ⟨block, -, hroom, hview⟩ := h.shown hq
  exact ⟨_, hview, by rw [length_slice]; lia⟩

variable {P : Bytes → Prop}

theorem Provides.imp {Q : Bytes → Prop} (h : Provides m size P r)
    (himp : ∀ bytes, bytes.length = size.toNat → P bytes → Q bytes) :
    Provides m size Q r := by
  refine ⟨h.ledger, h.same, ?_⟩
  rcases h.outcome with hneg | ⟨hzero, hnonneg, hroom, q, ref, bytes, href, hfresh, hq, hoffset,
    hsize, hwritable, hview, hP⟩
  · exact .inl hneg
  · obtain ⟨bytes', hview', hlength⟩ := view_isSome h.ledger hq
    cases hview.symm.trans hview'
    exact .inr ⟨hzero, hnonneg, hroom, q, ref, bytes, href, hfresh, hq, hoffset, hsize, hwritable,
      hview, himp _ (by rw [List.length_take]; lia) hP⟩

theorem provides_of_creates {new : Buffer.State Arg Free × Option Nat} {data : Nat}
    (h : Creates m new data (size + avInputBufferPaddingSize) false) (hnonneg : 0 ≤ size)
    (hroom : size + avInputBufferPaddingSize ≤ intMax) :
    Provides m size (fun _ => True) (returned new) := by
  refine ⟨h.ledger, h.same, ?_⟩
  cases hnew : new.2 with
  | none =>
    rw [returned, hnew]
    exact .inl (show AVERROR.enomem.toInt < 0 by decide)
  | some q =>
    obtain ⟨hfresh, ⟨ref, hq, hoffset, hsize⟩, hwritable⟩ := isWritable_of_creates h hnew
    obtain ⟨bytes, hview, -⟩ := view_isSome h.ledger hq
    refine .inr ⟨by rw [returned, hnew]; rfl, hnonneg, hroom, q, ref, bytes, hnew, hfresh, hq,
      hoffset, hsize, hwritable, hview, trivial⟩

theorem Provides.fill (h : Provides m size P r) (hret : ¬r.ret < 0) (pos : Nat) (src : Bytes)
    (hin : (pos + src.length : Int) ≤ size + avInputBufferPaddingSize) :
    ∃ r', fillBuf r pos src = some r' ∧ r'.ret = 0 ∧
      Provides m size (fun bytes => ∃ old, bytes = (overwrite old pos src).take size.toNat) r' := by
  rcases h.outcome with hneg | ⟨hzero, hnonneg, hroom, q, ref, bytes, href, hfresh, hq, hoffset,
    hsize, hwritable, hview, -⟩
  · exact absurd hneg hret
  · obtain ⟨r', hfill, hret', href', hledger', hrefs, hwritable', hsame, old, hold, hview'⟩ :=
      fillBuf_spec h.ledger href hq hwritable (hsize.symm ▸ hin)
    refine ⟨r', hfill, hret'.trans hzero, ⟨hledger', fun p hlive => ?_, .inr ⟨hret'.trans hzero,
      hnonneg, hroom, q, ref, _, href'.trans href, hfresh, by rw [hrefs]; exact hq, hoffset, hsize,
      hwritable', hview', old, rfl⟩⟩⟩
    have hsame' := h.same p hlive
    exact hsame'.trans (hsame p (hsame'.live hlive) (ne_of_fresh hlive hfresh))

theorem Provides.fillFront (h : Provides m size P r) (hret : ¬r.ret < 0) (src : Bytes)
    (hsrc : src.length ≤ size.toNat) :
    ∃ r', fillBuf r 0 src = some r' ∧ r'.ret = 0 ∧
      Provides m size (fun bytes => bytes.take src.length = src) r' := by
  have hnonneg : 0 ≤ size := by
    rcases h.outcome with hneg | ⟨-, hnonneg, -⟩
    · exact absurd hneg hret
    · exact hnonneg
  obtain ⟨r', hfill, hret', hprovides⟩ := h.fill hret 0 src (by lia)
  refine ⟨r', hfill, hret', hprovides.imp fun bytes _ hbytes => ?_⟩
  obtain ⟨old, rfl⟩ := hbytes
  rw [List.take_take, Nat.min_eq_left hsrc, take_overwrite_front]

theorem packetAlloc_spec (h : Ledger m none) (memory : Memory) (size : Int) :
    ∃ r, packetAlloc m memory none size = some r ∧ Provides m size (fun _ => True) r := by
  rw [packetAlloc]
  split_ifs with hbad
  · exact ⟨_, rfl, ⟨h, fun p _ => Same.refl m p, .inl (show AVERROR.einval.toInt < 0 by decide)⟩⟩
  · have hpadding : avInputBufferPaddingSize = 64 := rfl
    have hmax : intMax = 2 ^ 31 - 1 := rfl
    have hcreates := h.avBufferReallocNull memory
      (show IsInt (size + avInputBufferPaddingSize) from ⟨by lia, by lia⟩)
    have hprovides := provides_of_creates hcreates (by lia) (by lia)
    rw [avBufferRealloc, Option.bind_some]
    split_ifs with hret
    · exact ⟨_, rfl, hprovides⟩
    · obtain ⟨r', hfill, -, hfilled⟩ := hprovides.fill hret size.toNat padding
        (by rw [padding, List.length_replicate]; lia)
      exact ⟨r', hfill, hfilled.imp fun _ _ _ => trivial⟩

theorem allocCopy_spec (h : Ledger s.mem none) (memory : Memory) {bytes : Bytes}
    (hlength : bytes.length = pkt.size.toNat)
    (hread : ∀ m, (∀ p, Live s.mem p → Same s.mem m p) → Ledger m none →
      packetBytes { s with mem := m } pkt = some bytes) :
    ∃ r, allocCopy s memory pkt = some r ∧
      Provides s.mem pkt.size (fun copy => copy = bytes) r := by
  obtain ⟨r, halloc, hprovides⟩ := packetAlloc_spec h memory pkt.size
  rw [allocCopy, halloc, Option.bind_some]
  split_ifs with hret
  · exact ⟨r, rfl, ⟨hprovides.ledger, hprovides.same, .inl hret⟩⟩
  · obtain ⟨r', hfill, -, hfilled⟩ := hprovides.fillFront hret bytes hlength.le
    rw [hread r.state hprovides.same hprovides.ledger, Option.bind_some]
    refine ⟨r', hfill, hfilled.imp fun copy hcopy htake => ?_⟩
    rwa [List.take_of_length_le (by lia)] at htake

theorem Provides.sound (h : Provides s.mem size P r) (hret : ¬r.ret < 0) (new : AVPacket)
    (hsize : new.size = size) (hside : Whole new.sideData) :
    ∃ q data bytes, r.ref = some q ∧ s.mem.refs.load q = none ∧ bufData r.state r.ref = some data ∧
      Sound { s with mem := r.state } { new with buf := r.ref, data := some data } ∧
      packetBytes { s with mem := r.state } { new with buf := r.ref, data := some data } =
        some bytes ∧
      bytes.length = size.toNat ∧ P bytes := by
  rcases h.outcome with hneg | ⟨hzero, hnonneg, hroom, q, ref, bytes, href, hfresh, hq, hoffset,
    hrefSize, hwritable, hview, hP⟩
  · exact absurd hneg hret
  · have hpadding : avInputBufferPaddingSize = 64 := rfl
    obtain ⟨bytes', hview', hlength⟩ := view_isSome h.ledger hq
    cases hview.symm.trans hview'
    have hbytes : packetBytes { s with mem := r.state }
        { new with buf := r.ref, data := some (.block ref.data ref.offset) } =
        some (bytes.take size.toNat) := by
      rw [packetBytes_view (r := q) hq hview rfl le_rfl (by rw [hsize]; exact hnonneg)
        (by rw [hsize]; lia), Nat.sub_self, hsize, slice, List.drop_zero]
    refine ⟨q, .block ref.data ref.offset, bytes.take size.toNat, href, hfresh, ?_, ?_, hbytes, ?_,
      hP⟩
    · rw [bufData, href, Option.bind_some, hq, Option.map_some]
    · exact ⟨by rw [hsize]; exact hnonneg, by rw [hsize]; exact hroom,
        .buffer href hq rfl le_rfl (by rw [hsize]; lia), hside⟩
    · rw [List.length_take]
      lia

end

end FFmpeg.Libavcodec.Packet
