import FFmpeg.Libavcodec.PacketValues

/-!
# Packets are made, reset and resized

A new buffer takes the place of what a packet had.  When a packet is resized, the zeros behind its
data change the byte string of nobody who does not show them: in a writable buffer there is nobody.
-/

namespace FFmpeg.Libavcodec.Packet

open Common Libavutil Buffer BufferValues
open PacketSideData (AVPacketSideData avPktDataNb avInputBufferPaddingSize)

variable {Arg Free : Type}

/-! ## The operations -/

section

variable {s : State Arg Free} {m : Buffer.State Arg Free} {p : Nat} {pkt : AVPacket}

variable {P : Bytes → Prop} {r : Buffer.Result Arg Free}

theorem Valid.provide (h : Valid s) {size : Int} (hprovides : Provides s.mem size P r)
    (hret : ¬r.ret < 0) {old : AVPacket} (hp : s.packets.load p = some old) (new : AVPacket)
    (hsize : new.size = size) (hside : Whole new.sideData) :
    ∃ data bytes, bufData r.state r.ref = some data ∧
      Valid { s with
        mem := r.state
        packets := s.packets.store p { new with buf := r.ref, data := some data } } ∧
      values { s with
        mem := r.state
        packets := s.packets.store p { new with buf := r.ref, data := some data } } =
          Function.update (values s) p (some bytes) ∧
      bytes.length = size.toNat ∧ P bytes := by
  obtain ⟨q, data, bytes, href, hfresh, hdata, hsound, hbytes, hlength, hP⟩ :=
    hprovides.sound hret new hsize hside
  obtain ⟨hvalid, hvalues⟩ := h.setPacket hp hprovides.ledger
    (fun q' pkt' r' _ hq' hbuf => hprovides.same r' ((h.sound q' pkt' hq').live hbuf)) hsound
    fun q' pkt' r' _ hq' hbuf heq => ne_of_fresh ((h.sound q' pkt' hq').live hbuf) hfresh
      (Option.some.inj (heq.symm.trans href))
  exact ⟨data, bytes, hdata, hvalid, hvalues.trans (congrArg _ hbytes), hlength, hP⟩

theorem Valid.provideFails (h : Valid s) {size : Int} (hprovides : Provides s.mem size P r) :
    Valid { s with mem := r.state } ∧ values { s with mem := r.state } = values s :=
  h.mem hprovides.ledger fun q pkt r hq hbuf => hprovides.same r ((h.sound q pkt hq).live hbuf)

theorem Valid.new (h : Valid s) (hp : s.packets.load p = some pkt) (memory : Memory) (size : Int) :
    ∃ r, avNewPacket s memory p size = some r ∧ Valid r.state ∧ Meets s (.new memory p size) r := by
  obtain ⟨r, halloc, hprovides⟩ := packetAlloc_spec h.ledger memory size
  rw [avNewPacket, hp, Option.bind_some, halloc, Option.bind_some]
  split_ifs with hret
  · obtain ⟨hvalid, hvalues⟩ := h.provideFails hprovides
    exact ⟨_, rfl, hvalid, ⟨.inr ⟨hret, hvalues⟩, fun _ _ _ => rfl, nofun⟩⟩
  · obtain ⟨data, bytes, hdata, hvalid, hvalues, hlength, -⟩ := h.provide hprovides hret hp
      { avInitPacket pkt with size := size } rfl (fun _ hsd => absurd hsd List.not_mem_nil)
    have hnonneg : 0 ≤ size := by
      rcases hprovides.outcome with hneg | ⟨-, hnonneg, -⟩
      · exact absurd hneg hret
      · exact hnonneg
    rw [hdata, Option.map_some]
    exact ⟨_, rfl, hvalid, ⟨.inl ⟨rfl, bytes, by lia, hvalues⟩,
      fun hneg => absurd hneg (lt_irrefl 0), nofun⟩⟩

theorem Valid.unref (h : Valid s) (hp : s.packets.load p = some pkt) :
    ∃ m, avPacketUnref s p =
        some { s with mem := m, packets := s.packets.store p (resetPacket pkt) } ∧
      Valid { s with mem := m, packets := s.packets.store p (resetPacket pkt) } ∧
      values { s with mem := m, packets := s.packets.store p (resetPacket pkt) } =
        Function.update (values s) p (some []) := by
  obtain ⟨m, hm, hledger, hothers⟩ : ∃ m, unrefBuf s.mem pkt.buf = some m ∧ Ledger m none ∧
      ∀ q pkt' r, q ≠ p → s.packets.load q = some pkt' → pkt'.buf = some r → Same s.mem m r := by
    cases hbuf : pkt.buf with
    | none => exact ⟨s.mem, rfl, h.ledger, fun _ _ r _ _ _ => Same.refl s.mem r⟩
    | some r =>
      obtain ⟨ref, href⟩ := live_iff.mp ((h.sound p pkt hp).live hbuf)
      obtain ⟨m, hunref, hledger, -, hothers⟩ := h.ledger.avBufferUnref href
      exact ⟨m, hunref, hledger, fun q pkt' r' hqp hq hbuf' =>
        hothers r' ((h.sound q pkt' hq).live hbuf') (h.buf_ne hp hbuf hqp hq hbuf')⟩
  refine ⟨m, by rw [avPacketUnref, hp, Option.bind_some, hm, Option.map_some], ?_⟩
  exact h.setPacket hp hledger hothers (sound_resetPacket _ pkt) (fun _ _ _ _ _ _ => nofun)

theorem avPacketUnref_of_none (hp : s.packets.load p = some pkt) (hbuf : pkt.buf = none) :
    avPacketUnref s p = some { s with packets := s.packets.store p (resetPacket pkt) } := by
  rw [avPacketUnref, hp, Option.bind_some, hbuf]
  rfl

theorem Valid.allocCopy (h : Valid s) (hp : s.packets.load p = some pkt) (memory : Memory) :
    ∃ r bytes, allocCopy s memory pkt = some r ∧ packetBytes s pkt = some bytes ∧
      Provides s.mem pkt.size (fun copy => copy = bytes) r := by
  have hsound := h.sound p pkt hp
  obtain ⟨bytes, hbytes, hlength⟩ := hsound.bytes h.ledger
  obtain ⟨r, hcopy, hprovides⟩ := allocCopy_spec h.ledger memory hlength fun m hsame _ =>
    ((hsound.frame (t := { s with mem := m }) h.ledger rfl fun r hbuf =>
      hsame r (hsound.live hbuf)).2).trans hbytes
  exact ⟨r, bytes, hcopy, hbytes, hprovides⟩

theorem values_eq (hp : s.packets.load p = some pkt) : values s p = packetBytes s pkt := by
  rw [values, hp, Option.bind_some]

theorem Valid.makeRefcounted (h : Valid s) (hp : s.packets.load p = some pkt) (memory : Memory) :
    ∃ r, avPacketMakeRefcounted s memory p = some r ∧ Valid r.state ∧
      Meets s (.makeRefcounted memory p) r := by
  rw [avPacketMakeRefcounted, hp, Option.bind_some]
  split_ifs with hbuf
  · exact ⟨_, rfl, h, ⟨⟨.inl rfl, rfl⟩, fun _ _ _ => rfl, nofun⟩⟩
  · obtain ⟨r, bytes, hcopy, hbytes, hprovides⟩ := h.allocCopy hp memory
    rw [hcopy, Option.bind_some]
    split_ifs with hret
    · obtain ⟨hvalid, hvalues⟩ := h.provideFails hprovides
      exact ⟨_, rfl, hvalid, ⟨⟨.inr hret, hvalues⟩, fun _ _ _ => rfl, nofun⟩⟩
    · obtain ⟨data, bytes', hdata, hvalid, hvalues, -, rfl⟩ := h.provide hprovides hret hp
        pkt rfl (h.sound p pkt hp).sideData
      rw [hdata, Option.map_some]
      refine ⟨_, rfl, hvalid, ⟨⟨.inl rfl, hvalues.trans ?_⟩, fun hneg => absurd hneg (lt_irrefl 0),
        nofun⟩⟩
      rw [← hbytes, ← values_eq hp, Function.update_eq_self]

end

/-! ## Zeros behind the data -/

section

variable {s : State Arg Free} {p : Nat} {pkt : AVPacket}

theorem length_padding : padding.length = avInputBufferPaddingSize := List.length_replicate

variable {ref : AVBufferRef}

/-- Zeros that nobody shows change nothing that is shown. -/
theorem Valid.clearBlock (h : Valid s) {r offset : Nat} {pos : Int}
    (href : s.mem.refs.load r = some ref) (hlow : 0 ≤ offset + pos)
    (hin : offset + pos + avInputBufferPaddingSize ≤ ref.offset + ref.size)
    (hapart : ∀ q pkt, s.packets.load q = some pkt → Apart (.block ref.data offset) pos pkt) :
    ∃ t, clearPadding s (some (.block ref.data offset)) pos = some t ∧ Valid t ∧
      values t = values s ∧ t.packets = s.packets := by
  obtain ⟨block, hblock, hroom, -⟩ := h.ledger.shown href
  obtain ⟨buf, hbuf, hinside⟩ := h.ledger.refs r ref href
  obtain ⟨hnonneg, -, block', hblock', hle⟩ := h.ledger.block ref.buffer buf hbuf
  rw [← hinside.data, hblock] at hblock'
  cases hblock'
  have hend := hinside.inside
  have hlength := length_padding
  have hsize := hinside.size
  have hwrite := writeAt_eq hblock
    (show (offset + pos).toNat + padding.length ≤ block.length by lia)
  have hledger := h.ledger.storeBlock hblock
    (length_overwrite_of_le (show (offset + pos).toNat + padding.length ≤ block.length by lia))
  refine ⟨{ s with mem := { s.mem with blocks := _ } }, ?_, ⟨hledger, fun q pkt hq => ?_,
    h.exclusive⟩, ?_, rfl⟩
  · rw [clearPadding, if_neg (by lia), hwrite, Option.map_some]
  · have hsound := h.sound q pkt hq
    refine ⟨hsound.nonneg, hsound.room, ?_, hsound.sideData⟩
    rcases hsound.backed with ⟨hbuf, hdata, hsize⟩ | ⟨hbuf, hdata, hblock, hin⟩ |
      ⟨hbuf, href, hdata, hlow, hin⟩
    · exact .blank hbuf hdata hsize
    · exact .outer hbuf hdata hblock hin
    · exact .buffer hbuf href hdata hlow hin
  · funext q
    rw [values, values]
    cases hq : s.packets.load q with
    | none => rfl
    | some pkt =>
      have hnone := hapart q pkt hq
      have hpkt := (h.sound q pkt hq).nonneg
      rw [Option.bind_some, Option.bind_some, packetBytes, packetBytes]
      unfold Apart at hnone
      cases hdata : pkt.data with
      | none => rfl
      | some place =>
        cases place with
        | outer d offset' => rfl
        | block d offset' =>
          rw [hdata] at hnone
          exact readAt_writeAt hwrite (by dsimp only at hnone; lia)

/-- The same in memory of the caller. -/
theorem Valid.clearOuter (h : Valid s) {d offset : Nat} {block : Bytes} {pos : Int}
    (hblock : s.outer.load d = some block) (hlow : 0 ≤ offset + pos)
    (hin : offset + pos + avInputBufferPaddingSize ≤ block.length)
    (hapart : ∀ q pkt, s.packets.load q = some pkt → Apart (.outer d offset) pos pkt) :
    ∃ t, clearPadding s (some (.outer d offset)) pos = some t ∧ Valid t ∧ values t = values s ∧
      t.packets = s.packets := by
  have hlength := length_padding
  have hfits : (offset + pos).toNat + padding.length ≤ block.length := by lia
  have hwrite := writeAt_eq hblock hfits
  refine ⟨{ s with
    outer := s.outer.store d (overwrite block (offset + pos).toNat padding) }, ?_,
    ⟨h.ledger, fun q pkt hq => ?_, h.exclusive⟩, ?_, rfl⟩
  · rw [clearPadding, if_neg (by lia), hwrite, Option.map_some]
  · have hsound := h.sound q pkt hq
    refine ⟨hsound.nonneg, hsound.room, ?_, hsound.sideData⟩
    rcases hsound.backed with ⟨hbuf, hdata, hsize⟩ |
      @⟨d', offset', block', hbuf, hdata, hblock', hin⟩ | ⟨hbuf, href, hdata, hlow, hin⟩
    · exact .blank hbuf hdata hsize
    · by_cases hd : d' = d
      · subst hd
        cases hblock.symm.trans hblock'
        exact .outer hbuf hdata (Cells.load_store_self hblock _)
          (by rw [length_overwrite_of_le hfits]; exact hin)
      · exact .outer hbuf hdata ((Cells.load_store_of_ne _ _ hd).trans hblock') hin
    · exact .buffer hbuf href hdata hlow hin
  · funext q
    rw [values, values]
    cases hq : s.packets.load q with
    | none => rfl
    | some pkt =>
      have hnone := hapart q pkt hq
      have hpkt := (h.sound q pkt hq).nonneg
      rw [Option.bind_some, Option.bind_some, packetBytes, packetBytes]
      unfold Apart at hnone
      cases hdata : pkt.data with
      | none => rfl
      | some place =>
        cases place with
        | block d' offset' => rfl
        | outer d' offset' =>
          rw [hdata] at hnone
          exact readAt_writeAt hwrite (by dsimp only at hnone; lia)

theorem Valid.apart_of_writable (h : Valid s) (hp : s.packets.load p = some pkt) {r : Nat}
    (hbuf : pkt.buf = some r) (href : s.mem.refs.load r = some ref)
    (hwritable : avBufferIsWritable s.mem r = some true) (offset : Nat) (pos : Int) :
    ∀ q pkt', q ≠ p → s.packets.load q = some pkt' → Apart (.block ref.data offset) pos pkt' := by
  intro q pkt' hqp hq
  unfold Apart
  rcases (h.sound q pkt' hq).backed with ⟨-, hdata, -⟩ | ⟨-, hdata, -, -⟩ |
    @⟨r', offset', ref', hbuf', href', hdata, -, -⟩
  · rw [hdata]
    trivial
  · rw [hdata]
    trivial
  · rw [hdata]
    refine .inl fun hsame => hqp ?_
    obtain ⟨buf, hload, hin⟩ := h.ledger.refs r ref href
    obtain ⟨buf', hload', hin'⟩ := h.ledger.refs r' ref' href'
    have hbuffer := h.ledger.exclusive _ _ buf' buf hload' hload
      (by rw [← hin.data, ← hin'.data, hsame])
    have hone := h.ledger.eq_of_writable href hwritable href' hbuffer
    exact h.exclusive q p pkt' pkt r hq hp (hone ▸ hbuf') hbuf

/-- The padding of a packet with a buffer is zeroed. -/
theorem Valid.clearEnd (h : Valid s) (hp : s.packets.load p = some pkt) {r : Nat}
    (hbuf : pkt.buf = some r)
    (hapart : avBufferIsWritable s.mem r = some true ∨ ∀ place q pkt', pkt.data = some place →
      q ≠ p → s.packets.load q = some pkt' → Apart place pkt.size pkt') :
    ∃ t, clearPadding s pkt.data pkt.size = some t ∧ Valid t ∧ values t = values s ∧
      t.packets = s.packets := by
  have hsound := h.sound p pkt hp
  have hnonneg := hsound.nonneg
  rcases hsound.backed with ⟨hnone, -, -⟩ | ⟨hnone, -, -, -⟩ |
    @⟨r', offset, ref, hsome, href, hdata, hlow, hin⟩
  · rw [hnone] at hbuf
    cases hbuf
  · rw [hnone] at hbuf
    cases hbuf
  · cases hbuf.symm.trans hsome
    rw [hdata]
    refine h.clearBlock href (by lia) hin fun q pkt' hq => ?_
    by_cases hqp : q = p
    · -- the data of the packet ends where the zeros begin
      rw [hqp, hp] at hq
      obtain rfl := Option.some.inj hq
      unfold Apart
      rw [hdata]
      exact .inr (.inl le_rfl)
    · rcases hapart with hwritable | hapart
      · exact h.apart_of_writable hp hbuf href hwritable offset pkt.size q pkt' hqp hq
      · exact hapart _ q pkt' hdata hqp hq

theorem packetBytes_take (small : AVPacket) {bytes : Bytes}
    (hbytes : packetBytes s pkt = some bytes) (hdata : small.data = pkt.data)
    (hle : small.size ≤ pkt.size) :
    packetBytes s small = some (bytes.take small.size.toNat) := by
  unfold packetBytes readPlace at hbytes ⊢
  rw [hdata]
  cases hplace : pkt.data with
  | none =>
    rw [hplace] at hbytes
    dsimp only at hbytes ⊢
    split_ifs at hbytes with hzero
    rw [if_pos (by lia), ← Option.some.inj hbytes, List.take_nil]
  | some place =>
    rw [hplace] at hbytes
    cases place with
    | block d offset =>
      have hpart := readAt_part (i := 0) (k := small.size.toNat) hbytes (by lia)
      rwa [Nat.add_zero, slice, List.drop_zero] at hpart
    | outer d offset =>
      have hpart := readAt_part (i := 0) (k := small.size.toNat) hbytes (by lia)
      rwa [Nat.add_zero, slice, List.drop_zero] at hpart

end

/-! ## Resizing -/

section

variable {s : State Arg Free} {m : Buffer.State Arg Free} {p : Nat} {pkt : AVPacket}

theorem Valid.setSame (h : Valid s) (hp : s.packets.load p = some pkt) (new : AVPacket)
    (hnew : Sound s new)
    (hfresh : ∀ q pkt' r, q ≠ p → s.packets.load q = some pkt' → pkt'.buf = some r →
      new.buf ≠ some r) :
    Valid { s with packets := s.packets.store p new } ∧
      values { s with packets := s.packets.store p new } =
        Function.update (values s) p (packetBytes s new) :=
  h.setPacket hp h.ledger (fun _ _ r _ _ _ => Same.refl s.mem r) hnew hfresh

theorem Valid.buf_fresh (h : Valid s) (hp : s.packets.load p = some pkt) {new : AVPacket}
    (hnew : new.buf = pkt.buf) :
    ∀ q pkt' r, q ≠ p → s.packets.load q = some pkt' → pkt'.buf = some r → new.buf ≠ some r :=
  fun q pkt' r hqp hq hbuf' hbuf =>
    hqp (h.exclusive q p pkt' pkt r hq hp hbuf' (hnew.symm.trans hbuf))

theorem Valid.shrink (h : Valid s) (hp : s.packets.load p = some pkt) {size : Int}
    (hfine : Fine s (.shrink p size)) :
    ∃ t, avShrinkPacket s p size = some t ∧ Valid t ∧ Meets s (.shrink p size) ⟨t, none, 0⟩ := by
  have hsound := h.sound p pkt hp
  have hnonneg := hsound.nonneg
  obtain ⟨bytes, hbytes, hlength⟩ := hsound.bytes h.ledger
  rw [avShrinkPacket, hp, Option.bind_some]
  split_ifs with hsmall
  · refine ⟨s, rfl, h, ⟨?_, fun hneg => absurd hneg (lt_irrefl 0), nofun⟩⟩
    show values s = Function.update (values s) p ((values s p).map (List.take size.toNat))
    rw [values_eq hp, hbytes, Option.map_some, List.take_of_length_le (by lia), ← hbytes,
      ← values_eq hp, Function.update_eq_self]
  · have hclear := hfine pkt hp (by lia)
    have hpos := hclear.nonneg
    have hroom := hsound.room
    obtain ⟨new, hnewEq⟩ : ∃ new, new = { pkt with size := size } := ⟨_, rfl⟩
    have hnewBuf : new.buf = pkt.buf := by rw [hnewEq]
    have hnewData : new.data = pkt.data := by rw [hnewEq]
    have hnewSize : new.size = size := by rw [hnewEq]
    have hnew : Sound s new := by
      refine ⟨by lia, by lia, ?_, by rw [hnewEq]; exact hsound.sideData⟩
      rcases hsound.backed with ⟨hbuf, hdata, hzero⟩ | ⟨hbuf, hdata, hblock, hin⟩ |
        ⟨hbuf, href, hdata, hlow, hin⟩
      · lia
      · exact .outer (hnewBuf.trans hbuf) (hnewData.trans hdata) hblock (by lia)
      · exact .buffer (hnewBuf.trans hbuf) href (hnewData.trans hdata) hlow (by lia)
    obtain ⟨hvalid, hvalues⟩ := h.setSame hp new hnew (h.buf_fresh hp hnewBuf)
    have hp' := Cells.load_store_self hp new
    -- nobody else shows the zeros, and the packet ends in front of them
    have hapart : ∀ place, pkt.data = some place → ∀ q pkt',
        (s.packets.store p new).load q = some pkt' → Apart place size pkt' := by
      intro place hplace q pkt' hq
      by_cases hqp : q = p
      · rw [hqp, hp'] at hq
        obtain rfl := Option.some.inj hq
        unfold Apart
        rw [hnewData, hplace, hnewSize]
        cases place with
        | block d offset => exact .inr (.inl le_rfl)
        | outer d offset => exact .inr (.inl le_rfl)
      · rw [Cells.load_store_of_ne _ _ hqp] at hq
        exact hclear.apart place q pkt' hplace hqp hq
    have hcleared : ∃ t,
        clearPadding { s with packets := s.packets.store p new } pkt.data size = some t ∧ Valid t ∧
        values t = values { s with packets := s.packets.store p new } ∧
        t.packets = s.packets.store p new := by
      rcases hsound.backed with ⟨hbuf, hdata, hzero⟩ | ⟨hbuf, hdata, hblock, hin⟩ |
        ⟨hbuf, href, hdata, hlow, hin⟩
      · lia
      · rw [hdata]
        exact hvalid.clearOuter hblock (by lia) (hclear.inside _ _ _ hdata hblock)
          (hapart _ hdata)
      · rw [hdata]
        exact hvalid.clearBlock href (by lia) (by lia) (hapart _ hdata)
    obtain ⟨t, hclear', hvalid', hvalues', -⟩ := hcleared
    rw [← hnewEq]
    refine ⟨t, hclear', hvalid', ⟨?_, fun hneg => absurd hneg (lt_irrefl 0), nofun⟩⟩
    show values t = Function.update (values s) p ((values s p).map (List.take size.toNat))
    rw [hvalues', hvalues, packetBytes_take new hbytes hnewData (by lia), values_eq hp, hbytes,
      Option.map_some, hnewSize]

theorem growEnd_spec {growBy : Int}
    (h : Valid { s with packets := s.packets.store p { pkt with size := pkt.size + growBy } })
    {old : AVPacket} (hp : s.packets.load p = some old) {r : Nat} (hbuf : pkt.buf = some r)
    (hapart : avBufferIsWritable s.mem r = some true ∨ ∀ place q pkt', pkt.data = some place →
      q ≠ p → s.packets.load q = some pkt' → Apart place (pkt.size + growBy) pkt') :
    ∃ t, growEnd s p pkt growBy = some ⟨t, none, 0⟩ ∧ Valid t ∧
      values t =
        values { s with packets := s.packets.store p { pkt with size := pkt.size + growBy } } := by
  have hp' := Cells.load_store_self hp { pkt with size := pkt.size + growBy }
  obtain ⟨t, hclear, hvalid, hvalues, -⟩ := h.clearEnd hp' hbuf (by
    refine hapart.imp_right fun hothers place q pkt' hplace hqp hq => ?_
    rw [Cells.load_store_of_ne _ _ hqp] at hq
    exact hothers place q pkt' hplace hqp hq)
  exact ⟨t, by rw [growEnd, hclear, Option.map_some], hvalid, hvalues⟩

theorem Acts.grown {v v' : Values} {memory : Memory} {growBy : Int} {old new : Bytes}
    (hold : v p = some old) (hnew : new.take old.length = old)
    (hlength : (new.length : Int) = old.length + growBy)
    (hv' : v' = Function.update v p (some new)) : Acts v (.grow memory p growBy) none 0 v' := by
  refine .inl ⟨rfl, old, new.drop old.length, hold, ?_, ?_⟩
  · rw [List.length_drop]
    have htake := congrArg List.length hnew
    rw [List.length_take] at htake
    lia
  · nth_rewrite 1 [← hnew]
    rw [List.take_append_drop]
    exact hv'

end

section

variable {s : State Arg Free} {m : Buffer.State Arg Free} {p r : Nat} {pkt : AVPacket}
variable {growBy : Int} {memory : Memory}

/-- A packet that has a buffer with room for what it grows by. -/
theorem Valid.grown (h : Valid s) (memory : Memory) (hp : s.packets.load p = some pkt)
    (into : AVPacket) (hledger : Ledger m none)
    (hsame : ∀ q pkt r, q ≠ p → s.packets.load q = some pkt → pkt.buf = some r → Same s.mem m r)
    (hbuf : into.buf = some r) (hsize : into.size = pkt.size) (hgrow : 0 ≤ growBy)
    (hnew : Sound { s with mem := m } { into with size := into.size + growBy })
    (hfresh : ∀ q pkt' r', q ≠ p → s.packets.load q = some pkt' → pkt'.buf = some r' →
      into.buf ≠ some r')
    {old : Bytes} (hold : packetBytes s pkt = some old)
    (hkept : packetBytes { s with mem := m } into = some old)
    (hapart : avBufferIsWritable m r = some true ∨ ∀ place q pkt', into.data = some place →
      q ≠ p → s.packets.load q = some pkt' → Apart place (into.size + growBy) pkt') :
    ∃ t, growEnd { s with mem := m } p into growBy = some ⟨t, none, 0⟩ ∧ Valid t ∧
      Meets s (.grow memory p growBy) ⟨t, none, 0⟩ := by
  obtain ⟨hvalid, hvalues⟩ := h.setPacket hp hledger hsame hnew hfresh
  obtain ⟨t, hend, hvalid', hvalues'⟩ :=
    growEnd_spec (s := { s with mem := m }) hvalid hp hbuf hapart
  refine ⟨t, hend, hvalid', ⟨?_, fun hneg => absurd hneg (lt_irrefl 0), nofun⟩⟩
  obtain ⟨bytes, hbytes, hlength⟩ := hnew.bytes hledger
  have hnonneg := (h.sound p pkt hp).nonneg
  have hprefix := packetBytes_take into hbytes rfl
    (show into.size ≤ into.size + growBy by lia)
  cases hkept.symm.trans hprefix
  have htake : (bytes.take into.size.toNat).length = into.size.toNat := by
    rw [List.length_take]
    dsimp only at hlength
    lia
  refine Acts.grown ((values_eq hp).trans hold) (by rw [htake]) ?_
    (hvalues'.trans (hvalues.trans (congrArg _ hbytes)))
  dsimp only at hlength
  lia

/-- A packet without a buffer gets one. -/
theorem Valid.growNew (h : Valid s) (hp : s.packets.load p = some pkt) (hbuf : pkt.buf = none)
    (hgrow : 0 ≤ growBy) (hmax : pkt.size + avInputBufferPaddingSize + growBy ≤ intMax) :
    ∃ res, growNew s memory p pkt growBy = some res ∧ Valid res.state ∧
      Meets s (.grow memory p growBy) res := by
  have hpadding : avInputBufferPaddingSize = 64 := rfl
  have hintMax : intMax = 2 ^ 31 - 1 := rfl
  have hsound := h.sound p pkt hp
  have hnonneg := hsound.nonneg
  obtain ⟨bytes, hbytes, hlength⟩ := hsound.bytes h.ledger
  have hprovides := provides_of_creates (h.ledger.avBufferAlloc memory
    (show IsInt (pkt.size + growBy + avInputBufferPaddingSize) from ⟨by lia, by lia⟩))
    (by lia) (by lia)
  rw [Packet.growNew]
  split_ifs with hnone
  · obtain ⟨hvalid, hvalues⟩ := h.provideFails hprovides
    exact ⟨_, rfl, hvalid, ⟨.inr ⟨show AVERROR.enomem.toInt < 0 by decide, hvalues⟩,
      fun _ _ _ => rfl, nofun⟩⟩
  · have hret : ¬(returned (avBufferAlloc s.mem memory
        (pkt.size + growBy + avInputBufferPaddingSize))).ret < 0 := by
      rw [returned, if_pos (Option.isSome_iff_ne_none.mpr hnone)]
      exact lt_irrefl 0
    have hread := (hsound.frame (t := { s with mem := (avBufferAlloc s.mem memory
      (pkt.size + growBy + avInputBufferPaddingSize)).1 }) h.ledger rfl fun r hsome => by
        rw [hbuf] at hsome
        cases hsome).2
    obtain ⟨r, hfill, hzero, hfilled⟩ := hprovides.fillFront hret bytes
      (show bytes.length ≤ (pkt.size + growBy).toNat by lia)
    have hret' : ¬r.ret < 0 := by lia
    obtain ⟨q, data, copy, href, hfresh, hdata, hnew, hcopy, hcopyLength, htake⟩ :=
      hfilled.sound hret' { pkt with size := pkt.size + growBy } rfl hsound.sideData
    rw [hread, hbytes, Option.bind_some, hfill, Option.bind_some, hdata, Option.bind_some]
    have hwritable : avBufferIsWritable r.state q = some true := by
      rcases hfilled.outcome with hneg | ⟨-, -, -, q', ref, -, href', -, -, -, -, hwritable, -, -⟩
      · exact absurd hneg hret'
      · cases href.symm.trans href'
        exact hwritable
    have hkept : packetBytes { s with mem := r.state }
        { pkt with buf := r.ref, data := some data } = some bytes := by
      rw [packetBytes_take { pkt with buf := r.ref, data := some data } hcopy rfl
        (show pkt.size ≤ pkt.size + growBy by lia), ← hlength, htake]
    obtain ⟨t, hend, hvalid, hmeets⟩ := h.grown memory hp
      { pkt with buf := r.ref, data := some data } hfilled.ledger
      (fun q pkt r _ hq hsome => hfilled.same r ((h.sound q pkt hq).live hsome)) href rfl hgrow hnew
      (fun q' pkt' r' _ hq' hsome heq => ne_of_fresh ((h.sound q' pkt' hq').live hsome) hfresh
        (Option.some.inj (heq.symm.trans href))) hbytes hkept (.inl hwritable)
    exact ⟨_, hend, hvalid, hmeets⟩

end

section

variable {s : State Arg Free} {p r : Nat} {pkt : AVPacket} {growBy : Int} {memory : Memory}

/-- The reference of a packet gets another buffer, with the bytes at the same offset. -/
theorem Valid.growReplaced (h : Valid s) (hp : s.packets.load p = some pkt)
    (hbuf : pkt.buf = some r) (hgrow : 0 ≤ growBy)
    (hmax : pkt.size + avInputBufferPaddingSize + growBy ≤ intMax) {ref : AVBufferRef}
    {offset : Nat} (href : s.mem.refs.load r = some ref)
    (hdata : pkt.data = some (.block ref.data (ref.offset + offset)))
    (hin : offset + pkt.size + avInputBufferPaddingSize ≤ ref.size)
    {new : Buffer.Result Arg Free}
    (hreplaces : Replaces s.mem r (pkt.size + growBy + avInputBufferPaddingSize + offset)
      (min (pkt.size + growBy + avInputBufferPaddingSize + offset) ref.size) new) :
    ∃ res, (if new.ret < 0 then some ⟨{ s with mem := new.state }, none, new.ret⟩
      else (bufData new.state new.ref).bind fun data => growEnd { s with mem := new.state } p
        { pkt with buf := new.ref, data := some (data.add offset) } growBy) = some res ∧
      Valid res.state ∧ Meets s (.grow memory p growBy) res := by
  have hpadding : avInputBufferPaddingSize = 64 := rfl
  have hsound := h.sound p pkt hp
  have hnonneg := hsound.nonneg
  have hrefEq := hreplaces.ref
  obtain ⟨old, hold, hlength⟩ := hsound.bytes h.ledger
  rcases hreplaces.outcome with ⟨herror, hsame⟩ | ⟨hzero, hnewWritable, old', new', hold', hnew',
    hnewLength, htake⟩
  · have hneg : new.ret < 0 := by
      rw [herror]
      decide
    rw [if_pos hneg]
    obtain ⟨hvalid, hvalues⟩ := h.mem hreplaces.ledger fun q pkt' r' hq hsome => by
      by_cases hrr : r' = r
      · rw [hrr]
        exact hsame
      · exact hreplaces.others r' ((h.sound q pkt' hq).live hsome) hrr
    exact ⟨_, rfl, hvalid, ⟨.inr ⟨hneg, hvalues⟩, fun _ _ _ => rfl, nofun⟩⟩
  · obtain ⟨ref', href'⟩ : ∃ ref', new.state.refs.load r = some ref' := by
      rw [view] at hnew'
      obtain ⟨ref', hload', -⟩ := Option.bind_eq_some_iff.mp hnew'
      exact ⟨ref', hload'⟩
    obtain ⟨buf', -, hinside'⟩ := hreplaces.ledger.refs r ref' href'
    have hnonneg' := hinside'.size
    have hsize' : ref'.size = pkt.size + growBy + avInputBufferPaddingSize + offset := by
      have hread := hnew'
      rw [view_eq href'] at hread
      have hlength' := readAt_length hread
      lia
    have hbufData : bufData new.state new.ref = some (.block ref'.data ref'.offset) := by
      rw [bufData, hrefEq, Option.bind_some, href', Option.map_some]
    rw [if_neg (by lia), hbufData, Option.bind_some, Place.add, hrefEq]
    obtain ⟨into, hinto⟩ : ∃ into, into = { pkt with
        buf := some r, data := some (.block ref'.data (ref'.offset + offset)) } := ⟨_, rfl⟩
    have hintoBuf : into.buf = some r := by rw [hinto]
    have hintoData : into.data = some (.block ref'.data (ref'.offset + offset)) := by rw [hinto]
    have hintoSize : into.size = pkt.size := by rw [hinto]
    have hnewSound : Sound { s with mem := new.state }
        { into with size := into.size + growBy } :=
      ⟨by show 0 ≤ into.size + growBy; lia, by show into.size + growBy + _ ≤ _; lia,
        .buffer hintoBuf href' hintoData (Nat.le_add_right _ _)
          (by show ((ref'.offset + offset : Nat) : Int) + (into.size + growBy) + _ ≤ _; lia),
        by rw [hinto]; exact hsound.sideData⟩
    -- the bytes of the packet are among those that have been copied
    have hkept : packetBytes { s with mem := new.state } into = some old := by
      have hbefore := packetBytes_view href hold' hdata (Nat.le_add_right _ _) hnonneg (by lia)
      have hafter := @packetBytes_view _ _ { s with mem := new.state } into r _ ref' _ href' hnew'
        hintoData (Nat.le_add_right _ _) (by lia) (by lia)
      have hpart (bytes : Bytes) (n : Nat) (hn : offset + pkt.size.toNat ≤ n) :
          slice bytes offset pkt.size.toNat = slice (bytes.take n) offset pkt.size.toNat := by
        have hslice := @slice_slice _ bytes 0 n offset pkt.size.toNat hn
        have hfront : slice bytes 0 n = bytes.take n := by rw [slice, List.drop_zero]
        rw [Nat.zero_add, hfront] at hslice
        exact hslice.symm
      have hn : offset + pkt.size.toNat ≤
          (min (pkt.size + growBy + avInputBufferPaddingSize + offset) ref.size).toNat := by lia
      rw [hafter, hintoSize, Nat.add_sub_cancel_left, hpart new' _ hn, htake, ← hpart old' _ hn,
        ← hold, hbefore, Nat.add_sub_cancel_left]
    rw [← hinto]
    obtain ⟨t, hend, hvalid, hmeets⟩ := h.grown memory hp into hreplaces.ledger
      (fun q pkt' r' hqp hq hsome' => hreplaces.others r' ((h.sound q pkt' hq).live hsome')
        (h.buf_ne hp hbuf hqp hq hsome'))
      hintoBuf hintoSize hgrow hnewSound (h.buf_fresh hp (hintoBuf.trans hbuf.symm)) hold hkept
      (.inl hnewWritable)
    exact ⟨_, hend, hvalid, hmeets⟩

/-- A packet that has a buffer uses it, or gets another one with the same bytes. -/
theorem Valid.growBuf (h : Valid s) (hp : s.packets.load p = some pkt) (hbuf : pkt.buf = some r)
    (hgrow : 0 ≤ growBy) (hmax : pkt.size + avInputBufferPaddingSize + growBy ≤ intMax)
    (hfine : Fine s (.grow memory p growBy)) :
    ∃ res, growBuf s memory p pkt growBy r = some res ∧ Valid res.state ∧
      Meets s (.grow memory p growBy) res := by
  have hpadding : avInputBufferPaddingSize = 64 := rfl
  have hintMax : intMax = 2 ^ 31 - 1 := rfl
  have hsound := h.sound p pkt hp
  have hnonneg := hsound.nonneg
  obtain ⟨old, hold, hlength⟩ := hsound.bytes h.ledger
  rcases hsound.backed with ⟨hnone, -, -⟩ | ⟨hnone, -, -, -⟩ |
    @⟨r', place, ref, hsome, href, hdata, hlow, hin⟩
  · rw [hnone] at hbuf
    cases hbuf
  · rw [hnone] at hbuf
    cases hbuf
  cases hbuf.symm.trans hsome
  obtain ⟨offset, rfl⟩ := Nat.exists_eq_add_of_le hlow
  obtain ⟨buf, hload, hinside, hwritable⟩ := h.ledger.isWritable_eq href
  obtain ⟨hbufNonneg, hbufSmall, -⟩ := h.ledger.block ref.buffer buf hload
  have hend := hinside.inside
  have hplace : dataOffset ref pkt.data = some (.block ref.data (ref.offset + offset), offset) := by
    have hoffset : sizeT (((ref.offset + offset : Nat) : Int) - ref.offset) = offset := by
      rw [sizeT]
      lia
    rw [hdata, dataOffset, if_pos rfl, hoffset]
  have hsameData : { pkt with data := some (.block ref.data (ref.offset + offset)) } = pkt := by
    rw [← hdata]
  have hothers : ∀ q pkt' r', q ≠ p → s.packets.load q = some pkt' → pkt'.buf = some r' →
      Same s.mem s.mem r' := fun _ _ r' _ _ _ => Same.refl s.mem r'
  -- what the packet needs when it grows where it is
  have hgrown : pkt.size + growBy + avInputBufferPaddingSize + offset ≤ ref.size →
      Sound s { pkt with size := pkt.size + growBy } := fun hfits =>
    ⟨by show 0 ≤ pkt.size + growBy; lia, by show pkt.size + growBy + _ ≤ _; lia,
      .buffer hbuf href hdata hlow
        (by show ((ref.offset + offset : Nat) : Int) + (pkt.size + growBy) + _ ≤ _; lia),
      hsound.sideData⟩
  rw [Packet.growBuf, href, Option.bind_some, hplace, Option.bind_some]
  split_ifs with hlarge
  · exact ⟨_, rfl, h, ⟨.inr ⟨show AVERROR.enomem.toInt < 0 by decide, rfl⟩, fun _ _ _ => rfl,
      fun _ _ h => by cases h⟩⟩
  have hsize : pkt.size + growBy + avInputBufferPaddingSize + offset ≤ intMax := by
    by_contra hover
    exact hlarge ⟨by rw [hdata]; exact Option.some_ne_none _, by dsimp only; lia⟩
  generalize (!buf.readonly && buf.refcount == 1) = writable at hwritable
  rw [hwritable, Option.bind_some]
  split_ifs with hrealloc
  · obtain ⟨new, hnew, hcase⟩ := h.ledger.avBufferReallocRef memory href
      (show IsInt (pkt.size + growBy + avInputBufferPaddingSize + offset) from
        ⟨by lia, by lia⟩)
    rw [hnew, Option.bind_some]
    rcases hcase with ⟨hexact, rfl⟩ | hreplaces
    · -- the buffer has the size already, and is shared
      have hshared : writable = false := by
        rcases hrealloc with hless | hno
        · dsimp only at hless
          lia
        · simpa using hno
      have hbufData : bufData s.mem (some r) = some (.block ref.data ref.offset) := by
        rw [bufData, Option.bind_some, href, Option.map_some]
      have hclear := hfine pkt r ref _ hp hbuf href (hwritable.trans (congrArg some hshared))
        hplace hexact
      rw [if_neg (lt_irrefl 0), hbufData, Option.bind_some, Place.add, ← hbuf, hsameData]
      obtain ⟨t, hend, hvalid, hmeets⟩ := h.grown memory hp pkt h.ledger hothers hbuf rfl
        hgrow (hgrown (by lia)) (h.buf_fresh hp rfl) hold hold
        (.inr fun place q pkt' hdata hqp hq => hclear.apart place q pkt' hdata hqp hq)
      exact ⟨_, hend, hvalid, hmeets⟩
    · exact h.growReplaced hp hbuf hgrow hmax href hdata (by lia) hreplaces
  · rw [not_or] at hrealloc
    have hyes : writable = true := by simpa using hrealloc.2
    rw [hsameData]
    obtain ⟨t, hend, hvalid, hmeets⟩ := h.grown memory hp pkt h.ledger hothers hbuf rfl
      hgrow (hgrown (by have := hrealloc.1; dsimp only at this; lia)) (h.buf_fresh hp rfl) hold
      hold (.inl (hwritable.trans (congrArg some hyes)))
    exact ⟨_, hend, hvalid, hmeets⟩

theorem Valid.grow (h : Valid s) (hp : s.packets.load p = some pkt)
    (hfine : Fine s (.grow memory p growBy)) :
    ∃ res, avGrowPacket s memory p growBy = some res ∧ Valid res.state ∧
      Meets s (.grow memory p growBy) res := by
  have hsound := h.sound p pkt hp
  have hnonneg := hsound.nonneg
  have hroom := hsound.room
  rw [avGrowPacket, hp, Option.bind_some, if_neg (by lia)]
  split_ifs with hbad
  · exact ⟨_, rfl, h, ⟨.inr ⟨show AVERROR.enomem.toInt < 0 by decide, rfl⟩, fun _ _ _ => rfl,
      fun _ _ h => by cases h⟩⟩
  · cases hbuf : pkt.buf with
    | some r => exact h.growBuf hp hbuf (by lia) (by lia) hfine
    | none => exact h.growNew hp hbuf (by lia) (by lia)

end

end FFmpeg.Libavcodec.Packet
