import FFmpeg.Libavcodec.PacketResize

/-!
# References to packets, and every run

A packet that is copied, moved or referenced stands for the byte string of its source.  With that,
every step keeps its promise, and so does every run; the runs at the end show what
`av_shrink_packet` does to a buffer that is shared.
-/

namespace FFmpeg.Libavcodec.Packet

open Common Libavutil Buffer BufferValues
open PacketSideData (AVPacketSideData avPktDataNb avInputBufferPaddingSize)

variable {Arg Free : Type}

/-! ## References and copies -/

section

variable {s : State Arg Free} {m : Buffer.State Arg Free} {p : Nat} {pkt : AVPacket}

theorem Valid.unrefBuf (h : Valid s) (buf : Option Nat)
    (hlive : ∀ r, buf = some r → Live s.mem r)
    (hnone : ∀ q pkt r, s.packets.load q = some pkt → pkt.buf = some r → buf ≠ some r) :
    ∃ m, unrefBuf s.mem buf = some m ∧ Valid { s with mem := m } ∧
      values { s with mem := m } = values s ∧
      ∀ r, Live s.mem r → buf ≠ some r → m.refs.load r = s.mem.refs.load r := by
  cases buf with
  | none => exact ⟨s.mem, rfl, h, rfl, fun _ _ _ => rfl⟩
  | some r =>
    obtain ⟨ref, href⟩ := live_iff.mp (hlive r rfl)
    obtain ⟨m, hunref, hledger, -, hothers⟩ := h.ledger.avBufferUnref href
    obtain ⟨hvalid, hvalues⟩ := h.mem hledger fun q pkt r' hq hbuf =>
      hothers r' ((h.sound q pkt hq).live hbuf) fun heq => hnone q pkt r' hq hbuf (by rw [heq])
    exact ⟨m, hunref, hvalid, hvalues, fun r' hr' hne =>
      (hothers r' hr' fun heq => hne (by rw [heq])).1⟩

theorem Valid.makeWritable (h : Valid s) (hp : s.packets.load p = some pkt) (memory : Memory) :
    ∃ r, avPacketMakeWritable s memory p = some r ∧ Valid r.state ∧
      Meets s (.makeWritable memory p) r := by
  have hsound := h.sound p pkt hp
  have hwritable : ∃ w, bufIsWritable s.mem pkt.buf = some w := by
    cases hbuf : pkt.buf with
    | none => exact ⟨false, rfl⟩
    | some r =>
      obtain ⟨ref, href⟩ := live_iff.mp (hsound.live hbuf)
      obtain ⟨buf, -, -, hwritable⟩ := h.ledger.isWritable_eq href
      exact ⟨_, hwritable⟩
  obtain ⟨writable, hwritable⟩ := hwritable
  rw [avPacketMakeWritable, hp, Option.bind_some, hwritable, Option.bind_some]
  split_ifs with hyes
  · exact ⟨_, rfl, h, ⟨⟨.inl rfl, rfl⟩, fun _ _ _ => rfl, fun _ _ h => by cases h⟩⟩
  obtain ⟨r, bytes, hcopy, hbytes, hprovides⟩ := h.allocCopy hp memory
  rw [hcopy, Option.bind_some]
  split_ifs with hret
  · obtain ⟨hvalid, hvalues⟩ := h.provideFails hprovides
    exact ⟨_, rfl, hvalid, ⟨⟨.inr hret, hvalues⟩, fun _ _ _ => rfl, fun _ _ h => by cases h⟩⟩
  · obtain ⟨q, -, -, href, hfresh, -⟩ := hprovides.sound (s := s) hret pkt rfl
      hsound.sideData
    obtain ⟨data, bytes', hdata, hvalid, hvalues, -, rfl⟩ := h.provide hprovides hret hp
      pkt rfl hsound.sideData
    -- nobody has the old reference any more
    obtain ⟨m, hunref, hvalid', hvalues', hothers⟩ := hvalid.unrefBuf pkt.buf
      (fun r' hbuf => (hprovides.same r' (hsound.live hbuf)).live (hsound.live hbuf))
      fun q' pkt' r' hq' hbuf' heq => by
        by_cases hqp : q' = p
        · rw [hqp, Cells.load_store_self hp] at hq'
          rw [← Option.some.inj hq'] at hbuf'
          exact ne_of_fresh (hsound.live heq) hfresh
            (Option.some.inj (hbuf'.symm.trans href))
        · rw [Cells.load_store_of_ne _ _ hqp] at hq'
          exact h.buf_ne hp heq hqp hq' hbuf' rfl
    have hdata' : bufData m r.ref = some data := by
      have hne : pkt.buf ≠ some q := fun heq =>
        ne_of_fresh (hsound.live heq) hfresh rfl
      have hq : Live r.state q := by
        rw [bufData, href, Option.bind_some] at hdata
        obtain ⟨ref, hload, -⟩ := Option.map_eq_some_iff.mp hdata
        exact live_of_load hload
      rw [← hdata, bufData, bufData, href, Option.bind_some, Option.bind_some, hothers q hq hne]
    rw [hunref, Option.bind_some, hdata', Option.map_some]
    refine ⟨_, rfl, hvalid', ⟨⟨.inl rfl, hvalues'.trans (hvalues.trans ?_)⟩,
      fun hneg => absurd hneg (lt_irrefl 0), fun _ _ h => by cases h⟩⟩
    rw [← hbytes, ← values_eq hp, Function.update_eq_self]

theorem Valid.moveRef (h : Valid s) {dst src : Nat} {into original : AVPacket}
    (hdst : s.packets.load dst = some into) (hsrc : s.packets.load src = some original) :
    ∃ t, avPacketMoveRef s dst src = some t ∧ Valid t ∧
      Meets s (.moveRef dst src) ⟨t, none, 0⟩ := by
  have hload : (s.packets.store dst original).load src = some original := by
    by_cases hsame : src = dst
    · rw [hsame]
      exact Cells.load_store_self hdst original
    · rw [Cells.load_store_of_ne _ _ hsame, hsrc]
  obtain ⟨hvalid, hvalues⟩ := h.setSame hsrc _ (sound_resetPacket s original)
    fun _ _ _ _ _ _ => nofun
  rw [packetBytes_resetPacket] at hvalues
  have hmove : avPacketMoveRef s dst src = some { s with
      packets := (s.packets.store dst original).store src (resetPacket original) } := by
    rw [avPacketMoveRef, hsrc, Option.bind_some, hdst, Option.bind_some]
    dsimp only
    rw [hload, Option.map_some]
  refine ⟨_, hmove, ?_⟩
  by_cases hsame : dst = src
  · subst hsame
    rw [Cells.store_store]
    refine ⟨hvalid, ⟨?_, fun hneg => absurd hneg (lt_irrefl 0), nofun⟩⟩
    show values _ = Function.update (Function.update (values s) dst (values s dst)) dst (some [])
    rw [Function.update_idem]
    exact hvalues
  · -- as if the source were reset first
    have hdst' := Cells.load_store_of_ne s.packets (resetPacket original) hsame
    have hmoved := hvalid.setSame (hdst'.trans hdst) original
      ((h.sound src original hsrc).setPackets _) fun q pkt r hqd hq hbuf heq => by
        by_cases hqs : q = src
        · rw [hqs, Cells.load_store_self hsrc] at hq
          rw [← Option.some.inj hq] at hbuf
          cases hbuf
        · rw [Cells.load_store_of_ne _ _ hqs] at hq
          exact hqs (h.exclusive q src pkt original r hq hsrc hbuf heq)
    rw [Cells.store_comm _ hsame]
    refine ⟨hmoved.1, ⟨?_, fun hneg => absurd hneg (lt_irrefl 0), nofun⟩⟩
    show values _ = Function.update (Function.update (values s) dst (values s src)) src (some [])
    rw [Function.update_comm hsame, ← hvalues, values_eq hsrc]
    exact hmoved.2

theorem avBufferRef_new (h : Ledger m none) (memory : Memory) {b : Nat} {ref : AVBufferRef}
    (hb : m.refs.load b = some ref)
    (hfits : memory.ref = true → references m ref.buffer + 1 < 2 ^ 32) :
    ∃ r, Buffer.avBufferRef m memory b = some r ∧ Ledger r.1 none ∧
      (∀ q, Live m q → Same m r.1 q) ∧ ∀ q, r.2 = some q →
        m.refs.load q = none ∧ r.1.refs.load q = some ref ∧ view r.1 q = view m b := by
  obtain ⟨r, hr, hsame, hnew, hledger⟩ := h.avBufferRef memory hb
  refine ⟨r, hr, hledger hfits, hsame, fun q hq => ⟨(hnew q hq).1, ?_, (hnew q hq).2⟩⟩
  obtain ⟨buf, hbuf, -⟩ := h.refs b ref hb
  rw [Buffer.avBufferRef] at hr
  split_ifs at hr with hmemory
  · rw [hb, Option.bind_some, hbuf, Option.map_some] at hr
    obtain rfl := Option.some.inj hr
    obtain rfl := Option.some.inj hq
    exact Cells.load_alloc_self _ _
  · obtain rfl := Option.some.inj hr
    cases hq

theorem whole_addSideData {malloc : Malloc} {sideData list : List AVPacketSideData}
    {sd : AVPacketSideData} (hall : Whole sideData) (hsd : sd.size ≤ sd.data.length)
    (h : avPacketAddSideData malloc sideData sd = .ok list) : Whole list := by
  unfold avPacketAddSideData at h
  split at h
  · obtain rfl := Except.ok.inj h
    intro new hmem
    rcases List.mem_or_eq_of_mem_set hmem with hold | rfl
    · exact hall new hold
    · exact hsd
  · split at h
    · cases h
    · split at h
      · cases h
      · obtain rfl := Except.ok.inj h
        intro new hmem
        rcases List.mem_append.mp hmem with hold | hlast
        · exact hall new hold
        · exact List.mem_singleton.mp hlast ▸ hsd

theorem whole_newSideData {mallocData mallocArray : Malloc}
    {sideData list : List AVPacketSideData} {type size : Nat} {src : Bytes} (hall : Whole sideData)
    (hsrc : size ≤ src.length)
    (h : avPacketNewSideData mallocData mallocArray sideData type size src = some list) :
    Whole list := by
  unfold avPacketNewSideData at h
  split at h
  · cases h
  · split at h
    · cases h
    · split at h
      · cases h
      · rename_i list' hadd
        obtain rfl := Option.some.inj h
        refine whole_addSideData hall ?_ hadd
        show size ≤ (src ++ _).length
        rw [List.length_append]
        lia

theorem copySideData_spec (memory : PacketMemory) (i : Nat) {src done : List AVPacketSideData}
    (hsrc : Whole src) (hdone : Whole done) :
    ∃ copied, copySideData memory i src done = some copied ∧
      ∀ list, copied = some list → Whole list := by
  induction src generalizing i done with
  | nil => exact ⟨_, rfl, fun list hlist => Option.some.inj hlist ▸ hdone⟩
  | cons sd src ih =>
    have hsize := hsrc sd List.mem_cons_self
    have hread : PacketSideData.readAt sd.data 0 sd.size = some (slice sd.data 0 sd.size) := by
      rw [PacketSideData.readAt, if_pos ⟨le_rfl, by rw [Int.toNat_zero, Nat.zero_add]; exact hsize⟩]
      rfl
    rw [copySideData, hread, Option.bind_some]
    cases hnew : avPacketNewSideData (memory.sideData i) (memory.sideArray i) done sd.type sd.size
      (slice sd.data 0 sd.size) with
    | none => exact ⟨none, rfl, nofun⟩
    | some list =>
      have hlist := whole_newSideData hdone (by rw [length_slice]; lia) hnew
      exact ih (i + 1) (fun sd' h => hsrc sd' (List.mem_cons_of_mem _ h)) hlist

end

section

variable {s : State Arg Free} {memory : PacketMemory} {dst src : Nat} {into original : AVPacket}

theorem avPacketCopyProps_spec (memory : PacketMemory) (hdst : s.packets.load dst = some into)
    (hsrc : s.packets.load src = some original) (hwhole : Whole original.sideData) :
    ∃ r new, avPacketCopyProps s memory dst src = some r ∧ (r.ret = 0 ∨ r.ret < 0) ∧
      r.state = { s with packets := s.packets.store dst new } ∧ new.buf = into.buf ∧
      new.data = into.data ∧ new.size = into.size ∧ Whole new.sideData := by
  have hnone : Whole ([] : List AVPacketSideData) := fun _ hsd => absurd hsd List.not_mem_nil
  obtain ⟨again, hagain, hwhole'⟩ : ∃ again,
      (s.packets.store dst (copyFields into original)).load src = some again ∧
        Whole again.sideData := by
    by_cases hsame : src = dst
    · rw [hsame, Cells.load_store_self hdst]
      exact ⟨_, rfl, hnone⟩
    · rw [Cells.load_store_of_ne _ _ hsame, hsrc]
      exact ⟨_, rfl, hwhole⟩
  obtain ⟨copied, hcopied, hlist⟩ := copySideData_spec memory 0 hwhole' hnone
  rw [avPacketCopyProps, hsrc, Option.bind_some, hdst, Option.bind_some]
  dsimp only
  rw [hagain, Option.bind_some, hcopied, Option.map_some]
  cases copied with
  | none =>
    exact ⟨_, copyFields into original, rfl, .inr (show AVERROR.enomem.toInt < 0 by decide), rfl,
      rfl, rfl, rfl, hnone⟩
  | some list =>
    exact ⟨_, { copyFields into original with sideData := list }, rfl, .inl rfl,
      by dsimp only; rw [Cells.store_store], rfl, rfl, rfl, hlist list rfl⟩

/-- What `av_packet_ref` does. -/
structure Refs (s : State Arg Free) (dst src : Nat) (r : Result Arg Free) : Prop where
  valid : Valid r.state
  packets : ∃ new, r.state.packets = s.packets.store dst new ∧
    (r.ret < 0 → new.buf = none ∧ new.data = none ∧ new.size = 0)
  values : (r.ret = 0 ∧ values r.state = Function.update (values s) dst (values s src)) ∨
    (r.ret < 0 ∧ values r.state = Function.update (values s) dst (some []))

theorem Valid.refFails (h : Valid s) (hdst : s.packets.load dst = some into) {new : AVPacket}
    (hnew : new.buf = none) {m : Buffer.State Arg Free} (hledger : Ledger m none)
    (hsame : ∀ r, Live s.mem r → Same s.mem m r) {ret : Int} (hret : ret < 0) :
    ∃ r, refFail { s with mem := m, packets := s.packets.store dst new } dst ret = some r ∧
      Refs s dst src r := by
  have hload : (s.packets.store dst new).load dst = some new := Cells.load_store_self hdst new
  obtain ⟨hvalid, hvalues⟩ := h.setPacket hdst hledger
    (fun q pkt r _ hq hbuf => hsame r ((h.sound q pkt hq).live hbuf))
    (sound_resetPacket { s with mem := m } new) fun _ _ _ _ _ _ => nofun
  refine ⟨_, by rw [refFail, avPacketUnref_of_none hload hnew, Option.map_some], ?_⟩
  dsimp only
  rw [Cells.store_store]
  exact ⟨hvalid, ⟨_, rfl, fun _ => ⟨rfl, rfl, rfl⟩⟩, .inr ⟨hret, hvalues⟩⟩

/-- The data of the source becomes the data of the destination. -/
theorem Valid.refData (h : Valid s) (hdst : s.packets.load dst = some into)
    (hsrc : s.packets.load src = some original) {new again : AVPacket} (hnew : new.buf = none)
    (hwhole : Whole new.sideData) (hdata : again.data = original.data)
    (hsize : again.size = original.size)
    (hbuf : again.buf = none ∨ (again.buf = original.buf ∧ src ≠ dst))
    (hfine : Fine s (.ref memory dst src)) :
    ∃ r, refData { s with packets := s.packets.store dst new } memory dst new again = some r ∧
      Refs s dst src r := by
  have hsound := h.sound src original hsrc
  obtain ⟨bytes, hbytes, hlength⟩ := hsound.bytes h.ledger
  cases hagain : again.buf with
  | none =>
    obtain ⟨r, hcopy, hprovides⟩ := @allocCopy_spec _ _
      { s with packets := s.packets.store dst new } again h.ledger memory.buffer bytes
      (by rw [hsize]; exact hlength) fun m hsame _ => by
        have hframe := (hsound.frame (t := { s with mem := m }) h.ledger rfl fun r hbuf =>
          hsame r (hsound.live hbuf)).2
        rw [hbytes] at hframe
        rw [← hframe, packetBytes, packetBytes, hdata, hsize]
        rfl
    rw [Packet.refData, hagain]
    dsimp only
    rw [hcopy, Option.bind_some]
    split_ifs with hret
    · exact h.refFails hdst hnew hprovides.ledger hprovides.same hret
    · obtain ⟨data, copy, hdata', hvalid, hvalues, -, rfl⟩ := h.provide hprovides hret hdst
        { new with size := again.size } rfl hwhole
      rw [hdata', Option.map_some, Cells.store_store]
      refine ⟨_, rfl, hvalid, ⟨_, rfl, fun hneg => absurd hneg (lt_irrefl 0)⟩, .inl ⟨rfl, ?_⟩⟩
      rw [values_eq hsrc, hbytes]
      exact hvalues
  | some b =>
    rcases hbuf with hnone | ⟨hsame, hne⟩
    · rw [hnone] at hagain
      cases hagain
    have hb : original.buf = some b := hsame.symm.trans hagain
    obtain ⟨ref, href⟩ := live_iff.mp (hsound.live hb)
    obtain ⟨r, hr, hledger, hothers, hfresh⟩ := avBufferRef_new h.ledger memory.buffer href
      fun hmemory => hfine hne hmemory original b ref hsrc hb href
    rw [Packet.refData, hagain]
    dsimp only
    rw [hr, Option.bind_some]
    cases hq : r.2 with
    | none => exact h.refFails hdst hnew hledger hothers (show AVERROR.enomem.toInt < 0 by decide)
    | some q =>
      obtain ⟨hfresh', hload, hview⟩ := hfresh q hq
      dsimp only
      rw [Cells.store_store]
      rcases hsound.backed with ⟨hnone, -, -⟩ | ⟨hnone, -, -, -⟩ |
        @⟨b', offset, ref', hsome, href', hplace, hlow, hin⟩
      · rw [hnone] at hb
        cases hb
      · rw [hnone] at hb
        cases hb
      cases hb.symm.trans hsome
      cases href.symm.trans href'
      have hnewSound : Sound { s with mem := r.1 }
          { new with buf := some q, data := again.data, size := again.size } := by
        rw [hdata, hsize]
        exact ⟨hsound.nonneg, hsound.room, .buffer rfl hload hplace hlow hin, hwhole⟩
      obtain ⟨hvalid, hvalues⟩ := h.setPacket hdst hledger
        (fun q' pkt' r' _ hq' hbuf' => hothers r' ((h.sound q' pkt' hq').live hbuf')) hnewSound
        fun q' pkt' r' _ hq' hbuf' heq =>
          ne_of_fresh ((h.sound q' pkt' hq').live hbuf') hfresh' (Option.some.inj heq).symm
      refine ⟨_, rfl, hvalid, ⟨_, rfl, fun hneg => absurd hneg (lt_irrefl 0)⟩, .inl ⟨rfl, ?_⟩⟩
      obtain ⟨block, -, -, hshown⟩ := h.ledger.shown href
      have hread : packetBytes { s with mem := r.1 }
          { new with buf := some q, data := again.data, size := again.size } = some bytes := by
        rw [← hbytes, packetBytes_view href hshown hplace hlow hsound.nonneg (by lia), ← hsize]
        exact packetBytes_view (s := { s with mem := r.1 }) hload (hview.trans hshown)
          (hdata.trans hplace) hlow (by rw [hsize]; exact hsound.nonneg)
          (by show _ + again.size ≤ _; rw [hsize]; lia)
      rw [values_eq hsrc, hbytes]
      exact hvalues.trans (congrArg _ hread)

theorem Valid.refSpec (h : Valid s) (memory : PacketMemory) (hdst : s.packets.load dst = some into)
    (hsrc : s.packets.load src = some original) (hfine : Fine s (.ref memory dst src)) :
    ∃ r, avPacketRef s memory dst src = some r ∧ Refs s dst src r := by
  have hload := Cells.load_store_self hdst { into with buf := none }
  obtain ⟨first, hfirst, hfirstCase⟩ : ∃ first,
      (s.packets.store dst { into with buf := none }).load src = some first ∧
        ((first = original ∧ src ≠ dst) ∨ (first = { original with buf := none } ∧ src = dst)) := by
    by_cases hsame : src = dst
    · subst hsame
      cases hdst.symm.trans hsrc
      exact ⟨_, hload, .inr ⟨rfl, rfl⟩⟩
    · exact ⟨original, (Cells.load_store_of_ne _ _ hsame).trans hsrc, .inl ⟨rfl, hsame⟩⟩
  have hwhole : Whole first.sideData := by
    have hside := (h.sound src original hsrc).sideData
    rcases hfirstCase with ⟨rfl, -⟩ | ⟨rfl, -⟩
    · exact hside
    · exact hside
  obtain ⟨r, new, hprops, hret, hstate, hbuf, hdata, hsize, hnewWhole⟩ :=
    @avPacketCopyProps_spec _ _ { s with packets := s.packets.store dst { into with buf := none } }
      _ _ _ _ memory hload hfirst hwhole
  have hstate' : r.state = { s with packets := s.packets.store dst new } := by
    rw [hstate]
    dsimp only
    rw [Cells.store_store]
  rw [avPacketRef, hdst, Option.bind_some]
  dsimp only
  rw [hprops, Option.bind_some, hstate']
  split_ifs with hneg
  · exact h.refFails hdst hbuf h.ledger (fun r _ => Same.refl s.mem r) hneg
  · have hnewLoad : (s.packets.store dst new).load dst = some new := Cells.load_store_self hdst new
    dsimp only
    by_cases hsame : src = dst
    · subst hsame
      cases hdst.symm.trans hsrc
      rw [hnewLoad, Option.bind_some, Option.bind_some]
      exact h.refData hdst hsrc hbuf hnewWhole hdata hsize (.inl hbuf) hfine
    · rw [Cells.load_store_of_ne _ _ hsame, hsrc, Option.bind_some, hnewLoad, Option.bind_some]
      exact h.refData hdst hsrc hbuf hnewWhole rfl rfl (.inr ⟨rfl, hsame⟩) hfine

end

section

variable {s : State Arg Free} {memory : PacketMemory} {src : Nat} {original : AVPacket}

theorem sound_newPacket (s : State Arg Free) : Sound s newPacket :=
  ⟨le_rfl, by decide, .blank rfl rfl rfl, fun _ hsd => absurd hsd List.not_mem_nil⟩

/-- One more packet, which is blank. -/
theorem Valid.alloc (h : Valid s) :
    Valid { s with packets := s.packets.alloc newPacket } ∧
      values { s with packets := s.packets.alloc newPacket } =
        Function.update (values s) s.packets.next (some []) := by
  have hcases : ∀ q pkt, (s.packets.alloc newPacket).load q = some pkt →
      (q = s.packets.next ∧ pkt = newPacket) ∨ s.packets.load q = some pkt := by
    intro q pkt hq
    by_cases hnew : q = s.packets.next
    · rw [hnew, Cells.load_alloc_self] at hq
      exact .inl ⟨hnew, (Option.some.inj hq).symm⟩
    · rw [Cells.load_alloc_of_ne _ _ hnew] at hq
      exact .inr hq
  refine ⟨⟨h.ledger, fun q pkt hq => ?_, fun q q' pkt pkt' r hq hq' hbuf hbuf' => ?_⟩, ?_⟩
  · rcases hcases q pkt hq with ⟨-, rfl⟩ | hold
    · exact sound_newPacket _
    · exact (h.sound q pkt hold).setPackets _
  · rcases hcases q pkt hq with ⟨-, rfl⟩ | hold
    · cases hbuf
    · rcases hcases q' pkt' hq' with ⟨-, rfl⟩ | hold'
      · cases hbuf'
      · exact h.exclusive q q' pkt pkt' r hold hold' hbuf hbuf'
  · funext q
    by_cases hnew : q = s.packets.next
    · rw [hnew, Function.update_self, values, Cells.load_alloc_self]
      rfl
    · rw [Function.update_of_ne hnew, values, values, Cells.load_alloc_of_ne _ _ hnew]
      rfl

theorem Valid.free (h : Valid s) (p : Nat) :
    Valid { s with packets := s.packets.free p } ∧
      values { s with packets := s.packets.free p } = Function.update (values s) p none := by
  refine ⟨⟨h.ledger, fun q pkt hq => (h.sound q pkt (Cells.load_of_load_free hq)).setPackets _,
    fun q q' pkt pkt' r hq hq' => h.exclusive q q' pkt pkt' r (Cells.load_of_load_free hq)
      (Cells.load_of_load_free hq')⟩, ?_⟩
  funext q
  by_cases hqp : q = p
  · rw [hqp, Function.update_self, values, Cells.load_free_self]
    rfl
  · rw [Function.update_of_ne hqp, values, values, Cells.load_free_of_ne _ hqp]
    rfl

theorem Valid.clone (h : Valid s) (hsrc : s.packets.load src = some original)
    (hfine : Fine s (.clone memory src)) :
    ∃ r, avPacketClone s memory src = some r ∧ Valid r.state ∧ Meets s (.clone memory src) r := by
  rw [avPacketClone]
  split_ifs with hmemory
  · obtain ⟨hvalid, hvalues⟩ := h.alloc
    have hnone : values s s.packets.next = none := by
      rw [values, Cells.load_next]
      rfl
    have hne : src ≠ s.packets.next := Cells.ne_next_of_load hsrc
    have hload := Cells.load_alloc hsrc newPacket
    obtain ⟨r, hr, hrefs⟩ := hvalid.refSpec memory
      (Cells.load_alloc_self s.packets newPacket) hload fun _ hbuffer pkt b ref hpkt => by
        cases hload.symm.trans hpkt
        exact hfine hbuffer original b ref hsrc
    obtain ⟨new, hpackets, hblank⟩ := hrefs.packets
    have hnew : r.state.packets.load s.packets.next = some new := by
      rw [hpackets]
      exact Cells.load_store_self (Cells.load_alloc_self _ _) new
    dsimp only
    rw [hr, Option.bind_some]
    rcases hrefs.values with ⟨hzero, hcopied⟩ | ⟨hneg, hfailed⟩
    · rw [if_neg (not_not.mpr hzero)]
      refine ⟨_, rfl, hrefs.valid, ⟨.inl ⟨rfl, s.packets.next, rfl, hnone, ?_⟩,
        fun hneg => absurd hneg (lt_irrefl 0), fun _ _ h => by cases h⟩⟩
      rw [hcopied, hvalues, Function.update_idem, Function.update_of_ne hne]
    · obtain ⟨hbuf, hdata, hsize⟩ := hblank hneg
      rw [if_pos hneg.ne, avPacketUnref_of_none hnew hbuf, Option.map_some]
      obtain ⟨hvalid', hvalues'⟩ := hrefs.valid.setSame hnew _ (sound_resetPacket r.state new)
        fun _ _ _ _ _ _ h => by cases h
      obtain ⟨hvalid'', hvalues''⟩ := hvalid'.free s.packets.next
      have hloads : ∀ p, (((r.state.packets.store s.packets.next (resetPacket new)).free
          s.packets.next).load p) = s.packets.load p := by
        intro p
        by_cases hp : p = s.packets.next
        · rw [hp, Cells.load_free_self, Cells.load_next]
        · rw [Cells.load_free_of_ne _ hp, Cells.load_store_of_ne _ _ hp, hpackets,
            Cells.load_store_of_ne _ _ hp, Cells.load_alloc_of_ne _ _ hp]
      refine ⟨_, rfl, hvalid'', ⟨.inr ⟨show AVERROR.enomem.toInt < 0 by decide, rfl, ?_⟩,
        fun _ p _ => hloads p, fun _ _ h => by cases h⟩⟩
      refine hvalues''.trans ?_
      rw [hvalues', hfailed, hvalues, Function.update_idem, Function.update_idem,
        Function.update_idem, ← hnone, Function.update_eq_self]
  · exact ⟨_, rfl, h, ⟨.inr ⟨show AVERROR.enomem.toInt < 0 by decide, rfl, rfl⟩,
      fun _ _ _ => rfl, fun _ _ h => by cases h⟩⟩

/-! ## Every run -/

theorem livePacket_iff {p : Nat} : LivePacket s p ↔ ∃ pkt, s.packets.load p = some pkt :=
  Option.isSome_iff_exists

/-- Every step that is fine keeps its promise. -/
theorem Valid.step (h : Valid s) {a : Action} (hlegal : Legal s a) (hfine : Fine s a) :
    ∃ r, step s a = some r ∧ Valid r.state ∧ Meets s a r := by
  cases a with
  | new memory p size =>
    obtain ⟨pkt, hp⟩ := livePacket_iff.mp hlegal.1
    exact h.new hp memory size
  | ref memory dst src =>
    obtain ⟨into, hdst⟩ := livePacket_iff.mp hlegal.1
    obtain ⟨original, hsrc⟩ := livePacket_iff.mp hlegal.2
    obtain ⟨r, hr, hrefs⟩ := h.refSpec memory hdst hsrc hfine
    obtain ⟨new, hpackets, hblank⟩ := hrefs.packets
    refine ⟨r, hr, hrefs.valid, ⟨hrefs.values, fun _ p hp => ?_, fun hneg p hp => ?_⟩⟩
    · rw [hpackets, Cells.load_store_of_ne _ _ fun heq => hp (by rw [destination, heq])]
    · obtain rfl := Option.some.inj hp
      exact ⟨new, by rw [hpackets]; exact Cells.load_store_self hdst new, hblank hneg⟩
  | clone memory src =>
    obtain ⟨original, hsrc⟩ := livePacket_iff.mp hlegal
    exact h.clone hsrc hfine
  | moveRef dst src =>
    obtain ⟨into, hdst⟩ := livePacket_iff.mp hlegal.1
    obtain ⟨original, hsrc⟩ := livePacket_iff.mp hlegal.2
    obtain ⟨t, ht, hvalid, hmeets⟩ := h.moveRef hdst hsrc
    exact ⟨_, by rw [Packet.step, ht, Option.map_some], hvalid, hmeets⟩
  | makeWritable memory p =>
    obtain ⟨pkt, hp⟩ := livePacket_iff.mp hlegal
    exact h.makeWritable hp memory
  | makeRefcounted memory p =>
    obtain ⟨pkt, hp⟩ := livePacket_iff.mp hlegal
    exact h.makeRefcounted hp memory
  | grow memory p growBy =>
    obtain ⟨pkt, hp⟩ := livePacket_iff.mp hlegal.1
    exact h.grow hp hfine
  | shrink p size =>
    obtain ⟨pkt, hp⟩ := livePacket_iff.mp hlegal.1
    obtain ⟨t, ht, hvalid, hmeets⟩ := h.shrink hp hfine
    exact ⟨_, by rw [Packet.step, ht, Option.map_some], hvalid, hmeets⟩
  | unref p =>
    obtain ⟨pkt, hp⟩ := livePacket_iff.mp hlegal
    obtain ⟨m, hunref, hvalid, hvalues⟩ := h.unref hp
    exact ⟨⟨_, none, 0⟩, by rw [Packet.step, hunref, Option.map_some], hvalid,
      ⟨hvalues, fun hneg => absurd hneg (lt_irrefl 0), nofun⟩⟩

theorem Valid.padded (h : Valid s) : Padded s := by
  intro p pkt r hp hbuf
  have hsound := h.sound p pkt hp
  have hnonneg := hsound.nonneg
  rcases hsound.backed with ⟨hnone, -, -⟩ | ⟨hnone, -, -, -⟩ |
    @⟨r', offset, ref, hsome, href, hdata, hlow, hin⟩
  · rw [hnone] at hbuf
    cases hbuf
  · rw [hnone] at hbuf
    cases hbuf
  · cases hbuf.symm.trans hsome
    obtain ⟨block, hblock, hroom, -⟩ := h.ledger.shown href
    exact ⟨ref, offset, href, hdata, hlow, hin, _, readAt_eq hblock (by lia)⟩

/-- Every state of a run from packets that may be used is one of them, by induction on the
run, and the byte strings of the packets make the same steps. -/
theorem Valid.run {t : State Arg Free} (h : Valid s)
    (hrun : Relation.ReflTransGen MovesFine s t) :
    Valid t ∧ Relation.ReflTransGen Acting (values s) (values t) := by
  induction hrun with
  | refl => exact ⟨h, .refl⟩
  | tail _ hmove ih =>
    obtain ⟨a, r, hlegal, hfine, hstep, rfl⟩ := hmove
    obtain ⟨r', hr', hvalid, hmeets⟩ := ih.1.step hlegal hfine
    cases hstep.symm.trans hr'
    exact ⟨hvalid, ih.2.tail ⟨a, _, _, hmeets.values⟩⟩

/-- **Packets have value semantics** in every run of fine steps: there is padding behind the data
of each packet with a buffer, the byte strings make the steps of the operations, and every next
step that is fine does what it should. -/
theorem packets_values {t : State Arg Free} (h : Valid s)
    (hrun : Relation.ReflTransGen MovesFine s t) :
    Padded t ∧ Relation.ReflTransGen Acting (values s) (values t) ∧
      ∀ a, Legal t a → Fine t a → ∃ r, step t a = some r ∧ Meets t a r := by
  obtain ⟨hvalid, hacting⟩ := h.run hrun
  refine ⟨hvalid.padded, hacting, fun a hlegal hfine => ?_⟩
  obtain ⟨r, hr, -, hmeets⟩ := hvalid.step hlegal hfine
  exact ⟨r, hr, hmeets⟩

end

/-! ## A shared buffer -/

/-- Memory that is full of sevens. -/
def sevens : Memory where
  data := fun size => some ⟨List.replicate size 7, List.length_replicate⟩
  buffer := true
  ref := true

/-- Memory for packets. -/
def sevensPacket : PacketMemory := ⟨true, fun _ => zeroMalloc, fun _ => zeroMalloc, sevens⟩

/-- Two blank packets. -/
def twoPackets : State Unit Unit := ⟨initial, .empty, ⟨[some newPacket, some newPacket]⟩⟩

theorem valid_twoPackets : Valid twoPackets := by
  have hpacket : ∀ p pkt, twoPackets.packets.load p = some pkt → pkt = newPacket := by
    rintro (_ | _ | p) pkt hp
    · exact (Option.some.inj hp).symm
    · exact (Option.some.inj hp).symm
    · cases hp
  refine ⟨ledger_initial, fun p pkt hp => ?_, fun p q pkt pkt' r hp _ hbuf _ => ?_⟩
  · rw [hpacket p pkt hp]
    exact sound_newPacket _
  · rw [hpacket p pkt hp] at hbuf
    cases hbuf

set_option maxRecDepth 8000 in
/-- The first packet has four bytes and the second one shares them; when the first one is cut, three
bytes of the second one are zeroed. -/
theorem exists_shared : ∃ t r, Relation.ReflTransGen MovesFine twoPackets t ∧
    values t 0 = some [7, 7, 7, 7] ∧ values t 1 = some [7, 7, 7, 7] ∧ Legal t (.shrink 0 1) ∧
    step t (.shrink 0 1) = some r ∧ values r.state 1 = some [7, 0, 0, 0] := by
  have hrun := (Relation.ReflTransGen.refl (r := MovesFine) (a := twoPackets)).tail
    ⟨.new sevens 0 4, _, ⟨rfl, by decide, by decide⟩, trivial, rfl, rfl⟩
  have hrun := hrun.tail ⟨.ref sevensPacket 1 0, _, ⟨rfl, rfl⟩, by
    rintro - - pkt r ref hpkt hbuf href
    cases hpkt
    cases hbuf
    cases href
    decide, rfl, rfl⟩
  exact ⟨_, _, hrun, by rfl, by rfl, ⟨rfl, by decide, by decide⟩, rfl, by rfl⟩

/-- Two packets that share a buffer. -/
theorem packets_values_shared : ∃ t : State Unit Unit, values t 0 = some [7, 7, 7, 7] ∧
    values t 1 = some [7, 7, 7, 7] ∧ Padded t ∧
    Relation.ReflTransGen Acting (values twoPackets) (values t) ∧
    ∀ a, Legal t a → Fine t a → ∃ r, step t a = some r ∧ Meets t a r := by
  obtain ⟨t, -, hrun, hfirst, hsecond, -⟩ := exists_shared
  exact ⟨t, hfirst, hsecond, packets_values valid_twoPackets hrun⟩

theorem moves_of_movesFine {s t : State Arg Free} (hrun : Relation.ReflTransGen MovesFine s t) :
    Relation.ReflTransGen Moves s t := by
  induction hrun with
  | refl => exact .refl
  | tail _ hmove ih =>
    obtain ⟨a, r, hlegal, -, hmove⟩ := hmove
    exact ih.tail ⟨a, r, hlegal, hmove⟩

/-- `av_shrink_packet` of one packet changes the other one. -/
theorem not_packets_values_shrink : ¬∀ t : State Unit Unit,
    Relation.ReflTransGen Moves twoPackets t →
      ∀ a, Legal t a → ∃ r, step t a = some r ∧ Meets t a r := by
  intro hall
  obtain ⟨t, r, hrun, -, hsecond, hlegal, hstep, hzeroed⟩ := exists_shared
  obtain ⟨r', hstep', hmeets⟩ := hall t (moves_of_movesFine hrun) (.shrink 0 1) hlegal
  cases hstep.symm.trans hstep'
  have hkept : values r.state = Function.update (values t) 0 _ := hmeets.values
  rw [hkept, Function.update_of_ne (by decide), hsecond] at hzeroed
  exact absurd hzeroed (by decide)

end FFmpeg.Libavcodec.Packet
