import Mathlib.Tactic
import FFmpeg.Common.File
import FFmpeg.Common.Run
import FFmpeg.Libavformat.Aviobuf

/-!
# Dynamic write buffers

What has been written to a context from `avio_open_dyn_buf` is partly in its io
buffer and partly in the dynamic buffer; together they represent a growing
file.  Closing pads the data at the current write position, so the file comes
back exactly when the position was left at the end.
-/

namespace FFmpeg.Libavformat.Avio

open Common Libavutil

/-! ## The dynamic buffer -/

theorem le_growAllocated (newSize : Nat) {rounds allocated : Nat}
    (h : newSize ≤ allocated + rounds) : newSize ≤ growAllocated newSize rounds allocated := by
  induction rounds generalizing allocated with
  | zero => exact h
  | succ rounds ih =>
      unfold growAllocated
      split
      · apply ih
        split <;> lia
      · lia

variable {d : DynBuffer}

theorem dynBufWrite_spec (hpos : d.pos ≤ d.size) (hsize : d.size ≤ d.buffer.length) (buf : Bytes)
    (hmax : d.pos + buf.length ≤ dynBufMax) :
    ∃ d', dynBufWrite d buf = (.ok buf.length, d') ∧ d'.pos = d.pos + buf.length ∧
      d'.size = max d.size (d.pos + buf.length) ∧ d'.size ≤ d'.buffer.length ∧
      d'.buffer.take d'.size = overwrite (d.buffer.take d.size) d.pos buf := by
  have hmod : (d.pos + buf.length) % 2 ^ 32 = d.pos + buf.length :=
    Nat.mod_eq_of_lt (by unfold dynBufMax at hmax; lia)
  have hok : ¬ (d.pos + buf.length < d.pos ∨ dynBufMax < d.pos + buf.length) := by lia
  have hgrow : d.pos + buf.length ≤
      growAllocated (d.pos + buf.length) (d.pos + buf.length) d.buffer.length :=
    le_growAllocated _ (by lia)
  simp only [dynBufWrite, hmod, if_neg hok]
  refine ⟨_, rfl, rfl, rfl, ?_, ?_⟩
  · rw [length_overwrite (by simp; lia)]
    simp only [List.length_append, List.length_replicate]
    lia
  · rw [take_overwrite_max hpos (by simp; lia), List.take_append_of_le_length hsize]

variable {offset : Nat}

theorem dynBufSeek_set (h : offset ≤ 0x7fffffff) :
    dynBufSeek d offset .seekSet = (.ok 0, { d with pos := offset }) := by
  have hok : ¬ ((offset : Int) < 0 ∨ (0x7fffffff : Int) < offset) := by lia
  simp only [dynBufSeek, if_neg hok, Int.toNat_natCast]

/-! ## The file behind a context -/

/-- The end of the valid data in the io buffer. -/
def highWater (s : AVIOContext DynBuffer) : Nat := max s.bufPtr s.bufPtrMax

/-- The context `s` is in write mode and represents the file `f`: the dynamic
buffer overwritten by the io buffer. -/
structure Represents (s : AVIOContext DynBuffer) (f : GrowableFile UInt8) : Prop where
  writeFlag : s.writeFlag = true
  direct : s.direct = false
  error : s.error = none
  maxPacketSize : s.maxPacketSize = 0
  bufEnd : s.bufEnd = s.buffer.length
  highWater_le : highWater s ≤ s.bufEnd
  pos : s.pos = s.source.pos
  pos_le : s.source.pos ≤ s.source.size
  size_le : s.source.size ≤ s.source.buffer.length
  content : f.content = overwrite (s.source.buffer.take s.source.size) s.source.pos
    (s.buffer.take (highWater s))
  position : f.position = s.source.pos + s.bufPtr

/-- There is room in the io buffer; so it is between any two calls. -/
def HasRoom (s : AVIOContext DynBuffer) : Prop :=
  highWater s < s.bufEnd

/-- All data is in the dynamic buffer. -/
def Flushed (s : AVIOContext DynBuffer) : Prop :=
  highWater s = 0 ∧ 0 < s.bufEnd

variable {s : AVIOContext DynBuffer}

theorem Flushed.hasRoom (h : Flushed s) : HasRoom s := by
  unfold HasRoom
  rw [h.1]
  exact h.2

variable {f : GrowableFile UInt8}

theorem Represents.length_content (h : Represents s f) :
    f.content.length = max s.source.size (s.source.pos + highWater s) := by
  have hwater := h.highWater_le
  have hend := h.bufEnd
  have hpos := h.pos_le
  have hsize := h.size_le
  rw [h.content, length_overwrite (by simp; lia)]
  simp
  lia

/-- A flush hands the valid part of the io buffer to the dynamic buffer. -/
theorem Represents.flushBuffer_eq (h : Represents s f) (hmax : f.content.length ≤ dynBufMax) :
    ∃ d, flushBuffer dynBufCallbacks s =
        { s with source := d, pos := d.pos, bufPtr := 0, bufPtrMax := 0 } ∧
      d.pos = s.source.pos + highWater s ∧ d.size = f.content.length ∧
      d.size ≤ d.buffer.length ∧ d.buffer.take d.size = f.content := by
  have hlength := h.length_content
  have hwater := h.highWater_le
  have hbufEnd := h.bufEnd
  have hpos := h.pos_le
  have hflag := h.writeFlag
  have hmem := h.pos
  have hcontent := h.content
  have htake : (s.buffer.take (highWater s)).length = highWater s := by
    rw [List.length_take]
    lia
  by_cases hzero : highWater s = 0
  · have hnone : ¬ (s.writeFlag = true ∧ 0 < max s.bufPtr s.bufPtrMax) := by
      unfold highWater at hzero
      lia
    refine ⟨s.source, ?_, by lia, by lia, h.size_le, ?_⟩
    · simp only [flushBuffer, if_neg hnone, if_pos hflag, ← hmem]
    · rw [hcontent, hzero, List.take_zero, overwrite_nil]
  · obtain ⟨d, hwrite, hdpos, hdsize, hdle, hdtake⟩ :=
      dynBufWrite_spec hpos h.size_le (s.buffer.take (highWater s)) (by lia)
    rw [htake] at hdpos hdsize
    have hsome : s.writeFlag = true ∧ 0 < max s.bufPtr s.bufPtrMax :=
      ⟨hflag, Nat.pos_of_ne_zero hzero⟩
    have hwriteout : writeout dynBufCallbacks s (s.buffer.take (highWater s)) =
        { s with source := d, pos := d.pos } := by
      simp [writeout, h.error, dynBufCallbacks, hwrite, hmem, hdpos, htake]
    refine ⟨d, ?_, hdpos, by lia, hdle, by rw [hdtake, hcontent]⟩
    unfold highWater at hwriteout
    simp only [flushBuffer, if_pos hsome, hwriteout, if_pos hflag]

theorem Represents.flushBuffer (h : Represents s f) (hmax : f.content.length ≤ dynBufMax)
    (hend : 0 < s.bufEnd) :
    Represents (flushBuffer dynBufCallbacks s) (f.seek (s.source.pos + highWater s)) ∧
      Flushed (Avio.flushBuffer dynBufCallbacks s) := by
  obtain ⟨d, heq, hdpos, hdsize, hdle, hdtake⟩ := h.flushBuffer_eq hmax
  have hlength := h.length_content
  have hle : s.source.pos + highWater s ≤ f.content.length := by lia
  rw [heq]
  refine ⟨?_, by simp [highWater], hend⟩
  constructor
  · exact h.writeFlag
  · exact h.direct
  · exact h.error
  · exact h.maxPacketSize
  · exact h.bufEnd
  · simp [highWater]
  · rfl
  · show d.pos ≤ d.size
    lia
  · exact hdle
  · simp [highWater, hdtake]
  · simp [GrowableFile.seek, hle, hdpos]

/-! ## Writing -/

/-- Bytes that fit the io buffer are put into it. -/
theorem Represents.put (h : Represents s f) (bytes : Bytes)
    (hfits : s.bufPtr + bytes.length ≤ s.bufEnd) :
    Represents { s with
      buffer := overwrite s.buffer s.bufPtr bytes
      bufPtr := s.bufPtr + bytes.length } (f.write bytes) := by
  have hwater := h.highWater_le
  have hbufEnd := h.bufEnd
  have hptr : s.bufPtr ≤ highWater s := Nat.le_max_left _ _
  have hmax : max (s.bufPtr + bytes.length) s.bufPtrMax =
      max (highWater s) (s.bufPtr + bytes.length) := by
    unfold highWater
    lia
  have hpos : s.source.pos ≤ (s.source.buffer.take s.source.size).length := by
    have h₁ := h.pos_le
    have h₂ := h.size_le
    rw [List.length_take]
    lia
  constructor
  · exact h.writeFlag
  · exact h.direct
  · exact h.error
  · exact h.maxPacketSize
  · rw [length_overwrite_of_le (by lia)]
    exact hbufEnd
  · show max (s.bufPtr + bytes.length) s.bufPtrMax ≤ s.bufEnd
    lia
  · exact h.pos
  · exact h.pos_le
  · exact h.size_le
  · show overwrite f.content f.position bytes = overwrite _ _
      ((overwrite s.buffer s.bufPtr bytes).take (max (s.bufPtr + bytes.length) s.bufPtrMax))
    rw [hmax, take_overwrite_max hptr (by lia), h.content, h.position,
      overwrite_overwrite_add hpos (by rw [List.length_take]; lia)]
  · show f.position + bytes.length = s.source.pos + (s.bufPtr + bytes.length)
    rw [h.position, Nat.add_assoc]

theorem Represents.flushIfFull (h : Represents s f) (hmax : f.content.length ≤ dynBufMax)
    (hend : 0 < s.bufEnd) (hptr : s.bufPtrMax < s.bufEnd) :
    Represents (flushIfFull dynBufCallbacks s) f ∧ HasRoom (Avio.flushIfFull dynBufCallbacks s) := by
  unfold Avio.flushIfFull
  split
  · next hfull =>
    -- the position is already behind all data of the io buffer
    have hwater : highWater s = s.bufPtr := by
      unfold highWater
      lia
    have hseek : f.seek (s.source.pos + highWater s) = f := by
      rw [hwater, ← h.position]
      simp [GrowableFile.seek, f.le]
    rw [← hseek]
    obtain ⟨hflushed, hempty⟩ := h.flushBuffer hmax hend
    exact ⟨hflushed, hempty.hasRoom⟩
  · next hroom =>
    refine ⟨h, ?_⟩
    unfold HasRoom highWater
    lia

theorem Represents.avioW8 (h : Represents s f) (hroom : HasRoom s) (b : UInt8)
    (hmax : (f.write [b]).content.length ≤ dynBufMax) :
    Represents (avioW8 dynBufCallbacks s b) (f.write [b]) ∧
      HasRoom (Avio.avioW8 dynBufCallbacks s b) := by
  unfold HasRoom highWater at hroom
  have hput := h.put [b] (by simp; lia)
  exact hput.flushIfFull hmax (show 0 < s.bufEnd by lia) (show s.bufPtrMax < s.bufEnd by lia)

/-- The loop of `avio_write` writes all its bytes; the induction is on the rounds,
each of which fills the io buffer as far as it goes. -/
theorem Represents.avioWriteLoop {rounds : Nat} {buf : Bytes} (h : Represents s f)
    (hroom : HasRoom s) (hmax : (f.write buf).content.length ≤ dynBufMax)
    (hrounds : buf.length ≤ rounds) :
    Represents (avioWriteLoop dynBufCallbacks rounds buf s) (f.write buf) ∧
      HasRoom (Avio.avioWriteLoop dynBufCallbacks rounds buf s) := by
  induction rounds generalizing s f buf with
  | zero =>
      obtain rfl : buf = [] := List.length_eq_zero_iff.mp (by lia)
      simpa [Avio.avioWriteLoop] using ⟨h, hroom⟩
  | succ rounds ih =>
      unfold Avio.avioWriteLoop
      by_cases hempty : buf = []
      · subst hempty
        simpa using ⟨h, hroom⟩
      · rw [if_neg hempty]
        have hpos := List.length_pos_iff.mpr hempty
        have hroom' := hroom
        unfold HasRoom highWater at hroom'
        set len := min (s.bufEnd - s.bufPtr) buf.length with hlen
        have htake : (buf.take len).length = len := by simp [hlen]
        have hsplit : f.write buf = (f.write (buf.take len)).write (buf.drop len) := by
          rw [← GrowableFile.write_append, List.take_append_drop]
        have hmax' : (f.write (buf.take len)).content.length ≤ dynBufMax := by
          rw [hsplit] at hmax
          exact (GrowableFile.length_le_write _ _).trans hmax
        have hput := h.put (buf.take len) (by lia)
        rw [htake] at hput
        obtain ⟨hnext, hnextRoom⟩ := hput.flushIfFull hmax' (show 0 < s.bufEnd by lia)
          (show s.bufPtrMax < s.bufEnd by lia)
        rw [hsplit] at hmax ⊢
        exact ih hnext hnextRoom hmax (by simp; lia)

theorem Represents.avioWrite (h : Represents s f) (hroom : HasRoom s) (buf : Bytes)
    (hmax : (f.write buf).content.length ≤ dynBufMax) :
    Represents (avioWrite dynBufCallbacks s buf) (f.write buf) ∧
      HasRoom (Avio.avioWrite dynBufCallbacks s buf) := by
  have hdirect := h.direct
  simp only [Avio.avioWrite, hdirect]
  exact h.avioWriteLoop hroom hmax (Nat.le_succ _)

/-! ## Seeking -/

theorem avioSeekTo_write {ω : Type} (cb : Callbacks ω) {s : AVIOContext ω}
    (hflag : s.writeFlag = true) (hdirect : s.direct = false) (depth : Nat) (offset : Int) :
    avioSeekTo cb (depth + 1) s offset =
      if 0 ≤ offset - s.pos ∧ offset - s.pos ≤ max s.bufPtrMax s.bufPtr then
        (.ok offset, { s with
          bufPtrMax := max s.bufPtrMax s.bufPtr
          bufPtr := (offset - s.pos).toNat
          eofReached := false })
      else seekResource cb { s with bufPtrMax := max s.bufPtrMax s.bufPtr } offset := by
  have hstart : s.bufferStart = s.pos := by simp [AVIOContext.bufferStart, hflag]
  unfold avioSeekTo
  rw [hstart]
  simp [hflag, hdirect]

theorem Represents.reposition (h : Represents s f) (hempty : highWater s = 0)
    (hoffset : offset ≤ f.content.length) (eofReached : Bool) :
    Represents { s with
      source := { s.source with pos := offset }
      bufPtr := 0
      bufPtrMax := 0
      pos := offset
      eofReached := eofReached } (f.seek offset) := by
  have hcontent := h.content
  have hlength := h.length_content
  have hpos := h.pos_le
  rw [hempty, List.take_zero, overwrite_nil] at hcontent
  constructor
  · exact h.writeFlag
  · exact h.direct
  · exact h.error
  · exact h.maxPacketSize
  · exact h.bufEnd
  · exact Nat.zero_le _
  · rfl
  · show offset ≤ s.source.size
    lia
  · exact h.size_le
  · simp [highWater, hcontent]
  · simp [GrowableFile.seek, hoffset]

theorem Represents.raiseMark (h : Represents s f) :
    Represents { s with bufPtrMax := highWater s } f := by
  have hsame : max s.bufPtr (highWater s) = highWater s := by
    unfold highWater
    lia
  constructor
  · exact h.writeFlag
  · exact h.direct
  · exact h.error
  · exact h.maxPacketSize
  · exact h.bufEnd
  · show max s.bufPtr (highWater s) ≤ s.bufEnd
    rw [hsame]
    exact h.highWater_le
  · exact h.pos
  · exact h.pos_le
  · exact h.size_le
  · show f.content = overwrite _ _ (s.buffer.take (max s.bufPtr (highWater s)))
    rw [hsame]
    exact h.content
  · exact h.position

theorem Represents.seekResource (h : Represents s f) (hmax : f.content.length ≤ dynBufMax)
    (hend : 0 < s.bufEnd) (hoffset : offset ≤ f.content.length) :
    ∃ s', seekResource dynBufCallbacks s offset = (.ok (offset : Int), s') ∧
      Represents s' (f.seek offset) ∧ Flushed s' := by
  have hint : offset ≤ 0x7fffffff := by
    unfold dynBufMax at hmax
    lia
  obtain ⟨hflushed, -⟩ := h.flushBuffer hmax hend
  obtain ⟨d, heq, -⟩ := h.flushBuffer_eq hmax
  rw [heq] at hflushed
  have hseek : seekSource dynBufCallbacks d offset = (.ok 0, { d with pos := offset }) :=
    dynBufSeek_set hint
  have hnew := hflushed.reposition rfl (by simpa using hoffset) false
  rw [GrowableFile.seek_seek _ _ hoffset] at hnew
  refine ⟨_, ?_, hnew, rfl, hend⟩
  simp only [Avio.seekResource, if_pos h.writeFlag, heq, hseek]

/-- A seek inside the file, within the io buffer or after a flush. -/
theorem Represents.avioSeekTo (h : Represents s f) (hroom : HasRoom s)
    (hmax : f.content.length ≤ dynBufMax) (hoffset : offset ≤ f.content.length) (depth : Nat) :
    ∃ s', avioSeekTo dynBufCallbacks (depth + 1) s offset = (.ok (offset : Int), s') ∧
      Represents s' (f.seek offset) ∧ HasRoom s' := by
  have hpos := h.pos
  have hcomm : max s.bufPtrMax s.bufPtr = highWater s := Nat.max_comm _ _
  rw [avioSeekTo_write dynBufCallbacks h.writeFlag h.direct, hcomm]
  by_cases hinside : 0 ≤ (offset : Int) - s.pos ∧ (offset : Int) - s.pos ≤ highWater s
  · rw [if_pos hinside]
    have hwater : max ((offset : Int) - s.pos).toNat (highWater s) = highWater s := by lia
    refine ⟨_, rfl, ?_, ?_⟩
    · constructor
      · exact h.writeFlag
      · exact h.direct
      · exact h.error
      · exact h.maxPacketSize
      · exact h.bufEnd
      · show max ((offset : Int) - s.pos).toNat (highWater s) ≤ s.bufEnd
        rw [hwater]
        exact h.highWater_le
      · exact hpos
      · exact h.pos_le
      · exact h.size_le
      · show (f.seek offset).content = overwrite _ _
          (s.buffer.take (max ((offset : Int) - s.pos).toNat (highWater s)))
        rw [hwater, GrowableFile.content_seek]
        exact h.content
      · show (f.seek offset).position = s.source.pos + ((offset : Int) - s.pos).toNat
        rw [GrowableFile.seek, dif_pos hoffset]
        show offset = _
        lia
    · show max ((offset : Int) - s.pos).toNat (highWater s) < s.bufEnd
      rw [hwater]
      exact hroom
  · rw [if_neg hinside]
    have hend : 0 < s.bufEnd := Nat.lt_of_le_of_lt (Nat.zero_le _) hroom
    obtain ⟨s', hseek, hnew, hflushed⟩ := h.raiseMark.seekResource hmax hend hoffset
    exact ⟨s', hseek, hnew, hflushed.hasRoom⟩

theorem Represents.avioSeek_back (h : Represents s f) (hempty : Flushed s)
    (hmax : f.content.length ≤ dynBufMax) {offset : Int} (hneg : offset < 0) {target : Nat}
    (htarget : offset + s.source.pos = target) (hle : target ≤ f.content.length) :
    ∃ s', avioSeek dynBufCallbacks s offset .seekCur = (.ok (target : Int), s') ∧
      Represents s' (f.seek target) ∧ Flushed s' := by
  have hpos := h.pos
  have hlength := h.length_content
  have hptr : s.bufPtr = 0 := by
    have hwater := hempty.1
    unfold highWater at hwater
    lia
  have hcomm : max s.bufPtrMax s.bufPtr = highWater s := Nat.max_comm _ _
  have hstart : s.bufferStart + s.bufPtr = s.source.pos := by
    simp [AVIOContext.bufferStart, h.writeFlag, hptr, hpos]
  have hfits : ¬ offset > int64Max - s.source.pos := by
    unfold int64Max
    unfold dynBufMax at hmax
    lia
  have hpositive : ¬ (target : Int) < 0 := by lia
  have hbefore : ¬ (0 ≤ (target : Int) - s.pos ∧ (target : Int) - s.pos ≤ highWater s) := by lia
  obtain ⟨s', hresource, hnew⟩ := h.raiseMark.seekResource hmax hempty.2 hle
  refine ⟨s', ?_, hnew⟩
  simp only [avioSeek, hstart, if_neg hneg.ne, if_neg hfits, htarget, if_neg hpositive]
  rw [avioSeekTo_write dynBufCallbacks h.writeFlag h.direct, hcomm, if_neg hbefore, hresource]

/-- `avio_flush` moves everything into the dynamic buffer and comes back to the
position. -/
theorem Represents.avioFlush (h : Represents s f) (hroom : HasRoom s)
    (hmax : f.content.length ≤ dynBufMax) :
    Represents (avioFlush dynBufCallbacks s) f ∧ Flushed (Avio.avioFlush dynBufCallbacks s) := by
  have hend : 0 < s.bufEnd := Nat.lt_of_le_of_lt (Nat.zero_le _) hroom
  obtain ⟨hflushed, hempty⟩ := h.flushBuffer hmax hend
  have hposition := h.position
  have hseek : f.seek f.position = f := by simp [GrowableFile.seek, f.le]
  obtain ⟨d, heq, hdpos, -⟩ := h.flushBuffer_eq hmax
  have hsource : (Avio.flushBuffer dynBufCallbacks s).source.pos = s.source.pos + highWater s := by
    rw [heq]
    exact hdpos
  have hback : (if s.writeFlag then min 0 ((s.bufPtr : Int) - s.bufPtrMax) else 0) =
      (f.position : Int) - (s.source.pos + highWater s : Nat) := by
    rw [if_pos h.writeFlag, hposition]
    unfold highWater
    lia
  unfold Avio.avioFlush
  simp only [hback]
  by_cases hzero : (f.position : Int) - (s.source.pos + highWater s : Nat) = 0
  · -- the position was at the end of the io buffer already
    have hsame : s.source.pos + highWater s = f.position := by lia
    rw [if_neg (not_not.mpr hzero)]
    rw [hsame, hseek] at hflushed
    exact ⟨hflushed, hempty⟩
  · have hptr : s.bufPtr ≤ highWater s := Nat.le_max_left _ _
    have hneg : (f.position : Int) - (s.source.pos + highWater s : Nat) < 0 := by lia
    have htarget : (f.position : Int) - (s.source.pos + highWater s : Nat) +
        (Avio.flushBuffer dynBufCallbacks s).source.pos = f.position := by lia
    obtain ⟨s', hback', hnew, hempty'⟩ := hflushed.avioSeek_back hempty (by simpa using hmax)
      hneg htarget (by simpa using f.le)
    rw [if_pos hzero, hback']
    rw [GrowableFile.seek_seek _ _ f.le, hseek] at hnew
    exact ⟨hnew, hempty'⟩

/-! ## Runs -/

/-- The calls on a context for writing. -/
inductive DynBufOp
  | w8 (b : UInt8)
  | write (buf : Bytes)
  | flush
  | seek (offset : Nat)
  deriving DecidableEq, Repr

/-- One call on the context. -/
def dynBufStep (s : AVIOContext DynBuffer) : DynBufOp → AVIOContext DynBuffer
  | .w8 b => avioW8 dynBufCallbacks s b
  | .write buf => avioWrite dynBufCallbacks s buf
  | .flush => avioFlush dynBufCallbacks s
  | .seek offset => (avioSeek dynBufCallbacks s offset .seekSet).2

/-- The same call on the abstract file. -/
def fileStep (f : GrowableFile UInt8) : DynBufOp → GrowableFile UInt8
  | .w8 b => f.write [b]
  | .write buf => f.write buf
  | .flush => f
  | .seek offset => f.seek offset

/-- A seek goes to an offset between 0 and the current size. -/
def SeeksInside (f : GrowableFile UInt8) : DynBufOp → Prop
  | .seek offset => offset ≤ f.content.length
  | _ => True

theorem length_le_fileStep (f : GrowableFile UInt8) (op : DynBufOp) :
    f.content.length ≤ (fileStep f op).content.length := by
  cases op with
  | w8 b => exact f.length_le_write [b]
  | write buf => exact f.length_le_write buf
  | flush => exact le_rfl
  | seek offset => exact (congrArg List.length (f.content_seek offset)).ge

theorem length_le_run (f : GrowableFile UInt8) (ops : List DynBufOp) :
    f.content.length ≤ (run fileStep f ops).content.length := by
  induction ops generalizing f with
  | nil => exact le_rfl
  | cons op ops ih => exact (length_le_fileStep f op).trans (ih _)

theorem Represents.step (h : Represents s f) (hroom : HasRoom s) {op : DynBufOp}
    (hop : SeeksInside f op) (hmax : (fileStep f op).content.length ≤ dynBufMax) :
    Represents (dynBufStep s op) (fileStep f op) ∧ HasRoom (dynBufStep s op) := by
  cases op with
  | w8 b => exact h.avioW8 hroom b hmax
  | write buf => exact h.avioWrite hroom buf hmax
  | flush =>
    obtain ⟨hnew, hempty⟩ := h.avioFlush hroom hmax
    exact ⟨hnew, hempty.hasRoom⟩
  | seek offset =>
    rw [fileStep, GrowableFile.content_seek] at hmax
    obtain ⟨s', hseek, hnew, hroom'⟩ := h.avioSeekTo hroom hmax hop 1
    have hnonneg : ¬ (offset : Int) < 0 := by lia
    simp only [dynBufStep, avioSeek, if_neg hnonneg, hseek]
    exact ⟨hnew, hroom'⟩

theorem represents_run (h : Represents s f) (hroom : HasRoom s) {ops : List DynBufOp}
    (hops : EachStep fileStep SeeksInside f ops)
    (hmax : (run fileStep f ops).content.length ≤ dynBufMax) :
    Represents (run dynBufStep s ops) (run fileStep f ops) ∧ HasRoom (run dynBufStep s ops) := by
  induction ops generalizing s f with
  | nil => exact ⟨h, hroom⟩
  | cons op ops ih =>
    obtain ⟨hnew, hroom'⟩ := h.step hroom hops.1 ((length_le_run _ ops).trans hmax)
    exact ih hnew hroom' hops.2 hmax

theorem represents_init {buffer : Bytes} (hbuffer : 0 < buffer.length) :
    Represents (ffioInitContext dynBufCallbacks buffer true ⟨0, 0, []⟩) GrowableFile.empty ∧
      HasRoom (ffioInitContext dynBufCallbacks buffer true ⟨0, 0, []⟩) := by
  refine ⟨?_, by simpa [HasRoom, highWater, ffioInitContext] using hbuffer⟩
  constructor <;> simp [ffioInitContext, GrowableFile.empty, highWater]

/-! ## Closing -/

theorem Represents.avioCloseDynBuf (h : Represents s f) (hroom : HasRoom s)
    {padded : GrowableFile UInt8}
    (hpadded : padded = f.write (List.replicate avInputBufferPaddingSize 0))
    (hmax : padded.content.length ≤ dynBufMax) :
    (avioCloseDynBuf s).1 = (padded.content.length : Int) - avInputBufferPaddingSize ∧
      (Avio.avioCloseDynBuf s).2.take padded.content.length = padded.content := by
  subst hpadded
  obtain ⟨hwritten, hroom'⟩ := h.avioWrite hroom _ hmax
  obtain ⟨hflushed, hempty⟩ := hwritten.avioFlush hroom' hmax
  have hlength := hflushed.length_content
  have hcontent := hflushed.content
  have hpos := hflushed.pos_le
  rw [hempty.1] at hlength
  rw [hempty.1, List.take_zero, overwrite_nil] at hcontent
  have hsize := hlength.trans (Nat.max_eq_left (by simpa using hpos))
  simp only [Avio.avioCloseDynBuf, h.maxPacketSize, if_true]
  rw [hsize]
  exact ⟨rfl, hcontent.symm⟩

/-- The size and the buffer returned by `avio_close_dyn_buf` are the file. -/
def ReturnsContent (r : Int × Bytes) (f : GrowableFile UInt8) : Prop :=
  r.1 = f.content.length ∧ r.2.take f.content.length = f.content

/-- **When a dynamic buffer returns what was written.**  After any calls that
seek inside the data, closing returns exactly the content of the abstract file
if and only if the write position was left at its end. -/
theorem avioCloseDynBuf_iff (ops : List DynBufOp)
    (hops : EachStep fileStep SeeksInside GrowableFile.empty ops)
    (hmax : (run fileStep GrowableFile.empty ops).content.length < dynBufMax - 1088) :
    ReturnsContent (avioCloseDynBuf (run dynBufStep avioOpenDynBuf ops))
        (run fileStep GrowableFile.empty ops) ↔
      (run fileStep GrowableFile.empty ops).position =
        (run fileStep GrowableFile.empty ops).content.length := by
  obtain ⟨hopen, hopenRoom⟩ : Represents avioOpenDynBuf GrowableFile.empty ∧
      HasRoom avioOpenDynBuf := represents_init (by rw [List.length_replicate]; lia)
  obtain ⟨hrep, hroom⟩ := represents_run hopen hopenRoom hops (by lia)
  generalize run dynBufStep avioOpenDynBuf ops = s at hrep hroom ⊢
  generalize run fileStep GrowableFile.empty ops = f at hrep hmax ⊢
  have hle := f.le
  have hpad : (f.write (List.replicate avInputBufferPaddingSize 0)).content.length =
      max f.content.length (f.position + avInputBufferPaddingSize) := by
    rw [GrowableFile.write, length_overwrite f.le, List.length_replicate]
  have hpadding : avInputBufferPaddingSize = 64 := rfl
  obtain ⟨hsize, hdata⟩ := hrep.avioCloseDynBuf hroom rfl (by lia)
  rw [hpad] at hsize hdata
  unfold ReturnsContent
  constructor
  · rintro ⟨hreturned, -⟩
    lia
  · intro hend
    refine ⟨by lia, ?_⟩
    -- the padding lies behind the content
    have hkept := congrArg (List.take f.content.length) hdata
    rw [List.take_take, Nat.min_eq_left (Nat.le_max_left _ _)] at hkept
    rw [hkept]
    show (overwrite f.content f.position _).take f.content.length = f.content
    rw [take_overwrite_of_le hend.ge f.le, List.take_length]

/-- Two writes, a seek back to patch the first byte and a seek to the end again. -/
theorem avioCloseDynBuf_iff_patched :
    ReturnsContent
        (avioCloseDynBuf (run dynBufStep avioOpenDynBuf
          [.write [1, 2, 3], .w8 4, .seek 0, .w8 9, .flush, .seek 4]))
        (run fileStep GrowableFile.empty [.write [1, 2, 3], .w8 4, .seek 0, .w8 9, .flush, .seek 4]) ↔
      (run fileStep GrowableFile.empty
          [.write [1, 2, 3], .w8 4, .seek 0, .w8 9, .flush, .seek 4]).position =
        (run fileStep GrowableFile.empty
          [.write [1, 2, 3], .w8 4, .seek 0, .w8 9, .flush, .seek 4]).content.length :=
  avioCloseDynBuf_iff [.write [1, 2, 3], .w8 4, .seek 0, .w8 9, .flush, .seek 4]
    ⟨trivial, trivial, Nat.zero_le _, trivial, trivial, Nat.le_of_eq rfl, trivial⟩ (by decide)

set_option maxRecDepth 4000 in
/-- Two bytes are written and the position is set back to the start: closing
returns size 0. -/
theorem not_returnsContent_seek_back :
    ¬ ∀ ops : List DynBufOp, EachStep fileStep SeeksInside GrowableFile.empty ops →
      (run fileStep GrowableFile.empty ops).content.length < dynBufMax - 1088 →
      ReturnsContent (avioCloseDynBuf (run dynBufStep avioOpenDynBuf ops))
        (run fileStep GrowableFile.empty ops) := by
  intro h
  have hops : EachStep fileStep SeeksInside GrowableFile.empty [.write [1, 2], .seek 0] :=
    ⟨trivial, Nat.zero_le _, trivial⟩
  have hreturned := (h _ hops (by decide)).1
  obtain ⟨hopen, hopenRoom⟩ : Represents avioOpenDynBuf GrowableFile.empty ∧
      HasRoom avioOpenDynBuf := represents_init (by rw [List.length_replicate]; lia)
  obtain ⟨hrep, hroom⟩ := represents_run hopen hopenRoom hops (by decide)
  have hclosed := (hrep.avioCloseDynBuf hroom rfl (by decide)).1
  rw [hclosed] at hreturned
  revert hreturned
  decide

end FFmpeg.Libavformat.Avio
