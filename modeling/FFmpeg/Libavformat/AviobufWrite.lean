import FFmpeg.Libavformat.Aviobuf

/-!
# Writing to a context from front to end

A context in write mode collects what it is given in its buffer, and hands the
buffer to the write callback when it is full.  As long as the callback takes what
it gets, the callback's bytes and the ones in the buffer are all bytes written so
far, in order.
-/

namespace FFmpeg.Libavformat.Avio

open Common Libavutil

variable {ω : Type}

/-- The write callback takes all it is given: `sent` grows by it. -/
def Takes (cb : Callbacks ω) (sent : ω → Bytes) : Prop :=
  ∃ writePacket, cb.writePacket = some writePacket ∧ ∀ source data, ∃ n source',
    writePacket source data = (.ok n, source') ∧ sent source' = sent source ++ data

/-- The bytes `out` have been written to `s`, and there is room for another. -/
structure Streams (sent : ω → Bytes) (s : AVIOContext ω) (out : Bytes) : Prop where
  writeFlag : s.writeFlag = true
  error : s.error = none
  bufPtrMax : s.bufPtrMax ≤ s.bufPtr
  room : s.bufPtr < s.bufEnd
  bufEnd : s.bufEnd ≤ s.buffer.length
  out_eq : out = sent s.source ++ s.buffer.take s.bufPtr

variable {cb : Callbacks ω} {sent : ω → Bytes}

variable {s : AVIOContext ω}

theorem Takes.writeout (h : Takes cb sent) (herror : s.error = none) (data : Bytes) :
    ∃ source, Avio.writeout cb s data = { s with source := source, pos := s.pos + data.length } ∧
      sent source = sent s.source ++ data := by
  obtain ⟨writePacket, hcallback, htakes⟩ := h
  obtain ⟨n, source, hwrite, hsent⟩ := htakes s.source data
  refine ⟨source, ?_, hsent⟩
  simp only [Avio.writeout, herror, hcallback, hwrite, Option.isSome_none]
  rfl

theorem Takes.flushBuffer (h : Takes cb sent) (hflag : s.writeFlag = true) (herror : s.error = none)
    (hmark : s.bufPtrMax ≤ s.bufPtr) (hend : 0 < s.bufEnd) (hlength : s.bufEnd ≤ s.buffer.length) :
    Streams sent (flushBuffer cb s) (sent s.source ++ s.buffer.take s.bufPtr) ∧
      (Avio.flushBuffer cb s).bufPtr = 0 := by
  have hmax : max s.bufPtr s.bufPtrMax = s.bufPtr := by lia
  unfold Avio.flushBuffer
  simp only [hflag, hmax, true_and]
  by_cases hpos : 0 < s.bufPtr
  · obtain ⟨source, hwrite, hsent⟩ := h.writeout herror (s.buffer.take s.bufPtr)
    rw [if_pos hpos, hwrite]
    refine ⟨⟨hflag, herror, le_rfl, ?_, ?_, ?_⟩, trivial⟩
    · rw [if_pos hflag]; exact hend
    · rw [if_pos hflag]; exact hlength
    · show _ = sent source ++ s.buffer.take 0
      rw [hsent, List.take_zero, List.append_nil]
  · rw [if_neg hpos]
    refine ⟨⟨hflag, herror, le_rfl, ?_, ?_, ?_⟩, trivial⟩
    · rw [if_pos hflag]; exact hend
    · rw [if_pos hflag]; exact hlength
    · show _ = sent s.source ++ s.buffer.take 0
      rw [show s.bufPtr = 0 by lia]

variable {out : Bytes}

/-- Bytes that fit the buffer are put there, and a full buffer is flushed. -/
theorem Streams.put (h : Takes cb sent) (hs : Streams sent s out) (bytes : Bytes)
    (hfits : s.bufPtr + bytes.length ≤ s.bufEnd) :
    Streams sent (flushIfFull cb { s with
      buffer := overwrite s.buffer s.bufPtr bytes
      bufPtr := s.bufPtr + bytes.length }) (out ++ bytes) := by
  have hroom := hs.room
  have hend := hs.bufEnd
  have hmark := hs.bufPtrMax
  have hlength : (overwrite s.buffer s.bufPtr bytes).length = s.buffer.length :=
    length_overwrite_of_le (by lia)
  have hout : sent s.source ++ (overwrite s.buffer s.bufPtr bytes).take (s.bufPtr + bytes.length) =
      out ++ bytes := by
    rw [take_overwrite (by lia), hs.out_eq, List.append_assoc]
  unfold flushIfFull
  split
  · have hflushed := h.flushBuffer (s := { s with
        buffer := overwrite s.buffer s.bufPtr bytes
        bufPtr := s.bufPtr + bytes.length }) hs.writeFlag hs.error
      (Nat.le_trans hmark (Nat.le_add_right _ _)) (Nat.lt_of_le_of_lt (Nat.zero_le _) hroom)
      (hend.trans hlength.ge)
    rw [← hout]
    exact hflushed.1
  · next hnotFull =>
    refine ⟨hs.writeFlag, hs.error, ?_, Nat.lt_of_not_le hnotFull, ?_, hout.symm⟩
    · show s.bufPtrMax ≤ s.bufPtr + bytes.length
      lia
    · show s.bufEnd ≤ _
      rw [hlength]
      exact hend

theorem Streams.avioW8 (h : Takes cb sent) (hs : Streams sent s out) (b : UInt8) :
    Streams sent (avioW8 cb s b) (out ++ [b]) :=
  hs.put h [b] hs.room

/-- The induction is on the rounds, each of which fills the buffer as far as it
goes. -/
theorem Streams.avioWriteLoop (h : Takes cb sent) {rounds : Nat} {buf : Bytes}
    (hs : Streams sent s out) (hrounds : buf.length ≤ rounds) :
    Streams sent (avioWriteLoop cb rounds buf s) (out ++ buf) := by
  induction rounds generalizing s out buf with
  | zero =>
    obtain rfl : buf = [] := List.length_eq_zero_iff.mp (by lia)
    rwa [List.append_nil]
  | succ rounds ih =>
    unfold Avio.avioWriteLoop
    by_cases hempty : buf = []
    · rw [if_pos hempty, hempty, List.append_nil]
      exact hs
    · have hpos := List.length_pos_iff.mpr hempty
      have hroom := hs.room
      have htake : (buf.take (min (s.bufEnd - s.bufPtr) buf.length)).length =
          min (s.bufEnd - s.bufPtr) buf.length := by
        rw [List.length_take]
        lia
      have hput := hs.put h (buf.take (min (s.bufEnd - s.bufPtr) buf.length)) (by lia)
      rw [htake] at hput
      have hleft : (buf.drop (min (s.bufEnd - s.bufPtr) buf.length)).length ≤ rounds := by
        rw [List.length_drop]
        lia
      have hrest := ih hput hleft
      rw [List.append_assoc, List.take_append_drop] at hrest
      rw [if_neg hempty]
      exact hrest

theorem Streams.avioWrite (h : Takes cb sent) (hs : Streams sent s out) (buf : Bytes) :
    Streams sent (avioWrite cb s buf) (out ++ buf) := by
  unfold Avio.avioWrite
  split
  · have hroom := hs.room
    have hmark := hs.bufPtrMax
    have hseekback : min 0 ((s.bufPtr : Int) - s.bufPtrMax) = 0 := by lia
    obtain ⟨hflushed, hptr⟩ :=
      h.flushBuffer hs.writeFlag hs.error hmark (by lia) hs.bufEnd
    rw [← hs.out_eq] at hflushed
    have hflush : avioFlush cb s = Avio.flushBuffer cb s := by
      simp only [avioFlush, hs.writeFlag, if_true, hseekback, ne_eq, not_true_eq_false, if_false]
    obtain ⟨source, hwrite, hsent⟩ := h.writeout hflushed.error buf
    rw [hflush, hwrite]
    refine ⟨hflushed.writeFlag, hflushed.error, hflushed.bufPtrMax, hflushed.room,
      hflushed.bufEnd, ?_⟩
    show _ = sent source ++ (Avio.flushBuffer cb s).buffer.take (Avio.flushBuffer cb s).bufPtr
    rw [hsent, hflushed.out_eq, hptr, List.take_zero, List.append_nil, List.append_nil]
  · exact hs.avioWriteLoop h (Nat.le_succ _)

/-- A callback that keeps all it is given. -/
def collect : Callbacks Bytes where
  readPacket := none
  writePacket := some fun out data => (.ok data.length, out ++ data)
  seek := none
  shortSeekGet := none

end FFmpeg.Libavformat.Avio
