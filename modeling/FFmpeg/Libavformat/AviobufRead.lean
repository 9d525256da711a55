import Mathlib.Tactic
import FFmpeg.Common.File
import FFmpeg.Common.Run
import FFmpeg.Libavformat.Aviobuf

/-!
# Buffered reading refines a file cursor

A context in read mode holds a stretch of the file that ends where the resource
stands.  Filling, bypassing and rewinding the buffer all keep this relation, so
that reads deliver the file's bytes at the logical position and move it by what
they deliver.
-/

namespace FFmpeg.Libavformat.Avio

open Common Libavutil

variable {ω : Type} {cb : Callbacks ω} {content : Bytes} {position : ω → Nat}

/-! ## The resource -/

/-- The callbacks serve a file with the given content.  A read returns at least
one byte from the position, or the end of the file there; a seek, if there is
one, moves the position or fails. -/
structure Serves (cb : Callbacks ω) (content : Bytes) (position : ω → Nat) : Prop where
  readPacket : ∃ readPacket, cb.readPacket = some readPacket ∧ ∀ source size, 0 < size →
    (position source < content.length ∧
      ∃ bytes source', readPacket source size = (.ok bytes, source') ∧ 1 ≤ bytes.length ∧
        bytes.length ≤ size ∧ bytes = slice content (position source) bytes.length ∧
        position source' = position source + bytes.length) ∨
    (content.length ≤ position source ∧
      ∃ source', readPacket source size = (.error .eof, source') ∧
        position source' = position source)
  seek : ∀ seek, cb.seek = some seek → ∀ source (offset : Nat),
    (∃ r source', seek source offset .seekSet = (.ok r, source') ∧ position source' = offset) ∨
    (∃ e source', seek source offset .seekSet = (.error e, source') ∧
      position source' = position source)

theorem Serves.readPacketWrapper_cases (hcb : Serves cb content position) (s : AVIOContext ω)
    {size : Nat} (hsize : 0 < size) :
    (position s.source < content.length ∧
      ∃ bytes source', readPacketWrapper cb s size = (.ok bytes, source') ∧ 1 ≤ bytes.length ∧
        bytes.length ≤ size ∧ bytes = slice content (position s.source) bytes.length ∧
        position source' = position s.source + bytes.length) ∨
    (content.length ≤ position s.source ∧
      ∃ source', readPacketWrapper cb s size = (.error .eof, source') ∧
        position source' = position s.source) := by
  obtain ⟨readPacket, hsome, hread⟩ := hcb.readPacket
  unfold readPacketWrapper
  rw [hsome]
  rcases hread s.source size hsize with ⟨hlt, bytes, source', heq, hone, hrest⟩ |
    ⟨hle, source', heq, hpos⟩
  · cases bytes with
    | nil => simp at hone
    | cons b bytes => exact .inl ⟨hlt, b :: bytes, source', by simp only [heq], hone, hrest⟩
  · exact .inr ⟨hle, source', by simp only [heq], hpos⟩

theorem Serves.seekSource_cases (hcb : Serves cb content position) (source : ω) (offset : Nat) :
    (∃ r source', seekSource cb source offset = (.ok r, source') ∧ position source' = offset) ∨
    (∃ e source', seekSource cb source offset = (.error e, source') ∧
      position source' = position source) := by
  unfold seekSource
  cases hseek : cb.seek with
  | none => exact .inr ⟨_, source, rfl, rfl⟩
  | some seek => exact hcb.seek seek hseek source offset

/-! ## The relation to the file -/

/-- The logical position, which `avio_seek(s, 0, SEEK_CUR)` returns. -/
def AVIOContext.tell (s : AVIOContext ω) : Int := s.bufferStart + s.bufPtr

/-- The context is in read mode, and its buffer holds the stretch of the file
that ends where the resource stands. -/
structure Tracks (content : Bytes) (position : ω → Nat) (s : AVIOContext ω) : Prop where
  readMode : s.writeFlag = false
  direct : s.direct = false
  error : s.error = none
  pos : s.pos = position s.source
  bufPtr_le : s.bufPtr ≤ s.bufEnd
  bufEnd_le : s.bufEnd ≤ s.bufferSize
  bufEnd_le_pos : s.bufEnd ≤ position s.source
  buffered : s.buffer.take s.bufEnd = slice content (position s.source - s.bufEnd) s.bufEnd
  bufferSize_pos : 0 < s.bufferSize
  orig : s.bufferSize ≤ s.origBufferSize
  eof : s.eofReached = true → content.length ≤ position s.source

/-- The position in the file of the next byte to be read. -/
def cursor (position : ω → Nat) (s : AVIOContext ω) : Nat :=
  position s.source - s.bufEnd + s.bufPtr

variable {s : AVIOContext ω}

theorem Tracks.bufferStart (h : Tracks content position s) :
    s.bufferStart = (position s.source - s.bufEnd : Nat) := by
  have hle := h.bufEnd_le_pos
  simp [AVIOContext.bufferStart, h.readMode, h.pos]
  lia

theorem Tracks.tell (h : Tracks content position s) : s.tell = cursor position s := by
  simp [AVIOContext.tell, h.bufferStart, cursor]

theorem Tracks.copyOut (h : Tracks content position s) {len : Nat}
    (hlen : s.bufPtr + len ≤ s.bufEnd) :
    s.copyOut len = slice content (cursor position s) len ∧ (s.copyOut len).length = len := by
  have hsize : s.bufEnd ≤ s.buffer.length := h.bufEnd_le
  have htake : s.copyOut len = slice (s.buffer.take s.bufEnd) s.bufPtr len := by
    unfold AVIOContext.copyOut slice
    rw [List.drop_take, List.take_take]
    congr 1
    lia
  refine ⟨?_, ?_⟩
  · rw [htake, h.buffered, slice_slice hlen, cursor]
  · rw [AVIOContext.copyOut, List.length_take, List.length_drop]
    lia

theorem Tracks.advance (h : Tracks content position s) {len : Nat}
    (hlen : s.bufPtr + len ≤ s.bufEnd) :
    Tracks content position { s with bufPtr := s.bufPtr + len } :=
  { h with bufPtr_le := hlen }

variable {source : ω} {eofReached : Bool}

theorem Tracks.emptyBuffer (h : Tracks content position s)
    (heof : eofReached = true → content.length ≤ position source) :
    Tracks content position { s with
      source := source, pos := position source, bufPtr := 0, bufEnd := 0,
      eofReached := eofReached } where
  readMode := h.readMode
  direct := h.direct
  error := h.error
  pos := rfl
  bufPtr_le := Nat.le_refl _
  bufEnd_le := Nat.zero_le _
  bufEnd_le_pos := Nat.zero_le _
  buffered := by simp
  bufferSize_pos := h.bufferSize_pos
  orig := h.orig
  eof := heof

theorem Tracks.withSource (h : Tracks content position s)
    (hsource : position source = position s.source)
    (heof : eofReached = true → content.length ≤ position s.source) :
    Tracks content position { s with source := source, eofReached := eofReached } where
  readMode := h.readMode
  direct := h.direct
  error := h.error
  pos := h.pos.trans (congrArg _ hsource.symm)
  bufPtr_le := h.bufPtr_le
  bufEnd_le := h.bufEnd_le
  bufEnd_le_pos := hsource ▸ h.bufEnd_le_pos
  buffered := by
    show s.buffer.take s.bufEnd = slice content (position source - s.bufEnd) s.bufEnd
    rw [hsource]
    exact h.buffered
  bufferSize_pos := h.bufferSize_pos
  orig := h.orig
  eof heq := hsource ▸ heof heq

/-! ## Filling the buffer -/

/-- A read that lands at the end of the buffered data or at the start of the
buffer. -/
theorem Tracks.filled (h : Tracks content position s) {dst : Nat} {bytes : Bytes}
    (hdst : dst = 0 ∨ dst = s.bufEnd) (hroom : dst + bytes.length ≤ s.bufferSize)
    (hbytes : bytes = slice content (position s.source) bytes.length)
    (hsource : position source = position s.source + bytes.length) (heof : s.eofReached = false) :
    Tracks content position (s.filled dst (.ok bytes, source)) := by
  have hsize : s.buffer.length = s.bufferSize := rfl
  have hend := h.bufEnd_le
  have hle := h.bufEnd_le_pos
  have htake : (overwrite s.buffer dst bytes).take (dst + bytes.length) =
      slice content (position source - (dst + bytes.length)) (dst + bytes.length) := by
    rw [take_overwrite (by lia)]
    rcases hdst with rfl | rfl
    · have hstart : position source - (0 + bytes.length) = position s.source := by lia
      rw [hstart, List.take_zero, List.nil_append, Nat.zero_add]
      exact hbytes
    · have hstart : position source - (s.bufEnd + bytes.length) =
          position s.source - s.bufEnd := by lia
      have hmiddle : position s.source - s.bufEnd + s.bufEnd = position s.source := by lia
      rw [hstart, slice_add, hmiddle, h.buffered]
      exact congrArg _ hbytes
  have hlength : (overwrite s.buffer dst bytes).length = s.bufferSize := by
    rw [length_overwrite_of_le (by lia), hsize]
  constructor
  · exact h.readMode
  · exact h.direct
  · exact h.error
  · show s.pos + bytes.length = (position source : Int)
    rw [h.pos, hsource]
    norm_cast
  · exact Nat.le_add_right _ _
  · show dst + bytes.length ≤ (overwrite s.buffer dst bytes).length
    lia
  · show dst + bytes.length ≤ position source
    rcases hdst with rfl | rfl <;> lia
  · exact htake
  · show 0 < (overwrite s.buffer dst bytes).length
    rw [hlength]
    exact h.bufferSize_pos
  · show (overwrite s.buffer dst bytes).length ≤ s.origBufferSize
    rw [hlength]
    exact h.orig
  · show s.eofReached = true → _
    simp [heof]

/-- With a callback and a buffer of its original size `fill_buffer` reads behind the
buffered data if enough room is left there, and else from the buffer's start. -/
theorem Tracks.fillBuffer_eq (hcb : Serves cb content position) (h : Tracks content position s) :
    ∃ dst, (dst = 0 ∨ dst = s.bufEnd) ∧ dst < s.bufferSize ∧
      fillBuffer cb s = if s.eofReached then s
        else s.filled dst (readPacketWrapper cb s (s.bufferSize - dst)) := by
  obtain ⟨readPacket, hsome, -⟩ := hcb.readPacket
  have hpos := h.bufferSize_pos
  have horig : ¬ s.origBufferSize < s.bufferSize := Nat.not_lt.mpr h.orig
  have hdst : ∀ m, ((if s.bufEnd + m < s.bufferSize then s.bufEnd else 0) = 0 ∨
      (if s.bufEnd + m < s.bufferSize then s.bufEnd else 0) = s.bufEnd) ∧
      (if s.bufEnd + m < s.bufferSize then s.bufEnd else 0) < s.bufferSize := by
    intro m
    split
    · next hlt => exact ⟨.inr rfl, Nat.lt_of_le_of_lt (Nat.le_add_right _ _) hlt⟩
    · exact ⟨.inl rfl, hpos⟩
  obtain ⟨hstart, hlt⟩ := hdst (if s.maxPacketSize ≠ 0 then s.maxPacketSize else ioBufferSize)
  refine ⟨_, hstart, hlt, ?_⟩
  unfold fillBuffer
  simp [hsome, horig]

/-- What `fill_buffer` does to a context: nothing after the end of the file was
seen, note the end of the file, or get the bytes at the resource's position. -/
theorem Tracks.fillBuffer_cases (hcb : Serves cb content position) (h : Tracks content position s) :
    (s.eofReached = true ∧ fillBuffer cb s = s) ∨
    (content.length ≤ position s.source ∧
      ∃ source, fillBuffer cb s = { s with source := source, eofReached := true } ∧
        position source = position s.source) ∨
    (position s.source < content.length ∧ s.eofReached = false ∧
      ∃ s', fillBuffer cb s = s' ∧ Tracks content position s' ∧
        cursor position s' = position s.source ∧ s'.bufPtr < s'.bufEnd ∧
        position s.source < position s'.source ∧ s'.eofReached = false) := by
  obtain ⟨dst, hdst, hlt, heq⟩ := h.fillBuffer_eq hcb
  cases heof : s.eofReached with
  | true =>
    rw [heof] at heq
    exact .inl ⟨rfl, by simpa using heq⟩
  | false =>
    simp only [heof, Bool.false_eq_true, if_false] at heq
    refine .inr ?_
    rcases hcb.readPacketWrapper_cases s (show 0 < s.bufferSize - dst by lia) with
      ⟨hinside, bytes, source, hread, hone, hmax, hbytes, hsource⟩ |
      ⟨hend, source, hread, hsource⟩
    · rw [hread] at heq
      have hnew := h.filled hdst (by lia) hbytes hsource heof
      have hle := hnew.bufEnd_le_pos
      refine .inr ⟨hinside, rfl, _, heq, hnew, ?_, ?_, ?_, heof⟩
      · show position source - (dst + bytes.length) + dst = position s.source
        have : dst + bytes.length ≤ position source := hle
        lia
      · show dst < dst + bytes.length
        lia
      · show position s.source < position source
        lia
    · rw [hread] at heq
      exact .inl ⟨hend, source, heq, hsource⟩

/-- Filling an exhausted buffer keeps the cursor.  If nothing came the cursor is
at the end of the file. -/
theorem Tracks.after_fillBuffer (hcb : Serves cb content position) (h : Tracks content position s)
    (hempty : s.bufEnd ≤ s.bufPtr) :
    Tracks content position (fillBuffer cb s) ∧
      cursor position (fillBuffer cb s) = cursor position s ∧
      ((fillBuffer cb s).bufPtr < (fillBuffer cb s).bufEnd ∨
        (fillBuffer cb s).bufPtr = (fillBuffer cb s).bufEnd ∧
          content.length ≤ cursor position s) := by
  have hle := h.bufEnd_le_pos
  have hptr : s.bufPtr = s.bufEnd := Nat.le_antisymm h.bufPtr_le hempty
  have hcursor : cursor position s = position s.source := by
    unfold cursor
    lia
  rcases h.fillBuffer_cases hcb with ⟨heof, heq⟩ | ⟨hend, source, heq, hsource⟩ |
    ⟨hinside, -, s', heq, hnew, hcursor', hdata, -⟩
  · rw [heq]
    exact ⟨h, rfl, .inr ⟨hptr, hcursor ▸ h.eof heof⟩⟩
  · rw [heq]
    refine ⟨h.withSource hsource fun _ => hend, ?_, .inr ⟨hptr, hcursor ▸ hend⟩⟩
    simp only [cursor, hsource]
  · rw [heq]
    exact ⟨hnew, hcursor'.trans hcursor.symm, .inl hdata⟩

/-! ## Reading -/

theorem Tracks.after_avioFeof (hcb : Serves cb content position) (h : Tracks content position s) :
    Tracks content position (avioFeof cb s).2 ∧
      cursor position (avioFeof cb s).2 = cursor position s := by
  unfold avioFeof
  cases heof : s.eofReached with
  | false => exact ⟨h, rfl⟩
  | true =>
    have hend := h.eof heof
    have hreset := h.withSource rfl (show false = true → _ by simp)
    simp only [if_true]
    rcases hreset.fillBuffer_cases hcb with ⟨heof', -⟩ | ⟨-, source, heq, hsource⟩ |
      ⟨hinside, -⟩
    · cases heof'
    · rw [heq]
      refine ⟨h.withSource hsource fun _ => hend, ?_⟩
      simp only [cursor, hsource]
    · exact absurd hinside (Nat.not_lt.mpr hend)

theorem Tracks.after_avioR8 (hcb : Serves cb content position) (h : Tracks content position s) :
    Tracks content position (avioR8 cb s).2 ∧
      (if cursor position s < content.length then
        content[cursor position s]? = some (avioR8 cb s).1 ∧
          cursor position (avioR8 cb s).2 = cursor position s + 1
      else (avioR8 cb s).1 = 0 ∧ cursor position (avioR8 cb s).2 = cursor position s) := by
  -- after the buffer has been filled if it was exhausted
  have hfilled : ∃ t, (if s.bufEnd ≤ s.bufPtr then fillBuffer cb s else s) = t ∧
      Tracks content position t ∧ cursor position t = cursor position s ∧
      (t.bufPtr < t.bufEnd ∨ t.bufPtr = t.bufEnd ∧ content.length ≤ cursor position s) := by
    split
    · next hempty =>
      obtain ⟨hnew, hcursor, hdata⟩ := h.after_fillBuffer hcb hempty
      exact ⟨_, rfl, hnew, hcursor, hdata⟩
    · next hdata => exact ⟨s, rfl, h, rfl, .inl (Nat.lt_of_not_le hdata)⟩
  obtain ⟨t, heq, ht, hcursor, hdata⟩ := hfilled
  unfold avioR8
  simp only [heq]
  rcases hdata with hlt | ⟨hptr, hend⟩
  · rw [if_pos hlt]
    obtain ⟨hcopy, hlen⟩ := ht.copyOut (show t.bufPtr + 1 ≤ t.bufEnd from hlt)
    have hsize : t.bufEnd ≤ t.buffer.length := ht.bufEnd_le
    have hslice : (slice content (cursor position t) 1).length = 1 := hcopy ▸ hlen
    rw [length_slice] at hslice
    have hinside : cursor position s < content.length := by lia
    have hbyte : t.copyOut 1 = [t.buffer.getD t.bufPtr 0] := by
      rw [AVIOContext.copyOut, List.take_one_drop_eq_of_lt_length (by lia)]
      simp [List.getD, List.getElem?_eq_getElem (show t.bufPtr < t.buffer.length by lia)]
    have hfile : slice content (cursor position t) 1 = [content[cursor position t]] := by
      rw [slice, List.take_one_drop_eq_of_lt_length (by lia)]
      rfl
    refine ⟨ht.advance hlt, ?_⟩
    rw [if_pos hinside]
    refine ⟨?_, ?_⟩
    · rw [hcopy, hfile, List.cons.injEq] at hbyte
      simp only [← hcursor]
      rw [List.getElem?_eq_getElem (by lia), hbyte.1]
    · rw [← hcursor]
      simp only [cursor]
      lia
  · rw [if_neg (Nat.not_lt.mpr hptr.ge), if_neg (Nat.not_lt.mpr hend)]
    exact ⟨ht, rfl, hcursor⟩

/-- The rounds the loop of `avio_read` needs for `size` bytes: one to fill the
buffer unless there is data, and one to take a byte out. -/
def readRounds (size : Nat) (s : AVIOContext ω) : Nat :=
  if size = 0 then 0 else if s.bufPtr < s.bufEnd then 2 * size - 1 else 2 * size

/-- The loop of `avio_read` delivers the bytes at the cursor, as many as asked for
or as the file still has.  The induction is on the rounds. -/
theorem Tracks.after_avioReadLoop (hcb : Serves cb content position) {rounds size : Nat}
    (h : Tracks content position s) (hrounds : readRounds size s ≤ rounds) :
    (avioReadLoop cb rounds size s).1 = slice content (cursor position s) size ∧
      Tracks content position (avioReadLoop cb rounds size s).2 ∧
      cursor position (avioReadLoop cb rounds size s).2 =
        cursor position s + (avioReadLoop cb rounds size s).1.length := by
  induction rounds generalizing size s with
  | zero =>
      have hzero : size = 0 := by
        unfold readRounds at hrounds
        split at hrounds
        · assumption
        · split at hrounds <;> lia
      subst hzero
      simp [avioReadLoop, h]
  | succ rounds ih =>
      unfold avioReadLoop
      by_cases hzero : size = 0
      · subst hzero
        simp [h]
      · rw [if_neg hzero]
        unfold readRounds at hrounds
        rw [if_neg hzero] at hrounds
        by_cases hdata : s.bufPtr < s.bufEnd
        · -- some bytes are taken out of the buffer
          rw [if_pos hdata] at hrounds
          set len := min (s.bufEnd - s.bufPtr) size with hlen
          have hsome : ¬ (len = 0 ∨ s.writeFlag = true) := by
            rw [h.readMode]
            simp
            lia
          have hfits : s.bufPtr + len ≤ s.bufEnd := by lia
          obtain ⟨hcopy, hcopyLen⟩ := h.copyOut hfits
          have hnext : readRounds (size - len) { s with bufPtr := s.bufPtr + len } ≤ rounds := by
            unfold readRounds
            simp only
            split
            · lia
            · split <;> lia
          obtain ⟨hbytes, htracks, hcursor⟩ := ih (h.advance hfits) hnext
          have hmoved : cursor position { s with bufPtr := s.bufPtr + len } =
              cursor position s + len := by
            simp only [cursor]
            lia
          have hsplit : size = len + (size - len) := by lia
          rw [hmoved] at hbytes hcursor
          simp only [if_neg hsome]
          refine ⟨?_, htracks, ?_⟩
          · conv_rhs => rw [hsplit, slice_add, ← hcopy, ← hbytes]
          · rw [hcursor, List.length_append, hcopyLen, Nat.add_assoc]
        · rw [if_neg hdata] at hrounds
          have hempty : s.bufEnd ≤ s.bufPtr := Nat.le_of_not_lt hdata
          have hptr : s.bufPtr = s.bufEnd := Nat.le_antisymm h.bufPtr_le hempty
          have hle := h.bufEnd_le_pos
          have hcursor : cursor position s = position s.source := by
            unfold cursor
            lia
          have hnone : min (s.bufEnd - s.bufPtr) size = 0 ∨ s.writeFlag = true := by lia
          simp only [if_pos hnone]
          by_cases hbig : s.direct = true ∨ s.bufferSize < size
          · -- the bytes come straight from the resource
            rw [if_pos hbig]
            rcases hcb.readPacketWrapper_cases s (Nat.pos_of_ne_zero hzero) with
              ⟨hinside, bytes, source, hread, hone, hmax, hbytes, hsource⟩ |
              ⟨hend, source, hread, hsource⟩
            · have hpos : s.pos + bytes.length = (position source : Int) := by
                rw [h.pos, hsource]
                norm_cast
              have hnoeof : s.eofReached = true → content.length ≤ position source := fun heof =>
                absurd hinside (Nat.not_lt.mpr (h.eof heof))
              have hnew := h.emptyBuffer hnoeof
              have hnext : readRounds (size - bytes.length) { s with
                  source := source, pos := position source, bufPtr := 0, bufEnd := 0,
                  eofReached := s.eofReached } ≤ rounds := by
                unfold readRounds
                simp only
                split <;> simp
                lia
              obtain ⟨hrest, htracks, hcursor'⟩ := ih hnew hnext
              have hmoved : cursor position { s with
                  source := source, pos := position source, bufPtr := 0, bufEnd := 0,
                  eofReached := s.eofReached } = cursor position s + bytes.length := by
                simp only [cursor, hsource]
                lia
              have hsplit : size = bytes.length + (size - bytes.length) := by lia
              rw [hmoved] at hrest hcursor'
              simp only [hread, hpos]
              refine ⟨?_, htracks, ?_⟩
              · conv_rhs => rw [hsplit, slice_add, hcursor, ← hbytes, ← hcursor, ← hrest]
              · rw [hcursor', List.length_append, Nat.add_assoc]
            · simp only [hread]
              refine ⟨?_, h.withSource hsource fun _ => hend, ?_⟩
              · rw [slice_of_le (hcursor ▸ hend)]
              · simp only [cursor, hsource, List.length_nil, Nat.add_zero]
          · -- the buffer is filled first
            rw [if_neg hbig]
            obtain ⟨hnew, hcursor', hnow⟩ := h.after_fillBuffer hcb hempty
            rcases hnow with hlt | ⟨hstill, hend⟩
            · rw [if_neg (by lia)]
              have hnext : readRounds size (fillBuffer cb s) ≤ rounds := by
                unfold readRounds
                rw [if_neg hzero, if_pos hlt]
                lia
              rw [← hcursor']
              exact ih hnew hnext
            · rw [if_pos (by lia), slice_of_le hend]
              exact ⟨rfl, hnew, hcursor'⟩

theorem Tracks.after_readResult (hcb : Serves cb content position) (h : Tracks content position s)
    (buf : Bytes) :
    Tracks content position (readResult cb buf s).2 ∧
      cursor position (readResult cb buf s).2 = cursor position s ∧
      ((readResult cb buf s).1 = .ok buf ∨ buf = [] ∧ (readResult cb buf s).1 = .error .eof) := by
  unfold readResult
  by_cases hempty : buf = []
  · obtain ⟨hnew, hcursor⟩ := h.after_avioFeof hcb
    rw [if_pos hempty, h.error]
    rcases hfeof : avioFeof cb s with ⟨eof, t⟩
    rw [hfeof] at hnew hcursor
    cases eof with
    | true => exact ⟨hnew, hcursor, .inr ⟨hempty, rfl⟩⟩
    | false => exact ⟨hnew, hcursor, .inl rfl⟩
  · rw [if_neg hempty]
    exact ⟨h, rfl, .inl rfl⟩

theorem Tracks.after_avioRead (hcb : Serves cb content position) (h : Tracks content position s)
    (size : Nat) :
    Tracks content position (avioRead cb s size).2 ∧
      cursor position (avioRead cb s size).2 =
        cursor position s + (slice content (cursor position s) size).length ∧
      ((avioRead cb s size).1 = .ok (slice content (cursor position s) size) ∨
        slice content (cursor position s) size = [] ∧ (avioRead cb s size).1 = .error .eof) := by
  have hrounds : readRounds size s ≤ 2 * size := by
    unfold readRounds
    split
    · lia
    · split <;> lia
  obtain ⟨hbytes, hnew, hcursor⟩ := h.after_avioReadLoop hcb hrounds
  rw [hbytes] at hcursor
  obtain ⟨hresult, hkept, hreturned⟩ :=
    hnew.after_readResult hcb (slice content (cursor position s) size)
  unfold avioRead
  simp only [hbytes]
  exact ⟨hresult, hkept.trans hcursor, hreturned⟩

theorem Tracks.after_avioReadPartial (hcb : Serves cb content position)
    (h : Tracks content position s) (size : Nat) :
    ∃ len ≤ size, Tracks content position (avioReadPartial cb s size).2 ∧
      cursor position (avioReadPartial cb s size).2 =
        cursor position s + (slice content (cursor position s) len).length ∧
      ((avioReadPartial cb s size).1 = .ok (slice content (cursor position s) len) ∨
        slice content (cursor position s) len = [] ∧
          (avioReadPartial cb s size).1 = .error .eof) := by
  -- after the buffer has been filled from its start if it was exhausted
  have hfilled : ∃ t, (if s.bufEnd - s.bufPtr = 0
      then fillBuffer cb { s with bufPtr := 0, bufEnd := 0 } else s) = t ∧
      Tracks content position t ∧ cursor position t = cursor position s := by
    split
    · next hempty =>
      have hptr := h.bufPtr_le
      have hle := h.bufEnd_le_pos
      have hreset := h.emptyBuffer h.eof
      rw [← h.pos] at hreset
      obtain ⟨hnew, hcursor, -⟩ := hreset.after_fillBuffer hcb (Nat.le_refl 0)
      refine ⟨_, rfl, hnew, hcursor.trans ?_⟩
      simp only [cursor]
      lia
    · exact ⟨s, rfl, h, rfl⟩
  obtain ⟨t, heq, ht, hcursor⟩ := hfilled
  have hmode : ¬ (cb.readPacket.isSome = true ∧ s.writeFlag = true) := by simp [h.readMode]
  have hptr := ht.bufPtr_le
  have hfits : t.bufPtr + min (t.bufEnd - t.bufPtr) size ≤ t.bufEnd := by lia
  obtain ⟨hcopy, hlen⟩ := ht.copyOut hfits
  have hmoved : cursor position { t with bufPtr := t.bufPtr + min (t.bufEnd - t.bufPtr) size } =
      cursor position t + (t.copyOut (min (t.bufEnd - t.bufPtr) size)).length := by
    rw [hlen]
    simp only [cursor]
    lia
  obtain ⟨hresult, hkept, hreturned⟩ := (ht.advance hfits).after_readResult hcb
    (t.copyOut (min (t.bufEnd - t.bufPtr) size))
  rw [hmoved, hcopy, hcursor] at hkept
  rw [hcopy, hcursor] at hreturned
  refine ⟨min (t.bufEnd - t.bufPtr) size, Nat.min_le_right _ _, ?_⟩
  unfold avioReadPartial
  simp only [if_neg hmode, heq]
  rw [hcopy, hcursor] at hresult ⊢
  exact ⟨hresult, hkept, hreturned⟩

/-! ## Seeking -/

/-- A seek to `offset` keeps the relation and, if it succeeds, ends there. -/
def SeekOutcome (content : Bytes) (position : ω → Nat) (offset : Int)
    (r : Except AVERROR Int × AVIOContext ω) : Prop :=
  Tracks content position r.2 ∧ ∀ p, r.1 = .ok p → p = offset ∧ r.2.tell = offset

theorem Tracks.withMark (h : Tracks content position s) (mark : Nat) :
    Tracks content position { s with bufPtrMax := mark } :=
  { h with }

variable {offset : Int}

/-- Reading up to an offset at or behind the start of the buffer. -/
theorem Tracks.after_fillUpTo (hcb : Serves cb content position) {rounds : Nat}
    (h : Tracks content position s) (hstart : s.bufferStart ≤ offset)
    (hrounds : (offset - s.pos).toNat < rounds) :
    Tracks content position (fillUpTo cb offset rounds s) ∧
      (fillUpTo cb offset rounds s).bufferStart ≤ offset ∧
      ((fillUpTo cb offset rounds s).eofReached = false →
        offset ≤ (fillUpTo cb offset rounds s).pos) := by
  induction rounds generalizing s with
  | zero => lia
  | succ rounds ih =>
    unfold fillUpTo
    by_cases hmore : s.pos < offset ∧ ¬ s.eofReached = true
    · rw [if_pos hmore]
      rcases h.fillBuffer_cases hcb with ⟨heof, -⟩ | ⟨hend, source, heq, hsource⟩ |
        ⟨hinside, -, s', heq, hnew, hcursor, hdata, hfurther, heof⟩
      · exact absurd heof hmore.2
      · -- the next round sees the end of the file
        have hnew := h.withSource hsource (fun (_ : true = true) => hend)
        rw [heq]
        have hstop : fillUpTo cb offset rounds { s with source := source, eofReached := true } =
            { s with source := source, eofReached := true } := by
          cases rounds with
          | zero => rfl
          | succ rounds => simp [fillUpTo]
        rw [hstop]
        exact ⟨hnew, hstart, by simp⟩
      · have hpos := h.pos
        have hpos' := hnew.pos
        have htell := hnew.tell
        rw [heq]
        apply ih hnew
        · unfold AVIOContext.tell at htell
          lia
        · lia
    · rw [if_neg hmore]
      refine ⟨h, hstart, fun heof => ?_⟩
      by_contra hlt
      exact hmore ⟨by lia, by simp [heof]⟩

theorem Tracks.after_seekResource (hcb : Serves cb content position) (h : Tracks content position s)
    (hoffset : 0 ≤ offset) :
    SeekOutcome content position offset (seekResource cb s offset) := by
  obtain ⟨offset, rfl⟩ := Int.eq_ofNat_of_zero_le hoffset
  have hmode : ¬ s.writeFlag = true := by simp [h.readMode]
  unfold seekResource
  simp only [if_neg hmode]
  rcases hcb.seekSource_cases s.source offset with ⟨r, source, heq, hsource⟩ |
    ⟨e, source, heq, hsource⟩
  · simp only [heq]
    have hnew := (h.emptyBuffer
      (show false = true → content.length ≤ position source by simp)).withMark 0
    rw [hsource] at hnew
    refine ⟨hnew, fun p hp => ?_⟩
    cases hp
    refine ⟨rfl, ?_⟩
    rw [hnew.tell]
    simp [cursor, hsource]
  · simp only [heq]
    refine ⟨h.withSource hsource h.eof, fun p hp => ?_⟩
    cases hp

theorem Tracks.inside (h : Tracks content position s) {ptr : Nat}
    (hptr : (ptr : Int) = offset - s.bufferStart) (hend : ptr ≤ s.bufEnd) :
    SeekOutcome content position offset
      (.ok offset, { s with bufPtr := ptr, eofReached := false }) := by
  have hnew : Tracks content position { s with bufPtr := ptr, eofReached := false } :=
    { h with bufPtr_le := hend, eof := by simp }
  refine ⟨hnew, fun p hp => ?_⟩
  cases hp
  refine ⟨rfl, ?_⟩
  have htell := hnew.tell
  have hbuffer := h.bufferStart
  simp only [cursor] at htell
  rw [htell]
  push_cast
  lia

/-- A seek to an offset at or behind the start of the buffer. -/
theorem Tracks.after_avioSeekTo_forward (hcb : Serves cb content position)
    (h : Tracks content position s) (hstart : s.bufferStart ≤ offset) (hoffset : 0 ≤ offset)
    (depth : Nat) :
    SeekOutcome content position offset (avioSeekTo cb (depth + 1) s offset) := by
  have hmode : ¬ s.writeFlag = true := by simp [h.readMode]
  have hmark := h.withMark (max s.bufPtrMax s.bufPtr)
  unfold avioSeekTo
  simp only [if_neg hmode]
  split
  · next hinside =>
    exact hmark.inside (by rw [Int.toNat_of_nonneg hinside.2.1]; rfl) (by
      show (offset - s.bufferStart).toNat ≤ s.bufEnd
      lia)
  · next houtside =>
    split
    · next hshort =>
      have hfilled := hmark.after_fillUpTo hcb hstart
        (show (offset - s.pos).toNat < (offset - s.pos).toNat + 1 from Nat.lt_succ_self _)
      generalize fillUpTo cb offset ((offset - s.pos).toNat + 1)
        { s with bufPtrMax := max s.bufPtrMax s.bufPtr } = t at hfilled ⊢
      obtain ⟨hnew, hstart', hreached⟩ := hfilled
      cases heof : t.eofReached with
      | true =>
        rw [if_pos rfl]
        refine ⟨hnew, fun p hp => ?_⟩
        cases hp
      | false =>
        rw [if_neg (by simp)]
        have hpos := hreached heof
        have hbuffer := hnew.bufferStart
        have hposition := hnew.pos
        have hle := hnew.bufEnd_le_pos
        exact hnew.inside (by lia) (by lia)
    · split
      · next hback => exact absurd hback.2.1 (by lia)
      · exact hmark.after_seekResource hcb hoffset

theorem Tracks.after_rewind (hcb : Serves cb content position) (h : Tracks content position s)
    {start : Nat} (hsource : position source = start) :
    Tracks content position (fillBuffer cb { s with
      source := source, bufEnd := 0, bufPtr := 0, pos := start, eofReached := false }) ∧
    (fillBuffer cb { s with
      source := source, bufEnd := 0, bufPtr := 0, pos := start,
      eofReached := false }).bufferStart ≤ start := by
  have hreset := h.emptyBuffer (show false = true → content.length ≤ position source by simp)
  rw [hsource] at hreset
  obtain ⟨hnew, hcursor, -⟩ := hreset.after_fillBuffer hcb (Nat.le_refl 0)
  refine ⟨hnew, ?_⟩
  have htell := hnew.tell
  rw [hcursor] at htell
  simp only [cursor, hsource] at htell
  unfold AVIOContext.tell at htell
  lia

/-- A seek to any offset; a short way back the buffer is filled again from half
its size before. -/
theorem Tracks.after_avioSeekTo (hcb : Serves cb content position) (h : Tracks content position s)
    (hoffset : 0 ≤ offset) :
    SeekOutcome content position offset (avioSeekTo cb 2 s offset) := by
  by_cases hforward : s.bufferStart ≤ offset
  · exact h.after_avioSeekTo_forward hcb hforward hoffset 1
  · have hmode : ¬ s.writeFlag = true := by simp [h.readMode]
    have hmark := h.withMark (max s.bufPtrMax s.bufPtr)
    have hbuffer := h.bufferStart
    unfold avioSeekTo
    simp only [if_neg hmode]
    rw [if_neg (fun hinside => hforward (by lia)), if_neg (fun hshort => hforward (by lia))]
    split
    · next hback =>
      -- the buffer restarts before the offset
      set pos := s.bufferStart - min ((s.bufEnd / 2 : Nat) : Int) s.bufferStart with hpos
      obtain ⟨start, hstart⟩ : ∃ start : Nat, pos = start :=
        ⟨pos.toNat, (Int.toNat_of_nonneg (by lia)).symm⟩
      rw [hstart]
      rcases hcb.seekSource_cases s.source start with ⟨r, source, heq, hsource⟩ |
        ⟨e, source, heq, hsource⟩
      · simp only [heq]
        obtain ⟨hnew, hstart'⟩ := hmark.after_rewind hcb hsource
        exact hnew.after_avioSeekTo_forward hcb (by lia) hoffset 0
      · simp only [heq]
        refine ⟨hmark.withSource hsource h.eof, fun p hp => ?_⟩
        cases hp
    · exact hmark.after_seekResource hcb hoffset

theorem Tracks.after_avioSeek_set (hcb : Serves cb content position) (h : Tracks content position s)
    (offset : Int) :
    SeekOutcome content position offset (avioSeek cb s offset .seekSet) := by
  unfold avioSeek
  by_cases hneg : offset < 0
  · simp only [if_pos hneg]
    refine ⟨h, fun p hp => ?_⟩
    cases hp
  · simp only [if_neg hneg]
    exact h.after_avioSeekTo hcb (Int.not_lt.mp hneg)

theorem Tracks.after_avioSkip (hcb : Serves cb content position) (h : Tracks content position s)
    (offset : Int) :
    SeekOutcome content position (s.tell + offset) (avioSkip cb s offset) := by
  unfold avioSkip avioSeek
  by_cases hzero : offset = 0
  · simp only [if_pos hzero]
    refine ⟨h, fun p hp => ?_⟩
    cases hp
    rw [hzero, add_zero]
    exact ⟨rfl, rfl⟩
  · simp only [if_neg hzero]
    split
    · refine ⟨h, fun p hp => ?_⟩
      cases hp
    · split
      · refine ⟨h, fun p hp => ?_⟩
        cases hp
      · next hpos =>
        have hcomm : offset + (s.bufferStart + s.bufPtr) = s.tell + offset := add_comm _ _
        rw [hcomm] at hpos ⊢
        exact h.after_avioSeekTo hcb (Int.not_lt.mp hpos)

/-! ## Runs -/

/-- The calls on a context for reading. -/
inductive ReadOp
  | r8
  | read (size : Nat)
  | readPartial (size : Nat)
  | seek (offset : Int)
  | skip (offset : Int)
  | feof
  deriving DecidableEq, Repr

/-- What a call returns. -/
inductive ReadResult
  | byte (b : UInt8)
  | bytes (r : Except AVERROR Bytes)
  | offset (r : Except AVERROR Int)
  | flag (b : Bool)

/-- One call on the context. -/
def readStep (cb : Callbacks ω) (s : AVIOContext ω) : ReadOp → ReadResult × AVIOContext ω
  | .r8 => let (b, s) := avioR8 cb s; (.byte b, s)
  | .read size => let (r, s) := avioRead cb s size; (.bytes r, s)
  | .readPartial size => let (r, s) := avioReadPartial cb s size; (.bytes r, s)
  | .seek offset => let (r, s) := avioSeek cb s offset .seekSet; (.offset r, s)
  | .skip offset => let (r, s) := avioSkip cb s offset; (.offset r, s)
  | .feof => let (b, s) := avioFeof cb s; (.flag b, s)

/-- What the calls do to a cursor over a file: the position before and after, and
the result.  A read delivers the bytes at the position and moves it past them, a
successful seek moves it to the requested offset, and a failed seek may leave it
anywhere. -/
def CursorStep (content : Bytes) (before after : Int) : ReadOp → ReadResult → Prop
  | .r8, .byte b =>
    if before < content.length then content[before.toNat]? = some b ∧ after = before + 1
    else b = 0 ∧ after = before
  | .read size, .bytes (.ok bytes) =>
    bytes = slice content before.toNat size ∧ after = before + bytes.length
  | .read size, .bytes (.error _) => slice content before.toNat size = [] ∧ after = before
  | .readPartial size, .bytes (.ok bytes) =>
    bytes.length ≤ size ∧ bytes = slice content before.toNat bytes.length ∧
      after = before + bytes.length
  | .readPartial _, .bytes (.error _) => after = before
  | .seek offset, .offset (.ok p) => p = offset ∧ after = offset
  | .skip offset, .offset (.ok p) => p = before + offset ∧ after = before + offset
  | .seek _, .offset (.error _) => True
  | .skip _, .offset (.error _) => True
  | .feof, .flag _ => after = before
  | _, _ => False

/-- Every call keeps the relation to the file and acts on the cursor. -/
theorem Tracks.step (hcb : Serves cb content position) (h : Tracks content position s) (op : ReadOp) :
    Tracks content position (readStep cb s op).2 ∧
      CursorStep content s.tell (readStep cb s op).2.tell op (readStep cb s op).1 := by
  have htell := h.tell
  cases op with
  | r8 =>
    obtain ⟨hnew, hbyte⟩ := h.after_avioR8 hcb
    refine ⟨hnew, ?_⟩
    show if s.tell < content.length then _ else _
    have htell' := hnew.tell
    by_cases hlt : cursor position s < content.length
    · rw [if_pos hlt] at hbyte
      rw [htell, if_pos (by exact_mod_cast hlt)]
      refine ⟨hbyte.1, ?_⟩
      show (avioR8 cb s).2.tell = _
      rw [htell', hbyte.2]
      norm_cast
    · rw [if_neg hlt] at hbyte
      rw [htell, if_neg (by exact_mod_cast hlt)]
      refine ⟨hbyte.1, ?_⟩
      show (avioR8 cb s).2.tell = _
      rw [htell', hbyte.2]
  | read size =>
    obtain ⟨hnew, hcursor, hresult⟩ := h.after_avioRead hcb size
    refine ⟨hnew, ?_⟩
    have htell' := hnew.tell
    rw [hcursor] at htell'
    simp only [readStep]
    rcases hresult with hok | ⟨hnil, herror⟩
    · rw [hok]
      refine ⟨by rw [htell, Int.toNat_natCast], ?_⟩
      rw [htell', htell]
      norm_cast
    · rw [herror]
      refine ⟨by rw [htell, Int.toNat_natCast, hnil], ?_⟩
      rw [htell', hnil, htell]
      rfl
  | readPartial size =>
    obtain ⟨len, hlen, hnew, hcursor, hresult⟩ := h.after_avioReadPartial hcb size
    refine ⟨hnew, ?_⟩
    have htell' := hnew.tell
    rw [hcursor] at htell'
    simp only [readStep]
    rcases hresult with hok | ⟨hnil, herror⟩
    · rw [hok]
      have hshort := length_slice content (cursor position s) len
      refine ⟨by lia, ?_, ?_⟩
      · rw [htell, Int.toNat_natCast, slice_length]
      · rw [htell', htell]
        norm_cast
    · rw [herror]
      show (avioReadPartial cb s size).2.tell = s.tell
      rw [htell', hnil, htell]
      rfl
  | seek offset =>
    obtain ⟨hnew, hresult⟩ := h.after_avioSeek_set hcb offset
    refine ⟨hnew, ?_⟩
    simp only [readStep]
    cases hr : (avioSeek cb s offset .seekSet).1 with
    | error e => trivial
    | ok p => exact hresult p hr
  | skip offset =>
    obtain ⟨hnew, hresult⟩ := h.after_avioSkip hcb offset
    refine ⟨hnew, ?_⟩
    simp only [readStep]
    cases hr : (avioSkip cb s offset).1 with
    | error e => trivial
    | ok p => exact hresult p hr
  | feof =>
    obtain ⟨hnew, hcursor⟩ := h.after_avioFeof hcb
    refine ⟨hnew, ?_⟩
    show (avioFeof cb s).2.tell = s.tell
    rw [hnew.tell, hcursor, htell]

/-- A context for reading as `ffio_init_context` sets it up, with the options that
are set on an opened context. -/
def openForRead (cb : Callbacks ω) (buffer : Bytes) (source : ω) (seekable : Bool)
    (maxPacketSize : Nat) (shortSeekThreshold : Int) : AVIOContext ω :=
  { ffioInitContext cb buffer false source with
    seekable := seekable
    maxPacketSize := maxPacketSize
    shortSeekThreshold := shortSeekThreshold }

theorem tracks_openForRead (hcb : Serves cb content position) {buffer : Bytes}
    (hbuffer : 0 < buffer.length) (hsource : position source = 0) (seekable : Bool)
    (maxPacketSize : Nat) (shortSeekThreshold : Int) :
    Tracks content position
      (openForRead cb buffer source seekable maxPacketSize shortSeekThreshold) := by
  obtain ⟨readPacket, hsome, -⟩ := hcb.readPacket
  constructor <;> simp [openForRead, ffioInitContext, hsome, hsource, AVIOContext.bufferSize,
    hbuffer]

/-- A file in memory whose reads return at most two bytes. -/
def memoryFile (content : Bytes) : Callbacks Nat where
  readPacket := some fun pos size =>
    if pos < content.length then
      (.ok (slice content pos (min size 2)), pos + (slice content pos (min size 2)).length)
    else (.error .eof, pos)
  writePacket := none
  seek := some fun pos offset whence =>
    if whence = .seekSet ∧ 0 ≤ offset then (.ok offset, offset.toNat) else (.error .einval, pos)
  shortSeekGet := none

theorem serves_memoryFile (content : Bytes) : Serves (memoryFile content) content id where
  readPacket := by
    refine ⟨_, rfl, fun pos size hsize => ?_⟩
    have hlen := length_slice content pos (min size 2)
    by_cases hlt : pos < content.length
    · refine .inl ⟨hlt, slice content pos (min size 2), _, if_pos hlt, ?_, ?_, ?_, rfl⟩
      · lia
      · lia
      · exact (slice_length content pos _).symm
    · exact .inr ⟨Nat.le_of_not_lt hlt, pos, if_neg hlt, rfl⟩
  seek := by
    intro seek hseek pos offset
    cases hseek
    exact .inl ⟨offset, offset, by simp, rfl⟩

end FFmpeg.Libavformat.Avio
