import FFmpeg.Common.File
import FFmpeg.Libavcodec.Parser

/-!
# A parser loses no byte

The frames of a parser, one behind the other, are its input, whatever the buffers and the
ends of the frames are; and each frame ends where it was chosen to.
-/

namespace FFmpeg.Libavcodec.Parser

open Common Libavutil

variable {malloc : Malloc} {pc : ParseContext} {held data padding : Bytes} {next : Int}

/-! ## What a parser holds -/

/-- The bytes that are held are at the start of the buffer. -/
structure Kept (pc : ParseContext) (held : Bytes) : Prop where
  size_le : pc.bufferSize ≤ pc.buffer.length
  le_size : pc.index ≤ pc.bufferSize
  overread : pc.overread = 0
  index : pc.index = held.length
  bytes : pc.buffer.take pc.index = held

/-- Between two calls they may also be the overread bytes of the last frame. -/
structure Holds (pc : ParseContext) (held : Bytes) : Prop where
  size_le : pc.bufferSize ≤ pc.buffer.length
  index : pc.index + pc.overread = held.length
  bytes : pc.overread = 0 ∧ pc.index ≤ pc.bufferSize ∧ pc.buffer.take pc.index = held ∨
    pc.index = 0 ∧ ∃ i : Nat, pc.overreadIndex = i ∧ i + pc.overread ≤ pc.bufferSize ∧
      slice pc.buffer i pc.overread = held

theorem holds_zero : Holds ParseContext.zero [] := ⟨le_rfl, rfl, Or.inl ⟨rfl, le_rfl, rfl⟩⟩

theorem Kept.holds (h : Kept pc held) : Holds pc held :=
  ⟨h.size_le, by rw [h.overread, h.index, Nat.add_zero], Or.inl ⟨h.overread, h.le_size, h.bytes⟩⟩

theorem Kept.le_length (h : Kept pc held) : held.length ≤ pc.buffer.length := by
  rw [← h.index]
  exact h.le_size.trans h.size_le

/-! ## Overread bytes -/

/-- Bytes are copied to the front; the ones still to be copied are not overwritten. -/
theorem copyOverread_eq {n i : Nat} (hi : pc.overreadIndex = i) (hle : pc.index ≤ i)
    (hend : i + n ≤ pc.buffer.length) :
    ∃ pc', copyOverread n pc = some pc' ∧ pc'.overread = 0 ∧ pc'.index = pc.index + n ∧
      pc'.bufferSize = pc.bufferSize ∧ pc'.buffer.length = pc.buffer.length ∧
      pc'.buffer.take pc'.index = pc.buffer.take pc.index ++ slice pc.buffer i n := by
  induction n generalizing pc i with
  | zero => exact ⟨_, rfl, rfl, rfl, rfl, rfl, by rw [slice_zero, List.append_nil]⟩
  | succ n ih =>
    have hbounds : 0 ≤ pc.overreadIndex ∧ pc.overreadIndex < pc.buffer.length ∧
        pc.index < pc.buffer.length := by lia
    obtain ⟨b, hb⟩ : ∃ b, pc.buffer[i]? = some b :=
      ⟨pc.buffer[i], List.getElem?_eq_getElem (by lia)⟩
    have hget : pc.buffer.getD pc.overreadIndex.toNat 0 = b := by
      rw [hi, Int.toNat_natCast, List.getD_eq_getElem?_getD, hb]
      rfl
    rw [copyOverread, if_pos hbounds, hget]
    obtain ⟨pc', hcopy, hover, hindex, hsize, hlength, htake⟩ := @ih { pc with
        buffer := pc.buffer.set pc.index b
        index := pc.index + 1
        overreadIndex := pc.overreadIndex + 1 } (i + 1)
      (by rw [hi]; rfl) (by dsimp only; lia) (by dsimp only; rw [List.length_set]; lia)
    rw [List.length_set] at hlength
    refine ⟨pc', hcopy, hover, by rw [hindex]; dsimp only; lia, hsize, hlength, ?_⟩
    have hfront : (pc.buffer.set pc.index b).take (pc.index + 1) =
        pc.buffer.take pc.index ++ [b] := by
      rw [List.take_add_one, List.take_set_of_le le_rfl, List.getElem?_set_self hbounds.2.2]
      rfl
    have hbehind : slice (pc.buffer.set pc.index b) (i + 1) n = slice pc.buffer (i + 1) n := by
      rw [slice, slice, List.drop_set_of_lt (by lia)]
    have hfirst : slice pc.buffer i 1 = [b] := by
      apply List.ext_getElem?
      intro k
      rw [getElem?_slice]
      cases k with
      | zero => simpa using hb
      | succ k => simp
    rw [htake]
    dsimp only
    rw [hfront, hbehind, Nat.add_comm n 1, slice_add, hfirst, List.append_assoc]

theorem Holds.copyOverread (h : Holds pc held) :
    ∃ pc', Parser.copyOverread pc.overread pc = some pc' ∧ Kept pc' held := by
  have hindex := h.index
  have hsizeLe := h.size_le
  rcases h.bytes with ⟨hzero, hle, htake⟩ | ⟨hzero, i, hi, hend, hslice⟩
  · rw [hzero, Parser.copyOverread]
    exact ⟨_, rfl, hsizeLe, hle, rfl, by dsimp only; lia, htake⟩
  · obtain ⟨pc', hcopy, hover, hindex', hsize, hlength, htake⟩ :=
      copyOverread_eq hi (by lia) (hend.trans hsizeLe)
    refine ⟨pc', hcopy, by rw [hsize, hlength]; exact hsizeLe, by lia, hover, by lia, ?_⟩
    rw [htake, hzero, List.take_zero, List.nil_append, hslice]

theorem storeOverread_eq {n : Nat} (hn : n ≤ pc.lastIndex) (hle : pc.lastIndex ≤ pc.buffer.length) :
    ∃ state state64, storeOverread n pc =
      some { pc with state := state, state64 := state64, overread := pc.overread + n } := by
  induction n generalizing pc with
  | zero => exact ⟨pc.state, pc.state64, rfl⟩
  | succ n ih =>
    rw [storeOverread, if_pos ⟨hn, by lia⟩]
    obtain ⟨state, state64, hstore⟩ := @ih { pc with
      state := pc.state <<< 8 |||
        BitVec.ofNat 32 (pc.buffer.getD (pc.lastIndex - (n + 1)) 0).toNat
      state64 := pc.state64 <<< 8 |||
        BitVec.ofNat 64 (pc.buffer.getD (pc.lastIndex - (n + 1)) 0).toNat
      overread := pc.overread + 1 } (by dsimp only; lia) hle
    refine ⟨state, state64, hstore.trans ?_⟩
    dsimp only
    rw [Nat.add_assoc, Nat.add_comm 1]

theorem setOverread_eq (hzero : pc.overread = 0) (hnext : 0 ≤ pc.lastIndex + next)
    (hle : pc.lastIndex ≤ pc.buffer.length) :
    ∃ state state64, setOverread pc next =
      some { pc with state := state, state64 := state64, overread := (-next).toNat } := by
  unfold setOverread
  by_cases hfar : next < -8
  · rw [if_pos hfar]
    have hlast : 8 ≤ ({ pc with
      overread := pc.overread + (-8 - next).toNat } : ParseContext).lastIndex := by
      dsimp only
      lia
    obtain ⟨state, state64, hstore⟩ := storeOverread_eq hlast hle
    refine ⟨state, state64, hstore.trans ?_⟩
    have hcount : pc.overread + (-8 - next).toNat + 8 = (-next).toNat := by lia
    dsimp only
    rw [hcount]
  · rw [if_neg hfar]
    obtain ⟨state, state64, hstore⟩ := storeOverread_eq (n := (-next).toNat) (by lia) hle
    refine ⟨state, state64, hstore.trans ?_⟩
    rw [hzero, Nat.zero_add]

/-! ## Frames -/

/-- There is no memory for so many bytes. -/
def OutOfMemory (malloc : Malloc) : Prop := ∃ n, 2 ^ 31 - 1 < n ∨ malloc n = none

theorem avFastRealloc_none {ptr : Bytes} {size minSize size' : Nat}
    (h : avFastRealloc malloc ptr size minSize = (none, size')) : OutOfMemory malloc := by
  unfold avFastRealloc at h
  split_ifs at h with hfits hlarge
  · simp at h
  · exact ⟨minSize, Or.inl (by lia)⟩
  · dsimp only at h
    split at h
    · rename_i hnone
      rw [avRealloc, avMalloc, Option.map_eq_none_iff, if_neg (by lia),
        Option.map_eq_none_iff] at hnone
      exact ⟨_, Or.inr hnone⟩
    · simp at h

theorem copyIn_eq {buf : Bytes} {size : Nat} (hbuf : size ≤ buf.length)
    (hroom : pc.index + size ≤ pc.buffer.length) :
    copyIn pc buf size = some { pc with buffer := overwrite pc.buffer pc.index (buf.take size) } :=
  if_pos ⟨hbuf, hroom⟩

theorem Kept.take_overwrite (h : Kept pc held) (new : Bytes) :
    (overwrite pc.buffer pc.index new).take (pc.index + new.length) = held ++ new := by
  have hle := h.le_length
  rw [Common.take_overwrite (by rw [h.index]; exact hle), h.bytes]

theorem Kept.realloc (h : Kept pc held) {minSize size : Nat} {block : Bytes}
    (hnew : avFastRealloc malloc pc.buffer pc.bufferSize minSize = (some block, size)) :
    Kept { pc with buffer := block, bufferSize := size } held ∧ minSize ≤ size := by
  obtain ⟨hmin, hmono, hsize, htake⟩ := avFastRealloc_some h.size_le hnew
  have hle := h.le_size
  refine ⟨⟨hsize, hle.trans hmono, h.overread, h.index, ?_⟩, hmin⟩
  rw [← h.bytes]
  exact htake pc.index (hle.trans h.size_le) (hle.trans hmono)

/-- Bytes are kept behind the ones that are held. -/
theorem Kept.keepBytes (h : Kept pc held) (malloc : Malloc) (data padding : Bytes) :
    ∃ r, Parser.keepBytes malloc pc (data ++ padding) data.length = some r ∧
      ((r.1 = .error .enomem ∧ OutOfMemory malloc) ∨
        r.1 = .ok (-1) ∧ Kept r.2.2 (held ++ data)) := by
  unfold Parser.keepBytes
  obtain ⟨⟨block, size⟩, hnew⟩ : ∃ new, avFastRealloc malloc pc.buffer pc.bufferSize
    (data.length + pc.index + avInputBufferPaddingSize) = new := ⟨_, rfl⟩
  dsimp only
  rw [hnew]
  cases block with
  | none => exact ⟨_, rfl, Or.inl ⟨rfl, avFastRealloc_none hnew⟩⟩
  | some block =>
    have hindex := h.index
    obtain ⟨hkept, hroom⟩ := h.realloc hnew
    have hsizeLe : size ≤ block.length := hkept.size_le
    have hdata : data.length ≤ (data ++ padding).length := by
      rw [List.length_append]
      lia
    have hfits : ({ pc with buffer := block, bufferSize := size } : ParseContext).index +
        data.length ≤ ({ pc with buffer := block, bufferSize := size } : ParseContext).buffer.length
        := by
      dsimp only
      lia
    have hcopy := copyIn_eq hdata hfits
    rw [List.take_left] at hcopy
    dsimp only
    rw [hcopy]
    refine ⟨_, rfl, Or.inr ⟨rfl, ?_, ?_, h.overread, ?_, ?_⟩⟩
    · dsimp only
      rw [length_overwrite_of_le (by lia)]
      exact hsizeLe
    · dsimp only
      lia
    · dsimp only
      rw [List.length_append, hindex]
    · exact hkept.take_overwrite data

/-- What is copied behind the held bytes: what there is up to `next`, and padding. -/
theorem Kept.copyFrame (h : Kept pc held) (hnext : next ≤ data.length)
    (hpadding : padding.length = avInputBufferPaddingSize)
    (hroom : (next + pc.index + avInputBufferPaddingSize).toNat ≤ pc.buffer.length) :
    ∃ copied, Parser.copyFrame pc next (data ++ padding) = some copied ∧ Kept copied held ∧
      copied.lastIndex = pc.lastIndex ∧ copied.overreadIndex = pc.overreadIndex ∧
      copied.buffer.take (held.length + next).toNat =
        (held ++ data).take (held.length + next).toNat := by
  have hpad : avInputBufferPaddingSize = 64 := rfl
  have hindex := h.index
  have hle := h.le_length
  unfold Parser.copyFrame
  by_cases hnear : next > -avInputBufferPaddingSize
  · obtain ⟨size, hsize⟩ : ∃ size, size = (next + avInputBufferPaddingSize).toNat := ⟨_, rfl⟩
    have hlength : ((data ++ padding).take size).length = size := by
      rw [List.length_take, List.length_append]
      lia
    have htake := h.take_overwrite ((data ++ padding).take size)
    rw [if_pos hnear, ← hsize, copyIn_eq (by rw [List.length_append]; lia) (by lia)]
    refine ⟨_, rfl, ⟨?_, h.le_size, h.overread, hindex, ?_⟩, rfl, rfl, ?_⟩
    · have hsizeLe := h.size_le
      dsimp only
      rw [length_overwrite_of_le (by lia)]
      exact hsizeLe
    · dsimp only
      rw [take_overwrite_of_le le_rfl (by lia), h.bytes]
    · have hshort := congrArg (List.take (held.length + next).toNat) htake
      rw [List.take_take, Nat.min_eq_left (by lia)] at hshort
      have hsame : ((data ++ padding).take size).take ((held.length + next).toNat - held.length) =
          data.take ((held.length + next).toNat - held.length) := by
        rw [List.take_take, Nat.min_eq_left (by lia), List.take_append_of_le_length (by lia)]
      dsimp only
      rw [hshort, List.take_append, hsame, ← List.take_append]
  · refine ⟨pc, if_neg hnear, h, rfl, rfl, ?_⟩
    have htake := congrArg (List.take (held.length + next).toNat) h.bytes
    rw [List.take_take, Nat.min_eq_left (by lia)] at htake
    rw [htake, List.take_append_of_le_length (by lia)]

theorem Kept.holds_drop (h : Kept pc held) (hlow : 0 ≤ held.length + next)
    (hindex : pc.overreadIndex = held.length + next) {state : BitVec 32} {state64 : BitVec 64} :
    Holds { pc with index := 0, state := state, state64 := state64, overread := (-next).toNat }
      (held.drop (held.length + next).toNat) := by
  have hle := h.le_size
  have hheld := h.index
  refine ⟨h.size_le, ?_, ?_⟩
  · dsimp only
    rw [List.length_drop]
    lia
  · by_cases hnext : 0 ≤ next
    · refine Or.inl ⟨?_, Nat.zero_le _, ?_⟩
      · dsimp only
        lia
      · rw [List.drop_eq_nil_of_le (by lia)]
        rfl
    · refine Or.inr ⟨rfl, (held.length + next).toNat, ?_, ?_, ?_⟩
      · dsimp only
        lia
      · dsimp only
        lia
      · have hdrop := congrArg (List.drop (held.length + next).toNat) h.bytes
        have hcount : pc.index - (held.length + next).toNat = (-next).toNat := by lia
        rw [List.drop_take, hcount] at hdrop
        exact hdrop

/-- **The end of a frame**: the frame, and the bytes that are held behind it. -/
theorem Kept.outputFrame (h : Kept pc held) (hlast : pc.lastIndex = pc.index) (malloc : Malloc)
    (hpadding : padding.length = avInputBufferPaddingSize) (hlow : 0 ≤ held.length + next)
    (hnext : next ≤ data.length) :
    ∃ r, Parser.outputFrame malloc pc next (data ++ padding) = some r ∧
      ((r.1 = .error .enomem ∧ OutOfMemory malloc) ∨
        r.1 = .ok 0 ∧ r.2.1.size = held.length + next ∧
          r.2.1.bytes.take (held.length + next).toNat =
            (held ++ data).take (held.length + next).toNat ∧
          Holds r.2.2 (held.drop (held.length + next).toNat)) := by
  have hindex := h.index
  unfold Parser.outputFrame
  by_cases hpos : 0 < pc.index
  · dsimp only
    rw [if_pos hpos]
    obtain ⟨⟨block, size⟩, hnew⟩ : ∃ new, avFastRealloc malloc pc.buffer pc.bufferSize
      (next + pc.index + avInputBufferPaddingSize).toNat = new := ⟨_, rfl⟩
    rw [hnew]
    cases block with
    | none => exact ⟨_, rfl, Or.inl ⟨rfl, avFastRealloc_none hnew⟩⟩
    | some block =>
      obtain ⟨hkept, hroom⟩ := h.realloc hnew
      have hsizeLe : size ≤ block.length := hkept.size_le
      have hmoved : Kept { pc with
          overreadIndex := pc.index + next, buffer := block, bufferSize := size } held :=
        ⟨hkept.size_le, hkept.le_size, h.overread, hindex, hkept.bytes⟩
      obtain ⟨copied, hcopy, hcopied, hcopiedLast, hcopiedIndex, htake⟩ :=
        hmoved.copyFrame hnext hpadding (hroom.trans hsizeLe)
      have hcopiedLe := hcopied.le_length
      dsimp only at hcopiedLast hcopiedIndex
      have hback : 0 ≤ (({ copied with index := 0 } : ParseContext).lastIndex : Int) + next := by
        dsimp only
        lia
      have hzero : ({ copied with index := 0 } : ParseContext).overread = 0 := hcopied.overread
      obtain ⟨state, state64, hover⟩ := setOverread_eq hzero hback
        (by dsimp only; lia)
      dsimp only
      rw [hcopy, Option.bind_eq_bind, Option.bind_some, hover]
      refine ⟨_, rfl, Or.inr ⟨rfl, ?_, htake, hcopied.holds_drop hlow ?_⟩⟩
      · dsimp only
        rw [hindex]
      · rw [hcopiedIndex, hindex]
  · have hempty : held = [] := List.eq_nil_of_length_eq_zero (by lia)
    have hsize : (pc.index : Int) + next = next := by lia
    have hzero : (-next).toNat = 0 := by
      rw [hempty] at hlow
      have hnonneg : 0 ≤ 0 + next := hlow
      lia
    dsimp only
    rw [if_neg hpos, setOverread, if_neg (by lia), hzero, storeOverread]
    refine ⟨_, rfl, Or.inr ⟨rfl, ?_, ?_, ?_⟩⟩
    · rw [hempty]
      dsimp only
      rw [List.length_nil]
      lia
    · rw [hempty]
      dsimp only
      rw [List.length_nil, Nat.cast_zero, Int.zero_add, List.nil_append,
        List.take_append_of_le_length (by lia)]
    · rw [hempty, List.drop_nil]
      refine ⟨h.size_le, ?_, Or.inl ⟨h.overread, h.le_size, ?_⟩⟩
      · dsimp only
        rw [h.overread, hindex, hempty]
        rfl
      · dsimp only
        rw [hindex, hempty]
        rfl

/-- The end that is taken: at the end of the stream, what is held is a frame. -/
def chosen (bufSize : Nat) (next : Int) : Int :=
  if bufSize = 0 ∧ next = endNotFound then 0 else next

/-- **A call**: bytes are kept, or there is a frame and the bytes that are held behind it. -/
theorem Holds.ffCombineFrame (h : Holds pc held) (malloc : Malloc)
    (hpadding : padding.length = avInputBufferPaddingSize)
    (hlow : next ≠ endNotFound → 0 ≤ held.length + next) (hnext : next ≤ data.length) :
    ∃ r, Parser.ffCombineFrame malloc pc next (data ++ padding) data.length = some r ∧
      ((r.1 = .error .enomem ∧ OutOfMemory malloc) ∨
        (r.1 = .ok (-1) ∧ chosen data.length next = endNotFound ∧ Holds r.2.2 (held ++ data)) ∨
          r.1 = .ok 0 ∧ chosen data.length next ≠ endNotFound ∧
            0 ≤ held.length + chosen data.length next ∧
            r.2.1.size = held.length + chosen data.length next ∧
            r.2.1.bytes.take (held.length + chosen data.length next).toNat =
              (held ++ data).take (held.length + chosen data.length next).toNat ∧
            Holds r.2.2 (held.drop (held.length + chosen data.length next).toNat)) := by
  obtain ⟨pc', hcopy, hkept⟩ := h.copyOverread
  have hsplit : chosen data.length next ≠ endNotFound →
      0 ≤ held.length + chosen data.length next ∧ chosen data.length next ≤ data.length := by
    unfold chosen
    intro hne
    split_ifs at hne ⊢ with hflush
    · lia
    · exact ⟨hlow hne, hnext⟩
  have hstart : Kept { pc' with lastIndex := pc'.index } held :=
    ⟨hkept.size_le, hkept.le_size, hkept.overread, hkept.index, hkept.bytes⟩
  unfold Parser.ffCombineFrame
  rw [hcopy, Option.bind_eq_bind, Option.bind_some, if_neg (by lia)]
  dsimp only
  rw [← chosen]
  by_cases hend : chosen data.length next = endNotFound
  · rw [if_pos hend]
    obtain ⟨r, heq, hr⟩ := hstart.keepBytes malloc data padding
    rcases hr with hr | ⟨hret, hkeeps⟩
    · exact ⟨r, heq, Or.inl hr⟩
    · exact ⟨r, heq, Or.inr (Or.inl ⟨hret, hend, hkeeps.holds⟩)⟩
  · obtain ⟨hlow', hnext'⟩ := hsplit hend
    have hassert : ¬ (chosen data.length next < 0 ∧ pc'.buffer = []) := by
      rintro ⟨hneg, hnull⟩
      have hle := hkept.le_length
      rw [hnull, List.length_nil] at hle
      lia
    rw [if_neg hend, if_neg hassert]
    obtain ⟨r, heq, hr⟩ := hstart.outputFrame rfl malloc hpadding hlow' hnext'
    rcases hr with hr | ⟨hret, hsize, hbytes, hholds⟩
    · exact ⟨r, heq, Or.inl hr⟩
    · exact ⟨r, heq, Or.inr (Or.inr ⟨hret, hend, hlow', hsize, hbytes, hholds⟩)⟩

/-! ## Streams -/

theorem Parsing.flatten_dropBuf (s : Parsing) {n : Nat} (h : n ≤ s.buf.length) :
    s.buf.take n ++ (dropBuf n s.bufs).flatten = s.bufs.flatten := by
  unfold Parsing.buf at *
  cases hbufs : s.bufs with
  | nil => rw [dropBuf, List.headD_nil, List.take_nil, List.nil_append]
  | cons b bufs =>
    rw [hbufs] at h
    have hle : n ≤ b.length := h
    rw [dropBuf, List.headD_cons, List.flatten_cons]
    split_ifs with hlt
    · rw [List.flatten_cons, ← List.append_assoc, List.take_append_drop]
    · rw [List.take_of_length_le (by lia)]

/-- The decisions that a parser may make: no end, or an end from the first byte that is held
to the last byte of the buffer. -/
def ValidSplit (s : Parsing) (next : Int) : Prop :=
  next = endNotFound ∨ (-(s.pc.index + s.pc.overread : Int) ≤ next ∧ next ≤ s.buf.length)

/-- Calls of a parser that do not fail, and their frames. -/
inductive ParserRun : Parsing → List Frame → Parsing → Prop
  | nil (s : Parsing) : ParserRun s [] s
  | keep {s s' s'' : Parsing} {malloc : Malloc} {padding : Bytes} {next : Int}
      {frames : List Frame} (hnext : ValidSplit s next)
      (hpadding : padding.length = avInputBufferPaddingSize)
      (hstep : avParserParse2 malloc padding next s = some (.ok none, s'))
      (hrun : ParserRun s' frames s'') : ParserRun s frames s''
  | frame {s s' s'' : Parsing} {malloc : Malloc} {padding : Bytes} {next : Int} {frame : Frame}
      {frames : List Frame} (hnext : ValidSplit s next)
      (hpadding : padding.length = avInputBufferPaddingSize)
      (hstep : avParserParse2 malloc padding next s = some (.ok (some frame), s'))
      (hrun : ParserRun s' frames s'') : ParserRun s (frame :: frames) s''

/-- The frames follow each other from a position on, and each one ends where it should. -/
def EndsAt : Nat → List Frame → Prop
  | _, [] => True
  | start, frame :: frames =>
    frame.ends = (start + frame.bytes.length : Nat) ∧ EndsAt (start + frame.bytes.length) frames

/-- The parser holds the bytes from a position in the stream on. -/
structure HoldsFrom (s : Parsing) (start : Nat) (held : Bytes) : Prop where
  holds : Holds s.pc held
  curOffset : s.curOffset = start + held.length

/-- **One call**: there is no frame, and the stream from the same position is left; or there
is a frame, which is the next stretch of the stream. -/
theorem HoldsFrom.avParserParse2 {s : Parsing} {start : Nat} (h : HoldsFrom s start held)
    (malloc : Malloc) (hpadding : padding.length = avInputBufferPaddingSize)
    (hnext : ValidSplit s next) :
    ∃ r s', Parser.avParserParse2 malloc padding next s = some (r, s') ∧
      ((r = .error .enomem ∧ OutOfMemory malloc) ∨
        (r = .ok none ∧ (s.buf = [] → next ≠ endNotFound) ∧
          ∃ held', HoldsFrom s' start held' ∧ held' ++ s'.bufs.flatten = held ++ s.bufs.flatten) ∨
        ∃ frame held', r = .ok (some frame) ∧
          (s.buf = [] → next = endNotFound → held' = [] ∧ s'.bufs = s.bufs.tail) ∧
          frame.ends = (start + frame.bytes.length : Nat) ∧
          HoldsFrom s' (start + frame.bytes.length) held' ∧
          frame.bytes ++ (held' ++ s'.bufs.flatten) = held ++ s.bufs.flatten) := by
  have hindex := h.holds.index
  have hend : endNotFound = -100 := rfl
  have hoffset := h.curOffset
  have hlow : next ≠ endNotFound → 0 ≤ held.length + next := by
    rcases hnext with hnone | hsplit
    · exact fun hne => absurd hnone hne
    · lia
  have hhigh : next ≤ s.buf.length := by
    rcases hnext with hnone | hsplit
    · lia
    · exact hsplit.2
  obtain ⟨r, heq, hr⟩ := h.holds.ffCombineFrame malloc hpadding hlow hhigh
  unfold Parser.avParserParse2
  rw [heq, Option.bind_eq_bind, Option.bind_some]
  rcases hr with ⟨hret, hmemory⟩ | ⟨hret, hkeep, hholds⟩ | ⟨hret, hsplit, hn, hsize, hbytes, hholds⟩
  · rw [hret]
    exact ⟨_, _, rfl, Or.inl ⟨rfl, hmemory⟩⟩
  · rw [hret]
    dsimp only
    rw [if_pos (by decide)]
    refine ⟨_, _, rfl, Or.inr (Or.inl ⟨rfl, fun hempty hflush => ?_, _, ⟨hholds, ?_⟩, ?_⟩)⟩
    · rw [hempty, hflush] at hkeep
      exact absurd hkeep (by decide)
    · dsimp only
      rw [List.length_append]
      lia
    · have hrest := s.flatten_dropBuf le_rfl
      rw [List.take_length] at hrest
      dsimp only
      rw [List.append_assoc, hrest]
  · obtain ⟨n, hn'⟩ : ∃ n : Nat, (n : Int) = held.length + chosen s.buf.length next :=
      ⟨_, Int.toNat_of_nonneg hn⟩
    have hindex' : (max next 0).toNat = (max (chosen s.buf.length next) 0).toNat := by
      unfold chosen
      split_ifs <;> lia
    have hends : (if s.buf = [] ∧ next = endNotFound then (s.curOffset : Int)
        else s.curOffset + next) = start + n := by
      rw [hn', hoffset, chosen]
      by_cases hflush : s.buf.length = 0 ∧ next = endNotFound
      · rw [if_pos ⟨List.eq_nil_of_length_eq_zero hflush.1, hflush.2⟩, if_pos hflush]
        lia
      · have hflush' : ¬ (s.buf = [] ∧ next = endNotFound) := fun hand =>
          hflush ⟨by rw [hand.1]; rfl, hand.2⟩
        rw [if_neg hflush', if_neg hflush]
        lia
    have hchosen : chosen s.buf.length next ≤ s.buf.length := by
      unfold chosen
      split_ifs <;> lia
    have hlength : ((held ++ s.buf).take n).length = n := by
      rw [List.length_take, List.length_append]
      lia
    rw [← hn', Int.toNat_natCast] at hbytes hholds
    rw [← hn'] at hsize
    rw [hret]
    dsimp only
    rw [if_neg (by decide), hsize, Int.toNat_natCast, hbytes, hends, hindex']
    refine ⟨_, _, rfl, Or.inr (Or.inr ⟨_, _, rfl, fun hempty hflush => ?_, ?_, ⟨hholds, ?_⟩, ?_⟩)⟩
    · have hzero : chosen s.buf.length next = 0 := by
        rw [hempty, hflush]
        rfl
      refine ⟨List.drop_eq_nil_of_le (by lia), ?_⟩
      rw [hzero]
      dsimp only
      unfold Parsing.buf at hempty
      cases hbufs : s.bufs with
      | nil => rfl
      | cons b bufs =>
        rw [hbufs] at hempty
        have hb : b = [] := hempty
        rw [hb]
        rfl
    · dsimp only
      rw [hlength]
      rfl
    · dsimp only
      rw [hlength, List.length_drop]
      lia
    · have hrest := s.flatten_dropBuf (n := (max (chosen s.buf.length next) 0).toNat) (by lia)
      dsimp only
      rw [← hrest, ← List.append_assoc, ← List.append_assoc]
      congr 1
      rw [List.take_append]
      by_cases hneg : chosen s.buf.length next < 0
      · have hfirst : n - held.length = 0 := by lia
        have hnone : (max (chosen s.buf.length next) 0).toNat = 0 := by lia
        rw [hfirst, hnone, List.take_zero, List.append_nil, List.append_nil, List.take_append_drop]
      · have hcount : n - held.length = (max (chosen s.buf.length next) 0).toNat := by lia
        rw [hcount, List.take_of_length_le (by lia), List.drop_eq_nil_of_le (by lia),
          List.append_nil]

variable {frames : List Frame}

/-- A run outputs the stream up to what is held and what has not been given. -/
theorem ParserRun.outputs {s s' : Parsing} {start : Nat} (hrun : ParserRun s frames s')
    (h : HoldsFrom s start held) :
    ∃ held', HoldsFrom s' (start + (frames.flatMap Frame.bytes).length) held' ∧
      EndsAt start frames ∧
      frames.flatMap Frame.bytes ++ (held' ++ s'.bufs.flatten) = held ++ s.bufs.flatten := by
  induction hrun generalizing start held with
  | nil s => exact ⟨held, h, trivial, rfl⟩
  | keep hnext hpadding hstep hrun ih =>
    rename_i malloc _ _ _
    obtain ⟨r, s₁, heq, hr⟩ := h.avParserParse2 malloc hpadding hnext
    cases hstep.symm.trans heq
    rcases hr with ⟨hret, -⟩ | ⟨-, -, held₁, hholds, hbytes⟩ | ⟨f, held₁, hret, -⟩
    · cases hret
    · obtain ⟨held', hholds', hends, hbytes'⟩ := ih hholds
      exact ⟨held', hholds', hends, hbytes'.trans hbytes⟩
    · cases hret
  | frame hnext hpadding hstep hrun ih =>
    rename_i malloc _ _ _ _
    obtain ⟨r, s₁, heq, hr⟩ := h.avParserParse2 malloc hpadding hnext
    cases hstep.symm.trans heq
    rcases hr with ⟨hret, -⟩ | ⟨hret, -⟩ | ⟨f, held₁, hret, -, hend, hholds, hbytes⟩
    · cases hret
    · cases hret
    · cases hret
      obtain ⟨held', hholds', hends, hbytes'⟩ := ih hholds
      refine ⟨held', ?_, ⟨hend, hends⟩, ?_⟩
      · rw [List.flatMap_cons, List.length_append, ← Nat.add_assoc]
        exact hholds'
      · rw [List.flatMap_cons, List.append_assoc, hbytes', hbytes]

/-- A parser at the start of a stream that is cut into buffers. -/
def Parsing.start (bufs : List Bytes) : Parsing := ⟨ParseContext.zero, bufs, 0⟩

theorem holdsFrom_start (bufs : List Bytes) : HoldsFrom (Parsing.start bufs) 0 [] :=
  ⟨holds_zero, rfl⟩

theorem endsAt_append {start : Nat} {frame : Frame} (h : EndsAt start frames)
    (hframe : frame.ends = (start + (frames.flatMap Frame.bytes).length + frame.bytes.length : Nat)) :
    EndsAt start (frames ++ [frame]) := by
  induction frames generalizing start with
  | nil => exact ⟨hframe, trivial⟩
  | cons f frames ih =>
    refine ⟨h.1, ih h.2 ?_⟩
    rw [hframe, List.flatMap_cons, List.length_append, ← Nat.add_assoc]

end FFmpeg.Libavcodec.Parser
