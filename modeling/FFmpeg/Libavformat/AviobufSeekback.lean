import FFmpeg.Libavformat.AviobufRead

/-!
# Seeking back without a seekable source

After `ffio_ensure_seekback` the buffer of a context in read mode has room for a window of
bytes from the current position on.  While calls stay inside of the window, filling the
buffer appends to what is there, so that everything read since stays in the buffer and
can be read again.  The source may return any number of bytes for a request, come to an
end or fail at any time; nothing is assumed about what it returns.
-/

namespace FFmpeg.Libavformat.Avio

open Common Libavutil

variable {ω : Type} {cb : Callbacks ω}

/-! ## What is promised -/

/-- A read that succeeds returns at least one byte, and not more than it was asked for. -/
structure Delivers (cb : Callbacks ω) : Prop where
  readPacket : ∃ readPacket, cb.readPacket = some readPacket ∧
    ∀ source size bytes source', 0 < size → readPacket source size = (.ok bytes, source') →
      1 ≤ bytes.length ∧ bytes.length ≤ size

/-- A context in read mode on a source that is not seekable. -/
structure Streaming (s : AVIOContext ω) : Prop where
  readMode : s.writeFlag = false
  notSeekable : s.seekable = false
  bufPtr_le : s.bufPtr ≤ s.bufEnd
  bufEnd_le : s.bufEnd ≤ s.bufferSize
  /-- the bytes in the buffer have been read -/
  bufEnd_le_pos : (s.bufEnd : Int) ≤ s.pos

/-- A call at the position of `s` that stays inside of the `n` bytes from `p` on.  A read of
no bytes counts only while the end of the file has not been seen, as it asks the source
again then. -/
def StaysWithin (p n : Int) (s : AVIOContext ω) : ReadOp → Prop
  | .read size => s.tell + size ≤ p + n ∧ (size = 0 → s.eofReached = false)
  | .r8 => s.tell + 1 ≤ p + n
  | .skip offset => p ≤ s.tell + offset ∧ s.tell + offset ≤ p + n
  | .seek offset => p ≤ offset ∧ offset ≤ p + n
  | _ => False

/-- What a call shows of the bytes `data` from `p` on: a read returns a stretch of them
and moves behind it, and a seek moves to where it should if it succeeds. -/
def Shows (data : Bytes) (p before after : Int) : ReadOp → ReadResult → Prop
  | .read size, .bytes (.ok bytes) =>
    bytes.length ≤ size ∧ bytes = slice data (before - p).toNat bytes.length ∧
      after = before + bytes.length
  | .read _, .bytes (.error _) => after = before
  | .r8, .byte b =>
    (data[(before - p).toNat]? = some b ∧ after = before + 1) ∨ (b = 0 ∧ after = before)
  | .skip offset, .offset (.ok r) => r = before + offset ∧ after = r
  | .skip _, .offset (.error _) => True
  | .seek offset, .offset (.ok r) => r = offset ∧ after = r
  | .seek _, .offset (.error _) => True
  | _, _ => False

/-- A call in front of the end of `data` gets its bytes: a read returns what is there of
it first, and a seek to a place in it succeeds. -/
def Recalls (data : Bytes) (p before : Int) : ReadOp → ReadResult → Prop
  | .read size, .bytes r =>
    before < p + data.length → 0 < size → ∃ bytes, r = .ok bytes ∧
      bytes.take (data.length - (before - p).toNat) = slice data (before - p).toNat size
  | .r8, .byte b => before < p + data.length → data[(before - p).toNat]? = some b
  | .skip offset, .offset r =>
    before + offset ≤ min (p + data.length) int64Max → r = .ok (before + offset)
  | .seek offset, .offset r => offset ≤ p + data.length → r = .ok offset
  | _, _ => False

/-- One call after the other. -/
def callNext (cb : Callbacks ω) (s : AVIOContext ω) (op : ReadOp) : AVIOContext ω :=
  (readStep cb s op).2

/-- What `ffio_ensure_seekback(s, n)` promises where it succeeds.  The calls inside of the
window show some bytes.  Seeking back to the beginning of the window then succeeds and
leaves the source alone, and calls inside of the window recall these bytes. -/
def SeeksBack (cb : Callbacks ω) (s : AVIOContext ω) (n : Int) : Prop :=
  ∀ malloc s₀, ffioEnsureSeekback malloc cb s n = some (.ok (), s₀) →
    ∀ ops, EachStep (callNext cb) (StaysWithin s.tell n) s₀ ops →
      ∃ data, EachStep (callNext cb) (fun t op =>
          Shows data s.tell t.tell (readStep cb t op).2.tell op (readStep cb t op).1) s₀ ops ∧
        ∃ s₁, avioSeek cb (run (callNext cb) s₀ ops) s.tell .seekSet = (.ok s.tell, s₁) ∧
          s₁.source = (run (callNext cb) s₀ ops).source ∧
          ∀ more, EachStep (callNext cb) (StaysWithin s.tell n) s₁ more →
            EachStep (callNext cb) (fun t op =>
              Recalls data s.tell t.tell op (readStep cb t op).1) s₁ more

/-! ## The window -/

/-- The `max_buffer_size` of `fill_buffer`. -/
def maxFill (s : AVIOContext ω) : Nat :=
  if s.maxPacketSize ≠ 0 then s.maxPacketSize else ioBufferSize

/-- The window begins at offset `base` of a buffer that begins at position `start`, and
there is room for its `n` bytes and one more read behind them. -/
structure Window (base : Nat) (n start : Int) (s : AVIOContext ω) : Prop where
  readMode : s.writeFlag = false
  notSeekable : s.seekable = false
  direct : s.direct = false
  base_le : base ≤ s.bufPtr
  bufPtr_le : s.bufPtr ≤ s.bufEnd
  bufEnd_le : s.bufEnd ≤ s.bufferSize
  pos : s.pos = start + s.bufEnd
  start : 0 ≤ start
  room : base + n + maxFill s ≤ s.bufferSize

/-- The bytes of the window that are in the buffer. -/
def held (base : Nat) (s : AVIOContext ω) : Bytes :=
  (s.buffer.take s.bufEnd).drop base

variable {base : Nat} {n start : Int} {s : AVIOContext ω}

theorem Window.bufferStart (h : Window base n start s) : s.bufferStart = start := by
  have hpos := h.pos
  rw [AVIOContext.bufferStart, h.readMode, if_neg Bool.false_ne_true]
  lia

theorem Window.tell (h : Window base n start s) : s.tell = start + s.bufPtr := by
  rw [AVIOContext.tell, h.bufferStart]

theorem Window.length_held (h : Window base n start s) :
    (held base s).length = s.bufEnd - base := by
  have hle : s.bufEnd ≤ s.buffer.length := h.bufEnd_le
  rw [held, List.length_drop, List.length_take, Nat.min_eq_left hle]

theorem Window.copyOut (h : Window base n start s) {len : Nat}
    (hlen : s.bufPtr + len ≤ s.bufEnd) :
    s.copyOut len = slice (held base s) (s.bufPtr - base) len ∧ (s.copyOut len).length = len := by
  have hbase := h.base_le
  have hle : s.bufEnd ≤ s.buffer.length := h.bufEnd_le
  constructor
  · rw [AVIOContext.copyOut, slice, held, List.drop_drop, Nat.add_sub_cancel' hbase, List.drop_take,
      List.take_take]
    congr 1
    lia
  · rw [AVIOContext.copyOut, List.length_take, List.length_drop]
    lia

theorem Window.move (h : Window base n start s) {ptr : Nat} (hbase : base ≤ ptr)
    (hptr : ptr ≤ s.bufEnd) (eofReached : Bool) :
    Window base n start { s with bufPtr := ptr, eofReached := eofReached } :=
  { h with base_le := hbase, bufPtr_le := hptr }

theorem Window.withMark (h : Window base n start s) (mark : Nat) :
    Window base n start { s with bufPtrMax := mark } :=
  { h with }

theorem Window.noted (h : Window base n start s) (source : ω) (eofReached : Bool)
    (error : Option AVERROR) :
    Window base n start
      { s with source := source, eofReached := eofReached, error := error } :=
  { h with }

/-! ## Filling the buffer -/

variable {size : Nat}

theorem Delivers.readPacketWrapper_cases (hcb : Delivers cb) (s : AVIOContext ω) (hsize : 0 < size) :
    (∃ bytes source, readPacketWrapper cb s size = (.ok bytes, source) ∧ 1 ≤ bytes.length ∧
      bytes.length ≤ size) ∨
    ∃ e source, readPacketWrapper cb s size = (.error e, source) := by
  obtain ⟨readPacket, hsome, hread⟩ := hcb.readPacket
  unfold readPacketWrapper
  rw [hsome]
  dsimp only
  cases hresult : readPacket s.source size with
  | mk r source =>
    cases r with
    | error e => exact .inr ⟨e, source, rfl⟩
    | ok bytes =>
      obtain ⟨hone, hmax⟩ := hread _ _ _ _ hsize hresult
      cases bytes with
      | nil => cases hone
      | cons b bytes => exact .inl ⟨b :: bytes, source, rfl, hone, hmax⟩

theorem Window.fillBuffer_eq (hcb : Delivers cb) (h : Window base n start s)
    (hneed : (s.bufEnd : Int) < base + n) (heof : s.eofReached = false) :
    ∃ len, 0 < len ∧ s.bufEnd + len ≤ s.bufferSize ∧
      fillBuffer cb s = s.filled s.bufEnd (readPacketWrapper cb s len) := by
  obtain ⟨readPacket, hsome, -⟩ := hcb.readPacket
  have hbase := h.base_le
  have hptr := h.bufPtr_le
  have hroom : s.bufEnd + maxFill s < s.bufferSize := by
    have hroom := h.room
    lia
  have hstart : ¬ (s.bufEnd = 0 ∧ s.bufPtr ≠ s.bufEnd) := by lia
  unfold maxFill at hroom
  unfold fillBuffer
  simp only [hroom, if_true, hsome, Option.isNone_some, Bool.false_eq_true, false_and, if_false,
    heof, Option.isSome_some, true_and, if_neg hstart]
  split_ifs with hshrink
  · exact ⟨s.origBufferSize, by lia, by lia, rfl⟩
  · exact ⟨s.bufferSize - s.bufEnd, by lia, by lia, rfl⟩

/-- Inside of the window filling the buffer keeps what is there: either bytes come behind
it, or the source has none. -/
theorem Window.after_fillBuffer (hcb : Delivers cb) (h : Window base n start s)
    (hneed : (s.bufEnd : Int) < base + n) :
    Window base n start (fillBuffer cb s) ∧ held base s <+: held base (fillBuffer cb s) ∧
      ((s.bufEnd < (fillBuffer cb s).bufEnd ∧ (fillBuffer cb s).bufPtr = s.bufEnd ∧
          (fillBuffer cb s).eofReached = false) ∨
        ((fillBuffer cb s).bufEnd = s.bufEnd ∧ (fillBuffer cb s).bufPtr = s.bufPtr ∧
          (fillBuffer cb s).eofReached = true)) := by
  obtain ⟨readPacket, hsome, -⟩ := hcb.readPacket
  have hbase := h.base_le
  have hptr := h.bufPtr_le
  have hpos := h.pos
  cases heof : s.eofReached with
  | true =>
    have hsame : fillBuffer cb s = s := by
      unfold fillBuffer
      simp [hsome, heof]
    rw [hsame]
    exact ⟨h, List.prefix_refl _, .inr ⟨rfl, rfl, heof⟩⟩
  | false =>
    obtain ⟨len, hlen, hfits, heq⟩ := h.fillBuffer_eq hcb hneed heof
    rw [heq]
    rcases hcb.readPacketWrapper_cases s hlen with
      ⟨bytes, source, hread, hone, hmax⟩ | ⟨e, source, hread⟩
    · rw [hread]
      have hsize : s.buffer.length = s.bufferSize := rfl
      have hlength : (overwrite s.buffer s.bufEnd bytes).length = s.bufferSize := by
        rw [length_overwrite_of_le (by lia), hsize]
      refine ⟨⟨h.readMode, h.notSeekable, h.direct, ?_, ?_, ?_, ?_, h.start, ?_⟩, ?_,
        .inl ⟨?_, rfl, heof⟩⟩
      · show base ≤ s.bufEnd
        lia
      · exact Nat.le_add_right _ _
      · show s.bufEnd + bytes.length ≤ (overwrite s.buffer s.bufEnd bytes).length
        lia
      · show s.pos + bytes.length = start + (s.bufEnd + bytes.length : Nat)
        push_cast
        lia
      · show base + n + maxFill s ≤ ((overwrite s.buffer s.bufEnd bytes).length : Int)
        rw [hlength]
        exact h.room
      · show (s.buffer.take s.bufEnd).drop base <+:
          ((overwrite s.buffer s.bufEnd bytes).take (s.bufEnd + bytes.length)).drop base
        rw [take_overwrite (by lia), List.drop_append_of_le_length]
        · exact List.prefix_append _ _
        · rw [List.length_take]
          lia
      · show s.bufEnd < s.bufEnd + bytes.length
        lia
    · rw [hread]
      cases e with
      | eof => exact ⟨h.noted source true s.error, List.prefix_refl _, .inr ⟨rfl, rfl, rfl⟩⟩
      | _ => exact ⟨h.noted source true _, List.prefix_refl _, .inr ⟨rfl, rfl, rfl⟩⟩

/-! ## Reading -/

/-- What a read of `size` bytes gives: a stretch of the window, with what there is of it in
the buffer at least. -/
structure ReadsStretch (base : Nat) (n start : Int) (s : AVIOContext ω) (size : Nat)
    (bytes : Bytes) (t : AVIOContext ω) : Prop where
  window : Window base n start t
  held : held base s <+: held base t
  bytes_eq : bytes = slice (Avio.held base t) (s.bufPtr - base) bytes.length
  bufPtr : t.bufPtr = s.bufPtr + bytes.length
  le : bytes.length ≤ size
  enough : min size (s.bufEnd - s.bufPtr) ≤ bytes.length

/-- The same for the loop, after which the buffer is empty if nothing came. -/
structure ReadsWindow (base : Nat) (n start : Int) (s : AVIOContext ω) (size : Nat)
    (bytes : Bytes) (t : AVIOContext ω) : Prop
    extends ReadsStretch base n start s size bytes t where
  nothing : bytes = [] → if size = 0 then t = s else t.bufEnd = t.bufPtr

variable {t : AVIOContext ω}

theorem Window.readsNothing (h : Window base n start s) (hwindow : Window base n start t)
    (hheld : held base s <+: held base t) (hptr : t.bufPtr = s.bufPtr) (size : Nat)
    (hempty : size = 0 ∨ s.bufEnd ≤ s.bufPtr)
    (hnothing : if size = 0 then t = s else t.bufEnd = t.bufPtr) :
    ReadsWindow base n start s size [] t := by
  have hle := h.bufPtr_le
  refine ⟨⟨hwindow, hheld, (slice_zero _ _).symm, hptr, Nat.zero_le _, ?_⟩, fun _ => hnothing⟩
  rw [List.length_nil]
  lia

theorem Window.readsMore (h : Window base n start s) {len : Nat} (hpos : 0 < len)
    (hlen : len = min (s.bufEnd - s.bufPtr) size) {bytes : Bytes}
    (hrest : ReadsWindow base n start { s with bufPtr := s.bufPtr + len } (size - len) bytes t) :
    ReadsWindow base n start s size (s.copyOut len ++ bytes) t := by
  have hbase := h.base_le
  have hptrle := h.bufPtr_le
  have hlength := h.length_held
  obtain ⟨hcopy, hcopyLen⟩ := h.copyOut (show s.bufPtr + len ≤ s.bufEnd by lia)
  have hbytes : bytes = slice (held base t) (s.bufPtr + len - base) bytes.length :=
    hrest.bytes_eq
  have hheld : held base s <+: held base t := hrest.held
  have hptr : t.bufPtr = s.bufPtr + len + bytes.length := hrest.bufPtr
  have hle : bytes.length ≤ size - len := hrest.le
  have hlen' : (s.copyOut len ++ bytes).length = len + bytes.length := by
    rw [List.length_append, hcopyLen]
  refine ⟨⟨hrest.window, hheld, ?_, ?_, ?_, ?_⟩, ?_⟩
  · have hsplit : s.bufPtr - base + len = s.bufPtr + len - base := by lia
    have hinside : s.bufPtr - base + len ≤ (held base s).length := by lia
    rw [hlen', slice_add, slice_of_isPrefix hheld hinside, ← hcopy, hsplit, ← hbytes]
  · rw [hlen', hptr, Nat.add_assoc]
  · lia
  · lia
  · intro hnil
    rw [hnil, List.length_nil] at hlen'
    lia

variable {s : AVIOContext ω}

/-- The loop of `avio_read` inside of the window.  The induction is on the rounds, and a
request that fits into the window never takes the direct way past the buffer. -/
theorem Window.after_avioReadLoop (hcb : Delivers cb) {rounds : Nat} (h : Window base n start s)
    (hsize : (s.bufPtr + size : Int) ≤ base + n) (hrounds : readRounds size s ≤ rounds) :
    ReadsWindow base n start s size (avioReadLoop cb rounds size s).1
      (avioReadLoop cb rounds size s).2 := by
  induction rounds generalizing size s with
  | zero =>
    have hzero : size = 0 := by
      unfold readRounds at hrounds
      split_ifs at hrounds <;> lia
    subst hzero
    exact h.readsNothing h (List.prefix_refl _) rfl 0 (.inl rfl) rfl
  | succ rounds ih =>
    unfold avioReadLoop
    by_cases hzero : size = 0
    · subst hzero
      exact h.readsNothing h (List.prefix_refl _) rfl 0 (.inl rfl) rfl
    · rw [if_neg hzero]
      unfold readRounds at hrounds
      rw [if_neg hzero] at hrounds
      have hbase := h.base_le
      have hroom := h.room
      by_cases hdata : s.bufPtr < s.bufEnd
      · -- some bytes are taken out of the buffer
        rw [if_pos hdata] at hrounds
        obtain ⟨len, hlen⟩ : ∃ len, len = min (s.bufEnd - s.bufPtr) size := ⟨_, rfl⟩
        have hsome : ¬ (len = 0 ∨ s.writeFlag = true) := by
          rw [h.readMode]
          simp
          lia
        have hfits : s.bufPtr + len ≤ s.bufEnd := by lia
        have hmoved : Window base n start { s with bufPtr := s.bufPtr + len } :=
          h.move (by lia) hfits s.eofReached
        have hnext : readRounds (size - len) { s with bufPtr := s.bufPtr + len } ≤ rounds := by
          unfold readRounds
          dsimp only
          split_ifs <;> lia
        have hrest := ih hmoved (show ((s.bufPtr + len : Nat) : Int) + (size - len : Nat) ≤ _ by
          lia) hnext
        rw [← hlen]
        simp only [if_neg hsome]
        exact h.readsMore (by lia) hlen hrest
      · rw [if_neg hdata] at hrounds
        have hempty : s.bufEnd ≤ s.bufPtr := Nat.le_of_not_lt hdata
        have hle := h.bufPtr_le
        have hnone : min (s.bufEnd - s.bufPtr) size = 0 ∨ s.writeFlag = true := by lia
        have hsmall : ¬ (s.direct = true ∨ s.bufferSize < size) := by
          rw [h.direct]
          simp
          lia
        obtain ⟨hfilled, hheld, hcases⟩ := h.after_fillBuffer hcb (by lia)
        simp only [if_pos hnone, if_neg hsmall]
        rcases hcases with ⟨hmore, hptr, -⟩ | ⟨hend, hptr, -⟩
        · rw [if_neg (by lia)]
          have hnext : readRounds size (fillBuffer cb s) ≤ rounds := by
            unfold readRounds
            rw [if_neg hzero, if_pos (by lia)]
            lia
          have hrest := ih hfilled (by lia) hnext
          have hstart : (fillBuffer cb s).bufPtr = s.bufPtr := by lia
          refine ⟨⟨hrest.window, hheld.trans hrest.held, ?_, ?_, hrest.le, ?_⟩, ?_⟩
          · rw [← hstart]
            exact hrest.bytes_eq
          · rw [← hstart]
            exact hrest.bufPtr
          · lia
          · intro hnil
            have hnothing := hrest.nothing hnil
            rw [if_neg hzero] at hnothing ⊢
            exact hnothing
        · rw [if_pos (by lia)]
          exact h.readsNothing hfilled hheld hptr size (.inr hempty)
            (by rw [if_neg hzero]; lia)

theorem Window.after_avioFeof (hcb : Delivers cb) (h : Window base n start s)
    (hempty : s.bufEnd ≤ s.bufPtr)
    (hneed : s.eofReached = true → (s.bufEnd : Int) < base + n) :
    Window base n start (avioFeof cb s).2 ∧ held base s <+: held base (avioFeof cb s).2 ∧
      (avioFeof cb s).2.bufPtr = s.bufPtr := by
  unfold avioFeof
  cases heof : s.eofReached with
  | false => exact ⟨h, List.prefix_refl _, rfl⟩
  | true =>
    have hptr := h.bufPtr_le
    have hreset := h.move h.base_le h.bufPtr_le false
    obtain ⟨hfilled, hheld, hcases⟩ := hreset.after_fillBuffer hcb (hneed heof)
    simp only [if_true]
    refine ⟨hfilled, hheld, ?_⟩
    rcases hcases with ⟨-, hptr', -⟩ | ⟨-, hptr', -⟩
    · exact hptr'.trans (Nat.le_antisymm hempty hptr)
    · exact hptr'

theorem Window.after_avioRead (hcb : Delivers cb) (h : Window base n start s)
    (hsize : (s.bufPtr + size : Int) ≤ base + n) (hzero : size = 0 → s.eofReached = false) :
    ∃ bytes, ReadsStretch base n start s size bytes (avioRead cb s size).2 ∧
      ((avioRead cb s size).1 = .ok bytes ∨
        bytes = [] ∧ ∃ e, (avioRead cb s size).1 = .error e) := by
  have hrounds : readRounds size s ≤ 2 * size := by
    unfold readRounds
    split_ifs <;> lia
  have hread := h.after_avioReadLoop hcb hsize hrounds
  unfold avioRead
  dsimp only
  generalize (avioReadLoop cb (2 * size) size s).1 = bytes at hread ⊢
  generalize (avioReadLoop cb (2 * size) size s).2 = t at hread ⊢
  refine ⟨bytes, ?_⟩
  unfold readResult
  by_cases hnil : bytes = []
  · rw [if_pos hnil]
    cases herror : t.error with
    | some e => exact ⟨hread.toReadsStretch, .inr ⟨hnil, e, rfl⟩⟩
    | none =>
      have hptr : t.bufPtr = s.bufPtr := by
        rw [hread.bufPtr, hnil, List.length_nil, Nat.add_zero]
      have hfeof : Window base n start (avioFeof cb t).2 ∧
          held base t <+: held base (avioFeof cb t).2 ∧ (avioFeof cb t).2.bufPtr = t.bufPtr := by
        have hnothing := hread.nothing hnil
        split_ifs at hnothing with hsz
        · rw [hnothing]
          have heof := hzero hsz
          unfold avioFeof
          rw [heof]
          exact ⟨h, List.prefix_refl _, rfl⟩
        · exact hread.window.after_avioFeof hcb hnothing.le (by lia)
      obtain ⟨hwindow, hheld, hkept⟩ := hfeof
      have hstretch : ReadsStretch base n start s size bytes (avioFeof cb t).2 := by
        refine ⟨hwindow, hread.held.trans hheld, ?_, ?_, hread.le, hread.enough⟩
        · rw [hnil]
          exact (slice_zero _ _).symm
        · rw [hkept, hread.bufPtr]
      dsimp only
      generalize avioFeof cb t = r at hstretch ⊢
      obtain ⟨eof, u⟩ := r
      cases eof with
      | true => exact ⟨hstretch, .inr ⟨hnil, _, rfl⟩⟩
      | false => exact ⟨hstretch, .inl rfl⟩
  · rw [if_neg hnil]
    exact ⟨hread.toReadsStretch, .inl rfl⟩

/-- `avio_r8` inside of the window. -/
theorem Window.after_avioR8 (hcb : Delivers cb) (h : Window base n start s)
    (hsize : (s.bufPtr + 1 : Int) ≤ base + n) :
    Window base n start (avioR8 cb s).2 ∧ held base s <+: held base (avioR8 cb s).2 ∧
      (((held base (avioR8 cb s).2)[s.bufPtr - base]? = some (avioR8 cb s).1 ∧
          (avioR8 cb s).2.bufPtr = s.bufPtr + 1) ∨
        (s.bufEnd ≤ s.bufPtr ∧ (avioR8 cb s).1 = 0 ∧ (avioR8 cb s).2.bufPtr = s.bufPtr)) := by
  have hbase := h.base_le
  have hle := h.bufPtr_le
  -- after the buffer has been filled if it was exhausted
  have hfilled : ∃ t, (if s.bufEnd ≤ s.bufPtr then fillBuffer cb s else s) = t ∧
      Window base n start t ∧ held base s <+: held base t ∧ t.bufPtr = s.bufPtr ∧
      (t.bufPtr < t.bufEnd ∨ s.bufEnd ≤ s.bufPtr ∧ t.bufEnd ≤ t.bufPtr) := by
    split_ifs with hempty
    · obtain ⟨hwindow, hheld, hcases⟩ := h.after_fillBuffer hcb (by lia)
      refine ⟨_, rfl, hwindow, hheld, ?_, ?_⟩
      · rcases hcases with ⟨-, hptr, -⟩ | ⟨-, hptr, -⟩ <;> lia
      · rcases hcases with ⟨hmore, hptr, -⟩ | ⟨hend, hptr, -⟩
        · exact .inl (by lia)
        · exact .inr ⟨hempty, by lia⟩
    · exact ⟨s, rfl, h, List.prefix_refl _, rfl, .inl (Nat.lt_of_not_le hempty)⟩
  obtain ⟨t, heq, hwindow, hheld, hptr, hdata⟩ := hfilled
  unfold avioR8
  simp only [heq]
  rcases hdata with hlt | ⟨hempty, hnone⟩
  · rw [if_pos hlt]
    have hsize : t.bufEnd ≤ t.buffer.length := hwindow.bufEnd_le
    refine ⟨hwindow.move (by lia) hlt t.eofReached, hheld, .inl ⟨?_, ?_⟩⟩
    · show (held base t)[s.bufPtr - base]? = _
      have hindex : base + (s.bufPtr - base) = t.bufPtr := by lia
      rw [held, List.getElem?_drop, hindex, List.getElem?_take_of_lt hlt, List.getD,
        List.getElem?_eq_getElem (by lia), Option.getD_some]
    · show t.bufPtr + 1 = _
      rw [hptr]
  · rw [if_neg (by lia)]
    exact ⟨hwindow, hheld, .inr ⟨hempty, rfl, hptr⟩⟩

/-! ## Seeking -/

variable {offset : Int}

/-- Reading up to an offset of the window. -/
theorem Window.after_fillUpTo (hcb : Delivers cb) {rounds : Nat} (h : Window base n start s)
    (hoffset : offset ≤ start + base + n) (hrounds : (offset - s.pos).toNat < rounds) :
    Window base n start (fillUpTo cb offset rounds s) ∧
      held base s <+: held base (fillUpTo cb offset rounds s) ∧
      ((fillUpTo cb offset rounds s).eofReached = false →
        offset ≤ (fillUpTo cb offset rounds s).pos) := by
  induction rounds generalizing s with
  | zero => lia
  | succ rounds ih =>
    have hpos := h.pos
    unfold fillUpTo
    split_ifs with hmore
    · obtain ⟨hfilled, hheld, hcases⟩ := h.after_fillBuffer hcb (by lia)
      rcases hcases with ⟨hfurther, -, heof⟩ | ⟨-, -, heof⟩
      · have hpos' := hfilled.pos
        obtain ⟨hwindow, hheld', hreached⟩ := ih hfilled (by lia)
        exact ⟨hwindow, hheld.trans hheld', hreached⟩
      · -- the next round sees the end of the file
        have hstop : fillUpTo cb offset rounds (fillBuffer cb s) = fillBuffer cb s := by
          cases rounds with
          | zero => rfl
          | succ rounds =>
            unfold fillUpTo
            rw [if_neg (fun hagain => hagain.2 heof)]
        rw [hstop]
        exact ⟨hfilled, hheld, fun hno => by rw [heof] at hno; cases hno⟩
    · refine ⟨h, List.prefix_refl _, fun heof => ?_⟩
      by_contra hlt
      exact hmore ⟨by lia, by simp [heof]⟩

/-- A seek inside of the window finds its place in the buffer or reads up to it, and does
not touch the source where it goes to what is there. -/
theorem Window.after_avioSeekTo (hcb : Delivers cb) (h : Window base n start s)
    (hfrom : start + base ≤ offset) (hto : s.pos < offset → offset ≤ start + base + n) (depth : Nat) :
    Window base n start (avioSeekTo cb (depth + 1) s offset).2 ∧
      held base s <+: held base (avioSeekTo cb (depth + 1) s offset).2 ∧
      (∀ r, (avioSeekTo cb (depth + 1) s offset).1 = .ok r →
        r = offset ∧ (avioSeekTo cb (depth + 1) s offset).2.tell = offset) ∧
      (offset ≤ s.pos → (avioSeekTo cb (depth + 1) s offset).1 = .ok offset ∧
        (avioSeekTo cb (depth + 1) s offset).2.source = s.source) := by
  have hmode : ¬ s.writeFlag = true := by simp [h.readMode]
  have hstart := h.bufferStart
  have hpos := h.pos
  have hmark := h.withMark (max s.bufPtrMax s.bufPtr)
  unfold avioSeekTo
  simp only [if_neg hmode, hstart]
  split
  · next hinside =>
    have hmoved := hmark.move (show base ≤ (offset - start).toNat by lia)
      (show (offset - start).toNat ≤ s.bufEnd by lia) false
    refine ⟨hmoved, List.prefix_refl _, ?_, fun _ => ⟨rfl, rfl⟩⟩
    intro r hr
    cases hr
    refine ⟨rfl, ?_⟩
    rw [hmoved.tell]
    show start + ((offset - start).toNat : Int) = offset
    lia
  · next houtside =>
    have hbehind : s.pos < offset := by
      by_contra hle
      exact houtside ⟨.inl (by simp [h.direct]), by lia, by lia⟩
    rw [if_pos ⟨.inl (by simp [h.notSeekable]), hmode, by lia, .inl (by simp [h.direct])⟩]
    have hfilled := hmark.after_fillUpTo hcb (hto hbehind)
      (show (offset - s.pos).toNat < (offset - s.pos).toNat + 1 from Nat.lt_succ_self _)
    generalize fillUpTo cb offset ((offset - s.pos).toNat + 1)
      { s with bufPtrMax := max s.bufPtrMax s.bufPtr } = t at hfilled ⊢
    obtain ⟨hwindow, hheld, hreached⟩ := hfilled
    have hpos' := hwindow.pos
    cases heof : t.eofReached with
    | true =>
      rw [if_pos rfl]
      exact ⟨hwindow, hheld, nofun, fun hle => absurd hbehind (by lia)⟩
    | false =>
      rw [if_neg Bool.false_ne_true]
      have hdone := hreached heof
      have hmoved := hwindow.move (show base ≤ (t.bufEnd - (t.pos - offset)).toNat by lia)
        (show (t.bufEnd - (t.pos - offset)).toNat ≤ t.bufEnd by lia) false
      refine ⟨hmoved, hheld, ?_, fun hle => absurd hbehind (by lia)⟩
      intro r hr
      cases hr
      refine ⟨rfl, ?_⟩
      rw [hmoved.tell]
      show start + ((t.bufEnd - (t.pos - offset)).toNat : Int) = offset
      lia

theorem Window.after_avioSeek_set (hcb : Delivers cb) (h : Window base n start s)
    (hfrom : start + base ≤ offset) (hto : s.pos < offset → offset ≤ start + base + n) :
    Window base n start (avioSeek cb s offset .seekSet).2 ∧
      held base s <+: held base (avioSeek cb s offset .seekSet).2 ∧
      (∀ r, (avioSeek cb s offset .seekSet).1 = .ok r →
        r = offset ∧ (avioSeek cb s offset .seekSet).2.tell = offset) ∧
      (offset ≤ s.pos → (avioSeek cb s offset .seekSet).1 = .ok offset ∧
        (avioSeek cb s offset .seekSet).2.source = s.source) := by
  have hstart := h.start
  unfold avioSeek
  simp only [if_neg (show ¬ offset < 0 by lia)]
  exact h.after_avioSeekTo hcb hfrom hto 1

theorem Window.after_avioSkip (hcb : Delivers cb) (h : Window base n start s)
    (hfrom : start + base ≤ s.tell + offset) (hto : s.tell + offset ≤ start + base + n) :
    Window base n start (avioSkip cb s offset).2 ∧
      held base s <+: held base (avioSkip cb s offset).2 ∧
      (∀ r, (avioSkip cb s offset).1 = .ok r →
        r = s.tell + offset ∧ (avioSkip cb s offset).2.tell = s.tell + offset) ∧
      (s.tell + offset ≤ min s.pos int64Max → (avioSkip cb s offset).1 = .ok (s.tell + offset)) := by
  have hstart := h.start
  have htell : s.bufferStart + s.bufPtr = s.tell := rfl
  unfold avioSkip avioSeek
  by_cases hzero : offset = 0
  · subst hzero
    rw [if_pos rfl, htell, add_zero]
    refine ⟨h, List.prefix_refl _, ?_, fun _ => rfl⟩
    intro r hr
    cases hr
    exact ⟨rfl, rfl⟩
  · simp only [if_neg hzero, htell]
    split_ifs with hoverflow hneg
    · exact ⟨h, List.prefix_refl _, nofun, fun hle => absurd hoverflow (by lia)⟩
    · lia
    · rw [Int.add_comm offset s.tell]
      obtain ⟨hwindow, hheld, hok, hback⟩ := h.after_avioSeekTo hcb hfrom (fun _ => hto) 1
      exact ⟨hwindow, hheld, hok, fun hle => (hback (by lia)).1⟩

/-! ## Runs -/

theorem slice_eq_of_prefix {data more bytes : Bytes} (hmore : data <+: more) {k : Nat}
    (h : bytes = slice data k bytes.length) : bytes = slice more k bytes.length := by
  have hlength := congrArg List.length h
  rw [length_slice] at hlength
  by_cases hnil : bytes.length = 0
  · rw [hnil, slice_zero]
    exact List.length_eq_zero_iff.mp hnil
  · rw [slice_of_isPrefix hmore (by lia)]
    exact h

variable {op : ReadOp} {r : ReadResult}

theorem Shows.mono {data more : Bytes} (hmore : data <+: more) {p before after : Int}
    (h : Shows data p before after op r) :
    Shows more p before after op r := by
  unfold Shows at h ⊢
  split at h
  · exact ⟨h.1, slice_eq_of_prefix hmore h.2.1, h.2.2⟩
  · exact h
  · rcases h with ⟨hbyte, hafter⟩ | hnone
    · obtain ⟨rest, rfl⟩ := hmore
      refine .inl ⟨?_, hafter⟩
      rw [List.getElem?_append_left (List.getElem?_eq_some_iff.mp hbyte).1]
      exact hbyte
    · exact .inr hnone
  · exact h
  · trivial
  · exact h
  · trivial
  · exact h.elim

theorem Recalls.mono {data more : Bytes} (hmore : data <+: more) {p before : Int}
    (h : Recalls more p before op r) (hp : p ≤ before) :
    Recalls data p before op r := by
  have hlength := hmore.length_le
  unfold Recalls at h ⊢
  split at h
  · intro hlt hpos
    obtain ⟨bytes, hr, hbytes⟩ := h (by lia) hpos
    refine ⟨bytes, hr, ?_⟩
    have hall : ∀ size, (slice data (before - p).toNat size).take
        (data.length - (before - p).toNat) = slice data (before - p).toNat size :=
      fun size => List.take_of_length_le (by rw [length_slice]; exact Nat.min_le_right _ _)
    have hfront := congrArg (List.take (data.length - (before - p).toNat)) hbytes
    rw [List.take_take, Nat.min_eq_left (by lia), take_slice,
      slice_of_isPrefix hmore (by lia), ← take_slice, hall] at hfront
    exact hfront
  · intro hlt
    have hbyte := h (by lia)
    obtain ⟨rest, rfl⟩ := hmore
    rw [List.getElem?_append_left (by lia)] at hbyte
    exact hbyte
  · exact fun hle => h (by lia)
  · exact fun hle => h (by lia)
  · exact h.elim

/-- A call inside of the window keeps it and what is held of it, shows bytes of it, and
recalls what was held before. -/
theorem Window.step (hcb : Delivers cb) (h : Window base n start s)
    (hop : StaysWithin (start + base) n s op) :
    Window base n start (callNext cb s op) ∧ held base s <+: held base (callNext cb s op) ∧
      Shows (held base (callNext cb s op)) (start + base) s.tell (callNext cb s op).tell op
        (readStep cb s op).1 ∧
      Recalls (held base s) (start + base) s.tell op (readStep cb s op).1 := by
  have htell := h.tell
  have hbase := h.base_le
  have hptr := h.bufPtr_le
  have hpos := h.pos
  have hlength := h.length_held
  have hindex : (s.tell - (start + base)).toNat = s.bufPtr - base := by lia
  have hreach : start + base + ((s.bufEnd - base : Nat) : Int) = s.pos := by lia
  cases op with
  | r8 =>
    have hsize : s.tell + 1 ≤ start + base + n := hop
    obtain ⟨hwindow, hheld, hbyte⟩ := h.after_avioR8 hcb (by lia)
    have htell' : (callNext cb s .r8).tell = start + (avioR8 cb s).2.bufPtr := hwindow.tell
    refine ⟨hwindow, hheld, ?_, ?_⟩
    · show (_[(s.tell - (start + base)).toNat]? = _ ∧ (callNext cb s .r8).tell = _) ∨
        (_ ∧ (callNext cb s .r8).tell = _)
      rw [htell', hindex]
      rcases hbyte with ⟨hsome, hmoved⟩ | ⟨-, hzero, hkept⟩
      · exact .inl ⟨hsome, by lia⟩
      · exact .inr ⟨hzero, by lia⟩
    · intro hlt
      rw [hindex]
      rcases hbyte with ⟨hsome, -⟩ | ⟨hempty, -⟩
      · obtain ⟨rest, hrest⟩ := hheld
        rw [← hrest, List.getElem?_append_left (by lia)] at hsome
        exact hsome
      · lia
  | read size =>
    obtain ⟨hsize, hzero⟩ : s.tell + size ≤ start + base + n ∧
      (size = 0 → s.eofReached = false) := hop
    have hend : (s.bufPtr + size : Int) ≤ base + n := by lia
    obtain ⟨bytes, hread, hresult⟩ := h.after_avioRead hcb hend hzero
    have htell' : (callNext cb s (.read size)).tell = start + (avioRead cb s size).2.bufPtr :=
      hread.window.tell
    have hmoved := hread.bufPtr
    refine ⟨hread.window, hread.held, ?_, ?_⟩
    · show Shows _ _ _ _ _ (.bytes (avioRead cb s size).1)
      rcases hresult with hok | ⟨hnil, e, herror⟩
      · rw [hok, htell']
        refine ⟨hread.le, ?_, by lia⟩
        rw [hindex]
        exact hread.bytes_eq
      · rw [herror, htell']
        rw [hnil, List.length_nil] at hmoved
        show start + ((avioRead cb s size).2.bufPtr : Int) = s.tell
        lia
    · intro hlt hsome
      have henough := hread.enough
      have hlen : 0 < bytes.length := by lia
      rw [hindex, hlength]
      rcases hresult with hok | ⟨hnil, -⟩
      · refine ⟨bytes, hok, ?_⟩
        have hfront := congrArg (List.take (s.bufEnd - base - (s.bufPtr - base))) hread.bytes_eq
        rw [take_slice, slice_of_isPrefix hread.held (by lia)] at hfront
        rw [hfront]
        have hle := hread.le
        rw [← slice_length (held base s) (s.bufPtr - base) size, length_slice, hlength]
        congr 1
        lia
      · rw [hnil] at hlen
        cases hlen
  | seek offset =>
    obtain ⟨hfrom, hto⟩ : start + base ≤ offset ∧ offset ≤ start + base + n := hop
    obtain ⟨hwindow, hheld, hok, hback⟩ := h.after_avioSeek_set hcb hfrom fun _ => hto
    refine ⟨hwindow, hheld, ?_, fun hle => (hback (by lia)).1⟩
    show Shows _ _ _ _ _ (.offset (avioSeek cb s offset .seekSet).1)
    cases hr : (avioSeek cb s offset .seekSet).1 with
    | error e => trivial
    | ok r =>
      obtain ⟨rfl, hafter⟩ := hok r hr
      exact ⟨rfl, hafter⟩
  | skip offset =>
    obtain ⟨hfrom, hto⟩ : start + base ≤ s.tell + offset ∧ s.tell + offset ≤ start + base + n := hop
    obtain ⟨hwindow, hheld, hok, hback⟩ := h.after_avioSkip hcb hfrom hto
    refine ⟨hwindow, hheld, ?_, fun hle => hback (by lia)⟩
    show Shows _ _ _ _ _ (.offset (avioSkip cb s offset).1)
    cases hr : (avioSkip cb s offset).1 with
    | error e => trivial
    | ok r =>
      obtain ⟨rfl, hafter⟩ := hok r hr
      exact ⟨rfl, hafter⟩
  | readPartial size => exact hop.elim
  | feof => exact hop.elim

theorem Window.run (hcb : Delivers cb) {ops : List ReadOp} (h : Window base n start s)
    (hops : EachStep (callNext cb) (StaysWithin (start + base) n) s ops) :
    Window base n start (Common.run (callNext cb) s ops) ∧
      held base s <+: held base (Common.run (callNext cb) s ops) ∧
      EachStep (callNext cb) (fun t op =>
        Shows (held base (Common.run (callNext cb) s ops)) (start + base) t.tell
          (readStep cb t op).2.tell op (readStep cb t op).1) s ops ∧
      EachStep (callNext cb) (fun t op =>
        Recalls (held base s) (start + base) t.tell op (readStep cb t op).1) s ops ∧
      EachStep (callNext cb) (fun t _ => start + base ≤ t.tell) s ops := by
  induction ops generalizing s with
  | nil => exact ⟨h, List.prefix_refl _, trivial, trivial, trivial⟩
  | cons op ops ih =>
    obtain ⟨hop, hops⟩ := hops
    obtain ⟨hwindow, hheld, hshows, hrecalls⟩ := h.step hcb hop
    obtain ⟨hlast, hheld', hshows', hrecalls', hbehind⟩ := ih hwindow hops
    have htell := h.tell
    have hbase := h.base_le
    refine ⟨hlast, hheld.trans hheld', ⟨hshows.mono hheld', hshows'⟩, ⟨hrecalls, ?_⟩,
      by lia, hbehind⟩
    exact EachStep.map₂ (fun t op hrecall hp => hrecall.mono hheld hp) hrecalls' hbehind

/-! ## Making room -/

/-- Where `ffio_ensure_seekback` succeeds there is a window at the current position. -/
theorem Streaming.window {malloc : Malloc} (hcb : Delivers cb) (h : Streaming s)
    (hdirect : s.direct = false) {s₀ : AVIOContext ω}
    (hensure : ffioEnsureSeekback malloc cb s n = some (.ok (), s₀)) :
    Window s.bufPtr n s.bufferStart s₀ := by
  obtain ⟨readPacket, hsome, -⟩ := hcb.readPacket
  have hptr := h.bufPtr_le
  have hend := h.bufEnd_le
  have hstart : s.bufferStart = s.pos - s.bufEnd := by
    rw [AVIOContext.bufferStart, h.readMode, if_neg Bool.false_ne_true]
  have hnonneg := h.bufEnd_le_pos
  have hmax : (if s.maxPacketSize ≠ 0 then s.maxPacketSize else ioBufferSize) = maxFill s := rfl
  unfold ffioEnsureSeekback at hensure
  dsimp only at hensure
  rw [hmax, hsome, h.notSeekable, h.readMode] at hensure
  simp only [Option.isNone_some, Bool.false_eq_true, or_false, if_false] at hensure
  split_ifs at hensure with hoverflow hhas
  · -- the window is in the buffer already
    cases hensure
    exact ⟨h.readMode, h.notSeekable, hdirect, le_rfl, hptr, hend, by lia, by lia,
      by lia⟩
  · cases hbuffer : avMalloc malloc (n + (s.bufPtr + maxFill s : Nat)).toNat with
    | none =>
      rw [hbuffer] at hensure
      cases hensure
    | some buffer =>
      rw [hbuffer] at hensure
      cases hensure
      obtain ⟨hlength, -⟩ := length_of_avMalloc hbuffer
      have htake : (s.buffer.take s.bufEnd).length = s.bufEnd := by
        rw [List.length_take]
        exact Nat.min_eq_left hend
      have hsize : (overwrite buffer 0 (s.buffer.take s.bufEnd)).length = buffer.length :=
        length_overwrite_of_le (by lia)
      refine ⟨rfl, rfl, hdirect, le_rfl, hptr, ?_, by dsimp only; lia,
        by lia, ?_⟩
      · show s.bufEnd ≤ (overwrite buffer 0 (s.buffer.take s.bufEnd)).length
        lia
      · show (s.bufPtr : Int) + n + maxFill s ≤
          ((overwrite buffer 0 (s.buffer.take s.bufEnd)).length : Int)
        lia

/-- On a source that is not seekable and not used directly, what is read in the window that
`ffio_ensure_seekback` made room for can be read again: seeking back to its beginning
succeeds without the source, and the same bytes come. -/
theorem seeksBack_of_streaming (hcb : Delivers cb) (h : Streaming s)
    (hdirect : s.direct = false) (n : Int) : SeeksBack cb s n := by
  intro malloc s₀ hensure ops hops
  have hwindow := h.window hcb hdirect hensure
  have hp : s.tell = s.bufferStart + s.bufPtr := rfl
  rw [hp] at hops ⊢
  obtain ⟨hlast, -, hshows, -⟩ := hwindow.run hcb hops
  have hbase := hlast.base_le
  have hptr := hlast.bufPtr_le
  have hpos := hlast.pos
  refine ⟨_, hshows, _, Prod.ext ?_ rfl, ?_, ?_⟩
  · exact ((hlast.after_avioSeek_set hcb le_rfl fun hlt => by lia).2.2.2 (by lia)).1
  · exact ((hlast.after_avioSeek_set hcb le_rfl fun hlt => by lia).2.2.2 (by lia)).2
  · intro more hmore
    obtain ⟨hback, hheld, -⟩ := hlast.after_avioSeek_set hcb le_rfl fun hlt => by lia
    obtain ⟨-, -, -, hrecalls, hbehind⟩ := hback.run hcb hmore
    exact EachStep.map₂ (fun t op hrecall hle => hrecall.mono hheld hle) hrecalls hbehind

theorem delivers_memoryFile (content : Bytes) : Delivers (memoryFile content) where
  readPacket := by
    refine ⟨_, rfl, fun pos size bytes pos' hsize hread => ?_⟩
    have hlen := length_slice content pos (min size 2)
    split_ifs at hread with hlt
    · cases hread
      lia
    · cases hread

/-- Six bytes in front of the end of a file that is read through a buffer of four. -/
theorem seeksBack_memoryFile :
    SeeksBack (memoryFile [1, 2, 3, 4, 5, 6])
      (openForRead (memoryFile [1, 2, 3, 4, 5, 6]) [0, 0, 0, 0] 0 false 0 1) 6 :=
  seeksBack_of_streaming (delivers_memoryFile _) ⟨rfl, rfl, le_rfl, by decide, le_rfl⟩ rfl 6

/-- A source that never ends and cannot be repositioned. -/
def endlessZeros : Callbacks Unit where
  readPacket := some fun source size => (.ok (List.replicate size 0), source)
  writePacket := none
  seek := none
  shortSeekGet := none

/-- A context on it with the `direct` flag, whose buffer is smaller than the window. -/
def directContext : AVIOContext Unit :=
  { ffioInitContext endlessZeros [0] false () with direct := true }

/-- A direct read leaves nothing in the buffer to seek back to. -/
theorem not_seeksBack_direct :
    ¬ ∀ (ω : Type) (cb : Callbacks ω) (s : AVIOContext ω) (n : Int),
      Delivers cb → Streaming s → SeeksBack cb s n := by
  intro h
  have hcb : Delivers endlessZeros := by
    refine ⟨_, rfl, fun source size bytes source' hsize hread => ?_⟩
    cases hread
    rw [List.length_replicate]
    lia
  have hback := h Unit endlessZeros directContext 1 hcb ⟨rfl, rfl, le_rfl, by decide, le_rfl⟩
  obtain ⟨_, -, _, hseek, -⟩ := hback zeroMalloc _ rfl [.read 1]
    ⟨⟨le_refl (1 : Int), fun h => by cases h⟩, trivial⟩
  cases congrArg Prod.fst hseek

end FFmpeg.Libavformat.Avio
