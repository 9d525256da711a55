import FFmpeg.Libavutil.Bprint

/-!
# A print buffer is a bounded concatenation

Whatever is appended, and whenever memory runs out, the buffer counts every
byte and holds the front of the concatenation that its size admits, closed by a
NUL.  Once a byte is missing the buffer no longer grows, so a later short piece
cannot fill the gap.
-/

namespace FFmpeg.Libavutil.BprintConcat

open Common Bprint

variable {buf buf' : AVBPrint} {text data : Bytes} {malloc : Malloc}

/-- The buffer has counted `text` and holds the front of it with a NUL. -/
structure Holds (buf : AVBPrint) (text : Bytes) : Prop where
  len : buf.len = text.length
  size_le : buf.size ≤ buf.sizeMax
  size_le_str : buf.size ≤ buf.str.length
  front : 0 < buf.size →
    buf.str.take (min text.length (buf.size - 1) + 1) = text.take (buf.size - 1) ++ [0]

theorem avBprintIsComplete_iff : avBprintIsComplete buf = true ↔ buf.len < buf.size := by
  simp [avBprintIsComplete]

section Alloc

theorem newSize_bounds {len size sizeMax : Nat} (hlen : len < size) (hsize : size < sizeMax)
    (room : Nat) :
    let minSize := len + 1 + min (uintMax - len - 1) room
    let newSize := if sizeMax / 2 < size then sizeMax else size * 2
    let newSize := if newSize < minSize then min sizeMax minSize else newSize
    size < newSize ∧ newSize ≤ sizeMax ∧ min sizeMax minSize ≤ newSize := by
  dsimp only
  split_ifs <;> lia

/-- What a successful `av_bprint_alloc` does. -/
theorem avBprintAlloc_ok {room : Nat} (hle : buf.size ≤ buf.sizeMax)
    (h : avBprintAlloc malloc buf room = .ok buf') :
    buf.len < buf.size ∧ ∃ str newSize,
      avRealloc malloc (if buf.isAllocated then buf.str else buf.str.take (buf.len + 1)) newSize =
        some str ∧
      buf' = { buf with str := str, isAllocated := true, size := newSize } ∧
      buf.size < newSize ∧ newSize ≤ buf.sizeMax ∧
      min buf.sizeMax (buf.len + 1 + min (uintMax - buf.len - 1) room) ≤ newSize := by
  unfold avBprintAlloc at h
  by_cases hfull : buf.size = buf.sizeMax
  · rw [if_pos hfull] at h
    cases h
  rw [if_neg hfull] at h
  cases hcomplete : avBprintIsComplete buf with
  | false =>
    rw [hcomplete] at h
    cases h
  | true =>
    have hlen : buf.len < buf.size := avBprintIsComplete_iff.mp hcomplete
    rw [hcomplete] at h
    simp only [Bool.not_true, Bool.false_eq_true, if_false] at h
    have hbounds := newSize_bounds hlen (Nat.lt_of_le_of_ne hle hfull) room
    generalize hnew : (if (if buf.sizeMax / 2 < buf.size then buf.sizeMax else buf.size * 2) <
        buf.len + 1 + min (uintMax - buf.len - 1) room then
        min buf.sizeMax (buf.len + 1 + min (uintMax - buf.len - 1) room)
      else if buf.sizeMax / 2 < buf.size then buf.sizeMax else buf.size * 2) = newSize at h
    simp only [hnew] at hbounds
    split at h
    · cases h
    · next str hrealloc =>
      cases h
      exact ⟨hlen, str, newSize, hrealloc, rfl, hbounds⟩

theorem Holds.alloc (h : Holds buf text) {room : Nat}
    (hok : avBprintAlloc malloc buf room = .ok buf') :
    Holds buf' text ∧ buf'.sizeMax = buf.sizeMax ∧ buf.size < buf'.size := by
  obtain ⟨hlen, str, newSize, hrealloc, rfl, hgrow, hmax, -⟩ := avBprintAlloc_ok h.size_le hok
  have hstr := h.size_le_str
  have htext := h.len
  obtain ⟨hlength, -, hkept⟩ := avRealloc_some hrealloc
  refine ⟨⟨h.len, hmax, hlength.ge, fun _ => ?_⟩, rfl, hgrow⟩
  -- nothing is missing, so the old buffer holds the whole text and its NUL
  have hold : buf.str.take (text.length + 1) = text ++ [0] := by
    have hfront := h.front (by lia)
    rwa [Nat.min_eq_left (by lia), List.take_of_length_le (l := text) (by lia)] at hfront
  have hcopy : str.take (text.length + 1) = buf.str.take (text.length + 1) := by
    rw [hkept (text.length + 1) ?_ (by lia)]
    · cases buf.isAllocated with
      | true => rfl
      | false => simp [List.take_take, htext]
    · cases buf.isAllocated with
      | true => simpa using by lia
      | false => simp; lia
  show str.take (min text.length (newSize - 1) + 1) = text.take (newSize - 1) ++ [0]
  rw [Nat.min_eq_left (by lia), List.take_of_length_le (l := text) (by lia), hcopy, hold]

theorem reserve_invariant {I : AVBPrint → Prop} {n : Nat}
    (hle : ∀ b, I b → b.size ≤ b.sizeMax)
    (halloc : ∀ b b', I b → avBprintAlloc malloc b n = .ok b' →
      I b' ∧ b'.sizeMax = b.sizeMax ∧ b.size < b'.size)
    (h : I buf) {fuel : Nat} (hfuel : buf.sizeMax - buf.size < fuel) :
    ∃ buf', avBprintReserve malloc fuel buf n = some (avBprintRoom buf', buf') ∧
      I buf' ∧ buf'.sizeMax = buf.sizeMax := by
  induction fuel generalizing buf with
  | zero => exact absurd hfuel (Nat.not_lt_zero _)
  | succ fuel ih =>
    unfold avBprintReserve
    by_cases hroom : n < avBprintRoom buf
    · exact ⟨buf, if_pos hroom, h, rfl⟩
    cases hok : avBprintAlloc malloc buf n with
    | error e => exact ⟨buf, by simp [hroom], h, rfl⟩
    | ok next =>
      -- the limit bounds how often the size can grow
      obtain ⟨hnext, hmax, hgrow⟩ := halloc buf next h hok
      have hbound := hle next hnext
      obtain ⟨buf', hrun, hkept, hmax'⟩ := ih hnext (by lia)
      exact ⟨buf', by simpa [hroom] using hrun, hkept, hmax'.trans hmax⟩

theorem Holds.reserve (h : Holds buf text) (malloc : Malloc) (n : Nat) {fuel : Nat}
    (hfuel : buf.sizeMax - buf.size < fuel) :
    ∃ buf', avBprintReserve malloc fuel buf n = some (avBprintRoom buf', buf') ∧
      Holds buf' text ∧ buf'.sizeMax = buf.sizeMax :=
  reserve_invariant (I := fun b => Holds b text) (fun _ hb => hb.size_le)
    (fun _ _ hb hok => hb.alloc hok) h hfuel

end Alloc

section Append

/-- The write of `av_bprint_append_data` into the room that is left. -/
def put (buf : AVBPrint) (data : Bytes) : AVBPrint :=
  if avBprintRoom buf = 0 then buf
  else { buf with
    str := overwrite buf.str buf.len (data.take (min data.length (avBprintRoom buf - 1))) }

/-- The write puts the front of the data behind the front of the text. -/
theorem Holds.put_take (h : Holds buf text) (hsize : 0 < buf.size) (data : Bytes) :
    (put buf data).str.length = buf.str.length ∧
      (put buf data).str.take (min (text ++ data).length (buf.size - 1)) =
        (text ++ data).take (buf.size - 1) := by
  have hlen := h.len
  have hstr := h.size_le_str
  have hfront := h.front hsize
  unfold put avBprintRoom
  by_cases htruncated : buf.size ≤ buf.len
  · -- the text is already truncated, so its front does not change
    rw [if_pos (by lia)]
    refine ⟨rfl, ?_⟩
    have htake := congrArg (List.take (buf.size - 1)) hfront
    rw [List.take_take, Nat.min_eq_left (by lia),
      List.take_append_of_le_length (by rw [List.length_take]; lia), List.take_take,
      Nat.min_self] at htake
    rw [Nat.min_eq_right (by rw [List.length_append]; lia), htake,
      List.take_append_of_le_length (by lia)]
  · rw [if_neg (by lia)]
    obtain ⟨piece, hpiece⟩ : ∃ piece, piece =
        data.take (min data.length (buf.size - min buf.len buf.size - 1)) := ⟨_, rfl⟩
    have hnew : piece.length = min data.length (buf.size - 1 - buf.len) := by
      rw [hpiece, List.length_take]
      lia
    rw [← hpiece]
    have hwhole : buf.str.take text.length = text := by
      have htake := congrArg (List.take text.length) hfront
      rw [List.take_take, Nat.min_eq_left (by lia), List.take_of_length_le (l := text) (by lia),
        List.take_left] at htake
      exact htake
    refine ⟨length_overwrite_of_le (by lia), ?_⟩
    have hwritten : (overwrite buf.str buf.len piece).take (buf.len + piece.length) =
        buf.str.take buf.len ++ piece := take_overwrite (by lia)
    have hend : min (text ++ data).length (buf.size - 1) = buf.len + piece.length := by
      rw [List.length_append]
      lia
    rw [hend, hwritten, hlen, hwhole, List.take_append, List.take_of_length_le (l := text) (by lia)]
    congr 1
    rw [hpiece]
    rw [List.take_eq_take_iff]
    lia

/-- `av_bprint_grow` closes what the write put there. -/
theorem Holds.grow (h : Holds buf text) (data : Bytes)
    (htotal : (text ++ data).length ≤ uintMax - 5) :
    Holds (avBprintGrow (put buf data) data.length) (text ++ data) := by
  have hsame : (put buf data).size = buf.size ∧ (put buf data).sizeMax = buf.sizeMax ∧
      (put buf data).len = buf.len := by
    unfold put
    split <;> exact ⟨rfl, rfl, rfl⟩
  obtain ⟨hsize, hmax, hlen⟩ := hsame
  have htext := h.len
  have hstr := h.size_le_str
  have hcount : buf.len + min data.length (uintMax - 5 - buf.len) = (text ++ data).length := by
    rw [List.length_append] at htotal ⊢
    lia
  by_cases hzero : buf.size = 0
  · -- nothing is stored, only counted
    have hskip : put buf data = buf := by
      unfold put avBprintRoom
      rw [if_pos (by lia)]
    rw [hskip]
    unfold avBprintGrow
    dsimp only
    rw [if_pos hzero]
    exact ⟨hcount, h.size_le, h.size_le_str, fun hpos => absurd hzero (by dsimp at hpos; lia)⟩
  · obtain ⟨hlength, hput⟩ := h.put_take (Nat.pos_of_ne_zero hzero) data
    unfold avBprintGrow
    dsimp only
    rw [hsize, hlen, hcount, if_neg hzero]
    have hinside : min (text ++ data).length (buf.size - 1) + [(0 : UInt8)].length ≤
        (put buf data).str.length := by
      rw [hlength, List.length_singleton]
      lia
    refine ⟨rfl, ?_, ?_, fun _ => ?_⟩
    · show buf.size ≤ (put buf data).sizeMax
      rw [hmax]
      exact h.size_le
    · show buf.size ≤ (overwrite (put buf data).str _ [0]).length
      rw [length_overwrite_of_le hinside, hlength]
      exact hstr
    · show (overwrite (put buf data).str _ [0]).take (min _ (buf.size - 1) + 1) =
        (text ++ data).take (buf.size - 1) ++ [0]
      have hclose : ∀ m, m + [(0 : UInt8)].length ≤ (put buf data).str.length →
          (overwrite (put buf data).str m [0]).take (m + [(0 : UInt8)].length) =
            (put buf data).str.take m ++ [0] :=
        fun m hm => take_overwrite ((Nat.le_add_right _ _).trans hm)
      rw [← hput]
      exact hclose _ hinside

theorem Holds.append (h : Holds buf text) (malloc : Malloc) (data : Bytes)
    (htotal : (text ++ data).length ≤ uintMax - 5) :
    ∃ buf', avBprintAppendData malloc buf data = some buf' ∧ Holds buf' (text ++ data) ∧
      buf'.sizeMax = buf.sizeMax := by
  have hfuel : buf.sizeMax - buf.size < buf.sizeMax + 1 := by lia
  obtain ⟨next, hrun, hnext, hmax⟩ := h.reserve malloc data.length hfuel
  refine ⟨avBprintGrow (put next data) data.length, ?_, hnext.grow data htotal, ?_⟩
  · rw [avBprintAppendData, hrun]
    rfl
  · rw [← hmax]
    unfold avBprintGrow put
    split <;> rfl

theorem avBprintChars_eq (malloc : Malloc) (buf : AVBPrint) (c : UInt8) (n : Nat) :
    avBprintChars malloc buf c n = avBprintAppendData malloc buf (List.replicate n c) := by
  have hpiece : ∀ k, (List.replicate n c).take (min n k) = List.replicate (min n k) c := by
    intro k
    rw [List.take_replicate, Nat.min_eq_left (Nat.min_le_left _ _)]
  unfold avBprintChars avBprintAppendData
  simp only [List.length_replicate, hpiece]

end Append

/-- One call that appends, with what `malloc` would return during it. -/
inductive Call
  | append (malloc : Malloc) (data : Bytes)
  | chars (malloc : Malloc) (c : UInt8) (n : Nat)

/-- What a call appends. -/
def Call.bytes : Call → Bytes
  | .append _ data => data
  | .chars _ c n => List.replicate n c

def callStep (buf : AVBPrint) : Call → Option AVBPrint
  | .append malloc data => avBprintAppendData malloc buf data
  | .chars malloc c n => avBprintChars malloc buf c n

/-- A sequence of calls. -/
def callRun (buf : AVBPrint) : List Call → Option AVBPrint
  | [] => some buf
  | call :: calls => (callStep buf call).bind fun buf => callRun buf calls

/-- The concatenation of everything that is appended. -/
def concat (calls : List Call) : Bytes :=
  (calls.map Call.bytes).flatten

theorem Holds.step (h : Holds buf text) (call : Call)
    (htotal : (text ++ call.bytes).length ≤ uintMax - 5) :
    ∃ buf', callStep buf call = some buf' ∧ Holds buf' (text ++ call.bytes) ∧
      buf'.sizeMax = buf.sizeMax := by
  cases call with
  | append malloc data => exact h.append malloc data htotal
  | chars malloc c n =>
    rw [callStep, avBprintChars_eq]
    exact h.append malloc (List.replicate n c) htotal

theorem Holds.run (calls : List Call) (h : Holds buf text)
    (htotal : (text ++ concat calls).length ≤ uintMax - 5) :
    ∃ buf', callRun buf calls = some buf' ∧ Holds buf' (text ++ concat calls) ∧
      buf'.sizeMax = buf.sizeMax := by
  induction calls generalizing buf text with
  | nil => exact ⟨buf, rfl, by simpa [concat] using h, rfl⟩
  | cons call calls ih =>
    have hsplit : text ++ concat (call :: calls) = (text ++ call.bytes) ++ concat calls := by
      simp [concat]
    rw [hsplit] at htotal ⊢
    have hfirst : (text ++ call.bytes).length ≤ uintMax - 5 := by
      rw [List.length_append] at htotal
      lia
    obtain ⟨next, hstep, hnext, hmax⟩ := h.step call hfirst
    obtain ⟨buf', hrun, hholds, hmax'⟩ := ih hnext htotal
    exact ⟨buf', by rw [callRun, hstep, Option.bind_some, hrun], hholds, hmax'.trans hmax⟩

/-- The limit after `av_bprint_init`: 1 stands for the internal buffer. -/
def limit (sizeMax : Nat) : Nat :=
  if sizeMax = 1 then sizeAuto else sizeMax

theorem holds_init (malloc : Malloc) {internal : Bytes} (hinternal : internal.length = sizeAuto)
    (sizeInit sizeMax : Nat) :
    Holds (avBprintInit malloc internal sizeInit sizeMax) [] ∧
      (avBprintInit malloc internal sizeInit sizeMax).sizeMax = limit sizeMax := by
  have hauto : sizeAuto = 1004 := rfl
  have hlength : (overwrite internal 0 [0]).length = sizeAuto := by
    rw [length_overwrite_of_le (by rw [hinternal, hauto]; decide), hinternal]
  have hfresh : Holds
      { str := overwrite internal 0 [0], isAllocated := false, len := 0,
        size := min sizeAuto (limit sizeMax), sizeMax := limit sizeMax } [] := by
    refine ⟨rfl, Nat.min_le_right _ _, ?_, fun _ => ?_⟩
    · rw [hlength]
      exact Nat.min_le_left _ _
    · simp [overwrite]
  unfold avBprintInit
  dsimp only
  rw [← limit]
  split_ifs
  · split
    · next buf halloc =>
      obtain ⟨hholds, hmax, -⟩ := hfresh.alloc halloc
      exact ⟨hholds, hmax⟩
    · exact ⟨hfresh, rfl⟩
  · exact ⟨hfresh, rfl⟩

/-- For every initial size and limit and every sequence of calls whose total
length stays below `UINT_MAX - 5`, whatever memory is available: every byte is
counted, the size stays within the limit, the string is the front of the
concatenation with a NUL behind it, and it is complete exactly when nothing is
missing from it. -/
theorem avBprint_refines_concat (malloc : Malloc) (internal : Bytes)
    (hinternal : internal.length = sizeAuto) (sizeInit sizeMax : Nat) (calls : List Call)
    (htotal : (concat calls).length < uintMax - 5) :
    ∃ buf, callRun (avBprintInit malloc internal sizeInit sizeMax) calls = some buf ∧
      buf.len = (concat calls).length ∧
      buf.size ≤ limit sizeMax ∧
      (0 < buf.size →
        buf.str.take (min buf.len (buf.size - 1)) =
          (concat calls).take (min buf.len (buf.size - 1)) ∧
        buf.str[min buf.len (buf.size - 1)]? = some 0 ∧
        (avBprintIsComplete buf = true ↔
          buf.str.take (min buf.len (buf.size - 1)) = concat calls)) ∧
      (buf.size = 0 → avBprintIsComplete buf = false) := by
  obtain ⟨hinit, hlimit⟩ := holds_init malloc hinternal sizeInit sizeMax
  obtain ⟨buf, hrun, hholds, hmax⟩ := hinit.run calls (by rw [List.nil_append]; lia)
  rw [List.nil_append] at hholds
  have hlen := hholds.len
  refine ⟨buf, hrun, hlen, ?_, fun hsize => ?_, fun hzero => ?_⟩
  · rw [← hlimit, ← hmax]
    exact hholds.size_le
  · have hfront := hholds.front hsize
    have htake : (concat calls).take (buf.size - 1) =
        (concat calls).take (min buf.len (buf.size - 1)) := by
      rw [List.take_eq_take_iff]
      lia
    have hclosed : ((concat calls).take (buf.size - 1)).length = min buf.len (buf.size - 1) := by
      rw [List.length_take]
      lia
    have hheld : buf.str.take (min buf.len (buf.size - 1)) =
        (concat calls).take (min buf.len (buf.size - 1)) := by
      rw [← hlen] at hfront
      have hcut := congrArg (List.take (min buf.len (buf.size - 1))) hfront
      rwa [List.take_take, Nat.min_eq_left (Nat.le_succ _), ← hclosed, List.take_left, hclosed,
        htake] at hcut
    refine ⟨hheld, ?_, ?_⟩
    · rw [← hlen] at hfront
      have hnul := congrArg (fun l => l[min buf.len (buf.size - 1)]?) hfront
      simpa [List.getElem?_take, ← hclosed] using hnul
    · rw [avBprintIsComplete_iff, hheld, List.take_eq_self_iff]
      lia
  · rw [avBprintIsComplete, hzero]
    simp

/-- A buffer that is limited to the internal storage and gets no memory. -/
theorem avBprint_refines_concat_automatic :
    ∃ buf, callRun (avBprintInit (fun _ => none) (List.replicate sizeAuto 0) 64 1)
        [.append (fun _ => none) [104, 105], .chars (fun _ => none) 33 3] = some buf ∧
      buf.len = 5 ∧ buf.size ≤ sizeAuto := by
  obtain ⟨buf, hrun, hlen, hsize, -⟩ := avBprint_refines_concat (fun _ => none)
    (List.replicate sizeAuto 0) List.length_replicate 64 1
    [.append (fun _ => none) [104, 105], .chars (fun _ => none) 33 3] (by decide)
  exact ⟨buf, hrun, hlen, hsize⟩

section Complete

/-- A buffer that holds `text` unless it says that bytes are missing.  Since a
buffer of at most `INT_MAX` bytes cannot be complete once `len` was cut off at
`UINT_MAX - 5`, this needs no bound on the text. -/
structure Prints (buf : AVBPrint) (text : Bytes) : Prop where
  size_le : buf.size ≤ buf.sizeMax
  small : buf.size < 2 ^ 31
  complete : buf.len < buf.size → Holds buf text

theorem Prints.alloc (h : Prints buf text) {room : Nat}
    (hok : avBprintAlloc malloc buf room = .ok buf') :
    Prints buf' text ∧ buf'.sizeMax = buf.sizeMax ∧ buf.size < buf'.size := by
  obtain ⟨hlen, str, newSize, hrealloc, rfl, hgrow, hmax, -⟩ := avBprintAlloc_ok h.size_le hok
  obtain ⟨-, hsmall, -⟩ := avRealloc_some hrealloc
  exact ⟨⟨hmax, hsmall, fun _ => ((h.complete hlen).alloc hok).1⟩, rfl, hgrow⟩

theorem Prints.append (h : Prints buf text) (malloc : Malloc) (data : Bytes) :
    ∃ buf', avBprintAppendData malloc buf data = some buf' ∧ Prints buf' (text ++ data) := by
  have hfuel : buf.sizeMax - buf.size < buf.sizeMax + 1 := by lia
  obtain ⟨next, hrun, hnext, -⟩ := reserve_invariant (I := fun b => Prints b text) (n := data.length)
    (fun _ hb => hb.size_le) (fun _ _ hb hok => hb.alloc hok) h hfuel
  have hsize : (avBprintGrow (put next data) data.length).size = next.size ∧
      (avBprintGrow (put next data) data.length).sizeMax = next.sizeMax ∧
      (avBprintGrow (put next data) data.length).len =
        next.len + min data.length (uintMax - 5 - next.len) := by
    unfold avBprintGrow put
    split <;> exact ⟨rfl, rfl, rfl⟩
  have hsmall := hnext.small
  have hmax : uintMax = 2 ^ 32 - 1 := rfl
  refine ⟨avBprintGrow (put next data) data.length, ?_, ?_, ?_, fun hcomplete => ?_⟩
  · rw [avBprintAppendData, hrun]
    rfl
  · rw [hsize.1, hsize.2.1]
    exact hnext.size_le
  · rw [hsize.1]
    exact hsmall
  · -- the buffer was complete before, and `len` was not cut off
    rw [hsize.1, hsize.2.2] at hcomplete
    have hholds := hnext.complete (by lia)
    have hlen := hholds.len
    apply hholds.grow data
    rw [List.length_append]
    lia

theorem prints_init (malloc : Malloc) {internal : Bytes} (hinternal : internal.length = sizeAuto)
    (sizeInit sizeMax : Nat) :
    Prints (avBprintInit malloc internal sizeInit sizeMax) [] := by
  have hholds := (holds_init malloc hinternal sizeInit sizeMax).1
  refine ⟨hholds.size_le, ?_, fun _ => hholds⟩
  have hauto : sizeAuto = 1004 := rfl
  unfold avBprintInit
  dsimp only
  rw [← limit]
  split_ifs
  · split
    · next buf halloc =>
      obtain ⟨-, str, newSize, hrealloc, rfl, -⟩ := avBprintAlloc_ok (Nat.min_le_right _ _) halloc
      exact (avRealloc_some hrealloc).2.1
    · show min sizeAuto (limit sizeMax) < 2 ^ 31
      lia
  · show min sizeAuto (limit sizeMax) < 2 ^ 31
    lia

/-- The string of a complete buffer is the text, if that has no NUL. -/
theorem Prints.finalize (h : Prints buf text) (hcomplete : avBprintIsComplete buf = true)
    (hnul : 0 ∉ text) {block : Bytes} (hok : avBprintFinalize malloc buf = .ok block) :
    AvString.cString block = text := by
  have hlt := avBprintIsComplete_iff.mp hcomplete
  have hholds := h.complete hlt
  have hlen := hholds.len
  have hstr := hholds.size_le_str
  have hfront := hholds.front (by lia)
  rw [Nat.min_eq_left (by lia), List.take_of_length_le (l := text) (by lia)] at hfront
  have hreal : min (buf.len + 1) buf.size = text.length + 1 := by lia
  -- every way to get the block keeps the text and its NUL
  have hblock : block.take (text.length + 1) = text ++ [0] := by
    rw [← hfront]
    unfold avBprintFinalize at hok
    rw [hreal] at hok
    dsimp only at hok
    split_ifs at hok
    · split at hok
      · next str hrealloc =>
        cases hok
        exact (avRealloc_some hrealloc).2.2 _ (by lia) (le_refl _)
      · cases hok
        rfl
    · split at hok
      · next str hmalloc =>
        cases hok
        have hlength := (length_of_avMalloc hmalloc).1
        have hpiece : (buf.str.take (text.length + 1)).length = text.length + 1 := by
          rw [List.length_take]
          lia
        simp [overwrite, hpiece]
      · cases hok
  have hsplit : block = text ++ 0 :: block.drop (text.length + 1) := by
    calc block = block.take (text.length + 1) ++ block.drop (text.length + 1) :=
          (List.take_append_drop _ _).symm
      _ = text ++ 0 :: block.drop (text.length + 1) := by rw [hblock]; simp
  have hall : ∀ c ∈ text, (decide (c ≠ 0)) = true := by
    intro c hc
    exact decide_eq_true (fun h0 => hnul (h0 ▸ hc))
  rw [hsplit, AvString.cString, List.takeWhile_append_of_pos hall]
  simp

end Complete

end FFmpeg.Libavutil.BprintConcat
