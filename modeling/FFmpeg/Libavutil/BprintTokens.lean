import FFmpeg.Libavutil.BprintEscape

/-!
# Tokens survive quoting

`av_bprint_escape` in the quote mode prints `quoteText`: single quotes around the string, and each
quote of the string itself escaped outside of them.  What `av_bprintf` prints there passes through a
loop that overwrites the NUL of the buffer before it knows that the text fits.
-/

namespace FFmpeg
namespace Libavutil
namespace BprintEscape

open Common AvString Bprint BprintConcat

variable {buf buf' : AVBPrint} {text before : Bytes} {malloc : Malloc} {term rest : Bytes}

section Print

/-- A buffer that holds `text`, with or without a NUL, unless it says that bytes are missing. -/
structure Keeps (buf : AVBPrint) (text : Bytes) : Prop where
  size_le : buf.size ≤ buf.sizeMax
  small : buf.size < 2 ^ 31
  complete : buf.len < buf.size →
    buf.len = text.length ∧ buf.size ≤ buf.str.length ∧ buf.str.take text.length = text

theorem Prints.keeps (h : Prints buf text) : Keeps buf text where
  size_le := h.size_le
  small := h.small
  complete hlt := by
    have hholds := h.complete hlt
    have hlen := hholds.len
    have hfront := hholds.front (by lia)
    rw [Nat.min_eq_left (by lia), List.take_of_length_le (l := text) (by lia)] at hfront
    refine ⟨hlen, hholds.size_le_str, ?_⟩
    have htake := congrArg (List.take text.length) hfront
    rwa [List.take_take, Nat.min_eq_left (Nat.le_succ _), List.take_left] at htake

theorem Keeps.alloc (h : Keeps buf text) {room : Nat}
    (hok : avBprintAlloc malloc buf room = .ok buf') :
    Keeps buf' text ∧ buf'.sizeMax = buf.sizeMax ∧ buf.size < buf'.size := by
  obtain ⟨hlen, str, newSize, hrealloc, rfl, hgrow, hmax, -⟩ := avBprintAlloc_ok h.size_le hok
  obtain ⟨hlength, hsmall, hkept⟩ := avRealloc_some hrealloc
  obtain ⟨htext, hstr, hfront⟩ := h.complete hlen
  refine ⟨⟨hmax, hsmall, fun _ => ⟨htext, hlength.ge, ?_⟩⟩, rfl, hgrow⟩
  show str.take text.length = text
  rw [hkept text.length ?_ (by lia)]
  · cases buf.isAllocated with
    | true => exact hfront
    | false =>
      rw [if_neg Bool.false_ne_true, List.take_take, Nat.min_eq_left (by lia), hfront]
  · cases buf.isAllocated with
    | true =>
      rw [if_pos rfl]
      lia
    | false =>
      rw [if_neg Bool.false_ne_true, List.length_take]
      lia

/-- A round of `av_bprintf` writes behind the text. -/
def printRound (buf : AVBPrint) (data : Bytes) : AVBPrint :=
  if avBprintRoom buf = 0 then buf
  else { buf with str := overwrite buf.str buf.len (data.take (avBprintRoom buf - 1) ++ [0]) }

theorem Keeps.printRound (h : Keeps buf text) (data : Bytes) :
    Keeps (printRound buf data) text := by
  unfold BprintEscape.printRound
  split_ifs with hroom
  · exact h
  · unfold avBprintRoom at hroom ⊢
    obtain ⟨hlen, hstr, hfront⟩ := h.complete (by lia)
    have hwrite : (data.take (buf.size - min buf.len buf.size - 1) ++ [0]).length ≤
        buf.str.length - buf.len := by
      rw [List.length_append, List.length_take, List.length_singleton]
      lia
    refine ⟨h.size_le, h.small, fun _ => ⟨hlen, ?_, ?_⟩⟩
    · show buf.size ≤ (overwrite _ _ _).length
      rw [length_overwrite_of_le (by lia)]
      exact hstr
    · show (overwrite _ _ _).take _ = text
      rw [take_overwrite_of_le (by lia) (by lia), hfront]

theorem printRound_fields (buf : AVBPrint) (data : Bytes) :
    (printRound buf data).size = buf.size ∧ (printRound buf data).sizeMax = buf.sizeMax ∧
      (printRound buf data).len = buf.len := by
  unfold printRound
  split_ifs <;> exact ⟨rfl, rfl, rfl⟩

variable {data : Bytes}

/-- What fits is printed, and closed once more. -/
theorem Keeps.grow (h : Keeps buf text) (hroom : data.length < avBprintRoom buf) :
    Prints (avBprintGrow (BprintEscape.printRound buf data) data.length) (text ++ data) := by
  have hmax : uintMax = 2 ^ 32 - 1 := rfl
  have hsmall := h.small
  have hne : avBprintRoom buf ≠ 0 := by lia
  unfold BprintEscape.printRound
  rw [if_neg hne]
  unfold avBprintRoom at hroom ⊢
  obtain ⟨hlen, hstr, hfront⟩ := h.complete (by lia)
  have hdata : data.take (buf.size - min buf.len buf.size - 1) = data :=
    List.take_of_length_le (by lia)
  have hcount : buf.len + min data.length (uintMax - 5 - buf.len) = buf.len + data.length := by
    lia
  have hend : min (buf.len + data.length) (buf.size - 1) = (text ++ data).length := by
    rw [List.length_append]
    lia
  obtain ⟨str, hwritten⟩ : ∃ str, str = overwrite buf.str buf.len (data ++ [0]) := ⟨_, rfl⟩
  have hlength : str.length = buf.str.length := by
    rw [hwritten]
    apply length_overwrite_of_le
    rw [List.length_append, List.length_singleton]
    lia
  have htotal : str.take (text ++ data).length = text ++ data := by
    have htake : str.take (buf.len + (data ++ [0]).length) =
        buf.str.take buf.len ++ (data ++ [0]) := by
      rw [hwritten]
      exact take_overwrite (by lia)
    have hcut := congrArg (List.take (text ++ data).length) htake
    rw [List.take_take, List.length_append, List.length_append, List.length_singleton,
      Nat.min_eq_left (by lia), hlen, hfront, ← List.append_assoc, ← List.length_append,
      List.take_left] at hcut
    exact hcut
  unfold avBprintGrow
  dsimp only
  rw [hdata, hcount, if_neg (by lia), hend, ← hwritten]
  refine ⟨h.size_le, hsmall, fun _ => ⟨?_, h.size_le, ?_, fun _ => ?_⟩⟩
  · show buf.len + data.length = _
    rw [List.length_append, hlen]
  · show buf.size ≤ (overwrite _ _ _).length
    rw [length_overwrite_of_le, hlength]
    · exact hstr
    · rw [List.length_append, List.length_singleton, hlength]
      lia
  · have hall : (text ++ data).take (buf.size - 1) = text ++ data :=
      List.take_of_length_le (by rw [List.length_append]; lia)
    have hfits : min (text ++ data).length (buf.size - 1) = (text ++ data).length := by
      rw [List.length_append]
      lia
    have hclose : (overwrite str (text ++ data).length [0]).take ((text ++ data).length + 1) =
        str.take (text ++ data).length ++ [0] := by
      have hle : (text ++ data).length ≤ str.length := by
        rw [List.length_append]
        lia
      exact @take_overwrite UInt8 _ str [0] hle
    show (overwrite str _ [0]).take (min (text ++ data).length (buf.size - 1) + 1) =
      (text ++ data).take (buf.size - 1) ++ [0]
    rw [hfits, hall, hclose, htotal]

theorem Keeps.cut (h : Keeps buf text) (hroom : avBprintRoom buf ≤ data.length) (text' : Bytes) :
    Prints (avBprintGrow (BprintEscape.printRound buf data) data.length) text' := by
  have hmax : uintMax = 2 ^ 32 - 1 := rfl
  have hsmall := h.small
  have hsize_le := h.size_le
  obtain ⟨hsize, hsizeMax, hlen⟩ := printRound_fields buf data
  unfold avBprintRoom at hroom
  unfold avBprintGrow
  refine ⟨?_, ?_, fun hlt => ?_⟩
  · show (BprintEscape.printRound buf data).size ≤ (BprintEscape.printRound buf data).sizeMax
    lia
  · show (BprintEscape.printRound buf data).size < _
    lia
  · dsimp only at hlt
    rw [hsize, hlen] at hlt
    lia

theorem Prints.bprintf (h : Prints buf text) (malloc : Malloc) (hdata : data ≠ []) :
    ∃ buf', avBprintf malloc buf data = some buf' ∧ Prints buf' (text ++ data) := by
  have hloop : ∀ fuel buf, Keeps buf text → buf.sizeMax - buf.size < fuel →
      ∃ buf', avBprintfLoop malloc fuel buf data = some buf' ∧ Prints buf' (text ++ data) := by
    intro fuel
    induction fuel with
    | zero => exact fun _ _ hfuel => absurd hfuel (Nat.not_lt_zero _)
    | succ fuel ih =>
      intro buf hkeeps hfuel
      have hlength : data.length ≠ 0 := fun h => hdata (List.length_eq_zero_iff.1 h)
      rw [avBprintfLoop]
      rw [← printRound.eq_def]
      rw [if_neg hlength]
      split_ifs with hroom
      · exact ⟨_, rfl, hkeeps.grow hroom⟩
      · cases hok : avBprintAlloc malloc (printRound buf data) data.length with
        | error e => exact ⟨_, rfl, hkeeps.cut (Nat.le_of_not_lt hroom) _⟩
        | ok next =>
          -- the limit bounds how often the size can grow
          obtain ⟨hnext, hmax, hgrow⟩ := (hkeeps.printRound data).alloc hok
          obtain ⟨hsize, hsizeMax, -⟩ := printRound_fields buf data
          have hbound := hnext.size_le
          exact ih next hnext (by lia)
  exact hloop (buf.sizeMax + 1) buf (Prints.keeps h) (by have := h.size_le; lia)

/-- What the loop of the quote mode prints. -/
def quoteBody : Bytes → Bytes
  | [] => []
  | c :: src => (if c = quote then [quote, backslash, quote, quote] else [c]) ++ quoteBody src

/-- The string in single quotes. -/
def quoteText (src : Bytes) : Bytes := [quote] ++ quoteBody src ++ [quote]

theorem Prints.escapeQuote (h : Prints buf text) (malloc : Malloc) (src : Bytes) :
    ∃ buf', escapeQuote malloc buf src = some buf' ∧ Prints buf' (text ++ quoteBody src) := by
  induction src generalizing buf text with
  | nil => exact ⟨buf, rfl, by simpa [quoteBody] using h⟩
  | cons c src ih =>
    unfold Bprint.escapeQuote quoteBody
    split_ifs with hc
    · obtain ⟨buf₁, hrun₁, h₁⟩ := Prints.bprintf h malloc
        (show [quote, backslash, quote, quote] ≠ [] by simp)
      obtain ⟨buf₂, hrun₂, h₂⟩ := ih h₁
      exact ⟨buf₂, by simp [hrun₁, hrun₂], by simpa using h₂⟩
    · obtain ⟨buf₁, hrun₁, h₁⟩ := Prints.chars h malloc c
      obtain ⟨buf₂, hrun₂, h₂⟩ := ih h₁
      exact ⟨buf₂, by simp [hrun₁, hrun₂], by simpa using h₂⟩

theorem Prints.quoted (h : Prints buf text) (malloc : Malloc) (special src : Bytes) :
    ∃ buf', avBprintEscape malloc buf src special .quote {} = some buf' ∧
      Prints buf' (text ++ quoteText src) := by
  obtain ⟨buf₁, hrun₁, h₁⟩ := Prints.chars h malloc quote
  obtain ⟨buf₂, hrun₂, h₂⟩ := Prints.escapeQuote h₁ malloc src
  obtain ⟨buf₃, hrun₃, h₃⟩ := Prints.chars h₂ malloc quote
  refine ⟨buf₃, ?_, ?_⟩
  · simp [avBprintEscape, hrun₁, hrun₂, hrun₃]
  · simpa [quoteText] using h₃

end Print

section Token

theorem avGetTokenLoop_quoted {c : UInt8} (hc : c ≠ quote) (p out : Bytes) (fin : Nat) :
    avGetTokenLoop term true (c :: p) out fin = avGetTokenLoop term true p (out ++ [c]) fin := by
  conv_lhs => unfold avGetTokenLoop
  exact if_neg hc

theorem avGetTokenLoop_close (p out : Bytes) (fin : Nat) :
    avGetTokenLoop term true (quote :: p) out fin = avGetTokenLoop term false p out out.length := by
  conv_lhs => unfold avGetTokenLoop
  exact if_pos rfl

theorem avGetTokenLoop_open (hquote : quote ∉ term) (p out : Bytes) (fin : Nat) :
    avGetTokenLoop term false (quote :: p) out fin = avGetTokenLoop term true p out fin := by
  have hback : quote ≠ backslash := by decide
  conv_lhs => unfold avGetTokenLoop
  simp [hquote, hback]

theorem avGetTokenLoop_quoteBody (hback : backslash ∉ term) (hquote : quote ∉ term) (s : Bytes)
    (p out : Bytes) (fin : Nat) :
    avGetTokenLoop term true (quoteBody s ++ quote :: p) out fin =
      avGetTokenLoop term false p (out ++ s) (out ++ s).length := by
  induction s generalizing out fin with
  | nil =>
    rw [quoteBody, List.nil_append, avGetTokenLoop_close, List.append_nil]
  | cons c s ih =>
    have hsnoc : out ++ c :: s = (out ++ [c]) ++ s := by simp
    rw [hsnoc, quoteBody]
    split_ifs with hc
    · -- the quotes are closed, the quote itself is escaped, and they open again
      subst hc
      simp only [List.cons_append, List.nil_append]
      rw [avGetTokenLoop_close, avGetTokenLoop_escaped hback, avGetTokenLoop_open hquote, ih]
    · rw [List.cons_append, List.nil_append, List.cons_append, avGetTokenLoop_quoted hc, ih]

theorem avGetToken_quoteText (hback : backslash ∉ term) (hquote : quote ∉ term)
    (hrest : ∀ c, rest.head? = some c → c ∈ term) (s : Bytes) :
    avGetToken (quoteText s ++ rest) term = (s, rest) := by
  have hsplit : quoteText s ++ rest = quote :: (quoteBody s ++ quote :: rest) := by
    simp [quoteText]
  have hfront : (quote :: (quoteBody s ++ quote :: rest)).dropWhile isWhitespace =
      quote :: (quoteBody s ++ quote :: rest) := rfl
  have hrun : avGetTokenLoop term false (quote :: (quoteBody s ++ quote :: rest)) [] 0 =
      (s, s.length, rest) := by
    rw [avGetTokenLoop_open hquote, avGetTokenLoop_quoteBody hback hquote, List.nil_append,
      avGetTokenLoop_stop hrest]
  rw [hsplit, avGetToken, hfront, hrun]
  simp

theorem length_avGetTokenLoop_le (quoted : Bool) (p out : Bytes) (fin : Nat) :
    (avGetTokenLoop term quoted p out fin).2.2.length ≤ p.length := by
  induction quoted, p, out, fin using avGetTokenLoop.induct term with
  | case1 => exact Nat.le_refl _
  | case2 p out fin ih =>
    rw [avGetTokenLoop_close]
    exact Nat.le_succ_of_le ih
  | case3 c p out fin hc ih =>
    rw [avGetTokenLoop_quoted hc]
    exact Nat.le_succ_of_le ih
  | case4 c p out fin hterm =>
    unfold avGetTokenLoop
    simp [hterm]
  | case5 out fin d p hterm ih =>
    rw [avGetTokenLoop_escaped hterm]
    exact Nat.le_succ_of_le (Nat.le_succ_of_le ih)
  | case6 out fin hterm =>
    unfold avGetTokenLoop
    simp [hterm]
  | case7 p out fin hterm hback ih =>
    rw [avGetTokenLoop_open hterm]
    exact Nat.le_succ_of_le ih
  | case8 c p out fin hterm hback hquote ih =>
    rw [avGetTokenLoop_plain hterm hback hquote]
    exact Nat.le_succ_of_le ih

theorem avGetToken_whitespace {c : UInt8} (hc : isWhitespace c = true) (rest term : Bytes) :
    (avGetToken (c :: rest) term).2 ≠ c :: rest := by
  intro h
  have hlength := congrArg List.length h
  have hloop := @length_avGetTokenLoop_le term false
    ((c :: rest).dropWhile isWhitespace) [] 0
  have hdrop : ((c :: rest).dropWhile isWhitespace).length ≤ rest.length := by
    rw [List.dropWhile_cons_of_pos hc]
    exact (List.dropWhile_sublist _).length_le
  rw [List.length_cons] at hlength
  unfold avGetToken at hlength
  dsimp only at hlength
  lia

theorem avGetToken_nil (hrest : ∀ c, rest.head? = some c → c ∈ term) :
    avGetToken rest term = ([], rest) ↔ ∀ c, rest.head? = some c → isWhitespace c = false := by
  cases rest with
  | nil => exact iff_of_true rfl (by simp)
  | cons c rest =>
    cases hc : isWhitespace c with
    | true =>
      refine iff_of_false (fun h => ?_) (fun h => ?_)
      · exact avGetToken_whitespace hc rest term (congrArg Prod.snd h)
      · have hnot := h c rfl
        rw [hc] at hnot
        cases hnot
    | false =>
      refine iff_of_true ?_ (fun d hd => ?_)
      · have hkeep : (c :: rest).dropWhile isWhitespace = c :: rest :=
          List.dropWhile_cons_of_neg (by simp [hc])
        rw [avGetToken, hkeep, avGetTokenLoop_stop hrest]
        rfl
      · rw [← Option.some.inj hd, hc]

end Token

end BprintEscape
end Libavutil
end FFmpeg

/-! ## A buffer that is cleared and filled again

`av_bprint_clear` forgets the text but not the storage.  A buffer that was cut off is complete again
after it, so what is kept through every call is that the storage has the size it should have. -/

namespace FFmpeg
namespace Libavutil
namespace BprintCollect

open Common Bprint BprintConcat BprintEscape

variable {buf buf' : AVBPrint} {text data : Bytes} {malloc : Malloc}

/-- The storage is as long as the buffer says. -/
def Sized (buf : AVBPrint) : Prop := buf.size ≤ buf.str.length

theorem sized_alloc {room : Nat} (hle : buf.size ≤ buf.sizeMax)
    (hok : avBprintAlloc malloc buf room = .ok buf') :
    Sized buf' ∧ buf'.size ≤ buf'.sizeMax ∧ buf'.sizeMax = buf.sizeMax ∧ buf.size < buf'.size := by
  obtain ⟨-, str, newSize, hrealloc, rfl, hgrow, hmax, -⟩ := avBprintAlloc_ok hle hok
  exact ⟨(avRealloc_some hrealloc).1.ge, hmax, rfl, hgrow⟩

theorem Sized.overwrite (h : Sized buf) {i : Nat} {new : Bytes} (hroom : i + new.length ≤ buf.size)
    (len : Nat) : Sized { buf with str := overwrite buf.str i new, len := len } := by
  show buf.size ≤ (Common.overwrite buf.str i new).length
  rw [length_overwrite_of_le (hroom.trans h)]
  exact h

theorem Sized.grow (h : Sized buf) (extraLen : Nat) : Sized (avBprintGrow buf extraLen) := by
  unfold avBprintGrow
  by_cases hzero : buf.size = 0
  · simp only [hzero, if_pos]
    exact Nat.zero_le _
  · simp only [if_neg hzero]
    refine h.overwrite ?_ _
    rw [List.length_singleton]
    lia

theorem Sized.put (h : Sized buf) (data : Bytes) : Sized (put buf data) := by
  unfold BprintConcat.put
  split_ifs with hroom
  · exact h
  · refine h.overwrite ?_ buf.len
    unfold avBprintRoom at hroom ⊢
    rw [List.length_take]
    lia

theorem Sized.printRound (h : Sized buf) (data : Bytes) :
    Sized (BprintEscape.printRound buf data) := by
  unfold BprintEscape.printRound
  split_ifs with hroom
  · exact h
  · refine h.overwrite ?_ buf.len
    unfold avBprintRoom at hroom ⊢
    rw [List.length_append, List.length_take, List.length_singleton]
    lia

/-- A buffer that holds `text` unless it says that bytes are missing, in storage of its size. -/
structure Collects (buf : AVBPrint) (text : Bytes) : Prop where
  prints : Prints buf text
  sized : Sized buf

theorem Collects.chars (h : Collects buf text) (malloc : Malloc) (c : UInt8) :
    ∃ buf', avBprintChars malloc buf c 1 = some buf' ∧ Collects buf' (text ++ [c]) := by
  obtain ⟨buf', hrun, hprints⟩ := Prints.chars h.prints malloc c
  refine ⟨buf', hrun, hprints, ?_⟩
  have hfuel : buf.sizeMax - buf.size < buf.sizeMax + 1 := by
    have hle := h.prints.size_le
    lia
  obtain ⟨next, hreserve, ⟨hnext, -⟩, -⟩ :=
    reserve_invariant (I := fun b => Sized b ∧ b.size ≤ b.sizeMax) (fun _ hb => hb.2)
      (fun b b' hb (hok : avBprintAlloc malloc b [c].length = .ok b') => by
        obtain ⟨hsized, hle, hmax, hgrow⟩ := sized_alloc hb.2 hok
        exact ⟨⟨hsized, hle⟩, hmax, hgrow⟩)
      ⟨h.sized, h.prints.size_le⟩ hfuel
  have hput : avBprintChars malloc buf c 1 = some (avBprintGrow (put next [c]) 1) := by
    rw [avBprintChars_eq, List.replicate_one, avBprintAppendData, hreserve]
    rfl
  rw [hput] at hrun
  rw [← Option.some.inj hrun]
  exact (hnext.put [c]).grow 1

theorem Sized.bprintfLoop (fuel : Nat) (h : Sized buf) (hle : buf.size ≤ buf.sizeMax)
    (hrun : avBprintfLoop malloc fuel buf data = some buf') : Sized buf' := by
  induction fuel generalizing buf with
  | zero => cases hrun
  | succ fuel ih =>
    rw [avBprintfLoop, ← printRound.eq_def] at hrun
    split_ifs at hrun with hlength hroom
    · rw [← Option.some.inj hrun]
      exact h.printRound data
    · rw [← Option.some.inj hrun]
      exact (h.printRound data).grow _
    · obtain ⟨hsize, hmax, -⟩ := printRound_fields buf data
      cases hok : avBprintAlloc malloc (BprintEscape.printRound buf data) data.length with
      | error e =>
        rw [hok] at hrun
        rw [← Option.some.inj hrun]
        exact (h.printRound data).grow _
      | ok next =>
        rw [hok] at hrun
        obtain ⟨hsized, hnext, -⟩ := sized_alloc (by rw [hsize, hmax]; exact hle) hok
        exact ih hsized hnext hrun

theorem Collects.bprintf (h : Collects buf text) (malloc : Malloc) (hdata : data ≠ []) :
    ∃ buf', avBprintf malloc buf data = some buf' ∧ Collects buf' (text ++ data) := by
  obtain ⟨buf', hrun, hprints⟩ := Prints.bprintf h.prints malloc hdata
  exact ⟨buf', hrun, hprints, h.sized.bprintfLoop _ h.prints.size_le hrun⟩

theorem collects_init (malloc : Malloc) {internal : Bytes} (hinternal : internal.length = sizeAuto)
    (sizeInit sizeMax : Nat) : Collects (avBprintInit malloc internal sizeInit sizeMax) [] :=
  ⟨prints_init malloc hinternal sizeInit sizeMax,
    (holds_init malloc hinternal sizeInit sizeMax).1.size_le_str⟩

theorem Collects.clear (h : Collects buf text) : Collects (avBprintClear buf) [] := by
  obtain ⟨⟨hsize_le, hsmall, hcomplete⟩, hsized⟩ := h
  unfold avBprintClear
  split_ifs with hlen
  · have hstr : buf.size ≤ (Common.overwrite buf.str 0 [0]).length := by
      rw [length_overwrite (Nat.zero_le _)]
      exact hsized.trans (Nat.le_max_left _ _)
    exact ⟨⟨hsize_le, hsmall, fun _ => ⟨rfl, hsize_le, hstr, fun _ => by simp [Common.overwrite]⟩⟩,
      hstr⟩
  · refine ⟨⟨hsize_le, hsmall, fun hlt => ?_⟩, hsized⟩
    have hholds := hcomplete hlt
    have hnil : text = [] := by
      rw [← List.length_eq_zero_iff, ← hholds.len]
      exact not_not.1 hlen
    rwa [hnil] at hholds

end BprintCollect
end Libavutil
end FFmpeg
