import FFmpeg.Libavformat.SubtitlesLines

/-!
# Which texts are read line by line

A line that is not empty comes out as it is.  Nothing is written for an empty line, and a look that
finds the LF of an empty line takes that line away.  A look at a character of several bytes cuts the
line that begins with it.
-/

namespace FFmpeg.Libavformat.Subtitles

open Common Libavutil Utf8 AvioSource

variable {tr : FFTextReader} {m : List Marked} {b : UInt8} {mark : Bool}

/-! ## Successive calls -/

/-- What the calls of `ff_subtitles_read_line` until `ff_text_eof` return, and leave in `buf`. -/
inductive ReadsUntilEof (size : Nat) :
    FFTextReader → Bytes → List (Except AVERROR Nat × Bytes) → Prop
  | eof {tr : FFTextReader} {buf : Bytes} (h : ffTextEof tr = true) : ReadsUntilEof size tr buf []
  | call {tr tr' : FFTextReader} {buf buf' : Bytes} {ret : Except AVERROR Nat}
      {results : List (Except AVERROR Nat × Bytes)} (heof : ffTextEof tr = false)
      (hcall : ffSubtitlesReadLine tr buf size = some (ret, buf', tr'))
      (hrest : ReadsUntilEof size tr' buf' results) :
      ReadsUntilEof size tr buf ((ret, buf') :: results)

/-- A call returns the length of this line, and leaves it in the buffer with a NUL behind it. -/
def Returns (line : Bytes) (result : Except AVERROR Nat × Bytes) : Prop :=
  result.1 = .ok line.length ∧ result.2.take (line.length + 1) = line ++ [0]

/-- The calls until `ff_text_eof` return these lines. -/
def ReadsLines (size : Nat) (tr : FFTextReader) (buf : Bytes) (lines : List Bytes) : Prop :=
  ∃ results, ReadsUntilEof size tr buf results ∧ List.Forall₂ Returns lines results

section Calls

variable {size : Nat} {buf buf' : Bytes} {tr' : FFTextReader} {line : Bytes} {lines : List Bytes}
  {ret : Except AVERROR Nat}

theorem readsLines_nil : ReadsLines size tr buf [] ↔ ffTextEof tr = true := by
  constructor
  · rintro ⟨results, hreads, hlines⟩
    cases hlines
    cases hreads with
    | eof h => exact h
  · exact fun h => ⟨[], .eof h, .nil⟩

theorem ReadsLines.cons (heof : ffTextEof tr = false)
    (hcall : ffSubtitlesReadLine tr buf size = some (.ok line.length, buf', tr'))
    (hholds : buf'.take (line.length + 1) = line ++ [0]) (h : ReadsLines size tr' buf' lines) :
    ReadsLines size tr buf (line :: lines) := by
  obtain ⟨results, hreads, hlines⟩ := h
  exact ⟨_, .call heof hcall hreads, .cons ⟨rfl, hholds⟩ hlines⟩

theorem ReadsLines.uncons (h : ReadsLines size tr buf (line :: lines))
    (hcall : ffSubtitlesReadLine tr buf size = some (ret, buf', tr')) :
    ret = .ok line.length ∧ buf'.take (line.length + 1) = line ++ [0] ∧
      ReadsLines size tr' buf' lines := by
  obtain ⟨results, hreads, hlines⟩ := h
  cases hlines with
  | cons hfirst hrest =>
    cases hreads with
    | call heof hcall' hreads =>
      rw [hcall, Option.some.injEq, Prod.mk.injEq, Prod.mk.injEq] at hcall'
      obtain ⟨rfl, rfl, rfl⟩ := hcall'
      exact ⟨hfirst.1, hfirst.2, _, hreads, hrest⟩

theorem ReadsLines.ne_nil (h : ReadsLines size tr buf (line :: lines)) (hsize : 1 ≤ size)
    (hbuf : buf.length = size) (hnul : buf.take 1 ≠ [0]) : line ≠ [] := by
  rintro rfl
  obtain ⟨ret, buf', tr', hcall, -, hsame⟩ := ffSubtitlesReadLine_inside tr hsize hbuf
  obtain ⟨hret, hfirst, -⟩ := h.uncons hcall
  rw [hsame hret] at hfirst
  exact hnul hfirst

end Calls

/-! ## Texts with one kind of break -/

/-- The text of lines with a break behind each of them, and of a last one without. -/
def textWith (brk : Bytes) (lines : List Bytes) (last : Bytes) : Bytes :=
  lines.flatMap (fun line => line ++ brk) ++ last

/-- The lines of such a text. -/
def linesOf (lines : List Bytes) (last : Bytes) : List Bytes :=
  lines ++ if last = [] then [] else [last]

/-- Where a line begins. -/
def lineStart (brk : Bytes) (lines : List Bytes) (k : Nat) : Nat :=
  ((lines.take k).flatMap fun line => line ++ brk).length

theorem textWith_cons (brk line : Bytes) (lines : List Bytes) (last : Bytes) :
    textWith brk (line :: lines) last = line ++ (brk ++ textWith brk lines last) := by
  rw [textWith, List.flatMap_cons, textWith, List.append_assoc, List.append_assoc]

theorem lineStart_succ (brk line : Bytes) (lines : List Bytes) (k : Nat) :
    lineStart brk (line :: lines) (k + 1) = line.length + brk.length + lineStart brk lines k := by
  rw [lineStart, List.take_succ_cons, List.flatMap_cons, List.length_append, List.length_append]
  rfl

theorem take_one_ne {line buf : Bytes} (hplain : Plain line) (hne : line ≠ [])
    (h : buf.take (line.length + 1) = line ++ [0]) : buf.take 1 ≠ [0] := by
  cases line with
  | nil => exact absurd rfl hne
  | cons c line =>
    cases buf with
    | nil => cases h
    | cons d buf =>
      obtain ⟨rfl, -⟩ := List.cons.inj h
      intro hd
      exact (hplain d List.mem_cons_self).1 (List.cons.inj hd).1

theorem Front.mark_lf (h : Front tr ((lf, mark) :: m)) : mark = false := by
  cases mark with
  | false => rfl
  | true =>
    obtain ⟨-, p, -, -, -, -, hhigh, -⟩ := h.peek_multibyte
    exact absurd (hhigh lf List.mem_cons_self) (by decide)

theorem first_of_textWith {brk rest last : Bytes} {lines : List Bytes}
    (hplain : ∀ line ∈ lines, Plain line) (hlast : Plain last)
    (h : textWith brk lines last = b :: rest) :
    (b ≠ 0 ∧ isEol b = false) ∨ ∃ others, lines = [] :: others := by
  cases lines with
  | nil =>
    have hb : last = b :: rest := h
    exact Or.inl (hlast b (hb ▸ List.mem_cons_self))
  | cons line others =>
    cases line with
    | nil => exact Or.inr ⟨others, rfl⟩
    | cons c line =>
      rw [textWith_cons] at h
      obtain ⟨rfl, -⟩ := List.cons.inj h
      exact Or.inl (hplain _ List.mem_cons_self c List.mem_cons_self)

section Runs

variable {size : Nat} {buf : Bytes} {lines : List Bytes} {last : Bytes}

theorem readsLines_last (hlast : Plain last) (hne : last ≠ []) (hsize : last.length + 1 < size)
    (hbuf : buf.length = size) (h : Front tr m) (hm : bytesOf m = last) :
    ReadsLines size tr buf [last] := by
  obtain ⟨buf', tr', hcall, heof, hholds⟩ := ffSubtitlesReadLine_last hlast hsize hbuf h hm
  refine .cons (h.eof_ne ?_) hcall (hholds hne) (readsLines_nil.2 heof)
  rintro rfl
  exact hne hm.symm

/-! ## LF -/

/-- No line behind the first begins with a character of several bytes. -/
def StartsSingle (m : List Marked) (lines : List Bytes) : Prop :=
  ∀ k, 0 < k → k ≤ lines.length → ∀ b, m[lineStart [lf] lines k]? ≠ some (b, true)

theorem startsSingle_cons {content : List Marked} {line : Bytes} (hline : bytesOf content = line) :
    StartsSingle (content ++ (lf, mark) :: m) (line :: lines) ↔
      (∀ b, m[0]? ≠ some (b, true)) ∧ StartsSingle m lines := by
  have hlength : content.length = line.length := by rw [← hline, bytesOf, List.length_map]
  have hstart : ∀ k, (content ++ (lf, mark) :: m)[lineStart [lf] (line :: lines) (k + 1)]? =
      m[lineStart [lf] lines k]? := by
    intro k
    rw [lineStart_succ, List.length_singleton, List.getElem?_append_right (by lia), hlength,
      show line.length + 1 + lineStart [lf] lines k - line.length = lineStart [lf] lines k + 1 by
        lia, List.getElem?_cons_succ]
  constructor
  · intro h
    refine ⟨fun b => ?_, fun k hpos hk b => ?_⟩
    · have hfirst := h 1 Nat.one_pos (Nat.succ_le_succ (Nat.zero_le _)) b
      rwa [hstart 0] at hfirst
    · have hnext := h (k + 1) (Nat.succ_pos k) (Nat.succ_le_succ hk) b
      rwa [hstart k] at hnext
  · rintro ⟨hfirst, hrest⟩ k hpos hk b
    obtain ⟨k, rfl⟩ : ∃ j, k = j + 1 := ⟨k - 1, by lia⟩
    rw [hstart k]
    rcases Nat.eq_zero_or_pos k with rfl | hk'
    · exact hfirst b
    · exact hrest k hk' (Nat.le_of_succ_le_succ hk) b

theorem readsLines_lf (hplain : ∀ line ∈ lines, Plain line) (hlast : Plain last)
    (hsize : ∀ line ∈ linesOf lines last, line.length + 1 < size) (hne : ∀ line ∈ lines, line ≠ [])
    (hbuf : buf.length = size) (h : Front tr m) (hm : bytesOf m = textWith [lf] lines last)
    (hmarks : StartsSingle m lines) (hend : m = [] → tr.pb.eofReached = true) :
    ReadsLines size tr buf (linesOf lines last) := by
  induction lines generalizing tr m buf with
  | nil =>
    by_cases hempty : last = []
    · subst hempty
      have hnil : m = [] := List.map_eq_nil_iff.1 hm
      subst hnil
      exact readsLines_nil.2 (h.eof_nil.trans (hend rfl))
    · have hlines : linesOf [] last = [last] := by rw [linesOf, if_neg hempty]; rfl
      rw [hlines] at hsize ⊢
      exact readsLines_last hlast hempty (hsize last List.mem_cons_self) hbuf h hm
  | cons line lines ih =>
    rw [textWith_cons] at hm
    have hline := hne line List.mem_cons_self
    have hplain' := fun l hl => hplain l (List.mem_cons_of_mem _ hl)
    have hne' := fun l hl => hne l (List.mem_cons_of_mem _ hl)
    obtain ⟨content, mark, m₁, buf', tr₁, rfl, hcontent, hrest, h₁, -, hbuf', hholds, hcall⟩ :=
      ffSubtitlesReadLine_break (Or.inr rfl) (hplain line List.mem_cons_self)
        (hsize line List.mem_cons_self) hbuf h hm
    have heof := h.eof_ne (by simp)
    obtain ⟨hfirst, hmarks'⟩ := (startsSingle_cons hcontent).1 hmarks
    have hsize' : ∀ l ∈ linesOf lines last, l.length + 1 < size :=
      fun l hl => hsize l (List.mem_cons_of_mem _ hl)
    cases m₁ with
    | nil =>
      obtain ⟨tr', hskip, h', hend'⟩ := h₁.skipBreak_nil
      exact .cons heof (hcall tr' hskip) (hholds hline)
        (ih hplain' hsize' hne' hbuf' h' hrest hmarks' fun _ => hend')
    | cons x m₂ =>
      obtain ⟨b, mark'⟩ := x
      have hmark : mark' = false := by
        cases mark' with
        | false => rfl
        | true => exact absurd rfl (hfirst b)
      subst hmark
      rcases first_of_textWith hplain' hlast hrest.symm with ⟨-, heol⟩ | ⟨others, rfl⟩
      · obtain ⟨hcr, hlf⟩ := ne_of_isEol heol
        obtain ⟨tr', hskip, h'⟩ := h₁.skipBreak_plain hcr hlf
        exact .cons heof (hcall tr' hskip) (hholds hline)
          (ih hplain' hsize' hne' hbuf' h' hrest hmarks' fun hnil => by cases hnil)
      · exact absurd rfl (hne' [] List.mem_cons_self)

theorem prefix_of_line {front rest line behind : Bytes} (hfront : ∀ c ∈ front, 0x80 ≤ c)
    (h : front ++ rest = line ++ lf :: behind) :
    ∃ line', line = front ++ line' ∧ rest = line' ++ lf :: behind := by
  rcases List.append_eq_append_iff.1 h with ⟨line', hline, hrest⟩ | ⟨others, hfront', hbehind⟩
  · exact ⟨line', hline, hrest⟩
  · cases others with
    | nil =>
      rw [List.append_nil] at hfront'
      exact ⟨[], by rw [List.append_nil, hfront'], hbehind.symm⟩
    | cons c others =>
      obtain ⟨rfl, -⟩ := List.cons.inj hbehind
      exact absurd (hfront lf (by rw [hfront']; simp)) (by decide)

theorem linesOf_nil (hne : last ≠ []) : linesOf [] last = [last] := by
  rw [linesOf, if_neg hne]
  rfl

/-- A line that has lost bytes is too short. -/
theorem not_readsLines_lost {p : Bytes} (hplain : ∀ line ∈ lines, Plain line) (hlast : Plain last)
    (hsize : ∀ line ∈ linesOf lines last, line.length + 1 < size) (hbuf : buf.length = size)
    (hhigh : ∀ c ∈ b :: p, 0x80 ≤ c) (hp : p ≠ []) (h : Front tr ((b, false) :: m))
    (hm : b :: p ++ bytesOf m = textWith [lf] lines last) :
    ¬ ReadsLines size tr buf (linesOf lines last) := by
  intro hread
  have hpos := List.length_pos_iff.2 hp
  have hpart : ∀ {line rest : Bytes}, line = b :: p ++ rest → Plain line → Plain (b :: rest) := by
    rintro line rest rfl hline c hc
    refine hline c ?_
    rcases List.mem_cons.1 hc with rfl | hc
    · exact List.mem_cons_self
    · exact List.mem_append_right _ hc
  have hshorter : ∀ {line rest : Bytes}, line = b :: p ++ rest →
      (b :: rest).length < line.length := by
    rintro line rest rfl
    rw [List.length_append, List.length_cons, List.length_cons]
    lia
  cases lines with
  | nil =>
    have hline : last = b :: p ++ bytesOf m := hm.symm
    have hne : last ≠ [] := by
      rw [hline]
      exact List.cons_ne_nil _ _
    rw [linesOf_nil hne] at hread hsize
    have hfits := hsize last List.mem_cons_self
    have hlt := hshorter hline
    obtain ⟨buf', tr', hcall, -⟩ := ffSubtitlesReadLine_last (hpart hline hlast) (by lia) hbuf h rfl
    have hret := Except.ok.inj (hread.uncons hcall).1
    lia
  | cons line lines =>
    rw [textWith_cons] at hm
    obtain ⟨rest, hline, hrest⟩ := prefix_of_line hhigh hm
    have hfits := hsize line List.mem_cons_self
    have hlt := hshorter hline
    obtain ⟨-, -, -, buf', tr₁, -, -, -, -, -, -, -, hcall⟩ := ffSubtitlesReadLine_break
      (Or.inr rfl) (hpart hline (hplain line List.mem_cons_self)) (by lia) hbuf h
      (congrArg (b :: ·) hrest)
    obtain ⟨tr', hskip⟩ := skipBreak_isSome tr₁
    have hret := Except.ok.inj (hread.uncons (hcall tr' hskip)).1
    lia

/-- The buffer does not hold an empty line before it is read, so nothing is left out. -/
theorem lf_of_readsLines (hplain : ∀ line ∈ lines, Plain line) (hlast : Plain last)
    (hsize : ∀ line ∈ linesOf lines last, line.length + 1 < size) (hpos : 1 ≤ size)
    (hbuf : buf.length = size) (hnul : buf.take 1 ≠ [0]) (h : Front tr m)
    (hm : bytesOf m = textWith [lf] lines last)
    (hread : ReadsLines size tr buf (linesOf lines last)) :
    (∀ line ∈ lines, line ≠ []) ∧ StartsSingle m lines := by
  induction lines generalizing tr m buf with
  | nil => exact ⟨fun line hl => absurd hl List.not_mem_nil, fun k hk hk' => by
      exact absurd hk (Nat.not_lt.2 hk')⟩
  | cons line lines ih =>
    have hline : line ≠ [] := hread.ne_nil hpos hbuf hnul
    have hplainLine := hplain line List.mem_cons_self
    have hplain' := fun l hl => hplain l (List.mem_cons_of_mem _ hl)
    have hsize' : ∀ l ∈ linesOf lines last, l.length + 1 < size :=
      fun l hl => hsize l (List.mem_cons_of_mem _ hl)
    rw [textWith_cons] at hm
    obtain ⟨content, mark, m₁, buf', tr₁, rfl, hcontent, hrest, h₁, -, hbuf', hholds, hcall⟩ :=
      ffSubtitlesReadLine_break (Or.inr rfl) hplainLine (hsize line List.mem_cons_self) hbuf h hm
    have hnul' : buf'.take 1 ≠ [0] := take_one_ne hplainLine hline (hholds hline)
    have hnext : ∀ tr', skipBreak tr₁ = some tr' → ReadsLines size tr' buf' (linesOf lines last) :=
      fun tr' hskip => (hread.uncons (hcall tr' hskip)).2.2
    have hfinish : (∀ b, m₁[0]? ≠ some (b, true)) →
        (∀ line ∈ lines, line ≠ []) ∧ StartsSingle m₁ lines →
        (∀ l ∈ line :: lines, l ≠ []) ∧
          StartsSingle (content ++ (lf, mark) :: m₁) (line :: lines) := by
      rintro hfirst ⟨hne, hmarks⟩
      exact ⟨List.forall_mem_cons.2 ⟨hline, hne⟩, (startsSingle_cons hcontent).2 ⟨hfirst, hmarks⟩⟩
    cases m₁ with
    | nil =>
      obtain ⟨tr', hskip, h', -⟩ := h₁.skipBreak_nil
      exact hfinish (fun b hb => by cases hb)
        (ih hplain' hsize' hbuf' hnul' h' hrest (hnext tr' hskip))
    | cons x m₂ =>
      obtain ⟨b, mark'⟩ := x
      rcases first_of_textWith hplain' hlast hrest.symm with ⟨-, heol⟩ | ⟨others, rfl⟩
      · obtain ⟨hcr, hlf⟩ := ne_of_isEol heol
        cases mark' with
        | false =>
          obtain ⟨tr', hskip, h'⟩ := h₁.skipBreak_plain hcr hlf
          exact hfinish (fun c hc => by cases hc)
            (ih hplain' hsize' hbuf' hnul' h' hrest (hnext tr' hskip))
        | true =>
          obtain ⟨tr', p, m', hskip, rfl, hp, hhigh, h'⟩ := h₁.skipBreak_multibyte
          refine absurd (hnext tr' hskip) (not_readsLines_lost hplain' hlast hsize' hbuf' hhigh hp
            h' (Eq.trans ?_ hrest))
          show b :: p ++ bytesOf m' = b :: bytesOf (p.map (fun c => (c, false)) ++ m')
          rw [bytesOf_append, bytesOf_map]
          rfl
      · obtain ⟨tr', hskip⟩ := skipBreak_isSome tr₁
        exact absurd rfl ((hnext tr' hskip).ne_nil hpos hbuf' hnul')

/-! ## CRLF -/

theorem readsLines_crlf (hplain : ∀ line ∈ lines, Plain line) (hlast : Plain last)
    (hsize : ∀ line ∈ linesOf lines last, line.length + 1 < size) (hne : ∀ line ∈ lines, line ≠ [])
    (hend : last ≠ []) (hbuf : buf.length = size) (h : Front tr m)
    (hm : bytesOf m = textWith [cr, lf] lines last) :
    ReadsLines size tr buf (linesOf lines last) := by
  induction lines generalizing tr m buf with
  | nil =>
    rw [linesOf_nil hend] at hsize ⊢
    exact readsLines_last hlast hend (hsize last List.mem_cons_self) hbuf h hm
  | cons line lines ih =>
    rw [textWith_cons] at hm
    obtain ⟨content, mark, m₁, buf', tr₁, rfl, -, hrest, h₁, -, hbuf', hholds, hcall⟩ :=
      ffSubtitlesReadLine_break (Or.inl rfl) (hplain line List.mem_cons_self)
        (hsize line List.mem_cons_self) hbuf h hm
    obtain ⟨x, m₂, rfl, hlf, htail⟩ := List.map_eq_cons_iff.1 hrest
    obtain ⟨c, mark'⟩ := x
    obtain rfl : c = lf := hlf
    obtain rfl := h₁.mark_lf
    obtain ⟨tr', hskip, h', -⟩ := h₁.skipBreak_lf
    exact .cons (h.eof_ne (by simp)) (hcall tr' hskip) (hholds (hne line List.mem_cons_self))
      (ih (fun l hl => hplain l (List.mem_cons_of_mem _ hl))
        (fun l hl => hsize l (List.mem_cons_of_mem _ hl))
        (fun l hl => hne l (List.mem_cons_of_mem _ hl)) hbuf' h' htail)

/-- Behind the LF of a CRLF the end is not seen yet. -/
theorem crlf_of_readsLines (hplain : ∀ line ∈ lines, Plain line)
    (hsize : ∀ line ∈ linesOf lines last, line.length + 1 < size) (hpos : 1 ≤ size)
    (hbuf : buf.length = size) (hnul : buf.take 1 ≠ [0]) (h : Front tr m)
    (hm : bytesOf m = textWith [cr, lf] lines last)
    (hread : ReadsLines size tr buf (linesOf lines last)) :
    (∀ line ∈ lines, line ≠ []) ∧ (lines ≠ [] → last ≠ []) := by
  induction lines generalizing tr m buf with
  | nil => exact ⟨fun line hl => absurd hl List.not_mem_nil, fun hne => absurd rfl hne⟩
  | cons line lines ih =>
    have hline : line ≠ [] := hread.ne_nil hpos hbuf hnul
    have hplainLine := hplain line List.mem_cons_self
    rw [textWith_cons] at hm
    obtain ⟨content, mark, m₁, buf', tr₁, rfl, -, hrest, h₁, -, hbuf', hholds, hcall⟩ :=
      ffSubtitlesReadLine_break (Or.inl rfl) hplainLine (hsize line List.mem_cons_self) hbuf h hm
    obtain ⟨x, m₂, rfl, hlf, htail⟩ := List.map_eq_cons_iff.1 hrest
    obtain ⟨c, mark'⟩ := x
    obtain rfl : c = lf := hlf
    obtain rfl := h₁.mark_lf
    obtain ⟨tr', hskip, h', hopen⟩ := h₁.skipBreak_lf
    have hnext := (hread.uncons (hcall tr' hskip)).2.2
    obtain ⟨hne, hend⟩ := ih (fun l hl => hplain l (List.mem_cons_of_mem _ hl))
      (fun l hl => hsize l (List.mem_cons_of_mem _ hl)) hbuf'
      (take_one_ne hplainLine hline (hholds hline)) h' htail hnext
    refine ⟨List.forall_mem_cons.2 ⟨hline, hne⟩, fun _ => ?_⟩
    cases lines with
    | cons next lines => exact hend (List.cons_ne_nil _ _)
    | nil =>
      rintro rfl
      obtain rfl : m₂ = [] := List.map_eq_nil_iff.1 htail
      have heof := readsLines_nil.1 hnext
      rw [h'.eof_nil, hopen] at heof
      cases heof

/-! ## Streams of fewer than three bytes -/

theorem not_readsLines_one {x : UInt8} (hplain : Plain [x]) (hsize : 2 < size)
    (hbuf : buf.length = size) : ¬ ReadsLines size (ffTextInitAvio ⟨[x], false⟩) buf [[x]] := by
  intro hread
  obtain ⟨hzero, heol⟩ := hplain x List.mem_cons_self
  obtain ⟨hcr, hlf⟩ := ne_of_isEol heol
  obtain ⟨room, rfl⟩ : ∃ room, size = room + 2 + 1 := ⟨size - 3, by lia⟩
  have hinit : ffTextInitAvio ⟨[x], false⟩ = ⟨.utf8, ⟨[], true⟩, [x, 0, 0], 0⟩ := by
    rw [ffTextInitAvio_bytes (avioR8_cons x [] false) (avioR8_nil false) (avioR8_nil true)
      (fun h => by cases (List.cons.inj (List.cons.inj h).2).1)
      (fun h => by cases (List.cons.inj (List.cons.inj h).2).1),
      if_neg (fun h => by cases (List.cons.inj (List.cons.inj h).2).1)]
  have hcall : ffSubtitlesReadLine ⟨.utf8, ⟨[], true⟩, [x, 0, 0], 0⟩ buf (room + 2 + 1) =
      some (.error .invalidData, (buf.set 0 x).set 1 0, ⟨.utf8, ⟨[], true⟩, [x, 0, 0], 2⟩) := by
    simp [ffSubtitlesReadLine, readLineLoop, ffTextR8, ffTextEof, store, hzero, hcr, hlf, hbuf]
  rw [hinit] at hread
  cases (hread.uncons hcall).1

theorem not_readsLines_two {x : UInt8} (hplain : Plain [x]) (hsize : 2 < size)
    (hbuf : buf.length = size) : ¬ ReadsLines size (ffTextInitAvio ⟨[x, lf], false⟩) buf [[x]] := by
  intro hread
  obtain ⟨hzero, heol⟩ := hplain x List.mem_cons_self
  obtain ⟨hcr, hlf⟩ := ne_of_isEol heol
  obtain ⟨room, rfl⟩ : ∃ room, size = room + 2 + 1 := ⟨size - 3, by lia⟩
  have hinit : ffTextInitAvio ⟨[x, lf], false⟩ = ⟨.utf8, ⟨[], true⟩, [x, lf, 0], 0⟩ := by
    rw [ffTextInitAvio_bytes (avioR8_cons x [lf] false) (avioR8_cons lf [] false) (avioR8_nil false)
      (fun h => by cases (List.cons.inj (List.cons.inj h).2).1)
      (fun h => by cases (List.cons.inj (List.cons.inj h).2).1),
      if_neg (fun h => by cases (List.cons.inj (List.cons.inj h).2).1)]
  have hcall : ffSubtitlesReadLine ⟨.utf8, ⟨[], true⟩, [x, lf, 0], 0⟩ buf (room + 2 + 1) =
      some (.ok 1, (buf.set 0 x).set 1 0, ⟨.utf8, ⟨[], true⟩, [x, lf, 0], 2⟩) := by
    have hbreak : lf ≠ 0 ∧ (0 : UInt8) ≠ cr ∧ (0 : UInt8) ≠ lf := by decide
    simp [ffSubtitlesReadLine, readLineLoop, skipBreak, skipCr, ffTextPeekR8, ffTextR8, store,
      hzero, hcr, hlf, hbuf, hbreak]
  rw [hinit] at hread
  have heof := readsLines_nil.1 (hread.uncons hcall).2.2
  cases heof

theorem readsLines_two {x y : UInt8} (hplain : Plain [x, y]) (hsize : 3 < size)
    (hbuf : buf.length = size) (hle : [x, y] ≠ [0xFF, 0xFE]) (hbe : [x, y] ≠ [0xFE, 0xFF]) :
    ReadsLines size (ffTextInitAvio ⟨[x, y], false⟩) buf [[x, y]] := by
  obtain ⟨hx, heol⟩ := hplain x List.mem_cons_self
  obtain ⟨hxcr, hxlf⟩ := ne_of_isEol heol
  obtain ⟨hy, heol'⟩ := hplain y (List.mem_cons_of_mem _ List.mem_cons_self)
  obtain ⟨hycr, hylf⟩ := ne_of_isEol heol'
  obtain ⟨room, rfl⟩ : ∃ room, size = room + 3 + 1 := ⟨size - 4, by lia⟩
  have hinit : ffTextInitAvio ⟨[x, y], false⟩ = ⟨.utf8, ⟨[], true⟩, [x, y, 0], 0⟩ := by
    rw [ffTextInitAvio_bytes (avioR8_cons x [y] false) (avioR8_cons y [] false) (avioR8_nil false)
      hle hbe, if_neg (fun h => by cases (List.cons.inj (List.cons.inj (List.cons.inj h).2).2).1)]
  have hcall : ffSubtitlesReadLine ⟨.utf8, ⟨[], true⟩, [x, y, 0], 0⟩ buf (room + 3 + 1) =
      some (.ok 2, (((buf.set 0 x).set 1 0).set 1 y).set 2 0,
        ⟨.utf8, ⟨[], true⟩, [x, y, 0], 3⟩) := by
    simp [ffSubtitlesReadLine, readLineLoop, ffTextR8, ffTextEof, avioFeof, store, hx, hxcr, hxlf,
      hy, hycr, hylf, hbuf]
  rw [hinit]
  refine .cons rfl hcall ?_ (readsLines_nil.2 rfl)
  rcases buf with _ | ⟨a, _ | ⟨b, _ | ⟨c, rest⟩⟩⟩
  · cases hbuf
  · cases hbuf
  · cases hbuf
  · rfl

/-! ## From the start -/

variable {content : Bytes} {units : List Bytes}

theorem HasText.eof_init (h : HasText content units) :
    ffTextEof (ffTextInitAvio ⟨content, false⟩) = false := by
  cases h with
  | plain content hbe hle hbom =>
    have hstands := stands_plain hbe hle hbom
    have hlt : (ffTextInitAvio ⟨content, false⟩).bufPos <
        (ffTextInitAvio ⟨content, false⟩).buf.length := by
      by_contra hle
      have hpending := hstands.pending_eq
      rw [List.drop_eq_nil_of_le (Nat.le_of_not_lt hle)] at hpending
      have hlength := congrArg List.length hpending
      rw [List.length_nil, List.length_append, List.length_take, List.length_replicate] at hlength
      lia
    rw [ffTextEof, decide_eq_false (Nat.not_le.2 hlt), Bool.false_and]
  | utf8 rest => rfl
  | utf16le chars hnul => rfl
  | utf16be chars hnul => rfl

theorem HasText.front (h : HasText content units) (hlong : 3 ≤ content.length) :
    Front (ffTextInitAvio ⟨content, false⟩) (units.flatMap markUnit) := by
  cases h with
  | plain content hbe hle hbom =>
    match content, hlong with
    | x :: y :: z :: rest, _ =>
      have hstands := stands_plain hbe hle hbom
      have hopen : (ffTextInitAvio ⟨x :: y :: z :: rest, false⟩).pb.eofReached = false := by
        rw [ffTextInitAvio_bytes (avioR8_cons x _ false) (avioR8_cons y _ false)
          (avioR8_cons z rest false) (fun h => hle (h ▸ List.prefix_append [x, y] (z :: rest)))
          (fun h => hbe (h ▸ List.prefix_append [x, y] (z :: rest)))]
      refine ⟨_, _, hstands, ?_, fun _ => hopen⟩
      rw [markUnit_singles, markUnit_singles, ← List.map_append]
      congr 1
      simp
  | utf8 rest =>
    exact ⟨[], singles rest, ⟨rfl, .bytes rest, fun h => by cases h⟩, rfl, fun _ => rfl⟩
  | utf16le chars hnul =>
    exact ⟨[], _, ⟨rfl, .characters .utf16le chars (by decide) hnul, fun h => by cases h⟩, rfl,
      fun _ => rfl⟩
  | utf16be chars hnul =>
    exact ⟨[], _, ⟨rfl, .characters .utf16be chars (by decide) hnul, fun h => by cases h⟩, rfl,
      fun _ => rfl⟩

theorem HasText.ne_nil (h : HasText content units) : ∀ unit ∈ units, unit ≠ [] := by
  obtain ⟨type, rest, hcarries⟩ : ∃ type rest, Carries type rest units := by
    cases h with
    | plain => exact ⟨_, _, .bytes _⟩
    | utf8 => exact ⟨_, _, .bytes _⟩
    | utf16le chars hnul => exact ⟨_, _, .characters .utf16le chars (by decide) hnul⟩
    | utf16be chars hnul => exact ⟨_, _, .characters .utf16be chars (by decide) hnul⟩
  exact hcarries.ne_nil

theorem HasText.short (h : HasText content units) (hshort : content.length < 3)
    (htext : units.flatten ≠ []) :
    units = singles content ∧ ¬ [0xFE, 0xFF] <+: content ∧ ¬ [0xFF, 0xFE] <+: content := by
  have hchars : ∀ (type : FFUtfType) (chars : List Char), type ≠ .utf8 →
      (chars.flatMap (encodeChar type)).length < 1 → chars = [] := by
    intro type chars htype hlt
    cases chars with
    | nil => rfl
    | cons ch chars =>
      rw [List.flatMap_cons, List.length_append] at hlt
      have hpos := List.length_pos_iff.2 (encodeChar_ne_nil htype ch)
      lia
  cases h with
  | plain content hbe hle => exact ⟨rfl, hbe, hle⟩
  | utf8 rest =>
    rw [List.length_append] at hshort
    exact absurd hshort (Nat.not_lt.2 (Nat.le_add_right 3 _))
  | utf16le chars =>
    rw [List.length_append] at hshort
    rw [hchars .utf16le chars (by decide) (Nat.lt_of_add_lt_add_left (n := 2) hshort)] at htext
    exact absurd rfl htext
  | utf16be chars =>
    rw [List.length_append] at hshort
    rw [hchars .utf16be chars (by decide) (Nat.lt_of_add_lt_add_left (n := 2) hshort)] at htext
    exact absurd rfl htext

/-- When the lines of a text come out one by one: there are some, none of them is empty, an LF is
not followed by a character of several bytes of a UTF-16 stream, a text with CRLF does not end in
it, and the stream has three bytes, or two without a break. -/
structure LinesFit (content : Bytes) (units : List Bytes) (brk : Bytes) (lines : List Bytes)
    (last : Bytes) : Prop where
  some : linesOf lines last ≠ []
  filled : ∀ line ∈ lines, line ≠ []
  single : brk = [lf] → ∀ k, 0 < k → k ≤ lines.length → ¬ MultibyteAt units (lineStart [lf] lines k)
  ended : brk = [cr, lf] → lines ≠ [] → last ≠ []
  long : content.length < 3 → content.length = 2 ∧ lines = []

theorem startsSingle_iff {lines : List Bytes} (hne : ∀ unit ∈ units, unit ≠ []) :
    StartsSingle (units.flatMap markUnit) lines ↔
      ∀ k, 0 < k → k ≤ lines.length → ¬ MultibyteAt units (lineStart [lf] lines k) := by
  refine forall_congr' fun k => forall_congr' fun _ => forall_congr' fun _ => ?_
  rw [multibyteAt_iff hne, not_exists]

variable {brk : Bytes}

theorem length_break (hbrk : brk = [lf] ∨ brk = [cr, lf]) : 1 ≤ brk.length := by
  rcases hbrk with rfl | rfl <;> decide

theorem linesOf_eq_nil (hbrk : brk = [lf] ∨ brk = [cr, lf]) (h : textWith brk lines last = []) :
    lines = [] ∧ last = [] := by
  cases lines with
  | nil => exact ⟨rfl, h⟩
  | cons line lines =>
    have hlength := congrArg List.length h
    have hpos := length_break hbrk
    rw [textWith_cons, List.length_append, List.length_append, List.length_nil] at hlength
    lia

theorem exists_buffer (hsize : 1 ≤ size) : ∃ buf : Bytes, buf.length = size ∧ buf.take 1 ≠ [0] := by
  refine ⟨List.replicate size 1, List.length_replicate, ?_⟩
  rw [List.take_replicate, Nat.min_eq_left hsize]
  decide

theorem readsLines_short_iff (h : HasText content units) (hbrk : brk = [lf] ∨ brk = [cr, lf])
    (htext : units.flatten = textWith brk lines last) (hplain : ∀ line ∈ lines, Plain line)
    (hlast : Plain last) (hpos : 1 ≤ size)
    (hsize : ∀ line ∈ linesOf lines last, line.length + 1 < size) (hsome : units.flatten ≠ [])
    (hshort : content.length < 3) :
    (∀ buf, buf.length = size →
        ReadsLines size (ffTextInitAvio ⟨content, false⟩) buf (linesOf lines last)) ↔
      content.length = 2 ∧ lines = [] := by
  obtain ⟨rfl, hbe, hle⟩ := h.short hshort hsome
  rw [singles_flatten] at htext hsome
  constructor
  · intro hreads
    obtain ⟨buf, hbuf, hnul⟩ := exists_buffer hpos
    have hread := hreads buf hbuf
    have hbreak := length_break hbrk
    cases lines with
    | nil =>
      have hcontent : content = last := htext
      subst hcontent
      rw [linesOf_nil hsome] at hread hsize
      match content, hsome, hshort with
      | [x], _, _ => exact absurd hread (not_readsLines_one hlast (hsize _ List.mem_cons_self) hbuf)
      | [x, y], _, _ => exact ⟨rfl, rfl⟩
    | cons line lines =>
      have hline : line ≠ [] := hread.ne_nil hpos hbuf hnul
      have hlength := congrArg List.length htext
      have hlinePos := List.length_pos_iff.2 hline
      rw [textWith_cons, List.length_append, List.length_append] at hlength
      obtain ⟨x, rfl⟩ : ∃ x, line = [x] := List.length_eq_one_iff.1 (by lia)
      have hrest : textWith brk lines last = [] := List.length_eq_zero_iff.1 (by lia)
      obtain ⟨rfl, rfl⟩ := linesOf_eq_nil hbrk hrest
      rcases hbrk with rfl | rfl
      · subst htext
        exact absurd hread (not_readsLines_two (hplain _ List.mem_cons_self)
          (hsize _ List.mem_cons_self) hbuf)
      · exact absurd hlength (by rw [List.length_singleton]; change _ ≠ 1 + (2 + _); lia)
  · rintro ⟨hlength, rfl⟩ buf hbuf
    have hcontent : content = last := htext
    subst hcontent
    rw [linesOf_nil hsome] at hsize ⊢
    match content, hlength with
    | [x, y], _ =>
      exact readsLines_two hlast (hsize _ List.mem_cons_self) hbuf
        (fun h => hle (h ▸ List.prefix_refl _)) (fun h => hbe (h ▸ List.prefix_refl _))

/-- **When line reading returns every line**: the calls until `ff_text_eof` return the lines of the
text in order, each with a NUL behind it, if and only if the text fits; and a call never writes
outside of its buffer. -/
theorem ffSubtitlesReadLine_lines_iff {content : Bytes} {units : List Bytes}
    (h : HasText content units) {brk : Bytes} (hbrk : brk = [lf] ∨ brk = [cr, lf])
    (htext : units.flatten = textWith brk lines last) (hplain : ∀ line ∈ lines, Plain line)
    (hlast : Plain last) (hpos : 1 < size)
    (hsize : ∀ line ∈ linesOf lines last, line.length + 1 < size) :
    (∀ (tr : FFTextReader) (buf : Bytes), 1 ≤ buf.length →
      ∃ ret buf' tr', ffSubtitlesReadLine tr buf buf.length = some (ret, buf', tr') ∧
        buf'.length = buf.length) ∧
    ((∀ buf, buf.length = size →
        ReadsLines size (ffTextInitAvio ⟨content, false⟩) buf (linesOf lines last)) ↔
      LinesFit content units brk lines last) := by
  refine ⟨fun tr buf hbuf => ?_, ?_⟩
  · obtain ⟨ret, buf', tr', hcall, hlength, -⟩ := ffSubtitlesReadLine_inside tr hbuf rfl
    exact ⟨ret, buf', tr', hcall, hlength⟩
  obtain ⟨buf, hbuf, hnul⟩ := exists_buffer hpos.le
  by_cases hsome : units.flatten = []
  · obtain ⟨rfl, rfl⟩ := linesOf_eq_nil hbrk (htext.symm.trans hsome)
    refine iff_of_false (fun hreads => ?_) fun hfit => hfit.some rfl
    have heof := readsLines_nil.1 (hreads buf hbuf)
    rw [h.eof_init] at heof
    cases heof
  have hlines : linesOf lines last ≠ [] := by
    intro hnone
    obtain ⟨rfl, hrest⟩ := List.append_eq_nil_iff.1 hnone
    split_ifs at hrest with hempty
    exact hsome (htext.trans hempty)
  rcases Nat.lt_or_ge content.length 3 with hshort | hlong
  · rw [readsLines_short_iff h hbrk htext hplain hlast hpos.le hsize hsome hshort]
    refine ⟨?_, fun hfit => hfit.long hshort⟩
    rintro ⟨hlength, rfl⟩
    exact ⟨hlines, fun line hl => absurd hl List.not_mem_nil,
      fun _ k hk hk' => absurd hk (Nat.not_lt.2 hk'), fun _ hne => absurd rfl hne,
      fun _ => ⟨hlength, rfl⟩⟩
  have hfront := h.front hlong
  have hbytes : bytesOf (units.flatMap markUnit) = textWith brk lines last :=
    (bytesOf_markUnits units).trans htext
  have hends : units.flatMap markUnit = [] →
      (ffTextInitAvio ⟨content, false⟩).pb.eofReached = true := by
    intro hnil
    rw [hnil] at hbytes
    exact absurd (htext.trans hbytes.symm) hsome
  rcases hbrk with rfl | rfl
  · constructor
    · intro hreads
      obtain ⟨hfilled, hsingle⟩ := lf_of_readsLines hplain hlast hsize hpos.le hbuf hnul hfront
        hbytes (hreads buf hbuf)
      exact ⟨hlines, hfilled, fun _ => (startsSingle_iff h.ne_nil).1 hsingle,
        fun hcrlf => absurd hcrlf (by decide), fun hshort => absurd hshort (Nat.not_lt.2 hlong)⟩
    · intro hfit buf hbuf
      exact readsLines_lf hplain hlast hsize hfit.filled hbuf hfront hbytes
        ((startsSingle_iff h.ne_nil).2 (hfit.single rfl)) hends
  · constructor
    · intro hreads
      obtain ⟨hfilled, hended⟩ := crlf_of_readsLines hplain hsize hpos.le hbuf hnul hfront hbytes
        (hreads buf hbuf)
      exact ⟨hlines, hfilled, fun hlf => absurd hlf (by decide), fun _ => hended,
        fun hshort => absurd hshort (Nat.not_lt.2 hlong)⟩
    · intro hfit buf hbuf
      have hend : last ≠ [] := by
        by_cases hnone : lines = []
        · rintro rfl
          exact hlines (by rw [hnone]; rfl)
        · exact hfit.ended rfl hnone
      exact readsLines_crlf hplain hlast hsize hfit.filled hend hbuf hfront hbytes

end Runs

theorem plain_singleton {c : UInt8} (h : c ≠ 0 ∧ isEol c = false) : Plain [c] :=
  List.forall_mem_singleton.2 h

/-- `a` and `b` with a CRLF between them. -/
theorem ffSubtitlesReadLine_lines_two :
    LinesFit [0x61, cr, lf, 0x62] (singles [0x61, cr, lf, 0x62]) [cr, lf] [[0x61]] [0x62] ∧
      ∀ buf : Bytes, buf.length = 3 →
        ReadsLines 3 (ffTextInitAvio ⟨[0x61, cr, lf, 0x62], false⟩) buf [[0x61], [0x62]] := by
  have hfit : LinesFit [0x61, cr, lf, 0x62] (singles [0x61, cr, lf, 0x62]) [cr, lf] [[0x61]]
      [0x62] :=
    ⟨by decide, by decide, fun hlf => absurd hlf (by decide), fun _ _ => by decide, by decide⟩
  have htext : HasText [0x61, cr, lf, 0x62] (singles [0x61, cr, lf, 0x62]) :=
    .plain _ (by decide) (by decide) (by decide)
  have hlines := @ffSubtitlesReadLine_lines_iff 3 [[0x61]] [0x62] _ _ htext [cr, lf] (Or.inr rfl)
    (by decide) (List.forall_mem_singleton.2 (plain_singleton (by decide)))
    (plain_singleton (by decide)) (by decide) (by decide)
  exact ⟨hfit, hlines.2.2 hfit⟩

/-- An empty line between `a` and `b` is taken away with the line in front of it. -/
theorem ffSubtitlesReadLine_empty_line :
    ¬ ∀ (content : Bytes) (units : List Bytes) (brk : Bytes) (lines : List Bytes) (last : Bytes)
        (size : Nat) (buf : Bytes), HasText content units → (brk = [lf] ∨ brk = [cr, lf]) →
      units.flatten = textWith brk lines last → (∀ line ∈ lines, Plain line) → Plain last →
      1 < size → (∀ line ∈ linesOf lines last, line.length + 1 < size) → buf.length = size →
      ReadsLines size (ffTextInitAvio ⟨content, false⟩) buf (linesOf lines last) := by
  intro h
  have hread := h [0x61, lf, lf, 0x62] (singles [0x61, lf, lf, 0x62]) [lf] [[0x61], []] [0x62] 3
    [1, 1, 1] (.plain _ (by decide) (by decide) (by decide)) (Or.inl rfl) (by decide)
    (List.forall_mem_cons.2 ⟨plain_singleton (by decide), List.forall_mem_singleton.2 fun _ hc =>
      absurd hc List.not_mem_nil⟩) (plain_singleton (by decide)) (by decide) (by decide) rfl
  have hcall : ffSubtitlesReadLine (ffTextInitAvio ⟨[0x61, lf, lf, 0x62], false⟩) [1, 1, 1] 3 =
      some (.ok 1, [0x61, 0, 1], ⟨.utf8, ⟨[0x62], false⟩, [0x61, lf, lf], 3⟩) := rfl
  exact (hread.uncons hcall).2.2.ne_nil (by decide) rfl (by decide) rfl

end FFmpeg.Libavformat.Subtitles
