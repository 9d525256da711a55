import FFmpeg.Libavformat.SubtitlesReader
import FFmpeg.Libavutil.BprintTokens

/-!
# Chunks are groups of lines

`ff_subtitles_read_text_chunk` holds line breaks back until a character follows.  At the end of a
line it has printed the lines of its group so far without the last break; an empty line brings the
second break, where it stops.
-/

namespace FFmpeg.Libavformat.Subtitles

open Common Libavutil Utf8 AvioSource Bprint BprintConcat BprintCollect

/-! ## In front of a text -/

/-- What is read next is this text, and zeros from then on. -/
def InFront (tr : FFTextReader) (text : Bytes) : Prop :=
  ∃ pending units zeros, Stands tr pending units ∧
    pending ++ units.flatten = text ++ List.replicate zeros 0

variable {tr : FFTextReader} {text : Bytes} {c : UInt8} {malloc : Malloc}

variable {content : Bytes} {units : List Bytes}

theorem HasText.inFront (h : HasText content units) :
    InFront (ffTextInitAvio ⟨content, false⟩) units.flatten := by
  obtain ⟨pending, behind, zeros, hstands, htext, -⟩ := h.stands
  exact ⟨pending, behind, zeros, hstands, htext⟩

theorem Stands.r8 {r : FFTextReader} {pending : Bytes} (h : Stands r pending units) :
    ∃ r' pending' units', ffTextR8 r = ((pending ++ units.flatten).headD 0, r') ∧
      Stands r' pending' units' ∧
      pending' ++ units'.flatten = (pending ++ units.flatten).tail := by
  match pending, units, h with
  | b :: p, units, h =>
    obtain ⟨r', hread, hstands, -⟩ := h.r8_pending
    exact ⟨r', p, units, hread, hstands, rfl⟩
  | [], [], h =>
    obtain ⟨r', hread, hstands, -⟩ := h.r8_end
    exact ⟨r', [], [], hread, hstands, rfl⟩
  | [], [] :: units, h => exact absurd rfl (h.carries.ne_nil [] List.mem_cons_self)
  | [], (b :: p) :: units, h =>
    obtain ⟨r', hread, hstands, -⟩ := h.r8_unit
    exact ⟨r', p, units, hread, hstands, rfl⟩

theorem InFront.r8_cons (h : InFront tr (c :: text)) :
    ∃ tr', ffTextR8 tr = (c, tr') ∧ InFront tr' text := by
  obtain ⟨pending, units, zeros, hstands, htext⟩ := h
  obtain ⟨tr', pending', units', hread, hstands', htext'⟩ := hstands.r8
  rw [htext] at hread htext'
  exact ⟨tr', hread, pending', units', zeros, hstands', htext'⟩

theorem InFront.r8_nil (h : InFront tr []) : ∃ tr', ffTextR8 tr = (0, tr') ∧ InFront tr' [] := by
  obtain ⟨pending, units, zeros, hstands, htext⟩ := h
  obtain ⟨tr', pending', units', hread, hstands', htext'⟩ := hstands.r8
  rw [htext] at hread htext'
  refine ⟨tr', ?_, pending', units', zeros - 1, hstands', ?_⟩
  · rw [hread]
    cases zeros <;> rfl
  · rw [htext']
    cases zeros <;> rfl

/-! ## The length of what is left -/

variable {type : FFUtfType}

theorem length_utf8EncodeChar_le (htype : type ≠ .utf8) (ch : Char) :
    (String.utf8EncodeChar ch).length ≤ 2 * (encodeChar type ch).length := by
  obtain ⟨n, hn, hshort⟩ := exists_shortest ch
  have hlength : (encodeChar type ch).length = 2 * (codeUnits ch).length := by
    unfold codeUnits
    cases type with
    | utf8 => exact absurd rfl htype
    | utf16le =>
      unfold encodeChar codeUnits
      split_ifs <;> rfl
    | utf16be =>
      unfold encodeChar codeUnits
      split_ifs <;> rfl
  rw [utf8EncodeChar_eq hn hshort, length_sequence, hlength]
  unfold codeUnits
  split_ifs with hsmall
  · have hthree : n ≠ 3 := by
      rintro rfl
      exact absurd hshort.1 (Nat.not_le.2 hsmall)
    rw [List.length_singleton]
    lia
  · show n + 1 ≤ 8
    lia

theorem Carries.length_le {rest : Bytes} (h : Carries type rest units) :
    units.flatten.length ≤ 2 * rest.length := by
  cases h with
  | bytes =>
    rw [singles_flatten]
    lia
  | characters type chars htype hnul =>
    clear hnul
    induction chars with
    | nil => exact Nat.le_refl _
    | cons ch chars ih =>
      have hchar := length_utf8EncodeChar_le htype ch
      rw [List.map_cons, List.flatten_cons, List.flatMap_cons, List.length_append,
        List.length_append]
      lia

theorem InFront.length_le (h : InFront tr text) : text.length ≤ bytesLeft tr := by
  obtain ⟨pending, units, zeros, hstands, htext⟩ := h
  have hlength := congrArg List.length htext
  have hunits := hstands.carries.length_le
  have hpending := congrArg List.length hstands.pending_eq
  rw [List.length_append, List.length_append] at hlength
  rw [List.length_drop] at hpending
  unfold bytesLeft
  lia

/-! ## Lines and groups -/

/-- A line and the break behind it. -/
abbrev Line := Bytes × Bytes

/-- A line without NUL, CR and LF. -/
def Plain (content : Bytes) : Prop := ∀ c ∈ content, c ≠ 0 ∧ isEol c = false

/-- The lines of a text; the last one has no break. -/
inductive Lines : List Line → Prop
  | nil : Lines []
  | last {content : Bytes} (h : Plain content) : Lines [(content, [])]
  | cons {content brk : Bytes} {lines : List Line} (h : Plain content)
      (hbrk : brk = [lf] ∨ brk = [cr, lf]) (hlines : Lines lines) : Lines ((content, brk) :: lines)

def textOf (lines : List Line) : Bytes := lines.flatMap fun l => l.1 ++ l.2

def isEmptyLine (l : Line) : Bool := l.1.isEmpty

/-- The maximal groups of consecutive lines that are not empty. -/
def groups (lines : List Line) : List (List Line) :=
  (lines.splitOnP isEmptyLine).filter fun group => !group.isEmpty

/-- The lines of a group with the breaks between them. -/
def joined : List Line → Bytes
  | [] => []
  | [l] => l.1
  | l :: ls => l.1 ++ l.2 ++ joined ls

def firstGroup (lines : List Line) : List Line :=
  (lines.dropWhile isEmptyLine).takeWhile fun l => !isEmptyLine l

/-- The lines behind the empty line that ends the first group. -/
def behindGroup (lines : List Line) : List Line :=
  ((lines.dropWhile isEmptyLine).dropWhile fun l => !isEmptyLine l).tail

theorem groups_eq (lines : List Line) :
    groups lines =
      if firstGroup lines = [] then [] else firstGroup lines :: groups (behindGroup lines) := by
  induction lines with
  | nil => simp [groups, firstGroup]
  | cons line lines ih =>
    cases hempty : isEmptyLine line with
    | true =>
      have hgroups : groups (line :: lines) = groups lines := by
        simp [groups, List.splitOnP_cons_eq_if_modifyHead, hempty]
      have hfirst : firstGroup (line :: lines) = firstGroup lines := by
        simp [firstGroup, hempty]
      have hbehind : behindGroup (line :: lines) = behindGroup lines := by
        simp [behindGroup, hempty]
      rw [hgroups, hfirst, hbehind, ih]
    | false =>
      have hstart : (line :: lines).dropWhile isEmptyLine = line :: lines := by
        simp [hempty]
      obtain ⟨run, hrun⟩ : ∃ run, run = (line :: lines).takeWhile fun l => !isEmptyLine l :=
        ⟨_, rfl⟩
      have hsplit := List.takeWhile_append_dropWhile (p := fun l => !isEmptyLine l)
        (l := line :: lines)
      have hnone : ∀ l ∈ run, isEmptyLine l = false := by
        intro l hl
        rw [hrun] at hl
        simpa using List.mem_takeWhile_imp hl
      have hne : run ≠ [] := by
        rw [hrun, List.takeWhile_cons]
        simp [hempty]
      rw [firstGroup, behindGroup, hstart, ← hrun, if_neg hne]
      rw [← hrun] at hsplit
      cases hrest : (line :: lines).dropWhile fun l => !isEmptyLine l with
      | nil =>
        rw [hrest, List.append_nil] at hsplit
        rw [← hsplit, groups, List.splitOnP_eq_singleton hnone]
        simp [groups, hne]
      | cons sep rest =>
        have hsep : isEmptyLine sep = true := by
          have hhead := List.head_dropWhile_not (fun l => !isEmptyLine l) (l := line :: lines)
            (by rw [hrest]; exact List.cons_ne_nil _ _)
          simpa [hrest] using hhead
        rw [hrest] at hsplit
        rw [← hsplit, groups, List.splitOnP_append_cons_of_forall_mem hnone sep hsep]
        simp [groups, hne]

variable {lines : List Line}

theorem behindGroup_eq_nil (h : firstGroup lines = []) : behindGroup lines = [] := by
  have hsplit := List.takeWhile_append_dropWhile (p := fun l => !isEmptyLine l)
    (l := lines.dropWhile isEmptyLine)
  rw [show (lines.dropWhile isEmptyLine).takeWhile (fun l => !isEmptyLine l) = [] from h,
    List.nil_append] at hsplit
  cases hrest : lines.dropWhile isEmptyLine with
  | nil => rw [behindGroup, hrest]; rfl
  | cons l rest =>
    have hhead := List.head_dropWhile_not isEmptyLine (l := lines)
      (by rw [hrest]; exact List.cons_ne_nil _ _)
    simp [firstGroup, hrest] at h hhead
    rw [h] at hhead
    cases hhead

theorem firstGroup_iterate_nil (k : Nat) : firstGroup (behindGroup^[k] []) = [] := by
  rw [Function.iterate_fixed (show behindGroup [] = [] from rfl)]
  rfl

theorem getD_groups (lines : List Line) (k : Nat) :
    (groups lines).getD k [] = firstGroup (behindGroup^[k] lines) := by
  induction k generalizing lines with
  | zero =>
    rw [groups_eq, Function.iterate_zero, id]
    split_ifs with hnone
    · rw [hnone]; rfl
    · rfl
  | succ k ih =>
    rw [groups_eq, Function.iterate_succ_apply]
    split_ifs with hnone
    · rw [behindGroup_eq_nil hnone, firstGroup_iterate_nil]
      rfl
    · rw [List.getD_cons_succ, ih]

theorem Lines.tail {l : Line} (h : Lines (l :: lines)) : Lines lines := by
  cases h with
  | last => exact .nil
  | cons _ _ hlines => exact hlines

theorem Lines.dropWhile (h : Lines lines) (p : Line → Bool) : Lines (lines.dropWhile p) := by
  induction lines with
  | nil => exact h
  | cons l lines ih =>
    rw [List.dropWhile_cons]
    split_ifs
    · exact ih h.tail
    · exact h

theorem Lines.behindGroup (h : Lines lines) : Lines (Subtitles.behindGroup lines) := by
  unfold Subtitles.behindGroup
  cases hrest : (lines.dropWhile isEmptyLine).dropWhile fun l => !isEmptyLine l with
  | nil => exact .nil
  | cons l rest =>
    have hlines := (h.dropWhile isEmptyLine).dropWhile fun l => !isEmptyLine l
    rw [hrest] at hlines
    exact hlines.tail

/-- A text where LF follows every CR has lines. -/
theorem exists_lines (text : Bytes) (hnul : 0 ∉ text)
    (hcr : ∀ i : Nat, text[i]? = some cr → text[i + 1]? = some lf) :
    ∃ lines, Lines lines ∧ textOf lines = text := by
  induction hn : text.length using Nat.strong_induction_on generalizing text with
  | _ n ih =>
    cases text with
    | nil => exact ⟨[], .nil, rfl⟩
    | cons c text =>
      have hrest : ∀ i : Nat, text[i]? = some cr → text[i + 1]? = some lf := fun i => hcr (i + 1)
      have hnul' : 0 ∉ text := fun h => hnul (List.mem_cons_of_mem _ h)
      rw [List.length_cons] at hn
      by_cases hlf : c = lf
      · obtain ⟨lines, hlines, htext⟩ := ih text.length (by lia) text hnul' hrest rfl
        refine ⟨([], [lf]) :: lines, .cons (by simp [Plain]) (Or.inl rfl) hlines, ?_⟩
        rw [hlf, ← htext]
        rfl
      by_cases hcrc : c = cr
      · have hnext := hcr 0 (by rw [hcrc]; rfl)
        cases text with
        | nil => cases hnext
        | cons d text =>
          obtain rfl : d = lf := Option.some.inj hnext
          rw [List.length_cons] at hn
          obtain ⟨lines, hlines, htext⟩ := ih text.length (by lia) text
            (fun h => hnul' (List.mem_cons_of_mem _ h)) (fun i => hrest (i + 1)) rfl
          refine ⟨([], [cr, lf]) :: lines, .cons (by simp [Plain]) (Or.inr rfl) hlines, ?_⟩
          rw [hcrc, ← htext]
          rfl
      · have hplain : c ≠ 0 ∧ isEol c = false :=
          ⟨fun h => hnul (h ▸ List.mem_cons_self), by simp [isEol, hlf, hcrc]⟩
        obtain ⟨lines, hlines, htext⟩ := ih text.length (by lia) text hnul' hrest rfl
        cases hlines with
        | nil =>
          refine ⟨[([c], [])], .last (by simpa [Plain] using hplain), ?_⟩
          rw [← htext]
          rfl
        | @last content h =>
          refine ⟨[(c :: content, [])], .last ?_, ?_⟩
          · exact List.forall_mem_cons.2 ⟨hplain, h⟩
          · rw [← htext]
            rfl
        | @cons content brk lines h hbrk hlines =>
          refine ⟨(c :: content, brk) :: lines, .cons ?_ hbrk hlines, ?_⟩
          · exact List.forall_mem_cons.2 ⟨hplain, h⟩
          · rw [← htext]
            rfl

/-! ## The loop over one line -/

variable {s : ChunkState} {out : Bytes} (malloc)

variable {brk : Bytes}

theorem loop_skip (fuel : Nat) (hn : s.n = 0) (hbrk : brk = [lf] ∨ brk = [cr, lf])
    (h : InFront tr (brk ++ text)) :
    ∃ tr', readTextChunkLoop malloc (fuel + brk.length) s tr =
        readTextChunkLoop malloc fuel s tr' ∧ InFront tr' text := by
  have hone : ∀ {tr c text} (fuel : Nat), c ≠ 0 → isEol c = true → InFront tr (c :: text) →
      ∃ tr', readTextChunkLoop malloc (fuel + 1) s tr = readTextChunkLoop malloc fuel s tr' ∧
        InFront tr' text := by
    intro tr c text fuel hc heol h
    obtain ⟨tr', hread, hfront⟩ := h.r8_cons
    refine ⟨tr', ?_, hfront⟩
    rw [readTextChunkLoop, hread]
    dsimp only
    rw [if_neg hc, if_pos ⟨hn, heol⟩]
  rcases hbrk with rfl | rfl
  · exact hone fuel (by decide) (by decide) h
  · obtain ⟨tr₁, hrun₁, h₁⟩ := hone (fuel + 1) (by decide) (by decide) h
    obtain ⟨tr₂, hrun₂, h₂⟩ := hone fuel (by decide) (by decide) h₁
    exact ⟨tr₂, hrun₁.trans hrun₂, h₂⟩

/-- A character is printed behind the breaks that were held back. -/
theorem loop_character (fuel : Nat) (hplain : c ≠ 0 ∧ isEol c = false)
    (h : InFront tr (c :: text)) (hbuf : Collects s.buf out)
    (hbreaks : s.eolBuf = [] → s.nbEol = 0) :
    ∃ buf' tr', readTextChunkLoop malloc (fuel + 1) s tr =
        readTextChunkLoop malloc fuel ⟨buf', [], s.lastWasCr, s.n + 1, 0⟩ tr' ∧
      Collects buf' (out ++ s.eolBuf ++ [c]) ∧ InFront tr' text := by
  obtain ⟨buf, eolBuf, lastWasCr, n, nbEol⟩ := s
  obtain ⟨tr', hread, hfront⟩ := h.r8_cons
  dsimp only at hbuf hbreaks ⊢
  have heol : ¬ isEol c = true := by rw [hplain.2]; exact Bool.false_ne_true
  by_cases hnil : eolBuf = []
  · obtain ⟨buf', hchars, hbuf'⟩ := hbuf.chars malloc c
    refine ⟨buf', tr', ?_, by rwa [hnil, List.append_nil], hfront⟩
    rw [readTextChunkLoop, hread]
    dsimp only
    rw [if_neg hplain.1, if_neg (fun h => heol h.2), if_neg heol, if_pos hnil, hbreaks hnil, hnil]
    dsimp only [Option.bind_eq_bind, Option.bind_some]
    rw [hchars]
    rfl
  · obtain ⟨buf₁, hprint, hbuf₁⟩ := hbuf.bprintf malloc hnil
    obtain ⟨buf', hchars, hbuf'⟩ := hbuf₁.chars malloc c
    refine ⟨buf', tr', ?_, hbuf', hfront⟩
    rw [readTextChunkLoop, hread]
    dsimp only
    rw [if_neg hplain.1, if_neg (fun h => heol h.2), if_neg heol, if_neg hnil, hprint]
    dsimp only [Option.bind_eq_bind, Option.map_some, Option.bind_some]
    rw [hchars]
    rfl

theorem loop_content (fuel : Nat) (hplain : Plain content) (hne : content ≠ [])
    (h : InFront tr (content ++ text)) (hbuf : Collects s.buf out)
    (hbreaks : s.eolBuf = [] → s.nbEol = 0) :
    ∃ buf' tr', readTextChunkLoop malloc (fuel + content.length) s tr =
        readTextChunkLoop malloc fuel ⟨buf', [], s.lastWasCr, s.n + content.length, 0⟩ tr' ∧
      Collects buf' (out ++ s.eolBuf ++ content) ∧ InFront tr' text := by
  induction content generalizing s tr out with
  | nil => exact absurd rfl hne
  | cons c content ih =>
    obtain ⟨buf₁, tr₁, hrun₁, hbuf₁, h₁⟩ := loop_character malloc (fuel + content.length)
      (hplain c List.mem_cons_self) h hbuf hbreaks
    cases content with
    | nil => exact ⟨buf₁, tr₁, hrun₁, hbuf₁, h₁⟩
    | cons d content =>
      obtain ⟨buf', tr', hrun, hbuf', h'⟩ := ih (s := ⟨buf₁, [], s.lastWasCr, s.n + 1, 0⟩)
        (fun c hc => hplain c (List.mem_cons_of_mem _ hc)) (List.cons_ne_nil _ _) h₁ hbuf₁
        (fun _ => rfl)
      refine ⟨buf', tr', hrun₁.trans (hrun.trans ?_), ?_, h'⟩
      · dsimp only
        rw [Nat.add_assoc, Nat.add_comm 1]
        rfl
      · simpa using hbuf'

theorem loop_break (fuel : Nat) (hn : s.n ≠ 0) (heol : s.eolBuf = []) (hcr : s.lastWasCr = false)
    (hnb : s.nbEol = 0) (hbrk : brk = [lf] ∨ brk = [cr, lf]) (h : InFront tr (brk ++ text)) :
    ∃ tr', readTextChunkLoop malloc (fuel + brk.length) s tr =
        readTextChunkLoop malloc fuel ⟨s.buf, brk, false, s.n, 1⟩ tr' ∧ InFront tr' text := by
  obtain ⟨buf, eolBuf, lastWasCr, n, nbEol⟩ := s
  dsimp only at hn heol hcr hnb ⊢
  subst heol hcr hnb
  rcases hbrk with rfl | rfl
  · obtain ⟨tr', hread, hfront⟩ := h.r8_cons
    refine ⟨tr', ?_, hfront⟩
    rw [List.length_singleton, readTextChunkLoop, hread]
    dsimp only
    rw [if_neg (by decide), if_neg (fun h => hn h.1)]
    rfl
  · obtain ⟨tr₁, hread₁, h₁⟩ := h.r8_cons
    obtain ⟨tr₂, hread₂, h₂⟩ := h₁.r8_cons
    refine ⟨tr₂, ?_, h₂⟩
    rw [show fuel + [cr, lf].length = fuel + 1 + 1 from rfl, readTextChunkLoop, hread₁]
    dsimp only
    rw [if_neg (by decide), if_neg (fun h => hn h.1)]
    show readTextChunkLoop malloc (fuel + 1) ⟨buf, [cr], true, n, 0⟩ tr₁ = _
    rw [readTextChunkLoop, hread₂]
    dsimp only
    rw [if_neg (by decide), if_neg (fun h => hn h.1)]
    rfl

/-- The second break ends the chunk. -/
theorem loop_second_break (fuel : Nat) (hn : s.n ≠ 0) (heol : s.eolBuf.length ≤ 2)
    (hcr : s.lastWasCr = false) (hnb : s.nbEol = 1) (hbrk : brk = [lf] ∨ brk = [cr, lf])
    (h : InFront tr (brk ++ text)) :
    ∃ tr', readTextChunkLoop malloc (fuel + brk.length) s tr = some (s.buf, tr') ∧
      InFront tr' text := by
  obtain ⟨buf, eolBuf, lastWasCr, n, nbEol⟩ := s
  dsimp only at hn heol hcr hnb ⊢
  subst hcr hnb
  rcases hbrk with rfl | rfl
  · obtain ⟨tr', hread, hfront⟩ := h.r8_cons
    refine ⟨tr', ?_, hfront⟩
    rw [List.length_singleton, readTextChunkLoop, hread]
    dsimp only
    rw [if_neg (by decide), if_neg (fun h => hn h.1)]
    rfl
  · obtain ⟨tr₁, hread₁, h₁⟩ := h.r8_cons
    obtain ⟨tr₂, hread₂, h₂⟩ := h₁.r8_cons
    refine ⟨tr₂, ?_, h₂⟩
    have hroom : (eolBuf ++ [cr]).length ≠ 4 := by
      rw [List.length_append, List.length_singleton]
      lia
    have hstep : readTextChunkLoop malloc (fuel + 1 + 1) ⟨buf, eolBuf, false, n, 1⟩ tr =
        readTextChunkLoop malloc (fuel + 1) ⟨buf, eolBuf ++ [cr], true, n, 1⟩ tr₁ := by
      rw [readTextChunkLoop, hread₁]
      dsimp only
      rw [if_neg (by decide), if_neg (fun h => hn h.1), if_pos (by decide),
        if_neg (by simp [cr, lf]), if_neg hroom]
      rfl
    refine hstep.trans ?_
    rw [readTextChunkLoop, hread₂]
    dsimp only
    rw [if_neg (by decide), if_neg (fun h => hn h.1)]
    rfl

theorem loop_end (fuel : Nat) (h : InFront tr []) :
    ∃ tr', readTextChunkLoop malloc (fuel + 1) s tr = some (s.buf, tr') ∧ InFront tr' [] := by
  obtain ⟨tr', hread, hfront⟩ := h.r8_nil
  refine ⟨tr', ?_, hfront⟩
  rw [readTextChunkLoop, hread]
  rfl

/-! ## The loop over a group -/

/-- Lines of a group behind the break of the line before them. -/
def behindBreak (brk : Bytes) (group : List Line) : Bytes :=
  if group = [] then [] else brk ++ joined group

theorem joined_cons (content brk : Bytes) (group : List Line) :
    joined ((content, brk) :: group) = content ++ behindBreak brk group := by
  cases group with
  | nil => simp [joined, behindBreak]
  | cons l group => simp [joined, behindBreak]

theorem length_break_le (h : brk = [lf] ∨ brk = [cr, lf]) : brk.length ≤ 2 := by
  rcases h with rfl | rfl <;> decide

theorem break_ne_nil (h : brk = [lf] ∨ brk = [cr, lf]) : brk ≠ [] := by
  rcases h with rfl | rfl <;> decide

/-- Behind a line of a group: the lines up to the next empty one, or to the end. -/
theorem loop_group (hlines : Lines lines) {fuel : Nat} (hfuel : (textOf lines).length < fuel)
    (hn : s.n ≠ 0) (hbrk : s.eolBuf = [lf] ∨ s.eolBuf = [cr, lf]) (hcr : s.lastWasCr = false)
    (hnb : s.nbEol = 1) (h : InFront tr (textOf lines)) (hbuf : Collects s.buf out) :
    ∃ buf' tr', readTextChunkLoop malloc fuel s tr = some (buf', tr') ∧
      Collects buf' (out ++ behindBreak s.eolBuf (lines.takeWhile fun l => !isEmptyLine l)) ∧
      InFront tr' (textOf (lines.dropWhile fun l => !isEmptyLine l).tail) := by
  induction hlines generalizing s tr out fuel with
  | nil =>
    obtain ⟨f, rfl⟩ : ∃ f, fuel = f + 1 := ⟨fuel - 1, by lia⟩
    obtain ⟨tr', hrun, h'⟩ := loop_end malloc (s := s) f h
    exact ⟨s.buf, tr', hrun, by simpa [behindBreak] using hbuf, h'⟩
  | @last content hplain =>
    have htext : textOf [(content, [])] = content := by simp [textOf]
    rw [htext] at hfuel h
    by_cases hne : content = []
    · subst hne
      obtain ⟨f, rfl⟩ : ∃ f, fuel = f + 1 := ⟨fuel - 1, by lia⟩
      obtain ⟨tr', hrun, h'⟩ := loop_end malloc (s := s) f h
      exact ⟨s.buf, tr', hrun, by simpa [behindBreak, isEmptyLine] using hbuf,
        by simpa [isEmptyLine, textOf] using h'⟩
    · obtain ⟨f, rfl⟩ : ∃ f, fuel = f + 1 + content.length :=
        ⟨fuel - 1 - content.length, by lia⟩
      obtain ⟨buf₁, tr₁, hrun₁, hbuf₁, h₁⟩ := loop_content malloc (f + 1) hplain hne
        (by rwa [List.append_nil]) hbuf (fun hnil => absurd hnil (break_ne_nil hbrk))
      obtain ⟨tr', hrun, h'⟩ := loop_end malloc f h₁
      have hline : isEmptyLine (content, []) = false := by simpa [isEmptyLine] using hne
      refine ⟨buf₁, tr', hrun₁.trans hrun, ?_, ?_⟩
      · simpa [hline, behindBreak, joined] using hbuf₁
      · simpa [hline, textOf] using h'
  | @cons content brk lines hplain hbrk' hlines ih =>
    have htext : textOf ((content, brk) :: lines) = content ++ (brk ++ textOf lines) := by
      simp [textOf]
    rw [htext] at hfuel h
    rw [List.length_append, List.length_append] at hfuel
    by_cases hne : content = []
    · -- the empty line
      subst hne
      obtain ⟨f, rfl⟩ : ∃ f, fuel = f + brk.length := ⟨fuel - brk.length, by lia⟩
      obtain ⟨tr', hrun, h'⟩ := loop_second_break malloc f hn
        (length_break_le hbrk) hcr hnb hbrk' h
      exact ⟨s.buf, tr', hrun, by simpa [behindBreak, isEmptyLine] using hbuf,
        by simpa [isEmptyLine] using h'⟩
    · obtain ⟨f, rfl⟩ : ∃ f, fuel = f + brk.length + content.length :=
        ⟨fuel - content.length - brk.length, by lia⟩
      obtain ⟨buf₁, tr₁, hrun₁, hbuf₁, h₁⟩ := loop_content malloc (f + brk.length)
        hplain hne h hbuf (fun hnil => absurd hnil (break_ne_nil hbrk))
      obtain ⟨tr₂, hrun₂, h₂⟩ := loop_break malloc f
        (s := ⟨buf₁, [], s.lastWasCr, s.n + content.length, 0⟩) (by dsimp only; lia) rfl hcr rfl
        hbrk' h₁
      have hleft : (textOf lines).length < f := by lia
      obtain ⟨buf', tr', hrun, hbuf', h'⟩ := ih
        (s := ⟨buf₁, brk, false, s.n + content.length, 1⟩) hleft (by dsimp only; lia) hbrk' rfl
        rfl h₂ hbuf₁
      have hline : isEmptyLine (content, brk) = false := by simpa [isEmptyLine] using hne
      refine ⟨buf', tr', hrun₁.trans (hrun₂.trans hrun), ?_, ?_⟩
      · rw [List.takeWhile_cons, hline]
        show Collects buf' (out ++ behindBreak s.eolBuf
          ((content, brk) :: lines.takeWhile fun l => !isEmptyLine l))
        rw [behindBreak, if_neg (List.cons_ne_nil _ _), joined_cons, ← List.append_assoc,
          ← List.append_assoc]
        exact hbuf'
      · simpa [hline] using h'

/-- The first group, behind the empty lines in front of it. -/
theorem loop_lines (hlines : Lines lines) {fuel : Nat} (hfuel : (textOf lines).length < fuel)
    (hs : s = ⟨s.buf, [], false, 0, 0⟩) (h : InFront tr (textOf lines)) (hbuf : Collects s.buf []) :
    ∃ buf' tr', readTextChunkLoop malloc fuel s tr = some (buf', tr') ∧
      Collects buf' (joined (firstGroup lines)) ∧ InFront tr' (textOf (behindGroup lines)) := by
  have hn : s.n = 0 := by rw [hs]
  have hbreaks : s.eolBuf = [] → s.nbEol = 0 := fun _ => by rw [hs]
  induction hlines generalizing tr fuel with
  | nil =>
    obtain ⟨f, rfl⟩ : ∃ f, fuel = f + 1 := ⟨fuel - 1, by lia⟩
    obtain ⟨tr', hrun, h'⟩ := loop_end malloc (s := s) f h
    exact ⟨s.buf, tr', hrun, hbuf, h'⟩
  | @last content hplain =>
    have htext : textOf [(content, [])] = content := by simp [textOf]
    rw [htext] at hfuel h
    by_cases hne : content = []
    · subst hne
      obtain ⟨f, rfl⟩ : ∃ f, fuel = f + 1 := ⟨fuel - 1, by lia⟩
      obtain ⟨tr', hrun, h'⟩ := loop_end malloc (s := s) f h
      exact ⟨s.buf, tr', hrun, hbuf, h'⟩
    · obtain ⟨f, rfl⟩ : ∃ f, fuel = f + 1 + content.length :=
        ⟨fuel - 1 - content.length, by lia⟩
      obtain ⟨buf₁, tr₁, hrun₁, hbuf₁, h₁⟩ := loop_content malloc (f + 1) hplain hne
        (by rwa [List.append_nil]) hbuf hbreaks
      obtain ⟨tr', hrun, h'⟩ := loop_end malloc f h₁
      have hline : isEmptyLine (content, []) = false := by simpa [isEmptyLine] using hne
      have heol : s.eolBuf = [] := by rw [hs]
      rw [heol] at hbuf₁
      refine ⟨buf₁, tr', hrun₁.trans hrun, ?_, ?_⟩
      · simpa [hline, firstGroup, joined] using hbuf₁
      · simpa [hline, behindGroup, textOf] using h'
  | @cons content brk lines hplain hbrk hlines ih =>
    have htext : textOf ((content, brk) :: lines) = content ++ (brk ++ textOf lines) := by
      simp [textOf]
    rw [htext] at hfuel h
    rw [List.length_append, List.length_append] at hfuel
    by_cases hne : content = []
    · subst hne
      obtain ⟨f, rfl⟩ : ∃ f, fuel = f + brk.length := ⟨fuel - brk.length, by lia⟩
      obtain ⟨tr₁, hrun₁, h₁⟩ := loop_skip malloc f hn hbrk h
      have hleft : (textOf lines).length < f := by lia
      obtain ⟨buf', tr', hrun, hbuf', h'⟩ := ih hleft h₁
      exact ⟨buf', tr', hrun₁.trans hrun, hbuf', h'⟩
    · obtain ⟨f, rfl⟩ : ∃ f, fuel = f + brk.length + content.length :=
        ⟨fuel - content.length - brk.length, by lia⟩
      have hpos := List.length_pos_iff.2 hne
      have heol : s.eolBuf = [] := by rw [hs]
      obtain ⟨buf₁, tr₁, hrun₁, hbuf₁, h₁⟩ := loop_content malloc (f + brk.length) hplain hne h
        hbuf hbreaks
      obtain ⟨tr₂, hrun₂, h₂⟩ := loop_break malloc f
        (s := ⟨buf₁, [], s.lastWasCr, s.n + content.length, 0⟩) (by dsimp only; lia) rfl
        (by rw [hs]) rfl hbrk h₁
      have hleft : (textOf lines).length < f := by lia
      obtain ⟨buf', tr', hrun, hbuf', h'⟩ := loop_group malloc hlines
        (s := ⟨buf₁, brk, false, s.n + content.length, 1⟩) hleft (by dsimp only; lia) hbrk rfl rfl
        h₂ hbuf₁
      have hline : isEmptyLine (content, brk) = false := by simpa [isEmptyLine] using hne
      refine ⟨buf', tr', hrun₁.trans (hrun₂.trans hrun), ?_, ?_⟩
      · have hfirst : firstGroup ((content, brk) :: lines) =
            (content, brk) :: lines.takeWhile fun l => !isEmptyLine l := by
          simp [firstGroup, hline]
        rw [hfirst, joined_cons]
        simpa [heol] using hbuf'
      · simpa [behindGroup, hline] using h'

variable {buf : AVBPrint}

/-- **A chunk is the first group of lines**, and the reader goes behind the break that ends it. -/
theorem ffSubtitlesReadTextChunk_lines (hlines : Lines lines) (h : InFront tr (textOf lines))
    {old : Bytes} (hbuf : Collects buf old) :
    ∃ buf' tr', ffSubtitlesReadTextChunk malloc tr buf = some (buf', tr') ∧
      Collects buf' (joined (firstGroup lines)) ∧ InFront tr' (textOf (behindGroup lines)) :=
  loop_lines malloc hlines (Nat.lt_succ_of_le h.length_le) rfl h hbuf.clear

/-! ## Successive calls -/

/-- So many calls of `ff_subtitles_read_text_chunk` with one buffer. -/
def chunkCalls (malloc : Malloc) : Nat → FFTextReader → AVBPrint → Option (AVBPrint × FFTextReader)
  | 0, tr, buf => some (buf, tr)
  | k + 1, tr, buf => do
    let s ← chunkCalls malloc k tr buf
    ffSubtitlesReadTextChunk malloc s.2 s.1

theorem chunkCalls_lines (hlines : Lines lines) (h : InFront tr (textOf lines)) {old : Bytes}
    (hbuf : Collects buf old) (k : Nat) :
    ∃ buf' tr', chunkCalls malloc (k + 1) tr buf = some (buf', tr') ∧
      Collects buf' (joined ((groups lines).getD k [])) ∧
      InFront tr' (textOf (behindGroup^[k + 1] lines)) ∧ Lines (behindGroup^[k + 1] lines) := by
  induction k with
  | zero =>
    obtain ⟨buf', tr', hrun, hbuf', h'⟩ := ffSubtitlesReadTextChunk_lines malloc hlines h hbuf
    exact ⟨buf', tr', hrun, by rwa [getD_groups], h', hlines.behindGroup⟩
  | succ k ih =>
    obtain ⟨buf₁, tr₁, hrun₁, hbuf₁, h₁, hlines₁⟩ := ih
    obtain ⟨buf', tr', hrun, hbuf', h'⟩ := ffSubtitlesReadTextChunk_lines malloc hlines₁ h₁ hbuf₁
    rw [getD_groups, Function.iterate_succ_apply' behindGroup (k + 1)]
    refine ⟨buf', tr', ?_, hbuf', h', hlines₁.behindGroup⟩
    rw [chunkCalls, hrun₁]
    exact hrun

/-- The groups of these lines, as a list. -/
example : (groups [([], [lf]), ([0x61], [cr, lf]), ([0x62], [lf]), ([], [lf]), ([0x63], [])]).map
    joined = [[0x61, cr, lf, 0x62], [0x63]] := by decide

end FFmpeg.Libavformat.Subtitles
