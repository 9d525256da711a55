import FFmpeg.Libavutil.AvString
import FFmpeg.Libavutil.BprintConcat

/-!
# Tokens survive escaping

`av_bprint_escape` in the backslash mode prints `escapeText`, and `av_get_token`
reads the string back from it and stops at the terminator behind it.
-/

namespace FFmpeg.Libavutil.BprintEscape

open Common AvString Bprint BprintConcat

variable {buf : AVBPrint} {text : Bytes} {special term rest : Bytes}

/-- What the loop of the backslash mode prints. -/
def escapeText (special : Bytes) : Bool → Bytes → Bytes
  | _, [] => []
  | first, c :: src =>
    (if needsBackslash special {} (first || src.isEmpty) c then [backslash, c] else [c]) ++
      escapeText special false src

section Print

theorem Prints.chars (h : Prints buf text) (malloc : Malloc) (c : UInt8) :
    ∃ buf', avBprintChars malloc buf c 1 = some buf' ∧ Prints buf' (text ++ [c]) := by
  rw [avBprintChars_eq]
  exact Prints.append h malloc [c]

theorem Prints.escapeBackslash (malloc : Malloc) (src : Bytes) (first : Bool)
    (h : Prints buf text) :
    ∃ buf', escapeBackslash malloc special {} first buf src = some buf' ∧
      Prints buf' (text ++ escapeText special first src) := by
  induction src generalizing first buf text with
  | nil => exact ⟨buf, rfl, by simpa [escapeText] using h⟩
  | cons c src ih =>
    unfold Bprint.escapeBackslash escapeText
    cases hneeds : needsBackslash special {} (first || src.isEmpty) c with
    | true =>
      obtain ⟨buf₁, hrun₁, h₁⟩ := Prints.chars h malloc backslash
      obtain ⟨buf₂, hrun₂, h₂⟩ := Prints.chars h₁ malloc c
      obtain ⟨buf₃, hrun₃, h₃⟩ := ih false h₂
      exact ⟨buf₃, by simp [hrun₁, hrun₂, hrun₃], by simpa using h₃⟩
    | false =>
      obtain ⟨buf₂, hrun₂, h₂⟩ := Prints.chars h malloc c
      obtain ⟨buf₃, hrun₃, h₃⟩ := ih false h₂
      exact ⟨buf₃, by simp [hrun₂, hrun₃], by simpa using h₃⟩

theorem Prints.escape (h : Prints buf text) (malloc : Malloc) (special src : Bytes) :
    ∃ buf', avBprintEscape malloc buf src special .backslash {} = some buf' ∧
      Prints buf' (text ++ escapeText special true src) :=
  Prints.escapeBackslash malloc src true h

end Print

section Token

/-- A character that gets no backslash is no terminator, quote or backslash, and
no whitespace at either end. -/
theorem plain_of_needsBackslash_eq_false (hterm : ∀ c ∈ term, c ∈ special) {isFirstLast : Bool}
    {c : UInt8} (h : needsBackslash special {} isFirstLast c = false) :
    c ∉ term ∧ c ≠ backslash ∧ c ≠ quote ∧ (isFirstLast = true → isWhitespace c = false) := by
  simp only [needsBackslash, Bool.not_false, Bool.true_and, Bool.and_false, Bool.or_false,
    Bool.or_eq_false_iff, decide_eq_false_iff_not] at h
  obtain ⟨hspecial, ⟨⟨-, hquote⟩, hbackslash⟩, hends⟩ := h
  refine ⟨fun hc => hspecial (hterm c hc), hbackslash, hquote, ?_⟩
  intro hfirst
  simpa [hfirst] using hends

/-- The token in `out` ends where nothing is stripped: behind an escaped byte or a
byte that is no whitespace. -/
def EndsSafely (out : Bytes) (fin : Nat) : Prop :=
  fin = out.length ∨ ∃ c, out.getLast? = some c ∧ isWhitespace c = false

theorem avGetTokenLoop_stop (hrest : ∀ c, rest.head? = some c → c ∈ term) (out : Bytes)
    (fin : Nat) : avGetTokenLoop term false rest out fin = (out, fin, rest) := by
  cases rest with
  | nil => rfl
  | cons c rest =>
    unfold avGetTokenLoop
    exact if_pos (hrest c rfl)

theorem avGetTokenLoop_escaped (hback : backslash ∉ term) (c : UInt8) (p out : Bytes) (fin : Nat) :
    avGetTokenLoop term false (backslash :: c :: p) out fin =
      avGetTokenLoop term false p (out ++ [c]) (out.length + 1) := by
  conv_lhs => unfold avGetTokenLoop
  simp [hback]

theorem avGetTokenLoop_plain {c : UInt8} (hterm : c ∉ term) (hback : c ≠ backslash)
    (hquote : c ≠ quote) (p out : Bytes) (fin : Nat) :
    avGetTokenLoop term false (c :: p) out fin = avGetTokenLoop term false p (out ++ [c]) fin := by
  conv_lhs => unfold avGetTokenLoop
  simp [hterm, hback, hquote]

/-- The loop reads the string back and stops at what follows.  The induction is on
the string; every character is read either as an escaped or as a plain one, and
only the last one decides whether anything is stripped. -/
theorem avGetTokenLoop_escapeText (hterm : ∀ c ∈ term, c ∈ special) (hback : backslash ∉ term)
    (hrest : ∀ c, rest.head? = some c → c ∈ term) (s : Bytes) (first : Bool) {out : Bytes}
    {fin : Nat} (hfin : fin ≤ out.length) (hsafe : s = [] → EndsSafely out fin) :
    ∃ fin', avGetTokenLoop term false (escapeText special first s ++ rest) out fin =
        (out ++ s, fin', rest) ∧
      fin' ≤ (out ++ s).length ∧ EndsSafely (out ++ s) fin' := by
  induction s generalizing first out fin with
  | nil =>
    refine ⟨fin, ?_, by simpa using hfin, by simpa using hsafe rfl⟩
    rw [escapeText, List.nil_append, List.append_nil]
    exact avGetTokenLoop_stop hrest out fin
  | cons c s ih =>
    have hsnoc : out ++ c :: s = (out ++ [c]) ++ s := by simp
    rw [escapeText, hsnoc]
    cases hneeds : needsBackslash special {} (first || s.isEmpty) c with
    | true =>
      have hstep := avGetTokenLoop_escaped hback c (escapeText special false s ++ rest) out fin
      have hfin' : out.length + 1 ≤ (out ++ [c]).length := by simp
      obtain ⟨fin', hrun, hle, hends⟩ := ih false hfin' (fun _ => Or.inl (by simp))
      exact ⟨fin', by simpa [hstep] using hrun, hle, hends⟩
    | false =>
      obtain ⟨hnterm, hnback, hnquote, hnws⟩ := plain_of_needsBackslash_eq_false hterm hneeds
      have hstep := avGetTokenLoop_plain hnterm hnback hnquote
        (escapeText special false s ++ rest) out fin
      have hfin' : fin ≤ (out ++ [c]).length := by
        rw [List.length_append]
        lia
      have hlast : s = [] → EndsSafely (out ++ [c]) fin := by
        rintro rfl
        exact Or.inr ⟨c, by simp, hnws (by simp)⟩
      obtain ⟨fin', hrun, hle, hends⟩ := ih false hfin' hlast
      exact ⟨fin', by simpa [hstep] using hrun, hle, hends⟩

theorem take_append_rdropWhile {out : Bytes} {fin : Nat} (hfin : fin ≤ out.length)
    (hsafe : EndsSafely out fin) :
    out.take fin ++ (out.drop fin).rdropWhile isWhitespace = out := by
  rcases hsafe with hend | ⟨c, hlast, hnws⟩
  · simp [hend]
  · by_cases hend : fin = out.length
    · simp [hend]
    · have hne : out.drop fin ≠ [] := by
        rw [Ne, List.drop_eq_nil_iff]
        lia
      have hkeep : (out.drop fin).rdropWhile isWhitespace = out.drop fin := by
        rw [List.rdropWhile_eq_self_iff]
        intro _
        have hget : (out.drop fin).getLast hne = c := by
          have hsome := List.getLast?_eq_some_getLast hne
          rw [List.getLast?_drop, if_neg (by lia), hlast] at hsome
          exact (Option.some.inj hsome).symm
        rw [hget, hnws]
        simp
      rw [hkeep, List.take_append_drop]

theorem dropWhile_escapeText {s : Bytes} (hs : s ≠ []) :
    (escapeText special true s ++ rest).dropWhile isWhitespace =
      escapeText special true s ++ rest := by
  cases s with
  | nil => exact absurd rfl hs
  | cons c s =>
    rw [escapeText]
    cases hneeds : needsBackslash special {} (true || s.isEmpty) c with
    | true => rfl
    | false =>
      have hnone : ∀ c ∈ ([] : Bytes), c ∈ special := nofun
      have hnws : isWhitespace c = false :=
        (plain_of_needsBackslash_eq_false hnone hneeds).2.2.2 (by simp)
      simp [hnws]

/-- `av_get_token` undoes the escaping of a non-empty string, whatever terminator or
end of string follows. -/
theorem avGetToken_escapeText (hterm : ∀ c ∈ term, c ∈ special) (hback : backslash ∉ term)
    (hrest : ∀ c, rest.head? = some c → c ∈ term) {s : Bytes} (hs : s ≠ []) :
    avGetToken (escapeText special true s ++ rest) term = (s, rest) := by
  have hsafe : s = [] → EndsSafely [] 0 := fun h => absurd h hs
  have hzero : 0 ≤ ([] : Bytes).length := Nat.zero_le _
  obtain ⟨fin, hrun, hle, hends⟩ :=
    avGetTokenLoop_escapeText hterm hback hrest s true hzero hsafe
  rw [List.nil_append] at hrun hle hends
  rw [avGetToken, dropWhile_escapeText hs, hrun]
  exact Prod.ext (take_append_rdropWhile hle hends) rfl

end Token

end FFmpeg.Libavutil.BprintEscape
