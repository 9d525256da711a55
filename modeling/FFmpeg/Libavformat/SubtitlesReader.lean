import FFmpeg.Libavformat.Subtitles
import FFmpeg.Libavutil.Utf8Exact

/-!
# The text reader is a view of the text

A text comes in units: single bytes, or the bytes of the characters of a UTF-16 stream.  The reader
holds what is left of a unit in its buffer, and the stream holds the units behind it.  Reading takes
the next byte.  Looking at it does so as well and puts it back, but only that one byte: of a unit of
several bytes the others are lost.
-/

namespace FFmpeg.Libavformat.Subtitles

open Common Libavutil Utf8 AvioSource

/-! ## Texts -/

/-- The code units of a character in UTF-16. -/
def codeUnits (ch : Char) : List Nat :=
  if ch.toNat < 0x10000 then [ch.toNat]
  else [0xD800 + (ch.toNat - 0x10000) / 0x400, 0xDC00 + (ch.toNat - 0x10000) % 0x400]

/-- The bytes of a character in the stream of a reader of this type. -/
def encodeChar (type : FFUtfType) (ch : Char) : Bytes :=
  match type with
  | .utf8 => String.utf8EncodeChar ch
  | .utf16le => (codeUnits ch).flatMap (putLE 2)
  | .utf16be => (codeUnits ch).flatMap (putBE 2)

/-- Bytes that are units of their own. -/
def singles (l : Bytes) : List Bytes := l.map fun b => [b]

/-- The stream of a reader of this type holds these units. -/
inductive Carries : FFUtfType → Bytes → List Bytes → Prop
  | bytes (l : Bytes) : Carries .utf8 l (singles l)
  | characters (type : FFUtfType) (chars : List Char) (htype : type ≠ .utf8)
      (hnul : ∀ ch ∈ chars, ch.toNat ≠ 0) :
      Carries type (chars.flatMap (encodeChar type)) (chars.map String.utf8EncodeChar)

/-- The text of a stream: its bytes behind an optional BOM, or the UTF-8 encoding of the characters
behind a BOM of UTF-16. -/
inductive HasText : Bytes → List Bytes → Prop
  | plain (content : Bytes) (hbe : ¬ [0xFE, 0xFF] <+: content) (hle : ¬ [0xFF, 0xFE] <+: content)
      (hbom : ¬ [0xEF, 0xBB, 0xBF] <+: content) : HasText content (singles content)
  | utf8 (rest : Bytes) : HasText ([0xEF, 0xBB, 0xBF] ++ rest) (singles rest)
  | utf16le (chars : List Char) (hnul : ∀ ch ∈ chars, ch.toNat ≠ 0) :
      HasText ([0xFF, 0xFE] ++ chars.flatMap (encodeChar .utf16le))
        (chars.map String.utf8EncodeChar)
  | utf16be (chars : List Char) (hnul : ∀ ch ∈ chars, ch.toNat ≠ 0) :
      HasText ([0xFE, 0xFF] ++ chars.flatMap (encodeChar .utf16be))
        (chars.map String.utf8EncodeChar)

/-! ## Characters -/

theorem avioRl16_putLE (n : Nat) (rest : Bytes) (hn : n < 2 ^ 16) :
    avioRl16 ⟨putLE 2 n ++ rest, false⟩ = (n, ⟨rest, false⟩) := by
  have hread := getLE_putLE_of_lt (show n < 256 ^ 2 from hn)
  have hbytes : putLE 2 n = [UInt8.ofNat n, UInt8.ofNat (n / 256)] := rfl
  rw [hbytes] at hread ⊢
  have hor := shiftLeft_or_byte (UInt8.ofNat (n / 256)).toNat (UInt8.ofNat n)
  rw [Nat.or_comm] at hor
  simp only [avioRl16, List.cons_append, List.nil_append, avioR8_cons, hor]
  simp only [getLE, Nat.mul_zero, Nat.add_zero] at hread
  rw [Prod.mk.injEq]
  exact ⟨by lia, rfl⟩

theorem avioRb16_putBE (n : Nat) (rest : Bytes) (hn : n < 2 ^ 16) :
    avioRb16 ⟨putBE 2 n ++ rest, false⟩ = (n, ⟨rest, false⟩) := by
  have hread := getBE_putBE_of_lt (show n < 256 ^ 2 from hn)
  have hbytes : putBE 2 n = [UInt8.ofNat (n / 256 ^ 1), UInt8.ofNat (n / 256 ^ 0)] := rfl
  rw [hbytes] at hread ⊢
  simp only [avioRb16, List.cons_append, List.nil_append, avioR8_cons, shiftLeft_or_byte]
  simp only [getBE, List.length_singleton, List.length_nil, pow_one, pow_zero, Nat.mul_one,
    Nat.add_zero] at hread
  rw [Prod.mk.injEq]
  exact ⟨by simpa using hread, rfl⟩

variable {get16bit : AVIOContext → Nat × AVIOContext}

/-- `GET_UTF16` reads a character back, with a function that reads code units. -/
theorem getUtf16_char {unit : Nat → Bytes}
    (hget : ∀ n rest, n < 2 ^ 16 → get16bit ⟨unit n ++ rest, false⟩ = (n, ⟨rest, false⟩))
    (ch : Char) (rest : Bytes) :
    getUtf16 get16bit ⟨(codeUnits ch).flatMap unit ++ rest, false⟩ =
      (some ch.toNat, ⟨rest, false⟩) := by
  have hrange := char_range ch
  unfold codeUnits getUtf16
  by_cases hshort : ch.toNat < 0x10000
  · have hhi : ¬ (ch.toNat + 2 ^ 32 - 0xD800) % 2 ^ 32 < 0x800 := by lia
    rw [if_pos hshort, List.flatMap_singleton, hget _ _ hshort]
    dsimp only
    rw [if_neg hhi]
  · have hhigh : (ch.toNat - 0x10000) / 0x400 < 0x400 := by lia
    have hlow : (ch.toNat - 0x10000) % 0x400 < 0x400 := Nat.mod_lt _ (by decide)
    have hunits : [0xD800 + (ch.toNat - 0x10000) / 0x400,
          0xDC00 + (ch.toNat - 0x10000) % 0x400].flatMap unit ++ rest =
        unit (0xD800 + (ch.toNat - 0x10000) / 0x400) ++
          (unit (0xDC00 + (ch.toNat - 0x10000) % 0x400) ++ rest) := by
      simp
    have hhi : (0xD800 + (ch.toNat - 0x10000) / 0x400 + 2 ^ 32 - 0xD800) % 2 ^ 32 =
        (ch.toNat - 0x10000) / 0x400 := by lia
    have hval : (0xDC00 + (ch.toNat - 0x10000) % 0x400 + 2 ^ 32 - 0xDC00) % 2 ^ 32 =
        (ch.toNat - 0x10000) % 0x400 := by lia
    have hsum : ((ch.toNat - 0x10000) % 0x400 + (((ch.toNat - 0x10000) / 0x400) <<< 10) + 0x10000) %
        2 ^ 32 = ch.toNat := by
      rw [Nat.shiftLeft_eq]
      lia
    rw [if_neg hshort, hunits, hget _ _ (by lia)]
    dsimp only
    rw [hhi, if_pos (by lia), hget _ _ (by lia)]
    dsimp only
    rw [hval, if_neg (by lia), hsum]

variable {type : FFUtfType}

theorem encodeChar_ne_nil (htype : type ≠ .utf8) (ch : Char) : encodeChar type ch ≠ [] := by
  cases type with
  | utf8 => exact absurd rfl htype
  | utf16le =>
    unfold encodeChar codeUnits
    split_ifs <;> simp [putLE]
  | utf16be =>
    unfold encodeChar codeUnits
    split_ifs <;> simp [putBE]

theorem exists_utf8EncodeChar (ch : Char) : ∃ b p, String.utf8EncodeChar ch = b :: p := by
  obtain ⟨n, hn, hshort⟩ := exists_shortest ch
  rw [utf8EncodeChar_eq hn hshort]
  exact ⟨_, _, rfl⟩

/-! ## Reading -/

/-- The reader stands in front of this rest of a unit, and of these units. -/
structure Stands (r : FFTextReader) (pending : Bytes) (units : List Bytes) : Prop where
  pending_eq : r.buf.drop r.bufPos = pending
  carries : Carries r.type r.pb.rest units
  ended : r.pb.eofReached = true → r.pb.rest = []

variable {r : FFTextReader} {b : UInt8} {p : Bytes} {units : List Bytes}

theorem Stands.lt_length (h : Stands r (b :: p) units) : r.bufPos < r.buf.length := by
  by_contra hle
  have hnil := h.pending_eq
  rw [List.drop_eq_nil_of_le (Nat.le_of_not_lt hle)] at hnil
  cases hnil

theorem Stands.length_le (h : Stands r [] units) : ¬ r.bufPos < r.buf.length :=
  Nat.not_lt.2 (List.drop_eq_nil_iff.1 h.pending_eq)

theorem Stands.getD_eq (h : Stands r (b :: p) units) : r.buf.getD r.bufPos 0 = b := by
  have hcons := h.pending_eq
  rw [List.drop_eq_getElem_cons h.lt_length] at hcons
  rw [List.getD_eq_getElem _ _ h.lt_length]
  exact (List.cons.inj hcons).1

theorem Stands.r8_pending (h : Stands r (b :: p) units) :
    ∃ r', ffTextR8 r = (b, r') ∧ Stands r' p units ∧ r'.pb = r.pb := by
  refine ⟨{ r with bufPos := r.bufPos + 1 }, ?_, ⟨?_, h.carries, h.ended⟩, rfl⟩
  · rw [ffTextR8, if_pos h.lt_length, h.getD_eq]
  · have hcons := h.pending_eq
    rw [List.drop_eq_getElem_cons h.lt_length] at hcons
    exact (List.cons.inj hcons).2

theorem Stands.putCharacter {ch : Char} (hch : ch.toNat ≠ 0)
    {pb : AVIOContext} (hcarries : Carries r.type pb.rest units) (heof : pb.eofReached = false)
    (hunit : String.utf8EncodeChar ch = b :: p) :
    ∃ r', Subtitles.putCharacter r (some ch.toNat, pb) = (b, r') ∧ Stands r' p units ∧
      r'.pb.eofReached = false := by
  have hput : putUtf8 ch.toNat = b :: p := by rw [putUtf8_char, hunit]
  refine ⟨{ r with pb := pb, buf := putUtf8 ch.toNat, bufPos := 1 }, ?_, ⟨?_, hcarries, ?_⟩, heof⟩
  · show (if ch.toNat = 0 then _ else _) = _
    rw [if_neg hch, hput]
    rfl
  · show (putUtf8 ch.toNat).drop 1 = p
    rw [hput]
    rfl
  · intro hend
    rw [heof] at hend
    cases hend

/-- The first byte of a unit of the stream. -/
theorem Stands.r8_unit (h : Stands r [] ((b :: p) :: units)) :
    ∃ r', ffTextR8 r = (b, r') ∧ Stands r' p units ∧ r'.pb.eofReached = false := by
  obtain ⟨type, ⟨rest, eof⟩, buf, bufPos⟩ := r
  obtain ⟨hpending, hcarries, hended⟩ := h
  have hlength : ¬ bufPos < buf.length := Nat.not_lt.2 (List.drop_eq_nil_iff.1 hpending)
  dsimp only at hpending hcarries hended
  generalize hunits : (b :: p) :: units = all at hcarries
  cases hcarries with
  | bytes =>
    cases rest with
    | nil => cases hunits
    | cons c rest =>
      obtain ⟨hunit, rfl⟩ := List.cons.inj hunits
      obtain ⟨rfl, rfl⟩ := List.cons.inj hunit
      have heof : eof = false := by
        cases eof with
        | false => rfl
        | true => cases hended rfl
      subst heof
      refine ⟨⟨.utf8, ⟨rest, false⟩, buf, bufPos⟩, ?_, ⟨hpending, .bytes rest, ?_⟩, rfl⟩
      · rw [ffTextR8, if_neg hlength]
        rfl
      · exact fun hend => by cases hend
  | characters type chars htype hnul =>
    cases chars with
    | nil => cases hunits
    | cons ch chars =>
      obtain ⟨hunit, rfl⟩ := List.cons.inj hunits
      have heof : eof = false := by
        cases eof with
        | false => rfl
        | true =>
          have hnil := hended rfl
          rw [List.flatMap_cons, List.append_eq_nil_iff] at hnil
          exact absurd hnil.1 (encodeChar_ne_nil htype ch)
      subst heof
      have hch := hnul ch List.mem_cons_self
      have hrest := fun c hc => hnul c (List.mem_cons_of_mem _ hc)
      rw [ffTextR8, if_neg hlength]
      dsimp only
      rw [List.flatMap_cons]
      cases type with
      | utf8 => exact absurd rfl htype
      | utf16le =>
        have hget := getUtf16_char avioRl16_putLE ch (chars.flatMap (encodeChar .utf16le))
        dsimp only [encodeChar] at hget ⊢
        rw [hget]
        exact Stands.putCharacter hch (.characters .utf16le chars htype hrest) rfl hunit.symm
      | utf16be =>
        have hget := getUtf16_char avioRb16_putBE ch (chars.flatMap (encodeChar .utf16be))
        dsimp only [encodeChar] at hget ⊢
        rw [hget]
        exact Stands.putCharacter hch (.characters .utf16be chars htype hrest) rfl hunit.symm

theorem Carries.nil (type : FFUtfType) : Carries type [] [] := by
  cases type with
  | utf8 => exact .bytes []
  | utf16le => exact .characters .utf16le [] (by decide) (by simp)
  | utf16be => exact .characters .utf16be [] (by decide) (by simp)

theorem Carries.eq_nil {rest : Bytes} (h : Carries type rest []) : rest = [] := by
  generalize hunits : ([] : List Bytes) = units at h
  cases h with
  | bytes => exact List.map_eq_nil_iff.1 hunits.symm
  | characters type chars =>
    rw [List.map_eq_nil_iff.1 hunits.symm]
    rfl

theorem getUtf16_end {pb pb' : AVIOContext} (hget : get16bit pb = (0, pb')) :
    getUtf16 get16bit pb = (some 0, pb') := by
  have hhi : ¬ (0 + 2 ^ 32 - 0xD800) % 2 ^ 32 < 0x800 := by decide
  unfold getUtf16
  rw [hget]
  dsimp only
  rw [if_neg hhi]

theorem Carries.ne_nil {rest : Bytes} (h : Carries type rest units) :
    ∀ unit ∈ units, unit ≠ [] := by
  intro unit hunit
  cases h with
  | bytes =>
    obtain ⟨b, -, rfl⟩ := List.mem_map.1 hunit
    exact List.cons_ne_nil b []
  | characters type chars =>
    obtain ⟨ch, -, rfl⟩ := List.mem_map.1 hunit
    obtain ⟨b, p, hch⟩ := exists_utf8EncodeChar ch
    rw [hch]
    exact List.cons_ne_nil b p

theorem Stands.r8_end (h : Stands r [] []) :
    ∃ r', ffTextR8 r = (0, r') ∧ Stands r' [] [] ∧ r'.pb.eofReached = true := by
  obtain ⟨type, ⟨rest, eof⟩, buf, bufPos⟩ := r
  obtain ⟨hpending, hcarries, -⟩ := h
  have hlength : ¬ bufPos < buf.length := Nat.not_lt.2 (List.drop_eq_nil_iff.1 hpending)
  have hrest : rest = [] := hcarries.eq_nil
  subst hrest
  refine ⟨⟨type, ⟨[], true⟩, buf, bufPos⟩, ?_, ⟨hpending, .nil type, fun _ => rfl⟩, rfl⟩
  rw [ffTextR8, if_neg hlength]
  cases type with
  | utf8 => rfl
  | utf16le =>
    have hend : avioRl16 ⟨[], eof⟩ = (0, ⟨[], true⟩) := by simp [avioRl16]
    dsimp only
    rw [getUtf16_end hend]
    rfl
  | utf16be =>
    have hend : avioRb16 ⟨[], eof⟩ = (0, ⟨[], true⟩) := by simp [avioRb16]
    dsimp only
    rw [getUtf16_end hend]
    rfl

/-! ## Looking at the next byte -/

theorem Stands.peek_pending (h : Stands r (b :: p) units) : ffTextPeekR8 r = (b, r) := by
  rw [ffTextPeekR8, if_pos h.lt_length, h.getD_eq]

theorem Stands.peek_unit (h : Stands r [] ((b :: p) :: units)) :
    ∃ r', ffTextPeekR8 r = (b, r') ∧ Stands r' [b] units ∧ r'.pb.eofReached = false := by
  obtain ⟨r', hread, hstands, heof⟩ := h.r8_unit
  refine ⟨{ r' with buf := [b], bufPos := 0 }, ?_, ⟨rfl, hstands.carries, hstands.ended⟩, heof⟩
  rw [ffTextPeekR8, if_neg h.length_le, hread]
  dsimp only
  rw [avioFeof, heof]
  rfl

theorem Stands.peek_end (h : Stands r [] []) :
    ∃ r', ffTextPeekR8 r = (0, r') ∧ Stands r' [] [] ∧ r'.pb.eofReached = true := by
  obtain ⟨r', hread, hstands, heof⟩ := h.r8_end
  refine ⟨r', ?_, hstands, heof⟩
  rw [ffTextPeekR8, if_neg h.length_le, hread]
  dsimp only
  rw [avioFeof, heof]
  rfl

/-! ## From the start -/

theorem singles_flatten (l : Bytes) : (singles l).flatten = l := by
  induction l with
  | nil => rfl
  | cons b l ih => exact congrArg (b :: ·) ih

theorem ffTextInitAvio_bytes {pb₀ pb₁ pb₂ pb₃ : AVIOContext} {x y z : UInt8}
    (h₀ : avioR8 pb₀ = (x, pb₁)) (h₁ : avioR8 pb₁ = (y, pb₂)) (h₂ : avioR8 pb₂ = (z, pb₃))
    (hle : [x, y] ≠ [0xFF, 0xFE]) (hbe : [x, y] ≠ [0xFE, 0xFF]) :
    ffTextInitAvio pb₀ =
      ⟨.utf8, pb₃, [x, y, z], if [x, y, z] = [0xEF, 0xBB, 0xBF] then 3 else 0⟩ := by
  unfold ffTextInitAvio
  simp only [h₀, h₁, h₂, if_neg hle, if_neg hbe, List.cons_append, List.nil_append]

variable {content : Bytes}

/-- A stream without a BOM is in front of its bytes; a stream of fewer than three bytes leaves zeros
in the buffer. -/
theorem stands_plain (hbe : ¬ [0xFE, 0xFF] <+: content) (hle : ¬ [0xFF, 0xFE] <+: content)
    (hbom : ¬ [0xEF, 0xBB, 0xBF] <+: content) :
    Stands (ffTextInitAvio ⟨content, false⟩)
      (content.take 3 ++ List.replicate (3 - content.length) 0) (singles (content.drop 3)) := by
  match content with
  | [] => exact ⟨rfl, .bytes [], fun _ => rfl⟩
  | [x] =>
    rw [ffTextInitAvio_bytes (avioR8_cons x [] false) (avioR8_nil false) (avioR8_nil true)
      (fun h => by cases (List.cons.inj (List.cons.inj h).2).1)
      (fun h => by cases (List.cons.inj (List.cons.inj h).2).1),
      if_neg (fun h => by cases (List.cons.inj (List.cons.inj h).2).1)]
    exact ⟨rfl, .bytes [], fun _ => rfl⟩
  | [x, y] =>
    rw [ffTextInitAvio_bytes (avioR8_cons x [y] false) (avioR8_cons y [] false) (avioR8_nil false)
      (fun h => hle (h ▸ List.prefix_refl _)) (fun h => hbe (h ▸ List.prefix_refl _)),
      if_neg (fun h => by cases (List.cons.inj (List.cons.inj (List.cons.inj h).2).2).1)]
    exact ⟨rfl, .bytes [], fun _ => rfl⟩
  | x :: y :: z :: rest =>
    rw [ffTextInitAvio_bytes (avioR8_cons x _ false) (avioR8_cons y _ false)
      (avioR8_cons z rest false) (fun h => hle (h ▸ List.prefix_append [x, y] (z :: rest)))
      (fun h => hbe (h ▸ List.prefix_append [x, y] (z :: rest))),
      if_neg (fun h : [x, y, z] = [0xEF, 0xBB, 0xBF] =>
        hbom (h ▸ List.prefix_append [x, y, z] rest))]
    exact ⟨by simp, .bytes rest, fun h => by cases h⟩

theorem HasText.stands (h : HasText content units) :
    ∃ pending behind zeros, Stands (ffTextInitAvio ⟨content, false⟩) pending behind ∧
      pending ++ behind.flatten = units.flatten ++ List.replicate zeros 0 ∧
      (behind = units ∧ pending = [] ∨ ∀ unit ∈ behind, unit.length = 1) := by
  cases h with
  | plain content hbe hle hbom =>
    refine ⟨_, _, 3 - content.length, stands_plain hbe hle hbom, ?_, Or.inr ?_⟩
    · rw [singles_flatten, singles_flatten]
      rcases Nat.lt_or_ge content.length 3 with hshort | hlong
      · rw [List.drop_eq_nil_of_le hshort.le, List.take_of_length_le hshort.le, List.append_nil]
      · rw [Nat.sub_eq_zero_of_le hlong, List.replicate_zero, List.append_nil, List.append_nil,
          List.take_append_drop]
    · intro unit hunit
      obtain ⟨b, -, rfl⟩ := List.mem_map.1 hunit
      rfl
  | utf8 rest =>
    exact ⟨[], singles rest, 0, ⟨rfl, .bytes rest, fun h => by cases h⟩, by simp, Or.inl ⟨rfl, rfl⟩⟩
  | utf16le chars hnul =>
    exact ⟨[], _, 0, ⟨rfl, .characters .utf16le chars (by decide) hnul, fun h => by cases h⟩,
      by simp, Or.inl ⟨rfl, rfl⟩⟩
  | utf16be chars hnul =>
    exact ⟨[], _, 0, ⟨rfl, .characters .utf16be chars (by decide) hnul, fun h => by cases h⟩,
      by simp, Or.inl ⟨rfl, rfl⟩⟩

/-! ## Runs -/

/-- A call of `ff_text_r8` or of `ff_text_peek_r8`. -/
inductive TextCall
  | r8
  | peek
  deriving DecidableEq, Repr

/-- The results of calls. -/
def results : FFTextReader → List TextCall → List UInt8
  | _, [] => []
  | r, .r8 :: calls => (ffTextR8 r).1 :: results (ffTextR8 r).2 calls
  | r, .peek :: calls => (ffTextPeekR8 r).1 :: results (ffTextPeekR8 r).2 calls

/-- A view of a text that ends in zeros: reading takes the next byte, and looking at it does not. -/
def view : Bytes → List TextCall → List UInt8
  | _, [] => []
  | text, .r8 :: calls => text.headD 0 :: view text.tail calls
  | text, .peek :: calls => text.headD 0 :: view text calls

theorem view_append_zeros (text : Bytes) (zeros : Nat) (calls : List TextCall) :
    view (text ++ List.replicate zeros 0) calls = view text calls := by
  induction calls generalizing text zeros with
  | nil => rfl
  | cons call calls ih =>
    have hhead : (text ++ List.replicate zeros 0).headD 0 = text.headD 0 := by
      cases text with
      | nil => cases zeros <;> rfl
      | cons b text => rfl
    have htail : ∃ zeros', (text ++ List.replicate zeros 0).tail =
        text.tail ++ List.replicate zeros' 0 := by
      cases text with
      | nil => exact ⟨zeros - 1, by cases zeros <;> rfl⟩
      | cons b text => exact ⟨zeros, rfl⟩
    obtain ⟨zeros', htail⟩ := htail
    cases call with
    | r8 => rw [view, view, hhead, htail, ih]
    | peek => rw [view, view, hhead, ih]

/-- A unit of more than one byte begins at this place. -/
def MultibyteAt (units : List Bytes) (place : Nat) : Prop :=
  ∃ before unit behind, units = before ++ unit :: behind ∧ before.flatten.length = place ∧
    1 < unit.length

/-- No look at the first byte of a unit of more than one: the place of a call is the number of reads
before it. -/
def LooksFit (units : List Bytes) (pending : Nat) (calls : List TextCall) : Prop :=
  ∀ k place, calls[k]? = some .peek → (calls.take k).count .r8 = pending + place →
    ¬ MultibyteAt units place

theorem LooksFit.tail {pending : Nat} {call : TextCall} {calls : List TextCall}
    {units' : List Bytes} {pending' : Nat} (h : LooksFit units pending (call :: calls))
    (hplace : ∀ n place, n = pending' + place → MultibyteAt units' place →
      ∃ place', (if call = .r8 then n + 1 else n) = pending + place' ∧ MultibyteAt units place') :
    LooksFit units' pending' calls := by
  intro k place hpeek hcount hmulti
  obtain ⟨place', heq, hmulti'⟩ := hplace _ place hcount hmulti
  refine h (k + 1) place' hpeek ?_ hmulti'
  rw [List.take_succ_cons, List.count_cons, ← heq]
  cases call <;> rfl

theorem MultibyteAt.cons {unit : Bytes} {place : Nat} (h : MultibyteAt units place) :
    MultibyteAt (unit :: units) (unit.length + place) := by
  obtain ⟨before, found, behind, rfl, hplace, hlong⟩ := h
  refine ⟨unit :: before, found, behind, rfl, ?_, hlong⟩
  rw [List.flatten_cons, List.length_append, hplace]

/-- A run is a view of what is in front of the reader, unless it looks at a unit of several
bytes. -/
theorem Stands.results_eq (calls : List TextCall) {r : FFTextReader} {pending : Bytes}
    {units : List Bytes} (h : Stands r pending units)
    (hlooks : LooksFit units pending.length calls) :
    results r calls = view (pending ++ units.flatten) calls := by
  induction calls generalizing r pending units with
  | nil => rfl
  | cons call calls ih =>
    match pending, units, h with
    | b :: p, units, h =>
      cases call with
      | r8 =>
        obtain ⟨r', hread, hstands, -⟩ := h.r8_pending
        rw [results, hread, view]
        refine congrArg _ (ih hstands (hlooks.tail ?_))
        intro n place hn hmulti
        exact ⟨place, by rw [if_pos rfl, hn, List.length_cons]; lia, hmulti⟩
      | peek =>
        rw [results, h.peek_pending, view]
        exact congrArg _ (ih h (hlooks.tail fun n place hn hmulti => ⟨place, hn, hmulti⟩))
    | [], [], h =>
      cases call with
      | r8 =>
        obtain ⟨r', hread, hstands, -⟩ := h.r8_end
        rw [results, hread, view]
        refine congrArg _ (ih hstands (hlooks.tail ?_))
        rintro n place - ⟨before, unit, behind, hunits, -⟩
        simp at hunits
      | peek =>
        obtain ⟨r', hread, hstands, -⟩ := h.peek_end
        rw [results, hread, view]
        exact congrArg _ (ih hstands (hlooks.tail fun n place hn hmulti => ⟨place, hn, hmulti⟩))
    | [], [] :: units, h => exact absurd rfl (h.carries.ne_nil [] List.mem_cons_self)
    | [], (b :: p) :: units, h =>
      cases call with
      | r8 =>
        obtain ⟨r', hread, hstands, -⟩ := h.r8_unit
        rw [results, hread, view]
        refine congrArg _ (ih hstands (hlooks.tail ?_))
        intro n place hn hmulti
        refine ⟨(b :: p).length + place, ?_, hmulti.cons⟩
        rw [if_pos rfl, hn, List.length_cons, List.length_nil]
        lia
      | peek =>
        obtain ⟨r', hread, hstands, -⟩ := h.peek_unit
        have hsingle : p = [] := by
          by_contra hne
          refine hlooks 0 0 rfl rfl ⟨[], b :: p, units, rfl, rfl, ?_⟩
          rw [List.length_cons]
          exact Nat.succ_lt_succ (List.length_pos_iff.2 hne)
        subst hsingle
        have hrest : results r' calls = view ([b] ++ units.flatten) calls := by
          refine ih hstands (hlooks.tail ?_)
          intro n place hn hmulti
          refine ⟨[b].length + place, ?_, hmulti.cons⟩
          rw [if_neg (by decide), hn, List.length_nil, Nat.zero_add]
        rw [results, hread, view]
        exact congrArg _ hrest

/-- **The reader is a view of the text**: in every run without a look at the first byte of a
character of several bytes in a UTF-16 stream, reading gives the bytes of the text and then zeros,
and looking gives the byte that is read next. -/
theorem ffText_transparent {content : Bytes} (h : HasText content units) (calls : List TextCall)
    (hlooks : LooksFit units 0 calls) :
    results (ffTextInitAvio ⟨content, false⟩) calls = view units.flatten calls := by
  obtain ⟨pending, behind, zeros, hstands, htext, hunits⟩ := h.stands
  have hbehind : LooksFit behind pending.length calls := by
    rcases hunits with ⟨rfl, rfl⟩ | hsingle
    · exact hlooks
    · rintro k place - - ⟨before, unit, rest, rfl, -, hlong⟩
      have hone := hsingle unit (by simp)
      lia
  rw [hstands.results_eq calls hbehind, htext, view_append_zeros]

/-- The sign of the euro in UTF-16, looked at behind its first byte. -/
theorem ffText_transparent_euro :
    results (ffTextInitAvio ⟨[0xFF, 0xFE, 0xAC, 0x20], false⟩) [.r8, .peek, .r8, .r8, .r8] =
      [0xE2, 0x82, 0x82, 0xAC, 0] := by
  have htext : HasText [0xFF, 0xFE, 0xAC, 0x20] [[0xE2, 0x82, 0xAC]] :=
    .utf16le ['€'] (List.forall_mem_singleton.2 (by decide))
  refine (ffText_transparent htext [.r8, .peek, .r8, .r8, .r8] ?_).trans (by decide)
  rintro k place hpeek hcount ⟨before, unit, behind, hunits, hplace, -⟩
  have hstart : place = 0 := by
    cases before with
    | nil => exact hplace.symm
    | cons first before =>
      have hlength := congrArg List.length hunits
      simp at hlength
  subst hstart
  match k, hpeek, hcount with
  | 0, hpeek, _ => exact absurd hpeek (by decide)
  | 1, _, hcount => exact absurd hcount (by decide)
  | 2, hpeek, _ => exact absurd hpeek (by decide)
  | 3, hpeek, _ => exact absurd hpeek (by decide)
  | 4, hpeek, _ => exact absurd hpeek (by decide)

/-- The same for a look in front of a character of two bytes. -/
theorem ffText_look :
    ¬ ∀ (content : Bytes) (units : List Bytes) (calls : List TextCall), HasText content units →
      results (ffTextInitAvio ⟨content, false⟩) calls = view units.flatten calls := by
  intro h
  have htext : HasText [0xFF, 0xFE, 0xE9, 0x00] [[0xC3, 0xA9]] :=
    .utf16le ['é'] (List.forall_mem_singleton.2 (by decide))
  have hrun := h _ _ [.peek, .r8, .r8] htext
  exact absurd hrun (by decide)

end FFmpeg.Libavformat.Subtitles
