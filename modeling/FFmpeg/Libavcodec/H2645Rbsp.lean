import FFmpeg.Common.ZeroLanes
import FFmpeg.Libavcodec.H2645Parse

/-!
# The payload is the same in every build

Each of the scans stops at the first place where two zero bytes are followed by a byte up
to 3, or finds that there is none.  What lies in front of that place is copied by the
plain definition too, with nothing left to remember from it, and from there on the second
loop does what the plain definition does, two bytes at a time where it may.
-/

namespace FFmpeg.Libavcodec.H2645Rbsp

open Common H2645Parse
open PacketSideData (avInputBufferPaddingSize)

theorem byte_eq {src : Bytes} {i : Nat} (h : i < src.length) : byte src i = src[i] := by
  simp [byte, h]

/-! ## What the scans look for -/

section Scan

variable {src : Bytes} {length : Nat}

/-- Two zero bytes and a byte up to 3, in front of `length`. -/
def Event (src : Bytes) (length p : Nat) : Prop :=
  p + 2 < length ∧ byte src p = 0 ∧ byte src (p + 1) = 0 ∧ byte src (p + 2) ≤ 3

/-- What a scan has found when it ends with `i` and a new `length`. -/
structure Found (src : Bytes) (length : Nat) (r : Nat × Nat) : Prop where
  first : ∀ p < r.1, ¬ Event src length p
  stop : (r.2 = length ∧ length ≤ r.1 + 1) ∨
    (Event src length r.1 ∧ startcodeTest src length r.1 = some r.2)

theorem startcodeTest_isSome_iff {i : Nat} (hzero : byte src i = 0) :
    (startcodeTest src length i).isSome ↔ Event src length i := by
  unfold startcodeTest Event
  by_cases h : i + 2 < length ∧ byte src (i + 1) = 0 ∧ byte src (i + 2) ≤ 3
  · rw [if_pos h]
    refine iff_of_true ?_ ⟨h.1, hzero, h.2⟩
    split <;> rfl
  · rw [if_neg h]
    exact iff_of_false (by simp) fun he => h ⟨he.1, he.2.2⟩

theorem found_or_continue {i : Nat} (hzero : byte src i = 0)
    (hfirst : ∀ p < i, ¬ Event src length p) :
    (∃ length', startcodeTest src length i = some length' ∧ Found src length (i, length')) ∨
      (startcodeTest src length i = none ∧ ∀ p, p + 1 < i + 2 → ¬ Event src length p) := by
  have hiff : (startcodeTest src length i).isSome ↔ Event src length i :=
    startcodeTest_isSome_iff hzero
  cases htest : startcodeTest src length i with
  | some length' =>
    exact Or.inl ⟨length', rfl, hfirst, Or.inr ⟨hiff.1 (by simp [htest]), htest⟩⟩
  | none =>
    refine Or.inr ⟨rfl, fun p hp => ?_⟩
    rcases Nat.lt_or_ge p i with hlt | hge
    · exact hfirst p hlt
    · obtain rfl : p = i := by lia
      simpa [htest] using hiff

/-- The loop of single bytes, from a place such that all that it has skipped is known. -/
theorem scanBytes_found {rounds i : Nat} (hpast : ∀ p, p + 1 < i → ¬ Event src length p)
    (hrounds : length - i < rounds) :
    ∃ r, scanBytes src length rounds i = some r ∧ Found src length r := by
  induction rounds generalizing i with
  | zero => exact absurd hrounds (Nat.not_lt_zero _)
  | succ rounds ih =>
    rw [scanBytes]
    by_cases hi : i + 1 < length
    · rw [if_pos hi]
      by_cases hnonzero : byte src i ≠ 0
      · rw [if_pos hnonzero]
        refine ih (fun p hp he => ?_) (by lia)
        -- an event at `i - 1` or at `i` would need a zero byte at `i`
        rcases Nat.lt_or_ge (p + 1) i with hlt | hge
        · exact hpast p hlt he
        · rcases Nat.lt_or_ge p i with hbefore | hafter
          · exact hnonzero (by rw [← show p + 1 = i by lia]; exact he.2.2.1)
          · exact hnonzero (by rw [← show p = i by lia]; exact he.2.1)
      · rw [if_neg hnonzero]
        dsimp only
        have hzero : byte src i = 0 := not_not.1 hnonzero
        generalize hback : (if 0 < i ∧ byte src (i - 1) = 0 then i - 1 else i) = z
        have hz : byte src z = 0 ∧ i ≤ z + 1 ∧ ∀ p < z, ¬ Event src length p := by
          split at hback
          · rename_i hbefore
            subst hback
            exact ⟨hbefore.2, by lia, fun p hp => hpast p (by lia)⟩
          · rename_i hbefore
            subst hback
            refine ⟨hzero, by lia, fun p hp he => ?_⟩
            rcases Nat.lt_or_ge (p + 1) i with hlt | hge
            · exact hpast p hlt he
            · exact hbefore ⟨by lia, by rw [← show p = i - 1 by lia]; exact he.2.1⟩
        obtain ⟨hzero', hle, hfirst⟩ := hz
        rcases found_or_continue hzero' hfirst with ⟨length', htest, hfound⟩ | ⟨htest, hpast'⟩
        · simp only [htest]
          exact ⟨_, rfl, hfound⟩
        · simp only [htest]
          exact ih hpast' (by lia)
    · rw [if_neg hi]
      exact ⟨_, rfl, fun p hp he => hpast p (by have := he.1; lia) he, Or.inl ⟨rfl, by lia⟩⟩

/-! ## Several bytes at once -/

/-- What the test of the bytes at `i` must say for the loop that goes on by `step`. -/
structure Tests (src : Bytes) (step : Nat) (hit : Bool) (i : Nat) : Prop where
  miss : hit = false → ∀ p, i ≤ p + 1 → p + 1 < i + step → byte src p ≠ 0 ∨ byte src (p + 1) ≠ 0
  zero : hit = true → ∃ q, i ≤ q ∧ q < src.length ∧ byte src q = 0

theorem skipNonzero_spec {i q : Nat} (hiq : i ≤ q) (hq : q < src.length) (hzero : byte src q = 0) :
    ∃ z, skipNonzero src i = some z ∧ i ≤ z ∧ byte src z = 0 ∧
      ∀ p, i ≤ p → p < z → byte src p ≠ 0 := by
  have hmem : (0 : UInt8) ∈ src.drop i := by
    refine List.mem_iff_getElem?.2 ⟨q - i, ?_⟩
    rw [List.getElem?_drop, show i + (q - i) = q by lia, List.getElem?_eq_getElem hq,
      ← hzero, byte_eq hq]
  unfold skipNonzero
  cases hfind : (src.drop i).findIdx? (· = 0) with
  | none =>
    have := List.findIdx?_eq_none_iff.1 hfind 0 hmem
    simp at this
  | some k =>
    obtain ⟨hk, hat, hbefore⟩ := List.findIdx?_eq_some_iff_getElem.1 hfind
    have hlength : i + k < src.length := by
      rw [List.length_drop] at hk
      lia
    refine ⟨i + k, rfl, Nat.le_add_right i k, ?_, fun p hip hp => ?_⟩
    · simpa [byte_eq hlength] using hat
    · have := hbefore (p - i) (by lia)
      rw [List.getElem_drop] at this
      have hp' : p < src.length := by lia
      simpa [byte_eq hp', show i + (p - i) = p by lia] using this

theorem findFirstZero_spec {i q : Nat} (hiq : i ≤ q) (hq : q < src.length)
    (hzero : byte src q = 0) :
    ∃ z, findFirstZero src i = some z ∧ i ≤ z + 1 ∧ byte src z = 0 ∧
      ∀ p, i ≤ p + 1 → p < z → byte src p ≠ 0 ∨ byte src (p + 1) ≠ 0 := by
  unfold findFirstZero
  split
  · rename_i hback
    obtain ⟨z, hz, hle, hzero', hbefore⟩ :=
      skipNonzero_spec (show i - 1 ≤ q by lia) hq hzero
    exact ⟨z, hz, by lia, hzero', fun p hip hp => Or.inl (hbefore p (by lia) hp)⟩
  · rename_i hstay
    obtain ⟨z, hz, hle, hzero', hbefore⟩ := skipNonzero_spec hiq hq hzero
    refine ⟨z, hz, by lia, hzero', fun p hip hp => ?_⟩
    rcases Nat.lt_or_ge p i with hlt | hge
    · obtain rfl : i = p + 1 := by lia
      exact Or.inr fun h => hstay ⟨by lia, h⟩
    · exact Or.inl (hbefore p hge hp)

/-- The loop of several bytes at once. -/
theorem scanWords_found {test : Bytes → Nat → Option Bool} {step : Nat} (hstep : 2 ≤ step)
    (htest : ∀ i, i + 1 < length → ∃ hit, test src i = some hit ∧ Tests src step hit i)
    {rounds i : Nat} (hpast : ∀ p, p + 1 < i → ¬ Event src length p)
    (hrounds : length - i < rounds) :
    ∃ r, scanWords test step src length rounds i = some r ∧ Found src length r := by
  induction rounds generalizing i with
  | zero => exact absurd hrounds (Nat.not_lt_zero _)
  | succ rounds ih =>
    rw [scanWords]
    by_cases hi : i + 1 < length
    · rw [if_pos hi]
      obtain ⟨hit, hread, htests⟩ := htest i hi
      simp only [hread, Option.bind_eq_bind, Option.bind_some]
      cases hit with
      | false =>
        refine ih (fun p hp he => ?_) (by lia)
        rcases Nat.lt_or_ge (p + 1) i with hlt | hge
        · exact hpast p hlt he
        · exact (htests.miss rfl p hge hp).elim (· he.2.1) (· he.2.2.1)
      | true =>
        obtain ⟨q, hiq, hq, hzero⟩ := htests.zero rfl
        obtain ⟨z, hz, hle, hzero', hbefore⟩ := findFirstZero_spec hiq hq hzero
        have hfirst (p : Nat) (hp : p < z) : ¬ Event src length p := by
          intro he
          rcases Nat.lt_or_ge (p + 1) i with hlt | hge
          · exact hpast p hlt he
          · exact (hbefore p hge hp).elim (· he.2.1) (· he.2.2.1)
        simp only [hz, Option.bind_some, Bool.not_true, Bool.false_eq_true, if_false]
        rcases found_or_continue hzero' hfirst with ⟨length', hstop, hfound⟩ | ⟨hstop, hpast'⟩
        · simp only [hstop]
          exact ⟨_, rfl, hfound⟩
        · simp only [hstop]
          rw [show z + step - (step - 2) = z + 2 by lia]
          exact ih hpast' (by lia)
    · rw [if_neg hi]
      exact ⟨_, rfl, fun p hp he => hpast p (by have := he.1; lia) he, Or.inl ⟨rfl, by lia⟩⟩

/-- The bytes of a word, from the lowest one on. -/
def window (bigEndian : Bool) (src : Bytes) (n i : Nat) : Bytes :=
  let bytes := (List.range n).map fun k => byte src (i + k)
  if bigEndian then bytes.reverse else bytes

theorem avRn_zeroLanes (bigEndian : Bool) {n i : Nat} {tested : List Bool}
    (htested : tested.length = n) (h : i + n ≤ src.length) :
    ∃ x, avRn bigEndian n src i = some x ∧ (zeroLanes tested x = 0 ↔
      ∀ p ∈ (window bigEndian src n i).zip tested, p.2 = true → p.1 ≠ 0) := by
  have hbytes : (src.drop i).take n = (List.range n).map fun k => byte src (i + k) := by
    refine List.ext_getElem (by simp; lia) fun k hk hk' => ?_
    have hlt : i + k < src.length := by
      simp only [List.length_map, List.length_range] at hk'
      lia
    simp [byte_eq hlt]
  have hlength : (window bigEndian src n i).length = n := by
    cases bigEndian <;> simp [window]
  have hexact := zeroLanes_eq_zero_iff (htested.trans hlength.symm)
  rw [hlength] at hexact
  refine ⟨_, ?_, hexact⟩
  rw [avRn, if_pos h, hbytes]
  cases bigEndian with
  | false => rfl
  | true => simp [window, getBE_eq_getLE_reverse]

theorem tests_of_offsets {offsets : List Nat} {step i : Nat} {hit : Bool}
    (hexact : hit = false ↔ ∀ k ∈ offsets, byte src (i + k) ≠ 0)
    (hread : ∀ k ∈ offsets, i + k < src.length) (hfront : 0 ∈ offsets)
    (hcover : ∀ k < step - 1, k ∈ offsets ∨ k + 1 ∈ offsets) : Tests src step hit i where
  miss hmiss p hle hlt := by
    have hnonzero := hexact.1 hmiss
    rcases Nat.lt_or_ge p i with hbefore | hge
    · obtain rfl : i = p + 1 := by lia
      exact Or.inr (hnonzero 0 hfront)
    · obtain ⟨k, rfl⟩ := Nat.exists_eq_add_of_le hge
      exact (hcover k (by lia)).imp (hnonzero k) (hnonzero (k + 1))
  zero hhit := by
    have hsome : ¬ ∀ k ∈ offsets, byte src (i + k) ≠ 0 := by
      rw [← hexact, hhit]
      decide
    push Not at hsome
    obtain ⟨k, hk, hzero⟩ := hsome
    exact ⟨i + k, Nat.le_add_right i k, hread k hk, hzero⟩

/-- The bytes that the test of four bytes looks at. -/
def offsets32 (bigEndian : Bool) : List Nat := if bigEndian then [3, 2, 0] else [0, 1, 3]

/-- The bytes that the test of eight bytes looks at. -/
def offsets64 (bigEndian : Bool) : List Nat :=
  if bigEndian then [7, 6, 4, 2, 0] else [0, 1, 3, 5, 7]

theorem testWord32_tests (bigEndian : Bool) {i : Nat} (h : i + 4 ≤ src.length) :
    ∃ hit, testWord32 bigEndian src i = some hit ∧ Tests src 5 hit i := by
  obtain ⟨x, hread, hexact⟩ := avRn_zeroLanes bigEndian
    (show [true, true, false, true].length = 4 from rfl) h
  have hoffsets : (∀ p ∈ (window bigEndian src 4 i).zip [true, true, false, true],
      p.2 = true → p.1 ≠ 0) ↔ ∀ k ∈ offsets32 bigEndian, byte src (i + k) ≠ 0 := by
    cases bigEndian <;> simp [window, offsets32, List.range_succ]
  refine ⟨_, by rw [testWord32, hread, Option.map_some],
    @tests_of_offsets src (offsets32 bigEndian) 5 i _ ?_ ?_ ?_ ?_⟩
  · rw [← hoffsets, ← hexact, decide_eq_false_iff_not, not_not]
    rfl
  · cases bigEndian <;> simp [offsets32] <;> lia
  · cases bigEndian <;> simp [offsets32]
  · cases bigEndian <;> decide

theorem testWord64_tests (bigEndian : Bool) {i : Nat} (h : i + 8 ≤ src.length) :
    ∃ hit, testWord64 bigEndian src i = some hit ∧ Tests src 9 hit i := by
  obtain ⟨x, hread, hexact⟩ := avRn_zeroLanes bigEndian
    (show [true, true, false, true, false, true, false, true].length = 8 from rfl) h
  have hoffsets : (∀ p ∈ (window bigEndian src 8 i).zip
      [true, true, false, true, false, true, false, true], p.2 = true → p.1 ≠ 0) ↔
        ∀ k ∈ offsets64 bigEndian, byte src (i + k) ≠ 0 := by
    cases bigEndian <;> simp [window, offsets64, List.range_succ]
  refine ⟨_, by rw [testWord64, hread, Option.map_some],
    @tests_of_offsets src (offsets64 bigEndian) 9 i _ ?_ ?_ ?_ ?_⟩
  · rw [← hoffsets, ← hexact, decide_eq_false_iff_not, not_not]
    rfl
  · cases bigEndian <;> simp [offsets64] <;> lia
  · cases bigEndian <;> simp [offsets64]
  · cases bigEndian <;> decide

theorem scan_found (build : Build) (hpadding : length + avInputBufferPaddingSize ≤ src.length) :
    ∃ r, build.scan src length = some r ∧ Found src length r := by
  have hsize : avInputBufferPaddingSize = 64 := rfl
  have hpast (p : Nat) (hp : p + 1 < 0) : ¬ Event src length p := absurd hp (Nat.not_lt_zero _)
  cases build with
  | bytewise => exact scanBytes_found hpast (by lia)
  | unaligned32 bigEndian =>
    exact scanWords_found (by decide) (fun i hi => testWord32_tests bigEndian (by lia)) hpast
      (by lia)
  | unaligned64 bigEndian =>
    exact scanWords_found (by decide) (fun i hi => testWord64_tests bigEndian (by lia)) hpast
      (by lia)

end Scan

/-! ## The plain definition -/

section Plain

variable {zeros di : Nat} {b : UInt8} {l rest : Bytes}

/-- Two zero bytes and a byte that the plain definition does not just copy. -/
def marked : Bytes → Bool
  | a :: b :: c :: _ => a = 0 && b = 0 && c ≠ 0 && c ≤ 3
  | _ => false

/-- The plain definition has copied a byte. -/
def Plain.cons (b : UInt8) (r : Plain) : Plain := ⟨b :: r.bytes, r.consumed + 1, r.skipped⟩

theorem plain_copy (hends : endsUnit (b :: rest) = false) (hdrop : ¬ (b = 3 ∧ 2 ≤ zeros)) :
    plain zeros di (b :: rest) =
      Plain.cons b (plain (if b = 0 then zeros + 1 else 0) (di + 1) rest) := by
  rw [plain, if_neg (by simp [hends]), if_neg hdrop]
  rfl

theorem endsUnit_of_not_marked (h : marked l = false) : endsUnit l = false := by
  match l with
  | a :: b :: c :: _ =>
    simp only [endsUnit, marked, Bool.and_eq_false_iff, decide_eq_false_iff_not,
      Bool.or_eq_false_iff] at h ⊢
    have hone : c = 1 → c ≠ 0 ∧ c ≤ 3 := by rintro rfl; decide
    have htwo : c = 2 → c ≠ 0 ∧ c ≤ 3 := by rintro rfl; decide
    tauto
  | [] => rfl
  | [_] => rfl
  | [_, _] => rfl

theorem plain_of_two_le (h : 2 ≤ zeros) (l : Bytes) : plain zeros di l = plain 2 di l := by
  induction l generalizing zeros di with
  | nil => rfl
  | cons b rest ih =>
    rw [plain, plain]
    by_cases hb : b = 0
    · subst hb
      simp only [if_true, ih (show 2 ≤ zeros + 1 by lia), ih (show 2 ≤ 2 + 1 by lia),
        show ¬ ((0 : UInt8) = 3) by decide, false_and, if_false]
    · simp only [hb, h, if_false, and_true, Nat.le_refl]

theorem plain_two (h : rest.head? ≠ some 3) : plain 2 di rest = plain 1 di rest := by
  cases rest with
  | nil => rfl
  | cons b rest =>
    have hb : b ≠ 3 := by simpa using h
    rw [plain, plain]
    by_cases hzero : b = 0
    · simp only [hb, false_and, if_false]
      rw [if_pos hzero, if_pos hzero, plain_of_two_le (show 2 ≤ 2 + 1 by lia)]
    · simp only [hb, hzero, false_and, if_false]

/-- The byte behind is not part of an escape that began in front. -/
def Clear (zeros : Nat) (l : Bytes) : Prop :=
  (2 ≤ zeros → l.head? ≠ some 3) ∧ (1 ≤ zeros → ∀ rest, l ≠ 0 :: 3 :: rest)

theorem plain_of_clear (h : Clear zeros l) : plain zeros di l = plain 0 di l := by
  cases l with
  | nil => rfl
  | cons b rest =>
    have hdrop : ¬ (b = 3 ∧ 2 ≤ zeros) := fun hb => h.1 hb.2 (by simp [hb.1])
    rw [plain, plain, if_neg hdrop, if_neg (show ¬ (b = 3 ∧ 2 ≤ 0) by lia)]
    by_cases hb : b = 0
    · subst hb
      rcases Nat.eq_zero_or_pos zeros with rfl | hpos
      · rfl
      · have hhead : rest.head? ≠ some 3 := by
          cases rest with
          | nil => simp
          | cons c rest => simpa using fun hc => h.2 hpos rest (by rw [hc])
        rw [if_pos rfl, if_pos rfl, plain_of_two_le (show 2 ≤ zeros + 1 by lia), plain_two hhead]
    · rw [if_neg hb, if_neg hb]

theorem plain_cons (h : marked (b :: rest) = false) :
    plain 0 di (b :: rest) = Plain.cons b (plain 0 (di + 1) rest) := by
  rw [plain_copy (endsUnit_of_not_marked h) (by lia), plain_of_clear]
  refine ⟨fun htwo => ?_, fun hone rest' heq => ?_⟩
  · split at htwo <;> lia
  · have hb : b = 0 := by
      by_contra hb
      rw [if_neg hb] at hone
      lia
    subst hb heq
    simp [marked] at h

theorem plain_append (front : Bytes)
    (h : ∀ p < front.length, marked ((front ++ l).drop p) = false) :
    plain 0 di (front ++ l) =
      ⟨front ++ (plain 0 (di + front.length) l).bytes,
        front.length + (plain 0 (di + front.length) l).consumed,
        (plain 0 (di + front.length) l).skipped⟩ := by
  induction front generalizing di with
  | nil => simp
  | cons b front ih =>
    have hhead : marked (b :: (front ++ l)) = false := h 0 (Nat.succ_pos _)
    rw [List.cons_append, plain_cons hhead, ih fun p hp => h (p + 1) (by simpa using hp)]
    simp only [Plain.cons, List.length_cons, Plain.mk.injEq,
      show di + 1 + front.length = di + (front.length + 1) by lia]
    exact ⟨rfl, by lia, trivial⟩

theorem marked_of_length (h : l.length ≤ 2) : marked l = false := by
  match l with
  | [] | [_] | [_, _] => rfl
  | _ :: _ :: _ :: _ => simp at h

theorem one_or_two {c : UInt8} (hle : c ≤ 3) (hzero : c ≠ 0) (hthree : c ≠ 3) : c = 1 ∨ c = 2 := by
  have hle' := UInt8.le_iff_toNat_le.1 hle
  have hzero' := mt UInt8.toNat_inj.1 hzero
  have hthree' := mt UInt8.toNat_inj.1 hthree
  simp only [← UInt8.toNat_inj]
  simp only [UInt8.toNat_ofNat, Nat.reducePow, Nat.reduceMod] at *
  lia

theorem plain_of_unmarked (h : ∀ p < l.length, marked (l.drop p) = false) :
    plain 0 di l = ⟨l, l.length, []⟩ := by
  have hall := @plain_append di [] l (by simpa using h)
  simpa [plain] using hall

/-- The records of the places where a byte was dropped. -/
def recordAll (realloc : Nat → Bool) : List Nat → H2645NAL → Except Failure H2645NAL
  | [], nal => .ok nal
  | pos :: rest, nal => nal.record realloc pos >>= recordAll realloc rest

/-- What the plain definition does to the locals of the copy. -/
def follow (realloc : Nat → Bool) (r : Plain) (s : Copy) : Except Failure Copy :=
  (recordAll realloc r.skipped s.nal).map fun nal =>
    { dst := s.dst ++ r.bytes, si := s.si + r.consumed, nal }

theorem follow_cons (realloc : Nat → Bool) (b : UInt8) (r : Plain) (s : Copy) :
    follow realloc (Plain.cons b r) s = follow realloc r (s.put [b]) := by
  simp only [follow, Plain.cons, Copy.put, List.append_assoc, List.singleton_append,
    List.length_singleton, Nat.add_assoc, Nat.add_comm 1]

theorem put_put (s : Copy) (front behind : Bytes) :
    (s.put front).put behind = s.put (front ++ behind) := by
  simp [Copy.put, Nat.add_assoc]

theorem plain_escape (di : Nat) (rest : Bytes) :
    plain 0 di (0 :: 0 :: 3 :: rest) =
      ⟨0 :: 0 :: (plain 0 (di + 2) rest).bytes, (plain 0 (di + 2) rest).consumed + 3,
        (di + 1) :: (plain 0 (di + 2) rest).skipped⟩ := by
  have hends : endsUnit (0 :: 0 :: 3 :: rest) = false := by simp [endsUnit]
  have hends' : endsUnit (0 :: 3 :: rest) = false := by
    cases rest <;> simp [endsUnit]
  have hends'' : endsUnit (3 :: rest) = false := by
    match rest with
    | [] | [_] => rfl
    | _ :: _ :: _ => simp [endsUnit]
  rw [plain_copy hends (by lia), if_pos rfl, plain_copy hends' (by lia), if_pos rfl, plain,
    if_neg (by simp [hends'']), if_pos ⟨rfl, Nat.le_refl 2⟩]
  rfl

theorem follow_escape (realloc : Nat → Bool) (s : Copy) :
    follow realloc (plain 0 s.dst.length (0 :: 0 :: 3 :: rest)) s =
      s.escape realloc >>= fun s' => follow realloc (plain 0 s'.dst.length rest) s' := by
  have hlength : (s.dst ++ [0, 0]).length = s.dst.length + 2 := by simp
  rw [plain_escape]
  simp only [follow, recordAll, Copy.escape, hlength,
    show s.dst.length + 2 - 1 = s.dst.length + 1 by lia]
  cases s.nal.record realloc (s.dst.length + 1) with
  | error e => rfl
  | ok nal =>
    simp only [Except.bind, bind, pure, Except.pure, hlength]
    cases recordAll realloc (plain 0 (s.dst.length + 2) rest).skipped nal with
    | error e => rfl
    | ok nal =>
      simp [Except.map, Nat.add_assoc, Nat.add_comm]

/-- The second loop is the plain definition; the induction is on what is left, with a case
for each branch of the loop. -/
theorem unescape_eq (realloc : Nat → Bool) (l : Bytes) (s : Copy) :
    unescape realloc l s = follow realloc (plain 0 s.dst.length l) s := by
  fun_induction unescape realloc l s with
  | case1 a b c rest s hc ih =>
    have hmarked : marked (a :: b :: c :: rest) = false := by
      simp [marked, UInt8.not_le.2 hc]
    have hmarked' : marked (b :: c :: rest) = false := by
      have hzero : c ≠ 0 := by
        rintro rfl
        exact absurd hc (by decide)
      cases rest <;> simp [marked, hzero]
    rw [ih, plain_cons hmarked, plain_cons hmarked', follow_cons, follow_cons, put_put]
    simp [Copy.put]
  | case2 a b rest s hle hzero ih =>
    obtain ⟨rfl, rfl, -⟩ := hzero
    rw [follow_escape]
    exact congrArg (s.escape realloc >>= ·) (funext ih)
  | case3 a b c rest s hle hzero hne =>
    have hends : endsUnit (a :: b :: c :: rest) = true := by
      simpa [endsUnit, hzero] using one_or_two (UInt8.not_lt.1 hle) hzero.2.2 hne
    rw [plain, if_pos hends]
    simp [follow, recordAll, Except.map]
  | case4 a b c rest s hle hzero ih =>
    have hmarked : marked (a :: b :: c :: rest) = false := by
      simp only [marked, Bool.and_eq_false_iff, decide_eq_false_iff_not]
      tauto
    rw [ih, plain_cons hmarked, follow_cons]
    simp [Copy.put]
  | case5 rest s hshort =>
    have hlength : rest.length ≤ 2 := by
      rcases rest with _ | ⟨a, _ | ⟨b, _ | ⟨c, rest⟩⟩⟩
      · simp
      · simp
      · simp
      · exact (hshort a b c rest rfl).elim
    rw [plain_of_unmarked fun p _ => marked_of_length (by simp; lia)]
    rfl

end Plain

/-! ## The whole function -/

section Extract

variable {src : Bytes} {length : Nat}

theorem byte_of_drop {p k : Nat} {b : UInt8} (h : ((src.take length).drop p)[k]? = some b) :
    p + k < length ∧ byte src (p + k) = b := by
  rw [List.getElem?_drop, List.getElem?_take] at h
  split at h
  · rename_i hlt
    exact ⟨hlt, by simp [byte, h]⟩
  · cases h

theorem marked_of_not_event {p : Nat} (h : ¬ Event src length p) :
    marked ((src.take length).drop p) = false := by
  match hl : (src.take length).drop p with
  | [] | [_] | [_, _] => rfl
  | a :: b :: c :: rest =>
    obtain ⟨-, ha⟩ := @byte_of_drop src length p 0 a (by simp [hl])
    obtain ⟨-, hb⟩ := @byte_of_drop src length p 1 b (by simp [hl])
    obtain ⟨hlt, hc⟩ := @byte_of_drop src length p 2 c (by simp [hl])
    have hnot : ¬ (a = 0 ∧ b = 0 ∧ c ≤ 3) := fun hall =>
      h ⟨hlt, ha.trans hall.1, hb.trans hall.2.1, hc ▸ hall.2.2⟩
    simp only [marked, Bool.and_eq_false_iff, decide_eq_false_iff_not]
    tauto

theorem plain_split {i : Nat} (hlength : length ≤ src.length) (hi : i ≤ length)
    (h : ∀ p < i, ¬ Event src length p) :
    plain 0 0 (src.take length) =
      ⟨src.take i ++ (plain 0 i ((src.take length).drop i)).bytes,
        i + (plain 0 i ((src.take length).drop i)).consumed,
        (plain 0 i ((src.take length).drop i)).skipped⟩ := by
  have hfront : (src.take length).take i = src.take i := by
    rw [List.take_take, Nat.min_eq_left hi]
  have hsize : (src.take i).length = i := by
    rw [List.length_take]
    lia
  have happend := @plain_append 0 ((src.take length).drop i) (src.take i)
    (by
      intro p hp
      rw [← hfront, List.take_append_drop]
      exact marked_of_not_event (h p (hsize ▸ hp)))
  rwa [hsize, Nat.zero_add, ← hfront, List.take_append_drop, hfront] at happend

/-- What a caller sees of a call. -/
def Outcome.output (src : Bytes) : Outcome → Except Failure (Nat × Bytes)
  | .returns ret nal _ => .ok (ret, nal.payload src)
  | .fails failure => .error failure

/-- What it sees by the plain definition. -/
def plainOutput (realloc : Nat → Bool) (src : Bytes) (length : Nat) (nal : H2645NAL) :
    Except Failure (Nat × Bytes) :=
  let r := plain 0 0 (src.take length)
  (recordAll realloc r.skipped nal.reset).map fun _ => (r.consumed, r.bytes)

theorem plain_of_no_event (hlength : length ≤ src.length) (h : ∀ p, ¬ Event src length p) :
    plain 0 0 (src.take length) = ⟨src.take length, length, []⟩ := by
  rw [plain_of_unmarked fun p _ => marked_of_not_event (h p), List.length_take,
    Nat.min_eq_left hlength]

theorem startcodeTest_event {i length' : Nat} (he : Event src length i)
    (hlength : length ≤ src.length) (htest : startcodeTest src length i = some length') :
    length' = length ∨ (length' = i ∧ endsUnit ((src.take length).drop i) = true) := by
  obtain ⟨hlt, ha, hb, hc⟩ := he
  rw [startcodeTest, if_pos ⟨hlt, hb, hc⟩] at htest
  split at htest
  · rename_i hcode
    refine Or.inr ⟨(Option.some.inj htest).symm, ?_⟩
    have hsize : (src.take length).length = length := by
      rw [List.length_take]
      lia
    rw [byte_eq (by lia)] at ha hb hcode hc
    rw [List.drop_eq_getElem_cons (by lia), List.drop_eq_getElem_cons (by lia),
      List.drop_eq_getElem_cons (by lia)]
    simpa [endsUnit, ha, hb] using one_or_two hc hcode.2 hcode.1
  · exact Or.inl (Option.some.inj htest).symm

theorem unescape_split {i : Nat} (realloc : Nat → Bool) (nal : H2645NAL)
    (hlength : length ≤ src.length) (hi : i ≤ length) (h : ∀ p < i, ¬ Event src length p) :
    unescape realloc ((src.take length).drop i) { dst := src.take i, si := i, nal } =
      (recordAll realloc (plain 0 0 (src.take length)).skipped nal).map fun nal =>
        { dst := (plain 0 0 (src.take length)).bytes
          si := (plain 0 0 (src.take length)).consumed, nal } := by
  have hsize : (src.take i).length = i := by
    rw [List.length_take]
    lia
  rw [unescape_eq, plain_split hlength hi h]
  simp only [follow, hsize]

theorem output_of_scan {build : Build} {i length' : Nat} (realloc : Nat → Bool)
    (hscan : build.scan src length = some (i, length')) (hlength : length' ≤ src.length)
    (h : ∀ p < i, ¬ Event src length' p) (rbsp : H2645RBSP) (nal : H2645NAL)
    (smallPadding : Bool) :
    (ffH2645ExtractRbsp build realloc src length rbsp nal smallPadding).map (Outcome.output src) =
      some (plainOutput realloc src length' nal) := by
  unfold ffH2645ExtractRbsp plainOutput
  simp only [hscan, Option.bind_eq_bind, Option.bind_some]
  by_cases hsmall : length' ≤ i + 1 ∧ smallPadding = true
  · rw [if_pos hsmall, plain_of_no_event hlength fun p he => h p (by have := he.1; lia) he]
    rfl
  · rw [if_neg hsmall]
    have hi : (if length' < i then length' else i) ≤ length' ∧
        (if length' < i then length' else i) ≤ i := by
      split <;> lia
    rw [unescape_split realloc nal.reset hlength hi.1 fun p hp => h p (by lia)]
    cases recordAll realloc (plain 0 0 (src.take length')).skipped nal.reset with
    | error failure => rfl
    | ok nal => simp [Except.map, Outcome.output, H2645NAL.payload]

/-- What a call gives is what the plain definition gives. -/
theorem ffH2645ExtractRbsp_output (build : Build) (realloc : Nat → Bool)
    (hpadding : length + avInputBufferPaddingSize ≤ src.length) (rbsp : H2645RBSP)
    (nal : H2645NAL) (smallPadding : Bool) :
    (ffH2645ExtractRbsp build realloc src length rbsp nal smallPadding).map (Outcome.output src) =
      some (plainOutput realloc src length nal) := by
  obtain ⟨⟨i, length'⟩, hscan, hfirst, hstop⟩ := scan_found build hpadding
  dsimp only at hfirst hstop
  have hlength : length ≤ src.length := by lia
  rcases hstop with ⟨rfl, -⟩ | ⟨he, htest⟩
  · exact output_of_scan realloc hscan hlength hfirst rbsp nal smallPadding
  · rcases startcodeTest_event he hlength htest with rfl | ⟨hat, hends⟩
    · exact output_of_scan realloc hscan hlength hfirst rbsp nal smallPadding
    · -- a start code: what is in front of it is copied either way
      subst hat
      have hi : length' ≤ length := by
        have := he.1
        lia
      have hfirst' (p : Nat) (hp : p < length') : ¬ Event src length' p := fun he' =>
        hfirst p hp ⟨by have := he'.1; lia, he'.2⟩
      have hplain : plain 0 0 (src.take length) = plain 0 0 (src.take length') := by
        rw [plain_split hlength hi hfirst,
          plain_of_no_event (by lia) fun p he' => hfirst' p (by have := he'.1; lia) he']
        have hend : plain 0 length' ((src.take length).drop length') = ⟨[], 0, []⟩ := by
          cases hrest : (src.take length).drop length' with
          | nil => rfl
          | cons b rest => rw [plain, if_pos (hrest ▸ hends)]
        simp [hend]
      rw [output_of_scan realloc hscan (by lia) hfirst' rbsp nal smallPadding]
      simp only [plainOutput, hplain]

theorem recordAll_ok {realloc : Nat → Bool} (hrealloc : ∀ n, realloc n = true) (skipped : List Nat)
    {nal : H2645NAL} (hsize : nal.skippedBytesPos.isSome →
      0 < nal.skippedBytesPosSize ∧ nal.skippedBytes ≤ nal.skippedBytesPosSize) :
    ∃ nal', recordAll realloc skipped nal = .ok nal' := by
  induction skipped generalizing nal with
  | nil => exact ⟨nal, rfl⟩
  | cons pos rest ih =>
    have hrecord : ∃ nal', nal.record realloc pos = .ok nal' ∧ (nal'.skippedBytesPos.isSome →
        0 < nal'.skippedBytesPosSize ∧ nal'.skippedBytes ≤ nal'.skippedBytesPosSize) := by
      unfold H2645NAL.record
      split
      · rename_i hsome
        obtain ⟨hpos, hle⟩ := hsize hsome
        dsimp only
        split
        · rw [if_neg (by lia), if_pos (hrealloc _)]
          refine ⟨_, rfl, fun _ => ?_⟩
          simp only [H2645NAL.store]
          lia
        · exact ⟨_, rfl, fun _ => ⟨hpos, by simp [H2645NAL.store]; lia⟩⟩
      · rename_i hnone
        exact ⟨nal, rfl, fun hsome => absurd hsome hnone⟩
    obtain ⟨nal', hrecord, hsize'⟩ := hrecord
    rw [recordAll, hrecord]
    exact ih hsize'

/-- The three scans give the same result, with either padding, and when the array of the
places can be had it is that of the plain definition. -/
theorem ffH2645ExtractRbsp_plain (realloc : Nat → Bool)
    (hpadding : length + avInputBufferPaddingSize ≤ src.length) (rbsp : H2645RBSP)
    (nal : H2645NAL) (hnal : nal.skippedBytesPos.isSome → 0 < nal.skippedBytesPosSize) :
    (∃ result, ∀ build smallPadding,
      (ffH2645ExtractRbsp build realloc src length rbsp nal smallPadding).map
        (Outcome.output src) = some result) ∧
    ((∀ n, realloc n = true) → ∀ build smallPadding,
      (ffH2645ExtractRbsp build realloc src length rbsp nal smallPadding).map
        (Outcome.output src) = some (.ok
          ((plain 0 0 (src.take length)).consumed, (plain 0 0 (src.take length)).bytes))) := by
  refine ⟨⟨_, fun build smallPadding =>
    ffH2645ExtractRbsp_output build realloc hpadding rbsp nal smallPadding⟩,
    fun hrealloc build smallPadding => ?_⟩
  obtain ⟨nal', hnal'⟩ := recordAll_ok hrealloc (plain 0 0 (src.take length)).skipped
    (show nal.reset.skippedBytesPos.isSome → _ from fun hsome =>
      ⟨hnal (by simpa [H2645NAL.reset] using hsome), Nat.zero_le _⟩)
  rw [ffH2645ExtractRbsp_output build realloc hpadding, plainOutput, hnal']
  rfl

/-- A unit with an escape and a start code behind it. -/
theorem ffH2645ExtractRbsp_plain_escape :
    (ffH2645ExtractRbsp (.unaligned64 false) (fun _ => true)
      ([9, 0, 0, 3, 1, 0, 0, 1] ++ List.replicate 64 0) 8 ⟨0⟩ ⟨.source, 0, 0, 0, 1, some []⟩
        false).map (Outcome.output ([9, 0, 0, 3, 1, 0, 0, 1] ++ List.replicate 64 0)) =
      some (.ok (5, [9, 0, 0, 1])) :=
  (ffH2645ExtractRbsp_plain (fun _ => true) (by decide) ⟨0⟩ ⟨.source, 0, 0, 0, 1, some []⟩
    (fun _ => by decide)).2 (fun _ => rfl) (.unaligned64 false) false

end Extract

end FFmpeg.Libavcodec.H2645Rbsp
