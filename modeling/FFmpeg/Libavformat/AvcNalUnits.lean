import FFmpeg.Libavformat.Avc
import FFmpeg.Libavformat.AviobufWrite

/-!
# From start codes to lengths

A byte stream with start codes is a list of NAL units, each with a start code of
three or four bytes in front.  The search finds the first start code whatever the
alignment is, so the conversion writes the units one after the other.  What it
returns is an `int`, which holds the number of bytes below `2 ^ 31`.
-/

namespace FFmpeg.Libavformat.AvcNalUnits

open Common Avio Avc

/-! ## The stream -/

/-- A NAL unit as a stream with start codes can carry it. -/
structure NalUnit where
  bytes : Bytes
  nonempty : bytes ≠ []
  noEmulation : ∀ b ∈ [0, 1, 2], ¬ [0, 0, b] <:+: bytes
  last_ne : bytes.getLast nonempty ≠ 0

/-- The two start codes. -/
inductive Startcode
  | three
  | four
  deriving DecidableEq, Repr

/-- The bytes of a start code. -/
def Startcode.bytes : Startcode → Bytes
  | three => [0, 0, 1]
  | four => [0, 0, 0, 1]

/-- The stream: each unit behind its start code. -/
def annexB (units : List (Startcode × NalUnit)) : Bytes :=
  units.flatMap fun u => u.1.bytes ++ u.2.bytes

/-- Each unit behind its length. -/
def lengthPrefixed (units : List (Startcode × NalUnit)) : Bytes :=
  units.flatMap fun u => putBE 4 u.2.bytes.length ++ u.2.bytes

theorem NalUnit.length_pos (u : NalUnit) : 0 < u.bytes.length :=
  List.length_pos_iff.mpr u.nonempty

theorem annexB_cons (u : Startcode × NalUnit) (units : List (Startcode × NalUnit)) :
    annexB (u :: units) = u.1.bytes ++ (u.2.bytes ++ annexB units) := by
  rw [annexB, List.flatMap_cons, List.append_assoc]
  rfl

theorem lengthPrefixed_cons (u : Startcode × NalUnit) (units : List (Startcode × NalUnit)) :
    lengthPrefixed (u :: units) = putBE 4 u.2.bytes.length ++ (u.2.bytes ++ lengthPrefixed units) := by
  rw [lengthPrefixed, List.flatMap_cons, List.append_assoc]
  rfl

/-! ## The test on a word -/

variable {i : Nat}

theorem topBit_of_test {n : Nat} (hn : n < 2 ^ 32)
    (h : (UInt32.ofNat n - 0x01010101) &&& ~~~(UInt32.ofNat n) &&& 0x80808080 = 0)
    (hi : i = 7 ∨ i = 15 ∨ i = 23 ∨ i = 31) :
    (n + (2 ^ 32 - 0x01010101)) / 2 ^ i % 2 = 0 ∨ n / 2 ^ i % 2 = 1 := by
  have hbit := congrArg (fun x : UInt32 => x.toNat.testBit i) h
  have hx : (UInt32.ofNat n).toNat = n := by
    rw [UInt32.toNat_ofNat', Nat.mod_eq_of_lt hn]
  simp only [UInt32.toNat_and, Nat.testBit_and, UInt32.toNat_not, UInt32.toNat_sub, hx] at hbit
  simp only [Nat.testBit_eq_decide_div_mod_eq] at hbit
  rcases hi with rfl | rfl | rfl | rfl <;> simp at hbit <;> lia

/-- A word that fails the test has no zero byte: below the lowest one there would be
no borrow, and it would keep its top bit clear while the subtraction sets it. -/
theorem ne_zero_of_test {b₀ b₁ b₂ b₃ : UInt8}
    (h : (UInt32.ofNat (getLE [b₀, b₁, b₂, b₃]) - 0x01010101) &&&
      ~~~(UInt32.ofNat (getLE [b₀, b₁, b₂, b₃])) &&& 0x80808080 = 0) :
    b₀ ≠ 0 ∧ b₁ ≠ 0 ∧ b₂ ≠ 0 ∧ b₃ ≠ 0 := by
  have h₀ := b₀.toNat_lt
  have h₁ := b₁.toNat_lt
  have h₂ := b₂.toNat_lt
  have h₃ := b₃.toNat_lt
  simp only [← UInt8.toNat_inj, ne_eq, UInt8.toNat_zero]
  simp only [getLE, Nat.mul_zero, Nat.add_zero] at h
  generalize b₀.toNat = x₀ at *
  generalize b₁.toNat = x₁ at *
  generalize b₂.toNat = x₂ at *
  generalize b₃.toNat = x₃ at *
  have t₀ := topBit_of_test (by lia) h (Or.inl rfl)
  have t₁ := topBit_of_test (by lia) h (Or.inr (Or.inl rfl))
  have t₂ := topBit_of_test (by lia) h (Or.inr (Or.inr (Or.inl rfl)))
  have t₃ := topBit_of_test (by lia) h (Or.inr (Or.inr (Or.inr rfl)))
  have hx₀ : ¬ x₀ = 0 := by lia
  have hx₁ : ¬ x₁ = 0 := by lia
  have hx₂ : ¬ x₂ = 0 := by lia
  exact ⟨hx₀, hx₁, hx₂, by lia⟩

variable {bigEndian : Bool} {buf : Bytes} {p : Nat}

theorem loadWord_test
    (h : (loadWord bigEndian buf p - 0x01010101) &&& ~~~(loadWord bigEndian buf p) &&& 0x80808080 = 0) :
    byte buf (p + 1) ≠ 0 ∧ byte buf (p + 3) ≠ 0 := by
  cases bigEndian with
  | false =>
    obtain ⟨-, h₁, -, h₃⟩ := ne_zero_of_test h
    exact ⟨h₁, h₃⟩
  | true =>
    have hreverse : loadWord true buf p = UInt32.ofNat (getLE
        [byte buf (p + 3), byte buf (p + 2), byte buf (p + 1), byte buf p]) := by
      simp only [loadWord, if_true, getBE, getLE]
      congr 1
      simp
      ring
    rw [hreverse] at h
    obtain ⟨h₃, -, h₁, -⟩ := ne_zero_of_test h
    exact ⟨h₁, h₃⟩

/-! ## The search -/

/-- There is no start code from `lo` on and before `hi`. -/
def NoStartcode (buf : Bytes) (lo hi : Nat) : Prop :=
  ∀ q, lo ≤ q → q < hi → isStartcode buf q = false

theorem isStartcode_iff {q : Nat} :
    isStartcode buf q = true ↔ byte buf q = 0 ∧ byte buf (q + 1) = 0 ∧ byte buf (q + 2) = 1 := by
  simp [isStartcode, and_assoc]

/-- What a loop of the search may do that starts at `p`: it returns the first start
code before `hi`, or ends at an offset from `stop` on without having passed one. -/
def Searches (buf : Bytes) (stop : Int) (hi p : Nat) (r : Except Nat Nat) : Prop :=
  match r with
  | .error q => p ≤ q ∧ (q : Int) < hi ∧ isStartcode buf q = true ∧ NoStartcode buf p q
  | .ok p' => p ≤ p' ∧ stop ≤ p' ∧ NoStartcode buf p p'

theorem NoStartcode.trans {q r : Nat} (h₁ : NoStartcode buf p q) (h₂ : NoStartcode buf q r) :
    NoStartcode buf p r := by
  intro i hp hr
  by_cases hq : i < q
  · exact h₁ i hp hq
  · exact h₂ i (by lia) hr

theorem noStartcode_self (buf : Bytes) (p : Nat) : NoStartcode buf p p :=
  fun _ hp hq => absurd hq (by lia)

variable {stop : Int} {r : Except Nat Nat}

theorem Searches.after {hi q : Nat} (hpq : p ≤ q) (hfree : NoStartcode buf p q)
    (h : Searches buf stop hi q r) :
    Searches buf stop hi p r := by
  cases r with
  | error i =>
    obtain ⟨hle, hlt, hcode, hbefore⟩ := h
    exact ⟨hpq.trans hle, hlt, hcode, hfree.trans hbefore⟩
  | ok i =>
    obtain ⟨hle, hstop, hbefore⟩ := h
    exact ⟨hpq.trans hle, hstop, hfree.trans hbefore⟩

variable {rounds : Nat}

theorem scanBytes_searches {hi : Nat} (hstop : stop ≤ hi) (hrounds : stop ≤ p + rounds) :
    Searches buf stop hi p (scanBytes buf stop rounds p) := by
  induction rounds generalizing p with
  | zero => exact ⟨le_rfl, by simpa using hrounds, noStartcode_self buf p⟩
  | succ rounds ih =>
    unfold scanBytes
    by_cases hlt : (p : Int) < stop
    · rw [if_pos hlt]
      cases hcode : isStartcode buf p with
      | true => exact ⟨le_rfl, by lia, hcode, noStartcode_self buf p⟩
      | false =>
        refine (ih (by push_cast at hrounds ⊢; lia)).after (Nat.le_succ p) ?_
        intro q hp hq
        obtain rfl : q = p := by lia
        exact hcode
    · rw [if_neg hlt]
      exact ⟨le_rfl, by lia, noStartcode_self buf p⟩

theorem NoStartcode.succ {q : Nat} (h : NoStartcode buf p q) (hq : ¬ isStartcode buf q = true) :
    NoStartcode buf p (q + 1) := by
  intro i hp hi
  by_cases hlt : i < q
  · exact h i hp hlt
  · obtain rfl : i = q := by lia
    exact eq_false_of_ne_true hq

/-- The nested tests find the first start code of the four at a word. -/
theorem startcodeInWord_cases (buf : Bytes) (p : Nat) :
    (∃ q, startcodeInWord buf p = some q ∧ p ≤ q ∧ q < p + 4 ∧ isStartcode buf q = true ∧
      NoStartcode buf p q) ∨
    startcodeInWord buf p = none ∧ NoStartcode buf p (p + 4) := by
  have h₀ : (byte buf (p + 1) = 0 ∧ byte buf p = 0 ∧ byte buf (p + 2) = 1) ↔
      isStartcode buf p = true := by rw [isStartcode_iff]; tauto
  have h₁ : (byte buf (p + 1) = 0 ∧ byte buf (p + 2) = 0 ∧ byte buf (p + 3) = 1) ↔
      isStartcode buf (p + 1) = true := isStartcode_iff.symm
  have h₂ : (byte buf (p + 3) = 0 ∧ byte buf (p + 2) = 0 ∧ byte buf (p + 4) = 1) ↔
      isStartcode buf (p + 2) = true := by rw [isStartcode_iff]; tauto
  have h₃ : (byte buf (p + 3) = 0 ∧ byte buf (p + 4) = 0 ∧ byte buf (p + 5) = 1) ↔
      isStartcode buf (p + 3) = true := isStartcode_iff.symm
  have hfree₀ := noStartcode_self buf p
  unfold startcodeInWord
  rw [if_congr h₀ rfl rfl, if_congr h₁ rfl rfl, if_congr h₂ rfl rfl, if_congr h₃ rfl rfl]
  by_cases hcode₀ : isStartcode buf p = true
  · exact Or.inl ⟨p, if_pos hcode₀, by lia, by lia, hcode₀, hfree₀⟩
  have hfree₁ := hfree₀.succ hcode₀
  rw [if_neg hcode₀]
  by_cases hcode₁ : isStartcode buf (p + 1) = true
  · exact Or.inl ⟨p + 1, if_pos hcode₁, by lia, by lia, hcode₁, hfree₁⟩
  have hfree₂ := hfree₁.succ hcode₁
  rw [if_neg hcode₁]
  by_cases hcode₂ : isStartcode buf (p + 2) = true
  · exact Or.inl ⟨p + 2, if_pos hcode₂, by lia, by lia, hcode₂, hfree₂⟩
  have hfree₃ := hfree₂.succ hcode₂
  rw [if_neg hcode₂]
  by_cases hcode₃ : isStartcode buf (p + 3) = true
  · exact Or.inl ⟨p + 3, if_pos hcode₃, by lia, by lia, hcode₃, hfree₃⟩
  · exact Or.inr ⟨if_neg hcode₃, hfree₃.succ hcode₃⟩

theorem noStartcode_of_test
    (h : (loadWord bigEndian buf p - 0x01010101) &&& ~~~(loadWord bigEndian buf p) &&& 0x80808080 = 0) :
    NoStartcode buf p (p + 4) := by
  obtain ⟨hone, hthree⟩ := loadWord_test h
  -- each of the four start codes needs the second or the fourth byte to be zero
  have hcode : ∀ q, q = p ∨ q = p + 1 ∨ q = p + 2 ∨ q = p + 3 → ¬ isStartcode buf q = true := by
    intro q hq hcode
    obtain ⟨hzero, hzero', -⟩ := isStartcode_iff.mp hcode
    rcases hq with rfl | rfl | rfl | rfl
    · exact hone hzero'
    · exact hone hzero
    · exact hthree hzero'
    · exact hthree hzero
  intro q hp hq
  exact eq_false_of_ne_true (hcode q (by lia))

theorem scanWords_searches {hi : Nat} (hstop : stop + 3 ≤ hi) (hrounds : stop ≤ p + rounds) :
    Searches buf stop hi p (scanWords bigEndian buf stop rounds p) := by
  induction rounds generalizing p with
  | zero => exact ⟨le_rfl, by simpa using hrounds, noStartcode_self buf p⟩
  | succ rounds ih =>
    have hrest := ih (p := p + 4) (by push_cast at hrounds ⊢; lia)
    unfold scanWords
    by_cases hlt : (p : Int) < stop
    · rw [if_pos hlt]
      by_cases htest : (loadWord bigEndian buf p - 0x01010101) &&& ~~~(loadWord bigEndian buf p) &&&
          0x80808080 = 0
      · rw [if_neg (not_not.mpr htest)]
        exact hrest.after (Nat.le_add_right p 4) (noStartcode_of_test htest)
      · rw [if_pos htest]
        rcases startcodeInWord_cases buf p with ⟨q, hword, hle, hq, hcode, hfree⟩ | ⟨hword, hfree⟩
        · rw [hword]
          exact ⟨hle, by lia, hcode, hfree⟩
        · rw [hword]
          exact hrest.after (Nat.le_add_right p 4) hfree
    · rw [if_neg hlt]
      exact ⟨le_rfl, by lia, noStartcode_self buf p⟩

theorem Searches.bind {stop' : Int} {hi : Nat} {next : Nat → Except Nat Nat}
    (h : Searches buf stop hi p r) (hnext : ∀ q, p ≤ q → Searches buf stop' hi q (next q)) :
    Searches buf stop' hi p (r >>= next) := by
  cases r with
  | error q => exact h
  | ok q => exact (hnext q h.1).after h.1 h.2.2

/-- Whatever the alignment is, the search finds the first start code that has a byte
behind it. -/
theorem searchStartcode_searches (bigEndian : Bool) (address : Nat) (buf : Bytes) {fin : Nat}
    (hp : p ≤ fin) :
    Searches buf (fin - 3) (fin - 3) p (searchStartcode bigEndian address buf p fin) := by
  refine Searches.bind (scanBytes_searches (by lia) (by lia)) fun q hq => ?_
  refine Searches.bind (scanWords_searches (by lia) (by lia)) fun q' hq' => ?_
  exact scanBytes_searches (by lia) (by lia)

variable {address : Nat}

theorem ffAvcFindStartcodeInternal_eq {q fin : Nat} (hp : p ≤ q) (hq : q + 3 < fin)
    (hcode : isStartcode buf q = true) (hfree : NoStartcode buf p q) :
    ffAvcFindStartcodeInternal bigEndian address buf p fin = q := by
  have hsearch := searchStartcode_searches bigEndian address buf (show p ≤ fin by lia)
  unfold ffAvcFindStartcodeInternal
  cases hr : searchStartcode bigEndian address buf p fin with
  | error i =>
    rw [hr] at hsearch
    obtain ⟨hle, -, hcode', hbefore⟩ := hsearch
    rcases Nat.lt_trichotomy i q with hlt | heq | hgt
    · exact absurd hcode' (Bool.eq_false_iff.mp (hfree i hle hlt))
    · exact heq
    · exact absurd hcode (Bool.eq_false_iff.mp (hbefore q hp hgt))
  | ok i =>
    rw [hr] at hsearch
    obtain ⟨-, hstop, hbefore⟩ := hsearch
    exact absurd hcode (Bool.eq_false_iff.mp (hbefore q hp (by lia)))

theorem ffAvcFindStartcodeInternal_end {fin : Nat} (hp : p ≤ fin) (hfree : NoStartcode buf p fin) :
    ffAvcFindStartcodeInternal bigEndian address buf p fin = fin := by
  have hsearch := searchStartcode_searches bigEndian address buf hp
  unfold ffAvcFindStartcodeInternal
  cases hr : searchStartcode bigEndian address buf p fin with
  | error i =>
    rw [hr] at hsearch
    obtain ⟨hle, hlt, hcode, -⟩ := hsearch
    exact absurd hcode (Bool.eq_false_iff.mp (hfree i hle (by lia)))
  | ok i => rfl

/-! ## Units in the stream -/

theorem byte_append_add (pre l : Bytes) (i : Nat) : byte (pre ++ l) (pre.length + i) = byte l i := by
  rw [byte, byte, List.getD_eq_getElem?_getD, List.getD_eq_getElem?_getD,
    List.getElem?_append_right (Nat.le_add_right _ _), Nat.add_sub_cancel_left]

theorem byte_append_lt {l : Bytes} (h : i < l.length) (rest : Bytes) :
    byte (l ++ rest) i = byte l i := by
  rw [byte, byte, List.getD_eq_getElem?_getD, List.getD_eq_getElem?_getD,
    List.getElem?_append_left h]

theorem byte_eq_getElem {l : Bytes} (h : i < l.length) : byte l i = l[i] := by
  rw [byte, List.getD_eq_getElem?_getD, List.getElem?_eq_getElem h, Option.getD_some]

theorem isStartcode_append_add (pre l : Bytes) (i : Nat) :
    isStartcode (pre ++ l) (pre.length + i) = isStartcode l i := by
  unfold isStartcode
  rw [byte_append_add, Nat.add_assoc, byte_append_add, Nat.add_assoc, byte_append_add]

/-- What a stream with start codes can carry between two of them. -/
structure Carried (l : Bytes) : Prop where
  nonempty : l ≠ []
  noStartcode : ¬ [0, 0, 1] <:+: l
  last_ne : l.getLast nonempty ≠ 0

theorem NalUnit.carried (u : NalUnit) : Carried u.bytes :=
  ⟨u.nonempty, u.noEmulation 1 (by simp), u.last_ne⟩

section Carried

variable {l : Bytes}

theorem Carried.length_pos (h : Carried l) : 0 < l.length :=
  List.length_pos_iff.mpr h.nonempty

theorem Carried.byte_last_ne (h : Carried l) (rest : Bytes) {k : Nat} (hk : k + 1 = l.length) :
    byte (l ++ rest) k ≠ 0 := by
  intro hzero
  apply h.last_ne
  rw [byte_append_lt (by lia), byte_eq_getElem (by lia)] at hzero
  rw [List.getLast_eq_getElem, ← hzero]
  congr 1
  lia

/-- No start code begins in a unit, whatever follows: its last byte would be one of the
two zeros of it. -/
theorem Carried.isStartcode_eq_false (h : Carried l) (rest : Bytes) {i : Nat}
    (hi : i < l.length) : isStartcode (l ++ rest) i = false := by
  apply eq_false_of_ne_true
  intro hcode
  obtain ⟨h₀, h₁, h₂⟩ := isStartcode_iff.mp hcode
  rcases Nat.lt_or_ge (i + 2) l.length with hinside | hoverlap
  · apply h.noStartcode
    rw [byte_append_lt (by lia), byte_eq_getElem (by lia)] at h₀ h₁ h₂
    refine ⟨l.take i, l.drop (i + 3), ?_⟩
    have hdrop : l.drop i = [0, 0, 1] ++ l.drop (i + 3) := by
      rw [List.drop_eq_getElem_cons (by lia), List.drop_eq_getElem_cons (by lia),
        List.drop_eq_getElem_cons (by lia), h₀, h₁, h₂]
      rfl
    rw [List.append_assoc, ← hdrop, List.take_append_drop]
  · rcases Nat.lt_or_ge (i + 1) l.length with hlt | hge
    · exact h.byte_last_ne rest (by lia) h₁
    · exact h.byte_last_ne rest (by lia) h₀

theorem Carried.noStartcode_append (h : Carried l) (pre rest : Bytes) :
    NoStartcode (pre ++ (l ++ rest)) pre.length (pre.length + l.length) := by
  intro q hp hq
  have hcode := isStartcode_append_add pre (l ++ rest) (q - pre.length)
  rw [Nat.add_sub_cancel' hp] at hcode
  rw [hcode]
  exact h.isStartcode_eq_false rest (by lia)

end Carried

theorem Startcode.length_bounds (c : Startcode) : 3 ≤ c.bytes.length ∧ c.bytes.length ≤ 4 := by
  cases c <;> decide

variable {c : Startcode}

/-- A start code in the stream is found behind a stretch without one; the zero in front
of a long one belongs to it. -/
theorem ffAvcFindStartcode_code {pre rest : Bytes} {start : Nat}
    (hbuf : buf = pre ++ (c.bytes ++ rest)) (hrest : rest ≠ []) (hstart : start ≤ pre.length)
    (hfree : NoStartcode buf start pre.length)
    (hlast : start < pre.length → byte buf (pre.length - 1) ≠ 0) :
    ffAvcFindStartcode bigEndian address buf start buf.length = pre.length := by
  have hpos := List.length_pos_iff.mpr hrest
  have hlength : buf.length = pre.length + (c.bytes.length + rest.length) := by
    rw [hbuf, List.length_append, List.length_append]
  have hcode : ∀ i, isStartcode buf (pre.length + i) = isStartcode (c.bytes ++ rest) i := by
    intro i
    rw [hbuf, isStartcode_append_add]
  unfold ffAvcFindStartcode
  cases c with
  | three =>
    have hthree : Startcode.three.bytes.length = 3 := rfl
    rw [ffAvcFindStartcodeInternal_eq hstart (by lia) (hcode 0) hfree]
    exact if_neg fun h => hlast h.1 h.2.2
  | four =>
    have hfour : Startcode.four.bytes.length = 4 := rfl
    have hzero : isStartcode buf pre.length = false := hcode 0
    have hbyte : byte buf pre.length = 0 := by
      rw [hbuf]
      exact byte_append_add pre _ 0
    rw [ffAvcFindStartcodeInternal_eq (q := pre.length + 1) (by lia) (by lia) (hcode 1)
      (hfree.succ (Bool.eq_false_iff.mp hzero))]
    exact if_pos ⟨by lia, by lia, hbyte⟩

/-- Behind the last unit the search ends. -/
theorem ffAvcFindStartcode_end {start : Nat} (hstart : start ≤ buf.length)
    (hfree : NoStartcode buf start buf.length) :
    ffAvcFindStartcode bigEndian address buf start buf.length = buf.length := by
  unfold ffAvcFindStartcode
  rw [ffAvcFindStartcodeInternal_end hstart hfree]
  exact if_neg fun h => absurd h.2.1 (lt_irrefl _)

/-- The rest of a stream: nothing, or a start code and what it announces. -/
def StartsWithCode (rest : Bytes) : Prop :=
  rest = [] ∨ ∃ (c : Startcode) (more : Bytes), more ≠ [] ∧ rest = c.bytes ++ more

theorem startsWithCode_annexB (units : List (Startcode × NalUnit)) :
    StartsWithCode (annexB units) := by
  cases units with
  | nil => exact Or.inl rfl
  | cons u units =>
    refine Or.inr ⟨u.1, u.2.bytes ++ annexB units, ?_, annexB_cons u units⟩
    exact List.append_ne_nil_of_left_ne_nil u.2.nonempty _

theorem ffAvcFindStartcode_zero (bigEndian : Bool) (address : Nat) (h : StartsWithCode buf) :
    ffAvcFindStartcode bigEndian address buf 0 buf.length = 0 := by
  rcases h with rfl | ⟨c, more, hmore, hbuf⟩
  · exact ffAvcFindStartcode_end le_rfl (noStartcode_self _ _)
  · have hnil : buf = [] ++ (c.bytes ++ more) := hbuf
    exact ffAvcFindStartcode_code hnil hmore le_rfl (noStartcode_self _ _)
      fun h => absurd h (lt_irrefl _)

theorem ffAvcFindStartcode_nalEnd (bigEndian : Bool) (address : Nat) (pre : Bytes) {l rest : Bytes}
    (h : Carried l) (hrest : StartsWithCode rest) (hbuf : buf = pre ++ (l ++ rest)) :
    ffAvcFindStartcode bigEndian address buf pre.length buf.length = pre.length + l.length := by
  have hfree : NoStartcode buf pre.length (pre.length + l.length) := by
    rw [hbuf]
    exact h.noStartcode_append pre rest
  rcases hrest with rfl | ⟨c, more, hmore, rfl⟩
  · have hlength : buf.length = pre.length + l.length := by
      rw [hbuf, List.length_append, List.append_nil]
    rw [← hlength] at hfree ⊢
    exact ffAvcFindStartcode_end (by lia) hfree
  · have hsplit : buf = (pre ++ l) ++ (c.bytes ++ more) := by
      rw [hbuf, List.append_assoc]
    have hlength : (pre ++ l).length = pre.length + l.length := List.length_append
    rw [← hlength] at hfree ⊢
    refine ffAvcFindStartcode_code hsplit hmore (by lia) hfree fun _ => ?_
    have hunit := h.length_pos
    have hbyte := byte_append_add pre (l ++ (c.bytes ++ more)) (l.length - 1)
    rw [hlength, hbuf, Nat.add_sub_assoc hunit, hbyte]
    exact h.byte_last_ne _ (by lia)

theorem length_annexB_cons (u : Startcode × NalUnit) (units : List (Startcode × NalUnit)) :
    (annexB (u :: units)).length =
      u.1.bytes.length + (u.2.bytes.length + (annexB units).length) := by
  rw [annexB_cons, List.length_append, List.length_append]

/-! ## The conversion -/

theorem skipStartcode_zero {fin : Nat} (hp : p < fin) (hzero : byte buf p = 0) (rounds : Nat) :
    skipStartcode buf fin (rounds + 1) p = skipStartcode buf fin rounds (p + 1) := by
  rw [skipStartcode, if_pos hp, if_pos hzero]

theorem skipStartcode_one {fin : Nat} (hp : p < fin) (hone : byte buf p = 1) (rounds : Nat) :
    skipStartcode buf fin (rounds + 1) p = p + 1 := by
  rw [skipStartcode, if_pos hp, if_neg (by rw [hone]; decide)]

theorem skipStartcode_eq {pre rest : Bytes} (hbuf : buf = pre ++ (c.bytes ++ rest))
    (hrounds : c.bytes.length ≤ rounds) :
    skipStartcode buf buf.length rounds pre.length = pre.length + c.bytes.length := by
  have hlength : buf.length = pre.length + (c.bytes.length + rest.length) := by
    rw [hbuf, List.length_append, List.length_append]
  have hbyte : ∀ i, byte buf (pre.length + i) = byte (c.bytes ++ rest) i := fun i => by
    rw [hbuf, byte_append_add]
  obtain ⟨spare, rfl⟩ := Nat.exists_eq_add_of_le' hrounds
  cases c with
  | three =>
    have hthree : Startcode.three.bytes.length = 3 := rfl
    rw [hthree] at hlength ⊢
    have h₀ : byte buf pre.length = 0 := hbyte 0
    rw [skipStartcode_zero (by lia) h₀, skipStartcode_zero (by lia) (hbyte 1),
      skipStartcode_one (by lia) (hbyte 2)]
  | four =>
    have hfour : Startcode.four.bytes.length = 4 := rfl
    rw [hfour] at hlength ⊢
    have h₀ : byte buf pre.length = 0 := hbyte 0
    rw [skipStartcode_zero (by lia) h₀, skipStartcode_zero (by lia) (hbyte 1),
      skipStartcode_zero (by lia) (hbyte 2), skipStartcode_one (by lia) (hbyte 3)]

variable {ω : Type} {cb : Callbacks ω}

/-- The calls that write one unit behind its length. -/
def writeUnit (cb : Callbacks ω) (pb : AVIOContext ω) (u : Startcode × NalUnit) : AVIOContext ω :=
  avioWrite cb (avioWb32 cb pb u.2.bytes.length) u.2.bytes

theorem toInt_toInt_add (m n : Int) : toInt (toInt m + n) = toInt (m + n) := Int.bmod_add_bmod

theorem toInt_eq_iff (n : Nat) : toInt n = n ↔ n < 2 ^ 31 := by
  constructor
  · intro h
    have hlt := Int.bmod_lt (x := n) (m := 2 ^ 32) (by norm_num)
    rw [toInt] at h
    rw [h] at hlt
    norm_num at hlt
    lia
  · intro h
    norm_num at h
    have hlow : -(((2 ^ 32 : Nat) / 2 : Nat) : Int) ≤ n := by lia
    exact Int.bmod_eq_of_le hlow (by norm_num; lia)

variable {units : List (Startcode × NalUnit)}

/-- The loop, from a start code on; the induction is on the units behind it. -/
theorem parseNalUnitsLoop_eq {pre : Bytes} (hbuf : buf = pre ++ annexB units)
    (hrounds : buf.length < pre.length + rounds) (pb : AVIOContext ω) (size : Int) :
    parseNalUnitsLoop cb bigEndian address buf buf.length rounds pb (toInt size) pre.length =
      (units.foldl (writeUnit cb) pb, toInt (size + (lengthPrefixed units).length)) := by
  induction units generalizing pre rounds pb size with
  | nil =>
    have hlength : buf.length = pre.length := by rw [hbuf, annexB, List.flatMap_nil, List.append_nil]
    obtain ⟨spare, rfl⟩ := Nat.exists_eq_add_of_le' (show 1 ≤ rounds by lia)
    rw [parseNalUnitsLoop, hlength, Nat.sub_self, skipStartcode]
    dsimp only
    rw [if_pos rfl, lengthPrefixed, List.flatMap_nil, List.length_nil, Nat.cast_zero, Int.add_zero]
    rfl
  | cons u units ih =>
    have hunit := u.2.length_pos
    have hcode := u.1.length_bounds
    have hlength : buf.length = pre.length + (annexB (u :: units)).length := by
      rw [hbuf, List.length_append]
    rw [length_annexB_cons] at hlength
    rw [annexB_cons] at hbuf
    have hbuf' : buf = (pre ++ u.1.bytes) ++ (u.2.bytes ++ annexB units) := by
      rw [hbuf, List.append_assoc]
    have hbuf'' : buf = (pre ++ u.1.bytes ++ u.2.bytes) ++ annexB units := by
      rw [hbuf, List.append_assoc, List.append_assoc]
    have hpre : (pre ++ u.1.bytes).length = pre.length + u.1.bytes.length := List.length_append
    obtain ⟨spare, rfl⟩ := Nat.exists_eq_add_of_le' (show 1 ≤ rounds by lia)
    have hstart := skipStartcode_eq hbuf
      (show u.1.bytes.length ≤ buf.length - pre.length by lia)
    rw [← hpre] at hstart
    have hend := ffAvcFindStartcode_nalEnd bigEndian address _ u.2.carried
      (startsWithCode_annexB units) hbuf'
    have hslice : slice buf (pre ++ u.1.bytes).length u.2.bytes.length = u.2.bytes := by
      rw [slice, hbuf', List.drop_left, List.take_left]
    have hcount : ((4 : Int) + ((pre ++ u.1.bytes).length + u.2.bytes.length : Nat) -
        (pre ++ u.1.bytes).length : Int) = 4 + u.2.bytes.length := by
      lia
    have htotal : (lengthPrefixed (u :: units)).length =
        4 + (u.2.bytes.length + (lengthPrefixed units).length) := by
      rw [lengthPrefixed_cons, List.length_append, List.length_append, length_putBE]
    have hpos : (pre ++ u.1.bytes).length + u.2.bytes.length = (pre ++ u.1.bytes ++ u.2.bytes).length :=
      List.length_append.symm
    rw [parseNalUnitsLoop, hstart]
    dsimp only
    rw [if_neg (by lia), hend, Nat.add_sub_cancel_left, hslice, hcount, toInt_toInt_add, hpos,
      ih hbuf'' (by rw [← hpos]; lia), List.foldl_cons, htotal]
    congr 2
    push_cast
    ring

theorem ffAvcParseNalUnits_eq (cb : Callbacks ω) (bigEndian : Bool) (address : Nat)
    (pb : AVIOContext ω) (units : List (Startcode × NalUnit)) :
    ffAvcParseNalUnits cb bigEndian pb address (annexB units) (annexB units).length =
      (units.foldl (writeUnit cb) pb, toInt (lengthPrefixed units).length) := by
  have hfirst := ffAvcFindStartcode_zero bigEndian address (startsWithCode_annexB units)
  have hempty : annexB units = [] ++ annexB units := rfl
  have hloop : parseNalUnitsLoop cb bigEndian address (annexB units) (annexB units).length
      ((annexB units).length + 1) pb (toInt 0) ([] : Bytes).length =
        (units.foldl (writeUnit cb) pb, toInt (0 + (lengthPrefixed units).length)) :=
    parseNalUnitsLoop_eq hempty (by rw [List.length_nil]; lia) pb 0
  rw [Int.zero_add] at hloop
  unfold ffAvcParseNalUnits
  rw [hfirst]
  exact hloop

variable {sent : ω → Bytes}

theorem streams_avioWb32 (h : Takes cb sent) {s : AVIOContext ω} {out : Bytes}
    (hs : Streams sent s out) (val : Nat) :
    Streams sent (avioWb32 cb s val) (out ++ putBE 4 val) := by
  have hbytes : ∀ (bytes : Bytes) {s : AVIOContext ω} {out : Bytes}, Streams sent s out →
      Streams sent (bytes.foldl (avioW8 cb) s) (out ++ bytes) := by
    intro bytes
    induction bytes with
    | nil => exact fun hs => by rwa [List.append_nil]
    | cons b bytes ih =>
      intro s out hs
      have hrest := ih (hs.avioW8 h b)
      rwa [List.append_assoc] at hrest
  exact hbytes (putBE 4 val) hs

variable {pb : AVIOContext ω}

theorem streams_writeUnits (h : Takes cb sent) {out : Bytes} (hs : Streams sent pb out)
    (units : List (Startcode × NalUnit)) :
    Streams sent (units.foldl (writeUnit cb) pb) (out ++ lengthPrefixed units) := by
  induction units generalizing pb out with
  | nil => rwa [lengthPrefixed, List.flatMap_nil, List.append_nil]
  | cons u units ih =>
    have hunit := (streams_avioWb32 h hs u.2.bytes.length).avioWrite h u.2.bytes
    have hrest := ih hunit
    rw [List.append_assoc, List.append_assoc] at hrest
    rwa [List.foldl_cons, lengthPrefixed_cons]

/-- What the conversion is to do: write each unit behind its length, in order, so that a
stream continues with just these bytes, and return their number. -/
structure Converts (cb : Callbacks ω) (pb : AVIOContext ω) (units : List (Startcode × NalUnit))
    (r : AVIOContext ω × Int) : Prop where
  calls : r.1 = units.foldl (writeUnit cb) pb
  streams : ∀ (sent : ω → Bytes) (out : Bytes), Takes cb sent → Streams sent pb out →
    Streams sent r.1 (out ++ lengthPrefixed units)
  count : r.2 = (lengthPrefixed units).length

theorem converts_iff {r : AVIOContext ω × Int} (hcalls : r.1 = units.foldl (writeUnit cb) pb) :
    Converts cb pb units r ↔ r.2 = (lengthPrefixed units).length := by
  refine ⟨fun h => h.count, fun h => ⟨hcalls, fun sent out htakes hs => ?_, h⟩⟩
  rw [hcalls]
  exact streams_writeUnits htakes hs units

theorem length_lengthPrefixed (units : List (Startcode × NalUnit)) :
    (lengthPrefixed units).length = (units.map fun u => 4 + u.2.bytes.length).sum := by
  induction units with
  | nil => rfl
  | cons u units ih =>
    rw [lengthPrefixed_cons, List.length_append, List.length_append, length_putBE, ih,
      List.map_cons, List.sum_cons, Nat.add_assoc]

/-- **When the conversion is right.**  Every unit is written, whatever the start codes and
the alignment are; the number of bytes is returned if and only if it fits an `int`. -/
theorem ffAvcParseNalUnits_converts_iff (cb : Callbacks ω) (bigEndian : Bool) (address : Nat)
    (pb : AVIOContext ω) (units : List (Startcode × NalUnit)) :
    Converts cb pb units
        (ffAvcParseNalUnits cb bigEndian pb address (annexB units) (annexB units).length) ↔
      (units.map fun u => 4 + u.2.bytes.length).sum < 2 ^ 31 := by
  rw [ffAvcParseNalUnits_eq, converts_iff rfl, ← length_lengthPrefixed]
  simp only [toInt_eq_iff]

/-- The unit of one byte. -/
def oneByte : NalUnit where
  bytes := [65]
  nonempty := by decide
  noEmulation := fun b _ h => absurd h.length_le (by decide : ¬ 3 ≤ 1)
  last_ne := by decide

/-- One unit of a byte after the other: 1717986920 bytes become 2147483650. -/
theorem not_converts_oneByte :
    ¬ ∀ (cb : Callbacks Bytes) (bigEndian : Bool) (address : Nat) (pb : AVIOContext Bytes)
        (units : List (Startcode × NalUnit)), (annexB units).length < 2 ^ 31 →
      Converts cb pb units
        (ffAvcParseNalUnits cb bigEndian pb address (annexB units) (annexB units).length) := by
  intro h
  have hsum : ∀ count, ((List.replicate count (Startcode.three, oneByte)).map
      fun u => 4 + u.2.bytes.length).sum = count * 5 := by
    intro count
    rw [List.map_replicate, List.sum_replicate]
    rfl
  have hlength : ∀ count,
      (annexB (List.replicate count (Startcode.three, oneByte))).length = count * 4 := by
    intro count
    rw [annexB, List.length_flatMap, List.map_replicate, List.sum_replicate]
    rfl
  have hconverts := h collect false 0 (ffioInitContext collect (List.replicate 1024 0) true [])
    (List.replicate 429496730 (Startcode.three, oneByte)) (by rw [hlength]; norm_num)
  rw [ffAvcParseNalUnits_converts_iff, hsum] at hconverts
  norm_num at hconverts

end FFmpeg.Libavformat.AvcNalUnits
