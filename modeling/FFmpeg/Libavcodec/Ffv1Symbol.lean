import FFmpeg.Libavcodec.RangeCoderRoundTrip
import FFmpeg.Libavutil.Error
import FFmpeg.Libavcodec.RangeCoder

/-!
# The symbols of FFV1

`put_symbol` and `get_symbol` of `libavcodec/ffv1enc.c` and `ffv1dec.c`: a number as a bit for
zero, its exponent in unary, its mantissa and its sign, each bit with a state of its own.  The
decoder asks for the same states in the same order, since what it asks for next depends only
on the bits it has got.
-/

namespace FFmpeg.Libavcodec.Ffv1

open Common Libavutil RangeCoder

/-! ## Encoding -/

/-- The bits of the mantissa, from bit `e - 1` down, each with the offset of its state. -/
def mantissaBits (a : Nat) (offset : Nat → Nat) : Nat → List (Nat × Bool)
  | 0 => []
  | i + 1 => (offset i, a.testBit i) :: mantissaBits a offset i

/-- The calls of `put_rac` in `put_symbol`: the offset in `state` and the bit. -/
def putSymbol (v : Int) (isSigned : Bool) : List (Nat × Bool) :=
  if v ≠ 0 then
    let a := v.natAbs
    let e := Nat.log2 a
    (0, false) ::
      if e ≤ 9 then
        (List.range e).map (fun i => (1 + i, true)) ++ (1 + e, false) ::
          mantissaBits a (fun i => 22 + i) e ++ if isSigned then [(11 + e, decide (v < 0))] else []
      else
        (List.range e).map (fun i => (1 + min i 9, true)) ++ (1 + 9, false) ::
          mantissaBits a (fun i => 22 + min i 9) e ++
            if isSigned then [(11 + 10, decide (v < 0))] else []
  else [(0, true)]

/-! ## Decoding -/

variable {ι : Type} [DecidableEq ι]

/-- A decoder with its states, and the states that have been visited: which they are, and
what they were. -/
structure Reader (ι : Type) where
  decoder : RangeDecoder
  states : ι → UInt8
  visited : List (ι × UInt8)

/-- `get_rac` with the state at `i`. -/
def Reader.getRac (tables : RacTables) (r : Reader ι) (i : ι) : Bool × Reader ι :=
  let (bit, decoder, state) := RangeCoder.getRac tables r.decoder (r.states i)
  (bit,
    { decoder := decoder
      states := Function.update r.states i state
      visited := r.visited ++ [(i, r.states i)] })

/-- The loop that reads the exponent. -/
def getExponent (tables : RacTables) (state : Nat → ι) :
    Nat → Nat → Reader ι → Except AVERROR Nat × Reader ι
  | 0, _, r => (.error .invalidData, r)
  | rounds + 1, e, r =>
    let (bit, r) := r.getRac tables (state (1 + min e 9))
    if bit then
      if 31 < e + 1 then (.error .invalidData, r)
      else getExponent tables state rounds (e + 1) r
    else (.ok e, r)

/-- The loop that reads the mantissa, from bit `e - 1` down. -/
def getMantissa (tables : RacTables) (state : Nat → ι) : Nat → Nat → Reader ι → Nat × Reader ι
  | 0, a, r => (a, r)
  | i + 1, a, r =>
    let (bit, r) := r.getRac tables (state (22 + min i 9))
    getMantissa tables state i ((a + a + bit.toNat) % 2 ^ 32) r

/-- `(a ^ e) - e` as an `int`, for `e` of 0 or -1. -/
def applySign (a : Nat) (negative : Bool) : Int :=
  if negative then Int.bmod ((2 ^ 32 - 1 - a : Int) + 1) (2 ^ 32) else Int.bmod a (2 ^ 32)

/-- `get_symbol`. -/
def getSymbol (tables : RacTables) (state : Nat → ι) (isSigned : Bool) (r : Reader ι) :
    Except AVERROR Int × Reader ι :=
  let (zero, r) := r.getRac tables (state 0)
  if zero then (.ok 0, r)
  else
    match getExponent tables state 32 0 r with
    | (.error err, r) => (.error err, r)
    | (.ok e, r) =>
      let (a, r) := getMantissa tables state e 1 r
      if isSigned then
        let (negative, r) := r.getRac tables (state (11 + min e 10))
        (.ok (applySign a negative), r)
      else (.ok (applySign a false), r)

/-! ## Sequences of symbols -/

/-- A symbol of a sequence: the state array it uses, whether it is signed, and its value. -/
structure Symbol (α : Type) where
  array : α
  isSigned : Bool
  value : Int

variable {α : Type} [DecidableEq α]

/-- The calls of `put_rac` for symbols one after the other. -/
def putSymbols (symbols : List (Symbol α)) : List ((α × Nat) × Bool) :=
  symbols.flatMap fun s =>
    (putSymbol s.value s.isSigned).map (Prod.map (fun k => (s.array, k)) id)

/-- One symbol after the other. -/
def getSymbols (tables : RacTables) :
    List (α × Bool) → Reader (α × Nat) → List (Except AVERROR Int) × Reader (α × Nat)
  | [], r => ([], r)
  | (array, isSigned) :: rest, r =>
    let (value, r) := getSymbol tables (fun k => (array, k)) isSigned r
    let (values, r) := getSymbols tables rest r
    (value :: values, r)

/-- The states that an encoder visits: which they are, and what they were. -/
def putVisited (tables : RacTables) : (ι → UInt8) → List (ι × Bool) → List (ι × UInt8)
  | _, [] => []
  | states, (i, bit) :: symbols =>
    (i, states i) ::
      putVisited tables (Function.update states i (tables.next (states i) bit)) symbols

end Ffv1
end Libavcodec
end FFmpeg

/-! ## The symbols of FFV1 are read back

If the bits of a symbol are what the range decoder gets from the states of the symbol, then
`get_symbol` gets the symbol, from these states and no others. -/

namespace FFmpeg
namespace Libavcodec
namespace Ffv1

open Common Libavutil RangeCoder

variable {ι : Type} [DecidableEq ι] {tables : RacTables}

/-- Reading with the states of `bits` in turn gives these bits. -/
def Gives (tables : RacTables) : Reader ι → List (ι × Bool) → Reader ι → Prop
  | r, [], r' => r' = r
  | r, (i, bit) :: bits, r' =>
    (r.getRac tables i).1 = bit ∧ Gives tables (r.getRac tables i).2 bits r'

theorem gives_append {r r' : Reader ι} {l m : List (ι × Bool)} :
    Gives tables r (l ++ m) r' ↔ ∃ s, Gives tables r l s ∧ Gives tables s m r' := by
  induction l generalizing r with
  | nil => simp [Gives]
  | cons b l ih =>
    obtain ⟨i, bit⟩ := b
    rw [List.cons_append, Gives, ih]
    constructor
    · rintro ⟨hbit, s, hl, hm⟩
      exact ⟨s, ⟨hbit, hl⟩, hm⟩
    · rintro ⟨s, ⟨hbit, hl⟩, hm⟩
      exact ⟨hbit, s, hl, hm⟩

theorem gives_of_getRacs {bits : List (ι × Bool)} (r : Reader ι)
    (h : (getRacs tables r.decoder r.states (bits.map Prod.fst)).map GetStep.bit =
      bits.map Prod.snd) :
    ∃ r', Gives tables r bits r' ∧ r'.visited = r.visited ++ putVisited tables r.states bits := by
  induction bits generalizing r with
  | nil => exact ⟨r, rfl, (List.append_nil _).symm⟩
  | cons b bits ih =>
    obtain ⟨i, bit⟩ := b
    simp only [List.map_cons, getRacs, List.cons.injEq] at h
    obtain ⟨hbit, hrest⟩ := h
    have hstate : (getRac tables r.decoder (r.states i)).2.2 = tables.next (r.states i) bit := by
      rw [← hbit]
      unfold getRac
      dsimp only
      split_ifs <;> rfl
    obtain ⟨r', hgives, hvisited⟩ := ih (r.getRac tables i).2 hrest
    refine ⟨r', ⟨hbit, hgives⟩, ?_⟩
    rw [hvisited]
    simp only [Reader.getRac, hstate, putVisited, List.append_assoc, List.singleton_append]

/-! ## One symbol -/

variable (state : Nat → ι)

theorem getExponent_gives {r r' : Reader ι} (n rounds e : Nat) (hrounds : n < rounds)
    (hmax : e + n ≤ 31)
    (h : Gives tables r ((List.range' e n).map (fun i => (state (1 + min i 9), true)) ++
      [(state (1 + min (e + n) 9), false)]) r') :
    getExponent tables state rounds e r = (.ok (e + n), r') := by
  induction n generalizing r rounds e with
  | zero =>
    obtain ⟨rounds, rfl⟩ := Nat.exists_eq_succ_of_ne_zero (Nat.ne_of_gt hrounds)
    obtain ⟨hbit, rfl⟩ := h
    rw [Nat.add_zero] at hbit ⊢
    rw [getExponent]
    simp only [hbit, Bool.false_eq_true, if_false]
  | succ n ih =>
    obtain ⟨rounds, rfl⟩ := Nat.exists_eq_succ_of_ne_zero (Nat.ne_of_gt (Nat.zero_lt_of_lt hrounds))
    rw [List.range'_succ, List.map_cons, List.cons_append] at h
    obtain ⟨hbit, hrest⟩ := h
    have hsum : e + 1 + n = e + (n + 1) := by lia
    rw [← hsum] at hrest ⊢
    rw [getExponent]
    simp only [hbit, if_true]
    rw [if_neg (by lia)]
    exact ih rounds (e + 1) (by lia) (by lia) hrest

theorem getMantissa_gives {r r' : Reader ι} {a : Nat} (ha : a < 2 ^ 32) (n : Nat)
    (h : Gives tables r ((mantissaBits a (fun i => 22 + min i 9) n).map (Prod.map state id)) r') :
    getMantissa tables state n (a >>> n) r = (a, r') := by
  induction n generalizing r with
  | zero =>
    cases h
    rfl
  | succ n ih =>
    rw [mantissaBits, List.map_cons] at h
    obtain ⟨hbit, hrest⟩ := h
    have hnext : (a >>> (n + 1) + a >>> (n + 1) + (a.testBit n).toNat) % 2 ^ 32 = a >>> n := by
      have hhalf : a >>> (n + 1) = a >>> n / 2 := by rw [Nat.shiftRight_succ]
      have hlow : (a.testBit n).toNat = a >>> n % 2 := by
        rw [Nat.toNat_testBit, Nat.shiftRight_eq_div_pow]
      have hle := Nat.shiftRight_le a n
      rw [hhalf, hlow]
      generalize a >>> n = high at hle
      lia
    rw [getMantissa]
    simp only [hbit, id_eq, hnext]
    exact ih hrest

variable {v : Int}

/-- The two ways `put_symbol` writes a number are one: the states of large exponents are shared
from 9 and from 10 on. -/
theorem putSymbol_eq (hv : v ≠ 0) (isSigned : Bool) :
    putSymbol v isSigned =
      (0, false) :: ((List.range (Nat.log2 v.natAbs)).map (fun i => (1 + min i 9, true)) ++
        (1 + min (Nat.log2 v.natAbs) 9, false) ::
          mantissaBits v.natAbs (fun i => 22 + min i 9) (Nat.log2 v.natAbs) ++
            if isSigned then [(11 + min (Nat.log2 v.natAbs) 10, decide (v < 0))] else []) := by
  have hmantissa : ∀ (a n : Nat), n ≤ 9 →
      mantissaBits a (fun i => 22 + i) n = mantissaBits a (fun i => 22 + min i 9) n := by
    intro a n hn
    induction n with
    | zero => rfl
    | succ n ih => rw [mantissaBits, mantissaBits, ih (by lia), Nat.min_eq_left (by lia : n ≤ 9)]
  rw [putSymbol, if_pos hv]
  dsimp only
  generalize Nat.log2 v.natAbs = e
  by_cases hsmall : e ≤ 9
  · have hexponent : (List.range e).map (fun i => (1 + i, true)) =
        (List.range e).map (fun i => (1 + min i 9, true)) := by
      apply List.map_congr_left
      intro i hi
      have hlt := List.mem_range.mp hi
      rw [Nat.min_eq_left (by lia : i ≤ 9)]
    rw [if_pos hsmall, hexponent, hmantissa _ e hsmall, Nat.min_eq_left hsmall,
      Nat.min_eq_left (by lia : e ≤ 10)]
  · rw [if_neg hsmall, Nat.min_eq_right (by lia : 9 ≤ e), Nat.min_eq_right (by lia : 10 ≤ e)]

theorem applySign_natAbs (hlow : -2 ^ 31 < v) (hhigh : v < 2 ^ 31) :
    applySign v.natAbs (decide (v < 0)) = v := by
  unfold applySign
  rcases lt_or_ge v 0 with hneg | hpos
  · have habs : (v.natAbs : Int) = -v := by lia
    rw [if_pos (decide_eq_true hneg), habs, Int.bmod_def]
    split_ifs <;> lia
  · have habs : (v.natAbs : Int) = v := by lia
    rw [if_neg (by simpa using hpos), habs, Int.bmod_def]
    split_ifs <;> lia

/-- A symbol that is put can be got again. -/
structure Symbol.InRange {α : Type} (s : Symbol α) : Prop where
  low : -2 ^ 31 < s.value
  high : s.value < 2 ^ 31
  nonneg : s.isSigned = false → 0 ≤ s.value

theorem getSymbol_gives {r r' : Reader ι} {isSigned : Bool} (hlow : -2 ^ 31 < v)
    (hhigh : v < 2 ^ 31) (hnonneg : isSigned = false → 0 ≤ v)
    (h : Gives tables r ((putSymbol v isSigned).map (Prod.map state id)) r') :
    getSymbol tables state isSigned r = (.ok v, r') := by
  by_cases hv : v = 0
  · subst hv
    obtain ⟨hbit, hrest⟩ := h
    cases hrest
    rw [getSymbol]
    simp only [hbit, id_eq, if_true]
  · have ha : v.natAbs < 2 ^ 31 := by lia
    have hpos : v.natAbs ≠ 0 := by lia
    have hexp : Nat.log2 v.natAbs < 31 := (Nat.log2_lt hpos).mpr ha
    have htop : v.natAbs >>> Nat.log2 v.natAbs = 1 := by
      rw [Nat.shiftRight_eq_div_pow]
      have hself := Nat.log2_self_le hpos
      have hnext := Nat.lt_log2_self (n := v.natAbs)
      apply Nat.div_eq_of_lt_le
      · lia
      · rw [Nat.pow_succ] at hnext
        lia
    rw [putSymbol_eq hv] at h
    generalize Nat.log2 v.natAbs = e at *
    rw [List.append_cons, List.map_cons, List.map_append, List.map_append] at h
    obtain ⟨hzero, hrest⟩ := h
    obtain ⟨r₂, hrest, hsign⟩ := gives_append.mp hrest
    obtain ⟨r₁, hexponent, hmantissa⟩ := gives_append.mp hrest
    rw [List.map_append, List.map_map] at hexponent
    have hget := getExponent_gives state e 32 0 (by lia) (by lia)
      (by simpa [List.range_eq_range', Function.comp_def] using hexponent)
    have hget' := getMantissa_gives state (by lia : v.natAbs < 2 ^ 32) e hmantissa
    rw [htop] at hget'
    rw [Nat.zero_add] at hget
    rw [getSymbol]
    simp only [hzero, id_eq, Bool.false_eq_true, if_false, hget, hget']
    cases isSigned with
    | true =>
      rw [if_pos rfl] at hsign
      obtain ⟨hbit, hlast⟩ := hsign
      cases hlast
      simp only [if_true, hbit, id_eq, applySign_natAbs hlow hhigh]
    | false =>
      cases hsign
      have hpositive := applySign_natAbs hlow hhigh
      rw [decide_eq_false (by have hnot := hnonneg rfl; lia)] at hpositive
      simp only [Bool.false_eq_true, if_false, hpositive]

/-! ## Sequences of symbols -/

variable {α : Type} [DecidableEq α]

theorem getSymbols_gives {r r' : Reader (α × Nat)} {symbols : List (Symbol α)}
    (hrange : ∀ s ∈ symbols, s.InRange) (h : Gives tables r (putSymbols symbols) r') :
    getSymbols tables (symbols.map fun s => (s.array, s.isSigned)) r =
      (symbols.map fun s => .ok s.value, r') := by
  induction symbols generalizing r with
  | nil =>
    cases h
    rfl
  | cons s symbols ih =>
    obtain ⟨r₁, hfirst, hrest⟩ := gives_append.mp h
    have hs := hrange s (List.mem_cons_self ..)
    rw [List.map_cons, getSymbols,
      getSymbol_gives (fun k => (s.array, k)) hs.low hs.high hs.nonneg hfirst]
    dsimp only
    rw [ih (fun t ht => hrange t (List.mem_cons_of_mem _ ht)) hrest]
    rfl

/-- The symbols that are put, and the code is terminated, are got from the bytes that were
written, and the decoder visits the states that the encoder visits. -/
def SymbolsRoundTrip (tables : RacTables) (version : Nat) (states : α × Nat → UInt8)
    (symbols : List (Symbol α)) : Prop :=
  ∃ steps terminated reader,
    putRacs tables ffInitRangeEncoder states (putSymbols symbols) = some steps ∧
    ffRacTerminate tables version (lastEncoder ffInitRangeEncoder steps) = some terminated ∧
    getSymbols tables (symbols.map fun s => (s.array, s.isSigned))
        ⟨ffInitRangeDecoder terminated.bytestream terminated.bytestream.length, states, []⟩ =
      (symbols.map fun s => .ok s.value, reader) ∧
    reader.visited = putVisited tables states (putSymbols symbols)

/-- Symbols are read back, as long as no state becomes zero. -/
theorem getSymbols_putSymbols (tables : RacTables) (version : Nat) (states : α × Nat → UInt8)
    (symbols : List (Symbol α)) (hrange : ∀ s ∈ symbols, s.InRange)
    (hstates : StatesNonzero tables states (putSymbols symbols)) :
    SymbolsRoundTrip tables version states symbols := by
  obtain ⟨steps, hcodes⟩ := fits_init.putRacs tables (by decide) hstates
  obtain ⟨terminated, hterminate, -, -, hin, -⟩ :=
    hcodes.fits.ffRacTerminate tables version hcodes.range_ge
  have hmatches := matches_init (hcodes.contains _ hin)
  obtain ⟨hbits, -, -⟩ := hcodes.get _ _ hin hmatches
  obtain ⟨reader, hgives, hvisited⟩ := gives_of_getRacs
    ⟨ffInitRangeDecoder terminated.bytestream terminated.bytestream.length, states, []⟩ hbits
  exact ⟨steps, terminated, reader, hcodes.put, hterminate, getSymbols_gives hrange hgives,
    hvisited⟩

/-- The tables of FFV1: a factor of 0.05, and states up to 248. -/
def ffv1Tables : RacTables := ffBuildRacStates 214748364 (256 - 8)

theorem statesNonzero_ffv1 {states : ι → UInt8}
    (hstates : ∀ i, 8 ≤ (states i).toNat ∧ (states i).toNat ≤ 248) (bits : List (ι × Bool)) :
    StatesNonzero ffv1Tables states bits := by
  induction bits generalizing states with
  | nil => trivial
  | cons b bits ih =>
    obtain ⟨i, bit⟩ := b
    obtain ⟨hlow, hhigh⟩ := hstates i
    refine ⟨fun hzero => ?_, ih fun j => ?_⟩
    · rw [hzero] at hlow
      exact absurd hlow (by decide)
    · by_cases hj : j = i
      · subst hj
        rw [Function.update_self]
        exact next_mem (by decide) (by decide) ⟨hlow, hhigh⟩ bit
      · rw [Function.update_of_ne hj]
        exact hstates j

/-- A few symbols from states in the middle. -/
theorem symbolsRoundTrip_small :
    SymbolsRoundTrip ffv1Tables 1 (fun _ : Bool × Nat => 128)
      [⟨true, true, -1⟩, ⟨false, false, 0⟩] := by
  refine getSymbols_putSymbols ffv1Tables 1 (fun _ => 128) _ ?_ ?_
  · intro s hs
    fin_cases hs
    · exact ⟨by decide, by decide, by decide⟩
    · exact ⟨by decide, by decide, by decide⟩
  · exact statesNonzero_ffv1 (fun _ => by decide) _

/-- The state 1 becomes zero, and a bit 1 leaves no range then. -/
theorem not_symbolsRoundTrip_lowState :
    ¬ ∀ (states : Unit × Nat → UInt8) (symbols : List (Symbol Unit)), (∀ i, states i ≠ 0) →
      (∀ s ∈ symbols, s.InRange) → SymbolsRoundTrip ffv1Tables 0 states symbols := by
  intro h
  obtain ⟨steps, -, -, hput, -⟩ := h (fun _ => 1) [⟨(), false, 1⟩, ⟨(), false, 0⟩]
    (fun _ => by decide) (by
      intro s hs
      fin_cases hs
      · exact ⟨by decide, by decide, by decide⟩
      · exact ⟨by decide, by decide, by decide⟩)
  have hnone : (putRacs ffv1Tables ffInitRangeEncoder (fun _ : Unit × Nat => 1)
      (putSymbols [⟨(), false, 1⟩, ⟨(), false, 0⟩])).isNone = true := by
    rw [ffv1Tables, putRacs_of_low (by decide) (by decide) fun _ => by decide]
    decide +kernel
  rw [hput] at hnone
  cases hnone

end FFmpeg.Libavcodec.Ffv1
