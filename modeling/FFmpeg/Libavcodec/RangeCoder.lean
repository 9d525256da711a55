import FFmpeg.Common.Bits

/-!
# The range coder

`libavcodec/rangecoder.h` and `rangecoder.c`.  The encoder and the decoder share a struct in
the source; here each has the fields it uses.  The encoder's `bytestream` are the bytes
written so far, for a buffer that is long enough.  The decoder reads from a buffer with
zeros behind it.
-/

namespace FFmpeg.Libavcodec.RangeCoder

open Common

/-- The transition tables `zero_state` and `one_state`. -/
structure RacTables where
  zeroState : UInt8 → UInt8
  oneState : UInt8 → UInt8

/-- The state after a bit. -/
def RacTables.next (tables : RacTables) (state : UInt8) (bit : Bool) : UInt8 :=
  if bit then tables.oneState state else tables.zeroState state

/-- The probability after one more bit, out of `2 ^ 32`. -/
def adaptProbability (factor p : Int) : Int :=
  let change : Int := ((2 ^ 32 - p) * factor + 2 ^ 31) / 2 ^ 32
  p + change

/-- The probability out of 256. -/
def roundProbability (p : Int) : Int := (256 * p + 2 ^ 31) / 2 ^ 32

/-- A round of the first loop of `ff_build_rac_states`: `last_p8`, `p` and `one_state`. -/
def buildChain (factor maxP : Int) : Int × Int × List UInt8 → Int × Int × List UInt8
  | (lastP8, p, oneState) =>
    let p8 := roundProbability p
    let p8 := if p8 ≤ lastP8 then lastP8 + 1 else p8
    (p8, adaptProbability factor p,
      if lastP8 ≠ 0 ∧ lastP8 < 256 ∧ p8 ≤ maxP then
        oneState.set lastP8.toNat (UInt8.ofNat p8.toNat)
      else oneState)

/-- A round of the second loop of `ff_build_rac_states`, for the states the first one has not
reached. -/
def buildRest (factor maxP : Int) (oneState : List UInt8) (i : Nat) : List UInt8 :=
  if oneState.getD i 0 ≠ 0 then oneState
  else
    let p : Int := ((i : Int) * 2 ^ 32 + 128) / 2 ^ 8
    let p8 := roundProbability (adaptProbability factor p)
    let p8 := if p8 ≤ i then (i : Int) + 1 else p8
    let p8 := if maxP < p8 then maxP else p8
    oneState.set i (UInt8.ofNat p8.toNat)

/-- `ff_build_rac_states`. -/
def ffBuildRacStates (factor : Int) (maxP : Nat) : RacTables :=
  let (_, _, oneState) :=
    (buildChain factor maxP)^[128] (0, 2 ^ 31, List.replicate 256 0)
  let oneState :=
    (List.range' (256 - maxP) (2 * maxP + 1 - 256)).foldl (buildRest factor maxP) oneState
  { oneState := fun state => oneState.getD state.toNat 0
    zeroState := fun state =>
      if 1 ≤ state.toNat ∧ state.toNat < 255 then
        UInt8.ofNat (256 - (oneState.getD (256 - state.toNat) 0).toNat)
      else 0 }

/-! ## Encoding -/

/-- `RangeCoder` of an encoder; `outstanding_byte` is nothing for -1. -/
structure RangeEncoder where
  low : Nat
  range : Nat
  outstandingCount : Nat
  outstandingByte : Option Nat
  bytestream : Bytes
  deriving DecidableEq, Repr

/-- `ff_init_range_encoder`. -/
def ffInitRangeEncoder : RangeEncoder :=
  { low := 0
    range := 0xFF00
    outstandingCount := 0
    outstandingByte := none
    bytestream := [] }

/-- A round of `renorm_encoder`. -/
def RangeEncoder.shift (c : RangeEncoder) : RangeEncoder :=
  let c :=
    match c.outstandingByte with
    | none => { c with outstandingByte := some (c.low >>> 8) }
    | some b =>
      if c.low ≤ 0xFF00 then
        { c with
          bytestream := c.bytestream ++ UInt8.ofNat b :: List.replicate c.outstandingCount 0xFF
          outstandingCount := 0
          outstandingByte := some (c.low >>> 8) }
      else if 0x10000 ≤ c.low then
        { c with
          bytestream := c.bytestream ++ UInt8.ofNat (b + 1) :: List.replicate c.outstandingCount 0
          outstandingCount := 0
          outstandingByte := some ((c.low >>> 8) &&& 0xFF) }
      else { c with outstandingCount := c.outstandingCount + 1 }
  { c with low := (c.low &&& 0xFF) <<< 8, range := c.range <<< 8 }

/-- The loop of `renorm_encoder`. -/
def renormLoop : Nat → RangeEncoder → Option RangeEncoder
  | 0, _ => none
  | rounds + 1, c => if c.range < 0x100 then renormLoop rounds c.shift else some c

/-- `renorm_encoder`: the loop ends in the second round or, with an empty range, never. -/
def renormEncoder (c : RangeEncoder) : Option RangeEncoder := renormLoop 2 c

/-- The part of the range that `put_rac` keeps for a bit. -/
def RangeEncoder.narrow (c : RangeEncoder) (state : UInt8) (bit : Bool) : RangeEncoder :=
  let range1 := (c.range * state.toNat) >>> 8
  if bit then { c with low := c.low + (c.range - range1), range := range1 }
  else { c with range := c.range - range1 }

/-- `put_rac`: the encoder and the state after it. -/
def putRac (tables : RacTables) (c : RangeEncoder) (state : UInt8) (bit : Bool) :
    Option (RangeEncoder × UInt8) :=
  (renormEncoder (c.narrow state bit)).map fun c => (c, tables.next state bit)

/-- The bit that `ff_rac_terminate` puts first in version 1. -/
def terminatorBit (tables : RacTables) (version : Nat) (c : RangeEncoder) : Option RangeEncoder :=
  if version = 1 then (putRac tables c 129 false).map Prod.fst else some c

/-- The smallest range, as far up as it can be. -/
def RangeEncoder.collapse (c : RangeEncoder) : RangeEncoder :=
  { c with range := 0xFF, low := c.low + 0xFF }

/-- The smallest range once more. -/
def RangeEncoder.minimize (c : RangeEncoder) : RangeEncoder := { c with range := 0xFF }

/-- `ff_rac_terminate`: the bytes that have been written are the result. -/
def ffRacTerminate (tables : RacTables) (version : Nat) (c : RangeEncoder) :
    Option RangeEncoder := do
  let c ← terminatorBit tables version c
  let c ← renormEncoder c.collapse
  renormEncoder c.minimize

/-! ## Decoding -/

/-- `RangeCoder` of a decoder; the pointers are offsets in `buffer`. -/
structure RangeDecoder where
  low : Nat
  range : Nat
  buffer : Bytes
  bytestream : Nat
  bytestreamEnd : Nat
  overread : Nat
  deriving DecidableEq, Repr

/-- `ff_init_range_decoder`. -/
def ffInitRangeDecoder (buf : Bytes) (bufSize : Nat) : RangeDecoder :=
  let low := getBE (window buf 0 2)
  { low := if 0xFF00 ≤ low then 0xFF00 else low
    range := 0xFF00
    buffer := buf
    bytestream := 2
    bytestreamEnd := if 0xFF00 ≤ low then 2 else bufSize
    overread := 0 }

/-- `refill`. -/
def RangeDecoder.refill (d : RangeDecoder) : RangeDecoder :=
  if d.range < 0x100 then
    let d := { d with range := d.range <<< 8, low := d.low <<< 8 }
    if d.bytestream < d.bytestreamEnd then
      { d with
        low := d.low + (d.buffer.getD d.bytestream 0).toNat
        bytestream := d.bytestream + 1 }
    else { d with overread := d.overread + 1 }
  else d

/-- `get_rac`: the bit, and the decoder and the state after it. -/
def getRac (tables : RacTables) (d : RangeDecoder) (state : UInt8) : Bool × RangeDecoder × UInt8 :=
  let range1 := (d.range * state.toNat) >>> 8
  let range := d.range - range1
  if d.low < range then
    (false, { d with range := range }.refill, tables.next state false)
  else
    (true, { d with low := d.low - range, range := range1 }.refill, tables.next state true)

/-! ## Sequences of bits -/

variable {ι : Type} [DecidableEq ι]

/-- A bit that has been put: the encoder before and after `renorm_encoder`, and the states
after it. -/
structure PutStep (ι : Type) where
  narrowed : RangeEncoder
  after : RangeEncoder
  states : ι → UInt8

/-- One `put_rac` after the other, each with the state at its index. -/
def putRacs (tables : RacTables) :
    RangeEncoder → (ι → UInt8) → List (ι × Bool) → Option (List (PutStep ι))
  | _, _, [] => some []
  | c, states, (i, bit) :: symbols => do
    let (after, state) ← putRac tables c (states i) bit
    let states' := Function.update states i state
    let steps ← putRacs tables after states' symbols
    some (⟨c.narrow (states i) bit, after, states'⟩ :: steps)

/-- The encoder after the bits. -/
def lastEncoder (c : RangeEncoder) (steps : List (PutStep ι)) : RangeEncoder :=
  (steps.getLast?.map PutStep.after).getD c

/-- A bit that has been got, and the decoder and the states after it. -/
structure GetStep (ι : Type) where
  bit : Bool
  after : RangeDecoder
  states : ι → UInt8

/-- One `get_rac` after the other, each with the state at its index. -/
def getRacs (tables : RacTables) : RangeDecoder → (ι → UInt8) → List ι → List (GetStep ι)
  | _, _, [] => []
  | d, states, i :: indices =>
    let (bit, after, state) := getRac tables d (states i)
    let states' := Function.update states i state
    ⟨bit, after, states'⟩ :: getRacs tables after states' indices

/-- No state that a bit is put with is zero. -/
def StatesNonzero (tables : RacTables) : (ι → UInt8) → List (ι × Bool) → Prop
  | _, [] => True
  | states, (i, bit) :: symbols =>
    states i ≠ 0 ∧
      StatesNonzero tables (Function.update states i (tables.next (states i) bit)) symbols

end RangeCoder
end Libavcodec
end FFmpeg

/-! ## The state tables of the range coder

`ff_build_rac_states` leaves all states from `256 - max_p` to `max_p` among themselves, and has no
entry for any other state. -/

namespace FFmpeg
namespace Libavcodec
namespace RangeCoder

variable {factor : Int} {maxP : Nat} {l : List UInt8}

/-- The array `one_state`. -/
def oneStates (factor : Int) (maxP : Nat) : List UInt8 :=
  (List.range' (256 - maxP) (2 * maxP + 1 - 256)).foldl (buildRest factor maxP)
    ((buildChain factor maxP)^[128] (0, 2 ^ 31, List.replicate 256 0)).2.2

theorem ffBuildRacStates_oneState (factor : Int) (maxP : Nat) (state : UInt8) :
    (ffBuildRacStates factor maxP).oneState state = (oneStates factor maxP).getD state.toNat 0 := by
  unfold ffBuildRacStates oneStates
  generalize (buildChain factor (maxP : Int))^[128] = rounds
  obtain ⟨lastP8, p, oneState⟩ := rounds (0, 2 ^ 31, List.replicate 256 0)
  dsimp only

theorem ffBuildRacStates_zeroState (factor : Int) (maxP : Nat) (state : UInt8) :
    (ffBuildRacStates factor maxP).zeroState state =
      if 1 ≤ state.toNat ∧ state.toNat < 255 then
        UInt8.ofNat (256 - ((oneStates factor maxP).getD (256 - state.toNat) 0).toNat)
      else 0 := by
  unfold ffBuildRacStates oneStates
  generalize (buildChain factor (maxP : Int))^[128] = rounds
  obtain ⟨lastP8, p, oneState⟩ := rounds (0, 2 ^ 31, List.replicate 256 0)
  rfl

/-- Entries that have been set are for the states of the range, and in it. -/
structure Within (maxP : Nat) (l : List UInt8) : Prop where
  length_eq : l.length = 256
  entry : ∀ i, l.getD i 0 ≠ 0 → 256 - maxP ≤ i ∧ i ≤ maxP ∧
    256 - maxP ≤ (l.getD i 0).toNat ∧ (l.getD i 0).toNat ≤ maxP

theorem Within.set (h : Within maxP l) {i : Nat} {v : Int} (hmax : maxP < 256)
    (hi : 256 - maxP ≤ i ∧ i ≤ maxP) (hv : 256 - (maxP : Int) ≤ v ∧ v ≤ maxP) :
    Within maxP (l.set i (UInt8.ofNat v.toNat)) ∧ (l.set i (UInt8.ofNat v.toNat)).getD i 0 ≠ 0 := by
  have hlength := h.length_eq
  have hvalue : (UInt8.ofNat v.toNat).toNat = v.toNat := by
    rw [UInt8.toNat_ofNat']
    exact Nat.mod_eq_of_lt (by lia)
  have hself : (l.set i (UInt8.ofNat v.toNat)).getD i 0 = UInt8.ofNat v.toNat := by
    rw [List.getD_eq_getElem?_getD, List.getElem?_set_self (by lia), Option.getD_some]
  refine ⟨⟨by rw [List.length_set, hlength], fun j hj => ?_⟩, fun hzero => ?_⟩
  · by_cases heq : i = j
    · subst heq
      rw [hself, hvalue]
      lia
    · have hother : (l.set i (UInt8.ofNat v.toNat)).getD j 0 = l.getD j 0 := by
        rw [List.getD_eq_getElem?_getD, List.getElem?_set_ne heq, ← List.getD_eq_getElem?_getD]
      rw [hother] at hj ⊢
      exact h.entry j hj
  · rw [hself] at hzero
    rw [hzero] at hvalue
    have hpos : (0 : UInt8).toNat = 0 := rfl
    lia

/-- The first loop starts at the middle and goes up. -/
def ChainInv (maxP : Nat) (s : Int × Int × List UInt8) : Prop :=
  (s.1 = 0 ∧ s.2.1 = 2 ^ 31 ∨ 128 ≤ s.1) ∧ Within maxP s.2.2

theorem buildChain_inv (hmax : maxP < 256) {s : Int × Int × List UInt8}
    (h : ChainInv maxP s) : ChainInv maxP (buildChain factor maxP s) := by
  obtain ⟨lastP8, p, oneState⟩ := s
  obtain ⟨hlast, hwithin⟩ := h
  dsimp only at hlast hwithin
  have hround : roundProbability (2 ^ 31) = 128 := by decide
  have hup : lastP8 + 1 ≤ (if roundProbability p ≤ lastP8 then lastP8 + 1 else roundProbability p) ∧
      128 ≤ (if roundProbability p ≤ lastP8 then lastP8 + 1 else roundProbability p) := by
    rcases hlast with ⟨rfl, rfl⟩ | hlast
    · rw [hround]
      decide
    · split <;> lia
  refine ⟨Or.inr hup.2, ?_⟩
  unfold buildChain
  dsimp only
  generalize (if roundProbability p ≤ lastP8 then lastP8 + 1 else roundProbability p) = p8 at hup ⊢
  split
  · rename_i hset
    exact (hwithin.set hmax (by lia) (by lia)).1
  · exact hwithin

theorem buildChain_iterate (hmax : maxP < 256) (n : Nat) :
    ChainInv maxP ((buildChain factor maxP)^[n] (0, 2 ^ 31, List.replicate 256 0)) := by
  induction n with
  | zero =>
    refine ⟨Or.inl ⟨rfl, rfl⟩, List.length_replicate, fun i hi => absurd ?_ hi⟩
    show (List.replicate 256 (0 : UInt8)).getD i 0 = 0
    rw [List.getD_eq_getElem?_getD, List.getElem?_replicate]
    split <;> rfl
  | succ n ih =>
    rw [Function.iterate_succ_apply']
    exact buildChain_inv hmax ih

theorem buildRest_inv (hlow : 128 ≤ maxP) (hmax : maxP < 256) (h : Within maxP l) {i : Nat}
    (hi : 256 - maxP ≤ i ∧ i ≤ maxP) :
    Within maxP (buildRest factor maxP l i) ∧ (buildRest factor maxP l i).getD i 0 ≠ 0 ∧
      ∀ j, l.getD j 0 ≠ 0 → (buildRest factor maxP l i).getD j 0 ≠ 0 := by
  unfold buildRest
  by_cases hset : l.getD i 0 ≠ 0
  · rw [if_pos hset]
    exact ⟨h, hset, fun _ => id⟩
  · rw [if_neg hset]
    dsimp only
    generalize roundProbability _ = p8
    have hbounds : ∀ q : Int, q = (if p8 ≤ i then (i : Int) + 1 else p8) →
        256 - (maxP : Int) ≤ (if (maxP : Int) < q then (maxP : Int) else q) ∧
          (if (maxP : Int) < q then (maxP : Int) else q) ≤ maxP := by
      intro q hq
      split at hq <;> split <;> lia
    obtain ⟨hwithin, hself⟩ := h.set hmax hi (hbounds _ rfl)
    refine ⟨hwithin, hself, fun j hj => ?_⟩
    by_cases heq : i = j
    · rwa [← heq]
    · rwa [List.getD_eq_getElem?_getD, List.getElem?_set_ne heq, ← List.getD_eq_getElem?_getD]

theorem foldl_buildRest (hlow : 128 ≤ maxP) (hmax : maxP < 256) (h : Within maxP l) {n : Nat}
    (hn : 256 - maxP + n ≤ maxP + 1) :
    Within maxP ((List.range' (256 - maxP) n).foldl (buildRest factor maxP) l) ∧
      ∀ i, 256 - maxP ≤ i → i < 256 - maxP + n →
        ((List.range' (256 - maxP) n).foldl (buildRest factor maxP) l).getD i 0 ≠ 0 := by
  induction n with
  | zero => exact ⟨h, fun i hi hlt => absurd hlt (by lia)⟩
  | succ n ih =>
    obtain ⟨hwithin, hset⟩ := ih (by lia)
    rw [List.range'_concat, Nat.one_mul, List.foldl_append]
    obtain ⟨hnext, hself, hkeeps⟩ := buildRest_inv hlow hmax hwithin
      (i := 256 - maxP + n) ⟨Nat.le_add_right _ _, by lia⟩
    refine ⟨hnext, fun i hi hlt => ?_⟩
    by_cases heq : i = 256 - maxP + n
    · rw [heq]
      exact hself
    · exact hkeeps i (hset i hi (by lia))

theorem oneStates_spec (hlow : 128 ≤ maxP) (hmax : maxP < 256) :
    Within maxP (oneStates factor maxP) ∧
      ∀ i, 256 - maxP ≤ i → i ≤ maxP → (oneStates factor maxP).getD i 0 ≠ 0 := by
  obtain ⟨hwithin, hset⟩ := foldl_buildRest hlow hmax
    (buildChain_iterate hmax 128).2 (n := 2 * maxP + 1 - 256) (by lia)
  exact ⟨hwithin, fun i hi hle => hset i hi (by lia)⟩

variable {state : UInt8}

theorem next_mem (hlow : 128 ≤ maxP) (hmax : maxP < 255)
    (hstate : 256 - maxP ≤ state.toNat ∧ state.toNat ≤ maxP) (bit : Bool) :
    256 - maxP ≤ ((ffBuildRacStates factor maxP).next state bit).toNat ∧
      ((ffBuildRacStates factor maxP).next state bit).toNat ≤ maxP := by
  obtain ⟨hwithin, hset⟩ := oneStates_spec hlow (hmax.trans (by decide))
  cases bit with
  | true =>
    rw [RacTables.next, if_pos rfl, ffBuildRacStates_oneState]
    exact (hwithin.entry _ (hset _ hstate.1 hstate.2)).2.2
  | false =>
    have hentry := (hwithin.entry _ (hset (256 - state.toNat) (by lia) (by lia))).2.2
    rw [RacTables.next, if_neg Bool.false_ne_true, ffBuildRacStates_zeroState, if_pos (by lia),
      UInt8.toNat_ofNat', Nat.mod_eq_of_lt (by lia)]
    lia

theorem next_eq_zero (hlow : 128 ≤ maxP) (hmax : maxP < 256) (hstate : state.toNat < 256 - maxP)
    (bit : Bool) :
    (ffBuildRacStates factor maxP).next state bit = 0 := by
  have hwithin : Within maxP (oneStates factor maxP) := (oneStates_spec hlow hmax).1
  have hzero : ∀ i, ¬ (256 - maxP ≤ i ∧ i ≤ maxP) → (oneStates factor maxP).getD i 0 = 0 := by
    intro i hi
    by_contra hne
    obtain ⟨hge, hle, -⟩ := hwithin.entry i hne
    exact hi ⟨hge, hle⟩
  cases bit with
  | true =>
    rw [RacTables.next, if_pos rfl, ffBuildRacStates_oneState, hzero _ (by lia)]
  | false =>
    rw [RacTables.next, if_neg Bool.false_ne_true, ffBuildRacStates_zeroState]
    split
    · rw [hzero _ (by lia)]
      rfl
    · rfl

variable {c : RangeEncoder}

theorem putRacs_congr {ι : Type} [DecidableEq ι] {tables tables' : RacTables} {P : UInt8 → Prop}
    (hnext : ∀ state, P state → ∀ bit, tables.next state bit = tables'.next state bit ∧ P (tables.next state bit))
    {states : ι → UInt8} (hstates : ∀ i, P (states i)) (symbols : List (ι × Bool)) :
    putRacs tables c states symbols = putRacs tables' c states symbols := by
  induction symbols generalizing c states with
  | nil => rfl
  | cons symbol symbols ih =>
    obtain ⟨i, bit⟩ := symbol
    obtain ⟨hsame, hafter⟩ := hnext (states i) (hstates i) bit
    have hupdate : ∀ j, P (Function.update states i (tables.next (states i) bit) j) := by
      intro j
      rw [Function.update_apply]
      split
      · exact hafter
      · exact hstates j
    rw [putRacs, putRacs, putRac, putRac, ← hsame]
    cases renormEncoder (c.narrow (states i) bit) with
    | none => rfl
    | some after => simp only [Option.map_some, Option.bind_eq_bind, Option.bind_some, ih hupdate]

theorem putRacs_of_low {ι : Type} [DecidableEq ι] (hlow : 128 ≤ maxP) (hmax : maxP < 256)
    {states : ι → UInt8} (hstates : ∀ i, (states i).toNat < 256 - maxP) (symbols : List (ι × Bool)) :
    putRacs (ffBuildRacStates factor maxP) c states symbols =
      putRacs ⟨fun _ => 0, fun _ => 0⟩ c states symbols := by
  refine putRacs_congr (P := fun state => state.toNat < 256 - maxP)
    (fun state hstate bit => ?_) hstates symbols
  have hzero : RacTables.next ⟨fun _ => 0, fun _ => 0⟩ state bit = 0 := by
    rw [RacTables.next]
    split <;> rfl
  rw [next_eq_zero hlow hmax hstate, hzero]
  exact ⟨rfl, Nat.sub_pos_of_lt hmax⟩

end FFmpeg.Libavcodec.RangeCoder
