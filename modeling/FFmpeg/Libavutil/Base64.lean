import FFmpeg.Common.Bytes
import FFmpeg.Libavutil.Error

/-!
# Base64

The encoder and the decoder of `libavutil/base64.c`.  The decoder takes four symbols at a time and
writes four bytes, of which three count, as long as more than three fit; the last group is bounded.
A byte that is no symbol ends the loops at one of the labels `out0` to `out3`, by its place in the
group.
-/

namespace FFmpeg.Libavutil.Base64

open Common

/-- `map2`: the value of a symbol; bit 7 is set where there is none, bit 0 too unless it is the end
of the string or padding. -/
def map2 (c : UInt8) : Nat :=
  if c = 0 ∨ c = 0x3D then 0xFE
  else if c = 0x2B then 0x3E
  else if c = 0x2F then 0x3F
  else if 0x30 ≤ c ∧ c ≤ 0x39 then c.toNat - 0x30 + 0x34
  else if 0x41 ≤ c ∧ c ≤ 0x5A then c.toNat - 0x41
  else if 0x61 ≤ c ∧ c ≤ 0x7A then c.toNat - 0x61 + 0x1A
  else 0xFF

/-- `b64[i]`. -/
def b64 (i : Nat) : UInt8 :=
  if i < 0x1A then UInt8.ofNat (i + 0x41)
  else if i < 0x34 then UInt8.ofNat (i - 0x1A + 0x61)
  else if i < 0x3E then UInt8.ofNat (i - 0x34 + 0x30)
  else if i = 0x3E then 0x2B
  else 0x2F

/-! ## The encoder -/

/-- The loop over `i_shift`. -/
def shiftLoop (iBits : Nat) : Nat → Bytes
  | 0 => []
  | iShift + 1 => b64 ((iBits <<< 6 >>> (iShift + 1)) &&& 0x3F) :: shiftLoop iBits (iShift + 1 - 6)

/-- The loop over groups of three bytes, and what is left behind them. -/
def encodeLoop : Bytes → Bytes
  | a :: b :: c :: d :: rest =>
    let iBits := getBE [a, b, c, d]
    b64 (iBits >>> 26) :: b64 ((iBits >>> 20) &&& 0x3F) :: b64 ((iBits >>> 14) &&& 0x3F) ::
      b64 ((iBits >>> 8) &&& 0x3F) :: encodeLoop (d :: rest)
  | rest => shiftLoop (getBE rest) (8 * rest.length)

/-- `AV_BASE64_SIZE`. -/
def avBase64Size (x : Nat) : Nat := (x + 2) / 3 * 4 + 1

/-- `av_base64_encode`, into a buffer of `outSize` bytes; the string without its end. -/
def avBase64Encode (outSize : Nat) (input : Bytes) : Option Bytes :=
  if 0xFFFFFFFF / 4 ≤ input.length ∨ outSize < avBase64Size input.length then none
  else
    let symbols := encodeLoop input
    some (symbols ++ List.replicate ((4 - symbols.length % 4) % 4) 0x3D)

/-! ## The decoder -/

/-- The memory from `out` on, and the end of what has been written. -/
structure Output where
  mem : Nat → UInt8
  top : Nat

/-- Store a byte. -/
def Output.put (o : Output) (i v : Nat) : Output :=
  ⟨Function.update o.mem i (UInt8.ofNat v), max o.top (i + 1)⟩

/-- Where a group ended: the label, `v` and `bits`. -/
structure Stop where
  label : Nat
  v : Nat
  bits : Nat

/-- `BASE64_DEC_STEP(i)`; `input` is the string from `in` on. -/
def base64DecStep (i : Nat) (input : Bytes) (v : Nat) : Except Stop Nat :=
  let bits := map2 (input.getD i 0)
  if bits &&& 0x80 ≠ 0 then .error ⟨i, v, bits⟩
  else .ok (if i ≠ 0 then (v <<< 6) + bits else bits)

/-- The four steps of a group. -/
def base64DecSteps (input : Bytes) (v : Nat) : Except Stop Nat := do
  let v ← base64DecStep 0 input v
  let v ← base64DecStep 1 input v
  let v ← base64DecStep 2 input v
  base64DecStep 3 input v

/-- `return` at the labels `out1` and `out0`, converted to `int`. -/
def finish (bits dst : Nat) : Int :=
  if bits &&& 1 ≠ 0 then AVERROR.invalidData.toInt else (dst : Int).bmod (2 ^ 32)

/-- From the label of a stop on. -/
def outLabel (stop : Stop) (dst : Nat) (o : Output) : Int × Output :=
  if stop.label = 3 then
    (finish stop.bits (dst + 2), (o.put dst (stop.v >>> 10)).put (dst + 1) ((stop.v <<< 2) >>> 4))
  else if stop.label = 2 then (finish stop.bits (dst + 1), o.put dst (stop.v >>> 4))
  else (finish stop.bits dst, o)

/-- `bits` at the end of the loop that only checks. -/
def checkLoop : Bytes → Nat
  | [] => map2 0
  | c :: rest => if map2 c &&& 0x80 ≠ 0 then map2 c else checkLoop rest

/-- `av_base64_decode`, from `dst` and `in` on; the last argument is `end - dst`. -/
def decodeLoop (input : Bytes) (v dst : Nat) (o : Output) : Nat → Int × Output
  | 0 => (finish (checkLoop input) dst, o)
  | space + 4 =>
    match base64DecSteps input v with
    | .error stop => outLabel stop dst o
    | .ok v =>
      decodeLoop (input.drop 4) v (dst + 3)
        ((((o.put dst (v >>> 16)).put (dst + 1) (v >>> 8)).put (dst + 2) v).put (dst + 3) 0)
        (space + 1)
  | space + 1 =>
    match base64DecSteps input v with
    | .error stop => outLabel stop dst o
    | .ok v =>
      let o := o.put dst (v >>> 16)
      if space = 0 then (finish (checkLoop (input.drop 4)) (dst + 1), o)
      else
        let o := o.put (dst + 1) (v >>> 8)
        if space = 1 then (finish (checkLoop (input.drop 4)) (dst + 2), o)
        else (finish (checkLoop (input.drop 4)) (dst + 3), o.put (dst + 2) v)

/-- `av_base64_decode`: what it returns, and what is behind `out`. -/
def avBase64Decode (mem : Nat → UInt8) (input : Bytes) (outSize : Nat) : Int × Output :=
  decodeLoop input 0 0 ⟨mem, 0⟩ outSize

example (mem : Nat → UInt8) : (avBase64Decode mem [0x51, 0x51, 0x3D, 0x3D] 0).1 = 0 := by
  rw [avBase64Decode, decodeLoop]
  rfl

/-! ## What the Base64 decoder writes

A decoder that stops in a group is at its third symbol at the latest when it has two bytes to
write.  In a group that has room for one byte only, it writes one too many. -/

variable {input rest x : Bytes} {v dst space : Nat} {o : Output}

/-- A byte that is a symbol. -/
def isSymbol (c : UInt8) : Bool := map2 c &&& 0x80 = 0

/-- The symbols at the front of a string. -/
def leading (input : Bytes) : Nat := (input.takeWhile isSymbol).length

/-! ## Groups -/

variable {i : Nat}

theorem isSymbol_of_lt (h : i < leading input) : isSymbol (input.getD i 0) := by
  induction input generalizing i with
  | nil => exact absurd h (Nat.not_lt_zero _)
  | cons c input ih =>
    rw [leading, List.takeWhile_cons] at h
    split_ifs at h with hc
    · cases i with
      | zero => exact hc
      | succ i => exact ih (Nat.lt_of_succ_lt_succ h)
    · exact absurd h (Nat.not_lt_zero _)

theorem not_isSymbol_leading (input : Bytes) : ¬ isSymbol (input.getD (leading input) 0) := by
  induction input with
  | nil => decide
  | cons c input ih =>
    rw [leading, List.takeWhile_cons]
    split_ifs with hc
    · exact ih
    · exact hc

theorem leading_cons {c : UInt8} (h : isSymbol c) (input : Bytes) :
    leading (c :: input) = leading input + 1 := by
  rw [leading, List.takeWhile_cons, if_pos h]
  rfl

theorem leading_cons_of_not {c : UInt8} (h : ¬ isSymbol c) (input : Bytes) :
    leading (c :: input) = 0 := by
  rw [leading, List.takeWhile_cons, if_neg h]
  rfl

theorem leading_drop {n : Nat} (h : n ≤ leading input) :
    leading (input.drop n) = leading input - n := by
  induction n generalizing input with
  | zero => rfl
  | succ n ih =>
    cases input with
    | nil => exact absurd h (Nat.not_succ_le_zero n)
    | cons c input =>
      have hc : isSymbol c := isSymbol_of_lt (Nat.zero_lt_of_lt h)
      rw [leading_cons hc] at h ⊢
      rw [List.drop_succ_cons, ih (Nat.le_of_succ_le_succ h)]
      lia

theorem base64DecStep_of_symbol (h : isSymbol (input.getD i 0)) (v : Nat) :
    base64DecStep i input v =
      .ok (if i ≠ 0 then (v <<< 6) + map2 (input.getD i 0) else map2 (input.getD i 0)) := by
  have hbits : map2 (input.getD i 0) &&& 0x80 = 0 := of_decide_eq_true h
  rw [base64DecStep, if_neg (not_not.2 hbits)]

theorem base64DecStep_of_not (h : ¬ isSymbol (input.getD i 0)) (v : Nat) :
    base64DecStep i input v = .error ⟨i, v, map2 (input.getD i 0)⟩ := by
  have hbits : map2 (input.getD i 0) &&& 0x80 ≠ 0 := fun h' => h (decide_eq_true h')
  rw [base64DecStep, if_pos hbits]

theorem base64DecSteps_ok (h : 4 ≤ leading input) (v : Nat) :
    base64DecSteps input v =
      .ok ((((((map2 (input.getD 0 0) <<< 6) + map2 (input.getD 1 0)) <<< 6) +
        map2 (input.getD 2 0)) <<< 6) + map2 (input.getD 3 0)) := by
  have hsymbol : ∀ i < 4, isSymbol (input.getD i 0) := fun i hi => isSymbol_of_lt (by lia)
  simp [base64DecSteps, base64DecStep_of_symbol (hsymbol 0 (by decide)),
    base64DecStep_of_symbol (hsymbol 1 (by decide)),
    base64DecStep_of_symbol (hsymbol 2 (by decide)),
    base64DecStep_of_symbol (hsymbol 3 (by decide)), bind, Except.bind]

theorem base64DecSteps_two (h : leading input = 2) (v : Nat) :
    base64DecSteps input v =
      .error ⟨2, (map2 (input.getD 0 0) <<< 6) + map2 (input.getD 1 0), map2 (input.getD 2 0)⟩ := by
  have hsymbol : ∀ i < 2, isSymbol (input.getD i 0) := fun i hi => isSymbol_of_lt (by lia)
  have hstop := not_isSymbol_leading input
  rw [h] at hstop
  simp [base64DecSteps, base64DecStep_of_symbol (hsymbol 0 (by decide)),
    base64DecStep_of_symbol (hsymbol 1 (by decide)), base64DecStep_of_not hstop, bind, Except.bind]

theorem base64DecSteps_three (h : leading input = 3) (v : Nat) :
    base64DecSteps input v =
      .error ⟨3, (((map2 (input.getD 0 0) <<< 6) + map2 (input.getD 1 0)) <<< 6) +
        map2 (input.getD 2 0), map2 (input.getD 3 0)⟩ := by
  have hsymbol : ∀ i < 3, isSymbol (input.getD i 0) := fun i hi => isSymbol_of_lt (by lia)
  have hstop := not_isSymbol_leading input
  rw [h] at hstop
  simp [base64DecSteps, base64DecStep_of_symbol (hsymbol 0 (by decide)),
    base64DecStep_of_symbol (hsymbol 1 (by decide)),
    base64DecStep_of_symbol (hsymbol 2 (by decide)), base64DecStep_of_not hstop, bind, Except.bind]

theorem base64DecSteps_error (h : leading input < 4) (v : Nat) :
    ∃ stop, base64DecSteps input v = .error stop ∧ stop.label = leading input := by
  have hstop := not_isSymbol_leading input
  obtain ⟨n, hn⟩ : ∃ n, n = leading input := ⟨_, rfl⟩
  rw [← hn] at h hstop ⊢
  interval_cases n
  · refine ⟨⟨0, v, map2 (input.getD 0 0)⟩, ?_, rfl⟩
    simp [base64DecSteps, base64DecStep_of_not hstop, bind, Except.bind]
  · have hsymbol : isSymbol (input.getD 0 0) := isSymbol_of_lt (by lia)
    refine ⟨⟨1, map2 (input.getD 0 0), map2 (input.getD 1 0)⟩, ?_, rfl⟩
    simp [base64DecSteps, base64DecStep_of_symbol hsymbol, base64DecStep_of_not hstop, bind,
      Except.bind]
  · exact ⟨_, base64DecSteps_two hn.symm v, rfl⟩
  · exact ⟨_, base64DecSteps_three hn.symm v, rfl⟩

/-! ## What is written -/

@[simp] theorem Output.top_put (o : Output) (i v : Nat) : (o.put i v).top = max o.top (i + 1) := rfl

theorem Output.mem_put (o : Output) (i v k : Nat) :
    (o.put i v).mem k = if k = i then UInt8.ofNat v else o.mem k := by
  exact Function.update_apply _ _ _ _

variable {limit : Nat}

theorem finish_le {bits : Nat} (hdst : dst ≤ limit) (hlimit : limit ≤ 0x7FFFFFFF) :
    finish bits dst ≤ limit := by
  unfold finish
  split_ifs
  · rw [AVERROR.toInt]
    lia
  · rw [Int.bmod_eq_of_le (by lia) (by lia)]
    exact_mod_cast hdst

theorem decodeLoop_error {stop : Stop} (hspace : 0 < space)
    (h : base64DecSteps input v = .error stop) :
    decodeLoop input v dst o space = outLabel stop dst o := by
  rcases space with _ | _ | _ | _ | space
  · exact absurd hspace (Nat.lt_irrefl 0)
  · simp [decodeLoop, h]
  · simp [decodeLoop, h]
  · simp [decodeLoop, h]
  · rw [decodeLoop, h]

/-- The bytes of a group. -/
def Output.putGroup (o : Output) (dst v : Nat) : Output :=
  ((o.put dst (v >>> 16)).put (dst + 1) (v >>> 8)).put (dst + 2) v

variable {v' : Nat}

theorem decodeLoop_four (h : base64DecSteps input v = .ok v') :
    decodeLoop input v dst o (space + 4) =
      decodeLoop (input.drop 4) v' (dst + 3) ((o.putGroup dst v').put (dst + 3) 0) (space + 1) := by
  rw [decodeLoop, h]
  rfl

theorem decodeLoop_three (h : base64DecSteps input v = .ok v') :
    decodeLoop input v dst o 3 =
      (finish (checkLoop (input.drop 4)) (dst + 3), o.putGroup dst v') := by
  simp [decodeLoop, h, Output.putGroup]

theorem decodeLoop_two (h : base64DecSteps input v = .ok v') :
    decodeLoop input v dst o 2 =
      (finish (checkLoop (input.drop 4)) (dst + 2),
        (o.put dst (v' >>> 16)).put (dst + 1) (v' >>> 8)) := by
  simp [decodeLoop, h]

theorem decodeLoop_one (h : base64DecSteps input v = .ok v') :
    decodeLoop input v dst o 1 =
      (finish (checkLoop (input.drop 4)) (dst + 1), o.put dst (v' >>> 16)) := by
  simp [decodeLoop, h]

/-- The output stays in its bounds and so does the count. -/
def Bounded (limit : Nat) (r : Int × Output) : Prop := r.2.top ≤ limit ∧ r.1 ≤ limit

theorem bounded_outLabel_iff {stop : Stop} (hdst : dst < limit) (hlimit : limit ≤ 0x7FFFFFFF)
    (htop : o.top ≤ limit) :
    Bounded limit (outLabel stop dst o) ↔ ¬ (dst + 1 = limit ∧ stop.label = 3) := by
  have hone : finish stop.bits (dst + 1) ≤ limit := finish_le hdst hlimit
  have hnone : finish stop.bits dst ≤ limit := finish_le (Nat.le_of_lt hdst) hlimit
  unfold outLabel
  split_ifs with h3 h2
  · by_cases hlast : dst + 1 = limit
    · -- one byte too many
      refine iff_of_false (fun h => ?_) (not_not.2 ⟨hlast, h3⟩)
      have htop := h.1
      simp only [Output.top_put] at htop
      lia
    · refine iff_of_true ⟨?_, finish_le (by lia) hlimit⟩ (fun h => hlast h.1)
      simp only [Output.top_put]
      lia
  · refine iff_of_true ⟨?_, hone⟩ (fun h => h3 h.2)
    simp only [Output.top_put]
    lia
  · exact iff_of_true ⟨htop, hnone⟩ (fun h => h3 h.2)

/-- The bytes behind the output stay untouched and the count fits, unless the last group has room
for one byte only and ends at its fourth symbol. -/
theorem bounded_decodeLoop_iff (hlimit : limit ≤ 0x7FFFFFFF) (hspace : dst + space = limit)
    (htop : o.top ≤ limit) :
    Bounded limit (decodeLoop input v dst o space) ↔
      ¬ (space % 3 = 1 ∧ leading input = 4 * (space / 3) + 3) := by
  induction space using Nat.strong_induction_on generalizing input v dst o with
  | _ space ih =>
    rcases Nat.eq_zero_or_pos space with rfl | hpos
    · refine iff_of_true ?_ (by lia)
      rw [decodeLoop]
      exact ⟨htop, finish_le (by lia) hlimit⟩
    rcases Nat.lt_or_ge (leading input) 4 with hleading | hleading
    · obtain ⟨stop, hstop, hlabel⟩ := base64DecSteps_error hleading v
      rw [decodeLoop_error hpos hstop, bounded_outLabel_iff (by lia) hlimit htop]
      lia
    · have hsteps := base64DecSteps_ok hleading v
      have hcount : ∀ n, n ≤ limit → finish (checkLoop (input.drop 4)) n ≤ limit :=
        fun n hn => finish_le hn hlimit
      rcases space with _ | _ | _ | _ | space
      · exact absurd hpos (Nat.lt_irrefl 0)
      · rw [decodeLoop_one hsteps]
        refine iff_of_true ⟨?_, hcount _ (by lia)⟩ (by lia)
        simp only [Output.top_put]
        lia
      · rw [decodeLoop_two hsteps]
        refine iff_of_true ⟨?_, hcount _ (by lia)⟩ (by lia)
        simp only [Output.top_put]
        lia
      · rw [decodeLoop_three hsteps]
        refine iff_of_true ⟨?_, hcount _ (by lia)⟩ (by lia)
        simp only [Output.putGroup, Output.top_put]
        lia
      · have hdrop := leading_drop hleading
        rw [decodeLoop_four hsteps, ih (space + 1) (by lia) (by lia)
          (by simp only [Output.putGroup, Output.top_put]; lia), hdrop]
        lia

end FFmpeg.Libavutil.Base64
