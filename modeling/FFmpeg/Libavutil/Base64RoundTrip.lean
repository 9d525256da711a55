import FFmpeg.Libavutil.Base64

/-!
# Base64 decoding undoes encoding

Three bytes become a group of four symbols, whose value is that of the bytes.  One or two bytes at
the end become two or three symbols; the padding stops the decoder at the label that writes as many
bytes.
-/

namespace FFmpeg.Libavutil.Base64

open Common

variable {rest x : Bytes} {v dst space : Nat} {o : Output}

/-! ## Symbols -/

theorem map2_b64 {i : Nat} (h : i < 64) : map2 (b64 i) = i := by
  have hall : ∀ i < 64, map2 (b64 i) = i := by decide
  exact hall i h

theorem isSymbol_b64 {i : Nat} (h : i < 64) : isSymbol (b64 i) := by
  have hall : ∀ i < 64, isSymbol (b64 i) := by decide
  exact hall i h

/-- The symbols of three bytes. -/
def group (n : Nat) : Bytes :=
  [b64 (n / 2 ^ 18), b64 (n / 2 ^ 12 % 64), b64 (n / 2 ^ 6 % 64), b64 (n % 64)]

theorem and_63 (n : Nat) : n &&& 0x3F = n % 64 := Nat.and_two_pow_sub_one_eq_mod n 6

theorem shiftLoop_eq (n : Nat) {iShift : Nat} (h : 0 < iShift) :
    shiftLoop n iShift = b64 (n * 64 / 2 ^ iShift % 64) :: shiftLoop n (iShift - 6) := by
  obtain ⟨iShift, rfl⟩ := Nat.exists_eq_add_one_of_ne_zero (Nat.pos_iff_ne_zero.1 h)
  rw [shiftLoop, and_63, Nat.shiftLeft_eq, Nat.shiftRight_eq_div_pow]

@[simp] theorem shiftLoop_zero (n : Nat) : shiftLoop n 0 = [] := by
  rw [shiftLoop]

theorem encodeLoop_one (a : UInt8) :
    encodeLoop [a] = [b64 (a.toNat / 4), b64 (a.toNat * 16 % 64)] := by
  have ha := a.toNat_lt
  have hvalue : getBE [a] = a.toNat := by simp [getBE]
  have hfirst : a.toNat * 64 / 2 ^ 8 % 64 = a.toNat / 4 := by lia
  have hsecond : a.toNat * 64 / 2 ^ (8 - 6) % 64 = a.toNat * 16 % 64 := by lia
  show shiftLoop (getBE [a]) 8 = _
  rw [hvalue, shiftLoop_eq _ (by decide), shiftLoop_eq _ (by decide), hfirst, hsecond,
    shiftLoop_zero]

theorem encodeLoop_two (a b : UInt8) :
    encodeLoop [a, b] =
      [b64 (a.toNat / 4), b64 (getBE [a, b] / 16 % 64), b64 (getBE [a, b] * 4 % 64)] := by
  have ha := a.toNat_lt
  have hb := b.toNat_lt
  have hvalue : getBE [a, b] = a.toNat * 256 + b.toNat := by simp [getBE]
  have hfirst : getBE [a, b] * 64 / 2 ^ 16 % 64 = a.toNat / 4 := by lia
  have hsecond : getBE [a, b] * 64 / 2 ^ (16 - 6) % 64 = getBE [a, b] / 16 % 64 := by lia
  have hthird : getBE [a, b] * 64 / 2 ^ (16 - 6 - 6) % 64 = getBE [a, b] * 4 % 64 := by lia
  show shiftLoop (getBE [a, b]) 16 = _
  rw [shiftLoop_eq _ (by decide), shiftLoop_eq _ (by decide), shiftLoop_eq _ (by decide), hfirst,
    hsecond, hthird, shiftLoop_zero]

theorem encodeLoop_three (a b c : UInt8) (rest : Bytes) :
    encodeLoop (a :: b :: c :: rest) = group (getBE [a, b, c]) ++ encodeLoop rest := by
  have hlt : getBE [a, b, c] < 256 ^ 3 := getBE_lt [a, b, c]
  cases rest with
  | nil =>
    have hfirst : getBE [a, b, c] * 64 / 2 ^ 24 % 64 = getBE [a, b, c] / 2 ^ 18 := by omega
    have hsecond : getBE [a, b, c] * 64 / 2 ^ (24 - 6) % 64 = getBE [a, b, c] / 2 ^ 12 % 64 := by
      omega
    have hthird : getBE [a, b, c] * 64 / 2 ^ (24 - 6 - 6) % 64 = getBE [a, b, c] / 2 ^ 6 % 64 := by
      omega
    have hfourth : getBE [a, b, c] * 64 / 2 ^ (24 - 6 - 6 - 6) % 64 = getBE [a, b, c] % 64 := by
      omega
    show shiftLoop (getBE [a, b, c]) 24 = _ ++ shiftLoop (getBE []) 0
    rw [shiftLoop_eq _ (by decide), shiftLoop_eq _ (by decide), shiftLoop_eq _ (by decide),
      shiftLoop_eq _ (by decide), hfirst, hsecond, hthird, hfourth, shiftLoop_zero, shiftLoop_zero]
    rfl
  | cons d rest =>
    have hd := d.toNat_lt
    have hvalue : getBE [a, b, c, d] = getBE [a, b, c] * 256 + d.toNat := by
      simp only [getBE, List.length_cons, List.length_nil]
      ring
    have hfirst : getBE [a, b, c, d] / 2 ^ 26 = getBE [a, b, c] / 2 ^ 18 := by omega
    have hsecond : getBE [a, b, c, d] / 2 ^ 20 % 64 = getBE [a, b, c] / 2 ^ 12 % 64 := by omega
    have hthird : getBE [a, b, c, d] / 2 ^ 14 % 64 = getBE [a, b, c] / 2 ^ 6 % 64 := by omega
    have hfourth : getBE [a, b, c, d] / 2 ^ 8 % 64 = getBE [a, b, c] % 64 := by omega
    rw [encodeLoop]
    simp only [and_63, Nat.shiftRight_eq_div_pow, hfirst, hsecond, hthird, hfourth]
    rfl

/-- The string, padding included. -/
def encoded (x : Bytes) : Bytes :=
  encodeLoop x ++ List.replicate ((4 - (encodeLoop x).length % 4) % 4) 0x3D

theorem encoded_one (a : UInt8) :
    encoded [a] = [b64 (a.toNat / 4), b64 (a.toNat * 16 % 64), 0x3D, 0x3D] := by
  rw [encoded, encodeLoop_one]
  rfl

theorem encoded_two (a b : UInt8) :
    encoded [a, b] =
      [b64 (a.toNat / 4), b64 (getBE [a, b] / 16 % 64), b64 (getBE [a, b] * 4 % 64), 0x3D] := by
  rw [encoded, encodeLoop_two]
  rfl

theorem encoded_three (a b c : UInt8) (rest : Bytes) :
    encoded (a :: b :: c :: rest) = group (getBE [a, b, c]) ++ encoded rest := by
  have hlength : (group (getBE [a, b, c]) ++ encodeLoop rest).length % 4 =
      (encodeLoop rest).length % 4 := by
    rw [List.length_append]
    exact Nat.add_mod_left 4 _
  rw [encoded, encodeLoop_three, hlength, List.append_assoc]
  rfl

/-! ## Decoding -/

/-- The bytes stand at a place, and only the one behind them may have changed too. -/
structure Wrote (x : Bytes) (dst : Nat) (o o' : Output) : Prop where
  before : ∀ i < dst, o'.mem i = o.mem i
  content : ∀ i (h : i < x.length), o'.mem (dst + i) = x[i]
  behind : ∀ i, dst + x.length < i → o'.mem i = o.mem i

theorem Wrote.nil (dst : Nat) (o : Output) : Wrote [] dst o o where
  before _ _ := rfl
  content _ h := absurd h (Nat.not_lt_zero _)
  behind _ _ := rfl

variable {n : Nat}

theorem wrote_put {a : UInt8} (h : UInt8.ofNat n = a) (dst : Nat) (o : Output) :
    Wrote [a] dst o (o.put dst n) where
  before i hi := by rw [Output.mem_put, if_neg (Nat.ne_of_lt hi)]
  content i hi := by
    have hi : i = 0 := Nat.lt_one_iff.1 hi
    rw [Output.mem_put, if_pos (by lia), h]
    simp [hi]
  behind i hi := by
    rw [List.length_singleton] at hi
    rw [Output.mem_put, if_neg (by lia)]

theorem Wrote.append {x y : Bytes} {o o' o'' : Output} (hx : Wrote x dst o o')
    (hy : Wrote y (dst + x.length) o' o'') : Wrote (x ++ y) dst o o'' where
  before i hi := by rw [hy.before i (by omega), hx.before i hi]
  content i hi := by
    by_cases h : i < x.length
    · rw [hy.before _ (by omega), hx.content i h, List.getElem_append_left h]
    · have hbehind := hy.content (i - x.length) (by rw [List.length_append] at hi; omega)
      rw [Nat.add_assoc, Nat.add_sub_cancel' (Nat.le_of_not_lt h)] at hbehind
      rw [hbehind, List.getElem_append_right (Nat.le_of_not_lt h)]
  behind i hi := by
    rw [List.length_append] at hi
    rw [hy.behind i (by omega), hx.behind i (by omega)]

theorem Wrote.put_behind {o o' : Output} (hx : Wrote x dst o o') {i : Nat}
    (hi : i = dst + x.length) (n : Nat) : Wrote x dst o (o'.put i n) where
  before k hk := by rw [Output.mem_put, if_neg (by lia), hx.before k hk]
  content k hk := by rw [Output.mem_put, if_neg (by lia), hx.content k hk]
  behind k hk := by rw [Output.mem_put, if_neg (by lia), hx.behind k hk]

theorem ofNat_of_mod {a : UInt8} (h : n % 256 = a.toNat) : UInt8.ofNat n = a := by
  apply UInt8.toNat_inj.mp
  rw [UInt8.toNat_ofNat', h]

theorem wrote_putGroup (a b c : UInt8) (dst : Nat) (o : Output) :
    Wrote [a, b, c] dst o (o.putGroup dst (getBE [a, b, c])) := by
  have ha := a.toNat_lt
  have hb := b.toNat_lt
  have hc := c.toNat_lt
  have hn : getBE [a, b, c] = a.toNat * 65536 + b.toNat * 256 + c.toNat := by
    simp only [getBE, List.length_cons, List.length_nil]
    ring
  have hfirst : UInt8.ofNat (getBE [a, b, c] >>> 16) = a := by
    apply ofNat_of_mod
    rw [Nat.shiftRight_eq_div_pow]
    omega
  have hsecond : UInt8.ofNat (getBE [a, b, c] >>> 8) = b := by
    apply ofNat_of_mod
    rw [Nat.shiftRight_eq_div_pow]
    omega
  have hthird : UInt8.ofNat (getBE [a, b, c]) = c := ofNat_of_mod (by omega)
  exact ((wrote_put hfirst dst o).append (wrote_put hsecond (dst + 1) _)).append
    (wrote_put hthird (dst + 2) _)

theorem base64DecSteps_group (hn : n < 256 ^ 3) (rest : Bytes) (v : Nat) :
    base64DecSteps (group n ++ rest) v = .ok n := by
  have h0 : n / 2 ^ 18 < 64 := by lia
  have h1 := Nat.mod_lt (n / 2 ^ 12) (show 0 < 64 by decide)
  have h2 := Nat.mod_lt (n / 2 ^ 6) (show 0 < 64 by decide)
  have h3 := Nat.mod_lt n (show 0 < 64 by decide)
  have hleading : 4 ≤ leading (group n ++ rest) := by
    rw [group, List.cons_append, List.cons_append, List.cons_append, List.cons_append,
      leading_cons (isSymbol_b64 h0), leading_cons (isSymbol_b64 h1),
      leading_cons (isSymbol_b64 h2), leading_cons (isSymbol_b64 h3)]
    lia
  rw [base64DecSteps_ok hleading]
  simp only [group, List.cons_append, List.getD_cons_zero, List.getD_cons_succ, map2_b64 h0,
    map2_b64 h1, map2_b64 h2, map2_b64 h3, Nat.shiftLeft_eq]
  congr 1
  lia

theorem not_isSymbol_padding : ¬ isSymbol 0x3D := by decide

theorem finish_padding (dst : Nat) : finish (map2 0x3D) dst = (dst : Int).bmod (2 ^ 32) :=
  if_neg (by decide)

theorem finish_nul (dst : Nat) : finish (map2 0) dst = (dst : Int).bmod (2 ^ 32) :=
  if_neg (by decide)

theorem decodeLoop_encoded_nil (v dst : Nat) (o : Output) (space : Nat) :
    decodeLoop (encoded []) v dst o space = ((dst : Int).bmod (2 ^ 32), o) := by
  have hencoded : encoded [] = [] := by simp [encoded, encodeLoop]
  rw [hencoded]
  rcases Nat.eq_zero_or_pos space with rfl | hpos
  · rw [decodeLoop, checkLoop, finish_nul]
  · have hstop : base64DecSteps [] v = .error ⟨0, v, map2 0⟩ := rfl
    rw [decodeLoop_error hpos hstop, ← finish_nul]
    rfl

theorem decodeLoop_encoded_one (a : UInt8) (hspace : 0 < space) (v dst : Nat) (o : Output) :
    decodeLoop (encoded [a]) v dst o space =
      (((dst + 1 : Nat) : Int).bmod (2 ^ 32), o.put dst a.toNat) := by
  have ha := a.toNat_lt
  have h0 : a.toNat / 4 < 64 := by lia
  have h1 := Nat.mod_lt (a.toNat * 16) (show 0 < 64 by decide)
  have hleading : leading (encoded [a]) = 2 := by
    rw [encoded_one, leading_cons (isSymbol_b64 h0), leading_cons (isSymbol_b64 h1),
      leading_cons_of_not not_isSymbol_padding]
  have hvalue : ((a.toNat / 4) <<< 6 + a.toNat * 16 % 64) >>> 4 = a.toNat := by
    rw [Nat.shiftLeft_eq, Nat.shiftRight_eq_div_pow]
    lia
  rw [decodeLoop_error hspace (base64DecSteps_two hleading v), encoded_one]
  simp only [outLabel, List.getD_cons_zero, List.getD_cons_succ, map2_b64 h0, map2_b64 h1, hvalue,
    finish_padding]
  rfl

theorem decodeLoop_encoded_two (a b : UInt8) (hspace : 1 < space) (v dst : Nat) (o : Output) :
    decodeLoop (encoded [a, b]) v dst o space =
      (((dst + 2 : Nat) : Int).bmod (2 ^ 32),
        (o.put dst a.toNat).put (dst + 1) (getBE [a, b])) := by
  have ha := a.toNat_lt
  have hb := b.toNat_lt
  have hn : getBE [a, b] = a.toNat * 256 + b.toNat := by simp [getBE]
  have h0 : a.toNat / 4 < 64 := by lia
  have h1 := Nat.mod_lt (getBE [a, b] / 16) (show 0 < 64 by decide)
  have h2 := Nat.mod_lt (getBE [a, b] * 4) (show 0 < 64 by decide)
  have hleading : leading (encoded [a, b]) = 3 := by
    rw [encoded_two, leading_cons (isSymbol_b64 h0), leading_cons (isSymbol_b64 h1),
      leading_cons (isSymbol_b64 h2), leading_cons_of_not not_isSymbol_padding]
  have hvalue : (((a.toNat / 4) <<< 6 + getBE [a, b] / 16 % 64) <<< 6) + getBE [a, b] * 4 % 64 =
      4 * getBE [a, b] := by
    rw [Nat.shiftLeft_eq, Nat.shiftLeft_eq]
    lia
  have hhigh : (4 * getBE [a, b]) >>> 10 = a.toNat := by
    rw [Nat.shiftRight_eq_div_pow]
    lia
  have hlow : (4 * getBE [a, b]) <<< 2 >>> 4 = getBE [a, b] := by
    rw [Nat.shiftLeft_eq, Nat.shiftRight_eq_div_pow]
    lia
  rw [decodeLoop_error (Nat.zero_lt_of_lt hspace) (base64DecSteps_three hleading v), encoded_two]
  simp only [outLabel, List.getD_cons_zero, List.getD_cons_succ, map2_b64 h0, map2_b64 h1,
    map2_b64 h2, hvalue, hhigh, hlow, finish_padding]
  rfl

theorem decodeLoop_encoded_three (a b c : UInt8) (rest : Bytes)
    (hspace : (a :: b :: c :: rest).length ≤ space) (v dst : Nat) (o : Output) :
    ∃ v' o', decodeLoop (encoded (a :: b :: c :: rest)) v dst o space =
        decodeLoop (encoded rest) v' (dst + 3) o' (space - 3) ∧ Wrote [a, b, c] dst o o' := by
  have hsteps := base64DecSteps_group (getBE_lt [a, b, c]) (encoded rest) v
  have hgroup := wrote_putGroup a b c dst o
  simp only [List.length_cons] at hspace
  obtain ⟨space, rfl⟩ : ∃ k, space = k + 3 := ⟨space - 3, by lia⟩
  rw [encoded_three]
  rcases space with _ | space
  · -- the bounded group, and nothing behind it
    have hrest : rest = [] := List.length_eq_zero_iff.1 (by lia)
    refine ⟨0, _, ?_, hgroup⟩
    rw [decodeLoop_three hsteps, hrest, decodeLoop]
    rfl
  · exact ⟨_, _, decodeLoop_four hsteps, hgroup.put_behind rfl 0⟩

/-- The decoder gives the bytes back. -/
theorem decodeLoop_encoded : ∀ (x : Bytes) {space : Nat}, x.length ≤ space → ∀ v dst o,
    (decodeLoop (encoded x) v dst o space).1 = ((dst + x.length : Nat) : Int).bmod (2 ^ 32) ∧
      Wrote x dst o (decodeLoop (encoded x) v dst o space).2
  | [], space, _, v, dst, o => by
    rw [decodeLoop_encoded_nil, List.length_nil, Nat.add_zero]
    constructor
    · simp
    · exact Wrote.nil dst o
  | [a], space, hspace, v, dst, o => by
    rw [decodeLoop_encoded_one a hspace, List.length_singleton]
    constructor
    · simp
    · exact wrote_put UInt8.ofNat_toNat dst o
  | [a, b], space, hspace, v, dst, o => by
    have hb := b.toNat_lt
    have hlow : getBE [a, b] % 256 = b.toNat := by
      simp only [getBE, List.length_cons, List.length_nil]
      lia
    rw [decodeLoop_encoded_two a b hspace, List.length_cons, List.length_singleton]
    constructor
    · simp
    · exact (wrote_put UInt8.ofNat_toNat dst o).append
        (wrote_put (ofNat_of_mod hlow) (dst + 1) _)
  | a :: b :: c :: rest, space, hspace, v, dst, o => by
    obtain ⟨v', o', hnext, hgroup⟩ := decodeLoop_encoded_three a b c rest hspace v dst o
    have hrest : rest.length ≤ space - 3 := by
      simp only [List.length_cons] at hspace
      lia
    obtain ⟨hret, hwrote⟩ := decodeLoop_encoded rest hrest v' (dst + 3) o'
    have hlength : dst + (a :: b :: c :: rest).length = dst + 3 + rest.length := by
      simp only [List.length_cons]
      lia
    rw [hnext, hlength]
    exact ⟨hret, hgroup.append hwrote⟩

theorem encoded_of_avBase64Encode {outSize : Nat} {s : Bytes}
    (h : avBase64Encode outSize x = some s) : s = encoded x ∧ x.length < 0x3FFFFFFF := by
  unfold avBase64Encode at h
  split_ifs at h with hsize
  exact ⟨(Option.some.inj h).symm, by lia⟩

/-- **Decoding undoes encoding; it keeps to its buffer, and so does the count it returns, unless
the buffer ends one byte into a group that has three symbols.** -/
theorem avBase64Decode_safe (outSize : Nat) (mem : Nat → UInt8) :
    (∀ (x s : Bytes) (encSize : Nat),
      avBase64Encode encSize x = some s → x.length ≤ outSize →
        (avBase64Decode mem s outSize).1 = x.length ∧
        (∀ i (h : i < x.length), (avBase64Decode mem s outSize).2.mem i = x[i]) ∧
        ∀ i, x.length < i → (avBase64Decode mem s outSize).2.mem i = mem i) ∧
      ∀ input : Bytes, outSize ≤ 0x7FFFFFFF →
        ((avBase64Decode mem input outSize).2.top ≤ outSize ∧
            (avBase64Decode mem input outSize).1 ≤ outSize ↔
          ¬ (outSize % 3 = 1 ∧ leading input = 4 * (outSize / 3) + 3)) := by
  constructor
  · intro x s encSize hencode hsize
    obtain ⟨rfl, hlength⟩ := encoded_of_avBase64Encode hencode
    obtain ⟨hret, hwrote⟩ := decodeLoop_encoded x hsize 0 0 ⟨mem, 0⟩
    refine ⟨?_, fun i h => ?_, fun i h => ?_⟩
    · rw [avBase64Decode, hret, Nat.zero_add]
      exact Int.bmod_eq_of_le (by lia) (by lia)
    · have hcontent := hwrote.content i h
      rwa [Nat.zero_add] at hcontent
    · exact hwrote.behind i (by lia)
  · intro input hsize
    exact bounded_decodeLoop_iff hsize (Nat.zero_add outSize) (Nat.zero_le outSize)

/-- Two bytes, decoded with one byte to spare, and four symbols that fill a buffer. -/
theorem avBase64Decode_safe_two :
    (avBase64Decode (fun _ => 7) [0x4D, 0x6A, 0x49, 0x3D] 3).1 = 2 ∧
      (avBase64Decode (fun _ => 7) [0x4D, 0x6A, 0x49, 0x3D] 3).2.top ≤ 3 := by
  have hencode : avBase64Encode 5 [0x32, 0x32] = some [0x4D, 0x6A, 0x49, 0x3D] := by
    show some (encoded [0x32, 0x32]) = _
    rw [encoded_two]
    decide
  have hsafe := ((avBase64Decode_safe 3 (fun _ => 7)).2 [0x4D, 0x6A, 0x49, 0x3D] (by decide)).2
    (by decide)
  exact ⟨((avBase64Decode_safe 3 (fun _ => 7)).1 _ _ 5 hencode (by decide)).1, hsafe.1⟩

/-- Three symbols, and room for one byte: two are written, and counted. -/
theorem avBase64Decode_overrun :
    ¬ ∀ (input : Bytes) (outSize : Nat) (mem : Nat → UInt8), outSize ≤ 0x7FFFFFFF →
      (avBase64Decode mem input outSize).2.top ≤ outSize ∧
        (avBase64Decode mem input outSize).1 ≤ outSize := by
  intro h
  have hone := h [0x41, 0x41, 0x41] 1 (fun _ => 0) (by decide)
  have htop : (avBase64Decode (fun _ => 0) [0x41, 0x41, 0x41] 1).2.top = 2 := by decide
  rw [htop] at hone
  exact absurd hone.1 (by decide)

end FFmpeg.Libavutil.Base64
