import FFmpeg.Libavutil.AesRounds

/-!
# The round keys of the AES cipher

A turn of the loop of `av_aes_init` computes as many words of the key schedule as the
key has, and stores them behind the earlier ones.  Then the round keys are put in the
order in which encryption takes them, or mixed for decryption.
-/

namespace FFmpeg.Libavutil.AesKeys

open Common GaloisByte Fips197 Aes AesTables AesRounds

variable {config : Config} {t : Tables} {kc : Nat} {key : Nat → Word}

/-- The bytes of a word. -/
def wordBytes (w : Word) : Bytes := (List.finRange 4).map w

@[simp] theorem length_wordBytes (w : Word) : (wordBytes w).length = 4 := rfl

theorem addkey_wordBytes (v w : Word) :
    addkey (wordBytes v) (wordBytes w) = wordBytes fun r => v r ^^^ w r := rfl

/-- The key lengths of the standard, in words. -/
def Supported (kc : Nat) : Prop := kc = 4 ∨ kc = 6 ∨ kc = 8

/-! ## One turn -/

variable {tk : List Bytes}

theorem row_set_self {j : Nat} (hj : j < tk.length) (word : Bytes) :
    row (tk.set j word) j = word := getD_set_self hj word []

variable {i : Nat}

theorem row_set_ne (tk : List Bytes) {j : Nat} (h : i ≠ j) (word : Bytes) :
    row (tk.set i word) j = row tk j := getD_set_ne tk h word []

variable {m : Nat}

theorem rcon_eq (hm : m < 10) : Aes.rcon.getD m 0 = xtime^[m] 1 := by
  interval_cases m <;> decide

theorem map_sbox (h : Ready config t) (w : Word) :
    (wordBytes w).map (fun b => t.sbox.getD b.toNat 0) = wordBytes (subWord w) := by
  have hsbox := h.sbox_eq
  show [t.sbox.getD (w 0).toNat 0, t.sbox.getD (w 1).toNat 0, t.sbox.getD (w 2).toNat 0,
    t.sbox.getD (w 3).toNat 0] = _
  rw [hsbox, hsbox, hsbox, hsbox]
  rfl

/-- The words of turn `m` that are there before word `n` of the turn is computed: the new
ones below `n`, and from `n` on those of the turn before. -/
structure Turn (kc : Nat) (key : Nat → Word) (m n : Nat) (tk : List Bytes) : Prop where
  length_eq : tk.length = kc
  new_eq : ∀ j < n, row tk j = wordBytes (expand kc key (kc * m + j + kc))
  old_eq : ∀ j < kc, n ≤ j → row tk j = wordBytes (expand kc key (kc * m + j))

/-- The first word. -/
theorem Turn.first (h : Ready config t) (hpos : 1 < kc) (hm : m < 10) (ht : Turn kc key m 0 tk) :
    Turn kc key m 1 (tk.set 0 (expandFirst t.sbox kc m tk)) := by
  have hold := ht.old_eq 0 (by lia) (Nat.zero_le 0)
  have hlast := ht.old_eq (kc - 1) (by lia) (Nat.zero_le _)
  have hfirst : expandFirst t.sbox kc m tk = wordBytes (expand kc key (kc * m + 0 + kc)) := by
    have hword : expandFirst t.sbox kc m tk = wordBytes fun r =>
        expand kc key (kc * m + 0) r ^^^ (subWord (rotWord (expand kc key (kc * m + (kc - 1)))) r ^^^
          Fips197.rcon (m + 1) r) := by
      have hsbox := h.sbox_eq
      let v := expand kc key (kc * m + 0)
      let w := expand kc key (kc * m + (kc - 1))
      have hrows : expandFirst t.sbox kc m tk =
          [v 0 ^^^ t.sbox.getD (w 1).toNat 0 ^^^ Aes.rcon.getD m 0,
            v 1 ^^^ t.sbox.getD (w 2).toNat 0, v 2 ^^^ t.sbox.getD (w 3).toNat 0,
            v 3 ^^^ t.sbox.getD (w 0).toNat 0] := by
        rw [expandFirst, hold, hlast]
        rfl
      rw [hrows, hsbox, hsbox, hsbox, hsbox, rcon_eq hm]
      -- the constant has one byte that is not zero
      show _ = [v 0 ^^^ (sbox (w 1) ^^^ xtime^[m] 1), v 1 ^^^ (sbox (w 2) ^^^ 0),
        v 2 ^^^ (sbox (w 3) ^^^ 0), v 3 ^^^ (sbox (w 0) ^^^ 0)]
      rw [UInt8.xor_assoc, UInt8.xor_zero, UInt8.xor_zero, UInt8.xor_zero]
    have htemp : temp kc (kc * m + 0 + kc) = fun w r =>
        subWord (rotWord w) r ^^^ Fips197.rcon (m + 1) r := by
      have hmod : (kc * m + 0 + kc) % kc = 0 := by simp
      have hdiv : (kc * m + 0 + kc) / kc = m + 1 := by
        rw [Nat.add_zero, ← Nat.mul_succ, Nat.mul_div_cancel_left _ (by lia)]
      funext w
      rw [temp, if_pos hmod, hdiv]
    rw [hword]
    apply congrArg wordBytes
    funext r
    rw [expand_add (by lia), htemp, show kc * m + 0 + kc - 1 = kc * m + (kc - 1) by lia]
  refine ⟨by rw [List.length_set, ht.length_eq], ?_, ?_⟩
  · intro j hj
    obtain rfl : j = 0 := by lia
    rw [row_set_self (by rw [ht.length_eq]; lia), hfirst]
  · intro j hj hle
    rw [row_set_ne tk (by lia)]
    exact ht.old_eq j hj (Nat.zero_le j)

/-- A word after the first. -/
theorem Turn.step (h : Ready config t) (hkc : Supported kc) {n : Nat} (hn : 0 < n) (hlt : n < kc)
    (ht : Turn kc key m n tk) :
    Turn kc key m (n + 1) (expandStep t.sbox kc tk n) := by
  have hold := ht.old_eq n hlt (Nat.le_refl n)
  have hprev := ht.new_eq (n - 1) (by lia)
  rw [show kc * m + (n - 1) + kc = kc * m + n + kc - 1 by lia] at hprev
  have hmod : (kc * m + n + kc) % kc = n := by
    rw [Nat.add_mod_right, Nat.mul_add_mod, Nat.mod_eq_of_lt hlt]
  have hstep : expandStep t.sbox kc tk n =
      tk.set n (wordBytes (expand kc key (kc * m + n + kc))) := by
    have hword : wordBytes (expand kc key (kc * m + n + kc)) = addkey
        (wordBytes (expand kc key (kc * m + n)))
        (wordBytes (temp kc (kc * m + n + kc) (expand kc key (kc * m + n + kc - 1)))) := by
      rw [addkey_wordBytes]
      apply congrArg wordBytes
      funext r
      rw [expand_add (by lia)]
    have hne : ¬ n = 0 := Nat.ne_of_gt hn
    rw [hword, expandStep, hold, hprev, temp, hmod, if_neg hne]
    -- only keys of eight words have a second word that goes through the S-box
    by_cases hplain : kc ≠ 8 ∨ n ≠ kc / 2
    · have hnot : ¬ (6 < kc ∧ n = 4) := by
        rcases hkc with rfl | rfl | rfl <;> lia
      rw [if_pos hplain, if_neg hnot]
    · have hsub : 6 < kc ∧ n = 4 := by lia
      rw [if_neg hplain, if_pos hsub, map_sbox h]
  rw [hstep]
  refine ⟨by rw [List.length_set, ht.length_eq], ?_, ?_⟩
  · intro j hj
    rcases Nat.lt_succ_iff_lt_or_eq.mp hj with hnew | rfl
    · rw [row_set_ne tk (by lia)]
      exact ht.new_eq j hnew
    · exact row_set_self (by rwa [ht.length_eq]) _
  · intro j hj hle
    rw [row_set_ne tk (by lia)]
    exact ht.old_eq j hj (by lia)

theorem Turn.expandTurn (h : Ready config t) (hkc : Supported kc) (hm : m < 10)
    (ht : Turn kc key m 0 tk) :
    Turn kc key (m + 1) 0 (expandTurn t.sbox kc m tk) := by
  have hfour : 4 ≤ kc := by rcases hkc with rfl | rfl | rfl <;> decide
  have hloop : ∀ n ≤ kc - 1, Turn kc key m (n + 1)
      ((List.range' 1 n).foldl (expandStep t.sbox kc)
        (tk.set 0 (expandFirst t.sbox kc m tk))) := by
    intro n
    induction n with
    | zero => exact fun _ => ht.first h (by lia) hm
    | succ n ih =>
      intro hn
      rw [List.range'_concat, List.foldl_concat, Nat.one_mul, Nat.add_comm 1 n]
      exact (ih (by lia)).step h hkc (by lia) (by lia)
  have hall := hloop (kc - 1) (Nat.le_refl _)
  refine ⟨hall.length_eq, nofun, ?_⟩
  intro j hj _
  have hrow := hall.new_eq j (by lia)
  rw [show kc * (m + 1) + j = kc * m + j + kc by ring]
  exact hrow

/-! ## The whole expansion -/

/-- The words of the key schedule that end by offset `n` are in memory. -/
def Expanded (kc : Nat) (key : Nat → Word) (n : Nat) (roundKey : Bytes) : Prop :=
  ∀ i, 4 * i + 4 ≤ n → slice roundKey (4 * i) 4 = wordBytes (expand kc key i)

/-- The words of a turn, behind those of the turns before. -/
theorem Turn.overwrite (ht : Turn kc key (m + 1) 0 tk) {roundKey : Bytes}
    (hexp : Expanded kc key (kc * 4 * (m + 1)) roundKey)
    (hlength : kc * 4 * (m + 1) ≤ roundKey.length) :
    tk.flatten.length = kc * 4 ∧
      Expanded kc key (kc * 4 * (m + 2)) (overwrite roundKey (kc * 4 * (m + 1)) tk.flatten) := by
  have hrows : ∀ word ∈ tk, word.length = 4 := by
    intro word hword
    obtain ⟨j, hj, rfl⟩ := List.getElem_of_mem hword
    have hrow := ht.old_eq j (by rwa [← ht.length_eq]) (Nat.zero_le j)
    rw [row, List.getD_eq_getElem?_getD, List.getElem?_eq_getElem hj, Option.getD_some] at hrow
    rw [hrow, length_wordBytes]
  have hflatten : tk.flatten.length = kc * 4 := by
    rw [List.length_flatten, List.map_congr_left hrows, List.map_const', List.sum_replicate,
      ht.length_eq, smul_eq_mul]
  refine ⟨hflatten, ?_⟩
  intro i hi
  have hnext : kc * 4 * (m + 2) = kc * 4 * (m + 1) + kc * 4 := by ring
  have hstart : kc * 4 * (m + 1) = 4 * (kc * (m + 1)) := by ring
  by_cases hold : 4 * i + 4 ≤ kc * 4 * (m + 1)
  · rw [slice_overwrite_of_disjoint hlength (Or.inl hold)]
    exact hexp i hold
  · obtain ⟨j, rfl⟩ : ∃ j, i = kc * (m + 1) + j := Nat.exists_eq_add_of_le (by lia)
    have hj : j < tk.length := by
      rw [ht.length_eq]
      lia
    rw [slice_overwrite_of_le hlength (by lia) (by rw [hflatten]; lia),
      show 4 * (kc * (m + 1) + j) - kc * 4 * (m + 1) = 4 * j by lia, slice_flatten hrows hj]
    have hrow := ht.old_eq j (by rwa [← ht.length_eq]) (Nat.zero_le j)
    rwa [row, List.getD_eq_getElem?_getD, List.getElem?_eq_getElem hj, Option.getD_some] at hrow

/-- The loop fills all round keys. -/
theorem expandKey_spec (h : Ready config t) (hkc : Supported kc) {fuel : Nat} {roundKey : Bytes}
    (ht : Turn kc key m 0 tk) (hexp : Expanded kc key (kc * 4 * (m + 1)) roundKey)
    (hlength : roundKey.length = 272) (hfuel : (kc + 7) * 16 ≤ kc * 4 * (m + 1) + fuel)
    (hm : kc * 4 * m < (kc + 7) * 16) :
    Expanded kc key ((kc + 7) * 16)
        (expandKey t.sbox kc (kc + 6) fuel (kc * 4 * (m + 1)) m tk roundKey) ∧
      (expandKey t.sbox kc (kc + 6) fuel (kc * 4 * (m + 1)) m tk roundKey).length = 272 := by
  induction fuel generalizing m tk roundKey with
  | zero =>
    rw [expandKey]
    exact ⟨fun i hi => hexp i (by lia), hlength⟩
  | succ fuel ih =>
    rw [expandKey]
    by_cases hmore : kc * 4 * (m + 1) < (kc + 6 + 1) * 16
    · rw [if_pos hmore]
      have hbounds : m < 10 ∧ kc * 4 * (m + 1) + kc * 4 ≤ 272 ∧ 16 ≤ kc * 4 := by
        rcases hkc with rfl | rfl | rfl <;> lia
      have ht' := ht.expandTurn h hkc hbounds.1
      obtain ⟨hflatten, hexp'⟩ := ht'.overwrite hexp (by lia)
      have hlength' : (Common.overwrite roundKey (kc * 4 * (m + 1))
          (expandTurn t.sbox kc m tk).flatten).length = 272 := by
        rw [length_overwrite_of_le (by lia), hlength]
      have hnext : kc * 4 * (m + 1) + kc * 4 = kc * 4 * (m + 1 + 1) := by ring
      rw [hnext]
      exact ih ht' hexp' hlength' (by lia) (by lia)
    · rw [if_neg hmore]
      exact ⟨fun i hi => hexp i (by lia), hlength⟩

theorem Expanded.block_eq {n : Nat} {roundKey : Bytes} (h : Expanded kc key n roundKey)
    (hi : 16 * i + 16 ≤ n) : block roundKey i = toBytes (Fips197.roundKey kc key i) := by
  have h0 := h (4 * i) (by lia)
  have h1 := h (4 * i + 1) (by lia)
  have h2 := h (4 * i + 2) (by lia)
  have h3 := h (4 * i + 3) (by lia)
  rw [show 4 * (4 * i) = 16 * i by ring] at h0
  rw [show 4 * (4 * i + 1) = 16 * i + 4 by ring] at h1
  rw [show 4 * (4 * i + 2) = 16 * i + 8 by ring] at h2
  rw [show 4 * (4 * i + 3) = 16 * i + 12 by ring] at h3
  rw [block, show 16 = 4 + 4 + 4 + 4 from rfl, slice_add, slice_add, slice_add, h1]
  rw [show 4 + 4 + 4 + 4 = 16 from rfl, h0, show 16 * i + (4 + 4) = 16 * i + 8 by ring, h2,
    show 16 * i + (4 + 4 + 4) = 16 * i + 12 by ring, h3]
  rfl

/-! ## Keys in the order of the rounds -/

theorem block_setBlock_self {roundKey value : Bytes} (hvalue : value.length = 16)
    (hi : 16 * i + 16 ≤ roundKey.length) : block (setBlock roundKey i value) i = value := by
  rw [block, setBlock, slice_overwrite_of_le (by lia) (Nat.le_refl _) (by lia), Nat.sub_self,
    slice, List.drop_zero, List.take_of_length_le (by lia)]

theorem block_setBlock_ne {roundKey value : Bytes} {j : Nat} (hvalue : value.length = 16)
    (hi : 16 * i + 16 ≤ roundKey.length) (hne : i ≠ j) :
    block (setBlock roundKey i value) j = block roundKey j := by
  rw [block, setBlock, slice_overwrite_of_disjoint (by lia) (by lia), block]

theorem length_setBlock {roundKey value : Bytes} (hvalue : value.length = 16)
    (hi : 16 * i + 16 ≤ roundKey.length) :
    (setBlock roundKey i value).length = roundKey.length := by
  rw [setBlock, length_overwrite_of_le (by lia)]

theorem length_block {roundKey : Bytes} (hi : 16 * i + 16 ≤ roundKey.length) :
    (block roundKey i).length = 16 := by
  rw [block, length_slice]
  lia

/-- The loop of swaps turns the round keys round. -/
theorem swapKeys_spec (rounds : Nat) (roundKey : Bytes)
    (hlength : 16 * (rounds + 1) ≤ roundKey.length) {n : Nat} (hn : n ≤ (rounds + 1) / 2) :
    ((List.range n).foldl (swapKeys rounds) roundKey).length = roundKey.length ∧
      ∀ i ≤ rounds, block ((List.range n).foldl (swapKeys rounds) roundKey) i =
        if i < n ∨ rounds - i < n then block roundKey (rounds - i) else block roundKey i := by
  induction n with
  | zero => exact ⟨rfl, fun i _ => by rw [if_neg (by lia)]; rfl⟩
  | succ n ih =>
    obtain ⟨hlen, hblocks⟩ := ih (by lia)
    rw [List.range_succ, List.foldl_concat]
    generalize (List.range n).foldl (swapKeys rounds) roundKey = rk at hlen hblocks
    have hfront : 16 * n + 16 ≤ rk.length := by lia
    have hback : 16 * (rounds - n) + 16 ≤ rk.length := by lia
    have htmp := length_block hback
    have hother := length_block hfront
    have hlen' := length_setBlock hother hback
    refine ⟨by rw [swapKeys, length_setBlock htmp (by lia), hlen', hlen], ?_⟩
    intro i hi
    rw [swapKeys]
    by_cases hin : n = i
    · subst hin
      rw [block_setBlock_self htmp (by lia), hblocks (rounds - n) (by lia),
        if_neg (by lia), if_pos (by lia)]
    · rw [block_setBlock_ne htmp (by lia) hin]
      by_cases hir : rounds - n = i
      · rw [← hir, block_setBlock_self hother hback, hblocks n (by lia), if_neg (by lia),
          if_pos (by lia), show rounds - (rounds - n) = n by lia]
      · rw [block_setBlock_ne hother hback hir, hblocks i hi]
        by_cases hdone : i < n ∨ rounds - i < n
        · rw [if_pos hdone, if_pos (by lia)]
        · rw [if_neg hdone, if_neg (by lia)]

/-- The loop that mixes round keys for decryption. -/
theorem mixKeys_spec (h : Ready config t) (rounds : Nat) {k : Nat → State} (roundKey : Bytes)
    (hlength : 16 * (rounds + 1) ≤ roundKey.length)
    (hkeys : ∀ i ≤ rounds, block roundKey i = toBytes (k i)) {n : Nat} (hn : n < rounds) :
    ((List.range' 1 n).foldl (fun rk i => setBlock rk i (mixKey config t (block rk i)))
        roundKey).length = roundKey.length ∧
      ∀ i ≤ rounds, block ((List.range' 1 n).foldl
        (fun rk i => setBlock rk i (mixKey config t (block rk i))) roundKey) i =
          toBytes (if i ≠ 0 ∧ i ≤ n then invMixColumns (k i) else k i) := by
  induction n with
  | zero => exact ⟨rfl, fun i hi => by rw [if_neg (by lia)]; exact hkeys i hi⟩
  | succ n ih =>
    obtain ⟨hlen, hblocks⟩ := ih (by lia)
    rw [List.range'_concat, List.foldl_concat, Nat.one_mul, Nat.add_comm 1 n]
    generalize (List.range' 1 n).foldl _ roundKey = rk at hlen hblocks
    have hroom : 16 * (n + 1) + 16 ≤ rk.length := by lia
    have hkey := hblocks (n + 1) (by lia)
    rw [if_neg (by lia)] at hkey
    have hmixed := mixKey_eq h (k (n + 1))
    rw [← hkey] at hmixed
    have hsixteen : (mixKey config t (block rk (n + 1))).length = 16 := by
      rw [hmixed, length_toBytes]
    refine ⟨by rw [length_setBlock hsixteen hroom, hlen], ?_⟩
    intro i hi
    by_cases hin : n + 1 = i
    · subst hin
      rw [block_setBlock_self hsixteen hroom, hmixed, if_pos (by lia)]
    · rw [block_setBlock_ne hsixteen hroom hin, hblocks i hi]
      by_cases hdone : i ≠ 0 ∧ i ≤ n
      · rw [if_pos hdone, if_pos (by lia)]
      · rw [if_neg hdone, if_neg (by lia)]

/-! ## `av_aes_init` -/

variable {key : Bytes}

/-- What `av_aes_init` has in memory once all words are there. -/
theorem expandKey_init (h : Ready config t) (hkc : Supported kc) {roundKey : Bytes}
    (hkey : key.length = kc * 4) (hlength : roundKey.length = 272) :
    Expanded kc (keyWords key) ((kc + 7) * 16)
        (expandKey t.sbox kc (kc + 6) ((kc + 6 + 1) * 16) (kc * 4) 0
          ((List.range kc).map fun j => slice key (4 * j) 4)
          (overwrite roundKey 0 (key.take (kc * 4)))) ∧
      (expandKey t.sbox kc (kc + 6) ((kc + 6 + 1) * 16) (kc * 4) 0
          ((List.range kc).map fun j => slice key (4 * j) 4)
          (overwrite roundKey 0 (key.take (kc * 4)))).length = 272 := by
  have hpos : 4 ≤ kc ∧ kc ≤ 8 := by rcases hkc with rfl | rfl | rfl <;> decide
  have hword : ∀ j < kc, slice key (4 * j) 4 = wordBytes (keyWords key j) := by
    intro j hj
    apply ext_getD
    · rw [length_slice, length_wordBytes]
      lia
    · intro i hi
      rw [length_wordBytes] at hi
      rw [List.getD_eq_getElem?_getD, getElem?_slice, if_pos hi, ← List.getD_eq_getElem?_getD]
      interval_cases i <;> rfl
  have htake : key.take (kc * 4) = key := List.take_of_length_le (by lia)
  have hturn : Turn kc (keyWords key) 0 0 ((List.range kc).map fun j => slice key (4 * j) 4) := by
    refine ⟨by rw [List.length_map, List.length_range], nofun, ?_⟩
    intro j hj _
    rw [row, List.getD_eq_getElem?_getD, List.getElem?_map, List.getElem?_range hj, Option.map_some,
      Option.getD_some, hword j hj, Nat.mul_zero, Nat.zero_add, expand_of_lt hj]
  have hexp : Expanded kc (keyWords key) (kc * 4 * (0 + 1)) (overwrite roundKey 0 key) := by
    intro i hi
    rw [slice_overwrite_of_le (Nat.zero_le _) (Nat.zero_le _) (by lia), Nat.sub_zero,
      hword i (by lia), expand_of_lt (by lia)]
  have hlength' : (overwrite roundKey 0 key).length = 272 := by
    rw [length_overwrite_of_le (by lia), hlength]
  rw [htake]
  have hfuel : (kc + 7) * 16 ≤ kc * 4 * (0 + 1) + (kc + 6 + 1) * 16 := by lia
  have hspec := expandKey_spec h hkc hturn hexp hlength' hfuel (by lia)
  rwa [Nat.zero_add, Nat.mul_one] at hspec

/-- The sizes of keys that `av_aes_init` takes. -/
structure KeyOf (key : Bytes) (keyBits : Int) (kc : Nat) : Prop where
  supported : Supported kc
  bits_eq : keyBits = 32 * kc
  length_eq : key.length = kc * 4

variable {t₀ : Tables}

/-- `av_aes_init` for encryption. -/
theorem avAesInit_encrypt (ht : Reached config t₀) {a : AVAES} (ha : a.roundKey.length = 272)
    {keyBits : Int} (hkey : KeyOf key keyBits kc) :
    ∃ t a', avAesInit config t₀ a key keyBits false = (t, a', 0) ∧ Ready config t ∧
      a'.crypt = .aesEncrypt ∧ EncryptKeys (kc + 6) (roundKey kc (keyWords key)) a' := by
  have hready := ht.ready
  have hbits : ¬ (keyBits ≠ 128 ∧ keyBits ≠ 192 ∧ keyBits ≠ 256) := by
    rw [hkey.bits_eq]
    rcases hkey.supported with rfl | rfl | rfl <;> lia
  have hkc : (keyBits / 32).toNat = kc := by
    rw [hkey.bits_eq]
    lia
  obtain ⟨hexp, hlength⟩ := expandKey_init hready hkey.supported hkey.length_eq ha
  have hle : kc ≤ 8 := by rcases hkey.supported with rfl | rfl | rfl <;> decide
  have hinit : avAesInit config t₀ a key keyBits false = (initTables config t₀,
      ⟨(List.range ((kc + 6 + 1) / 2)).foldl (swapKeys (kc + 6))
        (expandKey (initTables config t₀).sbox kc (kc + 6) ((kc + 6 + 1) * 16) (kc * 4) 0
          ((List.range kc).map fun j => slice key (4 * j) 4)
          (overwrite a.roundKey 0 (key.take (kc * 4)))), kc + 6, .aesEncrypt⟩, 0) := by
    rw [avAesInit, if_neg hbits, hkc]
    rfl
  generalize expandKey (initTables config t₀).sbox kc (kc + 6) ((kc + 6 + 1) * 16) (kc * 4) 0
    ((List.range kc).map fun j => slice key (4 * j) 4)
    (overwrite a.roundKey 0 (key.take (kc * 4))) = rk at hexp hlength hinit
  refine ⟨_, _, hinit, hready, rfl, rfl, ?_⟩
  show ∀ i ≤ kc + 6, block ((List.range ((kc + 6 + 1) / 2)).foldl (swapKeys (kc + 6)) rk) i = _
  obtain ⟨_, hblocks⟩ := swapKeys_spec (kc + 6) rk (by lia)
    (Nat.le_refl _)
  intro i hi
  rw [hblocks i hi, hexp.block_eq (i := i) (by lia), hexp.block_eq (i := kc + 6 - i) (by lia)]
  split
  · rfl
  · -- the key in the middle stays
    have hmiddle : i = kc + 6 - i := by
      rcases hkey.supported with rfl | rfl | rfl <;> lia
    rw [← hmiddle]

/-- `av_aes_init` for decryption. -/
theorem avAesInit_decrypt (ht : Reached config t₀) {a : AVAES} (ha : a.roundKey.length = 272)
    {keyBits : Int} (hkey : KeyOf key keyBits kc) :
    ∃ t a', avAesInit config t₀ a key keyBits true = (t, a', 0) ∧ Ready config t ∧
      a'.crypt = .aesDecrypt ∧ DecryptKeys (kc + 6) (roundKey kc (keyWords key)) a' := by
  have hready := ht.ready
  have hbits : ¬ (keyBits ≠ 128 ∧ keyBits ≠ 192 ∧ keyBits ≠ 256) := by
    rw [hkey.bits_eq]
    rcases hkey.supported with rfl | rfl | rfl <;> lia
  have hkc : (keyBits / 32).toNat = kc := by
    rw [hkey.bits_eq]
    lia
  obtain ⟨hexp, hlength⟩ := expandKey_init hready hkey.supported hkey.length_eq ha
  have hle : kc ≤ 8 := by rcases hkey.supported with rfl | rfl | rfl <;> decide
  have hinit : avAesInit config t₀ a key keyBits true = (initTables config t₀,
      ⟨(List.range' 1 (kc + 6 - 1)).foldl
        (fun rk i => setBlock rk i (mixKey config (initTables config t₀) (block rk i)))
        (expandKey (initTables config t₀).sbox kc (kc + 6) ((kc + 6 + 1) * 16) (kc * 4) 0
          ((List.range kc).map fun j => slice key (4 * j) 4)
          (overwrite a.roundKey 0 (key.take (kc * 4)))), kc + 6, .aesDecrypt⟩, 0) := by
    rw [avAesInit, if_neg hbits, hkc]
    rfl
  generalize expandKey (initTables config t₀).sbox kc (kc + 6) ((kc + 6 + 1) * 16) (kc * 4) 0
    ((List.range kc).map fun j => slice key (4 * j) 4)
    (overwrite a.roundKey 0 (key.take (kc * 4))) = rk at hexp hlength hinit
  obtain ⟨_, hblocks⟩ := mixKeys_spec hready (kc + 6) (n := kc + 6 - 1) rk (by lia)
    (fun i hi => hexp.block_eq (i := i) (by lia)) (by lia)
  generalize (List.range' 1 (kc + 6 - 1)).foldl
    (fun rk i => setBlock rk i (mixKey config (initTables config t₀) (block rk i))) rk = keys
    at hinit hblocks
  refine ⟨_, _, hinit, hready, rfl, rfl, ?_, ?_, ?_⟩
  · have hfirst : ¬ (0 ≠ 0 ∧ 0 ≤ kc + 6 - 1) := by lia
    rw [hblocks 0 (Nat.zero_le _), if_neg hfirst]
  · have hlast : ¬ (kc + 6 ≠ 0 ∧ kc + 6 ≤ kc + 6 - 1) := by lia
    rw [hblocks (kc + 6) (Nat.le_refl _), if_neg hlast]
  · intro i hi hpos
    have hmiddle : i ≠ 0 ∧ i ≤ kc + 6 - 1 := by lia
    rw [hblocks i (Nat.le_of_lt hi), if_pos hmiddle]

end FFmpeg.Libavutil.AesKeys
