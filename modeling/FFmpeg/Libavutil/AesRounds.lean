import FFmpeg.Libavutil.AesTables

/-!
# The rounds of the AES cipher

Blocks are states of the standard, column by column.  With the tables filled, `subshift`
and `mix` are the transformations of the standard, and so the loop of `aes_crypt` goes
through the rounds of the cipher, forwards to encrypt a block and backwards to decrypt
it.
-/

namespace FFmpeg.Libavutil.AesRounds

open Common GaloisByte Fips197 Aes AesTables

variable {config : Config} {tbl : List (List UInt32)} {c₀ c₁ c₂ c₃ : UInt8}

/-- A state through a table of the source. -/
def lookup (box : Bytes) (s : State) : State := fun r c => box.getD (s r c).toNat 0

/-! ## Blocks as states -/

theorem addkey_toBytes (s k : State) :
    addkey (toBytes s) (toBytes k) = toBytes (addRoundKey s k) := rfl

theorem slice_toBytes (s : State) (rest : Bytes) : slice (toBytes s ++ rest) 0 16 = toBytes s := by
  rw [slice, List.drop_zero, List.take_left' (length_toBytes s)]

theorem overwrite_toBytes (s s' : State) (rest : Bytes) :
    overwrite (toBytes s ++ rest) 0 (toBytes s') = toBytes s' ++ rest := by
  rw [overwrite, length_toBytes, Nat.zero_add, List.drop_left' (length_toBytes s)]
  rfl

theorem overwrite_second (s s₁ s' : State) :
    overwrite (toBytes s ++ toBytes s₁) 16 (toBytes s') = toBytes s ++ toBytes s' := by
  rw [overwrite, List.take_left' (length_toBytes s), length_toBytes,
    List.drop_eq_nil_of_le (by rw [List.length_append, length_toBytes, length_toBytes]),
    List.append_nil]

/-- Copies through a function, where no place is written twice and none that is read is
written. -/
theorem getD_foldl_copy (f : UInt8 → UInt8) (m : Bytes) (pairs : List (Nat × Nat))
    (hapart : ∀ p ∈ pairs, ∀ q ∈ pairs, p.1 ≠ q.2) (honce : (pairs.map (·.1)).Nodup) {m' : Bytes}
    (hread : ∀ q ∈ pairs, m'.getD q.2 0 = m.getD q.2 0) {n : Nat} (hlt : ∀ p ∈ pairs, p.1 < n)
    (hn : m'.length = n) (i : Nat) :
    (pairs.foldl (fun m p => m.set p.1 (f (m.getD p.2 0))) m').getD i 0 =
      ((pairs.lookup i).map fun j => f (m.getD j 0)).getD (m'.getD i 0) := by
  induction pairs generalizing m' with
  | nil => rfl
  | cons p pairs ih =>
    obtain ⟨d, j⟩ := p
    rw [List.map_cons, List.nodup_cons] at honce
    have hd : d < m'.length := by
      rw [hn]
      exact hlt (d, j) List.mem_cons_self
    have hj : m'.getD j 0 = m.getD j 0 := hread (d, j) List.mem_cons_self
    have hwritten : (m'.set d (f (m'.getD j 0))).length = n := by rw [List.length_set, hn]
    have hrest := ih
      (fun q hq r hr => hapart q (List.mem_cons_of_mem _ hq) r (List.mem_cons_of_mem _ hr)) honce.2
      (fun q hq => by
        rw [getD_set_ne m' (hapart (d, j) List.mem_cons_self q (List.mem_cons_of_mem _ hq))]
        exact hread q (List.mem_cons_of_mem _ hq))
      (fun q hq => hlt q (List.mem_cons_of_mem _ hq)) hwritten
    rw [List.foldl_cons, hrest, List.lookup_cons]
    by_cases hi : i = d
    · subst hi
      have hnone : pairs.lookup i = none := by
        rw [List.lookup_eq_none_iff]
        intro q hq
        rw [bne_iff_ne]
        rintro rfl
        exact honce.1 (List.mem_map.mpr ⟨q, hq, rfl⟩)
      rw [hnone, beq_self_eq_true, hj]
      exact getD_set_self hd _ _
    · rw [beq_false_of_ne hi]
      show ((pairs.lookup i).map _).getD _ = ((pairs.lookup i).map _).getD _
      rw [getD_set_ne m' (Ne.symm hi)]

theorem length_foldl_copy (f : UInt8 → UInt8) (pairs : List (Nat × Nat)) (m : Bytes) :
    (pairs.foldl (fun m p => m.set p.1 (f (m.getD p.2 0))) m).length = m.length := by
  induction pairs generalizing m with
  | nil => rfl
  | cons p pairs ih => rw [List.foldl_cons, ih, List.length_set]

theorem ext_getD {l l' : Bytes} (hlength : l.length = l'.length)
    (h : ∀ i < l'.length, l.getD i 0 = l'.getD i 0) : l = l' := by
  apply List.ext_getElem hlength
  intro i hi hi'
  have heq := h i hi'
  rwa [List.getD_eq_getElem?_getD, List.getD_eq_getElem?_getD, List.getElem?_eq_getElem hi,
    List.getElem?_eq_getElem hi'] at heq

theorem subshift_encrypt (s₀ s : State) (box : Bytes) :
    subshift (toBytes s₀ ++ toBytes s) 0 2 box =
      toBytes (shiftRows (lookup box s)) ++ toBytes s := by
  apply ext_getD
  · rw [subshift, length_foldl_copy fun b => box.getD b.toNat 0]
    rfl
  · intro i hi
    replace hi : i < 32 := hi
    rw [subshift, getD_foldl_copy (fun b => box.getD b.toNat 0) (toBytes s₀ ++ toBytes s) _
      (by decide) (by decide) (fun _ _ => rfl) (n := 32) (by decide) rfl]
    interval_cases i <;> rfl

theorem subshift_decrypt (s₀ s : State) (box : Bytes) :
    subshift (toBytes s₀ ++ toBytes s) 0 0 box =
      toBytes (invShiftRows (lookup box s)) ++ toBytes s := by
  apply ext_getD
  · rw [subshift, length_foldl_copy fun b => box.getD b.toNat 0]
    rfl
  · intro i hi
    replace hi : i < 32 := hi
    rw [subshift, getD_foldl_copy (fun b => box.getD b.toNat 0) (toBytes s₀ ++ toBytes s) _
      (by decide) (by decide) (fun _ _ => rfl) (n := 32) (by decide) rfl]
    interval_cases i <;> rfl

theorem subshift_key (s₀ s₁ s : State) (box : Bytes) :
    subshift (toBytes s₀ ++ (toBytes s₁ ++ toBytes s)) 16 0 box =
      toBytes s₀ ++ (toBytes (invShiftRows (lookup box s)) ++ toBytes s) := by
  apply ext_getD
  · rw [subshift, length_foldl_copy fun b => box.getD b.toNat 0]
    rfl
  · intro i hi
    replace hi : i < 48 := hi
    rw [subshift, getD_foldl_copy (fun b => box.getD b.toNat 0)
      (toBytes s₀ ++ (toBytes s₁ ++ toBytes s)) _ (by decide) (by decide) (fun _ _ => rfl)
      (n := 48) (by decide) rfl]
    interval_cases i <;> rfl

/-! ## Mixing -/

/-- A column of the product, from the tables. -/
theorem bytes_mixCore {a b c d a' b' c' d' : UInt8}
    (ha : HasWords config c₀ c₁ c₂ c₃ tbl a.toNat a')
    (hb : HasWords config c₀ c₁ c₂ c₃ tbl b.toNat b')
    (hc : HasWords config c₀ c₁ c₂ c₃ tbl c.toNat c')
    (hd : HasWords config c₀ c₁ c₂ c₃ tbl d.toNat d') :
    bytesOfU32 config (mixCore config tbl a b c d) =
      [mul c₀ a' ^^^ mul c₃ b' ^^^ mul c₂ c' ^^^ mul c₁ d',
        mul c₁ a' ^^^ mul c₀ b' ^^^ mul c₃ c' ^^^ mul c₂ d',
        mul c₂ a' ^^^ mul c₁ b' ^^^ mul c₀ c' ^^^ mul c₃ d',
        mul c₃ a' ^^^ mul c₂ b' ^^^ mul c₁ c' ^^^ mul c₀ d'] := by
  have hcore : mixCore config tbl a b c d =
      word config (mul c₀ a') (mul c₁ a') (mul c₂ a') (mul c₃ a') ^^^
        word config (mul c₃ b') (mul c₀ b') (mul c₁ b') (mul c₂ b') ^^^
        word config (mul c₂ c') (mul c₃ c') (mul c₀ c') (mul c₁ c') ^^^
        word config (mul c₁ d') (mul c₂ d') (mul c₃ d') (mul c₀ d') := by
    rw [← (rot_word config (mul c₀ b') (mul c₁ b') (mul c₂ b') (mul c₃ b')).1,
      ← (rot_word config (mul c₀ c') (mul c₁ c') (mul c₂ c') (mul c₃ c')).2.1,
      ← (rot_word config (mul c₀ d') (mul c₁ d') (mul c₂ d') (mul c₃ d')).2.2, mixCore]
    cases hsmall : config.small with
    | true =>
      rw [if_pos rfl, ha.first, hb.first, hc.first, hd.first]
      rfl
    | false =>
      rw [if_neg Bool.false_ne_true, ha.first, (hb.others hsmall).1, (hc.others hsmall).2.1,
        (hd.others hsmall).2.2]
      rfl
  rw [hcore, bytesOfU32_xor, bytesOfU32_xor, bytesOfU32_xor, bytesOfU32_word, bytesOfU32_word,
    bytesOfU32_word, bytesOfU32_word]
  rfl

/-- The coefficients of a table. -/
def coefficients (c₀ c₁ c₂ c₃ : UInt8) : Word := ![c₀, c₁, c₂, c₃]

theorem mix_encrypt (s s' : State)
    (h : ∀ r c, HasWords config c₀ c₁ c₂ c₃ tbl (s r c).toNat (s' r c)) (s₀ : State) (rest : Bytes) :
    mix config (toBytes s₀ ++ (toBytes s ++ rest)) tbl 1 3 =
      toBytes (circulant (coefficients c₀ c₁ c₂ c₃) (shiftRows s')) ++ (toBytes s ++ rest) := by
  have hcolumns :
      bytesOfU32 config (mixCore config tbl (s 0 0) (s 1 1) (s 2 2) (s 3 3)) ++
        bytesOfU32 config (mixCore config tbl (s 0 1) (s 1 2) (s 2 3) (s 3 0)) ++
        bytesOfU32 config (mixCore config tbl (s 0 2) (s 1 3) (s 2 0) (s 3 1)) ++
        bytesOfU32 config (mixCore config tbl (s 0 3) (s 1 0) (s 2 1) (s 3 2)) =
      toBytes (circulant (coefficients c₀ c₁ c₂ c₃) (shiftRows s')) := by
    rw [bytes_mixCore (h 0 0) (h 1 1) (h 2 2) (h 3 3), bytes_mixCore (h 0 1) (h 1 2) (h 2 3) (h 3 0),
      bytes_mixCore (h 0 2) (h 1 3) (h 2 0) (h 3 1), bytes_mixCore (h 0 3) (h 1 0) (h 2 1) (h 3 2)]
    rfl
  rw [← overwrite_toBytes s₀ (circulant _ _), ← hcolumns]
  rfl

theorem mix_decrypt (s s' : State)
    (h : ∀ r c, HasWords config c₀ c₁ c₂ c₃ tbl (s r c).toNat (s' r c)) (s₀ : State) :
    mix config (toBytes s₀ ++ toBytes s) tbl 3 1 =
      toBytes (circulant (coefficients c₀ c₁ c₂ c₃) (invShiftRows s')) ++ toBytes s := by
  have hcolumns :
      bytesOfU32 config (mixCore config tbl (s 0 0) (s 1 3) (s 2 2) (s 3 1)) ++
        bytesOfU32 config (mixCore config tbl (s 0 1) (s 1 0) (s 2 3) (s 3 2)) ++
        bytesOfU32 config (mixCore config tbl (s 0 2) (s 1 1) (s 2 0) (s 3 3)) ++
        bytesOfU32 config (mixCore config tbl (s 0 3) (s 1 2) (s 2 1) (s 3 0)) =
      toBytes (circulant (coefficients c₀ c₁ c₂ c₃) (invShiftRows s')) := by
    rw [bytes_mixCore (h 0 0) (h 1 3) (h 2 2) (h 3 1), bytes_mixCore (h 0 1) (h 1 0) (h 2 3) (h 3 2),
      bytes_mixCore (h 0 2) (h 1 1) (h 2 0) (h 3 3), bytes_mixCore (h 0 3) (h 1 2) (h 2 1) (h 3 0)]
    rfl
  rw [← overwrite_toBytes s₀ (circulant _ _), ← hcolumns]
  rfl

/-! ## With the tables filled -/

section Ready

variable {t : Tables}

theorem lookup_sbox (h : Ready config t) (s : State) : lookup t.sbox s = subBytes s := by
  funext r c
  exact h.sbox_eq (s r c)

theorem lookup_invSbox (h : Ready config t) (s : State) :
    lookup t.invSbox (shiftRows (subBytes s)) = shiftRows s := by
  funext r c
  exact h.invSbox_eq (s r (c + r))

theorem mix_encMultbl (h : Ready config t) (s₀ s : State) :
    mix config (toBytes s₀ ++ toBytes s) t.encMultbl 1 3 =
      toBytes (mixColumns (shiftRows (subBytes s))) ++ toBytes s := by
  have hmix := mix_encrypt s (subBytes s) (fun r c => h.encMultbl_eq (s r c)) s₀ []
  rw [List.append_nil] at hmix
  exact hmix

theorem mix_decMultbl (h : Ready config t) (s₀ s : State) :
    mix config (toBytes s₀ ++ toBytes (shiftRows (subBytes s))) t.decMultbl 3 1 =
      toBytes (invMixColumns s) ++ toBytes (shiftRows (subBytes s)) := by
  have hmix := mix_decrypt (shiftRows (subBytes s)) (shiftRows s)
    (fun r c => h.decMultbl_eq (s r (c + r))) s₀
  rw [invShiftRows_shiftRows] at hmix
  exact hmix

theorem mixKey_eq (h : Ready config t) (k : State) :
    mixKey config t (toBytes k) = toBytes (invMixColumns k) := by
  let zero : State := fun _ _ => 0
  have hsub : subshift (List.replicate 32 0 ++ toBytes k) 16 0 t.sbox =
      toBytes zero ++ (toBytes (invShiftRows (subBytes k)) ++ toBytes k) := by
    rw [← lookup_sbox h]
    exact subshift_key zero zero k t.sbox
  have hmix := mix_encrypt (invShiftRows (subBytes k)) (invShiftRows k)
    (fun r c => h.decMultbl_eq (k r (c - r))) zero (toBytes k)
  rw [mixKey]
  simp only [hsub, hmix, slice_toBytes]
  rw [shiftRows_invShiftRows]
  rfl

/-! ## The loop -/

variable {a : AVAES}

/-- The loop of `aes_crypt` goes from `x n` to `x 0`, where each of its rounds goes one
step. -/
theorem aesCryptLoop_eq {s : Nat} {x : Nat → State} {n : Nat}
    (hstep : ∀ r < n, ∀ s₀ : State, ∃ y : State, mix config (toBytes s₀ ++ toBytes (x (r + 1))) tbl (3 - s) (1 + s) = toBytes y ++ toBytes (x (r + 1)) ∧ addkey (toBytes y) (block a.roundKey (r + 1)) = toBytes (x r))
    (s₀ : State) :
    ∃ s₀' : State, aesCryptLoop config a s tbl n (toBytes s₀ ++ toBytes (x n)) =
      toBytes s₀' ++ toBytes (x 0) := by
  induction n generalizing s₀ with
  | zero => exact ⟨s₀, rfl⟩
  | succ n ih =>
    obtain ⟨y, hmix, hadd⟩ := hstep n (Nat.lt_succ_self n) s₀
    obtain ⟨s₀', hloop⟩ := ih (fun r hr => hstep r (Nat.lt_succ_of_lt hr)) y
    refine ⟨s₀', ?_⟩
    rw [aesCryptLoop, hmix, slice_toBytes, hadd, overwrite_second]
    exact hloop

/-- The round keys of a context for encryption: the last one first. -/
structure EncryptKeys (nr : Nat) (k : Nat → State) (a : AVAES) : Prop where
  rounds_eq : a.rounds = nr
  block_eq : ∀ i ≤ nr, block a.roundKey i = toBytes (k (nr - i))

/-- The round keys of a context for decryption: all but the outer ones are mixed. -/
structure DecryptKeys (nr : Nat) (k : Nat → State) (a : AVAES) : Prop where
  rounds_eq : a.rounds = nr
  first_eq : block a.roundKey 0 = toBytes (k 0)
  last_eq : block a.roundKey nr = toBytes (k nr)
  block_eq : ∀ i < nr, i ≠ 0 → block a.roundKey i = toBytes (invMixColumns (k i))

variable {k : Nat → State}

/-- `aes_crypt` for encryption, between the first and the last key. -/
theorem aesCrypt_encrypt (h : Ready config t) {nr : Nat} (hkeys : EncryptKeys nr k a) (p : State) :
    slice (aesCrypt config a 2 t.sbox t.encMultbl (scratch (toBytes (addRoundKey p (k 0))))) 0 16 =
      toBytes (shiftRows (subBytes (rounds k p (nr - 1)))) := by
  let x : Nat → State := fun r => rounds k p (nr - 1 - r)
  have hstep : ∀ r < nr - 1, ∀ s₀ : State, ∃ y : State,
      mix config (toBytes s₀ ++ toBytes (x (r + 1))) t.encMultbl (3 - 2) (1 + 2) =
        toBytes y ++ toBytes (x (r + 1)) ∧
      addkey (toBytes y) (block a.roundKey (r + 1)) = toBytes (x r) := by
    intro r hr s₀
    refine ⟨_, mix_encMultbl h s₀ (x (r + 1)), ?_⟩
    have hround : nr - 1 - r = nr - 1 - (r + 1) + 1 := by lia
    have hkey : nr - (r + 1) = nr - 1 - (r + 1) + 1 := by lia
    rw [hkeys.block_eq (r + 1) (by lia), addkey_toBytes, hkey]
    show _ = toBytes (rounds k p (nr - 1 - r))
    rw [hround]
    rfl
  obtain ⟨s₀', hloop⟩ := aesCryptLoop_eq hstep fun _ _ => 0
  have hstart : x (nr - 1) = addRoundKey p (k 0) := by
    show rounds k p (nr - 1 - (nr - 1)) = _
    rw [Nat.sub_self]
    rfl
  rw [hstart] at hloop
  rw [aesCrypt, hkeys.rounds_eq]
  change slice (subshift (aesCryptLoop config a 2 t.encMultbl (nr - 1)
    (toBytes (fun _ _ => 0) ++ toBytes (addRoundKey p (k 0)))) 0 2 t.sbox) 0 16 = _
  rw [hloop, subshift_encrypt, slice_toBytes, lookup_sbox h]
  rfl

theorem aesCrypt_decrypt (h : Ready config t) {nr : Nat} (hkeys : DecryptKeys nr k a) (p : State) :
    slice (aesCrypt config a 0 t.invSbox t.decMultbl
        (scratch (toBytes (shiftRows (subBytes (rounds k p (nr - 1))))))) 0 16 =
      toBytes (addRoundKey p (k 0)) := by
  let x : Nat → State := fun r => shiftRows (subBytes (rounds k p r))
  have hstep : ∀ r < nr - 1, ∀ s₀ : State, ∃ y : State,
      mix config (toBytes s₀ ++ toBytes (x (r + 1))) t.decMultbl (3 - 0) (1 + 0) =
        toBytes y ++ toBytes (x (r + 1)) ∧
      addkey (toBytes y) (block a.roundKey (r + 1)) = toBytes (x r) := by
    intro r hr s₀
    refine ⟨_, mix_decMultbl h s₀ (rounds k p (r + 1)), ?_⟩
    rw [hkeys.block_eq (r + 1) (by lia) (by lia), addkey_toBytes]
    apply congrArg toBytes
    exact invMixColumns_round (shiftRows (subBytes (rounds k p r))) (k (r + 1))
  obtain ⟨s₀', hloop⟩ := aesCryptLoop_eq hstep fun _ _ => 0
  rw [aesCrypt, hkeys.rounds_eq]
  change slice (subshift (aesCryptLoop config a 0 t.decMultbl (nr - 1)
    (toBytes (fun _ _ => 0) ++ toBytes (x (nr - 1)))) 0 0 t.invSbox) 0 16 = _
  rw [hloop, subshift_decrypt, slice_toBytes, lookup_invSbox h, invShiftRows_shiftRows]
  rfl

end Ready

end FFmpeg.Libavutil.AesRounds
