import FFmpeg.Common.BlockMode
import FFmpeg.Libavutil.AesKeys

/-!
# The AES cipher meets the standard

`av_aes_crypt` encrypts blocks as FIPS 197 says, each by itself or chained to an initial
value, and decrypts them again, also where the output takes the place of the input.
-/

namespace FFmpeg.Libavutil.AesFips197

open Common Fips197 BlockMode Aes AesTables AesRounds AesKeys

variable {config : Config} {t : Tables} {a : AVAES}

/-- Where `av_aes_crypt` reads and writes `count` blocks: inside the memory, at the same
place or at places that do not overlap. -/
structure Buffers (mem : Bytes) (dst src count : Nat) : Prop where
  src_le : src + 16 * count ≤ mem.length
  dst_le : dst + 16 * count ≤ mem.length
  apart : src = dst ∨ src + 16 * count ≤ dst ∨ dst + 16 * count ≤ src

/-- The blocks to be read. -/
def sourceBlocks (mem : Bytes) (src count : Nat) : List Bytes :=
  toBlocks 16 count (slice mem src (16 * count))

theorem sourceBlocks_succ (mem : Bytes) (src count : Nat) :
    sourceBlocks mem src (count + 1) = slice mem src 16 :: sourceBlocks mem (src + 16) count := by
  rw [sourceBlocks, toBlocks, take_slice, drop_slice, Nat.min_eq_left (by lia),
    show 16 * (count + 1) - 16 = 16 * count by lia]
  rfl

variable {mem : Bytes} {dst : Nat}

theorem Buffers.write {src count : Nat} (h : Buffers mem dst src (count + 1)) {c : Bytes}
    (hc : c.length = 16) :
    Buffers (overwrite mem dst c) (dst + 16) (src + 16) count ∧
      sourceBlocks (overwrite mem dst c) (src + 16) count = sourceBlocks mem (src + 16) count := by
  have hsrc := h.src_le
  have hdst := h.dst_le
  have happart := h.apart
  have hlength : (overwrite mem dst c).length = mem.length := length_overwrite_of_le (by lia)
  refine ⟨⟨by lia, by lia, by lia⟩, ?_⟩
  rw [sourceBlocks, slice_overwrite_of_disjoint (by lia) (by lia)]
  rfl

theorem exists_toBytes {x : Bytes} (h : x.length = 16) : ∃ s : State, x = toBytes s :=
  ⟨ofBytes x, (toBytes_ofBytes h).symm⟩

theorem chained_toBytes (p w k : State) :
    ofBytes (chained addkey (some (toBytes w)) (toBytes p)) = addRoundKey p w ∧
      addkey (toBytes w) (addkey (toBytes p) (toBytes k)) =
        toBytes (addRoundKey (addRoundKey p w) k) := by
  refine ⟨ofBytes_toBytes (addRoundKey p w), ?_⟩
  show toBytes (addRoundKey w (addRoundKey p k)) = _
  apply congrArg toBytes
  funext r c
  show w r c ^^^ (p r c ^^^ k r c) = p r c ^^^ w r c ^^^ k r c
  ac_rfl

/-- The cipher on the bytes of a block. -/
def cipherBytes (nr : Nat) (k : Nat → State) (block : Bytes) : Bytes :=
  toBytes (cipher nr k (ofBytes block))

variable {nr : Nat} {k : Nat → State}

theorem aesEncrypt_block (h : Ready config t) (hkeys : EncryptKeys nr k a) (p : State) :
    addkey (slice (aesCrypt config a 2 t.sbox t.encMultbl
      (scratch (toBytes (addRoundKey p (k 0))))) 0 16) (block a.roundKey 0) =
        toBytes (cipher nr k p) := by
  have hlast : block a.roundKey 0 = toBytes (k nr) := hkeys.block_eq 0 (Nat.zero_le nr)
  rw [aesCrypt_encrypt h hkeys, hlast, addkey_toBytes]
  rfl

variable {iv : Option Bytes}

/-- One turn of the loop of `aes_encrypt`. -/
theorem aesEncrypt_succ (h : Ready config t) (hkeys : EncryptKeys nr k a) {src count : Nat}
    (hbuf : Buffers mem dst src (count + 1)) (hiv : ∀ v ∈ iv, v.length = 16) :
    aesEncrypt config t a (count + 1) mem dst src iv =
      aesEncrypt config t a count
        (overwrite mem dst (cipherBytes nr k (chained addkey iv (slice mem src 16)))) (dst + 16)
        (src + 16) (iv.map fun _ => cipherBytes nr k (chained addkey iv (slice mem src 16))) := by
  have hsrc := hbuf.src_le
  have hdst := hbuf.dst_le
  have hfirst : block a.roundKey a.rounds = toBytes (k 0) := by
    rw [hkeys.rounds_eq, hkeys.block_eq nr (Nat.le_refl nr), Nat.sub_self]
  obtain ⟨p, hp⟩ := exists_toBytes (x := slice mem src 16) (by rw [length_slice]; lia)
  -- what `aes_encrypt` stores is what it reads back as the next initial value
  have hback : ∀ c : Bytes, c.length = 16 → slice (overwrite mem dst c) dst 16 = c := by
    intro c hc
    rw [slice_overwrite_of_le (by lia) (Nat.le_refl _) (by lia), Nat.sub_self, slice,
      List.drop_zero, List.take_of_length_le (by lia)]
  cases iv with
  | none =>
    rw [aesEncrypt, hp, hfirst]
    simp only [addkey_toBytes, aesEncrypt_block h hkeys, Option.map_none, chained, cipherBytes,
      ofBytes_toBytes]
  | some v =>
    obtain ⟨w, rfl⟩ := exists_toBytes (hiv v rfl)
    obtain ⟨hstate, hbytes⟩ := chained_toBytes p w (k 0)
    rw [aesEncrypt, hp, hfirst, cipherBytes, hstate]
    simp only [hbytes, aesEncrypt_block h hkeys, Option.map_some]
    rw [hback _ (length_toBytes _)]

/-- The initial value for the next call: the last block of cipher text. -/
def nextIv (iv : Option Bytes) (blocks : List Bytes) : Option Bytes :=
  iv.map fun v => blocks.getLastD v

theorem nextIv_cons (iv : Option Bytes) (c : Bytes) (blocks : List Bytes) :
    nextIv (iv.map fun _ => c) blocks = nextIv iv (c :: blocks) := by
  cases iv with
  | none => rfl
  | some v => exact congrArg some List.getLastD_cons.symm

/-- `aes_encrypt`. -/
theorem aesEncrypt_eq (h : Ready config t) (hkeys : EncryptKeys nr k a) {src count : Nat}
    (hbuf : Buffers mem dst src count) (hiv : ∀ v ∈ iv, v.length = 16) :
    aesEncrypt config t a count mem dst src iv =
      (overwrite mem dst
        (encryptBlocks addkey (cipherBytes nr k) iv (sourceBlocks mem src count)).flatten,
        nextIv iv (encryptBlocks addkey (cipherBytes nr k) iv (sourceBlocks mem src count))) := by
  induction count generalizing mem dst src iv with
  | zero =>
    show (mem, iv) = _
    rw [sourceBlocks, toBlocks, encryptBlocks_nil, List.flatten_nil, overwrite_nil, nextIv]
    cases iv <;> rfl
  | succ count ih =>
    have hdst := hbuf.dst_le
    have hlength : (cipherBytes nr k (chained addkey iv (slice mem src 16))).length = 16 :=
      length_toBytes _
    obtain ⟨hbuf', hblocks⟩ := hbuf.write hlength
    have hiv' : ∀ v ∈ iv.map (fun _ => cipherBytes nr k (chained addkey iv (slice mem src 16))),
        v.length = 16 := by
      intro v hv
      obtain ⟨_, _, rfl⟩ := Option.map_eq_some_iff.mp hv
      exact hlength
    rw [aesEncrypt_succ h hkeys hbuf hiv, ih hbuf' hiv', hblocks, sourceBlocks_succ,
      encryptBlocks_cons, List.flatten_cons]
    have hadjacent := overwrite_overwrite (l := mem) (i := dst)
      (a := cipherBytes nr k (chained addkey iv (slice mem src 16)))
      (b := (encryptBlocks addkey (cipherBytes nr k)
        (iv.map fun _ => cipherBytes nr k (chained addkey iv (slice mem src 16)))
        (sourceBlocks mem (src + 16) count)).flatten) (by lia)
    rw [hlength] at hadjacent
    rw [hadjacent, nextIv_cons]

/-! ## Decryption -/

theorem aesDecrypt_block (h : Ready config t) (hkeys : DecryptKeys nr k a) (p : State) :
    slice (aesCrypt config a 0 t.invSbox t.decMultbl
      (scratch (addkey (toBytes (cipher nr k p)) (block a.roundKey a.rounds)))) 0 16 =
        toBytes (addRoundKey p (k 0)) := by
  have hundo : addkey (toBytes (cipher nr k p)) (block a.roundKey a.rounds) =
      toBytes (shiftRows (subBytes (rounds k p (nr - 1)))) := by
    rw [hkeys.rounds_eq, hkeys.last_eq, addkey_toBytes]
    apply congrArg toBytes
    funext r c
    show shiftRows (subBytes (rounds k p (nr - 1))) r c ^^^ k nr r c ^^^ k nr r c = _
    rw [UInt8.xor_assoc, UInt8.xor_self, UInt8.xor_zero]
  rw [hundo, aesCrypt_decrypt h hkeys]

/-- One turn of the loop of `aes_decrypt`, on a block of cipher text. -/
theorem aesDecrypt_succ (h : Ready config t) (hkeys : DecryptKeys nr k a) {src count : Nat}
    (hiv : ∀ v ∈ iv, v.length = 16) {p : Bytes} (hp : p.length = 16)
    (hsrc : slice mem src 16 = cipherBytes nr k (chained addkey iv p)) :
    aesDecrypt config t a (count + 1) mem dst src iv =
      aesDecrypt config t a count (overwrite mem dst p) (dst + 16) (src + 16)
        (iv.map fun _ => cipherBytes nr k (chained addkey iv p)) := by
  obtain ⟨s, rfl⟩ := exists_toBytes hp
  cases iv with
  | none =>
    have hplain : addkey (toBytes (addRoundKey s (k 0))) (block a.roundKey 0) = toBytes s := by
      rw [hkeys.first_eq, addkey_toBytes]
      apply congrArg toBytes
      funext r c
      show s r c ^^^ k 0 r c ^^^ k 0 r c = s r c
      rw [UInt8.xor_assoc, UInt8.xor_self, UInt8.xor_zero]
    rw [aesDecrypt, hsrc]
    simp only [chained, cipherBytes, ofBytes_toBytes, aesDecrypt_block h hkeys, hplain,
      Option.map_none]
  | some v =>
    obtain ⟨w, rfl⟩ := exists_toBytes (hiv v rfl)
    obtain ⟨hstate, _⟩ := chained_toBytes s w (k 0)
    have hplain : addkey (addkey (toBytes w) (toBytes (addRoundKey (addRoundKey s w) (k 0))))
        (block a.roundKey 0) = toBytes s := by
      rw [hkeys.first_eq, addkey_toBytes, addkey_toBytes]
      apply congrArg toBytes
      funext r c
      show w r c ^^^ (s r c ^^^ w r c ^^^ k 0 r c) ^^^ k 0 r c = s r c
      rw [show w r c ^^^ (s r c ^^^ w r c ^^^ k 0 r c) ^^^ k 0 r c =
        s r c ^^^ (w r c ^^^ w r c) ^^^ (k 0 r c ^^^ k 0 r c) by ac_rfl, UInt8.xor_self,
        UInt8.xor_self, UInt8.xor_zero, UInt8.xor_zero]
    rw [aesDecrypt, hsrc]
    simp only [cipherBytes, hstate, aesDecrypt_block h hkeys, hplain, Option.map_some]

variable {blocks : List Bytes}

/-- `aes_decrypt` on the cipher text of `blocks`. -/
theorem aesDecrypt_eq (h : Ready config t) (hkeys : DecryptKeys nr k a) {src : Nat}
    (hlength : ∀ p ∈ blocks, p.length = 16) (hbuf : Buffers mem dst src blocks.length)
    (hiv : ∀ v ∈ iv, v.length = 16)
    (hsrc : sourceBlocks mem src blocks.length = encryptBlocks addkey (cipherBytes nr k) iv blocks) :
    aesDecrypt config t a blocks.length mem dst src iv =
      (overwrite mem dst blocks.flatten,
        nextIv iv (encryptBlocks addkey (cipherBytes nr k) iv blocks)) := by
  induction blocks generalizing mem dst src iv with
  | nil =>
    show (mem, iv) = _
    rw [encryptBlocks_nil, List.flatten_nil, overwrite_nil, nextIv]
    cases iv <;> rfl
  | cons p ps ih =>
    rw [List.length_cons] at hbuf hsrc ⊢
    have hdst := hbuf.dst_le
    have hp := hlength p List.mem_cons_self
    obtain ⟨hbuf', hblocks⟩ := hbuf.write hp
    rw [sourceBlocks_succ, encryptBlocks_cons] at hsrc
    injection hsrc with hfirst hrest
    have hiv' : ∀ v ∈ iv.map (fun _ => cipherBytes nr k (chained addkey iv p)), v.length = 16 := by
      intro v hv
      obtain ⟨_, _, rfl⟩ := Option.map_eq_some_iff.mp hv
      exact length_toBytes _
    rw [aesDecrypt_succ h hkeys hiv hp hfirst,
      ih (fun q hq => hlength q (List.mem_cons_of_mem p hq)) hbuf' hiv' (hblocks.trans hrest),
      List.flatten_cons]
    have hadjacent := overwrite_overwrite (l := mem) (i := dst) (a := p) (b := ps.flatten) (by lia)
    rw [hp] at hadjacent
    rw [hadjacent, encryptBlocks_cons, nextIv_cons]

/-! ## Both directions -/

theorem mem_sourceBlocks {src count : Nat} (h : src + 16 * count ≤ mem.length) {p : Bytes}
    (hp : p ∈ sourceBlocks mem src count) : p.length = 16 := by
  apply length_of_mem_toBlocks ?_ hp
  rw [length_slice]
  lia

theorem sourceBlocks_overwrite (hblocks : ∀ c ∈ blocks, c.length = 16)
    (hdst : dst + 16 * blocks.length ≤ mem.length) :
    sourceBlocks (overwrite mem dst blocks.flatten) dst blocks.length = blocks := by
  have hlength : blocks.flatten.length = 16 * blocks.length := by
    rw [List.length_flatten, List.map_congr_left hblocks, List.map_const', List.sum_replicate,
      smul_eq_mul, Nat.mul_comm]
  rw [sourceBlocks, slice_overwrite_of_le (by lia) (Nat.le_refl _) (by lia), Nat.sub_self, slice,
    List.drop_zero, List.take_of_length_le (by lia), toBlocks_flatten hblocks]

variable {key : Bytes} {keyBits : Int}

theorem exists_keyOf (hbits : keyBits = 128 ∨ keyBits = 192 ∨ keyBits = 256)
    (hkey : 8 * (key.length : Int) = keyBits) : ∃ kc, KeyOf key keyBits kc := by
  rcases hbits with h | h | h
  · exact ⟨4, Or.inl rfl, h, by lia⟩
  · exact ⟨6, Or.inr (Or.inl rfl), h, by lia⟩
  · exact ⟨8, Or.inr (Or.inr rfl), h, by lia⟩

theorem encrypt_eq_cipherBytes {kc : Nat} (hkc : KeyOf key keyBits kc) :
    encrypt key = cipherBytes (kc + 6) (roundKey kc (keyWords key)) := by
  have hnk : key.length / 4 = kc := by
    rw [hkc.length_eq]
    lia
  funext block
  rw [encrypt, hnk]
  rfl

theorem avAesInit_encrypts {t : Tables} (ht : Reached config t) {a : AVAES}
    (ha : a.roundKey.length = 272) (hbits : keyBits = 128 ∨ keyBits = 192 ∨ keyBits = 256)
    (hkey : 8 * (key.length : Int) = keyBits) :
    ∃ t₁ enc, avAesInit config t a key keyBits false = (t₁, enc, 0) ∧
      ∀ (mem : Bytes) (dst src count : Nat) (iv : Option Bytes), Buffers mem dst src count →
        (∀ v ∈ iv, v.length = 16) →
        avAesCrypt config t₁ enc mem dst src count iv =
          (overwrite mem dst
            (encryptBlocks addkey (encrypt key) iv (sourceBlocks mem src count)).flatten,
            nextIv iv (encryptBlocks addkey (encrypt key) iv (sourceBlocks mem src count))) := by
  obtain ⟨kc, hkc⟩ := exists_keyOf hbits hkey
  obtain ⟨t₁, enc, hinit, hready, hcrypt, hkeys⟩ := avAesInit_encrypt ht ha hkc
  refine ⟨t₁, enc, hinit, fun mem dst src count iv hbuf hiv => ?_⟩
  rw [avAesCrypt, hcrypt, encrypt_eq_cipherBytes hkc]
  exact aesEncrypt_eq hready hkeys hbuf hiv

/-- For every key of 128, 192 or 256 bits, whatever calls came before and whatever the
contexts held, `av_aes_crypt` with the first context encrypts any number of blocks as the
standard does, and with the second context it gets them back from the cipher text,
wherever that is. -/
theorem avAesCrypt_fips197 {t t' : Tables} (ht : Reached config t) (ht' : Reached config t')
    {a a' : AVAES} (ha : a.roundKey.length = 272) (ha' : a'.roundKey.length = 272)
    {key : Bytes} {keyBits : Int} (hbits : keyBits = 128 ∨ keyBits = 192 ∨ keyBits = 256)
    (hkey : 8 * (key.length : Int) = keyBits) :
    ∃ t₁ enc t₂ dec, avAesInit config t a key keyBits false = (t₁, enc, 0) ∧
      avAesInit config t' a' key keyBits true = (t₂, dec, 0) ∧
      ∀ (mem : Bytes) (dst src count : Nat) (iv : Option Bytes), Buffers mem dst src count →
        (∀ v ∈ iv, v.length = 16) →
        avAesCrypt config t₁ enc mem dst src count iv =
          (overwrite mem dst
            (encryptBlocks addkey (encrypt key) iv (sourceBlocks mem src count)).flatten,
            nextIv iv (encryptBlocks addkey (encrypt key) iv (sourceBlocks mem src count))) ∧
        ∀ (mem' : Bytes) (dst' src' : Nat), Buffers mem' dst' src' count →
          sourceBlocks mem' src' count =
            encryptBlocks addkey (encrypt key) iv (sourceBlocks mem src count) →
          avAesCrypt config t₂ dec mem' dst' src' count iv =
            (overwrite mem' dst' (slice mem src (16 * count)),
              nextIv iv (encryptBlocks addkey (encrypt key) iv (sourceBlocks mem src count))) := by
  obtain ⟨kc, hkc⟩ := exists_keyOf hbits hkey
  obtain ⟨t₁, enc, hinit₁, hcrypt₁⟩ := avAesInit_encrypts ht ha hbits hkey
  obtain ⟨t₂, dec, hinit₂, hready₂, hcrypt₂, hkeys₂⟩ := avAesInit_decrypt ht' ha' hkc
  refine ⟨t₁, enc, t₂, dec, hinit₁, hinit₂, fun mem dst src count iv hbuf hiv => ?_⟩
  refine ⟨hcrypt₁ mem dst src count iv hbuf hiv, ?_⟩
  intro mem' dst' src' hbuf' hsrc'
  rw [encrypt_eq_cipherBytes hkc] at hsrc' ⊢
  have hcount : (sourceBlocks mem src count).length = count := length_toBlocks _ _ _
  have hplain : (sourceBlocks mem src count).flatten = slice mem src (16 * count) := by
    rw [sourceBlocks, flatten_toBlocks, take_slice, Nat.min_self]
  have hbuf'' : Buffers mem' dst' src' (sourceBlocks mem src count).length := by rwa [hcount]
  have hdec := aesDecrypt_eq hready₂ hkeys₂ (fun p hp => mem_sourceBlocks hbuf.src_le hp) hbuf''
    hiv (by rwa [hcount])
  rw [hcount, hplain] at hdec
  rw [avAesCrypt, hcrypt₂]
  exact hdec

/-- Two blocks, encrypted and decrypted in place. -/
theorem avAesCrypt_fips197_inPlace :
    ∃ t₁ enc t₂ dec mem iv,
      avAesInit ⟨false, false⟩ (Tables.zero ⟨false, false⟩) ⟨List.replicate 272 0, 0, .aesEncrypt⟩
        (List.replicate 16 0) 128 false = (t₁, enc, 0) ∧
      avAesInit ⟨false, false⟩ (Tables.zero ⟨false, false⟩) ⟨List.replicate 272 0, 0, .aesEncrypt⟩
        (List.replicate 16 0) 128 true = (t₂, dec, 0) ∧
      avAesCrypt ⟨false, false⟩ t₁ enc (List.replicate 32 0) 0 0 2 (some (List.replicate 16 0)) =
        (mem, iv) ∧
      avAesCrypt ⟨false, false⟩ t₂ dec mem 0 0 2 (some (List.replicate 16 0)) =
        (List.replicate 32 0, iv) := by
  have hreached : Reached ⟨false, false⟩ (Tables.zero ⟨false, false⟩) := .zero
  have hsize : (⟨List.replicate 272 0, 0, .aesEncrypt⟩ : AVAES).roundKey.length = 272 :=
    List.length_replicate
  have hkey : 8 * ((List.replicate 16 (0 : UInt8)).length : Int) = 128 := rfl
  obtain ⟨t₁, enc, t₂, dec, hinit₁, hinit₂, hcrypt⟩ :=
    avAesCrypt_fips197 hreached hreached hsize hsize (Or.inl rfl) hkey
  have hiv : ∀ v ∈ some (List.replicate 16 (0 : UInt8)), v.length = 16 := by
    intro v hv
    cases hv
    rfl
  have hbuf : Buffers (List.replicate 32 0) 0 0 2 := ⟨by simp, by simp, Or.inl rfl⟩
  obtain ⟨henc, hdec⟩ := hcrypt (List.replicate 32 0) 0 0 2 _ hbuf hiv
  refine ⟨t₁, enc, t₂, dec, _, _, hinit₁, hinit₂, henc, ?_⟩
  generalize hblocks : encryptBlocks addkey (encrypt (List.replicate 16 0))
    (some (List.replicate 16 0)) (sourceBlocks (List.replicate 32 0) 0 2) = blocks at hdec
  have hsixteen : ∀ c ∈ blocks, c.length = 16 := by
    rw [← hblocks]
    exact forall_mem_encryptBlocks addkey _ (P := fun c => c.length = 16)
      (fun b => length_toBytes _) _ _
  have htwo : blocks.length = 2 := by
    rw [← hblocks, length_encryptBlocks, sourceBlocks, length_toBlocks]
  have hflatten : blocks.flatten.length = 32 := by
    rw [List.length_flatten, List.map_congr_left hsixteen, List.map_const', List.sum_replicate, htwo]
    rfl
  have hwritten : (overwrite (List.replicate 32 (0 : UInt8)) 0 blocks.flatten).length = 32 := by
    rw [length_overwrite_of_le] <;> simp [hflatten]
  have hfit : 0 + 16 * blocks.length ≤ (List.replicate 32 (0 : UInt8)).length := by
    rw [htwo, List.length_replicate]
  have hsource := sourceBlocks_overwrite hsixteen hfit
  rw [htwo] at hsource
  have hinside : 0 + 16 * 2 ≤ (overwrite (List.replicate 32 (0 : UInt8)) 0 blocks.flatten).length :=
    by rw [hwritten]
  have hround := hdec (overwrite (List.replicate 32 0) 0 blocks.flatten) 0 0
    ⟨hinside, hinside, Or.inl rfl⟩ hsource
  rw [hround]
  have hzero : slice (List.replicate 32 (0 : UInt8)) 0 (16 * 2) = List.replicate 32 0 := rfl
  rw [hzero, overwrite, List.take_zero, List.nil_append, List.length_replicate,
    List.drop_eq_nil_of_le (by lia), List.append_nil]

end FFmpeg.Libavutil.AesFips197
