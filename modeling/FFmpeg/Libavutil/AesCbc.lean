import FFmpeg.Libavutil.AesFips197

/-!
# Chained encryption of texts

The cipher of a key is a bijection of the blocks, so any text of whole blocks is decrypted to
one.  The context of a key for decryption computes this text, also when it is no cipher text.
-/

namespace FFmpeg.Libavutil.AesCbc

open Common Fips197 BlockMode Aes AesTables AesRounds AesKeys AesFips197

variable {config : Config} {key : Bytes}

/-! ## The inverse cipher -/

theorem toBytes_inj {s s' : State} (h : toBytes s = toBytes s') : s = s' := by
  rw [← ofBytes_toBytes s, h, ofBytes_toBytes]

theorem addRoundKey_inj {s s' k : State} (h : addRoundKey s k = addRoundKey s' k) : s = s' := by
  funext r c
  have hentry := congrFun (congrFun h r) c
  have hundo := congrArg (fun b => b ^^^ k r c) hentry
  simpa [addRoundKey, UInt8.xor_assoc] using hundo

theorem finite_state : Finite State := by
  have hbyte : Finite UInt8 := Finite.of_injective UInt8.toFin fun a b h => UInt8.toFin_inj.mp h
  exact Pi.finite

variable {keyBits : Int} {kc : Nat}

theorem bijective_cipher (hkey : KeyOf key keyBits kc) :
    Function.Bijective (cipher (kc + 6) (roundKey kc (keyWords key))) := by
  have hfinite := finite_state
  apply Function.Injective.bijective_of_finite
  intro p q hpq
  obtain ⟨t, dec, -, hready, -, hkeys⟩ := avAesInit_decrypt
    (.zero : Reached ⟨false, false⟩ _) (a := ⟨List.replicate 272 0, 0, .aesEncrypt⟩)
    List.length_replicate hkey
  have hp := aesDecrypt_block hready hkeys p
  have hq := aesDecrypt_block hready hkeys q
  rw [hpq, hq] at hp
  exact addRoundKey_inj (toBytes_inj hp.symm)

/-- The block that a key encrypts to the given one. -/
noncomputable def decipher (key block : Bytes) : Bytes :=
  toBytes (Function.invFun (fun p : State => encrypt key (toBytes p)) block)

theorem length_encrypt (key block : Bytes) : (encrypt key block).length = 16 := length_toBytes _

theorem length_decipher (key block : Bytes) : (decipher key block).length = 16 := length_toBytes _

theorem encrypt_decipher (hkey : KeyOf key keyBits kc) {c : Bytes} (hc : c.length = 16) :
    encrypt key (decipher key c) = c := by
  obtain ⟨s, rfl⟩ := exists_toBytes hc
  obtain ⟨p, hp⟩ := (bijective_cipher hkey).2 s
  refine Function.invFun_eq (f := fun p : State => encrypt key (toBytes p)) ⟨p, ?_⟩
  rw [encrypt_eq_cipherBytes hkey, cipherBytes, ofBytes_toBytes, hp]

theorem decipher_encrypt (hkey : KeyOf key keyBits kc) {p : Bytes} (hp : p.length = 16) :
    decipher key (encrypt key p) = p := by
  have hinj : Function.Injective fun p : State => encrypt key (toBytes p) := by
    intro p q hpq
    simp only [encrypt_eq_cipherBytes hkey, cipherBytes, ofBytes_toBytes] at hpq
    exact (bijective_cipher hkey).1 (toBytes_inj hpq)
  obtain ⟨s, rfl⟩ := exists_toBytes hp
  exact congrArg toBytes (Function.leftInverse_invFun hinj s)

/-! ## Adding blocks -/

theorem length_addkey {p q : Bytes} (hp : p.length = 16) (hq : q.length = 16) :
    (addkey p q).length = 16 := by
  rw [addkey, List.length_zipWith, hp, hq, Nat.min_self]

theorem addkey_addkey {p iv : Bytes} (hp : p.length = 16) (hiv : iv.length = 16) :
    addkey (addkey p iv) iv = p := by
  obtain ⟨s, rfl⟩ := exists_toBytes hp
  obtain ⟨w, rfl⟩ := exists_toBytes hiv
  rw [addkey_toBytes, addkey_toBytes]
  apply congrArg toBytes
  funext r c
  show s r c ^^^ w r c ^^^ w r c = s r c
  rw [UInt8.xor_assoc, UInt8.xor_self, UInt8.xor_zero]

/-! ## Texts -/

/-- The cipher text of whole blocks. -/
def encryptText (key iv text : Bytes) : Bytes :=
  (cbcEncrypt addkey (encrypt key) iv (toBlocks 16 (text.length / 16) text)).flatten

/-- The text of a cipher text of whole blocks. -/
noncomputable def decryptText (key iv text : Bytes) : Bytes :=
  (cbcDecrypt addkey (decipher key) iv (toBlocks 16 (text.length / 16) text)).flatten

variable {blocks : List Bytes}

theorem length_flatten_blocks (h : ∀ b ∈ blocks, b.length = 16) :
    blocks.flatten.length = 16 * blocks.length := by
  rw [List.length_flatten, List.map_congr_left h, List.map_const', List.sum_replicate, smul_eq_mul,
    Nat.mul_comm]

variable {iv text rest : Bytes}

theorem mem_toBlocks_length {n : Nat} (h : text.length = 16 * n) :
    ∀ b ∈ toBlocks 16 n text, b.length = 16 := fun _ hb =>
  length_of_mem_toBlocks (by lia) hb

theorem mem_encrypted (key iv : Bytes) (blocks : List Bytes) :
    ∀ c ∈ cbcEncrypt addkey (encrypt key) iv blocks, c.length = 16 :=
  forall_mem_encryptBlocks addkey (encrypt key) (P := fun c => c.length = 16)
    (fun b => length_encrypt key b) (some iv) blocks

theorem mem_decrypted (key : Bytes) (hiv : iv.length = 16) (hblocks : ∀ b ∈ blocks, b.length = 16) :
    ∀ p ∈ cbcDecrypt addkey (decipher key) iv blocks, p.length = 16 :=
  forall_mem_cbcDecrypt addkey (decipher key) (P := fun c => c.length = 16)
    (fun c _ _ hw => length_addkey (length_decipher key c) hw) hiv hblocks

theorem length_encryptText (key iv : Bytes) (h : 16 ∣ text.length) :
    (encryptText key iv text).length = text.length := by
  have hlength := length_encryptBlocks addkey (encrypt key) (some iv)
    (toBlocks 16 (text.length / 16) text)
  rw [encryptText, length_flatten_blocks (mem_encrypted key iv _)]
  rw [length_toBlocks] at hlength
  show 16 * (encryptBlocks addkey (encrypt key) (some iv) _).length = _
  rw [hlength]
  lia

theorem length_decryptText (key : Bytes) (hiv : iv.length = 16) (h : 16 ∣ text.length) :
    (decryptText key iv text).length = text.length := by
  rw [decryptText, length_flatten_blocks (mem_decrypted key hiv (mem_toBlocks_length (by lia))),
    length_cbcDecrypt, length_toBlocks]
  lia

/-- The initial value behind a cipher text. -/
def lastBlock (iv text : Bytes) : Bytes := (iv ++ text).drop text.length

theorem length_lastBlock (text : Bytes) (hiv : iv.length = 16) : (lastBlock iv text).length = 16 := by
  rw [lastBlock, List.length_drop, List.length_append]
  lia

theorem getLastD_encrypted (hiv : iv.length = 16) :
    (cbcEncrypt addkey (encrypt key) iv (toBlocks 16 (text.length / 16) text)).getLastD iv =
      lastBlock iv (encryptText key iv text) := by
  have hblocks := mem_encrypted key iv (toBlocks 16 (text.length / 16) text)
  have hflatten := toBlocks_flatten hblocks
  have hlength := length_flatten_blocks hblocks
  rw [lastBlock, encryptText, ← getLastD_toBlocks hlength hiv, hflatten]

theorem encryptText_append (key : Bytes) (hiv : iv.length = 16) (h : 16 ∣ text.length)
    (rest : Bytes) :
    encryptText key iv (text ++ rest) = encryptText key iv text ++
      encryptText key (lastBlock iv (encryptText key iv text)) rest := by
  have hcount : (text ++ rest).length / 16 = text.length / 16 + rest.length / 16 := by
    rw [List.length_append]
    lia
  rw [← getLastD_encrypted hiv, encryptText, hcount, toBlocks_append (by lia),
    cbcEncrypt_append, List.flatten_append]
  rfl

theorem decryptText_append (hiv : iv.length = 16) (h : 16 ∣ text.length) :
    decryptText key iv (text ++ rest) = decryptText key iv text ++
      decryptText key (lastBlock iv text) rest := by
  have hcount : (text ++ rest).length / 16 = text.length / 16 + rest.length / 16 := by
    rw [List.length_append]
    lia
  have hlength : text.length = 16 * (text.length / 16) := by lia
  rw [decryptText, hcount, toBlocks_append hlength, cbcDecrypt_append,
    getLastD_toBlocks hlength hiv, List.flatten_append]
  rfl

theorem lastBlock_append (hiv : iv.length = 16) :
    lastBlock iv (text ++ rest) = lastBlock (lastBlock iv text) rest := by
  have hgone : 16 + text.length ≤ (iv ++ text).length := by
    rw [List.length_append]
    lia
  rw [lastBlock, lastBlock, lastBlock, ← List.append_assoc, List.length_append, ← List.drop_drop,
    List.drop_append_of_le_length (by lia)]

theorem decryptText_encryptText (hkey : KeyOf key keyBits kc) (hiv : iv.length = 16)
    (h : 16 ∣ text.length) :
    decryptText key iv (encryptText key iv text) = text := by
  have hmem := mem_encrypted key iv (toBlocks 16 (text.length / 16) text)
  have hcount : (encryptText key iv text).length / 16 =
      (cbcEncrypt addkey (encrypt key) iv (toBlocks 16 (text.length / 16) text)).length := by
    rw [encryptText, length_flatten_blocks hmem]
    lia
  have hundo := cbcDecrypt_cbcEncrypt addkey (encrypt key) (decipher key)
    (P := fun b => b.length = 16) (fun b => length_encrypt key b)
    (fun p w hp hw => by
      rw [decipher_encrypt hkey (length_addkey hp hw), addkey_addkey hp hw]) hiv
    (mem_toBlocks_length (show text.length = 16 * (text.length / 16) by lia))
  rw [decryptText, hcount, encryptText, toBlocks_flatten hmem, hundo, flatten_toBlocks,
    List.take_of_length_le (by lia)]

/-! ## Contexts -/

/-- A context that encrypts with a key. -/
def Encrypts (config : Config) (t : Tables) (a : AVAES) (key : Bytes) : Prop :=
  ∀ (mem : Bytes) (dst src count : Nat) (iv : Bytes), Buffers mem dst src count → iv.length = 16 →
    avAesCrypt config t a mem dst src count (some iv) =
      (overwrite mem dst (encryptText key iv (slice mem src (16 * count))),
        some (lastBlock iv (encryptText key iv (slice mem src (16 * count)))))

/-- A context that decrypts with a key. -/
def Decrypts (config : Config) (t : Tables) (a : AVAES) (key : Bytes) : Prop :=
  ∀ (mem : Bytes) (dst src count : Nat) (iv : Bytes), Buffers mem dst src count → iv.length = 16 →
    avAesCrypt config t a mem dst src count (some iv) =
      (overwrite mem dst (decryptText key iv (slice mem src (16 * count))),
        some (lastBlock iv (slice mem src (16 * count))))

theorem keyOf_sixteen (hkey : key.length = 16) : KeyOf key 128 4 :=
  ⟨.inl rfl, rfl, by lia⟩

theorem exists_encrypts {t : Tables} (ht : Reached config t) {a : AVAES}
    (ha : a.roundKey.length = 272) (hkey : key.length = 16) :
    ∃ t₁ enc, avAesInit config t a key 128 false = (t₁, enc, 0) ∧ Encrypts config t₁ enc key := by
  obtain ⟨t₁, enc, hinit, hcrypt⟩ := avAesInit_encrypts ht ha (.inl rfl)
    (show 8 * (key.length : Int) = 128 by lia)
  refine ⟨t₁, enc, hinit, fun mem dst src count iv hbuf hiv => ?_⟩
  have hsrc := hbuf.src_le
  have hlength : (slice mem src (16 * count)).length = 16 * count := by
    rw [length_slice]
    lia
  have hcount : (slice mem src (16 * count)).length / 16 = count := by lia
  rw [hcrypt mem dst src count (some iv) hbuf (fun v hv => by cases hv; exact hiv), nextIv,
    Option.map_some, ← getLastD_encrypted hiv, encryptText, hcount]
  rfl

theorem exists_decrypts {t : Tables} (ht : Reached config t) {a : AVAES}
    (ha : a.roundKey.length = 272) (hkey : key.length = 16) :
    ∃ t₁ dec, avAesInit config t a key 128 true = (t₁, dec, 0) ∧ Decrypts config t₁ dec key := by
  obtain ⟨t₁, dec, hinit, hready, hcrypt, hkeys⟩ := avAesInit_decrypt ht ha (keyOf_sixteen hkey)
  refine ⟨t₁, dec, hinit, fun mem dst src count iv hbuf hiv => ?_⟩
  have hsrc := hbuf.src_le
  have hlength : (slice mem src (16 * count)).length = 16 * count := by
    rw [length_slice]
    lia
  have hblocks : ∀ b ∈ sourceBlocks mem src count, b.length = 16 :=
    fun b hb => mem_sourceBlocks hsrc hb
  -- any blocks are the cipher text of those that the key decrypts them to
  have hcipher := cbcEncrypt_cbcDecrypt addkey (encrypt key) (decipher key)
    (P := fun b => b.length = 16) (fun c w hc hw => by
      rw [addkey_addkey (length_decipher key c) hw, encrypt_decipher (keyOf_sixteen hkey) hc]) hiv
    hblocks
  have hplain : (cbcDecrypt addkey (decipher key) iv (sourceBlocks mem src count)).length =
      count := by
    rw [length_cbcDecrypt]
    exact length_toBlocks 16 count _
  have hsome : ∀ v ∈ some iv, v.length = 16 := fun v hv => by
    cases hv
    exact hiv
  have hdec := aesDecrypt_eq hready hkeys (mem_decrypted key hiv hblocks)
    (by rwa [hplain]) hsome (by
      rw [hplain, ← encrypt_eq_cipherBytes (keyOf_sixteen hkey)]
      exact hcipher.symm)
  rw [hplain, ← encrypt_eq_cipherBytes (keyOf_sixteen hkey)] at hdec
  have hsource : sourceBlocks mem src count =
      toBlocks 16 ((slice mem src (16 * count)).length / 16) (slice mem src (16 * count)) := by
    rw [hlength, Nat.mul_div_cancel_left count (by decide)]
    rfl
  have hlast : (sourceBlocks mem src count).getLastD iv =
      lastBlock iv (slice mem src (16 * count)) := getLastD_toBlocks hlength hiv
  rw [avAesCrypt, hcrypt]
  refine hdec.trans ?_
  rw [decryptText, ← hsource, ← hlast, nextIv, Option.map_some]
  show (_, some ((cbcEncrypt addkey (encrypt key) iv _).getLastD iv)) = _
  rw [hcipher]

end FFmpeg.Libavutil.AesCbc
