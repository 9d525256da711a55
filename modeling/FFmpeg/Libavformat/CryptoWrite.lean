import FFmpeg.Libavformat.CryptoRead

/-!
# What is written to an encrypted resource is read back

The writer holds back the bytes behind the last whole block.  When it is closed, the nested
resource has the cipher text of the padded plain text, and reads give it back in pieces.
-/

namespace FFmpeg.Libavformat.Crypto

open Common Libavutil Aes AesTables AesFips197 AesCbc

variable {config : Config} {t t' : Tables} {key iv : Bytes}

/-! ## Opening -/

/-- What an argument is: its own value, or that of both directions. -/
def argument (buf defaultBuf : Bytes) : Bytes := if buf.length = 0 then defaultBuf else buf

theorem setAesArg_ok {malloc : Malloc} {buf defaultBuf arg : Bytes}
    (h : setAesArg malloc buf defaultBuf = .ok arg) :
    arg = argument buf defaultBuf ∧ arg.length = 16 := by
  unfold setAesArg at h
  unfold argument
  split_ifs at h with hnone hdefault hsize hsize
  · split at h
    · exact absurd h (by simp)
    · rw [← Except.ok.inj h, if_pos hnone]
      exact ⟨rfl, not_not.mp hsize⟩
  · rw [← Except.ok.inj h, if_neg hnone]
    exact ⟨rfl, not_not.mp hsize⟩

theorem openArgs_ok {mallocKey mallocIv : Malloc} {key' iv' defaultKey defaultIv : Bytes}
    (h : openArgs true mallocKey mallocIv key' iv' defaultKey defaultIv = .ok (key, iv)) :
    key = argument key' defaultKey ∧ key.length = 16 ∧
      iv = argument iv' defaultIv ∧ iv.length = 16 := by
  unfold openArgs at h
  rw [if_pos rfl] at h
  cases hkey : setAesArg mallocKey key' defaultKey with
  | error err =>
    rw [hkey] at h
    exact absurd h (by simp [bind, Except.bind])
  | ok k =>
    cases hiv : setAesArg mallocIv iv' defaultIv with
    | error err =>
      rw [hkey, hiv] at h
      exact absurd h (by simp [bind, Except.bind])
    | ok v =>
      rw [hkey, hiv] at h
      obtain ⟨rfl, rfl⟩ := Prod.mk.inj (Except.ok.inj h)
      exact ⟨(setAesArg_ok hkey).1, (setAesArg_ok hkey).2, (setAesArg_ok hiv).1,
        (setAesArg_ok hiv).2⟩

theorem openAes_ok {malloc : Malloc} (ht : Reached config t) (hkey : key.length = 16)
    {decrypt : Bool} {aes : Option AVAES}
    (h : openAes config t true malloc key decrypt = .ok (aes, t')) :
    ∃ a, aes = some a ∧ if decrypt then Decrypts config t' a key else Encrypts config t' a key := by
  unfold openAes at h
  rw [if_pos rfl] at h
  cases hmalloc : avMalloc malloc 288 with
  | none =>
    rw [hmalloc] at h
    exact absurd h (by simp)
  | some block =>
    rw [hmalloc] at h
    dsimp only at h
    cases decrypt with
    | true =>
      obtain ⟨t₁, dec, hinit, hdec⟩ := exists_decrypts ht
        (a := ⟨List.replicate 272 0, 0, .aesEncrypt⟩) List.length_replicate hkey
      rw [show ((blocksize * 8 : Nat) : Int) = 128 from rfl, hinit, if_neg (lt_irrefl 0)] at h
      obtain ⟨rfl, rfl⟩ := Prod.mk.inj (Except.ok.inj h)
      exact ⟨dec, rfl, hdec⟩
    | false =>
      obtain ⟨t₁, enc, hinit, henc⟩ := exists_encrypts ht
        (a := ⟨List.replicate 272 0, 0, .aesEncrypt⟩) List.length_replicate hkey
      rw [show ((blocksize * 8 : Nat) : Int) = 128 from rfl, hinit, if_neg (lt_irrefl 0)] at h
      obtain ⟨rfl, rfl⟩ := Prod.mk.inj (Except.ok.inj h)
      exact ⟨enc, rfl, henc⟩

theorem openArgs_false (mallocKey mallocIv : Malloc) (key' iv' defaultKey defaultIv : Bytes) :
    openArgs false mallocKey mallocIv key' iv' defaultKey defaultIv = .ok (key', iv') := rfl

theorem openAes_false (t : Tables) (malloc : Malloc) (key : Bytes) (decrypt : Bool) :
    openAes config t false malloc key decrypt = .ok (none, t) := rfl

/-- A context that has been opened for reading. -/
structure OpenedRead (config : Config) (t : Tables) (o : Options) (hd : URLContext)
    (c : CryptoContext) : Prop where
  buffered : Buffered config t (argument o.decryptionKey o.key) c
  hd : c.hd = hd
  indata : c.indata = 0
  indataUsed : c.indataUsed = 0
  outptr : c.outptr = 0
  outdata : c.outdata = 0
  position : c.position = 0
  write : c.write = false
  eof : c.eof = false
  iv : c.iv = o.iv
  decryptIv : c.decryptIv = argument o.decryptionIv o.iv

variable {malloc : Nat → Malloc} {o : Options} {hd : URLContext} {c : CryptoContext}

theorem openedRead (ht : Reached config t)
    (h : cryptoOpen2 config t malloc o true false (.ok hd) = .ok (c, t')) :
    OpenedRead config t' o hd c := by
  unfold cryptoOpen2 at h
  cases hargs : openArgs true (malloc 0) (malloc 1) o.decryptionKey o.decryptionIv o.key o.iv with
  | error err =>
    rw [hargs] at h
    exact absurd h (by simp [bind, Except.bind])
  | ok args =>
    obtain ⟨hkey, hkeyLength, hiv, hivLength⟩ := openArgs_ok hargs
    rw [hargs] at h
    cases haes : openAes config t true (malloc 4) args.1 true with
    | error err =>
      simp only [bind, Except.bind, openArgs_false, haes] at h
      exact absurd h (by simp)
    | ok opened =>
      obtain ⟨a, hsome, hdec⟩ := openAes_ok ht hkeyLength haes
      simp only [bind, Except.bind, openArgs_false, haes, openAes_false] at h
      obtain ⟨hc, rfl⟩ := Prod.mk.inj (Except.ok.inj h)
      rw [← hc]
      rw [if_pos rfl, hkey] at hdec
      exact ⟨⟨List.length_replicate, List.length_replicate, le_rfl, Nat.zero_le _,
        Nat.div_pos (by decide) (by decide), hivLength, a, hsome, hdec⟩, rfl, rfl, rfl, rfl, rfl,
        rfl, rfl, rfl, rfl, hiv⟩

theorem openedRead_key (h : cryptoOpen2 config t malloc o true false (.ok hd) = .ok (c, t')) :
    (argument o.decryptionKey o.key).length = 16 := by
  unfold cryptoOpen2 at h
  cases hargs : openArgs true (malloc 0) (malloc 1) o.decryptionKey o.decryptionIv o.key o.iv with
  | error err =>
    rw [hargs] at h
    exact absurd h (by simp [bind, Except.bind])
  | ok args =>
    obtain ⟨hkey, hkeyLength, -, -⟩ := openArgs_ok hargs
    rw [← hkey, hkeyLength]

/-- A context that has been opened for writing. -/
structure OpenedWrite (config : Config) (t : Tables) (o : Options) (hd : URLContext)
    (c : CryptoContext) : Prop where
  aes : ∃ aes, c.aesEncrypt = some aes ∧ Encrypts config t aes (argument o.encryptionKey o.key)
  hd : c.hd = hd
  encryptIv : c.encryptIv = argument o.encryptionIv o.iv
  length_iv : c.encryptIv.length = 16
  pad : c.pad.length = 16
  padLen : c.padLen = 0
  writeBuf : c.writeBuf = none
  writeBufSize : c.writeBufSize = 0

theorem openedWrite (ht : Reached config t)
    (h : cryptoOpen2 config t malloc o false true (.ok hd) = .ok (c, t')) :
    OpenedWrite config t' o hd c := by
  unfold cryptoOpen2 at h
  rw [openArgs_false] at h
  cases hargs : openArgs true (malloc 2) (malloc 3) o.encryptionKey o.encryptionIv o.key o.iv with
  | error err =>
    simp only [bind, Except.bind, hargs] at h
    exact absurd h (by simp)
  | ok args =>
    obtain ⟨hkey, hkeyLength, hiv, hivLength⟩ := openArgs_ok hargs
    cases haes : openAes config t true (malloc 5) args.1 false with
    | error err =>
      simp only [bind, Except.bind, hargs, openAes_false, haes] at h
      exact absurd h (by simp)
    | ok opened =>
      obtain ⟨a, hsome, henc⟩ := openAes_ok ht hkeyLength haes
      simp only [bind, Except.bind, hargs, openAes_false, haes] at h
      obtain ⟨hc, rfl⟩ := Prod.mk.inj (Except.ok.inj h)
      rw [← hc]
      rw [if_neg Bool.false_ne_true, hkey] at henc
      exact ⟨⟨a, hsome, henc⟩, rfl, hiv, hivLength, List.length_replicate, rfl, rfl, rfl⟩

/-! ## Writing -/

/-- A writer that has been given a text: the cipher text of its whole blocks is in the nested
resource, and the bytes behind them are held back. -/
structure Written (config : Config) (t : Tables) (key iv text : Bytes) (c : CryptoContext) :
    Prop where
  aes : ∃ aes, c.aesEncrypt = some aes ∧ Encrypts config t aes key
  length_iv : iv.length = 16
  pad : c.pad.length = 16
  padLen : c.padLen = text.length % 16
  held : c.pad.take c.padLen = text.drop (text.length - text.length % 16)
  content : c.hd.content = encryptText key iv (text.take (text.length - text.length % 16))
  pos : c.hd.pos = c.hd.content.length
  encryptIv : c.encryptIv = lastBlock iv c.hd.content
  writable : c.hd.writable = true
  writeBuf : c.writeBufSize = (c.writeBuf.getD []).length

variable {c : CryptoContext} {text : Bytes}

theorem avFastMalloc_spec (malloc : Malloc) {ptr : Option Bytes} {size : Nat} (minSize : Nat)
    (hsize : size = (ptr.getD []).length) :
    (avFastMalloc malloc ptr size minSize).1 = none ∨
      ∃ block, avFastMalloc malloc ptr size minSize = (some block, block.length) ∧
        minSize ≤ block.length := by
  unfold avFastMalloc
  split_ifs with hfits
  · cases ptr with
    | none => exact .inl rfl
    | some block =>
      rw [Option.getD_some] at hsize
      exact .inr ⟨block, by rw [hsize], by lia⟩
  · dsimp only
    cases hmalloc : avMalloc malloc (max (minSize + minSize / 16 + 32) minSize) with
    | none => exact .inl rfl
    | some block =>
      have hlength := (length_of_avMalloc hmalloc).1
      exact .inr ⟨block, by rw [hlength], by lia⟩

/-- What is encrypted: the bytes that were held back and the first ones of the buffer. -/
theorem writeBlocks_eq {aes : AVAES} (haes : Encrypts config t aes key) (hpad : c.pad.length = 16)
    (hpadLen : c.padLen < 16) (hiv : c.encryptIv.length = 16) {buf writeBuf : Bytes} {blocks : Nat}
    (hblocks : 0 < blocks) (hfits : 16 * blocks ≤ c.padLen + buf.length)
    (hroom : 16 * blocks ≤ writeBuf.length) :
    ∃ pad writeBuf', writeBlocks config t c aes buf blocks writeBuf =
        some (pad, writeBuf', lastBlock c.encryptIv (encryptText key c.encryptIv
          ((c.pad.take c.padLen ++ buf).take (16 * blocks)))) ∧
      pad.length = 16 ∧ writeBuf'.length = writeBuf.length ∧
      writeBuf'.take (16 * blocks) = encryptText key c.encryptIv
        ((c.pad.take c.padLen ++ buf).take (16 * blocks)) := by
  have hblock : blocksize = 16 := rfl
  have hheld : (c.pad.take c.padLen).length = c.padLen := by
    rw [List.length_take]
    lia
  unfold writeBlocks
  by_cases hzero : c.padLen = 0
  · have hnil : c.pad.take c.padLen = [] := by rw [hzero, List.take_zero]
    have hcrypt := crypt_encrypts haes writeBuf buf (show 0 + 16 * blocks ≤ _ by lia)
      (show 0 + 16 * blocks ≤ _ by lia) hiv
    have htext : (buf.take (16 * blocks)).length = 16 * blocks := by
      rw [List.length_take]
      lia
    have hcipher := length_encryptText key c.encryptIv
      (show 16 ∣ (buf.take (16 * blocks)).length by lia)
    rw [slice, List.drop_zero] at hcrypt
    rw [if_neg (not_not.mpr hzero), hcrypt, hnil, List.nil_append]
    refine ⟨c.pad, _, rfl, hpad, length_overwrite_of_le (by lia), ?_⟩
    have hfront := take_overwrite_front writeBuf (encryptText key c.encryptIv
      (buf.take (16 * blocks)))
    rwa [hcipher, htext] at hfront
  · -- the block that was begun is written first
    obtain ⟨n, hn⟩ : ∃ n, n = 16 - c.padLen := ⟨_, rfl⟩
    have hfirst : overwrite c.pad c.padLen (buf.take n) = c.pad.take c.padLen ++ buf.take n := by
      have hlength : (buf.take n).length = n := by
        rw [List.length_take]
        lia
      have hgone : c.pad.drop (c.padLen + n) = [] := List.drop_eq_nil_of_le (by lia)
      rw [overwrite, hlength, hgone, List.append_nil]
    have hlength : (c.pad.take c.padLen ++ buf.take n).length = 16 := by
      rw [List.length_append, hheld, List.length_take]
      lia
    have hcrypt := crypt_encrypts haes writeBuf (c.pad.take c.padLen ++ buf.take n)
      (show 0 + 16 * 1 ≤ _ by lia) (show 0 + 16 * 1 ≤ _ by lia) hiv
    rw [slice, List.drop_zero, Nat.mul_one, List.take_of_length_le hlength.le] at hcrypt
    have hcipher := length_encryptText key c.encryptIv
      (show 16 ∣ (c.pad.take c.padLen ++ buf.take n).length by lia)
    generalize hone : c.pad.take c.padLen ++ buf.take n = first at hfirst hlength hcrypt hcipher
    have hwritten : (overwrite writeBuf 0 (encryptText key c.encryptIv first)).length =
        writeBuf.length := length_overwrite_of_le (by lia)
    have hcrypt' := crypt_encrypts haes
      (overwrite writeBuf 0 (encryptText key c.encryptIv first)) buf
      (show 16 + 16 * (blocks - 1) ≤ _ by lia) (show n + 16 * (blocks - 1) ≤ _ by lia)
      (length_lastBlock (encryptText key c.encryptIv first) hiv)
    have hslice : (slice buf n (16 * (blocks - 1))).length = 16 * (blocks - 1) := by
      rw [length_slice]
      lia
    have hrest := length_encryptText key
      (lastBlock c.encryptIv (encryptText key c.encryptIv first))
      (show 16 ∣ (slice buf n (16 * (blocks - 1))).length by lia)
    have hjoin : (c.pad.take c.padLen ++ buf).take (16 * blocks) =
        first ++ slice buf n (16 * (blocks - 1)) := by
      rw [← hone, List.append_assoc, slice, ← List.take_add, List.take_append, hheld,
        List.take_of_length_le (by lia)]
      congr 2
      lia
    have hboth := encryptText_append key hiv (show 16 ∣ first.length by lia)
      (slice buf n (16 * (blocks - 1)))
    rw [if_pos hzero, hblock, ← hn, hfirst]
    simp only [hcrypt, Option.bind_eq_bind, Option.bind_some, hcrypt']
    rw [hjoin, hboth, lastBlock_append hiv]
    refine ⟨first, _, rfl, hlength, ?_, ?_⟩
    · rw [length_overwrite_of_le (by lia), hwritten]
    · have hfront := @take_overwrite _ 16 (overwrite writeBuf 0 (encryptText key c.encryptIv first))
        (encryptText key (lastBlock c.encryptIv (encryptText key c.encryptIv first))
          (slice buf n (16 * (blocks - 1)))) (by lia)
      have hblock₁ := take_overwrite_front writeBuf (encryptText key c.encryptIv first)
      rw [hcipher, hlength] at hblock₁
      rw [hrest, hslice, hblock₁, show 16 + 16 * (blocks - 1) = 16 * blocks by lia] at hfront
      exact hfront

/-- **A write**: without memory it fails, and otherwise the text goes on. -/
theorem Written.write (h : Written config t key iv text c) (malloc : Malloc) (buf : Bytes) :
    (∃ c', cryptoWrite config t malloc c buf = some (.error .enomem, c')) ∨
    ∃ c', cryptoWrite config t malloc c buf = some (.ok buf.length, c') ∧
      Written config t key iv (text ++ buf) c' := by
  have hblock : blocksize = 16 := rfl
  have hpadLen := h.padLen
  have hpad := h.pad
  have hheldLength : (c.pad.take c.padLen).length = c.padLen := by
    rw [List.length_take]
    lia
  have htext : (text ++ buf).length = text.length + buf.length := List.length_append
  have hmod : (text ++ buf).length % 16 = (buf.length + c.padLen) % 16 := by lia
  unfold cryptoWrite
  dsimp only
  rw [hblock]
  by_cases hsmall : buf.length + c.padLen - (buf.length + c.padLen) % 16 = 0
  · rw [if_neg (not_not.mpr hsmall)]
    refine .inr ⟨_, rfl, ⟨h.aes, h.length_iv, ?_, hmod.symm, ?_, ?_, h.pos, h.encryptIv, h.writable,
      h.writeBuf⟩⟩
    · show (overwrite c.pad c.padLen buf).length = 16
      rw [length_overwrite_of_le (by lia), hpad]
    · show (overwrite c.pad c.padLen buf).take ((buf.length + c.padLen) % 16) = _
      rw [show (buf.length + c.padLen) % 16 = c.padLen + buf.length by lia,
        take_overwrite (by lia), h.held,
        show (text ++ buf).length - (text ++ buf).length % 16 = text.length - text.length % 16 by
          lia, List.drop_append_of_le_length (by lia)]
    · show c.hd.content = _
      rw [h.content, show (text ++ buf).length - (text ++ buf).length % 16 =
        text.length - text.length % 16 by lia, List.take_append_of_le_length (by lia)]
  · rw [if_pos hsmall]
    rcases avFastMalloc_spec malloc (buf.length + c.padLen - (buf.length + c.padLen) % 16)
      h.writeBuf with hnone | ⟨writeBuf, hsome, hroom⟩
    · rw [hnone]
      exact .inl ⟨_, rfl⟩
    · refine .inr ?_
      obtain ⟨aes, haes, henc⟩ := h.aes
      obtain ⟨blocks, hblocks⟩ : ∃ blocks,
        blocks = (buf.length + c.padLen - (buf.length + c.padLen) % 16) / 16 := ⟨_, rfl⟩
      have hout : buf.length + c.padLen - (buf.length + c.padLen) % 16 = 16 * blocks := by lia
      have hiv : c.encryptIv.length = 16 := by
        rw [h.encryptIv]
        exact length_lastBlock _ h.length_iv
      obtain ⟨pad, writeBuf', hwrite, hpad', hlength', hfront⟩ := writeBlocks_eq henc h.pad
        (by lia) hiv (show 0 < blocks by lia)
        (show 16 * blocks ≤ c.padLen + buf.length by lia)
        (show 16 * blocks ≤ writeBuf.length by lia)
      have hchunk : ((c.pad.take c.padLen ++ buf).take (16 * blocks)).length = 16 * blocks := by
        rw [List.length_take, List.length_append, hheldLength]
        lia
      have hcipher := length_encryptText key c.encryptIv
        (show 16 ∣ ((c.pad.take c.padLen ++ buf).take (16 * blocks)).length by lia)
      have hstored : ffurlWrite c.hd (writeBuf'.take (16 * blocks)) = .ok { c.hd with
          content := c.hd.content ++ encryptText key c.encryptIv
            ((c.pad.take c.padLen ++ buf).take (16 * blocks))
          pos := c.hd.pos + 16 * blocks } := by
        rw [ffurlWrite, if_neg (by rw [h.writable]; simp), hfront, hcipher, hchunk, overwrite,
          h.pos, List.take_length, List.drop_eq_nil_of_le (by lia), List.append_nil]
      -- the whole blocks are those before and the new ones
      have hwhole : (text ++ buf).take ((text ++ buf).length - (text ++ buf).length % 16) =
          text.take (text.length - text.length % 16) ++
            (c.pad.take c.padLen ++ buf).take (16 * blocks) := by
        have hsplit : text ++ buf = text.take (text.length - text.length % 16) ++
            (c.pad.take c.padLen ++ buf) := by
          rw [h.held, ← List.append_assoc, List.take_append_drop]
        have hbefore : (text.take (text.length - text.length % 16)).length =
            text.length - text.length % 16 := by
          rw [List.length_take]
          lia
        rw [show (text ++ buf).length - (text ++ buf).length % 16 =
          (text.take (text.length - text.length % 16)).length + 16 * blocks by lia, hsplit,
          List.take_length_add_append]
      have hbefore : 16 ∣ (text.take (text.length - text.length % 16)).length := by
        rw [List.length_take]
        lia
      have hcontent : c.hd.content ++ encryptText key c.encryptIv
          ((c.pad.take c.padLen ++ buf).take (16 * blocks)) = encryptText key iv
            ((text ++ buf).take ((text ++ buf).length - (text ++ buf).length % 16)) := by
        rw [hwhole, encryptText_append key h.length_iv hbefore, h.encryptIv, h.content]
      rw [hsome, hout, Nat.mul_div_cancel_left blocks (by decide)]
      simp only [haes, Option.bind_eq_bind, Option.bind_some, hwrite, hstored]
      refine ⟨_, rfl, ⟨⟨aes, rfl, henc⟩, h.length_iv, ?_, hmod.symm, ?_, hcontent, ?_, ?_,
        h.writable, hlength'.symm⟩⟩
      · show (overwrite pad 0 _).length = 16
        rw [length_overwrite_of_le, hpad']
        rw [length_slice]
        lia
      · show (overwrite pad 0 (slice buf (buf.length - (buf.length + c.padLen) % 16)
          ((buf.length + c.padLen) % 16))).take ((buf.length + c.padLen) % 16) = _
        have hheld := take_overwrite_front pad (slice buf
          (buf.length - (buf.length + c.padLen) % 16) ((buf.length + c.padLen) % 16))
        have hn : (slice buf (buf.length - (buf.length + c.padLen) % 16)
            ((buf.length + c.padLen) % 16)).length = (buf.length + c.padLen) % 16 := by
          rw [length_slice]
          lia
        have hgone : text.drop ((text ++ buf).length - (text ++ buf).length % 16) = [] :=
          List.drop_eq_nil_of_le (by lia)
        rw [hn] at hheld
        rw [hheld, slice, List.take_of_length_le (by rw [List.length_drop]; lia),
          List.drop_append, hgone, List.nil_append]
        congr 1
        lia
      · show c.hd.pos + 16 * blocks = (c.hd.content ++ _).length
        rw [List.length_append, hcipher, hchunk, h.pos]
      · show lastBlock c.encryptIv _ = lastBlock iv (c.hd.content ++ _)
        rw [lastBlock_append h.length_iv, ← h.encryptIv]

/-- The writes of pieces, as far as they return their sizes. -/
def writeAll (config : Config) (t : Tables) (malloc : Nat → Malloc) :
    Nat → List Bytes → CryptoContext → Option CryptoContext
  | _, [], c => some c
  | i, buf :: pieces, c =>
    match cryptoWrite config t (malloc i) c buf with
    | some (.ok _, c) => writeAll config t malloc (i + 1) pieces c
    | _ => none

theorem Written.writeAll {i : Nat} {pieces : List Bytes} {c' : CryptoContext} {text : Bytes}
    (h : Written config t key iv text c) (hrun : writeAll config t malloc i pieces c = some c') :
    Written config t key iv (text ++ pieces.flatten) c' := by
  induction pieces generalizing i c text with
  | nil =>
    rw [← Option.some.inj hrun, List.flatten_nil, List.append_nil]
    exact h
  | cons buf pieces ih =>
    rw [Crypto.writeAll] at hrun
    rcases h.write (malloc i) buf with ⟨c₁, hwrite⟩ | ⟨c₁, hwrite, hwritten⟩
    · rw [hwrite] at hrun
      exact absurd hrun (by simp)
    · rw [hwrite] at hrun
      rw [List.flatten_cons, ← List.append_assoc]
      exact ih hwritten hrun

/-- A text with its padding. -/
def pkcs7 (text : Bytes) : Bytes :=
  text ++ List.replicate (16 - text.length % 16) (UInt8.ofNat (16 - text.length % 16))

theorem length_pkcs7 (text : Bytes) :
    (pkcs7 text).length = text.length + (16 - text.length % 16) := by
  simp [pkcs7]

theorem padded_pkcs7 (text : Bytes) : Padded (pkcs7 text) text.length := by
  have hlength := length_pkcs7 text
  refine ⟨by lia, by lia, ?_⟩
  have hpos : 16 - text.length % 16 ≠ 0 := by lia
  rw [hlength, Nat.add_sub_cancel_left, pkcs7, List.getLastD_eq_getLast?, List.getLast?_append,
    List.getLast?_replicate, if_neg hpos]
  rfl

/-- The last block is written when the resource is closed. -/
theorem Written.close (h : Written config t key iv text c) :
    ∃ hd, cryptoClose config t c = some (.ok (), hd) ∧
      hd.content = encryptText key iv (pkcs7 text) := by
  have hblock : blocksize = 16 := rfl
  have hpad := h.pad
  have hpadLen := h.padLen
  obtain ⟨aes, haes, henc⟩ := h.aes
  have hiv : c.encryptIv.length = 16 := by
    rw [h.encryptIv]
    exact length_lastBlock _ h.length_iv
  have hfull : overwrite c.pad c.padLen
      (List.replicate (16 - c.padLen) (UInt8.ofNat (16 - c.padLen))) =
        text.drop (text.length - text.length % 16) ++
          List.replicate (16 - text.length % 16) (UInt8.ofNat (16 - text.length % 16)) := by
    rw [overwrite, List.length_replicate, List.drop_eq_nil_of_le (by lia), List.append_nil,
      h.held, hpadLen]
  have hlength : (text.drop (text.length - text.length % 16) ++ List.replicate
      (16 - text.length % 16) (UInt8.ofNat (16 - text.length % 16))).length = 16 := by
    rw [List.length_append, List.length_drop, List.length_replicate]
    lia
  generalize hlast : text.drop (text.length - text.length % 16) ++ List.replicate
    (16 - text.length % 16) (UInt8.ofNat (16 - text.length % 16)) = last at hfull hlength
  have hcrypt := crypt_encrypts henc (List.replicate 16 0) last
    (show 0 + 16 * 1 ≤ (List.replicate 16 (0 : UInt8)).length by simp)
    (show 0 + 16 * 1 ≤ last.length by lia) hiv
  rw [slice, List.drop_zero, Nat.mul_one, List.take_of_length_le hlength.le] at hcrypt
  have hcipher := length_encryptText key c.encryptIv (show 16 ∣ last.length by lia)
  have hblockEq : overwrite (List.replicate 16 (0 : UInt8)) 0
      (encryptText key c.encryptIv last) = encryptText key c.encryptIv last := by
    rw [overwrite, List.take_zero, List.nil_append, List.drop_eq_nil_of_le (by simp; lia),
      List.append_nil]
  have hstored : ffurlWrite c.hd (encryptText key c.encryptIv last) = .ok { c.hd with
      content := c.hd.content ++ encryptText key c.encryptIv last
      pos := c.hd.pos + (encryptText key c.encryptIv last).length } := by
    rw [ffurlWrite, if_neg (by rw [h.writable]; simp), overwrite, h.pos, List.take_length,
      List.drop_eq_nil_of_le (by lia), List.append_nil]
  have hwhole : pkcs7 text = text.take (text.length - text.length % 16) ++ last := by
    rw [← hlast, ← List.append_assoc, List.take_append_drop, pkcs7]
  have hbefore : 16 ∣ (text.take (text.length - text.length % 16)).length := by
    rw [List.length_take]
    lia
  refine ⟨{ c.hd with
    content := c.hd.content ++ encryptText key c.encryptIv last
    pos := c.hd.pos + (encryptText key c.encryptIv last).length }, ?_, ?_⟩
  · unfold cryptoClose
    rw [haes]
    simp only [hblock, hfull, hcrypt, Option.bind_eq_bind, Option.bind_some, hblockEq, hstored]
  · show c.hd.content ++ encryptText key c.encryptIv last = _
    rw [hwhole, encryptText_append key h.length_iv hbefore, h.encryptIv, h.content]

/-! ## Both directions -/

theorem OpenedWrite.written (h : OpenedWrite config t o hd c) (hcontent : hd.content = [])
    (hpos : hd.pos = 0) (hwritable : hd.writable = true) :
    Written config t (argument o.encryptionKey o.key) (argument o.encryptionIv o.iv) [] c := by
  have hiv := h.length_iv
  rw [h.encryptIv] at hiv
  refine ⟨h.aes, hiv, h.pad, h.padLen, ?_, ?_, ?_, ?_, ?_, ?_⟩
  · rw [h.padLen]
    rfl
  · rw [h.hd, hcontent]
    rfl
  · rw [h.hd, hpos, hcontent]
    rfl
  · rw [h.encryptIv, h.hd, hcontent, lastBlock, List.append_nil]
    rfl
  · rw [h.hd]
    exact hwritable
  · rw [h.writeBufSize, h.writeBuf]
    rfl

variable {plain : Bytes} {len : Nat}

theorem decodes_encryptText (hkey : key.length = 16) (hiv : iv.length = 16)
    (hwhole : 16 ∣ plain.length) (hplain : Padded plain len) :
    Decodes key iv (encryptText key iv plain) plain len := by
  have hlength := length_encryptText key iv hwhole
  refine ⟨hiv, by rw [hlength]; exact hwhole, hlength.le, ?_, hplain⟩
  rw [decryptText_encryptText (keyOf_sixteen hkey) hiv hwhole, hlength, Nat.sub_self,
    List.drop_zero]

theorem OpenedRead.reading (h : OpenedRead config t o hd c) (len : Nat) (hpos : hd.pos = 0)
    (hne : hd.content ≠ []) (hlength : hd.content.length = plain.length) :
    Reading config t (argument o.decryptionKey o.key) c (argument o.decryptionIv o.iv) hd.content
      plain len c := by
  have hunread : c.unread = hd.content := by
    rw [CryptoContext.unread, CryptoContext.window, h.indata, Nat.zero_sub, slice_zero,
      URLContext.rest, h.hd, hpos, List.drop_zero, List.nil_append]
  refine ⟨h.buffered, ⟨rfl, rfl, rfl, rfl, rfl⟩, ?_, ?_, ?_, ?_, ?_, ?_, ?_⟩
  · refine ⟨[], by rw [hunread, List.nil_append], Nat.dvd_zero 16, ?_⟩
    rw [h.decryptIv, lastBlock, List.append_nil]
    rfl
  · rw [h.eof, hunread]
    exact iff_of_false Bool.false_ne_true hne
  · rw [h.eof, if_neg Bool.false_ne_true, h.position, h.outdata, hunread, hlength, Nat.sub_self]
    rfl
  · rw [h.position]
  · rw [h.outdata]
  · rw [h.outdata]
    rfl
  · rw [h.outdata, h.outptr]
    decide

/-- Reads of so many bytes: what they return, and the context. -/
def readAll (config : Config) (t : Tables) :
    List Nat → CryptoContext → Option (List (Except AVERROR Bytes) × CryptoContext)
  | [], c => some ([], c)
  | size :: sizes, c => do
    let (r, c) ← cryptoRead config t c size
    let (results, c) ← readAll config t sizes c
    some (r :: results, c)

/-- Pieces that are not empty, of a text or of its beginning, and then the end of the file. -/
def PiecesOf (text : Bytes) (results : List (Except AVERROR Bytes)) : Prop :=
  ∃ pieces : List Bytes, ∃ n, results = pieces.map .ok ++ List.replicate n (.error .eof) ∧
    (∀ p ∈ pieces, p ≠ []) ∧ pieces.flatten <+: text ∧ (0 < n → pieces.flatten = text)

theorem piecesOf_eof (n : Nat) : PiecesOf [] (List.replicate n (.error .eof)) :=
  ⟨[], n, rfl, fun _ hp => absurd hp List.not_mem_nil, List.nil_prefix, fun _ => rfl⟩

theorem PiecesOf.cons {piece text : Bytes} {results : List (Except AVERROR Bytes)}
    (h : PiecesOf text results) (hpiece : piece ≠ []) :
    PiecesOf (piece ++ text) (.ok piece :: results) := by
  obtain ⟨pieces, n, rfl, hne, hprefix, hall⟩ := h
  refine ⟨piece :: pieces, n, rfl, ?_, ?_, fun hn => ?_⟩
  · intro p hp
    rcases List.mem_cons.mp hp with rfl | hp
    · exact hpiece
    · exact hne p hp
  · exact List.prefix_append_right_inj piece |>.mpr hprefix
  · rw [List.flatten_cons, hall hn]

variable {start : CryptoContext} {sizes : List Nat}

theorem Reading.readAll_eof {iv₀ cipher : Bytes}
    (h : Reading config t key start iv₀ cipher plain len c) (hlengths : ∀ k, 0 < start.hd.lengths k)
    (hplain : Decodes key iv₀ cipher plain len) (hsizes : ∀ size ∈ sizes, 0 < size)
    (hend : c.position = len) :
    ∃ c', readAll config t sizes c = some (List.replicate sizes.length (.error .eof), c') := by
  induction sizes generalizing c with
  | nil => exact ⟨c, rfl⟩
  | cons size sizes ih =>
    obtain ⟨r, c₁, hread, hreading, hcase⟩ :=
      h.read hlengths hplain size
    rcases hcase with ⟨n, -, -, hlt, -, -, -⟩ | ⟨rfl, -, hposition⟩
    · lia
    · obtain ⟨c', hall⟩ := ih hreading (fun s hs => hsizes s (List.mem_cons_of_mem _ hs)) hposition
      refine ⟨c', ?_⟩
      rw [readAll, hread]
      simp only [Option.bind_eq_bind, Option.bind_some, hall]
      rfl

/-- Every sequence of reads, by induction on the reads. -/
theorem Reading.readAll {iv₀ cipher : Bytes} (h : Reading config t key start iv₀ cipher plain len c)
    (hlengths : ∀ k, 0 < start.hd.lengths k) (hplain : Decodes key iv₀ cipher plain len)
    (hsizes : ∀ size ∈ sizes, 0 < size) :
    ∃ results c', readAll config t sizes c = some (results, c') ∧
      PiecesOf (slice plain c.position.toNat (len - c.position.toNat)) results := by
  induction sizes generalizing c with
  | nil => exact ⟨[], c, rfl, [], 0, rfl, fun _ hp => absurd hp List.not_mem_nil, List.nil_prefix,
      fun hn => absurd hn (lt_irrefl 0)⟩
  | cons size sizes ih =>
    obtain ⟨r, c₁, hread, hreading, hcase⟩ :=
      h.read hlengths hplain size
    have hsize := hsizes size List.mem_cons_self
    have hrest : ∀ s ∈ sizes, 0 < s := fun s hs => hsizes s (List.mem_cons_of_mem _ hs)
    have hnonneg := h.position_nonneg
    have hlt := hplain.padded.lt
    rcases hcase with ⟨n, hpos, -, -, hle, hposition, rfl⟩ | ⟨rfl, hstart, hend⟩
    · have hpos := hpos hsize
      obtain ⟨results, c', hall, hpieces⟩ := ih hreading hrest
      have hsplit : slice plain c.position.toNat (len - c.position.toNat) =
          slice plain c.position.toNat n ++
            slice plain c₁.position.toNat (len - c₁.position.toNat) := by
        rw [show len - c.position.toNat = n + (len - c₁.position.toNat) by lia, slice_add,
          show c.position.toNat + n = c₁.position.toNat by lia]
      have hpiece : slice plain c.position.toNat n ≠ [] := by
        have hlength := length_slice plain c.position.toNat n
        exact List.length_pos_iff.mp (by lia)
      refine ⟨_, c', ?_, hsplit ▸ hpieces.cons hpiece⟩
      rw [Crypto.readAll, hread]
      simp only [Option.bind_eq_bind, Option.bind_some, hall]
    · obtain ⟨c', hall⟩ := hreading.readAll_eof hlengths hplain hrest hend
      refine ⟨.error .eof :: List.replicate sizes.length (.error .eof), c', ?_, ?_⟩
      · rw [Crypto.readAll, hread]
        simp only [Option.bind_eq_bind, Option.bind_some, hall]
      · rw [hstart, Int.toNat_natCast, Nat.sub_self, slice_zero]
        exact piecesOf_eof (sizes.length + 1)

theorem exists_openAes (ht : Reached config t) (hkey : key.length = 16) (decrypt : Bool) :
    ∃ aes t', openAes config t true zeroMalloc key decrypt = .ok (aes, t') := by
  have hmalloc : avMalloc zeroMalloc 288 = some (List.replicate 288 0) := rfl
  unfold openAes
  rw [if_pos rfl, hmalloc]
  dsimp only
  rw [show ((blocksize * 8 : Nat) : Int) = 128 from rfl]
  cases decrypt with
  | true =>
    obtain ⟨t₁, dec, hinit, -⟩ := exists_decrypts ht
      (a := ⟨List.replicate 272 0, 0, .aesEncrypt⟩) List.length_replicate hkey
    exact ⟨some dec, t₁, by rw [hinit, if_neg (lt_irrefl 0)]⟩
  | false =>
    obtain ⟨t₁, enc, hinit, -⟩ := exists_encrypts ht
      (a := ⟨List.replicate 272 0, 0, .aesEncrypt⟩) List.length_replicate hkey
    exact ⟨some enc, t₁, by rw [hinit, if_neg (lt_irrefl 0)]⟩

/-- A key and an initial value for both directions. -/
def zeroOptions : Options :=
  ⟨List.replicate 16 0, List.replicate 16 0, [], [], [], []⟩

/-- A resource that reads single bytes. -/
def emptyResource : URLContext := ⟨[], 0, fun _ => 1, 0, true, true⟩

theorem exists_open (read : Bool) (hd : URLContext) :
    ∃ c t, cryptoOpen2 ⟨false, false⟩ (Tables.zero ⟨false, false⟩) (fun _ => zeroMalloc) zeroOptions
      read (!read) (.ok hd) = .ok (c, t) := by
  have hset : setAesArg zeroMalloc [] (List.replicate 16 0) = .ok (List.replicate 16 0) := rfl
  have hargs : openArgs true zeroMalloc zeroMalloc [] [] (List.replicate 16 0)
      (List.replicate 16 0) = .ok (List.replicate 16 0, List.replicate 16 0) := by
    simp only [openArgs, hset, if_true, bind, Except.bind]
  unfold cryptoOpen2
  dsimp only [zeroOptions]
  cases read with
  | true =>
    obtain ⟨aes, t', haes⟩ := exists_openAes (.zero : Reached ⟨false, false⟩ _)
      (List.length_replicate (n := 16) (a := 0)) true
    rw [hargs]
    simp only [Bool.not_true, bind, Except.bind, openArgs_false, haes, openAes_false]
    exact ⟨_, _, rfl⟩
  | false =>
    obtain ⟨aes, t', haes⟩ := exists_openAes (.zero : Reached ⟨false, false⟩ _)
      (List.length_replicate (n := 16) (a := 0)) false
    simp only [Bool.not_false, bind, Except.bind, openArgs_false, hargs, haes, openAes_false]
    exact ⟨_, _, rfl⟩

end FFmpeg.Libavformat.Crypto
