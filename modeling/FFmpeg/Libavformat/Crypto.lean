import FFmpeg.Libavutil.Aes
import FFmpeg.Libavutil.Error
import FFmpeg.Libavutil.Mem

/-!
# The crypto protocol

`libavformat/crypto.c`: a resource whose content is encrypted with AES in blocks that are chained,
with a padding in the last one.  Signed overflow is undefined, so an `int` that is computed is a
number.  A function has no result when it reads or writes outside of a buffer.
-/

namespace FFmpeg.Libavformat.Crypto

open Common Libavutil Aes

/-- `BLOCKSIZE`. -/
def blocksize : Nat := 16

/-- `BLOCKSIZE * MAX_BUFFER_BLOCKS`. -/
def bufferSize : Nat := 4112

/-! ## The nested resource -/

/-- The nested resource: its content, where it stands, and how many bytes its reads give at
most, of which none stands for an error. -/
structure URLContext where
  content : Bytes
  pos : Nat
  lengths : Nat → Nat
  reads : Nat
  seekable : Bool
  writable : Bool

/-- `ffurl_read`: no bytes at the end, or when it fails. -/
def ffurlRead (hd : URLContext) (size : Nat) : Bytes × URLContext :=
  let data := slice hd.content hd.pos (min size (hd.lengths hd.reads))
  (data, { hd with pos := hd.pos + data.length, reads := hd.reads + 1 })

/-- `ffurl_write`. -/
def ffurlWrite (hd : URLContext) (buf : Bytes) : Except AVERROR URLContext :=
  if ¬hd.writable then .error .eio
  else .ok { hd with content := overwrite hd.content hd.pos buf, pos := hd.pos + buf.length }

/-- `ffurl_seek` with `SEEK_SET`. -/
def ffurlSeek (hd : URLContext) (pos : Int) : Except AVERROR URLContext :=
  if ¬hd.seekable then .error .enosys
  else if pos < 0 then .error .einval
  else .ok { hd with pos := pos.toNat }

/-- `ffurl_seek` with `AVSEEK_SIZE`. -/
def ffurlSize (hd : URLContext) : Except AVERROR Int :=
  if ¬hd.seekable then .error .enosys else .ok hd.content.length

/-! ## Contexts -/

/-- The options of the protocol. -/
structure Options where
  key : Bytes
  iv : Bytes
  decryptionKey : Bytes
  decryptionIv : Bytes
  encryptionKey : Bytes
  encryptionIv : Bytes
  deriving DecidableEq, Repr

/-- `CryptoContext`, with `outptr` as an offset into `outbuffer`; of the flags, whether it is
open for writing. -/
structure CryptoContext where
  hd : URLContext
  inbuffer : Bytes
  outbuffer : Bytes
  outptr : Nat
  indata : Nat
  indataUsed : Nat
  outdata : Int
  position : Int
  write : Bool
  eof : Bool
  iv : Bytes
  decryptIv : Bytes
  encryptIv : Bytes
  aesDecrypt : Option AVAES
  aesEncrypt : Option AVAES
  writeBuf : Option Bytes
  writeBufSize : Nat
  pad : Bytes
  padLen : Nat

/-- `set_aes_arg`: what the argument is then. -/
def setAesArg (malloc : Malloc) (buf defaultBuf : Bytes) : Except AVERROR Bytes :=
  if buf.length = 0 then
    if defaultBuf.length = 0 then .error .einval
    else if defaultBuf.length ≠ blocksize then .error .einval
    else
      match avMalloc malloc defaultBuf.length with
      | none => .error .enomem
      | some _ => .ok defaultBuf
  else if buf.length ≠ blocksize then .error .einval
  else .ok buf

/-- The key and the initial value for one direction, when it is wanted. -/
def openArgs (wanted : Bool) (mallocKey mallocIv : Malloc) (key iv defaultKey defaultIv : Bytes) :
    Except AVERROR (Bytes × Bytes) :=
  if wanted then do
    let key ← setAesArg mallocKey key defaultKey
    let iv ← setAesArg mallocIv iv defaultIv
    .ok (key, iv)
  else .ok (key, iv)

/-- The context for one direction, when it is wanted, and the tables. -/
def openAes (config : Config) (t : Tables) (wanted : Bool) (malloc : Malloc) (key : Bytes)
    (decrypt : Bool) : Except AVERROR (Option AVAES × Tables) :=
  if wanted then
    match avMalloc malloc 288 with
    | none => .error .enomem
    | some _ =>
      let init := avAesInit config t ⟨List.replicate 272 0, 0, .aesEncrypt⟩ key
        (blocksize * 8 : Nat) decrypt
      if init.2.2 < 0 then .error .einval else .ok (some init.2.1, init.1)
  else .ok (none, t)

/-- `crypto_open2`, of the resource that the rest of the URL names; the other fields are 0. -/
def cryptoOpen2 (config : Config) (t : Tables) (malloc : Nat → Malloc) (o : Options)
    (read write : Bool) (nested : Except AVERROR URLContext) :
    Except AVERROR (CryptoContext × Tables) := do
  let (decryptKey, decryptIv) ←
    openArgs read (malloc 0) (malloc 1) o.decryptionKey o.decryptionIv o.key o.iv
  let (encryptKey, encryptIv) ←
    openArgs write (malloc 2) (malloc 3) o.encryptionKey o.encryptionIv o.key o.iv
  let hd ← nested
  let (aesDecrypt, t) ← openAes config t read (malloc 4) decryptKey true
  let (aesEncrypt, t) ← openAes config t write (malloc 5) encryptKey false
  .ok ({
    hd := hd
    inbuffer := List.replicate bufferSize 0
    outbuffer := List.replicate bufferSize 0
    outptr := 0
    indata := 0
    indataUsed := 0
    outdata := 0
    position := 0
    write := write
    eof := false
    iv := o.iv
    decryptIv := decryptIv
    encryptIv := encryptIv
    aesDecrypt := aesDecrypt
    aesEncrypt := aesEncrypt
    writeBuf := none
    writeBufSize := 0
    pad := List.replicate blocksize 0
    padLen := 0 }, t)

/-- `av_aes_crypt` from one buffer to another one: the second buffer and the initial value. -/
def crypt (config : Config) (t : Tables) (a : AVAES) (dst : Bytes) (dstOff : Nat) (src : Bytes)
    (srcOff count : Nat) (iv : Bytes) : Option (Bytes × Bytes) :=
  if dstOff + 16 * count ≤ dst.length ∧ srcOff + 16 * count ≤ src.length then
    let done := avAesCrypt config t a (dst ++ src) dstOff (dst.length + srcOff) count (some iv)
    some (done.1.take dst.length, done.2.getD iv)
  else none

/-! ## Reading -/

/-- The loop of `crypto_read` that fills the input buffer. -/
def fill : Nat → CryptoContext → Option CryptoContext
  | 0, c => if c.indata - c.indataUsed < 2 * blocksize then none else some c
  | fuel + 1, c =>
    if c.indata - c.indataUsed < 2 * blocksize then
      if bufferSize < c.indata then none
      else
        let read := ffurlRead c.hd (bufferSize - c.indata)
        if read.1 = [] then some { c with hd := read.2, eof := true }
        else
          fill fuel { c with
            hd := read.2
            inbuffer := overwrite c.inbuffer c.indata read.1
            indata := c.indata + read.1.length }
    else some c

/-- The used part of the input buffer is given up when it is half of it. -/
def shiftInput (c : CryptoContext) : CryptoContext :=
  if bufferSize / 2 ≤ c.indataUsed then
    { c with
      inbuffer := overwrite c.inbuffer 0
        (slice c.inbuffer c.indataUsed (c.indata - c.indataUsed))
      indata := c.indata - c.indataUsed
      indataUsed := 0 }
  else c

/-- At the end the padding is taken off the output. -/
def removePadding (c : CryptoContext) : Option CryptoContext :=
  if c.eof then
    if c.outdata < 1 then none
    else do
      let padding ← c.outbuffer[(c.outdata - 1).toNat]?
      some { c with outdata := c.outdata - padding.toNat }
  else some c

/-- So many blocks are decrypted. -/
def decryptBlocks (config : Config) (t : Tables) (c : CryptoContext) (blocks : Nat) :
    Option CryptoContext := do
  let aes ← c.aesDecrypt
  let (outbuffer, iv) ←
    crypt config t aes c.outbuffer 0 c.inbuffer c.indataUsed blocks c.decryptIv
  some { c with
    outbuffer := outbuffer
    decryptIv := iv
    outdata := (blocksize * blocks : Nat)
    outptr := 0
    indataUsed := c.indataUsed + blocksize * blocks }

/-- One round of `crypto_read` without output: whether there was a block, and the context. -/
def refill (config : Config) (t : Tables) (c : CryptoContext) : Option (Bool × CryptoContext) := do
  let c ← fill (2 * blocksize) c
  let blocks := (c.indata - c.indataUsed) / blocksize
  if blocks = 0 then some (false, c)
  else do
    let c ← decryptBlocks config t c (if c.eof then blocks else blocks - 1)
    let c ← removePadding (shiftInput c)
    some (true, c)

/-- `crypto_read`, with a bound on its rounds. -/
def cryptoReadLoop (config : Config) (t : Tables) (size : Nat) :
    Nat → CryptoContext → Option (Except AVERROR Bytes × CryptoContext)
  | 0, _ => none
  | fuel + 1, c =>
    if 0 < c.outdata then
      let n := min size c.outdata.toNat
      if c.outptr + n ≤ c.outbuffer.length then
        some (.ok (slice c.outbuffer c.outptr n), { c with
          outptr := c.outptr + n
          outdata := c.outdata - n
          position := c.position + n })
      else none
    else do
      let (more, c) ← refill config t c
      if more then cryptoReadLoop config t size fuel c else some (.error .eof, c)

/-- What can still be read from the nested resource and the input buffer. -/
def CryptoContext.left (c : CryptoContext) : Nat :=
  c.hd.content.length - c.hd.pos + (c.indata - c.indataUsed)

/-- `crypto_read`: each round takes a block at least. -/
def cryptoRead (config : Config) (t : Tables) (c : CryptoContext) (size : Nat) :
    Option (Except AVERROR Bytes × CryptoContext) :=
  cryptoReadLoop config t size (c.left + 2) c

/-! ## Seeking -/

/-- What a seek may be relative to. -/
inductive Whence
  | seekSet
  | seekCur
  | seekEnd
  | avseekSize
  | other
  deriving DecidableEq, Repr

/-- The loop of `crypto_seek` that reads up to the position: what is left to be read. -/
def discardLoop (config : Config) (t : Tables) :
    Nat → Int → CryptoContext → Option (Int × CryptoContext)
  | 0, len, c => if 0 < len then none else some (len, c)
  | fuel + 1, len, c =>
    if 2 * blocksize < len then none
    else if 0 < len then do
      let (res, c) ← cryptoRead config t c len.toNat
      match res with
      | .error _ => some (len, c)
      | .ok data => discardLoop config t fuel (len - data.length) c
    else some (len, c)

/-- `crypto_seek` from the position on that it has found: where decryption can start. -/
def seekTo (config : Config) (t : Tables) (c : CryptoContext) (pos : Int) :
    Option (Except AVERROR Int × CryptoContext) :=
  let block := pos.tdiv blocksize
  if block = 0 ∧ c.decryptIv.length < c.iv.length then none
  else
    let c := { c with
      outdata := 0
      indata := 0
      indataUsed := 0
      outptr := 0
      decryptIv := if block = 0 then overwrite c.decryptIv 0 c.iv else c.decryptIv
      position := if block = 0 then 0 else (block - 1) * blocksize }
    match ffurlSeek c.hd c.position with
    | .error err => some (.error err, c)
    | .ok hd => do
      let (len, c) ←
        discardLoop config t (pos - c.position).toNat (pos - c.position) { c with hd := hd }
      if len ≠ 0 then some (.error .einval, c) else some (.ok c.position, c)

/-- `crypto_seek`. -/
def cryptoSeek (config : Config) (t : Tables) (c : CryptoContext) (pos : Int) (whence : Whence) :
    Option (Except AVERROR Int × CryptoContext) :=
  if c.write then some (.error .espipe, c)
  else
    let c := { c with eof := false }
    match whence with
    | .seekSet => seekTo config t c pos
    | .seekCur => seekTo config t c (pos + c.position)
    | .seekEnd =>
      match ffurlSize c.hd with
      | .error err => some (.error err, c)
      | .ok newpos => seekTo config t c (newpos - pos)
    | .avseekSize => some (ffurlSize c.hd, c)
    | .other => some (.error .einval, c)

/-! ## Writing -/

/-- Where `crypto_write` has whole blocks: the block that was begun, and the others. -/
def writeBlocks (config : Config) (t : Tables) (c : CryptoContext) (aes : AVAES) (buf : Bytes)
    (blocks : Nat) (writeBuf : Bytes) : Option (Bytes × Bytes × Bytes) :=
  if c.padLen ≠ 0 then do
    let pad := overwrite c.pad c.padLen (buf.take (blocksize - c.padLen))
    let (writeBuf, iv) ← crypt config t aes writeBuf 0 pad 0 1 c.encryptIv
    let (writeBuf, iv) ←
      crypt config t aes writeBuf blocksize buf (blocksize - c.padLen) (blocks - 1) iv
    some (pad, writeBuf, iv)
  else do
    let (writeBuf, iv) ← crypt config t aes writeBuf 0 buf 0 blocks c.encryptIv
    some (c.pad, writeBuf, iv)

/-- `crypto_write`. -/
def cryptoWrite (config : Config) (t : Tables) (malloc : Malloc) (c : CryptoContext)
    (buf : Bytes) : Option (Except AVERROR Nat × CryptoContext) :=
  let totalSize := buf.length + c.padLen
  let padLen := totalSize % blocksize
  let outSize := totalSize - padLen
  if outSize ≠ 0 then
    let new := avFastMalloc malloc c.writeBuf c.writeBufSize outSize
    match new.1 with
    | none => some (.error .enomem, { c with writeBuf := none, writeBufSize := new.2 })
    | some writeBuf => do
      let aes ← c.aesEncrypt
      let (pad, writeBuf, iv) ←
        writeBlocks config t c aes buf (outSize / blocksize) writeBuf
      let c := { c with
        writeBuf := some writeBuf
        writeBufSize := new.2
        encryptIv := iv
        pad := pad }
      match ffurlWrite c.hd (writeBuf.take outSize) with
      | .error err => some (.error err, c)
      | .ok hd => some (.ok buf.length, { c with
          hd := hd
          pad := overwrite pad 0 (slice buf (buf.length - padLen) padLen)
          padLen := padLen })
  else
    some (.ok buf.length, { c with pad := overwrite c.pad c.padLen buf, padLen := padLen })

/-- `crypto_close`: what it returns, and the nested resource as it is when it is closed. -/
def cryptoClose (config : Config) (t : Tables) (c : CryptoContext) :
    Option (Except AVERROR Unit × URLContext) :=
  match c.aesEncrypt with
  | none => some (.ok (), c.hd)
  | some aes => do
    let n := blocksize - c.padLen
    let pad := overwrite c.pad c.padLen (List.replicate n (UInt8.ofNat n))
    let (block, _) ← crypt config t aes (List.replicate blocksize 0) 0 pad 0 1 c.encryptIv
    match ffurlWrite c.hd block with
    | .error err => some (.error err, c.hd)
    | .ok hd => some (.ok (), hd)

end FFmpeg.Libavformat.Crypto
