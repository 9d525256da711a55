import FFmpeg.Common.Bytes
import FFmpeg.Common.File
import FFmpeg.Libavutil.Error

/-!
# The AES cipher

`libavutil/aes.c`.  An `av_aes_block` is a string of 16 bytes, seen as words where the
source does.  The tables the source computes at the first call of `av_aes_init` are
passed from call to call.
-/

namespace FFmpeg.Libavutil.Aes

open Common

/-- `CONFIG_SMALL` and `HAVE_BIGENDIAN`. -/
structure Config where
  small : Bool
  bigEndian : Bool
  deriving DecidableEq, Repr

variable (config : Config)

/-! ## Words -/

/-- `ROT`. -/
def rot (x : UInt32) (s : UInt32) : UInt32 :=
  if config.bigEndian then (x >>> s) ||| (x <<< (32 - s)) else (x <<< s) ||| (x >>> (32 - s))

/-- `MKTAG`. -/
def mkTag (a b c d : UInt8) : UInt32 :=
  a.toUInt32 ||| (b.toUInt32 <<< 8) ||| (c.toUInt32 <<< 16) ||| (d.toUInt32 <<< 24)

/-- `MKBETAG`. -/
def mkBeTag (a b c d : UInt8) : UInt32 :=
  d.toUInt32 ||| (c.toUInt32 <<< 8) ||| (b.toUInt32 <<< 16) ||| (a.toUInt32 <<< 24)

/-- The bytes of a `uint32_t` in memory. -/
def bytesOfU32 (x : UInt32) : Bytes :=
  let le := [x.toUInt8, (x >>> 8).toUInt8, (x >>> 16).toUInt8, (x >>> 24).toUInt8]
  if config.bigEndian then le.reverse else le

/-! ## Tables -/

/-- The tables in static memory. -/
structure Tables where
  sbox : Bytes
  invSbox : Bytes
  encMultbl : List (List UInt32)
  decMultbl : List (List UInt32)
  deriving DecidableEq, Repr

/-- `FF_ARRAY_ELEMS(enc_multbl)`. -/
def multblElems : Nat := if config.small then 1 else 4

/-- The tables before any call. -/
def Tables.zero : Tables where
  sbox := List.replicate 256 0
  invSbox := List.replicate 256 0
  encMultbl := List.replicate (multblElems config) (List.replicate 256 0)
  decMultbl := List.replicate (multblElems config) (List.replicate 256 0)

/-- `tbl[k][i]`. -/
def entry (tbl : List (List UInt32)) (k i : Nat) : UInt32 := (tbl.getD k []).getD i 0

/-- `tbl[k][i] = x`. -/
def setEntry (tbl : List (List UInt32)) (k i : Nat) (x : UInt32) : List (List UInt32) :=
  tbl.modify k (·.set i x)

/-- The local tables of `av_aes_init`, and its `j` while it fills them. -/
structure Logs where
  j : Nat
  alog8 : Bytes
  log8 : Bytes

/-- One turn of the loop that fills `alog8` and `log8`. -/
def logStep (s : Logs) (i : Nat) : Logs :=
  let j := s.j ^^^ (s.j + s.j)
  { j := if 255 < j then j ^^^ 0x11B else j
    alog8 := (s.alog8.set (i + 255) (UInt8.ofNat s.j)).set i (UInt8.ofNat s.j)
    log8 := s.log8.set s.j (UInt8.ofNat i) }

/-- `alog8` and `log8`. -/
def logs : Logs :=
  (List.range 255).foldl logStep ⟨1, List.replicate 512 0, List.replicate 256 0⟩

/-- The value of `sbox[i]`. -/
def sboxEntry (log8 alog8 : Bytes) (i : Nat) : Nat :=
  let j := if i ≠ 0 then (alog8.getD (255 - (log8.getD i 0).toNat) 0).toNat else 0
  let j := j ^^^ ((j <<< 1) ^^^ (j <<< 2) ^^^ (j <<< 3) ^^^ (j <<< 4))
  (j ^^^ (j >>> 8) ^^^ 99) &&& 255

/-- One turn of the loop that fills `sbox` and `inv_sbox`. -/
def sboxStep (log8 alog8 : Bytes) (t : Tables) (i : Nat) : Tables :=
  let j := sboxEntry log8 alog8 i
  { t with
    invSbox := t.invSbox.set j (UInt8.ofNat i)
    sbox := t.sbox.set i (UInt8.ofNat j) }

/-- The word `init_multbl2` stores for the byte `x`, which is not zero. -/
def multblWord (c₀ c₁ c₂ c₃ : Nat) (log8 alog8 : Bytes) (x : UInt8) : UInt32 :=
  let x := (log8.getD x.toNat 0).toNat
  let k := alog8.getD (x + (log8.getD c₀ 0).toNat) 0
  let l := alog8.getD (x + (log8.getD c₁ 0).toNat) 0
  let m := alog8.getD (x + (log8.getD c₂ 0).toNat) 0
  let n := alog8.getD (x + (log8.getD c₃ 0).toNat) 0
  if config.bigEndian then mkBeTag k l m n else mkTag k l m n

/-- One turn of the loop of `init_multbl2`. -/
def multblStep (c₀ c₁ c₂ c₃ : Nat) (log8 alog8 sbox : Bytes) (tbl : List (List UInt32)) (i : Nat) :
    List (List UInt32) :=
  let x := sbox.getD i 0
  if x ≠ 0 then
    let word := multblWord config c₀ c₁ c₂ c₃ log8 alog8 x
    let tbl := setEntry tbl 0 i word
    if config.small then tbl
    else
      setEntry (setEntry (setEntry tbl 1 i (rot config word 8)) 2 i (rot config word 16)) 3 i
        (rot config word 24)
  else tbl

/-- `init_multbl2`. -/
def initMultbl2 (tbl : List (List UInt32)) (c₀ c₁ c₂ c₃ : Nat) (log8 alog8 sbox : Bytes) :
    List (List UInt32) :=
  (List.range 256).foldl (multblStep config c₀ c₁ c₂ c₃ log8 alog8 sbox) tbl

/-- The part of `av_aes_init` that fills the tables where they are still empty. -/
def initTables (t : Tables) : Tables :=
  if entry t.encMultbl (multblElems config - 1) 255 = 0 then
    let t := (List.range 256).foldl (sboxStep logs.log8 logs.alog8) t
    let t := { t with
      decMultbl := initMultbl2 config t.decMultbl 0xe 0x9 0xd 0xb logs.log8 logs.alog8 t.invSbox }
    { t with
      encMultbl := initMultbl2 config t.encMultbl 0x2 0x1 0x1 0x3 logs.log8 logs.alog8 t.sbox }
  else t

/-! ## Rounds -/

/-- `addkey`, `addkey_s` and `addkey_d`, up to where they take their arguments from: both
halves of a block are added. -/
def addkey (src roundKey : Bytes) : Bytes := List.zipWith (· ^^^ ·) src roundKey

/-- `subshift` on the two blocks of `m` from offset `s0` on.  The pairs are the places
written to and read from, in the order of the source; `s1` is `s0 - s`, which may lie before
the blocks, and `s3` is `s0 + s`. -/
def subshift (m : Bytes) (s0 s : Nat) (box : Bytes) : Bytes :=
  let s3 := s0 + s
  [(s0 + 0, s0 + 16 + 0), (s0 + 4, s0 + 16 + 4), (s0 + 8, s0 + 16 + 8), (s0 + 12, s0 + 16 + 12),
    (s0 + 3 - s, s0 + 16 + 7 - s), (s0 + 7 - s, s0 + 16 + 11 - s),
    (s0 + 11 - s, s0 + 16 + 15 - s), (s0 + 15 - s, s0 + 16 + 3 - s),
    (s0 + 2, s0 + 16 + 10), (s0 + 10, s0 + 16 + 2), (s0 + 6, s0 + 16 + 14), (s0 + 14, s0 + 16 + 6),
    (s3 + 1, s3 + 16 + 13), (s3 + 13, s3 + 16 + 9), (s3 + 9, s3 + 16 + 5), (s3 + 5, s3 + 16 + 1)].foldl
    (fun m p => m.set p.1 (box.getD (m.getD p.2 0).toNat 0)) m

/-- `mix_core`. -/
def mixCore (multbl : List (List UInt32)) (a b c d : UInt8) : UInt32 :=
  if config.small then
    entry multbl 0 a.toNat ^^^ rot config (entry multbl 0 b.toNat) 8 ^^^
      rot config (entry multbl 0 c.toNat) 16 ^^^ rot config (entry multbl 0 d.toNat) 24
  else
    entry multbl 0 a.toNat ^^^ entry multbl 1 b.toNat ^^^ entry multbl 2 c.toNat ^^^
      entry multbl 3 d.toNat

/-- `mix` on the two blocks `state` starts with: the first one becomes a function of the
second. -/
def mix (state : Bytes) (multbl : List (List UInt32)) (s1 s3 : Nat) : Bytes :=
  let src := fun i j => state.getD (16 + 4 * i + j) 0
  overwrite state 0
    (bytesOfU32 config (mixCore config multbl (src 0 0) (src s1 1) (src 2 2) (src s3 3)) ++
      bytesOfU32 config (mixCore config multbl (src 1 0) (src (s3 - 1) 1) (src 3 2) (src (s1 - 1) 3)) ++
      bytesOfU32 config (mixCore config multbl (src 2 0) (src s3 1) (src 0 2) (src s1 3)) ++
      bytesOfU32 config (mixCore config multbl (src 3 0) (src (s1 - 1) 1) (src 1 2) (src (s3 - 1) 3)))

/-- The functions an `AVAES` may have as its `crypt`. -/
inductive Crypt
  | aesEncrypt
  | aesDecrypt
  deriving DecidableEq, Repr

/-- `AVAES`.  `roundKey` is the memory of `round_key` and of `state` behind it, since
`av_aes_init` may write past the round keys.  The functions below keep their state in a
variable of their own: no call reads what another one has left there. -/
structure AVAES where
  roundKey : Bytes
  rounds : Nat
  crypt : Crypt
  deriving DecidableEq, Repr

/-- `round_key[i]`. -/
def block (roundKey : Bytes) (i : Nat) : Bytes := slice roundKey (16 * i) 16

/-- `round_key[i] = value`. -/
def setBlock (roundKey : Bytes) (i : Nat) (value : Bytes) : Bytes :=
  overwrite roundKey (16 * i) value

/-- The loop of `aes_crypt`, for `r` down from `n`. -/
def aesCryptLoop (a : AVAES) (s : Nat) (multbl : List (List UInt32)) : Nat → Bytes → Bytes
  | 0, state => state
  | r + 1, state =>
    let state := mix config state multbl (3 - s) (1 + s)
    aesCryptLoop a s multbl r
      (overwrite state 16 (addkey (slice state 0 16) (block a.roundKey (r + 1))))

/-- `aes_crypt`. -/
def aesCrypt (a : AVAES) (s : Nat) (sbox : Bytes) (multbl : List (List UInt32)) (state : Bytes) :
    Bytes :=
  subshift (aesCryptLoop config a s multbl (a.rounds - 1) state) 0 s sbox

/-- The state with a block at its second place. -/
def scratch (s1 : Bytes) : Bytes := List.replicate 16 0 ++ s1

/-- `aes_encrypt`, with `dst` and `src` in one memory `mem`.  The result is that memory and
the initial value for the next call. -/
def aesEncrypt (t : Tables) (a : AVAES) :
    Nat → Bytes → Nat → Nat → Option Bytes → Bytes × Option Bytes
  | 0, mem, _, _, iv => (mem, iv)
  | count + 1, mem, dst, src, iv =>
    let s1 := addkey (slice mem src 16) (block a.roundKey a.rounds)
    let s1 := match iv with
      | none => s1
      | some iv => addkey iv s1
    let state := aesCrypt config a 2 t.sbox t.encMultbl (scratch s1)
    let mem := overwrite mem dst (addkey (slice state 0 16) (block a.roundKey 0))
    aesEncrypt t a count mem (dst + 16) (src + 16) (iv.map fun _ => slice mem dst 16)

/-- `aes_decrypt`. -/
def aesDecrypt (t : Tables) (a : AVAES) :
    Nat → Bytes → Nat → Nat → Option Bytes → Bytes × Option Bytes
  | 0, mem, _, _, iv => (mem, iv)
  | count + 1, mem, dst, src, iv =>
    let s1 := addkey (slice mem src 16) (block a.roundKey a.rounds)
    let s0 := slice (aesCrypt config a 0 t.invSbox t.decMultbl (scratch s1)) 0 16
    let s0 := match iv with
      | none => s0
      | some iv => addkey iv s0
    let iv := iv.map fun _ => slice mem src 16
    aesDecrypt t a count (overwrite mem dst (addkey s0 (block a.roundKey 0))) (dst + 16) (src + 16) iv

/-- `av_aes_crypt`. -/
def avAesCrypt (t : Tables) (a : AVAES) (mem : Bytes) (dst src count : Nat) (iv : Option Bytes) :
    Bytes × Option Bytes :=
  match a.crypt with
  | .aesEncrypt => aesEncrypt config t a count mem dst src iv
  | .aesDecrypt => aesDecrypt config t a count mem dst src iv

/-! ## Keys -/

/-- `rcon`. -/
def rcon : Bytes := [0x01, 0x02, 0x04, 0x08, 0x10, 0x20, 0x40, 0x80, 0x1b, 0x36]

/-- `tk[j]`. -/
def row (tk : List Bytes) (j : Nat) : Bytes := tk.getD j []

/-- The first word of one turn of the key expansion. -/
def expandFirst (sbox : Bytes) (kc rconpointer : Nat) (tk : List Bytes) : Bytes :=
  let word := (List.range 4).map fun i =>
    (row tk 0).getD i 0 ^^^ sbox.getD ((row tk (kc - 1)).getD ((i + 1) % 4) 0).toNat 0
  word.set 0 (word.getD 0 0 ^^^ rcon.getD rconpointer 0)

/-- Word `j` of one turn of the key expansion, for `j` from one on. -/
def expandStep (sbox : Bytes) (kc : Nat) (tk : List Bytes) (j : Nat) : List Bytes :=
  if kc ≠ 8 ∨ j ≠ kc / 2 then
    tk.set j (addkey (row tk j) (row tk (j - 1)))
  else
    tk.set j (addkey (row tk j) ((row tk (j - 1)).map fun b => sbox.getD b.toNat 0))

/-- One turn of the key expansion. -/
def expandTurn (sbox : Bytes) (kc rconpointer : Nat) (tk : List Bytes) : List Bytes :=
  (List.range' 1 (kc - 1)).foldl (expandStep sbox kc)
    (tk.set 0 (expandFirst sbox kc rconpointer tk))

/-- The key expansion from offset `t` on, in at most as many turns as the first argument
says. -/
def expandKey (sbox : Bytes) (kc rounds : Nat) : Nat → Nat → Nat → List Bytes → Bytes → Bytes
  | 0, _, _, _, roundKey => roundKey
  | fuel + 1, t, rconpointer, tk, roundKey =>
    if t < (rounds + 1) * 16 then
      let tk := expandTurn sbox kc rconpointer tk
      expandKey sbox kc rounds fuel (t + kc * 4) (rconpointer + 1) tk
        (overwrite roundKey t tk.flatten)
    else roundKey

/-- The mixed round key for decryption.  The blocks of `tmp` that are not given are written
before they are read. -/
def mixKey (t : Tables) (key : Bytes) : Bytes :=
  let tmp := List.replicate 32 0 ++ key
  let tmp := subshift tmp 16 0 t.sbox
  slice (mix config tmp t.decMultbl 1 3) 0 16

/-- `FFSWAP` of two round keys. -/
def swapKeys (rounds : Nat) (roundKey : Bytes) (i : Nat) : Bytes :=
  let tmp := block roundKey (rounds - i)
  setBlock (setBlock roundKey (rounds - i) (block roundKey i)) i tmp

/-- `av_aes_init`.  The result is the tables, the context and the value returned. -/
def avAesInit (t : Tables) (a : AVAES) (key : Bytes) (keyBits : Int) (decrypt : Bool) :
    Tables × AVAES × Int :=
  let a := { a with crypt := if decrypt then Crypt.aesDecrypt else Crypt.aesEncrypt }
  let t := initTables config t
  if keyBits ≠ 128 ∧ keyBits ≠ 192 ∧ keyBits ≠ 256 then (t, a, AVERROR.einval.toInt)
  else
    let kc := (keyBits / 32).toNat
    let rounds := kc + 6
    let tk := (List.range kc).map fun j => slice key (4 * j) 4
    let roundKey := expandKey t.sbox kc rounds ((rounds + 1) * 16) (kc * 4) 0 tk
      (overwrite a.roundKey 0 (key.take (kc * 4)))
    let roundKey :=
      if decrypt then
        (List.range' 1 (rounds - 1)).foldl
          (fun rk i => setBlock rk i (mixKey config t (block rk i))) roundKey
      else (List.range ((rounds + 1) / 2)).foldl (swapKeys rounds) roundKey
    (t, { a with rounds := rounds, roundKey := roundKey }, 0)

end FFmpeg.Libavutil.Aes
