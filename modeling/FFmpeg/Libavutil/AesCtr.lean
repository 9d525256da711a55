import FFmpeg.Libavutil.Aes
import FFmpeg.Common.KeyStream
import FFmpeg.Libavutil.AesFips197

/-!
# AES in counter mode

`libavutil/aes_ctr.c`, when memory can be allocated.  Every byte of the source is read
before its byte of the destination is written, so `av_aes_ctr_crypt` is a function from
the bytes it reads to the ones it writes.
-/

namespace FFmpeg
namespace Libavutil
namespace AesCtr

open Common Aes

/-- `AES_BLOCK_SIZE`. -/
def aesBlockSize : Nat := 16

/-- `AES_CTR_IV_SIZE`. -/
def aesCtrIvSize : Nat := 8

/-- `AVAESCTR`. -/
structure AVAESCTR where
  aes : AVAES
  counter : Bytes
  encryptedCounter : Bytes
  blockOffset : Nat
  deriving DecidableEq, Repr

/-- `av_aes_ctr_set_iv`. -/
def avAesCtrSetIv (a : AVAESCTR) (iv : Bytes) : AVAESCTR :=
  { a with
    counter := iv.take aesCtrIvSize ++ List.replicate (aesBlockSize - aesCtrIvSize) 0
    blockOffset := 0 }

/-- `av_aes_ctr_set_full_iv`. -/
def avAesCtrSetFullIv (a : AVAESCTR) (iv : Bytes) : AVAESCTR :=
  { a with counter := iv.take aesBlockSize, blockOffset := 0 }

/-- `av_aes_alloc`: memory cleared to zero, where `crypt` is not set yet. -/
def avAesAlloc : AVAES := ⟨List.replicate 272 0, 0, .aesEncrypt⟩

/-- `av_aes_ctr_init`.  The result is the tables of the cipher, the context and the value
returned. -/
def avAesCtrInit (config : Config) (t : Tables) (a : AVAESCTR) (key : Bytes) :
    Tables × AVAESCTR × Int :=
  let (t, aes, _) := avAesInit config t avAesAlloc key 128 false
  (t, { a with aes := aes, counter := List.replicate aesBlockSize 0, blockOffset := 0 }, 0)

/-- The loop of `av_aes_ctr_increment_be64`; `cur_pos` is one below the first argument. -/
def incrementBe64Loop (offset : Nat) : Nat → Bytes → Bytes
  | 0, counter => counter
  | n + 1, counter =>
    let value := counter.getD (offset + n) 0 + 1
    let counter := counter.set (offset + n) value
    if value ≠ 0 then counter else incrementBe64Loop offset n counter

/-- `av_aes_ctr_increment_be64` on the bytes from `offset` on. -/
def avAesCtrIncrementBe64 (counter : Bytes) (offset : Nat) : Bytes :=
  incrementBe64Loop offset 8 counter

/-- The first branch of the loop of `av_aes_ctr_crypt`: the next block of the key stream.
The counter and the encrypted counter are one memory. -/
def nextBlock (config : Config) (t : Tables) (a : AVAESCTR) : AVAESCTR :=
  let mem := (avAesCrypt config t a.aes (a.counter ++ a.encryptedCounter) aesBlockSize 0 1 none).1
  { a with
    encryptedCounter := slice mem aesBlockSize aesBlockSize
    counter := avAesCtrIncrementBe64 a.counter 8 }

/-- The loop of `av_aes_ctr_crypt`; every round takes at least a byte. -/
def avAesCtrCryptLoop (config : Config) (t : Tables) : Nat → AVAESCTR → Bytes → Bytes × AVAESCTR
  | 0, a, _ => ([], a)
  | rounds + 1, a, src =>
    if src = [] then ([], a)
    else
      let a := if a.blockOffset = 0 then nextBlock config t a else a
      let encryptedCounterPos := a.encryptedCounter.drop a.blockOffset
      let len := min (aesBlockSize - a.blockOffset) src.length
      let a := { a with blockOffset := (a.blockOffset + len) &&& (aesBlockSize - 1) }
      let dst := List.zipWith (· ^^^ ·) (src.take len) encryptedCounterPos
      let (rest, a) := avAesCtrCryptLoop config t rounds a (src.drop len)
      (dst ++ rest, a)

/-- `av_aes_ctr_crypt`: the bytes of `dst` and the context. -/
def avAesCtrCrypt (config : Config) (t : Tables) (a : AVAESCTR) (src : Bytes) : Bytes × AVAESCTR :=
  avAesCtrCryptLoop config t src.length a src

end AesCtr
end Libavutil
end FFmpeg

/-! ## Counter mode as a stream cipher

The counter mode adds a key stream to its input: the encrypted counter blocks, one after
the other, with a big-endian counter of 64 bits.  The context keeps its place in the
stream, so the input may come in any pieces. -/

namespace FFmpeg
namespace Libavutil
namespace AesCtrStream

open Common Fips197 Aes AesTables AesFips197 AesCtr

/-! ## The key stream -/

/-- Counter block `i` from the initial value `iv` on. -/
def counterBlock (iv : Bytes) (i : Nat) : Bytes :=
  iv.take 8 ++ putBE 8 (getBE (iv.drop 8) + i)

/-- Byte `pos` of the key stream. -/
def keyStream (key iv : Bytes) (pos : Nat) : UInt8 :=
  (encrypt key (counterBlock iv (pos / 16))).getD (pos % 16) 0

theorem length_encrypt (key block : Bytes) : (encrypt key block).length = 16 := length_toBytes _

variable {iv : Bytes}

theorem length_counterBlock (hiv : iv.length = 16) (i : Nat) : (counterBlock iv i).length = 16 := by
  rw [counterBlock, List.length_append, List.length_take, length_putBE]
  lia

theorem counterBlock_zero (hiv : iv.length = 16) : counterBlock iv 0 = iv := by
  have hlow : (iv.drop 8).length = 8 := by rw [List.length_drop, hiv]
  have hput := putBE_getBE (iv.drop 8)
  rw [hlow] at hput
  rw [counterBlock, Nat.add_zero, hput, List.take_append_drop]

/-! ## The counter -/

/-- The loop adds one to the number in the bytes it may change; the induction is on these,
from the last one on. -/
theorem incrementBe64Loop_eq (head number tail : Bytes) :
    incrementBe64Loop head.length number.length (head ++ number ++ tail) =
      head ++ putBE number.length (getBE number + 1) ++ tail := by
  induction number using List.reverseRecOn generalizing tail with
  | nil => rfl
  | append_singleton number b ih =>
    have hplace : head ++ (number ++ [b]) ++ tail = (head ++ number) ++ b :: tail := by
      simp only [List.append_assoc, List.singleton_append]
    have hlength : (number ++ [b]).length = number.length + 1 := by
      rw [List.length_append, List.length_singleton]
    have hindex : head.length + number.length = (head ++ number).length := List.length_append.symm
    have hget : ((head ++ number) ++ b :: tail).getD (head.length + number.length) 0 = b := by
      rw [List.getD_eq_getElem?_getD, hindex, List.getElem?_append_right (Nat.le_refl _),
        Nat.sub_self]
      rfl
    have hset : ∀ c, ((head ++ number) ++ b :: tail).set (head.length + number.length) c =
        (head ++ number) ++ c :: tail := by
      intro c
      rw [hindex, List.set_append_right _ _ (Nat.le_refl _), Nat.sub_self]
      rfl
    have hb := b.toNat_lt
    rw [hlength, hplace, incrementBe64Loop, hget, hset, getBE_concat, putBE_concat]
    by_cases hzero : b + 1 = 0
    · have hmax : b.toNat = 255 := by
        have hnat := congrArg UInt8.toNat hzero
        rw [UInt8.toNat_add] at hnat
        simp at hnat
        lia
      have hdiv : (getBE number * 256 + b.toNat + 1) / 256 = getBE number + 1 := by lia
      have hlast : UInt8.ofNat (getBE number * 256 + b.toNat + 1) = 0 := by
        apply UInt8.toNat_inj.mp
        rw [UInt8.toNat_ofNat', UInt8.toNat_zero]
        lia
      rw [if_neg (not_not.mpr hzero), hzero, ih, hdiv, hlast]
      simp only [List.append_assoc, List.singleton_append]
    · have hsmall : b.toNat < 255 := by
        by_contra hge
        apply hzero
        apply UInt8.toNat_inj.mp
        rw [UInt8.toNat_add, show b.toNat = 255 by lia]
        rfl
      have hdiv : (getBE number * 256 + b.toNat + 1) / 256 = getBE number := by lia
      have hlast : UInt8.ofNat (getBE number * 256 + b.toNat + 1) = b + 1 := by
        apply UInt8.toNat_inj.mp
        rw [UInt8.toNat_ofNat', UInt8.toNat_add]
        simp
        lia
      rw [if_pos hzero, hdiv, hlast, putBE_getBE]
      simp only [List.append_assoc, List.singleton_append]

theorem avAesCtrIncrementBe64_counterBlock (hiv : iv.length = 16) (i : Nat) :
    avAesCtrIncrementBe64 (counterBlock iv i) 8 = counterBlock iv (i + 1) := by
  have hhigh : (iv.take 8).length = 8 := by
    rw [List.length_take]
    lia
  have hloop := incrementBe64Loop_eq (iv.take 8) (putBE 8 (getBE (iv.drop 8) + i)) []
  have hnumber := putBE_mod 8 (getBE (iv.drop 8) + i + 1)
  rw [hhigh, length_putBE, List.append_nil, List.append_nil, getBE_putBE,
    ← putBE_mod 8 (_ + 1), Nat.mod_add_mod, hnumber] at hloop
  exact hloop

/-! ## The place in the stream -/

variable {config : Config} {t : Tables} {key iv : Bytes} {enc : AVAES}

/-- The context `enc` encrypts blocks under `key`. -/
def Encrypts (config : Config) (t : Tables) (key : Bytes) (enc : AVAES) : Prop :=
  ∀ (mem : Bytes) (dst src : Nat), Buffers mem dst src 1 →
    (avAesCrypt config t enc mem dst src 1 none).1 =
      overwrite mem dst (encrypt key (slice mem src 16))

/-- The context `a` has used `pos` bytes of the stream. -/
structure At (key iv : Bytes) (enc : AVAES) (pos : Nat) (a : AVAESCTR) : Prop where
  aes_eq : a.aes = enc
  length_eq : a.encryptedCounter.length = 16
  offset_eq : a.blockOffset = pos % 16
  counter_eq : a.counter = counterBlock iv ((pos + 15) / 16)
  encrypted_eq : pos % 16 ≠ 0 → a.encryptedCounter = encrypt key (counterBlock iv (pos / 16))

/-- The context `a` has used `pos` bytes of the stream and holds the block of the next. -/
structure Inside (key iv : Bytes) (enc : AVAES) (pos : Nat) (a : AVAESCTR) : Prop where
  aes_eq : a.aes = enc
  offset_eq : a.blockOffset = pos % 16
  counter_eq : a.counter = counterBlock iv (pos / 16 + 1)
  encrypted_eq : a.encryptedCounter = encrypt key (counterBlock iv (pos / 16))

variable {pos : Nat} {a : AVAESCTR}

/-- A block that is used up is replaced. -/
theorem At.inside (h : Encrypts config t key enc) (hiv : iv.length = 16) (ha : At key iv enc pos a) :
    Inside key iv enc pos (if a.blockOffset = 0 then nextBlock config t a else a) := by
  have hoffset := ha.offset_eq
  by_cases hzero : pos % 16 = 0
  · have hindex : (pos + 15) / 16 = pos / 16 := by lia
    have hcounter := ha.counter_eq
    rw [hindex] at hcounter
    have hlength := length_counterBlock hiv (pos / 16)
    have hkeyLength := ha.length_eq
    have hmemory : (a.counter ++ a.encryptedCounter).length = 32 := by
      rw [hcounter, List.length_append, hlength, hkeyLength]
    have hbuf : Buffers (a.counter ++ a.encryptedCounter) 16 0 1 :=
      ⟨by lia, by lia, by lia⟩
    have hblock : slice (a.counter ++ a.encryptedCounter) 0 16 = counterBlock iv (pos / 16) := by
      rw [hcounter, slice, List.drop_zero, List.take_left' hlength]
    have hencrypted : (nextBlock config t a).encryptedCounter =
        encrypt key (counterBlock iv (pos / 16)) := by
      show slice (avAesCrypt config t a.aes (a.counter ++ a.encryptedCounter) 16 0 1 none).1 16 16 = _
      have hkey := length_encrypt key (counterBlock iv (pos / 16))
      rw [ha.aes_eq, h _ 16 0 hbuf, hblock, slice_overwrite_of_le (by lia) (Nat.le_refl _) (by lia),
        Nat.sub_self, slice, List.drop_zero, List.take_of_length_le (by lia)]
    have hnext : (nextBlock config t a).counter = counterBlock iv (pos / 16 + 1) := by
      show avAesCtrIncrementBe64 a.counter 8 = _
      rw [hcounter, avAesCtrIncrementBe64_counterBlock hiv]
    rw [if_pos (by rw [hoffset, hzero])]
    exact ⟨ha.aes_eq, hoffset, hnext, hencrypted⟩
  · have hindex : (pos + 15) / 16 = pos / 16 + 1 := by lia
    rw [if_neg (by rwa [hoffset])]
    exact ⟨ha.aes_eq, hoffset, hindex ▸ ha.counter_eq, ha.encrypted_eq hzero⟩

theorem Inside.zipWith_eq (ha : Inside key iv enc pos a) {x : Bytes} (hx : x.length ≤ 16 - pos % 16) :
    List.zipWith (· ^^^ ·) x (a.encryptedCounter.drop a.blockOffset) =
      addStream (keyStream key iv) pos x := by
  have hlength := length_encrypt key (counterBlock iv (pos / 16))
  rw [ha.encrypted_eq, ha.offset_eq]
  apply zipWith_eq_addStream
  · rw [List.length_drop]
    lia
  · intro i hi
    have hdiv : (pos + i) / 16 = pos / 16 := by lia
    have hmod : (pos + i) % 16 = pos % 16 + i := by lia
    rw [List.getElem?_drop, keyStream, hdiv, hmod, List.getD_eq_getElem?_getD,
      List.getElem?_eq_getElem (by lia), Option.getD_some]

theorem Inside.advance (ha : Inside key iv enc pos a) {len : Nat} (hpos : 0 < len)
    (hlen : len ≤ 16 - pos % 16) :
    At key iv enc (pos + len)
      { a with blockOffset := (a.blockOffset + len) &&& (aesBlockSize - 1) } where
  aes_eq := ha.aes_eq
  length_eq := by
    show a.encryptedCounter.length = 16
    rw [ha.encrypted_eq, length_encrypt]
  offset_eq := by
    show (a.blockOffset + len) &&& (2 ^ 4 - 1) = _
    rw [Nat.and_two_pow_sub_one_eq_mod, ha.offset_eq]
    lia
  counter_eq := by
    have hindex : (pos + len + 15) / 16 = pos / 16 + 1 := by lia
    rw [hindex]
    exact ha.counter_eq
  encrypted_eq := by
    intro hne
    have hindex : (pos + len) / 16 = pos / 16 := by lia
    rw [hindex]
    exact ha.encrypted_eq

/-- The loop adds the stream from its place on, whatever that is; the induction is on the
rounds. -/
theorem avAesCtrCryptLoop_eq (h : Encrypts config t key enc) (hiv : iv.length = 16) {rounds : Nat}
    (ha : At key iv enc pos a) {src : Bytes} (hrounds : src.length ≤ rounds) :
    ∃ a', avAesCtrCryptLoop config t rounds a src = (addStream (keyStream key iv) pos src, a') ∧
      At key iv enc (pos + src.length) a' := by
  induction rounds generalizing pos a src with
  | zero =>
    obtain rfl : src = [] := List.length_eq_zero_iff.mp (by lia)
    exact ⟨a, rfl, ha⟩
  | succ rounds ih =>
    by_cases hempty : src = []
    · subst hempty
      exact ⟨a, by rw [avAesCtrCryptLoop, if_pos rfl, addStream_nil], ha⟩
    · have hinside := ha.inside h hiv
      have hsrc := List.length_pos_iff.mpr hempty
      unfold avAesCtrCryptLoop
      rw [if_neg hempty]
      generalize (if a.blockOffset = 0 then nextBlock config t a else a) = b at hinside
      have hoffset := hinside.offset_eq
      have hsize : aesBlockSize = 16 := rfl
      obtain ⟨len, hlen⟩ : ∃ len, len = min (aesBlockSize - b.blockOffset) src.length := ⟨_, rfl⟩
      have htake : (src.take len).length = len := by
        rw [List.length_take]
        lia
      have hpos : 0 < len := by lia
      have hle : len ≤ 16 - pos % 16 := by lia
      have hrest : (src.drop len).length ≤ rounds := by
        rw [List.length_drop]
        lia
      obtain ⟨a', hloop, hat⟩ := ih (hinside.advance hpos hle) hrest
      have hadd := hinside.zipWith_eq (htake.le.trans hle)
      have hsplit := addStream_append (keyStream key iv) pos (src.take len) (src.drop len)
      rw [List.take_append_drop, htake] at hsplit
      refine ⟨a', ?_, ?_⟩
      · dsimp only
        rw [← hlen, hloop, hadd, hsplit]
      · rw [List.length_drop] at hat
        rwa [show pos + src.length = pos + len + (src.length - len) by lia]

/-! ## Pieces -/

/-- The calls of `av_aes_ctr_crypt` for the pieces of a text. -/
def cryptPieces (config : Config) (t : Tables) : AVAESCTR → List Bytes → Bytes × AVAESCTR
  | a, [] => ([], a)
  | a, piece :: pieces =>
    let (dst, a) := avAesCtrCrypt config t a piece
    let (rest, a) := cryptPieces config t a pieces
    (dst ++ rest, a)

theorem cryptPieces_eq (h : Encrypts config t key enc) (hiv : iv.length = 16)
    (ha : At key iv enc pos a) (pieces : List Bytes) :
    (cryptPieces config t a pieces).1 = addStream (keyStream key iv) pos pieces.flatten := by
  induction pieces generalizing pos a with
  | nil => rfl
  | cons piece pieces ih =>
    obtain ⟨a', hcrypt, ha'⟩ := avAesCtrCryptLoop_eq h hiv ha (Nat.le_refl piece.length)
    have hfirst : avAesCtrCrypt config t a piece = (addStream (keyStream key iv) pos piece, a') :=
      hcrypt
    rw [cryptPieces, hfirst, List.flatten_cons, addStream_append, ← ih ha']

/-- A context that has been initialised and given an initial value. -/
inductive Fresh (a : AVAESCTR) : AVAESCTR → Bytes → Prop
  | init : Fresh a a (List.replicate 16 0)
  | setIv (iv : Bytes) (h : iv.length = 8) : Fresh a (avAesCtrSetIv a iv) (iv ++ List.replicate 8 0)
  | setFullIv (iv : Bytes) (h : iv.length = 16) : Fresh a (avAesCtrSetFullIv a iv) iv

theorem Fresh.at {a₀ : AVAESCTR} (h : Fresh a₀ a iv) (henc : a₀.aes = enc)
    (hcounter : a₀.counter = List.replicate 16 0) (hoffset : a₀.blockOffset = 0)
    (hlength : a₀.encryptedCounter.length = 16) : iv.length = 16 ∧ At key iv enc 0 a := by
  cases h with
  | init =>
    refine ⟨rfl, henc, hlength, hoffset, ?_, fun hne => absurd rfl hne⟩
    rw [counterBlock_zero rfl, hcounter]
  | setIv iv h =>
    have hiv : (iv ++ List.replicate 8 (0 : UInt8)).length = 16 := by
      rw [List.length_append, List.length_replicate]
      lia
    refine ⟨hiv, henc, hlength, rfl, ?_, fun hne => absurd rfl hne⟩
    rw [counterBlock_zero hiv]
    show iv.take 8 ++ List.replicate 8 0 = _
    rw [List.take_of_length_le (by lia)]
  | setFullIv iv h =>
    refine ⟨h, henc, hlength, rfl, ?_, fun hne => absurd rfl hne⟩
    rw [counterBlock_zero h]
    show iv.take 16 = iv
    rw [List.take_of_length_le (by lia)]

theorem avAesCtrInit_encrypts (ht : Reached config t) (ha : a.encryptedCounter.length = 16)
    (hkey : key.length = 16) :
    ∃ t₁ a₁, avAesCtrInit config t a key = (t₁, a₁, 0) ∧ Encrypts config t₁ key a₁.aes ∧
      a₁.counter = List.replicate 16 0 ∧ a₁.blockOffset = 0 ∧ a₁.encryptedCounter.length = 16 := by
  have hsize : avAesAlloc.roundKey.length = 272 := List.length_replicate
  obtain ⟨t₁, enc, hinit, hcrypt⟩ :=
    avAesInit_encrypts ht hsize (Or.inl rfl) (show 8 * (key.length : Int) = 128 by lia)
  refine ⟨t₁, { a with aes := enc, counter := List.replicate 16 0, blockOffset := 0 }, ?_, ?_, rfl,
    rfl, ha⟩
  · rw [avAesCtrInit, hinit]
    rfl
  · intro mem dst src hbuf
    have hblocks : sourceBlocks mem src 1 = [slice mem src 16] := by
      rw [sourceBlocks_succ]
      rfl
    rw [hcrypt mem dst src 1 none hbuf nofun, hblocks]
    show overwrite mem dst [encrypt key (slice mem src 16)].flatten = _
    rw [List.flatten_singleton]

/-- For every key and initial value, and whatever calls came before, the pieces of a text
are crypted to the text with the key stream added, as the whole text is; and crypting the
pieces of the result with another fresh context gives the text back. -/
theorem avAesCtrCrypt_addStream {t' : Tables} (ht : Reached config t) (ht' : Reached config t')
    {a b : AVAESCTR} (ha : a.encryptedCounter.length = 16) (hb : b.encryptedCounter.length = 16)
    (hkey : key.length = 16) :
    ∃ t₁ a₁ t₂ b₁, avAesCtrInit config t a key = (t₁, a₁, 0) ∧
      avAesCtrInit config t' b key = (t₂, b₁, 0) ∧
      ∀ (iv : Bytes) (a₂ b₂ : AVAESCTR), Fresh a₁ a₂ iv → Fresh b₁ b₂ iv → ∀ pieces : List Bytes,
        (cryptPieces config t₁ a₂ pieces).1 = addStream (keyStream key iv) 0 pieces.flatten ∧
        (avAesCtrCrypt config t₁ a₂ pieces.flatten).1 = (cryptPieces config t₁ a₂ pieces).1 ∧
        ∀ pieces' : List Bytes, pieces'.flatten = (cryptPieces config t₁ a₂ pieces).1 →
          (cryptPieces config t₂ b₂ pieces').1 = pieces.flatten := by
  obtain ⟨t₁, a₁, hinit₁, henc₁, hcounter₁, hoffset₁, hlength₁⟩ := avAesCtrInit_encrypts ht ha hkey
  obtain ⟨t₂, b₁, hinit₂, henc₂, hcounter₂, hoffset₂, hlength₂⟩ := avAesCtrInit_encrypts ht' hb hkey
  refine ⟨t₁, a₁, t₂, b₁, hinit₁, hinit₂, fun iv a₂ b₂ ha₂ hb₂ pieces => ?_⟩
  obtain ⟨hiv, hat₁⟩ := ha₂.at rfl hcounter₁ hoffset₁ hlength₁
  obtain ⟨-, hat₂⟩ := hb₂.at rfl hcounter₂ hoffset₂ hlength₂
  have hpieces := cryptPieces_eq henc₁ hiv hat₁ pieces
  obtain ⟨a', hwhole, -⟩ := avAesCtrCryptLoop_eq henc₁ hiv hat₁ (Nat.le_refl pieces.flatten.length)
  refine ⟨hpieces, ?_, fun pieces' hpieces' => ?_⟩
  · rw [hpieces, avAesCtrCrypt, hwhole]
  · rw [cryptPieces_eq henc₂ hiv hat₂, hpieces', hpieces, addStream_addStream]

/-- A text of twenty bytes in three pieces, and back in one. -/
theorem avAesCtrCrypt_addStream_twenty :
    ∃ t₁ a₁ t₂ b₁ c,
      avAesCtrInit ⟨false, false⟩ (Tables.zero ⟨false, false⟩)
        ⟨avAesAlloc, List.replicate 16 0, List.replicate 16 0, 0⟩ (List.replicate 16 7) =
          (t₁, a₁, 0) ∧
      avAesCtrInit ⟨false, false⟩ (Tables.zero ⟨false, false⟩)
        ⟨avAesAlloc, List.replicate 16 0, List.replicate 16 0, 0⟩ (List.replicate 16 7) =
          (t₂, b₁, 0) ∧
      (cryptPieces ⟨false, false⟩ t₁ (avAesCtrSetIv a₁ (List.replicate 8 255))
        [List.replicate 5 1, [], List.replicate 15 2]).1 = c ∧
      (cryptPieces ⟨false, false⟩ t₂ (avAesCtrSetIv b₁ (List.replicate 8 255)) [c]).1 =
        List.replicate 5 1 ++ List.replicate 15 2 := by
  have hreached : Reached ⟨false, false⟩ (Tables.zero ⟨false, false⟩) := .zero
  have hlength : (⟨avAesAlloc, List.replicate 16 0, List.replicate 16 0, 0⟩ :
      AVAESCTR).encryptedCounter.length = 16 := List.length_replicate
  have hkey : (List.replicate 16 (7 : UInt8)).length = 16 := List.length_replicate
  obtain ⟨t₁, a₁, t₂, b₁, hinit₁, hinit₂, hcrypt⟩ :=
    avAesCtrCrypt_addStream hreached hreached hlength hlength hkey
  obtain ⟨-, -, hback⟩ := hcrypt _ _ _ (.setIv (List.replicate 8 255) List.length_replicate)
    (.setIv (List.replicate 8 255) List.length_replicate)
    [List.replicate 5 1, [], List.replicate 15 2]
  exact ⟨t₁, a₁, t₂, b₁, _, hinit₁, hinit₂, rfl, hback _ List.flatten_singleton⟩

end AesCtrStream
end Libavutil
end FFmpeg
