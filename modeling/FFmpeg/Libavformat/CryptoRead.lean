import FFmpeg.Libavformat.Crypto
import FFmpeg.Libavutil.AesCbc

/-!
# Reading an encrypted resource

The bytes that have not been decrypted yet are those in the input buffer and those that the nested
resource still has.  A round takes whole blocks from their front.  On any bytes a read returns, and
on a cipher text it gives the next piece of the plain text.
-/

namespace FFmpeg.Libavformat.Crypto

open Common Libavutil Aes AesFips197 AesCbc

variable {config : Config} {t : Tables} {key : Bytes} {aes : AVAES}

/-! ## From one buffer to another one -/

theorem buffers_append {dst src : Bytes} {dstOff srcOff count : Nat}
    (hdst : dstOff + 16 * count ≤ dst.length) (hsrc : srcOff + 16 * count ≤ src.length) :
    Buffers (dst ++ src) dstOff (dst.length + srcOff) count := by
  have hlength : (dst ++ src).length = dst.length + src.length := List.length_append
  exact ⟨by lia, by lia, .inr (.inr (by lia))⟩

theorem slice_append_right (dst src : Bytes) (pos n : Nat) :
    slice (dst ++ src) (dst.length + pos) n = slice src pos n := by
  rw [slice, List.drop_append, List.drop_eq_nil_of_le (by lia), List.nil_append,
    Nat.add_sub_cancel_left, slice]

theorem take_overwrite_append {dst src new : Bytes} {pos : Nat}
    (h : pos + new.length ≤ dst.length) :
    (overwrite (dst ++ src) pos new).take dst.length = overwrite dst pos new := by
  have hlength := length_overwrite_of_le h
  have hsplit : overwrite (dst ++ src) pos new = overwrite dst pos new ++ src := by
    rw [overwrite, overwrite, List.take_append_of_le_length (by lia),
      List.drop_append_of_le_length (by lia), ← List.append_assoc]
  rw [hsplit, List.take_left' hlength]

theorem crypt_decrypts (h : Decrypts config t aes key) (dst src : Bytes) {iv : Bytes}
    {dstOff srcOff count : Nat} (hdst : dstOff + 16 * count ≤ dst.length)
    (hsrc : srcOff + 16 * count ≤ src.length) (hiv : iv.length = 16) :
    crypt config t aes dst dstOff src srcOff count iv =
      some (overwrite dst dstOff (decryptText key iv (slice src srcOff (16 * count))),
        lastBlock iv (slice src srcOff (16 * count))) := by
  have hlength : (slice src srcOff (16 * count)).length = 16 * count := by
    rw [length_slice]
    lia
  have htext := length_decryptText key hiv
    (show 16 ∣ (slice src srcOff (16 * count)).length by lia)
  rw [crypt, if_pos ⟨hdst, hsrc⟩, h _ _ _ _ _ (buffers_append hdst hsrc) hiv, slice_append_right]
  dsimp only
  rw [take_overwrite_append (by lia), Option.getD_some]

theorem crypt_encrypts (h : Encrypts config t aes key) (dst src : Bytes) {iv : Bytes}
    {dstOff srcOff count : Nat} (hdst : dstOff + 16 * count ≤ dst.length)
    (hsrc : srcOff + 16 * count ≤ src.length) (hiv : iv.length = 16) :
    crypt config t aes dst dstOff src srcOff count iv =
      some (overwrite dst dstOff (encryptText key iv (slice src srcOff (16 * count))),
        lastBlock iv (encryptText key iv (slice src srcOff (16 * count)))) := by
  have hlength : (slice src srcOff (16 * count)).length = 16 * count := by
    rw [length_slice]
    lia
  have htext := length_encryptText key iv
    (show 16 ∣ (slice src srcOff (16 * count)).length by lia)
  rw [crypt, if_pos ⟨hdst, hsrc⟩, h _ _ _ _ _ (buffers_append hdst hsrc) hiv, slice_append_right]
  dsimp only
  rw [take_overwrite_append (by lia), Option.getD_some]

/-! ## The input -/

/-- The input that has not been used. -/
def CryptoContext.window (c : CryptoContext) : Bytes :=
  slice c.inbuffer c.indataUsed (c.indata - c.indataUsed)

/-- What the nested resource still has. -/
def URLContext.rest (hd : URLContext) : Bytes := hd.content.drop hd.pos

/-- The cipher text that has not been decrypted. -/
def CryptoContext.unread (c : CryptoContext) : Bytes := c.window ++ c.hd.rest

/-- A context that is open for reading. -/
structure Buffered (config : Config) (t : Tables) (key : Bytes) (c : CryptoContext) : Prop where
  inbuffer : c.inbuffer.length = bufferSize
  outbuffer : c.outbuffer.length = bufferSize
  used_le : c.indataUsed ≤ c.indata
  indata_le : c.indata ≤ bufferSize
  used_lt : c.indataUsed < bufferSize / 2
  iv : c.decryptIv.length = 16
  aes : ∃ aes, c.aesDecrypt = some aes ∧ Decrypts config t aes key

variable {c c' : CryptoContext}

theorem Buffered.length_window (h : Buffered config t key c) :
    c.window.length = c.indata - c.indataUsed := by
  have hin := h.inbuffer
  have hle := h.indata_le
  rw [CryptoContext.window, length_slice]
  lia

theorem CryptoContext.left_eq (h : Buffered config t key c) : c.left = c.unread.length := by
  rw [CryptoContext.left, CryptoContext.unread, List.length_append, h.length_window,
    URLContext.rest, List.length_drop, Nat.add_comm]

theorem rest_ffurlRead (hd : URLContext) (size : Nat) :
    (ffurlRead hd size).1 ++ (ffurlRead hd size).2.rest = hd.rest := by
  unfold ffurlRead URLContext.rest
  dsimp only
  rw [← List.drop_drop, slice, List.length_take, List.take_eq_take_min, ← List.take_append_drop
    (min (min size (hd.lengths hd.reads)) (hd.content.drop hd.pos).length) (hd.content.drop hd.pos)]
  simp

theorem length_ffurlRead_le (hd : URLContext) (size : Nat) :
    (ffurlRead hd size).1.length ≤ size := by
  unfold ffurlRead
  dsimp only
  rw [length_slice]
  lia

theorem rest_of_ffurlRead {hd : URLContext} {size : Nat} (hsize : 0 < size)
    (hlengths : ∀ k, 0 < hd.lengths k) (h : (ffurlRead hd size).1 = []) : hd.rest = [] := by
  have hlength := congrArg List.length h
  have hpos := hlengths hd.reads
  unfold ffurlRead at hlength
  dsimp only at hlength
  rw [length_slice, List.length_nil] at hlength
  exact List.drop_eq_nil_of_le (by lia)

/-- What filling the input buffer does: no byte is lost, and there are two blocks, unless the
nested resource gave none. -/
structure Filled (c c' : CryptoContext) : Prop where
  same : c' = { c with hd := c'.hd, inbuffer := c'.inbuffer, indata := c'.indata, eof := c'.eof }
  content : c'.hd.content = c.hd.content
  lengths : c'.hd.lengths = c.hd.lengths
  seekable : c'.hd.seekable = c.hd.seekable
  unread : c'.unread = c.unread
  done : (2 * blocksize ≤ c'.window.length ∧ c'.eof = c.eof) ∨
    (c'.window.length < 2 * blocksize ∧ c'.eof = true ∧
      ((∀ k, 0 < c.hd.lengths k) → c'.hd.rest = []))

/-- One read into the input buffer. -/
theorem Buffered.read (h : Buffered config t key c) :
    let read := ffurlRead c.hd (bufferSize - c.indata)
    let c' := { c with
      hd := read.2
      inbuffer := overwrite c.inbuffer c.indata read.1
      indata := c.indata + read.1.length }
    Buffered config t key c' ∧ c'.unread = c.unread ∧
      c'.window.length = c.window.length + read.1.length := by
  have hbuffer : bufferSize = 4112 := rfl
  have hblock : blocksize = 16 := rfl
  have hin := h.inbuffer
  have hle := h.indata_le
  have hused := h.used_le
  have hwindow := h.length_window
  have hread := length_ffurlRead_le c.hd (bufferSize - c.indata)
  have hrest := rest_ffurlRead c.hd (bufferSize - c.indata)
  generalize ffurlRead c.hd (bufferSize - c.indata) = read at hread hrest ⊢
  intro read' c'
  have hbuffered : Buffered config t key c' := by
    refine ⟨?_, h.outbuffer, ?_, ?_, h.used_lt, h.iv, h.aes⟩
    · show (overwrite c.inbuffer c.indata read.1).length = bufferSize
      rw [length_overwrite_of_le (by lia), hin]
    · show c.indataUsed ≤ c.indata + read.1.length
      lia
    · show c.indata + read.1.length ≤ bufferSize
      lia
  have hjoin : c'.window = c.window ++ read.1 := by
    show slice (overwrite c.inbuffer c.indata read.1) c.indataUsed
      (c.indata + read.1.length - c.indataUsed) = slice c.inbuffer c.indataUsed _ ++ read.1
    rw [show c.indata + read.1.length - c.indataUsed = (c.indata - c.indataUsed) + read.1.length by
      lia, slice_add, slice_overwrite_of_disjoint (by lia) (by lia),
      show c.indataUsed + (c.indata - c.indataUsed) = c.indata by lia,
      slice_overwrite_of_le (by lia) le_rfl le_rfl, Nat.sub_self]
    simp [slice]
  refine ⟨hbuffered, ?_, ?_⟩
  · show c'.window ++ read.2.rest = c.window ++ c.hd.rest
    rw [hjoin, List.append_assoc, hrest]
  · rw [hjoin, List.length_append]

/-- The loop that fills the input buffer, by induction on what is missing. -/
theorem Buffered.fill (h : Buffered config t key c) {fuel : Nat}
    (hfuel : 2 * blocksize ≤ c.window.length + fuel) :
    ∃ c', fill fuel c = some c' ∧ Buffered config t key c' ∧ Filled c c' := by
  have hwindow := h.length_window
  by_cases hgap : c.indata - c.indataUsed < 2 * blocksize
  · induction fuel generalizing c with
    | zero => lia
    | succ fuel ih =>
      obtain ⟨hbuffered, hunread, hlonger⟩ := h.read
      have hbuffer : bufferSize = 4112 := rfl
      have hblock : blocksize = 16 := rfl
      have hhalf := h.used_lt
      rw [Crypto.fill, if_pos hgap, if_neg (by have := h.indata_le; lia)]
      have hsize : 0 < bufferSize - c.indata := by
        have hle := h.indata_le
        have hused := h.used_le
        lia
      have hnone := @rest_of_ffurlRead c.hd (bufferSize - c.indata) hsize
      have hread := rest_ffurlRead c.hd (bufferSize - c.indata)
      have hcontent : (ffurlRead c.hd (bufferSize - c.indata)).2.content = c.hd.content := rfl
      have hlengths : (ffurlRead c.hd (bufferSize - c.indata)).2.lengths = c.hd.lengths := rfl
      have hseekable : (ffurlRead c.hd (bufferSize - c.indata)).2.seekable = c.hd.seekable := rfl
      generalize ffurlRead c.hd (bufferSize - c.indata) = read at *
      dsimp only at hbuffered hunread hlonger ⊢
      split_ifs with hempty
      · rw [hempty, List.nil_append] at hread
        have hsame : c.unread = c.window ++ read.2.rest := by rw [hread]; rfl
        refine ⟨_, rfl, { h with }, ⟨rfl, hcontent, hlengths, hseekable, hsame.symm,
          .inr ⟨?_, rfl, fun hpos => ?_⟩⟩⟩
        · show c.window.length < 2 * blocksize
          lia
        · show read.2.rest = []
          rw [hread, hnone hpos hempty]
      · have hlength := List.length_pos_iff.mpr hempty
        by_cases hmore : c.indata + read.1.length - c.indataUsed < 2 * blocksize
        · obtain ⟨c', hfill, hbuffered', hfilled⟩ := ih hbuffered (by lia)
            hbuffered.length_window hmore
          refine ⟨c', hfill, hbuffered', ⟨?_, hfilled.content.trans hcontent,
            hfilled.lengths.trans hlengths, hfilled.seekable.trans hseekable,
            hfilled.unread.trans hunread, ?_⟩⟩
          · rw [hfilled.same]
          · rcases hfilled.done with hdone | ⟨hshort, heof, hend⟩
            · exact .inl hdone
            · exact .inr ⟨hshort, heof, fun hpos => hend (by rw [hlengths]; exact hpos)⟩
        · refine ⟨_, ?_, hbuffered, ⟨rfl, hcontent, hlengths, hseekable, hunread, .inl ⟨?_, rfl⟩⟩⟩
          · cases fuel <;> exact if_neg hmore
          · have hwindow' := hbuffered.length_window
            dsimp only at hwindow'
            lia
  · refine ⟨c, ?_, h, ⟨rfl, rfl, rfl, rfl, rfl, .inl ⟨by lia, rfl⟩⟩⟩
    cases fuel <;> exact if_neg hgap

/-! ## A round -/

/-- A round that decrypts a text; at the end of the resource the padding is taken off. -/
structure Rounded (key : Bytes) (c c' : CryptoContext) (text : Bytes) : Prop where
  pos : 0 < text.length
  dvd : 16 ∣ text.length
  le : text.length ≤ bufferSize
  unread : c.unread = text ++ c'.unread
  decryptIv : c'.decryptIv = lastBlock c.decryptIv text
  out : c'.outbuffer.take text.length = decryptText key c.decryptIv text
  outptr : c'.outptr = 0
  outdata : c'.outdata = text.length -
    (if c'.eof then ((decryptText key c.decryptIv text).getLastD 0).toNat else 0 : Nat)
  position : c'.position = c.position
  write : c'.write = c.write
  iv : c'.iv = c.iv
  content : c'.hd.content = c.hd.content
  lengths : c'.hd.lengths = c.hd.lengths
  seekable : c'.hd.seekable = c.hd.seekable
  more : c'.eof = false → c.eof = false ∧ 16 ≤ c'.window.length
  ended : c'.eof = true → c'.window.length < 16 ∧
    ((∀ k, 0 < c.hd.lengths k) → c.eof = true ∨ c'.hd.rest = []) ∧
    (c.eof = false → text.length = 16)

theorem decryptBlocks_eq (h : Buffered config t key c) {blocks : Nat}
    (hblocks : 16 * blocks ≤ c.window.length) :
    decryptBlocks config t c blocks = some { c with
      outbuffer := overwrite c.outbuffer 0
        (decryptText key c.decryptIv (c.window.take (16 * blocks)))
      decryptIv := lastBlock c.decryptIv (c.window.take (16 * blocks))
      outdata := (16 * blocks : Nat)
      outptr := 0
      indataUsed := c.indataUsed + 16 * blocks } := by
  have hbuffer : bufferSize = 4112 := rfl
  have hin := h.inbuffer
  have hout := h.outbuffer
  have hle := h.indata_le
  have hused := h.used_le
  have hwindow := h.length_window
  obtain ⟨aes, haes, hdec⟩ := h.aes
  have htext : c.window.take (16 * blocks) = slice c.inbuffer c.indataUsed (16 * blocks) := by
    rw [CryptoContext.window, take_slice, Nat.min_eq_left (by lia)]
  have hcrypt := crypt_decrypts hdec c.outbuffer c.inbuffer
    (show 0 + 16 * blocks ≤ c.outbuffer.length by lia)
    (show c.indataUsed + 16 * blocks ≤ c.inbuffer.length by lia) h.iv
  unfold decryptBlocks
  rw [haes, htext]
  simp only [Option.bind_eq_bind, Option.bind_some, hcrypt]
  rfl

theorem window_shiftInput (hin : c.inbuffer.length = bufferSize) (hused : c.indataUsed ≤ c.indata)
    (hle : c.indata ≤ bufferSize) :
    (shiftInput c).window = c.window ∧ (shiftInput c).inbuffer.length = bufferSize ∧
      (shiftInput c).indataUsed ≤ (shiftInput c).indata ∧ (shiftInput c).indata ≤ bufferSize ∧
      (shiftInput c).indataUsed < bufferSize / 2 := by
  unfold shiftInput
  split_ifs with hhalf
  · have hlength : (slice c.inbuffer c.indataUsed (c.indata - c.indataUsed)).length =
        c.indata - c.indataUsed := by
      rw [length_slice]
      lia
    refine ⟨?_, ?_, Nat.zero_le _, by dsimp only; lia, Nat.div_pos (by decide) (by decide)⟩
    · unfold CryptoContext.window
      dsimp only
      rw [Nat.sub_zero, slice_overwrite_of_le (Nat.zero_le _) le_rfl (by lia), Nat.sub_zero,
        slice_slice (by lia), Nat.add_zero]
    · dsimp only
      rw [length_overwrite_of_le (by lia), hin]
  · exact ⟨rfl, hin, hused, hle, by lia⟩

theorem shiftInput_same (c : CryptoContext) :
    shiftInput c = { c with
      inbuffer := (shiftInput c).inbuffer
      indata := (shiftInput c).indata
      indataUsed := (shiftInput c).indataUsed } := by
  unfold shiftInput
  split_ifs <;> rfl

variable {out : Bytes}

theorem removePadding_eq (hout : c.outbuffer.take out.length = out) (hpos : 0 < out.length)
    (hdata : c.outdata = out.length) :
    removePadding c = some { c with
      outdata := out.length - (if c.eof then (out.getLastD 0).toNat else 0 : Nat) } := by
  unfold removePadding
  by_cases heof : c.eof = true
  · have hlast : c.outbuffer[out.length - 1]? = some (out.getLastD 0) := by
      have hget := congrArg (fun bytes => bytes[out.length - 1]?) hout
      rw [List.getElem?_take, if_pos (by lia)] at hget
      rw [hget, List.getLastD_eq_getLast?, List.getLast?_eq_getElem?]
      cases hsome : out[out.length - 1]? with
      | some b => rfl
      | none =>
        rw [List.getElem?_eq_none_iff] at hsome
        lia
    have hindex : (c.outdata - 1).toNat = out.length - 1 := by lia
    rw [if_pos heof, if_neg (by lia), hindex, hlast, if_pos heof, hdata]
    rfl
  · rw [if_neg heof, if_neg heof, Nat.cast_zero, Int.sub_zero, ← hdata]

/-- **A round**: it ends when there is no block, and otherwise it decrypts some of them. -/
theorem Buffered.refill (h : Buffered config t key c) :
    (∃ c', refill config t c = some (false, c') ∧ Buffered config t key c' ∧ Filled c c' ∧
      c'.window.length < 16) ∨
    ∃ c' text, refill config t c = some (true, c') ∧ Buffered config t key c' ∧
      Rounded key c c' text := by
  have hblock : blocksize = 16 := rfl
  obtain ⟨c₁, hfill, h₁, hfilled⟩ := h.fill (Nat.le_add_left (2 * blocksize) _)
  have hsame := hfilled.same
  have hwindow := h₁.length_window
  have hiv : c₁.decryptIv = c.decryptIv := by rw [hsame]
  unfold Crypto.refill
  rw [hfill]
  simp only [Option.bind_eq_bind, Option.bind_some, hblock]
  by_cases hnone : (c₁.indata - c₁.indataUsed) / 16 = 0
  · rw [if_pos hnone]
    exact .inl ⟨c₁, rfl, h₁, hfilled, by lia⟩
  · rw [if_neg hnone]
    obtain ⟨blocks, hblocks⟩ : ∃ blocks, blocks = (if c₁.eof = true then
        (c₁.indata - c₁.indataUsed) / 16 else
        (c₁.indata - c₁.indataUsed) / 16 - 1) := ⟨_, rfl⟩
    have hcase : (c₁.eof = true → c₁.window.length < 16 * blocks + 16) ∧
        (c₁.eof = false → 2 * blocksize ≤ c₁.window.length ∧ 16 * blocks + 16 ≤ c₁.window.length) ∧
        0 < blocks ∧ 16 * blocks ≤ c₁.window.length := by
      cases heof : c₁.eof with
      | true =>
        rw [heof, if_pos rfl] at hblocks
        exact ⟨fun _ => by lia, fun hno => absurd hno (by simp), by lia, by lia⟩
      | false =>
        rw [heof, if_neg Bool.false_ne_true] at hblocks
        have hlong : 2 * blocksize ≤ c₁.window.length := by
          rcases hfilled.done with hdone | ⟨-, hend, -⟩
          · exact hdone.1
          · rw [heof] at hend
            exact absurd hend Bool.false_ne_true
        exact ⟨fun hno => absurd hno (by simp), fun _ => ⟨hlong, by lia⟩, by lia, by lia⟩
    obtain ⟨hend, hmore, hpos, hle⟩ := hcase
    rw [← hblocks, decryptBlocks_eq h₁ hle, Option.bind_some]
    have htext : (c₁.window.take (16 * blocks)).length = 16 * blocks := by
      rw [List.length_take, Nat.min_eq_left hle]
    have hplain := length_decryptText key h₁.iv
      (show 16 ∣ (c₁.window.take (16 * blocks)).length by lia)
    generalize hc₂ : ({ c₁ with
      outbuffer := overwrite c₁.outbuffer 0
        (decryptText key c₁.decryptIv (c₁.window.take (16 * blocks)))
      decryptIv := lastBlock c₁.decryptIv (c₁.window.take (16 * blocks))
      outdata := (16 * blocks : Nat)
      outptr := 0
      indataUsed := c₁.indataUsed + 16 * blocks } : CryptoContext) = c₂
    have hbuffer : bufferSize = 4112 := rfl
    have hle₁ := h₁.indata_le
    have hout₁ := h₁.outbuffer
    have hin₂ : c₂.inbuffer.length = bufferSize := by rw [← hc₂]; exact h₁.inbuffer
    have hused₂ : c₂.indataUsed ≤ c₂.indata := by
      rw [← hc₂]
      show c₁.indataUsed + 16 * blocks ≤ c₁.indata
      lia
    have hle₂ : c₂.indata ≤ bufferSize := by rw [← hc₂]; exact hle₁
    have hwindow₂ : c₂.window = c₁.window.drop (16 * blocks) := by
      rw [← hc₂]
      unfold CryptoContext.window
      rw [drop_slice]
      dsimp only
      congr 1
      lia
    obtain ⟨hwindow₃, hin₃, hused₃, hle₃, hhalf₃⟩ := window_shiftInput hin₂ hused₂ hle₂
    have hsame₃ := shiftInput_same c₂
    generalize shiftInput c₂ = c₃ at *
    have hout₃ : c₃.outbuffer.take (decryptText key c₁.decryptIv
        (c₁.window.take (16 * blocks))).length =
          decryptText key c₁.decryptIv (c₁.window.take (16 * blocks)) := by
      rw [hsame₃, ← hc₂]
      exact take_overwrite_front _ _
    have hdata₃ : c₃.outdata = (decryptText key c₁.decryptIv
        (c₁.window.take (16 * blocks))).length := by
      rw [hsame₃, ← hc₂, hplain, htext]
    rw [removePadding_eq hout₃ (by lia) hdata₃, Option.bind_some]
    have heof₃ : c₃.eof = c₁.eof := by rw [hsame₃, ← hc₂]
    have hhd₃ : c₃.hd = c₁.hd := by rw [hsame₃, ← hc₂]
    refine .inr ⟨_, c₁.window.take (16 * blocks), rfl, ⟨hin₃, ?_, hused₃, hle₃, hhalf₃, ?_, ?_⟩, ?_⟩
    · show c₃.outbuffer.length = bufferSize
      rw [hsame₃, ← hc₂]
      show (overwrite c₁.outbuffer 0 _).length = bufferSize
      rw [length_overwrite_of_le (by lia), hout₁]
    · show c₃.decryptIv.length = 16
      rw [hsame₃, ← hc₂]
      exact length_lastBlock _ h₁.iv
    · show ∃ aes, c₃.aesDecrypt = some aes ∧ Decrypts config t aes key
      rw [hsame₃, ← hc₂]
      exact h₁.aes
    · constructor
      · lia
      · lia
      · lia
      · show c.unread = c₁.window.take (16 * blocks) ++ (c₃.window ++ c₃.hd.rest)
        rw [← hfilled.unread, hwindow₃, hwindow₂, hhd₃, ← List.append_assoc, List.take_append_drop]
        rfl
      · show c₃.decryptIv = _
        rw [hsame₃, ← hc₂, ← hiv]
      · show c₃.outbuffer.take _ = _
        rw [← hiv, ← hplain, hout₃]
      · show c₃.outptr = 0
        rw [hsame₃, ← hc₂]
      · rw [← hiv]
        show ((decryptText key c₁.decryptIv (c₁.window.take (16 * blocks))).length : Int) - _ = _
        rw [hplain]
      · show c₃.position = c.position
        rw [hsame₃, ← hc₂, hsame]
      · show c₃.write = c.write
        rw [hsame₃, ← hc₂, hsame]
      · show c₃.iv = c.iv
        rw [hsame₃, ← hc₂, hsame]
      · show c₃.hd.content = _
        rw [hhd₃, hfilled.content]
      · show c₃.hd.lengths = _
        rw [hhd₃, hfilled.lengths]
      · show c₃.hd.seekable = _
        rw [hhd₃, hfilled.seekable]
      · intro heof
        show c.eof = false ∧ 16 ≤ c₃.window.length
        have heof₁ : c₁.eof = false := heof₃ ▸ heof
        obtain ⟨hlong, hroom⟩ := hmore heof₁
        rcases hfilled.done with hdone | ⟨-, heof', -⟩
        · refine ⟨hdone.2 ▸ heof₁, ?_⟩
          rw [hwindow₃, hwindow₂, List.length_drop]
          lia
        · rw [heof₁] at heof'
          exact absurd heof' Bool.false_ne_true
      · intro heof
        show c₃.window.length < 16 ∧
          ((∀ k, 0 < c.hd.lengths k) → c.eof = true ∨ c₃.hd.rest = []) ∧
            (c.eof = false → (c₁.window.take (16 * blocks)).length = 16)
        have heof₁ : c₁.eof = true := heof₃ ▸ heof
        have hshort := hend heof₁
        refine ⟨?_, fun hpos => ?_, fun hno => ?_⟩
        · rw [hwindow₃, hwindow₂, List.length_drop]
          lia
        · rw [hhd₃]
          rcases hfilled.done with hdone | ⟨-, -, hrest⟩
          · exact .inl (hdone.2 ▸ heof₁)
          · exact .inr (hrest hpos)
        · rcases hfilled.done with hdone | ⟨hless, -, -⟩
          · rw [hdone.2, hno] at heof₁
            exact absurd heof₁ Bool.false_ne_true
          · lia

/-! ## Reads of any bytes -/

/-- A piece of the output has been copied. -/
def CryptoContext.copied (c : CryptoContext) (n : Nat) : CryptoContext :=
  { c with outptr := c.outptr + n, outdata := c.outdata - n, position := c.position + n }

/-- The bytes of the output buffer that a round has decrypted. -/
def decrypted (c c' : CryptoContext) : Bytes :=
  c'.outbuffer.take (c.unread.length - c'.unread.length)

/-- The states that reads go through, with what the last round has decrypted. -/
inductive ReadRun (config : Config) (t : Tables) (start : CryptoContext) :
    CryptoContext → Bytes → Prop
  | start : ReadRun config t start start []
  | copied {c : CryptoContext} {out : Bytes} {n : Nat} (hrun : ReadRun config t start c out)
      (hpos : 0 < n) (hle : n ≤ c.outdata) : ReadRun config t start (c.copied n) out
  | round {c c' : CryptoContext} {out : Bytes} (hrun : ReadRun config t start c out)
      (hempty : c.outdata ≤ 0) (hround : refill config t c = some (true, c')) :
      ReadRun config t start c' (decrypted c c')
  | ended {c c' : CryptoContext} {out : Bytes} (hrun : ReadRun config t start c out)
      (hempty : c.outdata ≤ 0) (hround : refill config t c = some (false, c')) :
      ReadRun config t start c' out

/-- What is to be copied was decrypted by the last round. -/
structure Pending (c : CryptoContext) (out : Bytes) : Prop where
  front : c.outbuffer.take out.length = out
  le : 0 < c.outdata → c.outptr + c.outdata ≤ out.length

variable {text : Bytes}

theorem Rounded.decrypted_eq (h : Rounded key c c' text) :
    decrypted c c' = decryptText key c.decryptIv text := by
  have hunread := congrArg List.length h.unread
  rw [List.length_append] at hunread
  rw [decrypted, show c.unread.length - c'.unread.length = text.length by lia, h.out]

theorem Rounded.pending (h : Rounded key c c' text) (hiv : c.decryptIv.length = 16) :
    Pending c' (decrypted c c') := by
  have hlength := length_decryptText key hiv h.dvd
  have hdata := h.outdata
  have houtptr := h.outptr
  constructor
  · rw [h.decrypted_eq, hlength, h.out]
  · rw [h.decrypted_eq, hlength]
    lia

theorem Filled.pending (h : Filled c c') (hpending : Pending c out) : Pending c' out := by
  rw [h.same]
  exact ⟨hpending.front, hpending.le⟩

theorem Buffered.copied (h : Buffered config t key c) (n : Nat) :
    Buffered config t key (c.copied n) := { h with }

theorem Pending.copied (h : Pending c out) {n : Nat} (hpos : 0 < n) (hle : n ≤ c.outdata) :
    Pending (c.copied n) out := by
  have hbound := h.le (by lia)
  refine ⟨h.front, fun _ => ?_⟩
  show ((c.outptr + n : Nat) : Int) + (c.outdata - n) ≤ _
  lia

variable {start : CryptoContext}

theorem ReadRun.pending (h : ReadRun config t start c out) (hstart : Buffered config t key start)
    (hout : start.outdata ≤ 0) : Buffered config t key c ∧ Pending c out := by
  induction h with
  | start => exact ⟨hstart, rfl, fun hpos => absurd hpos (by lia)⟩
  | copied hrun hpos hle ih => exact ⟨ih.1.copied _, ih.2.copied hpos hle⟩
  | round hrun hempty hround ih =>
    rcases ih.1.refill with ⟨c', hrefill, -, -, -⟩ | ⟨c', text, hrefill, hbuffered, hrounded⟩
    · rw [hround] at hrefill
      exact absurd hrefill (by simp)
    · rw [hround] at hrefill
      obtain ⟨-, rfl⟩ := Prod.mk.inj (Option.some.inj hrefill)
      exact ⟨hbuffered, hrounded.pending ih.1.iv⟩
  | ended hrun hempty hround ih =>
    rcases ih.1.refill with ⟨c', hrefill, hbuffered, hfilled, -⟩ | ⟨c', text, hrefill, -, -⟩
    · rw [hround] at hrefill
      obtain ⟨-, rfl⟩ := Prod.mk.inj (Option.some.inj hrefill)
      exact ⟨hbuffered, hfilled.pending ih.2⟩
    · rw [hround] at hrefill
      exact absurd hrefill (by simp)

/-- What a read returns: a piece of what the last round has decrypted, or the end. -/
def Returns (config : Config) (t : Tables) (start : CryptoContext) (size : Nat)
    (r : Except AVERROR Bytes) (c' : CryptoContext) : Prop :=
  (∃ c out n, ReadRun config t start c out ∧ 0 < n ∧ n ≤ size ∧ n ≤ c.outdata ∧
    c.outptr + n ≤ out.length ∧ r = .ok (slice out c.outptr n) ∧ c' = c.copied n) ∨
  (r = .error .eof ∧ ∃ out, ReadRun config t start c' out)

/-- The rounds of a read, by induction on the bound: each one takes a block. -/
theorem cryptoReadLoop_returns (hstart : Buffered config t key start) (hout : start.outdata ≤ 0)
    {fuel size : Nat} (hsize : 0 < size) (hrun : ReadRun config t start c out)
    (hfuel : c.unread.length + 2 ≤ fuel) :
    ∃ r c', cryptoReadLoop config t size fuel c = some (r, c') ∧
      Returns config t start size r c' := by
  induction fuel generalizing c out with
  | zero => lia
  | succ fuel ih =>
    obtain ⟨hbuffered, hpending⟩ := hrun.pending hstart hout
    rw [cryptoReadLoop]
    by_cases hdata : 0 < c.outdata
    · have hbound := hpending.le hdata
      have hlength := congrArg List.length hpending.front
      rw [List.length_take] at hlength
      have hn : min size c.outdata.toNat ≤ c.outdata := by lia
      have hfront : slice c.outbuffer c.outptr (min size c.outdata.toNat) =
          slice out c.outptr (min size c.outdata.toNat) :=
        slice_of_isPrefix (hpending.front ▸ List.take_prefix _ _) (by lia)
      rw [if_pos hdata]
      dsimp only
      rw [if_pos (by lia), hfront]
      exact ⟨_, _, rfl, .inl ⟨c, out, _, hrun, by lia, Nat.min_le_left _ _, hn, by lia, rfl, rfl⟩⟩
    · rw [if_neg hdata]
      rcases hbuffered.refill with ⟨c', hrefill, -, -, -⟩ | ⟨c', text, hrefill, -, hrounded⟩
      · rw [hrefill]
        exact ⟨_, c', rfl, .inr ⟨rfl, out, hrun.ended (by lia) hrefill⟩⟩
      · have hunread := congrArg List.length hrounded.unread
        have hpos := hrounded.pos
        rw [List.length_append] at hunread
        rw [hrefill]
        exact ih (hrun.round (by lia) hrefill) (by lia)

/-- **A read of any bytes** returns. -/
theorem cryptoRead_returns (hstart : Buffered config t key start) (hout : start.outdata ≤ 0)
    {size : Nat} (hsize : 0 < size) (hrun : ReadRun config t start c out) :
    ∃ r c', cryptoRead config t c size = some (r, c') ∧ Returns config t start size r c' := by
  obtain ⟨hbuffered, -⟩ := hrun.pending hstart hout
  exact cryptoReadLoop_returns hstart hout hsize hrun
    (by rw [CryptoContext.left_eq hbuffered])

/-! ## Reads of a cipher text -/

/-- A text with its padding: the last byte is the number of bytes behind the first `len`. -/
structure Padded (plain : Bytes) (len : Nat) : Prop where
  lt : len < plain.length
  le : plain.length ≤ len + 16
  last : plain.getLastD 0 = UInt8.ofNat (plain.length - len)

/-- A cipher text that is decrypted to the end of a padded text, of which `len` bytes are given. -/
structure Decodes (key iv cipher plain : Bytes) (len : Nat) : Prop where
  length_iv : iv.length = 16
  whole : 16 ∣ cipher.length
  cipher_le : cipher.length ≤ plain.length
  decrypt : decryptText key iv cipher = plain.drop (plain.length - cipher.length)
  padded : Padded plain len

/-- What no read changes. -/
structure Kept (start c : CryptoContext) : Prop where
  write : c.write = start.write
  iv : c.iv = start.iv
  content : c.hd.content = start.hd.content
  lengths : c.hd.lengths = start.hd.lengths
  seekable : c.hd.seekable = start.hd.seekable

theorem Rounded.kept (h : Rounded key c c' text) (hkept : Kept start c) : Kept start c' :=
  ⟨h.write.trans hkept.write, h.iv.trans hkept.iv, h.content.trans hkept.content,
    h.lengths.trans hkept.lengths, h.seekable.trans hkept.seekable⟩

theorem Filled.kept (h : Filled c c') (hkept : Kept start c) : Kept start c' := by
  have hwrite : c'.write = c.write := by rw [h.same]
  have hiv : c'.iv = c.iv := by rw [h.same]
  exact ⟨hwrite.trans hkept.write, hiv.trans hkept.iv, h.content.trans hkept.content,
    h.lengths.trans hkept.lengths, h.seekable.trans hkept.seekable⟩

/-- A context in the middle of a cipher text: what has not been decrypted is its end, and the
output goes on from the position in the plain text. -/
structure Reading (config : Config) (t : Tables) (key : Bytes) (start : CryptoContext)
    (iv₀ cipher plain : Bytes) (len : Nat) (c : CryptoContext) : Prop where
  buffered : Buffered config t key c
  kept : Kept start c
  chain : ∃ front, cipher = front ++ c.unread ∧ 16 ∣ front.length ∧
    c.decryptIv = lastBlock iv₀ front
  eof_iff : c.eof = true ↔ c.unread = []
  position : c.position + c.outdata = if c.eof then len else plain.length - c.unread.length
  position_nonneg : 0 ≤ c.position
  outdata_nonneg : 0 ≤ c.outdata
  out : slice c.outbuffer c.outptr c.outdata.toNat = slice plain c.position.toNat c.outdata.toNat
  room : c.outptr + c.outdata ≤ bufferSize

section

variable {start : CryptoContext} {iv₀ cipher plain : Bytes} {len : Nat}

theorem Reading.unread_whole (h : Reading config t key start iv₀ cipher plain len c)
    (hplain : Decodes key iv₀ cipher plain len) :
    16 ∣ c.unread.length ∧ c.unread.length ≤ plain.length := by
  obtain ⟨front, hfront, hdvd, -⟩ := h.chain
  have hlength := congrArg List.length hfront
  have hwhole := hplain.whole
  have hle := hplain.cipher_le
  rw [List.length_append] at hlength
  lia

theorem Reading.plain_eq (h : Reading config t key start iv₀ cipher plain len c)
    (hplain : Decodes key iv₀ cipher plain len) :
    decryptText key c.decryptIv c.unread = plain.drop (plain.length - c.unread.length) := by
  obtain ⟨front, hfront, hdvd, hiv⟩ := h.chain
  have hlength := length_decryptText key hplain.length_iv hdvd
  have hcount := congrArg List.length hfront
  have hle := hplain.cipher_le
  have hdecrypt := hplain.decrypt
  rw [List.length_append] at hcount
  rw [hfront, decryptText_append hplain.length_iv hdvd, ← hfront] at hdecrypt
  have hdrop := congrArg (List.drop front.length) hdecrypt
  rw [List.drop_left' hlength, List.drop_drop] at hdrop
  rw [hiv, hdrop]
  congr 1
  lia

theorem Reading.position_le (h : Reading config t key start iv₀ cipher plain len c)
    (hplain : Decodes key iv₀ cipher plain len) :
    c.position + c.outdata ≤ len := by
  have hposition := h.position
  have hle := hplain.padded.le
  obtain ⟨hwhole, hunread⟩ := h.unread_whole hplain
  split_ifs at hposition with heof
  · lia
  · have hne : c.unread.length ≠ 0 := fun hzero =>
      heof (h.eof_iff.mpr (List.eq_nil_of_length_eq_zero hzero))
    lia

/-- A piece is copied. -/
theorem Reading.copied (h : Reading config t key start iv₀ cipher plain len c) {n : Nat}
    (hn : (n : Int) ≤ c.outdata) :
    slice c.outbuffer c.outptr n = slice plain c.position.toNat n ∧
      Reading config t key start iv₀ cipher plain len (c.copied n) := by
  have hnonneg := h.position_nonneg
  have hroom := h.room
  have hposition := h.position
  have hfront := congrArg (List.take n) h.out
  have hback := congrArg (List.drop n) h.out
  rw [take_slice, take_slice, Nat.min_eq_left (by lia)] at hfront
  rw [drop_slice, drop_slice] at hback
  refine ⟨hfront, ⟨h.buffered.copied n, ⟨h.kept.write, h.kept.iv, h.kept.content, h.kept.lengths,
    h.kept.seekable⟩, h.chain, h.eof_iff, ?_, ?_, ?_, ?_, ?_⟩⟩
  · show c.position + n + (c.outdata - n) =
      ((if c.eof then len else plain.length - c.unread.length : Nat) : Int)
    rw [← hposition]
    lia
  · show 0 ≤ c.position + n
    lia
  · show 0 ≤ c.outdata - n
    lia
  · show slice c.outbuffer (c.outptr + n) (c.outdata - n).toNat =
      slice plain (c.position + n).toNat (c.outdata - n).toNat
    rw [show (c.outdata - n).toNat = c.outdata.toNat - n by lia,
      show (c.position + n).toNat = c.position.toNat + n by lia, hback]
  · show ((c.outptr + n : Nat) : Int) + (c.outdata - n) ≤ bufferSize
    lia

theorem Reading.split (h : Reading config t key start iv₀ cipher plain len c)
    (hplain : Decodes key iv₀ cipher plain len) {text rest : Bytes}
    (hunread : c.unread = text ++ rest) (hdvd : 16 ∣ text.length) :
    decryptText key c.decryptIv text = slice plain (plain.length - c.unread.length) text.length ∧
      ∃ front, cipher = front ++ rest ∧ 16 ∣ front.length ∧
        lastBlock c.decryptIv text = lastBlock iv₀ front := by
  have heq := h.plain_eq hplain
  have hlength := length_decryptText key h.buffered.iv hdvd
  obtain ⟨front, hfront, hfrontDvd, hiv⟩ := h.chain
  rw [hunread, decryptText_append h.buffered.iv hdvd, ← hunread] at heq
  constructor
  · rw [slice, ← heq, ← hlength, List.take_left]
  · refine ⟨front ++ text, ?_, ?_, ?_⟩
    · rw [hfront, hunread, List.append_assoc]
    · rw [List.length_append]
      exact Nat.dvd_add hfrontDvd hdvd
    · rw [hiv, lastBlock_append hplain.length_iv]

/-- A round where everything has been decrypted finds the end. -/
theorem Reading.refill_eof (h : Reading config t key start iv₀ cipher plain len c)
    (heof : c.eof = true) :
    ∃ c', refill config t c = some (false, c') ∧
      Reading config t key start iv₀ cipher plain len c' ∧ c'.position = c.position := by
  have hnil := h.eof_iff.mp heof
  rcases h.buffered.refill with ⟨c', hrefill, hbuffered, hfilled, -⟩ | ⟨c', text, -, -, hrounded⟩
  · have hsame := hfilled.same
    have hunread := hfilled.unread
    have heof' : c'.eof = true := by
      rcases hfilled.done with hdone | hdone
      · exact hdone.2.trans heof
      · exact hdone.2.1
    refine ⟨c', hrefill, ⟨hbuffered, hfilled.kept h.kept, ?_, ?_, ?_, ?_, ?_, ?_, ?_⟩, ?_⟩
    · rw [hunread, hsame]
      exact h.chain
    · rw [hunread]
      exact iff_of_true heof' hnil
    · rw [heof', hsame, ← heof]
      exact heof ▸ h.position
    · rw [hsame]
      exact h.position_nonneg
    · rw [hsame]
      exact h.outdata_nonneg
    · rw [hsame]
      exact h.out
    · rw [hsame]
      exact h.room
    · rw [hsame]
  · have hlength := congrArg List.length hrounded.unread
    have hpos := hrounded.pos
    rw [hnil, List.length_append, List.length_nil] at hlength
    lia

/-- A round before the end goes on, and after the last block the padding is gone. -/
theorem Reading.refill_more (h : Reading config t key start iv₀ cipher plain len c)
    (hlengths : ∀ k, 0 < start.hd.lengths k) (hplain : Decodes key iv₀ cipher plain len)
    (heof : c.eof = false) (hout : c.outdata = 0) :
    ∃ c', refill config t c = some (true, c') ∧ Reading config t key start iv₀ cipher plain len c' ∧
      c'.position = c.position ∧ c'.unread.length < c.unread.length := by
  have hne : c.unread.length ≠ 0 := fun hzero => by
    rw [h.eof_iff.mpr (List.eq_nil_of_length_eq_zero hzero)] at heof
    exact absurd heof (by simp)
  obtain ⟨hwhole, hle⟩ := h.unread_whole hplain
  have hpositive : ∀ k, 0 < c.hd.lengths k := by
    rw [h.kept.lengths]
    exact hlengths
  have hblock : blocksize = 16 := rfl
  rcases h.buffered.refill with ⟨c', -, -, hfilled, hshort⟩ |
    ⟨c', text, hrefill, hbuffered, hrounded⟩
  · -- with a block left the window has one
    have hlength := congrArg List.length hfilled.unread
    rcases hfilled.done with hdone | ⟨-, -, hrest⟩
    · lia
    · rw [CryptoContext.unread, hrest hpositive, List.append_nil] at hlength
      lia
  · have hunread := congrArg List.length hrounded.unread
    have hpos := hrounded.pos
    have hdvd := hrounded.dvd
    have hposition := h.position
    have hdata := hrounded.outdata
    have hptr := hrounded.outptr
    have hbound := hrounded.le
    obtain ⟨hfront, hback⟩ := h.split hplain hrounded.unread hrounded.dvd
    rw [List.length_append] at hunread
    rw [heof, if_neg Bool.false_ne_true, hout, Int.add_zero] at hposition
    -- the output of the round is the part of the text from the position on
    have hslice : slice c'.outbuffer 0 text.length = slice plain c.position.toNat text.length := by
      rw [slice, List.drop_zero, hrounded.out, hfront]
      congr 1
      lia
    have hpart (n : Nat) (hn : n ≤ text.length) : slice c'.outbuffer c'.outptr n =
        slice plain c'.position.toNat n := by
      have htake := congrArg (List.take n) hslice
      rw [take_slice, take_slice, Nat.min_eq_left hn] at htake
      rw [hptr, hrounded.position, htake]
    cases heof' : c'.eof with
    | false =>
      obtain ⟨-, hmore⟩ := hrounded.more heof'
      have hlonger : 16 ≤ c'.unread.length := by
        rw [CryptoContext.unread, List.length_append]
        lia
      rw [heof', if_neg Bool.false_ne_true] at hdata
      refine ⟨c', hrefill, ⟨hbuffered, hrounded.kept h.kept, ?_, ?_, ?_, ?_, ?_, ?_, ?_⟩,
        hrounded.position, by lia⟩
      · rw [hrounded.decryptIv]
        exact hback
      · rw [heof']
        exact iff_of_false Bool.false_ne_true fun hnil => by
          rw [hnil, List.length_nil] at hlonger
          lia
      · rw [heof', if_neg Bool.false_ne_true, hrounded.position]
        lia
      · rw [hrounded.position]
        exact h.position_nonneg
      · lia
      · exact hpart _ (by lia)
      · lia
    | true =>
      obtain ⟨hshort, hrest, -⟩ := hrounded.ended heof'
      have hnil : c'.unread.length = 0 := by
        rcases hrest hpositive with htrue | hrest
        · rw [heof] at htrue
          exact absurd htrue Bool.false_ne_true
        · have hwindow : c'.unread = c'.window := by
            rw [CryptoContext.unread, hrest, List.append_nil]
          rw [hwindow] at hunread ⊢
          lia
      have hlt := hplain.padded.lt
      have hlen := hplain.padded.le
      -- the last byte of the output is that of the plain text
      have hlast : (decryptText key c.decryptIv text).getLastD 0 =
          UInt8.ofNat (plain.length - len) := by
        rw [← hplain.padded.last, hfront, slice,
          List.take_of_length_le (by rw [List.length_drop]; lia), List.getLastD_eq_getLast?,
          List.getLastD_eq_getLast?, List.getLast?_drop,
          if_neg (by lia)]
      have hpadding : (UInt8.ofNat (plain.length - len)).toNat = plain.length - len := by
        rw [UInt8.toNat_ofNat']
        lia
      rw [heof', if_pos rfl, hlast, hpadding] at hdata
      refine ⟨c', hrefill, ⟨hbuffered, hrounded.kept h.kept, ?_, ?_, ?_, ?_, ?_, ?_, ?_⟩,
        hrounded.position, by lia⟩
      · rw [hrounded.decryptIv]
        exact hback
      · rw [heof']
        exact iff_of_true rfl (List.eq_nil_of_length_eq_zero hnil)
      · rw [heof', if_pos rfl, hrounded.position]
        lia
      · rw [hrounded.position]
        exact h.position_nonneg
      · lia
      · exact hpart _ (by lia)
      · lia

/-- What a read of a cipher text returns: the next piece of the plain text, or the end. -/
def Advances (config : Config) (t : Tables) (key : Bytes) (start : CryptoContext)
    (iv₀ cipher plain : Bytes) (len size : Nat) (c : CryptoContext) (r : Except AVERROR Bytes)
    (c' : CryptoContext) : Prop :=
  Reading config t key start iv₀ cipher plain len c' ∧
    ((∃ n, (0 < size → 0 < n) ∧ n ≤ size ∧ c.position < len ∧ c.position + n ≤ len ∧
      c'.position = c.position + n ∧ r = .ok (slice plain c.position.toNat n)) ∨
    (r = .error .eof ∧ c.position = len ∧ c'.position = len))

/-- The rounds of a read, by induction on the bound. -/
theorem Reading.readLoop (h : Reading config t key start iv₀ cipher plain len c)
    (hlengths : ∀ k, 0 < start.hd.lengths k) (hplain : Decodes key iv₀ cipher plain len)
    {fuel size : Nat} (hfuel : c.unread.length + 2 ≤ fuel) :
    ∃ r c', cryptoReadLoop config t size fuel c = some (r, c') ∧
      Advances config t key start iv₀ cipher plain len size c r c' := by
  induction fuel generalizing c with
  | zero => lia
  | succ fuel ih =>
    have hout := h.outdata_nonneg
    rw [cryptoReadLoop]
    by_cases hdata : 0 < c.outdata
    · have hroom := h.room
      have hlength := h.buffered.outbuffer
      have hn : ((min size c.outdata.toNat : Nat) : Int) ≤ c.outdata := by lia
      have hle := h.position_le hplain
      obtain ⟨hslice, hcopied⟩ := h.copied hn
      rw [if_pos hdata]
      dsimp only
      rw [if_pos (by lia), hslice]
      exact ⟨_, _, rfl, hcopied, .inl ⟨_, by lia, Nat.min_le_left _ _, by lia, by lia, rfl, rfl⟩⟩
    · have hzero : c.outdata = 0 := by lia
      rw [if_neg hdata]
      cases heof : c.eof with
      | true =>
        obtain ⟨c', hrefill, hreading, hsame⟩ := h.refill_eof heof
        have hposition := h.position
        rw [heof, if_pos rfl, hzero, Int.add_zero] at hposition
        rw [hrefill]
        exact ⟨_, c', rfl, hreading, .inr ⟨rfl, hposition, hsame.trans hposition⟩⟩
      | false =>
        obtain ⟨c', hrefill, hreading, hsame, hless⟩ := h.refill_more hlengths hplain heof hzero
        obtain ⟨r, c'', hloop, hreading', hcase⟩ := ih hreading (by lia)
        rw [hrefill]
        refine ⟨r, c'', hloop, hreading', ?_⟩
        rw [← hsame]
        exact hcase

/-- **A read of a cipher text.** -/
theorem Reading.read (h : Reading config t key start iv₀ cipher plain len c)
    (hlengths : ∀ k, 0 < start.hd.lengths k) (hplain : Decodes key iv₀ cipher plain len)
    (size : Nat) :
    ∃ r c', cryptoRead config t c size = some (r, c') ∧
      Advances config t key start iv₀ cipher plain len size c r c' :=
  h.readLoop hlengths hplain (by rw [CryptoContext.left_eq h.buffered])

end

end FFmpeg.Libavformat.Crypto
