import FFmpeg.Libavformat.CryptoWrite

/-!
# Seeking in an encrypted resource

A seek starts to decrypt at the block in front of its target and discards what it reads up to
there: only the first of these blocks depends on the initial value that is left from before.  In
front of the first block there is none, and the initial value is that of the option `iv`.
-/

namespace FFmpeg.Libavformat.Crypto

open Common Libavutil Aes AesTables AesFips197 AesCbc

variable {config : Config} {t t' : Tables} {key iv₀ iv' cipher plain : Bytes} {len : Nat}
variable {start c : CryptoContext}

/-! ## Reading up to the target -/

/-- The loop that discards, by induction on the bound: each read takes a byte at least. -/
theorem Reading.discard (h : Reading config t key start iv₀ cipher plain len c)
    (hlengths : ∀ k, 0 < start.hd.lengths k) (hplain : Decodes key iv₀ cipher plain len)
    {fuel n : Nat} (hn : n ≤ 32) (hfuel : n ≤ fuel) (hle : c.position + n ≤ len) :
    ∃ c', discardLoop config t fuel n c = some (0, c') ∧
      Reading config t key start iv₀ cipher plain len c' ∧ c'.position = c.position + n := by
  have hblock : blocksize = 16 := rfl
  induction fuel generalizing c n with
  | zero =>
    obtain rfl : n = 0 := by lia
    exact ⟨c, rfl, h, (Int.add_zero _).symm⟩
  | succ fuel ih =>
    rw [discardLoop, if_neg (by rw [hblock]; lia)]
    by_cases hzero : n = 0
    · subst hzero
      exact ⟨c, if_neg (lt_irrefl 0), h, (Int.add_zero _).symm⟩
    · rw [if_pos (by lia), Int.toNat_natCast]
      obtain ⟨r, c₁, hread, hreading, hcase⟩ := h.read hlengths hplain n
      have hnonneg := h.position_nonneg
      have hlt := hplain.padded.lt
      rcases hcase with ⟨m, hpos, hm, -, hroom, hposition, rfl⟩ | ⟨-, hend, -⟩
      · have hpos := hpos (by lia)
        have hlength : (slice plain c.position.toNat m).length = m := by
          rw [length_slice]
          lia
        obtain ⟨c', hloop, hreading', hposition'⟩ := ih hreading (n := n - m) (by lia) (by lia)
          (by lia)
        refine ⟨c', ?_, hreading', by lia⟩
        rw [hread]
        simp only [Option.bind_eq_bind, Option.bind_some, hlength]
        rw [show ((n : Nat) : Int) - (m : Nat) = ((n - m : Nat) : Int) by lia]
        exact hloop
      · lia

/-- A context that starts again at a block. -/
def CryptoContext.restarted (c : CryptoContext) (s : Nat) (iv : Bytes) : CryptoContext :=
  { c with
    hd := { c.hd with pos := s }
    outptr := 0
    indata := 0
    indataUsed := 0
    outdata := 0
    position := s
    eof := false
    decryptIv := iv }

variable {s : Nat}

theorem Reading.restarted (h : Reading config t key start iv₀ cipher plain len c)
    (hcontent : start.hd.content = cipher) (hs : s < cipher.length) (hiv : iv'.length = 16)
    {plain' : Bytes} (hlength : plain'.length = cipher.length) :
    Reading config t key start iv' (cipher.drop s) plain' len (c.restarted s iv') := by
  have hunread : (c.restarted s iv').unread = cipher.drop s := by
    show slice c.inbuffer 0 (0 - 0) ++ c.hd.content.drop s = _
    rw [slice_zero, List.nil_append, h.kept.content, hcontent]
  refine ⟨⟨h.buffered.inbuffer, h.buffered.outbuffer, le_rfl, Nat.zero_le _,
    Nat.div_pos (by decide) (by decide), hiv, h.buffered.aes⟩, ⟨h.kept.write, h.kept.iv,
    h.kept.content, h.kept.lengths, h.kept.seekable⟩, ?_, ?_, ?_, ?_, le_rfl, rfl,
    Int.natCast_nonneg bufferSize⟩
  · refine ⟨[], by rw [hunread, List.nil_append], Nat.dvd_zero 16, ?_⟩
    rw [lastBlock, List.append_nil]
    rfl
  · rw [hunread]
    refine iff_of_false Bool.false_ne_true fun hnil => ?_
    have hzero := congrArg List.length hnil
    rw [List.length_drop, List.length_nil] at hzero
    lia
  · rw [hunread, List.length_drop, hlength]
    show (s : Int) + 0 = ((cipher.length - (cipher.length - s) : Nat) : Int)
    lia
  · exact Int.natCast_nonneg s

/-! ## The block in front of the target -/

variable {text : Bytes}

theorem lastBlock_of_le {iv : Bytes} (hiv : iv.length = 16) (h : 16 ≤ text.length) :
    lastBlock iv text = text.drop (text.length - 16) := by
  have hgone : iv.drop text.length = [] := List.drop_eq_nil_of_le (by lia)
  rw [lastBlock, List.drop_append, hgone, List.nil_append, hiv]

/-- What comes out of a block and those behind it, when decryption starts with any initial
value. -/
noncomputable def plainFrom (key cipher plain : Bytes) (s : Nat) (iv : Bytes) : Bytes :=
  plain.take s ++ decryptText key iv (cipher.drop s)

theorem length_plainFrom (hplain : Decodes key iv₀ cipher plain len)
    (hlength : cipher.length = plain.length) (hs : s < cipher.length) (hdvd : 16 ∣ s)
    (hiv : iv'.length = 16) : (plainFrom key cipher plain s iv').length = cipher.length := by
  have hwhole := hplain.whole
  rw [plainFrom, List.length_append, List.length_take, length_decryptText key hiv (by
    rw [List.length_drop]
    lia), List.length_drop]
  lia

/-- Behind the first block the initial value does not matter. -/
theorem drop_plainFrom (hplain : Decodes key iv₀ cipher plain len)
    (hlength : cipher.length = plain.length) (hs : s + 16 ≤ cipher.length) (hdvd : 16 ∣ s)
    (hiv : iv'.length = 16) :
    (plainFrom key cipher plain s iv').drop (s + 16) = plain.drop (s + 16) := by
  have hdecrypt := hplain.decrypt
  rw [← hlength, Nat.sub_self, List.drop_zero] at hdecrypt
  have hblock : (slice cipher s 16).length = 16 := by
    rw [length_slice]
    lia
  have hdrop : cipher.drop s = slice cipher s 16 ++ cipher.drop (s + 16) := by
    rw [slice, ← List.drop_drop, List.take_append_drop]
  have htake : (cipher.take s ++ slice cipher s 16).length = s + 16 := by
    rw [List.length_append, List.length_take, hblock]
    lia
  have hsplit : cipher = (cipher.take s ++ slice cipher s 16) ++ cipher.drop (s + 16) := by
    rw [List.append_assoc, ← hdrop, List.take_append_drop]
  have hfirst : (plain.take s).length = s := by
    rw [List.length_take]
    lia
  have hstart : (cipher.take s).length = s := by
    rw [List.length_take]
    lia
  have hleft : (plainFrom key cipher plain s iv').drop (s + 16) =
      decryptText key (slice cipher s 16) (cipher.drop (s + 16)) := by
    have hone : (decryptText key iv' (slice cipher s 16)).length = 16 := by
      rw [length_decryptText key hiv (by lia), hblock]
    have hlast : lastBlock iv' (slice cipher s 16) = slice cipher s 16 := by
      rw [lastBlock_of_le hiv hblock.ge, hblock, Nat.sub_self, List.drop_zero]
    rw [plainFrom, hdrop, decryptText_append hiv (by lia), hlast, ← List.drop_drop,
      List.drop_left' hfirst, List.drop_left' hone]
  have hright : plain.drop (s + 16) =
      decryptText key (slice cipher s 16) (cipher.drop (s + 16)) := by
    have hmany : (decryptText key iv₀ (cipher.take s ++ slice cipher s 16)).length = s + 16 := by
      rw [length_decryptText key hplain.length_iv (by lia), htake]
    have hlast : lastBlock iv₀ (cipher.take s ++ slice cipher s 16) = slice cipher s 16 := by
      rw [lastBlock_of_le hplain.length_iv (by lia), htake, Nat.add_sub_cancel,
        List.drop_left' hstart]
    rw [← hdecrypt]
    nth_rewrite 1 [hsplit]
    rw [decryptText_append hplain.length_iv (by lia), hlast, List.drop_left' hmany]
  rw [hleft, hright]

theorem Decodes.from (hplain : Decodes key iv₀ cipher plain len)
    (hlength : cipher.length = plain.length) (hs : s + 16 < cipher.length) (hdvd : 16 ∣ s)
    (hiv : iv'.length = 16) :
    Decodes key iv' (cipher.drop s) (plainFrom key cipher plain s iv') len := by
  have hwhole := hplain.whole
  have hsame := length_plainFrom hplain hlength (by lia) hdvd hiv
  have hdrop := drop_plainFrom hplain hlength hs.le hdvd hiv
  have hfirst : (plain.take s).length = s := by
    rw [List.length_take]
    lia
  refine ⟨hiv, ?_, ?_, ?_, ⟨?_, ?_, ?_⟩⟩
  · rw [List.length_drop]
    lia
  · rw [List.length_drop]
    lia
  · rw [hsame, List.length_drop, show cipher.length - (cipher.length - s) = s by lia, plainFrom,
      List.drop_left' hfirst]
  · rw [hsame, hlength]
    exact hplain.padded.lt
  · rw [hsame, hlength]
    exact hplain.padded.le
  · -- the last byte is behind the first block
    have hlast := congrArg List.getLast? hdrop
    rw [List.getLast?_drop, List.getLast?_drop, if_neg (by lia), if_neg (by lia)] at hlast
    rw [List.getLastD_eq_getLast?, hlast, ← List.getLastD_eq_getLast?, hsame, hlength]
    exact hplain.padded.last

/-- Past its first block a restarted context is in the middle of the text. -/
theorem Reading.rejoin
    (h : Reading config t key start iv' (cipher.drop s) (plainFrom key cipher plain s iv') len c)
    (hplain : Decodes key iv₀ cipher plain len) (hlength : cipher.length = plain.length)
    (hs : s + 16 < cipher.length) (hdvd : 16 ∣ s) (hiv : iv'.length = 16)
    (hposition : s + 16 ≤ c.position) :
    Reading config t key start iv₀ cipher plain len c := by
  have hsame := length_plainFrom hplain hlength (by lia) hdvd hiv
  have hdrop := drop_plainFrom hplain hlength hs.le hdvd hiv
  have hfrom := hplain.from hlength hs hdvd hiv
  have hnonneg := h.outdata_nonneg
  have hsum := h.position
  obtain ⟨front, hfront, hfrontDvd, hchain⟩ := h.chain
  have hcount := congrArg List.length hfront
  have hlen := hplain.padded.lt
  rw [List.length_append, List.length_drop] at hcount
  have hlong : 16 ≤ front.length := by
    split_ifs at hsum with heof
    · have hnil := h.eof_iff.mp heof
      rw [hnil, List.length_nil] at hcount
      lia
    · lia
  refine ⟨h.buffered, h.kept, ⟨cipher.take s ++ front, ?_, ?_, ?_⟩, h.eof_iff, ?_,
    h.position_nonneg, h.outdata_nonneg, ?_, h.room⟩
  · rw [List.append_assoc, ← hfront, List.take_append_drop]
  · rw [List.length_append, List.length_take]
    lia
  · have hstart : (cipher.take s).length = s := by
      rw [List.length_take]
      lia
    have hgone : (cipher.take s).drop (s + front.length - 16) = [] :=
      List.drop_eq_nil_of_le (by lia)
    rw [hchain, lastBlock_of_le hiv hlong, lastBlock_of_le hplain.length_iv (by
      rw [List.length_append]
      lia), List.length_append, hstart, List.drop_append, hgone, List.nil_append, hstart]
    congr 1
    lia
  · rw [hsum, hsame, hlength]
  · have hpart (n : Nat) : slice (plainFrom key cipher plain s iv') c.position.toNat n =
        slice plain c.position.toNat n := by
      obtain ⟨k, hk⟩ : ∃ k, c.position.toNat = s + 16 + k := ⟨c.position.toNat - (s + 16), by lia⟩
      rw [slice, slice, hk, ← List.drop_drop, hdrop, List.drop_drop]
    rw [h.out, hpart]

/-! ## A seek -/

/-- The block where decryption starts again. -/
def startOf (target : Nat) : Nat := if target < 16 then 0 else (target / 16 - 1) * 16

/-- The initial value when decryption starts again. -/
def CryptoContext.ivFor (c : CryptoContext) (target : Nat) : Bytes :=
  if target < 16 then overwrite c.decryptIv 0 c.iv else c.decryptIv

/-- A seek discards from the start of a block on. -/
theorem seekTo_eq {target : Nat} (hseekable : c.hd.seekable = true)
    (hroom : target < 16 → c.iv.length ≤ c.decryptIv.length) :
    seekTo config t { c with eof := false } target =
      (discardLoop config t (target - startOf target) (target - startOf target : Nat)
        (c.restarted (startOf target) (c.ivFor target))).bind fun done =>
          if done.1 ≠ 0 then some (.error .einval, done.2)
          else some (.ok done.2.position, done.2) := by
  have hblock : ((target : Int).tdiv (blocksize : Nat)) = ((target / 16 : Nat) : Int) := rfl
  have hseek (s : Nat) : ffurlSeek c.hd s = .ok { c.hd with pos := s } := by
    rw [ffurlSeek, if_neg (not_not.mpr hseekable), if_neg (by lia), Int.toNat_natCast]
  unfold seekTo startOf CryptoContext.ivFor
  simp only [hblock]
  by_cases hfirst : target < 16
  · have hzero : ((target / 16 : Nat) : Int) = 0 := by lia
    rw [if_neg (by have := hroom hfirst; lia), if_pos hfirst, if_pos hfirst]
    simp only [hzero, if_true, show ffurlSeek c.hd 0 = .ok { c.hd with pos := 0 } from hseek 0,
      Int.sub_zero, Int.toNat_natCast, Nat.sub_zero]
    rfl
  · have hne : ((target / 16 : Nat) : Int) ≠ 0 := by lia
    have hposition : (((target / 16 : Nat) : Int) - 1) * (blocksize : Nat) =
        (((target / 16 - 1) * 16 : Nat) : Int) := by
      show (((target / 16 : Nat) : Int) - 1) * 16 = _
      lia
    have hlen : (target : Int) - (((target / 16 - 1) * 16 : Nat) : Int) =
        ((target - (target / 16 - 1) * 16 : Nat) : Int) := by lia
    rw [if_neg (by tauto), if_neg hfirst, if_neg hfirst]
    simp only [if_neg hne, hposition, hseek, hlen, Int.toNat_natCast]
    rfl

/-- **A seek of a cipher text**, when the initial value for the first block is put back. -/
theorem Reading.seekTo (h : Reading config t key start iv₀ cipher plain len c)
    (hlengths : ∀ k, 0 < start.hd.lengths k) (hplain : Decodes key iv₀ cipher plain len)
    (hlength : cipher.length = plain.length) (hcontent : start.hd.content = cipher)
    (hseekable : start.hd.seekable = true) {target : Nat} (htarget : target ≤ len)
    (hrewind : target < 16 → overwrite c.decryptIv 0 c.iv = iv₀) :
    ∃ c', Crypto.seekTo config t { c with eof := false } target = some (.ok target, c') ∧
      Reading config t key start iv₀ cipher plain len c' ∧ c'.position = target := by
  have hiv := h.buffered.iv
  have hlt := hplain.padded.lt
  have hroom : target < 16 → c.iv.length ≤ c.decryptIv.length := fun hfirst => by
    have hcount := congrArg List.length (hrewind hfirst)
    rw [overwrite, List.take_zero, List.nil_append, List.length_append, hplain.length_iv] at hcount
    lia
  rw [seekTo_eq (h.kept.seekable.trans hseekable) hroom]
  suffices hdiscard : ∃ c', discardLoop config t (target - startOf target)
      (target - startOf target : Nat) (c.restarted (startOf target) (c.ivFor target)) =
        some (0, c') ∧ Reading config t key start iv₀ cipher plain len c' ∧
      c'.position = target by
    obtain ⟨c', hloop, hreading, hposition⟩ := hdiscard
    refine ⟨c', ?_, hreading, hposition⟩
    rw [hloop, Option.bind_some, if_neg (not_not.mpr rfl), hposition]
  by_cases hfirst : target < 16
  · have hrestarted := h.restarted (s := 0) hcontent (by lia) hplain.length_iv hlength.symm
    rw [startOf, CryptoContext.ivFor, if_pos hfirst, if_pos hfirst, hrewind hfirst, Nat.sub_zero]
    rw [List.drop_zero] at hrestarted
    obtain ⟨c', hloop, hreading, hposition⟩ := hrestarted.discard hlengths hplain
      (n := target) (by lia) le_rfl (by show ((0 : Nat) : Int) + target ≤ len; lia)
    exact ⟨c', hloop, hreading, hposition.trans (Int.zero_add _)⟩
  · -- the block in front is decrypted and discarded
    obtain ⟨s, hs⟩ : ∃ s, s = (target / 16 - 1) * 16 := ⟨_, rfl⟩
    have hdvd : 16 ∣ s := ⟨target / 16 - 1, by lia⟩
    have hin : s + 16 < cipher.length := by lia
    have hfrom := hplain.from hlength hin hdvd hiv
    have hrestarted := h.restarted hcontent (show s < cipher.length by lia) hiv
      (length_plainFrom hplain hlength (by lia) hdvd hiv)
    rw [startOf, CryptoContext.ivFor, if_neg hfirst, if_neg hfirst, ← hs]
    obtain ⟨c', hloop, hreading, hposition⟩ := hrestarted.discard hlengths hfrom
      (n := target - s) (by lia) le_rfl (by show (s : Int) + _ ≤ len; lia)
    have hend : c'.position = target := by
      rw [hposition]
      show (s : Int) + _ = target
      lia
    exact ⟨c', hloop, hreading.rejoin hplain hlength hin hdvd hiv (by lia), hend⟩

/-! ## Runs -/

/-- A seek that asks for a target from the position `p`. -/
def Asks (p : Nat) (pos : Int) (whence : Whence) (target : Nat) : Prop :=
  (whence = .seekSet ∧ pos = target) ∨ (whence = .seekCur ∧ pos + p = target)

/-- What reads and seeks reach, with the logical position: a read moves it by the bytes that it
returns, a seek to its target.  Seeks are to targets in the text where `fine` holds. -/
inductive SeekRun (config : Config) (t : Tables) (len : Nat) (fine : CryptoContext → Nat → Prop)
    (c₀ : CryptoContext) : CryptoContext → Nat → Prop
  | start : SeekRun config t len fine c₀ c₀ 0
  | read {c c' : CryptoContext} {p : Nat} (hrun : SeekRun config t len fine c₀ c p) {size : Nat}
      {data : Bytes} (hread : cryptoRead config t c size = some (.ok data, c')) :
      SeekRun config t len fine c₀ c' (p + data.length)
  | stop {c c' : CryptoContext} {p : Nat} (hrun : SeekRun config t len fine c₀ c p) {size : Nat}
      {err : AVERROR} (hread : cryptoRead config t c size = some (.error err, c')) :
      SeekRun config t len fine c₀ c' p
  | seek {c c' : CryptoContext} {p : Nat} (hrun : SeekRun config t len fine c₀ c p) {pos : Int}
      {whence : Whence} {target : Nat} (hasks : Asks p pos whence target) (hle : target ≤ len)
      (hfine : fine c target) {result : Int}
      (hseek : cryptoSeek config t c pos whence = some (.ok result, c')) :
      SeekRun config t len fine c₀ c' target

/-- What reads and seeks at the position `p` of a text do: a read gives the bytes there, and some
when some are asked for and left; a seek returns its target. -/
structure RightAt (config : Config) (t : Tables) (text : Bytes)
    (fine : CryptoContext → Nat → Prop) (c : CryptoContext) (p : Nat) : Prop where
  read : ∀ size, p < text.length → ∃ n c', n ≤ size ∧ (0 < size → 0 < n) ∧
    p + n ≤ text.length ∧ cryptoRead config t c size = some (.ok (slice text p n), c')
  stop : ∀ size, p = text.length → ∃ c', cryptoRead config t c size = some (.error .eof, c')
  seek : ∀ pos whence target, Asks p pos whence target → target ≤ text.length → fine c target →
    ∃ c', cryptoSeek config t c pos whence = some (.ok target, c')

/-- Every run from a context is right in every state. -/
def SeeksRight (config : Config) (t : Tables) (text : Bytes)
    (fine : CryptoContext → Nat → Prop) (c₀ : CryptoContext) : Prop :=
  ∀ c p, SeekRun config t text.length fine c₀ c p → RightAt config t text fine c p

/-- A seek in front of the second block writes the option `iv` over the initial value: that is the
one in use when the option is, or when it is not given and the initial value is still there. -/
def Rewinds (iv : Bytes) (c : CryptoContext) (target : Nat) : Prop :=
  target < 16 → overwrite c.decryptIv 0 c.iv = iv

section

variable {fine : CryptoContext → Nat → Prop} {p : Nat}

theorem Reading.seek (h : Reading config t key start iv₀ cipher plain len c)
    (hlengths : ∀ k, 0 < start.hd.lengths k) (hplain : Decodes key iv₀ cipher plain len)
    (hlength : cipher.length = plain.length) (hcontent : start.hd.content = cipher)
    (hseekable : start.hd.seekable = true) (hwrite : start.write = false) {pos : Int}
    {whence : Whence} {target : Nat} (hasks : Asks p pos whence target) (hp : c.position = p)
    (htarget : target ≤ len) (hrewind : Rewinds iv₀ c target) :
    ∃ c', cryptoSeek config t c pos whence = some (.ok target, c') ∧
      Reading config t key start iv₀ cipher plain len c' ∧ c'.position = target := by
  have hread : ¬c.write = true := by
    rw [h.kept.write, hwrite]
    exact Bool.false_ne_true
  rw [cryptoSeek, if_neg hread]
  rcases hasks with ⟨rfl, rfl⟩ | ⟨rfl, hpos⟩
  · exact h.seekTo hlengths hplain hlength hcontent hseekable htarget hrewind
  · dsimp only
    rw [hp, hpos]
    exact h.seekTo hlengths hplain hlength hcontent hseekable htarget hrewind

/-- Every state of a run is in the middle of the text, by induction on the run. -/
theorem SeekRun.reading {c₀ : CryptoContext} (hrun : SeekRun config t len fine c₀ c p)
    (h : Reading config t key start iv₀ cipher plain len c₀) (hzero : c₀.position = 0)
    (hlengths : ∀ k, 0 < start.hd.lengths k) (hplain : Decodes key iv₀ cipher plain len)
    (hlength : cipher.length = plain.length) (hcontent : start.hd.content = cipher)
    (hseekable : start.hd.seekable = true) (hwrite : start.write = false)
    (hfine : ∀ c target, c.iv = start.iv → c.decryptIv.length = 16 → fine c target →
      Rewinds iv₀ c target) :
    Reading config t key start iv₀ cipher plain len c ∧ c.position = p := by
  have hlt := hplain.padded.lt
  induction hrun with
  | start => exact ⟨h, hzero⟩
  | @read c c' p _ size data hread ih =>
    obtain ⟨hreading, hp⟩ := ih
    obtain ⟨r, c₁, hread', hreading', hcase⟩ := hreading.read hlengths hplain size
    obtain ⟨rfl, rfl⟩ := Prod.mk.inj (Option.some.inj (hread.symm.trans hread'))
    rcases hcase with ⟨n, -, -, -, hle, hposition, hdata⟩ | ⟨hdata, -, -⟩
    · have hcount := length_slice plain c.position.toNat n
      rw [← Except.ok.inj hdata] at hcount
      exact ⟨hreading', by lia⟩
    · exact absurd hdata (by simp)
  | @stop c c' p _ size err hread ih =>
    obtain ⟨hreading, hp⟩ := ih
    obtain ⟨r, c₁, hread', hreading', hcase⟩ := hreading.read hlengths hplain size
    obtain ⟨rfl, rfl⟩ := Prod.mk.inj (Option.some.inj (hread.symm.trans hread'))
    rcases hcase with ⟨n, -, -, -, -, -, hdata⟩ | ⟨-, hend, hend'⟩
    · exact absurd hdata (by simp)
    · exact ⟨hreading', by lia⟩
  | @seek c c' p _ pos whence target hasks hle hfine' result hseek ih =>
    obtain ⟨hreading, hp⟩ := ih
    obtain ⟨c₁, hseek', hreading', hposition⟩ := hreading.seek hlengths hplain hlength hcontent
      hseekable hwrite hasks hp hle (hfine c target hreading.kept.iv hreading.buffered.iv hfine')
    obtain ⟨-, rfl⟩ := Prod.mk.inj (Option.some.inj (hseek.symm.trans hseek'))
    exact ⟨hreading', hposition⟩

end

/-- Runs in the middle of a text that put the initial value back are right. -/
theorem Reading.seeksRight {fine : CryptoContext → Nat → Prop}
    (h : Reading config t key c iv₀ cipher (pkcs7 text) text.length c) (hzero : c.position = 0)
    (hlengths : ∀ k, 0 < c.hd.lengths k) (hplain : Decodes key iv₀ cipher (pkcs7 text) text.length)
    (hlength : cipher.length = (pkcs7 text).length) (hcontent : c.hd.content = cipher)
    (hseekable : c.hd.seekable = true) (hwrite : c.write = false)
    (hfine : ∀ c' target, c'.iv = c.iv → c'.decryptIv.length = 16 → fine c' target → Rewinds iv₀ c' target) :
    SeeksRight config t text fine c := by
  intro c' p hrun
  obtain ⟨hreading, hp⟩ := hrun.reading h hzero hlengths hplain hlength hcontent hseekable hwrite
    hfine
  refine ⟨fun size hlt => ?_, fun size hend => ?_, fun pos whence target hasks hle hok => ?_⟩
  · obtain ⟨r, c₁, hread, -, hcase⟩ := hreading.read hlengths hplain size
    rcases hcase with ⟨n, hpos, hn, -, hle, -, rfl⟩ | ⟨-, hend, -⟩
    · have htext : slice (pkcs7 text) p n = slice text p n := by
        rw [slice, slice, pkcs7, List.drop_append_of_le_length hlt.le,
          List.take_append_of_le_length (by rw [List.length_drop]; lia)]
      rw [hp, Int.toNat_natCast, htext] at hread
      exact ⟨n, c₁, hn, hpos, by lia, hread⟩
    · lia
  · obtain ⟨r, c₁, hread, -, hcase⟩ := hreading.read hlengths hplain size
    rcases hcase with ⟨n, -, -, hlt, -, -, -⟩ | ⟨rfl, -, -⟩
    · lia
    · exact ⟨c₁, hread⟩
  · obtain ⟨c₁, hseek, -, -⟩ := hreading.seek hlengths hplain hlength hcontent hseekable hwrite
      hasks hp hle (hfine c' target hreading.kept.iv hreading.buffered.iv hok)
    exact ⟨c₁, hseek⟩

variable {o : Options} {inner : URLContext}

theorem OpenedRead.decodes (h : OpenedRead config t o inner c)
    (hkey : (argument o.decryptionKey o.key).length = 16)
    (hcontent : inner.content = encryptText (argument o.decryptionKey o.key) (argument o.decryptionIv o.iv) (pkcs7 text))
    (hpos : inner.pos = 0) :
    Decodes (argument o.decryptionKey o.key) (argument o.decryptionIv o.iv) inner.content
        (pkcs7 text) text.length ∧
      inner.content.length = (pkcs7 text).length ∧
      Reading config t (argument o.decryptionKey o.key) c (argument o.decryptionIv o.iv)
        inner.content (pkcs7 text) text.length c := by
  have hlength := length_pkcs7 text
  have hiv := h.buffered.iv
  rw [h.decryptIv] at hiv
  have hwhole : 16 ∣ (pkcs7 text).length := by lia
  have hcount : inner.content.length = (pkcs7 text).length := by
    rw [hcontent, length_encryptText _ _ hwhole]
  refine ⟨?_, hcount, h.reading _ hpos (List.length_pos_iff.mp (by lia)) hcount⟩
  rw [hcontent]
  exact decodes_encryptText hkey hiv hwhole (padded_pkcs7 text)

/-- **Seeks and reads give the plain text** in every run where each seek in front of the second
block puts the initial value back; with the option `iv` every seek does. -/
theorem seeksRight_rewinds {tr : Tables} (ht : Reached config t) {malloc : Nat → Malloc}
    {o : Options} {inner : URLContext} {c₀ : CryptoContext} {text : Bytes}
    (hcontent : inner.content =
      encryptText (argument o.decryptionKey o.key) (argument o.decryptionIv o.iv) (pkcs7 text))
    (hpos : inner.pos = 0) (hseekable : inner.seekable = true)
    (hlengths : ∀ k, 0 < inner.lengths k)
    (hopen : cryptoOpen2 config t malloc o true false (.ok inner) = .ok (c₀, tr)) :
    SeeksRight config tr text (Rewinds (argument o.decryptionIv o.iv)) c₀ ∧
    (o.iv = argument o.decryptionIv o.iv → SeeksRight config tr text (fun _ _ => True) c₀) := by
  have hopened := openedRead ht hopen
  obtain ⟨hdecodes, hcount, hreading⟩ := hopened.decodes (openedRead_key hopen) hcontent hpos
  have hhd := hopened.hd
  have hlengths' : ∀ k, 0 < c₀.hd.lengths k := by rwa [hhd]
  have hcontent' : c₀.hd.content = inner.content := by rw [hhd]
  have hseekable' : c₀.hd.seekable = true := by rwa [hhd]
  constructor
  · exact hreading.seeksRight hopened.position hlengths' hdecodes hcount hcontent' hseekable'
      hopened.write fun _ _ _ _ hrewind => hrewind
  · intro hiv
    refine hreading.seeksRight hopened.position hlengths' hdecodes hcount hcontent' hseekable'
      hopened.write fun c' target hsame hlong _ _ => ?_
    have hdrop : c'.decryptIv.drop (0 + o.iv.length) = [] := by
      have hlength := hdecodes.length_iv
      rw [← hiv] at hlength
      exact List.drop_eq_nil_of_le (by lia)
    rw [hsame, hopened.iv, overwrite, List.take_zero, List.nil_append, hdrop, List.append_nil]
    exact hiv

/-- The cipher text of zeros. -/
def zeroCipher : Bytes :=
  encryptText (List.replicate 16 0) (List.replicate 16 0) (pkcs7 (List.replicate 31 0))

/-- A resource of zeros that is read in single bytes. -/
def zeroResource : URLContext := { emptyResource with content := zeroCipher }

theorem content_zeroResource {key iv : Bytes} (hkey : key = List.replicate 16 0)
    (hiv : iv = List.replicate 16 0) :
    zeroResource.content = encryptText key iv (pkcs7 (List.replicate 31 0)) := by
  subst hkey hiv
  exact zeroCipher.eq_def

/-- With the option `iv` every run on a resource of zeros is right. -/
theorem seeksRight_rewinds_zeros : ∃ c₀ tr,
    cryptoOpen2 ⟨false, false⟩ (Tables.zero ⟨false, false⟩) (fun _ => zeroMalloc) zeroOptions true
      false (.ok zeroResource) = .ok (c₀, tr) ∧
    SeeksRight ⟨false, false⟩ tr (List.replicate 31 0) (Rewinds (List.replicate 16 0)) c₀ ∧
    SeeksRight ⟨false, false⟩ tr (List.replicate 31 0) (fun _ _ => True) c₀ := by
  obtain ⟨c₀, tr, hopen⟩ := exists_open true zeroResource
  have hright := seeksRight_rewinds .zero (content_zeroResource rfl rfl) rfl rfl
    (fun _ => Nat.one_pos) hopen
  exact ⟨c₀, tr, hopen, hright.1, hright.2 rfl⟩

/-! ## Without the option `iv` -/

section

variable {c₀ : CryptoContext} {text plain' : Bytes}

/-- In a right run that stands at the start of the resource, with any initial value, what the
resource is decrypted to is the text, by induction on the single bytes that are read. -/
theorem SeeksRight.readOn (hright : SeeksRight config t text (fun _ _ => True) c₀)
    (hrun : SeekRun config t text.length (fun _ _ => True) c₀ c 0)
    (h : Reading config t key start iv' cipher plain' text.length c) (hzero : c.position = 0)
    (hlengths : ∀ k, 0 < start.hd.lengths k)
    (hplain : Decodes key iv' cipher plain' text.length) {p : Nat} (hp : p ≤ text.length) :
    ∃ c', SeekRun config t text.length (fun _ _ => True) c₀ c' p ∧
      Reading config t key start iv' cipher plain' text.length c' ∧ c'.position = p ∧
      plain'.take p = text.take p := by
  have hlt := hplain.padded.lt
  induction p with
  | zero => exact ⟨c, hrun, h, hzero, by rw [List.take_zero, List.take_zero]⟩
  | succ p ih =>
    obtain ⟨c', hrun', hreading, hposition, htake⟩ := ih (by lia)
    obtain ⟨n, c₁, hn, hpos, -, hread⟩ := (hright c' p hrun').read 1 (by lia)
    obtain rfl : n = 1 := by lia
    obtain ⟨r, c₂, hread', hreading', hcase⟩ := hreading.read hlengths hplain 1
    obtain ⟨rfl, rfl⟩ := Prod.mk.inj (Option.some.inj (hread.symm.trans hread'))
    rcases hcase with ⟨m, hpos', hm, -, -, hposition', hdata⟩ | ⟨hdata, -, -⟩
    · obtain rfl : m = 1 := by lia
      have hslice : slice text p 1 = slice plain' p 1 := by
        have hsame := Except.ok.inj hdata
        rwa [hposition, Int.toNat_natCast] at hsame
      have hnext := hrun'.read hread
      have hone : (slice text p 1).length = 1 := by
        rw [length_slice]
        lia
      rw [hone] at hnext
      refine ⟨c₁, hnext, hreading', by lia, ?_⟩
      rw [List.take_add, List.take_add, htake]
      exact congrArg _ hslice.symm
    · exact absurd hdata (by simp)

theorem Reading.decryptIv_end (h : Reading config t key start iv₀ cipher plain len c)
    (hplain : Decodes key iv₀ cipher plain len) (hpart : plain.length < len + 16)
    (hend : c.position = len) :
    c.decryptIv = lastBlock iv₀ cipher := by
  have hsum := h.position
  have hnonneg := h.outdata_nonneg
  have hle := hplain.padded.le
  have hlt := hplain.padded.lt
  obtain ⟨hwhole, hunread⟩ := h.unread_whole hplain
  obtain ⟨front, hfront, -, hiv⟩ := h.chain
  have hnil : c.unread = [] := by
    cases heof : c.eof with
    | true => exact h.eof_iff.mp heof
    | false =>
      rw [heof, if_neg Bool.false_ne_true] at hsum
      exact List.eq_nil_of_length_eq_zero (by lia)
  rw [hnil, List.append_nil] at hfront
  rw [hiv, hfront]

/-- The first read of two blocks decrypts the first one. -/
theorem Reading.read_first (h : Reading config t key start iv₀ cipher plain len c)
    (hlengths : ∀ k, 0 < start.hd.lengths k) (heof : c.eof = false) (hout : c.outdata = 0)
    (hunread : c.unread.length = 32) :
    ∃ data c', cryptoRead config t c 1 = some (.ok data, c') ∧
      c'.decryptIv = lastBlock c.decryptIv (c.unread.take 16) := by
  have hpositive : ∀ k, 0 < c.hd.lengths k := by
    rw [h.kept.lengths]
    exact hlengths
  have hblock : blocksize = 16 := rfl
  rcases h.buffered.refill with ⟨c', -, -, hfilled, hshort⟩ |
    ⟨c', text, hrefill, hbuffered, hrounded⟩
  · have hlength := congrArg List.length hfilled.unread
    rcases hfilled.done with hdone | ⟨-, -, hrest⟩
    · lia
    · rw [CryptoContext.unread, hrest hpositive, List.append_nil] at hlength
      lia
  · have hsplit := congrArg List.length hrounded.unread
    have hpos := hrounded.pos
    have hdvd := hrounded.dvd
    have hdata := hrounded.outdata
    have hptr := hrounded.outptr
    have hroom := hbuffered.outbuffer
    have hbuffer : bufferSize = 4112 := rfl
    rw [List.length_append] at hsplit
    -- the last block is left, so that this is not the end
    have heof' : c'.eof = false := by
      by_contra hne
      have htrue : c'.eof = true := by simpa using hne
      obtain ⟨hwindow, hrest, hone⟩ := hrounded.ended htrue
      have hone := hone heof
      rcases hrest hpositive with hbefore | hrest
      · rw [heof] at hbefore
        exact absurd hbefore Bool.false_ne_true
      · have hleft : c'.unread = c'.window := by
          rw [CryptoContext.unread, hrest, List.append_nil]
        rw [hleft] at hsplit
        lia
    have hlonger : 16 ≤ c'.unread.length := by
      rw [CryptoContext.unread, List.length_append]
      have hmore := (hrounded.more heof').2
      lia
    have htext : c.unread.take 16 = text := by
      rw [hrounded.unread]
      exact List.take_left' (by lia)
    rw [heof', if_neg Bool.false_ne_true] at hdata
    refine ⟨slice c'.outbuffer c'.outptr 1, c'.copied 1, ?_, ?_⟩
    · rw [cryptoRead, CryptoContext.left_eq h.buffered, cryptoReadLoop, if_neg (by lia), hrefill]
      simp only [Option.bind_eq_bind, Option.bind_some, if_true]
      rw [cryptoReadLoop, if_pos (by lia)]
      dsimp only
      rw [show min 1 c'.outdata.toNat = 1 by lia, if_pos (by lia)]
      rfl
    · show c'.decryptIv = _
      rw [hrounded.decryptIv, htext]

theorem decryptText_iv_inj {block : Bytes} (hiv : iv₀.length = 16) (hiv' : iv'.length = 16)
    (hblock : block.length = 16) (h : decryptText key iv₀ block = decryptText key iv' block) :
    iv₀ = iv' := by
  have htake : block.take 16 = block := List.take_of_length_le (by lia)
  have hone (iv : Bytes) : decryptText key iv block = addkey (decipher key block) iv := by
    simp [decryptText, hblock, BlockMode.toBlocks, BlockMode.cbcDecrypt, htake]
  have hcomm (p q : Bytes) : addkey p q = addkey q p := by
    rw [addkey, addkey, List.zipWith_comm]
    simp only [UInt8.xor_comm]
  have hlength := length_decipher key block
  rw [hone, hone, hcomm, hcomm _ iv'] at h
  rw [← addkey_addkey hiv hlength, h, addkey_addkey hiv' hlength]

/-- Without the option `iv` a run is right only as long as the initial value does not change. -/
theorem SeeksRight.decryptIv_eq (hright : SeeksRight config t text (fun _ _ => True) c₀)
    {p : Nat} (hrun : SeekRun config t text.length (fun _ _ => True) c₀ c p)
    (h : Reading config t key start iv₀ cipher plain text.length c)
    (hlengths : ∀ k, 0 < start.hd.lengths k)
    (hplain : Decodes key iv₀ cipher plain text.length) (hlength : cipher.length = plain.length)
    (hcontent : start.hd.content = cipher) (hseekable : start.hd.seekable = true)
    (hwrite : start.write = false) (hiv : start.iv = []) (htext : plain.take 16 = text.take 16)
    (hlong : 16 ≤ text.length) : c.decryptIv = iv₀ := by
  have hlt := hplain.padded.lt
  have hlen := h.buffered.iv
  have hwhole := hplain.whole
  have hread : ¬c.write = true := by
    rw [h.kept.write, hwrite]
    exact Bool.false_ne_true
  have hnothing : overwrite c.decryptIv 0 c.iv = c.decryptIv := by
    rw [h.kept.iv, hiv]
    rfl
  -- the seek to the start puts nothing back
  have hseek : cryptoSeek config t c 0 .seekSet = some (.ok 0, c.restarted 0 c.decryptIv) := by
    have hroom : (0 : Nat) < 16 → c.iv.length ≤ c.decryptIv.length := fun _ => by
      rw [h.kept.iv, hiv]
      exact Nat.zero_le _
    have hto := @seekTo_eq config t c 0 (h.kept.seekable.trans hseekable) hroom
    rw [startOf, CryptoContext.ivFor, if_pos (by decide), if_pos (by decide), hnothing] at hto
    rw [cryptoSeek, if_neg hread]
    exact hto
  have hrewound := hrun.seek (.inl ⟨rfl, rfl⟩) (Nat.zero_le _) trivial hseek
  have hfrom := hplain.from hlength (s := 0) (by lia) (Nat.dvd_zero 16) hlen
  have hreading := h.restarted hcontent (show 0 < cipher.length by lia) hlen
    (length_plainFrom hplain hlength (by lia) (Nat.dvd_zero 16) hlen)
  rw [List.drop_zero] at hfrom hreading
  obtain ⟨-, -, -, -, hsame⟩ := hright.readOn hrewound hreading rfl hlengths hfrom hlong
  have hblock : (cipher.take 16).length = 16 := by
    rw [List.length_take]
    lia
  have hfirst (iv : Bytes) (hiv : iv.length = 16) :
      (decryptText key iv cipher).take 16 = decryptText key iv (cipher.take 16) := by
    have hsplit : decryptText key iv (cipher.take 16 ++ cipher.drop 16) = _ :=
      decryptText_append hiv (by lia)
    rw [List.take_append_drop] at hsplit
    rw [hsplit]
    exact List.take_left' (by rw [length_decryptText key hiv (by lia), hblock])
  have hdecrypt := hplain.decrypt
  rw [← hlength, Nat.sub_self, List.drop_zero] at hdecrypt
  rw [plainFrom, List.take_zero, List.nil_append, List.drop_zero, hfirst _ hlen, ← htext,
    ← hdecrypt, hfirst _ hplain.length_iv] at hsame
  exact decryptText_iv_inj hlen hplain.length_iv hblock hsame

end

/-- The key and the initial value for decryption only. -/
def decryptionOptions : Options :=
  ⟨[], [], List.replicate 16 0, List.replicate 16 0, [], []⟩

theorem exists_open_decryption (hd : URLContext) :
    ∃ c t, cryptoOpen2 ⟨false, false⟩ (Tables.zero ⟨false, false⟩) (fun _ => zeroMalloc)
      decryptionOptions true false (.ok hd) = .ok (c, t) := by
  have hset : setAesArg zeroMalloc (List.replicate 16 0) [] = .ok (List.replicate 16 0) := rfl
  have hargs : openArgs true zeroMalloc zeroMalloc (List.replicate 16 0) (List.replicate 16 0) []
      [] = .ok (List.replicate 16 0, List.replicate 16 0) := by
    simp only [openArgs, hset, if_true, bind, Except.bind]
  obtain ⟨aes, t', haes⟩ := exists_openAes (.zero : Reached ⟨false, false⟩ _)
    (List.length_replicate (n := 16) (a := 0)) true
  unfold cryptoOpen2
  dsimp only [decryptionOptions]
  rw [hargs]
  simp only [bind, Except.bind, openArgs_false, haes, openAes_false]
  exact ⟨_, _, rfl⟩

/-- Without the option `iv` not every run on a text of two different blocks is right: otherwise
both blocks of the cipher text would be the initial value. -/
theorem OpenedRead.not_seeksRight {c₀ : CryptoContext} (hopened : OpenedRead config t o inner c₀)
    (hkey : (argument o.decryptionKey o.key).length = 16)
    (hcontent : inner.content = encryptText (argument o.decryptionKey o.key) (argument o.decryptionIv o.iv) (pkcs7 text))
    (hpos : inner.pos = 0) (hseekable : inner.seekable = true) (hlengths : ∀ k, 0 < inner.lengths k)
    (hnone : o.iv = []) (hplain : (pkcs7 text).length = 32) (hpart : 16 < text.length)
    (hblocks : (pkcs7 text).take 16 ≠ (pkcs7 text).drop 16) :
    ¬SeeksRight config t text (fun _ _ => True) c₀ := by
  intro hright
  obtain ⟨hdecodes, hcount, hreading⟩ := hopened.decodes hkey hcontent hpos
  have hhd := hopened.hd
  have hlengths' : ∀ k, 0 < c₀.hd.lengths k := by rwa [hhd]
  have hcontent' : c₀.hd.content = inner.content := by rw [hhd]
  have hseekable' : c₀.hd.seekable = true := by rwa [hhd]
  have htext : (pkcs7 text).take 16 = text.take 16 := by
    rw [pkcs7, List.take_append_of_le_length hpart.le]
  have hunread : c₀.unread = inner.content := by
    rw [CryptoContext.unread, CryptoContext.window, hopened.indata, Nat.zero_sub, slice_zero,
      URLContext.rest, hhd, hpos, List.drop_zero, List.nil_append]
  have hkeeps {c : CryptoContext} {p : Nat}
      (hrun : SeekRun config t text.length (fun _ _ => True) c₀ c p)
      (h : Reading config t (argument o.decryptionKey o.key) c₀ (argument o.decryptionIv o.iv)
        inner.content (pkcs7 text) text.length c) :
      c.decryptIv = argument o.decryptionIv o.iv :=
    hright.decryptIv_eq hrun h hlengths' hdecodes hcount hcontent' hseekable' hopened.write
      (hopened.iv.trans hnone) htext hpart.le
  -- the first read decrypts the first block
  obtain ⟨data, c₁, hread, hfirst⟩ := hreading.read_first hlengths' hopened.eof hopened.outdata
    (by rw [hunread, hcount, hplain])
  obtain ⟨r, c₂, hread', hreading₁, -⟩ := hreading.read hlengths' hdecodes 1
  obtain ⟨-, rfl⟩ := Prod.mk.inj (Option.some.inj (hread.symm.trans hread'))
  rw [hkeeps (SeekRun.start.read hread) hreading₁, hopened.decryptIv, hunread] at hfirst
  -- reads up to the end decrypt the second one
  obtain ⟨c₃, hrun₃, hreading₃, hend, -⟩ := hright.readOn .start hreading hopened.position hlengths'
    hdecodes le_rfl
  have hlast := hreading₃.decryptIv_end hdecodes (by lia) hend
  rw [hkeeps hrun₃ hreading₃] at hlast
  have hiv := hdecodes.length_iv
  have hblock : (inner.content.take 16).length = 16 := by
    rw [List.length_take]
    lia
  rw [lastBlock_of_le hiv hblock.ge, hblock, Nat.sub_self, List.drop_zero] at hfirst
  rw [lastBlock_of_le hiv (by lia), hcount, hplain] at hlast
  -- so both blocks are decrypted to the same text
  have hdecrypt := hdecodes.decrypt
  have hsplit : decryptText (argument o.decryptionKey o.key) (argument o.decryptionIv o.iv)
      (inner.content.take 16 ++ inner.content.drop 16) = _ := decryptText_append hiv (by lia)
  rw [List.take_append_drop] at hsplit
  rw [hcount, Nat.sub_self, List.drop_zero, hsplit, ← hfirst, ← hlast, lastBlock_of_le hiv hiv.ge,
    hiv, Nat.sub_self, List.drop_zero] at hdecrypt
  have hone := length_decryptText (argument o.decryptionKey o.key) hiv
    (show 16 ∣ (argument o.decryptionIv o.iv).length by lia)
  rw [hiv] at hone
  apply hblocks
  rw [← hdecrypt, List.take_left' hone, List.drop_left' hone]

/-- With the initial value for decryption only, not every run on a resource of zeros is right. -/
theorem not_seeksRight_decryptionIv : ∃ c₀ tr,
    cryptoOpen2 ⟨false, false⟩ (Tables.zero ⟨false, false⟩) (fun _ => zeroMalloc)
      decryptionOptions true false (.ok zeroResource) = .ok (c₀, tr) ∧
    ¬SeeksRight ⟨false, false⟩ tr (List.replicate 31 0) (fun _ _ => True) c₀ := by
  obtain ⟨c₀, tr, hopen⟩ := exists_open_decryption zeroResource
  exact ⟨c₀, tr, hopen, (openedRead .zero hopen).not_seeksRight (openedRead_key hopen)
    (content_zeroResource rfl rfl) rfl rfl (fun _ => Nat.one_pos) rfl (by decide) (by decide)
    (by decide)⟩

end FFmpeg.Libavformat.Crypto
