import FFmpeg.Libavformat.Nut

/-!
# Numbers and packets of NUT files

What is written is read back: a number of variable length, a signed one, and a packet
with its length and its checksums in front of and behind what it carries.
-/

namespace FFmpeg.Libavformat.Nut

open Common Libavutil Crc

/-! ## Positions in the file -/

namespace AVIOContext

variable (bc : AVIOContext)

/-- What is still to be read. -/
def rest : Bytes := bc.content.drop bc.pos

/-- The reader so many bytes further on. -/
def advance (n : Nat) : AVIOContext := { bc with pos := bc.pos + n }

@[simp] theorem advance_pos (n : Nat) : (bc.advance n).pos = bc.pos + n := rfl
@[simp] theorem advance_content (n : Nat) : (bc.advance n).content = bc.content := rfl
@[simp] theorem advance_eofReached (n : Nat) : (bc.advance n).eofReached = bc.eofReached := rfl

@[simp] theorem advance_zero : bc.advance 0 = bc := rfl

@[simp] theorem advance_advance (m n : Nat) : (bc.advance m).advance n = bc.advance (m + n) := by
  simp only [advance, Nat.add_assoc]

@[simp] theorem rest_advance (n : Nat) : (bc.advance n).rest = bc.rest.drop n := by
  simp only [rest, advance, List.drop_drop]

variable {bc}

theorem rest_advance_append {l tail : Bytes} (h : bc.rest = l ++ tail) :
    (bc.advance l.length).rest = tail := by
  rw [rest_advance, h, List.drop_left]

theorem length_le_of_rest {l tail : Bytes} (h : bc.rest = l ++ tail) :
    l.length ≤ bc.content.length - bc.pos := by
  have hlength := congrArg List.length h
  rw [rest, List.length_drop, List.length_append] at hlength
  lia

end AVIOContext

open AVIOContext

variable {bc : AVIOContext}

variable {tail : Bytes}

theorem avioR8_cons {b : UInt8} (h : bc.rest = b :: tail) : avioR8 bc = (b, bc.advance 1) := by
  have hget : bc.content[bc.pos]? = some b := by
    have hfirst := congrArg (fun l => l[0]?) h
    simpa [rest] using hfirst
  unfold avioR8
  rw [hget]
  rfl

theorem avioRB_append {l : Bytes} (h : bc.rest = l ++ tail) :
    avioRB l.length bc = (getBE l, bc.advance l.length) := by
  induction l generalizing bc with
  | nil => rfl
  | cons b l ih =>
    have hnext : (bc.advance 1).rest = l ++ tail := by
      rw [rest_advance, h]
      rfl
    rw [List.length_cons, avioRB, avioR8_cons h]
    dsimp only
    rw [ih hnext, advance_advance, Nat.add_comm 1]
    rfl

theorem avioRead_append {l : Bytes} (h : bc.rest = l ++ tail) :
    avioRead bc l.length = (l, bc.advance l.length) := by
  have hslice : slice bc.content bc.pos l.length = l := by
    rw [slice, ← rest, h, List.take_left]
  unfold avioRead
  rw [hslice]
  simp [advance]

/-! ## Numbers -/

variable {val : Nat}

theorem vLengthLoop_spec {rounds i : Nat} (h : val < 2 ^ (7 * (rounds + 1))) :
    i ≤ vLengthLoop rounds val i ∧ vLengthLoop rounds val i ≤ i + rounds ∧
      val < 2 ^ (7 * (vLengthLoop rounds val i - i + 1)) := by
  induction rounds generalizing val i with
  | zero => exact ⟨Nat.le_refl i, Nat.le_refl i, by rw [vLengthLoop, Nat.sub_self]; exact h⟩
  | succ rounds ih =>
    unfold vLengthLoop
    by_cases hmore : val >>> 7 ≠ 0
    · rw [if_pos hmore]
      have hshift : val >>> 7 < 2 ^ (7 * (rounds + 1)) := by
        rw [Nat.shiftRight_eq_div_pow]
        apply Nat.div_lt_of_lt_mul
        rwa [← Nat.pow_add, Nat.add_comm 7, ← Nat.mul_succ]
      obtain ⟨hlow, hhigh, hlt⟩ := ih (i := i + 1) hshift
      refine ⟨by lia, by lia, ?_⟩
      have hexp : 7 * (vLengthLoop rounds (val >>> 7) (i + 1) - i + 1) =
          7 * (vLengthLoop rounds (val >>> 7) (i + 1) - (i + 1) + 1) + 7 := by lia
      have hdiv := Nat.shiftRight_eq_div_pow val 7
      rw [hexp, Nat.pow_add]
      generalize 2 ^ (7 * (vLengthLoop rounds (val >>> 7) (i + 1) - (i + 1) + 1)) = bound at hlt ⊢
      rw [hdiv] at hlt
      exact (Nat.div_lt_iff_lt_mul (by norm_num)).mp hlt
    · rw [if_neg hmore, Nat.sub_self]
      rw [not_not, Nat.shiftRight_eq_div_pow, Nat.div_eq_zero_iff] at hmore
      refine ⟨Nat.le_refl i, Nat.le_add_right i _, ?_⟩
      lia

theorem lt_getVLength (h : val < 2 ^ 64) :
    1 ≤ getVLength val ∧ getVLength val ≤ 10 ∧ val < 2 ^ (7 * getVLength val) := by
  have hwide : val < 2 ^ (7 * (9 + 1)) := h.trans (by norm_num)
  obtain ⟨hlow, hhigh, hlt⟩ := vLengthLoop_spec (i := 1) hwide
  refine ⟨hlow, hhigh, ?_⟩
  have hlength : vLengthLoop 9 val 1 - 1 + 1 = getVLength val := Nat.sub_add_cancel hlow
  rwa [hlength] at hlt

@[simp] theorem length_putVLoop (i val : Nat) : (putVLoop i val).length = i + 1 := by
  induction i with
  | zero => rfl
  | succ i ih => rw [putVLoop, List.length_cons, ih]

theorem length_putV (h : val < 2 ^ 64) : (putV val).length = getVLength val := by
  have hpos := (lt_getVLength h).1
  rw [putV, length_putVLoop]
  lia

theorem and_of_or (b : UInt8) :
    ((128 ||| b) &&& 127).toNat = b.toNat % 128 ∧ (128 ||| b) &&& 128 ≠ 0 :=
  forall_byte (p := fun b => ((128 ||| b) &&& 127).toNat = b.toNat % 128 ∧ (128 ||| b) &&& 128 ≠ 0)
    (by decide +kernel) b

theorem and_of_lt (b : UInt8) (h : b.toNat < 128) : (b &&& 127).toNat = b.toNat ∧ b &&& 128 = 0 :=
  forall_byte (p := fun b => b.toNat < 128 → (b &&& 127).toNat = b.toNat ∧ b &&& 128 = 0)
    (by decide +kernel) b h

/-- A number is read in groups of seven bits; the induction is on the bytes to come. -/
theorem readVarlenLoop_putVLoop (hval : val < 2 ^ 64) {i rounds : Nat} (hrounds : i < rounds)
    (h : bc.rest = putVLoop i val ++ tail) :
    readVarlenLoop rounds (val >>> (7 * (i + 1))) bc = (val, bc.advance (i + 1)) := by
  induction i generalizing rounds bc with
  | zero =>
    obtain ⟨rounds, rfl⟩ := Nat.exists_eq_add_of_le' hrounds
    have hbyte : (UInt8.ofNat (val &&& 127)).toNat = val % 128 := by
      rw [UInt8.toNat_ofNat', show (127 : Nat) = 2 ^ 7 - 1 from rfl, Nat.and_two_pow_sub_one_eq_mod]
      lia
    obtain ⟨hlow, hlast⟩ := and_of_lt (UInt8.ofNat (val &&& 127)) (by rw [hbyte]; lia)
    have hsum : (val >>> (7 * (0 + 1))) <<< 7 + val % 128 = val := by
      rw [Nat.shiftRight_eq_div_pow, Nat.shiftLeft_eq]
      lia
    rw [readVarlenLoop, avioR8_cons h]
    dsimp only
    rw [hlow, hbyte, hsum, Nat.mod_eq_of_lt hval, if_neg (not_not.mpr hlast)]
  | succ i ih =>
    obtain ⟨rounds, rfl⟩ := Nat.exists_eq_add_of_le' (show 1 ≤ rounds by lia)
    have hnext : (bc.advance 1).rest = putVLoop i val ++ tail := by
      rw [rest_advance, h]
      rfl
    obtain ⟨hlow, hmore⟩ := and_of_or (UInt8.ofNat (val >>> (7 * (i + 1))))
    have hbyte : (UInt8.ofNat (val >>> (7 * (i + 1)))).toNat % 128 = val >>> (7 * (i + 1)) % 128 :=
        by
      rw [UInt8.toNat_ofNat']
      lia
    have hsum : (val >>> (7 * (i + 1 + 1))) <<< 7 + val >>> (7 * (i + 1)) % 128 =
        val >>> (7 * (i + 1)) := by
      rw [Nat.mul_succ 7 (i + 1), Nat.shiftRight_add, Nat.shiftRight_eq_div_pow _ 7,
        Nat.shiftLeft_eq]
      lia
    have hlt : val >>> (7 * (i + 1)) < 2 ^ 64 :=
      Nat.lt_of_le_of_lt (Nat.shiftRight_le val _) hval
    rw [readVarlenLoop, avioR8_cons h]
    dsimp only
    rw [hlow, hbyte, hsum, Nat.mod_eq_of_lt hlt, if_pos hmore, ih (by lia) hnext, advance_advance,
      Nat.add_comm 1]

/-- **A number that is written is read back.** -/
theorem ffioReadVarlen_putV (hval : val < 2 ^ 64) (h : bc.rest = putV val ++ tail) :
    ffioReadVarlen bc = (val, bc.advance (putV val).length) := by
  obtain ⟨hpos, -, hlt⟩ := lt_getVLength hval
  have hlength := length_le_of_rest h
  rw [putV, length_putVLoop] at hlength
  have hzero : val >>> (7 * (getVLength val - 1 + 1)) = 0 := by
    rw [Nat.sub_add_cancel hpos, Nat.shiftRight_eq_div_pow, Nat.div_eq_of_lt hlt]
  have hread := readVarlenLoop_putVLoop hval
    (show getVLength val - 1 < bc.content.length - bc.pos + 1 by lia) h
  rw [hzero] at hread
  rw [ffioReadVarlen, hread, putV, length_putVLoop]

theorem getS_putS {val : Int} (hlow : -2 ^ 62 < val) (hhigh : val < 2 ^ 62)
    (h : bc.rest = putS val ++ tail) : getS bc = (val, bc.advance (putS val).length) := by
  have habs := abs_cases val
  obtain ⟨n, hn⟩ : ∃ n, n = toUnsigned 64 (2 * |val| - if val > 0 then 1 else 0) := ⟨_, rfl⟩
  have hval : (n : Int) = 2 * |val| - if val > 0 then 1 else 0 := by
    rw [hn, toUnsigned, Int.toNat_of_nonneg (Int.emod_nonneg _ (by norm_num))]
    apply Int.emod_eq_of_lt
    · split_ifs <;> lia
    · split_ifs <;> lia
  have hlt : n < 2 ^ 64 := by
    split_ifs at hval <;> lia
  have hsigned : toSigned 64 (n + 1) = n + 1 := by
    rw [toSigned]
    apply Int.bmod_eq_of_le
    · lia
    · split_ifs at hval <;> lia
  -- the numbers go 0, 1, -1, 2, -2 and so on
  have hsplit : (if ((n : Int) + 1) % 2 = 1 then -(((n : Int) + 1) / 2) else ((n : Int) + 1) / 2) =
      val := by
    split_ifs at hval <;> split_ifs <;> lia
  rw [putS, ← hn] at h ⊢
  unfold getS
  rw [ffioReadVarlen_putV hlt h]
  dsimp only
  rw [hsigned, hsplit]

/-! ## Checksums -/

/-- The checksum runs from a value over bytes that have been read. -/
structure Checks (bc : AVIOContext) (crc : BitVec 32) (l : Bytes) : Prop where
  update : bc.updateChecksum = true
  checksum : bc.checksum = crc
  le_pos : bc.checksumPtr ≤ bc.pos
  bytes : slice bc.content bc.checksumPtr (bc.pos - bc.checksumPtr) = l

theorem checks_init (bc : AVIOContext) (crc : BitVec 32) :
    Checks (ffioInitChecksum bc true crc) crc [] :=
  ⟨rfl, rfl, le_rfl, by
    show slice bc.content bc.pos (bc.pos - bc.pos) = []
    rw [Nat.sub_self, slice_zero]⟩

variable {crc : BitVec 32}

theorem Checks.advance {l l' : Bytes} (h : Checks bc crc l) (hrest : bc.rest = l' ++ tail) :
    Checks (bc.advance l'.length) crc (l ++ l') := by
  have hle := h.le_pos
  refine ⟨h.update, h.checksum, Nat.le_add_right_of_le hle, ?_⟩
  show slice bc.content bc.checksumPtr (bc.pos + l'.length - bc.checksumPtr) = _
  have hnext : slice bc.content bc.pos l'.length = l' := by
    rw [slice, ← rest, hrest, List.take_left]
  rw [Nat.sub_add_comm hle, slice_add, h.bytes, Nat.add_sub_cancel' hle, hnext]

/-- The reader whose checksum has been taken. -/
def AVIOContext.taken (bc : AVIOContext) (crc : BitVec 32) : AVIOContext :=
  { bc with updateChecksum := false, checksum := crc }

theorem Checks.get {l : Bytes} (h : Checks bc crc l) :
    ffioGetChecksum bc = some (avCrc avCrc32Ieee 0 crc l, bc.taken (avCrc avCrc32Ieee 0 crc l)) :=
        by
  unfold ffioGetChecksum
  rw [if_pos h.update, h.bytes, h.checksum]
  rfl

theorem avCrc_append (crc : BitVec 32) (l l' : Bytes) :
    avCrc avCrc32Ieee 0 crc (l ++ l') = avCrc avCrc32Ieee 0 (avCrc avCrc32Ieee 0 crc l) l' := by
  simp only [linear_avCrc32Ieee.avCrc_eq, List.foldl_append]

theorem avCrc_checksum (l : Bytes) : avCrc avCrc32Ieee 0 0#32 (l ++ putLE 4 (checksum l)) = 0#32 :=
    by
  rw [avCrc_append, checksum]
  exact linear_avCrc32Ieee.avCrc_self 0 _

/-! ## Packets -/

theorem length_checksum (l : Bytes) : (putLE 4 (checksum l)).length = 4 := length_putLE 4 _

/-- What is behind the start code of a packet up to what the packet carries. -/
def packetLength (startcode size : Nat) : Bytes :=
  putV size ++ if size > 4096 then putLE 4 (checksum (putBE 8 startcode ++ putV size)) else []

theorem putPacket_eq (dynBuf : Bytes) (startcode : Nat) :
    putPacket dynBuf startcode = putBE 8 startcode ++ (packetLength startcode (dynBuf.length + 4) ++
      (dynBuf ++ putLE 4 (checksum dynBuf))) := by
  unfold putPacket packetLength
  simp only [List.append_assoc]

/-- **The length of a packet is read, and its checksum agrees.** -/
theorem getPacketheader_packetLength {startcode size : Nat} (hsize : size < 2 ^ 31)
    (h : bc.rest = packetLength startcode size ++ tail) :
    ∃ bc', getPacketheader bc true startcode = some ((size : Int), bc') ∧
      Checks bc' 0#32 [] ∧ bc'.rest = tail ∧ bc'.content = bc.content ∧
      bc'.pos = bc.pos + (packetLength startcode size).length ∧ bc'.eofReached = bc.eofReached := by
  obtain ⟨start, hstart⟩ : ∃ start, start = avCrc avCrc32Ieee 0 0#32 (putBE 8 startcode) := ⟨_, rfl⟩
  have hsigned : toSigned 64 size = size := Int.bmod_eq_of_le (by lia) (by lia)
  have hsigned' : toSigned 32 size = size := Int.bmod_eq_of_le (by lia) (by lia)
  have hchecks := checks_init bc start
  have hrest : (ffioInitChecksum bc true start).rest = bc.rest := rfl
  rw [packetLength, List.append_assoc] at h
  have hread := ffioReadVarlen_putV (show size < 2 ^ 64 by lia) (hrest.trans h)
  have hchecks := hchecks.advance (hrest.trans h)
  have hbehind : ((ffioInitChecksum bc true start).advance (putV size).length).rest = _ :=
    rest_advance_append (hrest.trans h)
  unfold getPacketheader
  rw [← hstart]
  dsimp only
  rw [hread]
  dsimp only
  rw [hsigned, hsigned']
  rw [List.nil_append] at hchecks
  by_cases hlong : size > 4096
  · have hlong' : (size : Int) > 4096 := by lia
    rw [if_pos hlong] at hbehind
    have hskip := avioRB_append hbehind
    rw [length_checksum] at hskip
    have hchecks := hchecks.advance hbehind
    rw [length_checksum] at hchecks
    have hzero : avCrc avCrc32Ieee 0 start
        (putV size ++ putLE 4 (checksum (putBE 8 startcode ++ putV size))) = 0#32 := by
      rw [hstart, ← avCrc_append, ← List.append_assoc, avCrc_checksum]
    have hlength : (packetLength startcode size).length = (putV size).length + 4 := by
      rw [packetLength, if_pos hlong, List.length_append, length_checksum]
    rw [if_pos hlong', hskip]
    dsimp only
    rw [hchecks.get, hzero, Option.bind_eq_bind, Option.bind_some, if_neg fun h => h.1 rfl]
    refine ⟨_, rfl, checks_init _ _, ?_, rfl, ?_, rfl⟩
    · have htail := rest_advance_append hbehind
      rw [length_checksum] at htail
      exact htail
    · rw [hlength, ← Nat.add_assoc]
      rfl
  · have hlong' : ¬ (size : Int) > 4096 := by lia
    rw [if_neg hlong, List.nil_append] at hbehind
    have hlength : (packetLength startcode size).length = (putV size).length := by
      rw [packetLength, if_neg hlong, List.append_nil]
    rw [if_neg hlong', hchecks.get, Option.bind_eq_bind, Option.bind_some,
      if_neg fun h => hlong' h.2]
    exact ⟨_, rfl, checks_init _ _, hbehind, rfl, by rw [hlength]; rfl, rfl⟩

theorem skipBytes_eq {l : Bytes} (heof : bc.eofReached = false) (h : bc.rest = l ++ tail) :
    skipBytes l.length bc = (true, bc.advance l.length) := by
  induction l generalizing bc with
  | nil => rfl
  | cons b l ih =>
    have hnext : (bc.advance 1).rest = l ++ tail := by
      rw [rest_advance, h]
      rfl
    rw [List.length_cons, skipBytes, if_neg (by rw [heof]; decide), avioR8_cons h]
    dsimp only
    rw [ih (by exact heof) hnext, advance_advance, Nat.add_comm 1]

/-- **The end of a packet**: what is left of it is skipped, and the checksum agrees. -/
theorem packet_end {dynBuf done left : Bytes} (hchecks : Checks bc 0#32 done)
    (hdyn : dynBuf = done ++ left) (heof : bc.eofReached = false)
    (h : bc.rest = left ++ (putLE 4 (checksum dynBuf) ++ tail)) :
    ∃ bc', skipReserved bc (bc.pos + (left.length + 4)) = (true, bc.advance (left.length + 4)) ∧
      ffioGetChecksum (bc.advance (left.length + 4)) = some (0#32, bc') ∧
      bc'.content = bc.content ∧ bc'.pos = bc.pos + (left.length + 4) ∧ bc'.rest = tail := by
  have hlength : (left ++ putLE 4 (checksum dynBuf)).length = left.length + 4 := by
    rw [List.length_append, length_checksum]
  have hrest : bc.rest = (left ++ putLE 4 (checksum dynBuf)) ++ tail := by
    rw [h, List.append_assoc]
  have hget := (hchecks.advance hrest).get
  rw [hlength, ← List.append_assoc, ← hdyn, avCrc_checksum] at hget
  refine ⟨_, ?_, hget, rfl, rfl, ?_⟩
  · have hskip := skipBytes_eq heof hrest
    rw [hlength] at hskip
    have hcount : ((bc.pos + (left.length + 4) : Int) - bc.pos).toNat = left.length + 4 := by lia
    unfold skipReserved
    rw [if_neg (by lia), hcount, hskip]
  · show (bc.advance (left.length + 4)).rest = tail
    rw [← hlength]
    exact rest_advance_append hrest

end FFmpeg.Libavformat.Nut
