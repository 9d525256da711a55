import Mathlib.Tactic
import FFmpeg.Common.Run
import FFmpeg.Libavformat.Srtp

/-!
# Decrypting what was encrypted

A receiver that holds the largest index it has seen recovers the rollover counter
of every packet that is less than half a cycle away, and with it the initial value
of the cipher.  The authentication tag, however, is checked under the counter
after the packet, so that a packet of the cycle before is only accepted when the
tags under both counters agree.
-/

namespace FFmpeg.Libavformat.Srtp

open Common Libavutil

variable (crypto : Crypto)

/-! ## The stream cipher -/

theorem length_xorBytes {dst src : Bytes} (h : dst.length ≤ src.length) :
    (xorBytes dst src).length = dst.length := by
  rw [xorBytes, List.length_zipWith, Nat.min_eq_left h]

theorem xorBytes_xorBytes {dst src : Bytes} (h : dst.length ≤ src.length) :
    xorBytes (xorBytes dst src) src = dst := by
  induction dst generalizing src with
  | nil => rfl
  | cons a dst ih =>
    cases src with
    | nil => simp at h
    | cons b src =>
      have hrest := ih (Nat.le_of_succ_le_succ h)
      simp only [xorBytes, List.zipWith_cons_cons, List.cons.injEq] at hrest ⊢
      refine ⟨?_, hrest⟩
      rw [UInt8.xor_assoc, UInt8.xor_self, UInt8.xor_zero]

theorem length_keystream (key iv : Bytes) (blocks : Nat) :
    (keystream crypto key iv blocks).length = 16 * blocks := by
  induction blocks with
  | zero => rfl
  | succ n ih =>
    rw [keystream, List.range_succ, List.flatMap_append, List.length_append]
    rw [keystream] at ih
    simp [ih, crypto.length_aes]
    lia

theorem length_le_keystream (key iv outbuf : Bytes) :
    outbuf.length ≤ (keystream crypto key iv ((outbuf.length + 15) / 16)).length := by
  rw [length_keystream]
  lia

@[simp] theorem length_encryptCounter (key iv outbuf : Bytes) :
    (encryptCounter crypto key iv outbuf).length = outbuf.length :=
  length_xorBytes (length_le_keystream crypto key iv outbuf)

theorem encryptCounter_encryptCounter (key iv outbuf : Bytes) :
    encryptCounter crypto key iv (encryptCounter crypto key iv outbuf) = outbuf := by
  have hle := length_le_keystream crypto key iv outbuf
  rw [encryptCounter, length_encryptCounter, encryptCounter, xorBytes_xorBytes hle]

/-! ## Packets with the same header -/

variable {buf : Bytes} {offset : Nat}

theorem rb_congr {out : Bytes} {n width : Nat} (h : out.take n = buf.take n)
    (hn : offset + width ≤ n) : rb width out offset = rb width buf offset := by
  have hslice (l : Bytes) : slice l offset width = slice (l.take n) offset width := by
    rw [slice, slice, List.drop_take, List.take_take, Nat.min_eq_left (by lia)]
  rw [rb, rb, hslice out, hslice buf, h]

theorem getD_congr {out : Bytes} {n i : Nat} (h : out.take n = buf.take n) (hi : i < n) :
    out.getD i 0 = buf.getD i 0 := by
  have hget (l : Bytes) : l.getD i 0 = (l.take n).getD i 0 := by
    rw [List.getD_eq_getElem?_getD, List.getD_eq_getElem?_getD, List.getElem?_take, if_pos hi]
  rw [hget out, hget buf, h]

theorem payloadOffset_bounds (h : payloadOffset buf = .ok offset) :
    12 ≤ offset ∧ offset ≤ buf.length := by
  unfold payloadOffset at h
  dsimp only at h
  split_ifs at h <;> injection h with h <;> lia

theorem payloadOffset_congr {out : Bytes} (h : payloadOffset buf = .ok offset)
    (hout : out.take offset = buf.take offset) (hlength : out.length = buf.length) :
    payloadOffset out = .ok offset := by
  obtain ⟨hle, _⟩ := payloadOffset_bounds h
  have hfirst : out.getD 0 0 = buf.getD 0 0 := getD_congr hout (by lia)
  unfold payloadOffset at h ⊢
  dsimp only at h ⊢
  rw [hfirst, hlength]
  generalize 12 + 4 * (buf.getD 0 0 &&& 0x0f).toNat = start at h ⊢
  split_ifs at h with hcsrc hext hshort hlong
  · -- the length of the extension lies before the payload
    injection h with hoffset
    have hext' : rb 2 out (start + 2) = rb 2 buf (start + 2) := rb_congr hout (by lia)
    rw [if_neg hcsrc, if_pos hext, if_neg hshort, hext', if_neg hlong, hoffset]
  · rw [if_neg hcsrc, if_neg hext]
    exact h

variable {index : Nat}

/-- Decryption under the index of encryption gives the packet back. -/
theorem cryptRtp_cryptRtp {k : SRTPKeys} {out : Bytes} (h : cryptRtp crypto k index buf = .ok out) :
    cryptRtp crypto k index out = .ok buf ∧ out.length = buf.length ∧
      out.take 12 = buf.take 12 := by
  unfold cryptRtp at h
  cases hp : payloadOffset buf with
  | error e =>
    rw [hp] at h
    cases h
  | ok offset =>
    rw [hp] at h
    injection h with h
    obtain ⟨hge, hle⟩ := payloadOffset_bounds hp
    have hhead : (buf.take offset).length = offset := by
      rw [List.length_take, Nat.min_eq_left hle]
    have hlength : out.length = buf.length := by
      rw [← h, List.length_append, hhead, length_encryptCounter, List.length_drop]
      lia
    have htake : out.take offset = buf.take offset := by
      rw [← h, List.take_left' hhead]
    have hdrop : out.drop offset = encryptCounter crypto k.rtpKey
        (createIv k.rtpSalt index (rb 4 buf 8)) (buf.drop offset) := by
      rw [← h, List.drop_left' hhead]
    have hssrc : rb 4 out 8 = rb 4 buf 8 := rb_congr htake (by lia)
    refine ⟨?_, hlength, ?_⟩
    · simp only [cryptRtp, payloadOffset_congr hp htake hlength]
      rw [hdrop, hssrc, encryptCounter_encryptCounter, htake, List.take_append_drop]
    · have h12 := congrArg (List.take 12) htake
      rwa [List.take_take, List.take_take, Nat.min_eq_left hge] at h12

theorem cryptRtp_ok (k : SRTPKeys) (index : Nat) (h : payloadOffset buf = .ok offset) :
    ∃ out, cryptRtp crypto k index buf = .ok out := by
  simp only [cryptRtp, h]
  exact ⟨_, rfl⟩

/-! ## The rollover counter -/

/-- The cycle of an index, as the 32-bit counter has it. -/
def rocOf (index : Nat) : Nat := index / 65536 % 2 ^ 32

/-- The receiver has seen packets up to the index `largest`, or none at all and
expects this one first. -/
def Tracks (s : SRTPContext) (largest : Nat) : Prop :=
  s.roc = rocOf largest ∧
    if s.seqInitialized then s.seqLargest = largest % 65536 else largest < 65536

variable {s : SRTPContext}

/-- The estimate for a packet less than half a cycle away: the counter of the packet
is found exactly, and the one kept is that of the largest index. -/
theorem estimate_eq {largest : Nat} (h : Tracks s largest)
    (hfirst : s.seqInitialized = false → index = largest) (hlt : index < largest + 32768)
    (hgt : largest < index + 32768) :
    estimate s (index % 65536) =
      ⟨rocOf index, rocOf (max largest index), max largest index % 65536⟩ := by
  obtain ⟨hroc, hseq⟩ := h
  have hlargest : (if s.seqInitialized = true then s.seqLargest else index % 65536) =
      largest % 65536 := by
    split at hseq
    · next hinit => rw [if_pos hinit, hseq]
    · next hinit => rw [if_neg hinit, hfirst (by simpa using hinit)]
  unfold estimate
  dsimp only
  rw [hlargest, hroc]
  unfold rocOf
  by_cases hlow : largest % 65536 < 32768
  · rw [if_pos hlow]
    by_cases holder : 32768 + largest % 65536 < index % 65536
    · -- a packet of the cycle before
      have hcycle : index / 65536 + 1 = largest / 65536 := by lia
      have hmax : max largest index = largest := by lia
      rw [if_pos holder, hmax, ← hcycle]
      generalize index / 65536 = c
      have hback : ((c + 1) % 2 ^ 32 + 2 ^ 32 - 1) % 2 ^ 32 = c % 2 ^ 32 := by lia
      rw [hback, if_neg (by lia), if_neg (by lia)]
    · have hcycle : index / 65536 = largest / 65536 := by lia
      have hmax : max largest index / 65536 = largest / 65536 := by lia
      have hseq' : max (largest % 65536) (index % 65536) = max largest index % 65536 := by lia
      rw [if_neg holder, if_pos rfl, hcycle, hmax, hseq']
  · rw [if_neg hlow]
    by_cases hnewer : index % 65536 + 32768 < largest % 65536
    · -- a packet of the next cycle
      have hcycle : index / 65536 = largest / 65536 + 1 := by lia
      have hmax : max largest index = index := by lia
      rw [if_pos hnewer, hmax, hcycle]
      generalize largest / 65536 = c
      have hnext : (c % 2 ^ 32 + 1) % 2 ^ 32 = (c + 1) % 2 ^ 32 := by lia
      rw [hnext, if_neg (by lia), if_pos rfl]
    · have hcycle : index / 65536 = largest / 65536 := by lia
      have hmax : max largest index / 65536 = largest / 65536 := by lia
      have hseq' : max (largest % 65536) (index % 65536) = max largest index % 65536 := by lia
      rw [if_neg hnewer, if_pos rfl, hcycle, hmax, hseq']

/-! ## One packet -/

/-- An RTP packet with a complete header. -/
structure WellFormed (pkt : Bytes) : Prop where
  rtp : rtpPtIsRtcp (pkt.getD 1 0) = false
  header : ∃ offset, payloadOffset pkt = .ok offset

variable {pkt : Bytes}

theorem WellFormed.length_le (h : WellFormed pkt) : 12 ≤ pkt.length := by
  obtain ⟨offset, hoffset⟩ := h.header
  have := payloadOffset_bounds hoffset
  lia

/-- The protected packet of this index before its tag. -/
def sealedBody (k : SRTPKeys) (index : Nat) (pkt : Bytes) : Bytes :=
  (cryptRtp crypto k (packetIndex (index % 65536) (rocOf index)) pkt).toOption.getD []

/-- The protected packet of this index. -/
def sealPacket (k : SRTPKeys) (index : Nat) (pkt : Bytes) : Bytes :=
  sealedBody crypto k index pkt ++ rtpTag crypto k (sealedBody crypto k index pkt) (rocOf index)

theorem cryptRtp_sealedBody (k : SRTPKeys) (index : Nat) (h : WellFormed pkt) :
    cryptRtp crypto k (packetIndex (index % 65536) (rocOf index)) pkt =
      .ok (sealedBody crypto k index pkt) := by
  obtain ⟨offset, hoffset⟩ := h.header
  obtain ⟨out, hout⟩ := cryptRtp_ok crypto k (packetIndex (index % 65536) (rocOf index)) hoffset
  rw [sealedBody, hout]
  rfl

/-- The sender is about to use the counter of this index. -/
def Sends (s : SRTPContext) (index : Nat) : Prop :=
  (if index % 65536 < s.seqLargest then (s.roc + 1) % 2 ^ 32 else s.roc) = rocOf index

variable {outlen : Nat}

theorem ffSrtpEncrypt_eq (h : Sends s index) (hpkt : WellFormed pkt)
    (hseq : rb 2 pkt 2 = index % 65536) (houtlen : pkt.length + s.rtpHmacSize ≤ outlen) :
    ffSrtpEncrypt crypto s pkt outlen = (.ok (sealPacket crypto s.toSRTPKeys index pkt),
      { s with roc := rocOf index, seqLargest := index % 65536 }) := by
  have hlength := hpkt.length_le
  unfold ffSrtpEncrypt
  simp only [hpkt.rtp, Bool.false_eq_true, if_false]
  rw [if_neg (by lia), if_neg (by lia)]
  unfold encryptRtp
  rw [if_neg (by lia)]
  unfold Sends at h
  simp only [hseq, h, cryptRtp_sealedBody crypto s.toSRTPKeys index hpkt, sealPacket]

theorem sends_succ (s : SRTPContext) (index : Nat) :
    Sends { s with roc := rocOf index, seqLargest := index % 65536 } (index + 1) := by
  unfold Sends rocOf
  dsimp only
  split <;> lia

/-- The tag of the packet is also that under the counter the receiver keeps. -/
def TagsAgree (k : SRTPKeys) (largest index : Nat) (pkt : Bytes) : Prop :=
  rtpTag crypto k (sealedBody crypto k index pkt) (rocOf (max largest index)) =
    rtpTag crypto k (sealedBody crypto k index pkt) (rocOf index)

/-- `ff_srtp_decrypt` restores a sealed packet less than half a cycle away if the tags
agree, and rejects it without a trace otherwise. -/
theorem ffSrtpDecrypt_sealPacket {largest : Nat} (h : Tracks s largest) (hsize : s.rtpHmacSize ≤ 20)
    (hfirst : s.seqInitialized = false → index = largest) (hlt : index < largest + 32768)
    (hgt : largest < index + 32768) (hpkt : WellFormed pkt) (hseq : rb 2 pkt 2 = index % 65536) :
    (TagsAgree crypto s.toSRTPKeys largest index pkt →
      ffSrtpDecrypt crypto s (sealPacket crypto s.toSRTPKeys index pkt) = (.ok pkt,
        { s with
          seqInitialized := true
          seqLargest := max largest index % 65536
          roc := rocOf (max largest index) })) ∧
    (¬ TagsAgree crypto s.toSRTPKeys largest index pkt →
      ffSrtpDecrypt crypto s (sealPacket crypto s.toSRTPKeys index pkt) =
        (.error .invalidData, s)) := by
  have hcrypt := cryptRtp_sealedBody crypto s.toSRTPKeys index hpkt
  obtain ⟨hback, hlength, hhead⟩ := cryptRtp_cryptRtp crypto hcrypt
  unfold TagsAgree sealPacket
  generalize sealedBody crypto s.toSRTPKeys index pkt = body at *
  have hpktlen := hpkt.length_le
  obtain ⟨tag, htag⟩ : ∃ tag, tag = rtpTag crypto s.toSRTPKeys body (rocOf index) := ⟨_, rfl⟩
  have htaglen : tag.length = s.rtpHmacSize := by
    rw [htag, rtpTag, List.length_take, crypto.length_hmacSha1, Nat.min_eq_left hsize]
  have hlen : (body ++ tag).length - s.rtpHmacSize = body.length := by
    rw [List.length_append, htaglen]
    lia
  have hheader : (body ++ tag).take 12 = pkt.take 12 := by
    rw [List.take_append_of_le_length (by lia), hhead]
  have hrtcp : rtpPtIsRtcp ((body ++ tag).getD 1 0) = false := by
    rw [getD_congr hheader (by lia), hpkt.rtp]
  have hseq' : rb 2 (body ++ tag) 2 = index % 65536 := by
    rw [rb_congr hheader (by lia), hseq]
  have hdecrypt : ffSrtpDecrypt crypto s (body ++ tag) =
      if rtpTag crypto s.toSRTPKeys body (rocOf (max largest index)) ≠ tag then
        (.error .invalidData, s)
      else (.ok pkt, { s with
        seqInitialized := true
        seqLargest := max largest index % 65536
        roc := rocOf (max largest index) }) := by
    unfold ffSrtpDecrypt
    have hge : s.rtpHmacSize ≤ (body ++ tag).length := by
      rw [List.length_append]
      lia
    simp only [hrtcp, Bool.false_eq_true, if_false]
    rw [if_neg (by rw [List.length_append]; lia), if_neg (by lia)]
    unfold decryptRtp
    simp only [hlen, hseq', estimate_eq h hfirst hlt hgt, List.take_left, List.drop_left]
    rw [if_neg (show ¬ body.length < 12 by lia), hback]
  rw [← htag]
  constructor
  · intro hagree
    rw [hdecrypt, if_neg (not_not.mpr hagree)]
  · intro hagree
    rw [hdecrypt, if_pos hagree]

/-! ## Runs -/

/-- Well-formed packets with consecutive sequence numbers from an index on, short
enough for the output buffer. -/
structure Consecutive (hmacSize outlen first : Nat) (pkts : List Bytes) : Prop where
  wellFormed : ∀ pkt ∈ pkts, WellFormed pkt
  fits : ∀ pkt ∈ pkts, pkt.length + hmacSize ≤ outlen
  seq_eq : ∀ i pkt, pkts[i]? = some pkt → rb 2 pkt 2 = (first + i) % 65536

variable {pkts : List Bytes}

theorem Consecutive.tail {hmacSize first : Nat}
    (h : Consecutive hmacSize outlen first (pkt :: pkts)) :
    Consecutive hmacSize outlen (first + 1) pkts where
  wellFormed := fun p hp => h.wellFormed p (List.mem_cons_of_mem pkt hp)
  fits := fun p hp => h.fits p (List.mem_cons_of_mem pkt hp)
  seq_eq := by
    intro i p hp
    have := h.seq_eq (i + 1) p (by rwa [List.getElem?_cons_succ])
    rw [this]
    congr 1
    lia

theorem protectAll_getElem? {first : Nat} (h : Sends s first)
    (hpkts : Consecutive s.rtpHmacSize outlen first pkts) (i : Nat) :
    (protectAll crypto outlen s pkts)[i]? =
      pkts[i]?.map (sealPacket crypto s.toSRTPKeys (first + i)) := by
  induction pkts generalizing s first i with
  | nil => rfl
  | cons pkt pkts ih =>
    have hmem : pkt ∈ pkt :: pkts := List.mem_cons_self
    have hseal := ffSrtpEncrypt_eq crypto h (hpkts.wellFormed pkt hmem)
      (hpkts.seq_eq 0 pkt rfl) (hpkts.fits pkt hmem)
    unfold protectAll
    rw [hseal]
    cases i with
    | zero => rfl
    | succ i =>
      have hrest := ih (sends_succ s first) hpkts.tail i
      rw [List.getElem?_cons_succ, List.getElem?_cons_succ]
      rw [show first + (i + 1) = first + 1 + i by lia]
      exact hrest

/-- Every packet of the delivery order is less than half a cycle away from the largest
one so far. -/
def Window (largest : Nat) (order : List Nat) : Prop :=
  EachStep max (fun largest k => k < largest + 32768 ∧ largest < k + 32768) largest order

/-- A packet is of the cycle of the largest one so far, or of a later one, unless its
tags under both counters happen to agree. -/
def Accepted (k : SRTPKeys) (first : Nat) (pkts : List Bytes) (largest i : Nat) : Prop :=
  (first + largest) / 65536 ≤ (first + i) / 65536 ∨
    TagsAgree crypto k (first + largest) (first + i) (pkts.getD i [])

theorem tagsAgree_iff_accepted (k : SRTPKeys) (first : Nat) (pkts : List Bytes)
    (largest i : Nat) :
    TagsAgree crypto k (first + largest) (first + i) (pkts.getD i []) ↔
      Accepted crypto k first pkts largest i := by
  constructor
  · exact Or.inr
  · intro h
    rcases h with hcycle | hagree
    · have hmax : rocOf (max (first + largest) (first + i)) = rocOf (first + i) := by
        unfold rocOf
        congr 1
        lia
      rw [TagsAgree, hmax]
    · exact hagree

/-- A receiver restores the packets exactly if each is `Accepted`; one that has seen no
packet starts with the largest one. -/
theorem unprotectAll_iff {first largest : Nat} {order : List Nat} (h : Tracks s (first + largest))
    (hstart : s.seqInitialized = false → ∀ i, order.head? = some i → i = largest)
    (hsize : s.rtpHmacSize ≤ 20) (hpkts : Consecutive s.rtpHmacSize outlen first pkts)
    (horder : ∀ i ∈ order, i < pkts.length) (hwindow : Window largest order) :
    unprotectAll crypto s (order.map fun i =>
        sealPacket crypto s.toSRTPKeys (first + i) (pkts.getD i [])) =
      order.map (fun i => .ok (pkts.getD i [])) ↔
    EachStep max (Accepted crypto s.toSRTPKeys first pkts) largest order := by
  induction order generalizing s largest with
  | nil => simp [unprotectAll]
  | cons i order ih =>
    have hi : pkts[i]? = some (pkts.getD i []) := by
      rw [List.getD_eq_getElem?_getD,
        List.getElem?_eq_getElem (horder i List.mem_cons_self), Option.getD_some]
    obtain ⟨⟨hlt, hgt⟩, hrest⟩ := hwindow
    obtain ⟨haccept, hreject⟩ := ffSrtpDecrypt_sealPacket crypto h hsize
      (fun hinit => by rw [hstart hinit i rfl])
      (by lia) (by lia) (hpkts.wellFormed _ (List.mem_of_getElem? hi)) (hpkts.seq_eq i _ hi)
    rw [List.map_cons, List.map_cons, eachStep_cons, unprotectAll,
      ← tagsAgree_iff_accepted crypto s.toSRTPKeys first pkts]
    by_cases hagree : TagsAgree crypto s.toSRTPKeys (first + largest) (first + i) (pkts.getD i [])
    · rw [haccept hagree]
      -- the receiver has now seen the larger of the two
      have htracks : Tracks { s with
          seqInitialized := true
          seqLargest := max (first + largest) (first + i) % 65536
          roc := rocOf (max (first + largest) (first + i)) } (first + max largest i) := by
        rw [← Nat.add_max_add_left]
        exact ⟨rfl, rfl⟩
      have htail := ih htracks (fun hinit => by cases hinit) hsize hpkts
        (fun j hj => horder j (List.mem_cons_of_mem i hj)) hrest
      rw [← htail]
      simp only [List.cons.injEq, true_and, hagree]
    · rw [hreject hagree]
      simp only [List.cons.injEq, hagree, false_and, reduceCtorEq]

theorem ffSrtpSetCrypto_fresh {suite : String} {params : Bytes}
    (h : ffSrtpSetCrypto crypto SRTPContext.zero suite params = .ok s) :
    s.rtpHmacSize ≤ 20 ∧ s.seqLargest = 0 ∧ s.seqInitialized = false ∧ s.roc = 0 := by
  unfold ffSrtpSetCrypto at h
  cases hsizes : suiteHmacSizes suite with
  | none =>
    rw [hsizes] at h
    cases h
  | some sizes =>
    obtain ⟨rtpHmacSize, rtcpHmacSize⟩ := sizes
    rw [hsizes] at h
    dsimp only at h
    split at h
    · cases h
    · injection h with h
      subst h
      refine ⟨?_, rfl, rfl, rfl⟩
      unfold suiteHmacSizes at hsizes
      split_ifs at hsizes <;> injection hsizes with hsizes <;> injection hsizes with hsize <;>
        show rtpHmacSize ≤ 20 <;> lia

/-- Decryption under reordering: packets with consecutive sequence numbers that one
context protects, delivered to another one with the same keys in an order that starts
with the first packet and never strays half a cycle from the largest one, are all
restored if and only if each is of the cycle of the largest packet before it, or of a
later one, or its tags under both rollover counters agree. -/
theorem unprotectAll_protectAll_iff {suite : String} {params : Bytes} {s : SRTPContext}
    {outlen first : Nat} {pkts : List Bytes} {order : List Nat}
    (hs : ffSrtpSetCrypto crypto SRTPContext.zero suite params = .ok s) (hfirst : first < 65536)
    (hpkts : Consecutive s.rtpHmacSize outlen first pkts)
    (horder : ∀ i ∈ order, i < pkts.length) (hhead : order.head? = some 0)
    (hwindow : Window 0 order) :
    unprotectAll crypto s (order.map fun i => (protectAll crypto outlen s pkts).getD i []) =
      order.map (fun i => .ok (pkts.getD i [])) ↔
    EachStep max (Accepted crypto s.toSRTPKeys first pkts) 0 order := by
  obtain ⟨hsize, hlargest, hinit, hroc⟩ := ffSrtpSetCrypto_fresh crypto hs
  have hcycle : rocOf first = 0 := by
    unfold rocOf
    lia
  have hsends : Sends s first := by
    unfold Sends
    rw [hlargest, if_neg (Nat.not_lt_zero _), hroc, hcycle]
  have htracks : Tracks s (first + 0) := by
    unfold Tracks
    rw [hinit, hroc, Nat.add_zero, hcycle]
    exact ⟨rfl, hfirst⟩
  have hsealed : (order.map fun i => (protectAll crypto outlen s pkts).getD i []) =
      order.map fun i => sealPacket crypto s.toSRTPKeys (first + i) (pkts.getD i []) := by
    apply List.map_congr_left
    intro i hi
    have hlt := horder i hi
    rw [List.getD_eq_getElem?_getD, protectAll_getElem? crypto hsends hpkts,
      List.getD_eq_getElem?_getD, List.getElem?_eq_getElem hlt]
    rfl
  have hstart (i : Nat) (hi : order.head? = some i) : i = 0 := by
    rw [hhead] at hi
    exact (Option.some.inj hi).symm
  rw [hsealed]
  exact unprotectAll_iff crypto htracks (fun _ => hstart) hsize hpkts horder hwindow

/-! ## Around a wrap of the sequence number -/

/-- The function of a table of inputs and outputs of `n` bytes. -/
def tabulated (n : Nat) (table : List (Bytes × Bytes)) (input : Bytes) : Bytes :=
  ((table.find? fun entry => entry.1 = input && entry.2.length = n).map (·.2)).getD
    (List.replicate n 0)

theorem length_tabulated (n : Nat) (table : List (Bytes × Bytes)) (input : Bytes) :
    (tabulated n table input).length = n := by
  unfold tabulated
  cases hf : table.find? fun entry => entry.1 = input && entry.2.length = n with
  | none => exact List.length_replicate
  | some entry =>
    have h := List.find?_some hf
    rw [Bool.and_eq_true, decide_eq_true_eq, decide_eq_true_eq] at h
    exact h.2

/-- The base64-decoded key and salt of the test of the source. -/
def testParams : Bytes :=
  [0, 16, 131, 16, 81, 135, 32, 146, 139, 48, 211, 143, 65, 20, 147, 81, 85, 151, 97, 150, 155,
    113, 215, 159, 130, 24, 163, 146, 89, 167]

/-- A block from which the keys of the test are derived. -/
def testBlock (label counter : UInt8) : Bytes :=
  [85, 151, 97, 150, 155, 113, 215, 159 ^^^ label, 130, 24, 163, 146, 89, 167, 0, counter]

/-- A packet that is a bare header, of this sequence number, followed by `rest`. -/
def testPacket (hi lo : UInt8) (rest : Bytes) : Bytes :=
  [128, 96, hi, lo, 0, 0, 0, 0, 0, 0, 0, 1] ++ rest

/-- AES and HMAC-SHA1 under the keys of the test, on the blocks the keys are derived
from and on the packets 65534, 65535 and 0. -/
def testCrypto : Crypto where
  aes _ := tabulated 16
    [(testBlock 0 0, [237, 223, 164, 250, 88, 44, 47, 4, 186, 207, 107, 177, 160, 230, 79, 231]),
      (testBlock 1 0, [222, 31, 132, 182, 208, 137, 159, 39, 25, 186, 125, 89, 210, 125, 38, 130]),
      (testBlock 1 1, [152, 37, 85, 233, 148, 166, 188, 117, 245, 99, 138, 151, 201, 5, 169, 93]),
      (testBlock 2 0, [179, 189, 28, 30, 247, 135, 231, 11, 203, 155, 208, 235, 250, 33, 56, 183]),
      (testBlock 3 0, [212, 224, 78, 94, 211, 130, 10, 137, 90, 85, 208, 172, 157, 36, 254, 75]),
      (testBlock 4 0, [11, 212, 104, 103, 26, 29, 108, 156, 9, 108, 168, 94, 148, 45, 247, 240]),
      (testBlock 4 1, [113, 171, 185, 173, 87, 104, 213, 120, 9, 58, 168, 105, 232, 210, 215, 65]),
      (testBlock 5 0, [16, 161, 5, 141, 123, 146, 71, 4, 22, 30, 185, 217, 148, 231, 61, 250])]
  hmacSha1 _ := tabulated 20
    [(testPacket 255 254 [0, 0, 0, 0],
        [124, 34, 180, 163, 253, 44, 106, 110, 141, 186, 252, 186, 140, 24, 65, 39, 14, 148, 77, 203]),
      (testPacket 255 255 [0, 0, 0, 0],
        [184, 49, 29, 181, 29, 196, 180, 141, 81, 199, 24, 178, 54, 77, 4, 56, 61, 237, 7, 191]),
      (testPacket 255 255 [0, 0, 0, 1],
        [204, 141, 236, 251, 79, 189, 219, 24, 80, 72, 52, 231, 198, 22, 242, 163, 171, 29, 231, 34]),
      (testPacket 0 0 [0, 0, 0, 1],
        [3, 98, 145, 86, 164, 233, 25, 71, 153, 112, 225, 218, 251, 33, 92, 103, 254, 214, 182, 243])]
  length_aes _ := length_tabulated 16 _
  length_hmacSha1 _ := length_tabulated 20 _

/-- The context of the test. -/
def testContext : SRTPContext where
  rtpHmacSize := 10
  rtcpHmacSize := 10
  rtpKey := [237, 223, 164, 250, 88, 44, 47, 4, 186, 207, 107, 177, 160, 230, 79, 231]
  rtcpKey := [212, 224, 78, 94, 211, 130, 10, 137, 90, 85, 208, 172, 157, 36, 254, 75]
  rtpSalt := [179, 189, 28, 30, 247, 135, 231, 11, 203, 155, 208, 235, 250, 33]
  rtcpSalt := [16, 161, 5, 141, 123, 146, 71, 4, 22, 30, 185, 217, 148, 231]
  rtpAuth :=
    [222, 31, 132, 182, 208, 137, 159, 39, 25, 186, 125, 89, 210, 125, 38, 130, 152, 37, 85, 233]
  rtcpAuth :=
    [11, 212, 104, 103, 26, 29, 108, 156, 9, 108, 168, 94, 148, 45, 247, 240, 113, 171, 185, 173]
  seqLargest := 0
  seqInitialized := false
  roc := 0
  rtcpIndex := 0

/-- The packets 65534, 65535 and 0. -/
def testPackets : List Bytes := [testPacket 255 254 [], testPacket 255 255 [], testPacket 0 0 []]

theorem ffSrtpSetCrypto_test :
    ffSrtpSetCrypto testCrypto SRTPContext.zero "AES_CM_128_HMAC_SHA1_80" testParams =
      .ok testContext := by
  decide

theorem consecutive_testPackets : Consecutive 10 1500 65534 testPackets where
  wellFormed := by
    intro pkt hpkt
    simp only [testPackets, List.mem_cons, List.not_mem_nil, or_false] at hpkt
    rcases hpkt with rfl | rfl | rfl <;> exact ⟨by decide, 12, by decide⟩
  fits := by decide
  seq_eq := by
    intro i pkt hpkt
    match i with
    | 0 | 1 | 2 =>
      simp only [testPackets, List.getElem?_cons_zero, List.getElem?_cons_succ,
        Option.some.injEq] at hpkt
      subst hpkt
      decide
    | n + 3 => simp [testPackets] at hpkt

/-- The packets 65534, 65535 and 0 in order. -/
theorem unprotectAll_protectAll_wrap :
    unprotectAll testCrypto testContext
        ([0, 1, 2].map fun i => (protectAll testCrypto 1500 testContext testPackets).getD i []) =
      [0, 1, 2].map (fun i => .ok (testPackets.getD i [])) ↔
    EachStep max (Accepted testCrypto testContext.toSRTPKeys 65534 testPackets) 0 [0, 1, 2] :=
  unprotectAll_protectAll_iff testCrypto ffSrtpSetCrypto_test (by decide)
    consecutive_testPackets (by decide) rfl (by simp [Window])

/-- Packet 65535 is rejected when it comes after packet 0. -/
theorem not_unprotectAll_protectAll :
    ¬ ∀ (crypto : Crypto) (suite : String) (params : Bytes) (s : SRTPContext)
      (outlen first : Nat) (pkts : List Bytes) (order : List Nat),
      ffSrtpSetCrypto crypto SRTPContext.zero suite params = .ok s → first < 65536 →
      Consecutive s.rtpHmacSize outlen first pkts → (∀ i ∈ order, i < pkts.length) →
      order.head? = some 0 → Window 0 order →
      unprotectAll crypto s (order.map fun i => (protectAll crypto outlen s pkts).getD i []) =
        order.map (fun i => .ok (pkts.getD i [])) := by
  intro h
  have hrun := h testCrypto "AES_CM_128_HMAC_SHA1_80" testParams testContext 1500 65534
    testPackets [0, 2, 1] ffSrtpSetCrypto_test (by decide) consecutive_testPackets (by decide)
    rfl (by simp [Window])
  revert hrun
  decide

end FFmpeg.Libavformat.Srtp
