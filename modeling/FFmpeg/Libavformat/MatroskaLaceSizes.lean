import FFmpeg.Libavformat.EbmlRoundTrip
import FFmpeg.Libavformat.MatroskaLaces

/-!
# The sizes of the laces account for every byte

What the sizes of a block take is never more than what is left of the payload, so the last lace gets
the rest of it.  A block of one lace in EBML lacing is the exception: the size that it stores is
taken from the rest, and then replaced by it.
-/

namespace FFmpeg.Libavformat.Matroska

open Common Libavutil AvioSource Ebml

/-! ## Ends without a read outside -/

/-- An error, or a result with this property. -/
def Sound {α : Type} (p : α → Prop) : Except Stop α → Prop
  | .ok a => p a
  | .error (.failed _) => True
  | .error .overread => False

theorem Sound.bind {α β : Type} {p : α → Prop} {q : β → Prop} {r : Except Stop α}
    {f : α → Except Stop β} (h : Sound p r) (hf : ∀ a, p a → Sound q (f a)) :
    Sound q (r >>= f) := by
  cases r with
  | ok a => exact hf a h
  | error e =>
    cases e with
    | failed e => trivial
    | overread => exact h

theorem Sound.imp {α : Type} {p q : α → Prop} {r : Except Stop α} (h : Sound p r)
    (hpq : ∀ a, p a → q a) : Sound q r := by
  cases r with
  | ok a => exact hpq a h
  | error e =>
    cases e with
    | failed e => trivial
    | overread => exact h

/-! ## Xiph lacing -/

theorem toUint32_of_lt {n : Nat} (h : n < 2 ^ 32) : toUint32 n = n := by
  rw [toUint32]
  lia

/-- The state in front of what is left of the payload. -/
structure Xiph.Left (data : Bytes) (s : Xiph) : Prop where
  suffix : s.data <:+ data
  size_eq : s.size = s.data.length

/-- One size: what it adds to the total is inside of the payload, or an error follows. -/
theorem xiphLace_sound (data : Bytes) {total lace : Nat} (hdata : data.length ≤ intMax)
    (hle : lace ≤ total) :
    Sound (fun r => r.2.Left data ∧ ∃ more, r.1 = lace + more ∧ r.2.total = total + more)
      (xiphLace data data.length total lace) := by
  induction data generalizing total lace with
  | nil =>
    rw [xiphLace, if_pos (show toUint32 ([] : Bytes).length ≤ total from Nat.zero_le _)]
    trivial
  | cons temp data ih =>
    have hmax : intMax = 2 ^ 31 - 1 := rfl
    have htemp := temp.toNat_lt
    rw [xiphLace, toUint32_of_lt (by lia)]
    split_ifs with hshort hmore
    · trivial
    · have hsize : ((temp :: data).length : Int) - 1 = data.length := by
        rw [List.length_cons]
        lia
      have htotal : (total + temp.toNat) % 2 ^ 32 = total + temp.toNat :=
        Nat.mod_eq_of_lt (by lia)
      have hlace : (lace + temp.toNat) % 2 ^ 32 = lace + temp.toNat := Nat.mod_eq_of_lt (by lia)
      dsimp only
      rw [hsize, htotal, hlace]
      refine (ih (by rw [List.length_cons] at hdata; lia) (by lia)).imp ?_
      rintro ⟨lace', s⟩ ⟨⟨hsuffix, hleft⟩, more, hlace', htotal'⟩
      exact ⟨⟨hsuffix.trans (List.suffix_cons temp data), hleft⟩, temp.toNat + more,
        by rw [hlace']; lia, by rw [htotal']; lia⟩
    · have htotal : (total + temp.toNat) % 2 ^ 32 = total + temp.toNat :=
        Nat.mod_eq_of_lt (by lia)
      have hlace : (lace + temp.toNat) % 2 ^ 32 = lace + temp.toNat := Nat.mod_eq_of_lt (by lia)
      refine ⟨⟨List.suffix_cons temp data, ?_⟩, temp.toNat, hlace, htotal⟩
      show ((temp :: data).length : Int) - 1 = data.length
      rw [List.length_cons]
      lia

variable {data : Bytes}

theorem xiphLaces_sound (n : Nat) (hdata : data.length ≤ intMax) (total : Nat) :
    Sound (fun r => r.2.Left data ∧ r.1.length = n ∧ r.2.total = total + r.1.sum)
      (xiphLaces n ⟨data, data.length, total⟩) := by
  induction n generalizing data total with
  | zero => exact ⟨⟨List.suffix_refl _, rfl⟩, rfl, rfl⟩
  | succ n ih =>
    refine (xiphLace_sound data hdata (Nat.zero_le total)).bind ?_
    rintro ⟨lace, ⟨data', size, total'⟩⟩ ⟨⟨hsuffix, hsize⟩, more, hlace, htotal⟩
    dsimp only at hsuffix hsize hlace htotal ⊢
    subst hsize
    refine (ih (hsuffix.length_le.trans hdata) total').bind ?_
    rintro ⟨laces, s⟩ ⟨⟨hsuffix', hsize'⟩, hlength, htotal'⟩
    refine ⟨⟨hsuffix'.trans hsuffix, hsize'⟩, ?_, ?_⟩
    · rw [List.length_cons, hlength]
    · dsimp only at htotal' ⊢
      rw [List.sum_cons, htotal', htotal, hlace]
      lia

/-! ## EBML lacing -/

theorem appendBytes_snd (n total : Nat) (rest : Bytes) (eof : Bool) :
    (appendBytes n total ⟨rest, eof⟩).2 = ⟨rest.drop n, eof || decide (rest.length < n)⟩ := by
  induction n generalizing total rest eof with
  | zero => simp [appendBytes]
  | succ n ih =>
    cases rest with
    | nil => simp [appendBytes, ih]
    | cons b rest => simp [appendBytes, ih]

variable {pb : AVIOContext}

theorem ebmlReadNum_ok {rest : Bytes} {maxSize n num : Nat} {eofForbidden : Bool}
    (h : ebmlReadNum ⟨rest, false⟩ maxSize eofForbidden = (.ok (n, num), pb)) :
    n ≤ rest.length ∧ pb = ⟨rest.drop n, false⟩ := by
  cases rest with
  | nil => cases eofForbidden <;> cases h
  | cons b rest =>
    unfold ebmlReadNum at h
    dsimp only [avioR8_cons] at h
    rw [if_neg (by decide)] at h
    split_ifs at h with hbad heof
    · cases (Prod.mk.inj h).1
    · cases (Prod.mk.inj h).1
    have hlog : avLog2 b.toNat < 8 :=
      (Nat.log2_lt (fun hzero => hbad (Or.inl hzero))).2 b.toNat_lt
    obtain ⟨hok, rfl⟩ := Prod.mk.inj h
    obtain ⟨rfl, -⟩ := Prod.mk.inj (Except.ok.inj hok)
    obtain ⟨k, hk⟩ : ∃ k, 8 - avLog2 b.toNat = k + 1 := ⟨7 - avLog2 b.toNat, by lia⟩
    rw [appendBytes_snd, Bool.false_or] at heof ⊢
    rw [hk, Nat.add_sub_cancel] at heof ⊢
    have hinside : ¬ rest.length < k := by simpa using heof
    rw [List.length_cons, List.drop_succ_cons, decide_eq_false hinside]
    exact ⟨by lia, rfl⟩

theorem matroskaEbmlnumSint_ok {rest : Bytes} {r : Nat} {snum : Int}
    (h : matroskaEbmlnumSint ⟨rest, false⟩ = (.ok (r, snum), pb)) :
    r ≤ rest.length ∧ pb = ⟨rest.drop r, false⟩ := by
  unfold matroskaEbmlnumSint at h
  split at h
  next res unum pb' hread =>
    obtain ⟨hok, rfl⟩ := Prod.mk.inj h
    obtain ⟨rfl, -⟩ := Prod.mk.inj (Except.ok.inj hok)
    exact ebmlReadNum_ok hread
  next hread => exact absurd (Prod.mk.inj h).1 (by simp)

theorem toUint32_le {v : Int} (h : toUint64 v ≤ intMax) : toUint32 v ≤ intMax := by
  have hmax : intMax = 2 ^ 31 - 1 := rfl
  rw [toUint64] at h
  rw [toUint32]
  lia

/-- The context and the offset are at the same place of the payload. -/
structure EbmlSizes.At (data : Bytes) (s : EbmlSizes) : Prop where
  offset_le : s.offset ≤ data.length
  pb_eq : s.pb = ⟨data.drop s.offset, false⟩

/-- The laces between the first and the last. -/
theorem ebmlLaces_sound (n : Nat) {prev : Nat} {s : EbmlSizes} (h : s.At data)
    (htotal : s.total + n * intMax < 2 ^ 64) :
    Sound (fun r => r.2.At data ∧ r.1.length = n ∧ (∀ size ∈ r.1, size ≤ intMax) ∧
      r.2.total = s.total + r.1.sum) (ebmlLaces n prev s) := by
  induction n generalizing prev s with
  | zero => exact ⟨h, rfl, by simp, rfl⟩
  | succ n ih =>
    obtain ⟨total, offset, pb⟩ := s
    obtain ⟨hoffset, hpb⟩ := h
    dsimp only at hoffset hpb htotal
    subst hpb
    rw [ebmlLaces]
    split
    · trivial
    · next r snum pb hread =>
      obtain ⟨hr, rfl⟩ := matroskaEbmlnumSint_ok hread
      split_ifs with hbig
      · trivial
      · have hlace := toUint32_le (Nat.le_of_not_lt hbig)
        rw [Nat.succ_mul, Nat.add_comm (n * intMax), ← Nat.add_assoc] at htotal
        have hroom : total + toUint32 (prev + snum) + n * intMax < 2 ^ 64 :=
          (Nat.add_le_add_right (Nat.add_le_add_left hlace total) _).trans_lt htotal
        have hsum : (total + toUint32 (prev + snum)) % 2 ^ 64 = total + toUint32 (prev + snum) :=
          Nat.mod_eq_of_lt ((Nat.le_add_right _ _).trans_lt hroom)
        dsimp only
        rw [hsum]
        rw [List.length_drop] at hr
        refine (ih ⟨?_, ?_⟩ hroom).bind ?_
        · show offset + r ≤ data.length
          lia
        · rw [List.drop_drop]
        · rintro ⟨laces, s⟩ ⟨hat, hlength, hbound, htotal'⟩
          refine ⟨hat, by rw [List.length_cons, hlength], ?_, ?_⟩
          · intro size hmem
            rcases List.mem_cons.1 hmem with rfl | hmem
            · exact hlace
            · exact hbound size hmem
          · dsimp only at htotal' ⊢
            rw [List.sum_cons, htotal']
            lia

/-! ## All of the payload -/

/-- An error, without a read outside of the payload, or a place inside of it and sizes whose sum is
what is left there. -/
def AccountsForEveryByte (payload : Bytes) (r : Except Stop Laces) : Prop :=
  Sound (fun l => l.buf <:+ payload ∧ l.laceSize.length = l.laces ∧
    (∀ size ∈ l.laceSize, size < 2 ^ 32) ∧ l.laceSize.sum = l.buf.length) r

/-- A block of a single lace in EBML lacing that stores a size other than zero, within what is left
of the payload. -/
def StoresSingleSize (payload : Bytes) (type : Lacing) : Prop :=
  type = .ebml ∧ ∃ data n num pb, payload = 0 :: data ∧
    ebmlReadNum ⟨data, false⟩ 8 true = (.ok (n, num), pb) ∧ num ≠ 0 ∧ num ≤ data.length - n

theorem toUint32_sub {a b : Nat} (hle : b ≤ a) (hlt : a < 2 ^ 32) :
    toUint32 ((a : Int) - b) = a - b := by
  rw [toUint32]
  lia

variable {count : UInt8}

theorem xiph_accounts (hsize : (count :: data).length ≤ intMax) (pb : AVIOContext) :
    AccountsForEveryByte (count :: data) (matroskaParseLaces (count :: data) .xiph pb) := by
  have hmax : intMax = 2 ^ 31 - 1 := rfl
  rw [List.length_cons] at hsize
  have hleft : ((count :: data).length : Int) - 1 = data.length := by
    rw [List.length_cons]
    lia
  unfold matroskaParseLaces
  dsimp only
  rw [hleft, Nat.add_sub_cancel]
  refine (xiphLaces_sound count.toNat (by lia) 0).bind ?_
  rintro ⟨laces, s⟩ ⟨⟨hsuffix, hs⟩, hlength, htotal⟩
  have hle := hsuffix.length_le
  dsimp only at hs hlength htotal ⊢
  rw [Nat.zero_add] at htotal
  rw [hs, toUint32_of_lt (by lia)]
  split_ifs with hshort
  · trivial
  · rw [toUint32_sub (Nat.le_of_not_lt hshort) (by lia)]
    refine ⟨hsuffix.trans (List.suffix_cons count data), ?_, ?_, ?_⟩
    · rw [List.length_append, List.length_singleton, hlength]
    · intro size hmem
      rcases List.mem_append.1 hmem with hmem | hmem
      · have hsum := List.le_sum_of_mem hmem
        lia
      · rw [List.mem_singleton] at hmem
        lia
    · dsimp only
      rw [List.sum_append, List.sum_singleton]
      lia

theorem fixed_accounts (hsize : (count :: data).length ≤ intMax) (pb : AVIOContext) :
    AccountsForEveryByte (count :: data) (matroskaParseLaces (count :: data) .fixed pb) := by
  have hmax : intMax = 2 ^ 31 - 1 := rfl
  rw [List.length_cons] at hsize
  have hleft : ((count :: data).length : Int) - 1 = data.length := by
    rw [List.length_cons]
    lia
  unfold matroskaParseLaces
  dsimp only
  rw [hleft]
  split_ifs with hdivides
  · trivial
  · have hrest : data.length % (count.toNat + 1) = 0 := by exact_mod_cast not_not.1 hdivides
    have hpart : data.length / (count.toNat + 1) ≤ data.length := Nat.div_le_self _ _
    have hquot : toUint32 ((data.length : Int) / (count.toNat + 1 : Nat)) =
        data.length / (count.toNat + 1) := by
      rw [← Int.natCast_ediv, toUint32_of_lt (by lia)]
    rw [hquot]
    refine ⟨List.suffix_cons count data, List.length_replicate, ?_, ?_⟩
    · intro size hmem
      rw [List.eq_of_mem_replicate hmem]
      lia
    · dsimp only
      rw [List.sum_replicate, smul_eq_mul, Nat.mul_div_cancel' (Nat.dvd_of_mod_eq_zero hrest)]

/-- The end of EBML lacing, once the sizes are read. -/
theorem ebml_accounts {num n : Nat} (hdata : data.length < intMax) (hcount : count ≠ 0)
    (hnum : num ≤ intMax) (hn : n ≤ data.length) :
    AccountsForEveryByte (count :: data) (do
      let s ← ebmlLaces (count.toNat + 1 - 2) num ⟨num, n, ⟨data.drop n, false⟩⟩
      if data.length < s.2.offset then .error .overread
      else
        let size := ((count :: data).length : Int) - 1 - s.2.offset
        if toUint64 size < s.2.total then .error (.failed .invalidData)
        else
          .ok ⟨data.drop s.2.offset, count.toNat + 1,
            overwrite (num :: s.1) (count.toNat + 1 - 1) [toUint32 (size - s.2.total)]⟩) := by
  have hmax : intMax = 2 ^ 31 - 1 := rfl
  have hbyte := count.toNat_lt
  have hpos : count.toNat ≠ 0 := fun h => hcount (UInt8.toNat_inj.1 h)
  obtain ⟨more, hmore⟩ : ∃ more, count.toNat = more + 1 := ⟨count.toNat - 1, by lia⟩
  have hroom : num + more * intMax < 2 ^ 64 :=
    calc num + more * intMax ≤ intMax + 255 * intMax :=
          Nat.add_le_add hnum (Nat.mul_le_mul_right _ (by lia))
      _ < 2 ^ 64 := by decide
  rw [hmore]
  refine (ebmlLaces_sound more ⟨hn, rfl⟩ hroom).bind ?_
  rintro ⟨laces, s⟩ ⟨⟨hoffset, -⟩, hlength, hbound, htotal⟩
  dsimp only at hoffset hlength hbound htotal ⊢
  have hleft : ((count :: data).length : Int) - 1 - s.offset = (data.length - s.offset : Nat) := by
    rw [List.length_cons]
    lia
  have hword : toUint64 ((data.length - s.offset : Nat) : Int) = data.length - s.offset := by
    rw [toUint64]
    lia
  rw [if_neg (Nat.not_lt.2 hoffset), hleft, hword]
  split_ifs with hshort
  · trivial
  · rw [toUint32_sub (Nat.le_of_not_lt hshort) (by lia), Nat.add_sub_cancel]
    have hsizes : overwrite (num :: laces) (more + 1) [data.length - s.offset - s.total] =
        num :: laces ++ [data.length - s.offset - s.total] := by
      have hwhole : (num :: laces).length = more + 1 := by rw [List.length_cons, hlength]
      rw [overwrite, ← hwhole, List.take_length,
        List.drop_eq_nil_of_le (Nat.le_add_right _ _), List.append_nil]
    rw [hsizes]
    refine ⟨(List.drop_suffix _ _).trans (List.suffix_cons count data), ?_, ?_, ?_⟩
    · rw [List.length_append, List.length_cons, List.length_singleton, hlength]
    · intro size hmem
      rcases List.mem_append.1 hmem with hmem | hmem
      · rcases List.mem_cons.1 hmem with rfl | hmem
        · lia
        · have hle := hbound size hmem
          lia
      · rw [List.mem_singleton] at hmem
        lia
    · dsimp only
      rw [List.sum_append, List.sum_singleton, List.sum_cons, List.length_drop, ← htotal]
      lia

/-- What EBML lacing gives, from the first number of the payload on. -/
theorem ebml_accounts_iff {header : Bytes} (hheader : header.length = 3)
    (hsize : (count :: data).length ≤ intMax) :
    AccountsForEveryByte (count :: data)
        (matroskaParseLaces (count :: data) .ebml ⟨header ++ count :: data, false⟩) ↔
      ¬ StoresSingleSize (count :: data) .ebml := by
  have hmax : intMax = 2 ^ 31 - 1 := rfl
  rw [List.length_cons] at hsize
  have hskip : avioSkip ⟨header ++ count :: data, false⟩ 4 = ⟨data, false⟩ := by
    have hdrop : (header ++ count :: data).drop 4 = data := by
      rw [show 4 = header.length + 1 by rw [hheader], List.drop_length_add_append,
        List.drop_succ_cons, List.drop_zero]
    rw [avioSkip, if_pos (by rw [List.length_append, List.length_cons]; lia), hdrop]
  unfold matroskaParseLaces StoresSingleSize
  dsimp only
  rw [hskip]
  cases hread : ebmlReadNum ⟨data, false⟩ 8 true with
  | mk r pb =>
    cases r with
    | error e =>
      refine iff_of_true trivial ?_
      rintro ⟨-, data', n, num, pb', hcons, hread', -⟩
      rw [(List.cons.inj hcons).2, hread'] at hread
      cases (Prod.mk.inj hread).1
    | ok r =>
      obtain ⟨n, num⟩ := r
      obtain ⟨hn, rfl⟩ := ebmlReadNum_ok hread
      have hsingle : (∃ data' n' num' pb', count :: data = 0 :: data' ∧
            ebmlReadNum ⟨data', false⟩ 8 true = (.ok (n', num'), pb') ∧ num' ≠ 0 ∧
              num' ≤ data'.length - n') ↔
          count = 0 ∧ num ≠ 0 ∧ num ≤ data.length - n := by
        constructor
        · rintro ⟨data', n', num', pb', hcons, hread', hne, hle⟩
          obtain ⟨rfl, rfl⟩ := List.cons.inj hcons
          rw [hread] at hread'
          obtain ⟨rfl, rfl⟩ := Prod.mk.inj (Except.ok.inj (Prod.mk.inj hread').1)
          exact ⟨rfl, hne, hle⟩
        · rintro ⟨rfl, hne, hle⟩
          exact ⟨data, n, num, _, rfl, hread, hne, hle⟩
      dsimp only
      rw [hsingle]
      split_ifs with hbig
      · exact iff_of_true trivial fun h => by lia
      · by_cases hcount : count = 0
        · -- one lace: the number that was read is only subtracted
          subst hcount
          have hleft : ((0 :: data : Bytes).length : Int) - 1 - n = (data.length - n : Nat) := by
            rw [List.length_cons]
            lia
          have hword : toUint64 ((data.length - n : Nat) : Int) = data.length - n := by
            rw [toUint64]
            lia
          show AccountsForEveryByte (0 :: data) (if data.length < n then .error .overread
            else if toUint64 (((0 :: data : Bytes).length : Int) - 1 - n) < num then
              .error (.failed .invalidData)
            else .ok ⟨data.drop n, 1,
              [toUint32 (((0 :: data : Bytes).length : Int) - 1 - n - num)]⟩) ↔ _
          rw [if_neg (Nat.not_lt.2 hn), hleft, hword]
          split_ifs with hshort
          · exact iff_of_true trivial fun h => by lia
          · rw [toUint32_sub (Nat.le_of_not_lt hshort) (by lia)]
            constructor
            · rintro ⟨-, -, -, hsum⟩ ⟨-, hne, hle⟩
              dsimp only at hsum
              rw [List.sum_singleton, List.length_drop] at hsum
              lia
            · intro hnot
              have hzero : num = 0 := by lia
              refine ⟨(List.drop_suffix _ _).trans (List.suffix_cons _ data), rfl, ?_, ?_⟩
              · intro size hmem
                rw [List.mem_singleton] at hmem
                lia
              · dsimp only
                rw [List.sum_singleton, List.length_drop, hzero, Nat.sub_zero]
        · exact iff_of_true (ebml_accounts (by lia) hcount (Nat.le_of_not_lt hbig) hn)
            fun h => hcount h.2.1

/-- **The laces account for every byte of the payload** unless it is a block of a single lace in
EBML lacing that stores a size: the context is in front of the timecode, three bytes before the
payload. -/
theorem matroskaParseLaces_accounts_iff {header payload : Bytes} (type : Lacing)
    (hheader : header.length = 3) (hsize : payload.length ≤ intMax) :
    AccountsForEveryByte payload (matroskaParseLaces payload type ⟨header ++ payload, false⟩) ↔
      ¬ StoresSingleSize payload type := by
  have hother : type ≠ .ebml → ¬ StoresSingleSize payload type := fun hne h => hne h.1
  cases type with
  | none =>
    refine iff_of_true ?_ (hother (by decide))
    have hmax : intMax = 2 ^ 31 - 1 := rfl
    have hlt : payload.length < 2 ^ 32 := by lia
    unfold matroskaParseLaces
    dsimp only
    rw [toUint32_of_lt hlt]
    exact ⟨List.suffix_refl _, rfl, fun size hmem => by rw [List.mem_singleton.1 hmem]; exact hlt,
      List.sum_singleton⟩
  | xiph =>
    refine iff_of_true ?_ (hother (by decide))
    cases payload with
    | nil => trivial
    | cons count data => exact xiph_accounts hsize _
  | fixed =>
    refine iff_of_true ?_ (hother (by decide))
    cases payload with
    | nil => trivial
    | cons count data => exact fixed_accounts hsize _
  | ebml =>
    cases payload with
    | nil =>
      refine iff_of_true trivial ?_
      rintro ⟨-, data, n, num, pb, hcons, -⟩
      cases hcons
    | cons count data => exact ebml_accounts_iff hheader hsize

/-- Two laces in EBML lacing, of one and of two bytes. -/
theorem matroskaParseLaces_accounts_two :
    AccountsForEveryByte [1, 0x81, 5, 6, 7]
      (matroskaParseLaces [1, 0x81, 5, 6, 7] .ebml ⟨[0, 0, 6] ++ [1, 0x81, 5, 6, 7], false⟩) := by
  refine (matroskaParseLaces_accounts_iff .ebml (by decide) (by decide)).2 ?_
  rintro ⟨-, data, n, num, pb, hcons, -⟩
  exact absurd (List.cons.inj hcons).1 (by decide)

/-- One lace in EBML lacing that stores a size of one byte: the byte is not accounted for. -/
theorem matroskaParseLaces_single :
    ¬ ∀ (header payload : Bytes) (type : Lacing), header.length = 3 → payload.length ≤ intMax →
      AccountsForEveryByte payload
        (matroskaParseLaces payload type ⟨header ++ payload, false⟩) := by
  intro h
  have hone := h [0, 0, 6] [0, 0x81, 5] .ebml (by decide) (by decide)
  have hrun : matroskaParseLaces [0, 0x81, 5] .ebml ⟨[0, 0, 6] ++ [0, 0x81, 5], false⟩ =
      .ok ⟨[5], 1, [0]⟩ := by decide
  rw [hrun] at hone
  exact absurd hone.2.2.2 (by decide)

end FFmpeg.Libavformat.Matroska
