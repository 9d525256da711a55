import FFmpeg.Libavcodec.VlcPairs

/-!
# Ambiguous codes

Of two codewords that cannot be told apart, the tables find out unless one ends in a subtable of
the first table and the other one goes on from there, and the shorter one stands in front.  Then
the way to the longer one is put over the shorter one.
-/

namespace FFmpeg.Libavcodec.Vlc

open Common Libavutil

variable {c d : VLCcode} {le : Bool} {nbBits : Nat} {codes : List VLCcode}

section Copy

/-- The codeword of a code that has not been put into `buf` yet. -/
def givenWord (le : Bool) (c : VLCcode) : List Bool := bits (bitOrder le) c.bits c.code.toNat

/-- A code as `COPY` puts it into `buf`. -/
def prepareCode (le : Bool) (c : VLCcode) : VLCcode :=
  { c with code := if le then bitswap32 c.code else c.code <<< (32 - c.bits) }

theorem bitswap32_bitswap32 (x : BitVec 32) : bitswap32 (bitswap32 x) = x := by
  apply BitVec.eq_of_getLsbD_eq
  intro i hi
  show (bitswap32 (bitswap32 x)).toNat.testBit i = x.toNat.testBit i
  rw [testBit_bitswap32 _ hi, testBit_bitswap32 _ (by lia), Nat.sub_sub_self (by lia)]

theorem codeword_prepareCode (le : Bool) (hc : c.bits ≤ 32) :
    codeword (prepareCode le c) = givenWord le c := by
  cases le with
  | false =>
    show (bits .msbFirst 32 (c.code <<< (32 - c.bits)).toNat).take c.bits =
      bits .msbFirst c.bits c.code.toNat
    rw [bits_take_msbFirst hc]
    apply bits_congr
    intro i hi
    rw [Nat.testBit_shiftRight, BitVec.toNat_shiftLeft, Nat.testBit_mod_two_pow,
      Nat.testBit_shiftLeft, decide_eq_true (by lia), decide_eq_true (by lia),
      Bool.true_and, Bool.true_and, Nat.add_sub_cancel_left]
  | true =>
    show (bits .msbFirst 32 (bitswap32 c.code).toNat).take c.bits =
      bits .lsbFirst c.bits c.code.toNat
    rw [← bits_bitswap32, bitswap32_bitswap32, bits_take_lsbFirst hc]

theorem justified_prepareCode (hc : c.bits ≤ 32) (hcode : c.code.toNat < 2 ^ c.bits) :
    Justified (prepareCode le c) := by
  refine ⟨hc, ?_⟩
  cases le with
  | false =>
    show 2 ^ (32 - c.bits) ∣ (c.code <<< (32 - c.bits)).toNat
    rw [BitVec.toNat_shiftLeft, Nat.shiftLeft_eq]
    exact (Nat.dvd_mod_iff (Nat.pow_dvd_pow 2 (Nat.sub_le _ _))).2 (Nat.dvd_mul_left _ _)
  | true =>
    show 2 ^ (32 - c.bits) ∣ (bitswap32 c.code).toNat
    apply Nat.dvd_of_mod_eq_zero
    apply Nat.eq_of_testBit_eq
    intro i
    rw [Nat.testBit_mod_two_pow, Nat.zero_testBit]
    by_cases hi : i < 32 - c.bits
    · rw [testBit_bitswap32 _ (by lia), Nat.testBit_lt_two_pow (hcode.trans_le
        (Nat.pow_le_pow_right (by decide) (by lia))), Bool.and_false]
    · rw [decide_eq_false hi, Bool.false_and]

variable {condition : VLCcode → Bool}

/-- What `COPY` puts into `buf` when it accepts the codes. -/
theorem copyCodes_ok {buf : List VLCcode} (h : copyCodes nbBits le condition codes = .ok buf) :
    buf = (codes.filter condition).map (prepareCode le) ∧
      ∀ c ∈ codes, condition c → c.bits ≤ 3 * nbBits ∧ c.bits ≤ 32 ∧ c.code.toNat < 2 ^ c.bits := by
  induction codes generalizing buf with
  | nil =>
    cases h
    simp
  | cons c codes ih =>
    rw [copyCodes] at h
    by_cases hc : condition c
    · rw [if_pos hc] at h
      split at h
      · cases h
      · rename_i hlength
        split at h
        · cases h
        · rename_i hcode
          dsimp only at h
          split at h
          · cases h
          · rename_i buf' hrest
            cases h
            obtain ⟨hbuf, hcodes⟩ := ih hrest
            refine ⟨by rw [List.filter_cons_of_pos hc, List.map_cons, hbuf]; rfl, ?_⟩
            intro d hd hcond
            rcases List.mem_cons.1 hd with rfl | hd
            · exact ⟨by lia, by lia, by lia⟩
            · exact hcodes d hd hcond
    · rw [if_neg hc] at h
      obtain ⟨hbuf, hcodes⟩ := ih h
      refine ⟨by rw [List.filter_cons_of_neg hc, hbuf], ?_⟩
      intro d hd hcond
      rcases List.mem_cons.1 hd with rfl | hd
      · exact absurd hcond hc
      · exact hcodes d hd hcond

theorem copyCodes_error {e : AVERROR} (h : copyCodes nbBits le condition codes = .error e) :
    e = .einval := by
  induction codes with
  | nil => cases h
  | cons c codes ih =>
    rw [copyCodes] at h
    split at h
    · split at h
      · cases h
        rfl
      · split at h
        · cases h
          rfl
        · split at h
          · rename_i hrest
            cases h
            exact ih hrest
          · cases h
    · exact ih h

end Copy

section Conflicts

/-- What `AV_QSORT` is known to do to the codes. -/
structure SortsCodes (sort : List VLCcode → List VLCcode) : Prop where
  perm : ∀ l, (sort l).Perm l
  sorted : ∀ l, (sort l).Pairwise fun a b => compareVlcspec a b ≤ 0

/-- One codeword is a proper prefix of the other, or the codewords are equal and the symbols are
not. -/
def Conflict (le : Bool) (d c : VLCcode) : Prop :=
  (givenWord le d <+: givenWord le c ∧ givenWord le d ≠ givenWord le c) ∨
    (givenWord le d = givenWord le c ∧ d.symbol ≠ c.symbol)

/-- The codes for the subtables of the first table, in the order in which they are handled. -/
def longCodes (sort : List VLCcode → List VLCcode) (le : Bool) (nbBits : Nat)
    (codes : List VLCcode) : List VLCcode :=
  sort ((codes.filter fun c => nbBits < c.bits).map (prepareCode le))

/-- The codes of the first table. -/
def shortCodes (le : Bool) (nbBits : Nat) (codes : List VLCcode) : List VLCcode :=
  (codes.filter fun c => c.bits ≠ 0 ∧ c.bits ≤ nbBits).map (prepareCode le)

/-- A code `d` that ends in a subtable of the first table, and a code `c` that goes on from such a
subtable and does not stand in front of `d`. -/
def Overlooked (sort : List VLCcode → List VLCcode) (le : Bool) (nbBits : Nat)
    (codes : List VLCcode) (d c : VLCcode) : Prop :=
  nbBits < d.bits ∧ d.bits ≤ 2 * nbBits ∧ 2 * nbBits < c.bits ∧
    ¬ [prepareCode le c, prepareCode le d].Sublist (longCodes sort le nbBits codes)

variable {sort : List VLCcode → List VLCcode}

theorem SortsCodes.ordered (h : SortsCodes sort) (l : List VLCcode) :
    (sort l).Pairwise (Ordered 0) := by
  refine (h.sorted l).imp ?_
  intro a b hab
  rw [compareVlcspec, BitVec.toNat_ushiftRight, BitVec.toNat_ushiftRight,
    Nat.shiftRight_eq_div_pow, Nat.shiftRight_eq_div_pow] at hab
  rw [Ordered]
  lia

/-- A list whose last element is not among the last elements of another one lies in front of
them. -/
theorem sublist_left {α : Type} {l a b : List α} {x : α} (h : (l ++ [x]).Sublist (a ++ b))
    (hx : x ∉ b) : (l ++ [x]).Sublist a := by
  obtain ⟨l₁, l₂, heq, hl₁, hl₂⟩ := List.sublist_append_iff.1 h
  rcases List.eq_nil_or_concat' l₂ with rfl | ⟨m, y, rfl⟩
  · rw [heq, List.append_nil]
    exact hl₁
  · rw [← List.append_assoc] at heq
    obtain ⟨-, hlast⟩ := List.append_inj' heq rfl
    have hxy : x = y := by simpa using hlast
    exact absurd (hl₂.subset (by simp [hxy])) hx

theorem sublist_pair {α : Type} {l : List α} {x y : α} (hx : x ∈ l) (hy : y ∈ l) (hne : x ≠ y) :
    [x, y].Sublist l ∨ [y, x].Sublist l := by
  obtain ⟨front, back, rfl⟩ := List.append_of_mem hx
  rcases List.mem_append.1 hy with hy | hy
  · right
    exact (List.singleton_sublist.2 hy).append (List.singleton_sublist.2 List.mem_cons_self)
  · left
    have hback : y ∈ back := by simpa [hne.symm] using hy
    exact ((List.singleton_sublist.2 hback).cons_cons x).trans (List.sublist_append_right _ _)

/-- What the two loops of `COPY` check. -/
def Copied (nbBits : Nat) (codes : List VLCcode) : Prop :=
  ∀ c ∈ codes, c.bits ≠ 0 → c.bits ≤ 3 * nbBits ∧ c.bits ≤ 32 ∧ c.code.toNat < 2 ^ c.bits

variable {x : VLCcode}

theorem mem_longCodes (hsort : SortsCodes sort) :
    x ∈ longCodes sort le nbBits codes ↔ ∃ c ∈ codes, nbBits < c.bits ∧ prepareCode le c = x := by
  rw [longCodes, (hsort.perm _).mem_iff]
  simp [and_assoc]

theorem mem_shortCodes :
    x ∈ shortCodes le nbBits codes ↔
      ∃ c ∈ codes, (c.bits ≠ 0 ∧ c.bits ≤ nbBits) ∧ prepareCode le c = x := by
  simp [shortCodes, and_assoc]

theorem mem_buf (hsort : SortsCodes sort) :
    x ∈ longCodes sort le nbBits codes ++ shortCodes le nbBits codes ↔
      ∃ c ∈ codes, c.bits ≠ 0 ∧ prepareCode le c = x := by
  rw [List.mem_append, mem_longCodes hsort, mem_shortCodes]
  constructor
  · rintro (⟨c, hc, hlong, rfl⟩ | ⟨c, hc, hshort, rfl⟩)
    · exact ⟨c, hc, by lia, rfl⟩
    · exact ⟨c, hc, hshort.1, rfl⟩
  · rintro ⟨c, hc, hpos, rfl⟩
    by_cases hlong : nbBits < c.bits
    · exact Or.inl ⟨c, hc, hlong, rfl⟩
    · exact Or.inr ⟨c, hc, ⟨hpos, by lia⟩, rfl⟩

theorem sublist_longCodes {l : List VLCcode}
    (h : (l ++ [x]).Sublist (longCodes sort le nbBits codes ++ shortCodes le nbBits codes))
    (hx : nbBits < x.bits) : (l ++ [x]).Sublist (longCodes sort le nbBits codes) := by
  apply sublist_left h
  intro hmem
  obtain ⟨c, -, hshort, rfl⟩ := mem_shortCodes.1 hmem
  have hle : (prepareCode le c).bits ≤ nbBits := hshort.2
  lia

theorem prepared_buf (hsort : SortsCodes sort) (hcopied : Copied nbBits codes) :
    Prepared 0 nbBits (longCodes sort le nbBits codes ++ shortCodes le nbBits codes) := by
  have hall : ∀ x ∈ longCodes sort le nbBits codes ++ shortCodes le nbBits codes,
      Justified x ∧ 0 < x.bits ∧ x.bits + 0 ≤ 32 := by
    intro x hx
    obtain ⟨c, hc, hpos, rfl⟩ := (mem_buf hsort).1 hx
    obtain ⟨-, hle, hcode⟩ := hcopied c hc hpos
    exact ⟨justified_prepareCode hle hcode, Nat.pos_of_ne_zero hpos, hle⟩
  have hordered : (longCodes sort le nbBits codes).Pairwise (Ordered 0) := hsort.ordered _
  have hlong : Prepared 0 nbBits (longCodes sort le nbBits codes) :=
    prepared_of_sorted (fun x hx => (hall x (List.mem_append_left _ hx)).1)
      (fun x hx => (hall x (List.mem_append_left _ hx)).2.1)
      (fun x hx => (hall x (List.mem_append_left _ hx)).2.2) hordered
  have hshort : ∀ x ∈ shortCodes le nbBits codes, ¬ nbBits < x.bits := by
    intro x hx hlt
    obtain ⟨c, -, hshort, rfl⟩ := mem_shortCodes.1 hx
    have hle : (prepareCode le c).bits ≤ nbBits := hshort.2
    lia
  refine ⟨fun x hx => (hall x hx).1, fun x hx => (hall x hx).2.1, fun x hx => (hall x hx).2.2,
    ?_, ?_⟩
  · rw [List.pairwise_append]
    refine ⟨hlong.sorted, ?_, fun d _ c hc _ hlt => absurd hlt (hshort c hc)⟩
    exact List.pairwise_of_forall_mem_list fun d hd c _ hlt => absurd hlt (hshort d hd)
  · intro d e c hsub hd hc
    exact hlong.contiguous d e c (sublist_longCodes (l := [d, e]) hsub hc) hd hc

end Conflicts

section Init

variable {sort : List VLCcode → List VLCcode} {malloc realloc : Nat → Bool} {flags : InitFlags}
  {vlcArg vlc' : VLC} {r : Int}

/-- A table comes from codes that were all accepted. -/
theorem ffInitVlcSparse_some
    (h : ffInitVlcSparse sort malloc realloc flags vlcArg nbBits codes = some (r, vlc'))
    (hr : 0 ≤ r) :
    Copied nbBits codes ∧ ∃ (ret : Int) (vlc vlc₁ : VLC), 0 ≤ ret ∧ vlc.bits = nbBits ∧
      vlc.tableSize = 0 ∧ buildTable realloc flags 33 vlc nbBits
        (longCodes sort flags.le nbBits codes ++ shortCodes flags.le nbBits codes) =
          some (ret, vlc₁) := by
  rw [ffInitVlcSparse] at h
  split at h
  · cases h
  · split at h
    · cases h
      cases hr
    · split at h
      · rename_i hcopy
        rw [copyCodes_error hcopy] at h
        cases h
        cases hr
      · rename_i long hlong
        split at h
        · rename_i hcopy
          rw [copyCodes_error hcopy] at h
          cases h
          cases hr
        · rename_i short hshort
          obtain ⟨rfl, hlongs⟩ := copyCodes_ok hlong
          obtain ⟨rfl, hshorts⟩ := copyCodes_ok hshort
          refine ⟨?_, ?_⟩
          · intro c hc hpos
            by_cases hcase : nbBits < c.bits
            · exact hlongs c hc (by simpa using hcase)
            · exact hshorts c hc (by simpa using ⟨hpos, Nat.le_of_not_lt hcase⟩)
          · split at h
            · cases h
            · rename_i ret vlc₁ hbuild
              refine ⟨ret, _, vlc₁, ?_, ?_, ?_, hbuild⟩
              · by_contra hneg
                split at h
                · rw [if_pos (by lia)] at h
                  cases h
                · rw [if_pos (by lia)] at h
                  cases h
                  exact hneg hr
              · split <;> rfl
              · split <;> rfl

/-- Two ambiguous codes of which none is overlooked are refused. -/
theorem ffInitVlcSparse_neg (hsort : SortsCodes sort) (hnb : 0 < nbBits)
    (hd : d ∈ codes) (hc : c ∈ codes) (hdpos : 0 < d.bits) (hcpos : 0 < c.bits)
    (hconflict : Conflict flags.le d c) (hseen : ¬ Overlooked sort flags.le nbBits codes d c)
    (h : ffInitVlcSparse sort malloc realloc flags vlcArg nbBits codes = some (r, vlc')) :
    r < 0 := by
  by_contra hr
  obtain ⟨hcopied, ret, vlc, vlc₁, hret, hbits, hsize, hbuild⟩ :=
    ffInitVlcSparse_some h (by lia)
  obtain ⟨-, hpairs⟩ := buildTable_pairs 33 0 nbBits vlc vlc₁ nbBits _ ret (by lia) hbits.ge hnb
    (Nat.le_refl _) (prepared_buf hsort hcopied) hbuild hret
  obtain ⟨hd3, hd32, hdcode⟩ := hcopied d hd hdpos.ne'
  obtain ⟨hc3, hc32, hccode⟩ := hcopied c hc hcpos.ne'
  have hdword := codeword_prepareCode flags.le hd32
  have hcword := codeword_prepareCode flags.le hc32
  have hbegins : givenWord flags.le d <+: givenWord flags.le c := by
    rcases hconflict with h | h
    · exact h.1
    · rw [h.1]
  have hlength : d.bits ≤ c.bits := by
    have := hbegins.length_le
    rwa [givenWord, givenWord, length_bits, length_bits] at this
  have hdifferent : ¬ (givenWord flags.le d = givenWord flags.le c ∧ d.symbol = c.symbol) := by
    rcases hconflict with h | h
    · exact fun he => h.2 he.1
    · exact fun he => h.2 he.2
  have hne : prepareCode flags.le d ≠ prepareCode flags.le c := by
    intro heq
    rw [← hdword, ← hcword, heq] at hdifferent
    have hsymbol : (prepareCode flags.le d).symbol = (prepareCode flags.le c).symbol := by
      rw [heq]
    exact hdifferent ⟨rfl, hsymbol⟩
  have hambiguous : Ambiguous (prepareCode flags.le d) (prepareCode flags.le c) := by
    rw [Ambiguous, hdword, hcword]
    exact ⟨Or.inl hbegins, hdifferent⟩
  rw [List.pairwise_iff_forall_sublist] at hpairs
  have hback : ¬ [prepareCode flags.le c, prepareCode flags.le d].Sublist
      (longCodes sort flags.le nbBits codes ++ shortCodes flags.le nbBits codes) := by
    intro hsub
    obtain ⟨m, hm, hle, hlt⟩ := hpairs hsub ⟨hambiguous.1.symm, fun he =>
      hambiguous.2 ⟨he.1.symm, he.2.symm⟩⟩
    replace hle : c.bits ≤ m * nbBits := hle
    replace hlt : m * nbBits < d.bits := hlt
    lia
  have hsub := (sublist_pair ((mem_buf hsort).2 ⟨d, hd, hdpos.ne', rfl⟩)
    ((mem_buf hsort).2 ⟨c, hc, hcpos.ne', rfl⟩) hne).resolve_right hback
  obtain ⟨m, hm, hle, hlt⟩ := hpairs hsub hambiguous
  replace hle : d.bits ≤ m * nbBits := hle
  replace hlt : m * nbBits < c.bits := hlt
  have hlong : nbBits < c.bits := by
    have := Nat.mul_le_mul_right nbBits hm
    lia
  have hin := sublist_longCodes (l := [prepareCode flags.le d]) hsub hlong
  obtain ⟨e, -, hdlong, heq⟩ := (mem_longCodes hsort).1 (hin.subset List.mem_cons_self)
  replace hdlong : nbBits < d.bits := by
    have hbits : (prepareCode flags.le e).bits = (prepareCode flags.le d).bits := by rw [heq]
    exact hdlong.trans_eq hbits
  have hm2 : m = 2 := by
    have hlow : m ≠ 1 := by
      rintro rfl
      lia
    have hhigh : m < 3 := by
      by_contra hge
      have := Nat.mul_le_mul_right nbBits (Nat.le_of_not_lt hge)
      lia
    lia
  subst hm2
  exact hseen ⟨hdlong, hle, hlt, fun h => hback (h.trans (List.sublist_append_left _ _))⟩

end Init

end FFmpeg.Libavcodec.Vlc
