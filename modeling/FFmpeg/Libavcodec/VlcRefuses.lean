import FFmpeg.Libavcodec.VlcBuilds

/-!
# Which ambiguous lists of codes are refused

`ff_init_vlc_sparse` returns an error for a list of codes with an ambiguous pair that is not
overlooked.  If the tables fit, it returns an error for no other ambiguous list.
-/

namespace FFmpeg.Libavcodec.Vlc

open Common Libavutil

variable {c d : VLCcode} {le : Bool} {nbBits o t : Nat} {codes : List VLCcode}
  {vlc vlc' : VLC} {malloc realloc : Nat → Bool} {flags : InitFlags}
  {sort : List VLCcode → List VLCcode}

section Tables

/-- A new table is empty. -/
theorem allocTable_clean (hdynamic : flags.useNewStatic = false)
    (hrealloc : ∀ n, realloc n = true) {size : Nat} (hroom : vlc.tableSize ≤ vlc.table.length)
    (hsize : size ≤ 2 ^ vlc.bits) (hclean : Clean vlc) :
    ∃ vlc₁, allocTable realloc vlc size flags.useNewStatic = some ((vlc.tableSize : Int), vlc₁) ∧
      Extends vlc.tableSize vlc vlc₁ ∧ vlc₁.tableSize = vlc.tableSize + size ∧
      ∀ x, vlc.tableSize ≤ x → vlc₁.table.getD x ⟨0, 0⟩ = ⟨0, 0⟩ := by
  obtain ⟨vlc₁, halloc, hnew⟩ : ∃ vlc₁,
      allocTable realloc vlc size flags.useNewStatic = some ((vlc.tableSize : Int), vlc₁) ∧
        ∀ x, vlc.tableSize ≤ x → vlc₁.table.getD x ⟨0, 0⟩ = ⟨0, 0⟩ := by
    rw [allocTable, hdynamic]
    by_cases hmore : vlc.table.length < vlc.tableSize + size
    · rw [if_pos hmore, if_neg Bool.false_ne_true, if_pos (hrealloc _)]
      refine ⟨_, rfl, ?_⟩
      intro x hx
      show (vlc.table ++ List.replicate (2 ^ vlc.bits) (⟨0, 0⟩ : VlcElem)).getD x ⟨0, 0⟩ = ⟨0, 0⟩
      by_cases hold : x < vlc.table.length
      · rw [List.getD_eq_getElem?_getD, List.getElem?_append_left hold,
          ← List.getD_eq_getElem?_getD]
        exact hclean x hx
      · rw [List.getD_eq_getElem?_getD, List.getElem?_append_right (by lia),
          List.getElem?_replicate]
        split <;> rfl
    · rw [if_neg hmore]
      exact ⟨_, rfl, hclean⟩
  obtain ⟨-, hext, htable⟩ := allocTable_extends hroom hsize halloc (by lia)
  exact ⟨vlc₁, halloc, hext, htable, hnew⟩

/-- With enough memory a table is built from codes that are settled and fit. -/
theorem buildTable_builds (hdynamic : flags.useNewStatic = false)
    (hrealloc : ∀ n, realloc n = true) (depth o t : Nat) :
    Builds (buildTable realloc flags depth) o t depth := by
  induction depth generalizing o t with
  | zero =>
    intro vlc n group h
    lia
  | succ depth ih =>
    intro vlc n group _ hroom hbits hpos _ hprep hcodes hset hclean hsize
    have hn : n ≤ 15 := by
      by_contra hgt
      have hpow : 2 ^ 16 ≤ 2 ^ n := Nat.pow_le_pow_right (by decide) (by lia)
      have hmul : 2 ^ n * 1 ≤ 2 ^ n * (1 + subtables n group) :=
        Nat.mul_le_mul_left _ (Nat.le_add_right _ _)
      lia
    obtain ⟨vlc₁, halloc, hext₁, hsize₁, hnew⟩ := allocTable_clean hdynamic hrealloc hroom
      (Nat.pow_le_pow_right (by decide) hbits) hclean
    rw [Nat.mul_add, Nat.mul_one] at hsize
    obtain ⟨vlc₂, hloop, hext₂, hclean₂, hle₂⟩ : ∃ vlc₂, buildLoop (buildTable realloc flags depth)
        flags.le n vlc.tableSize group vlc₁ = some ((vlc.tableSize : Int), vlc₂) ∧
          Grown vlc.tableSize (2 ^ n * subtables n group) vlc₁ vlc₂ :=
      buildLoop_builds (ih (o + n) n) hpos (by lia) hprep
        (fun c hc => Nat.le_of_lt_succ (hcodes c hc)) hext₁.room hsize₁.ge
        (hbits.trans hext₁.bits_eq.ge)
        (show ∀ p ∈ ([] : List VLCcode), p.bits ≤ 32 ∧ ∀ c ∈ group, Settled n p c by simp) hset
        (fun j hj => Or.inl (hnew _ (Nat.le_add_right _ _)))
        (fun x hx => hnew x (hext₁.size_le.trans hx)) (by lia)
    have hboth := hext₁.trans hext₂
    rw [buildTable, if_neg (by lia), halloc]
    dsimp only
    rw [if_neg (by lia), Int.toNat_natCast, hloop]
    dsimp only
    rw [if_neg (by lia)]
    refine ⟨_, rfl, ⟨hboth.bits_eq, hboth.size_le, ?_, ?_⟩, ?_, ?_⟩
    · rw [length_markUnused]
      exact hboth.room
    · intro x hx
      exact (getD_markUnused (Or.inl hx) _).trans (hboth.same x hx)
    · intro x hx
      have hbehind : vlc.tableSize + 2 ^ n ≤ x := hsize₁.ge.trans (hext₂.size_le.trans hx)
      exact (getD_markUnused (Or.inr hbehind) _).trans (hclean₂ x hx)
    · show vlc₂.tableSize ≤ vlc.tableSize + 2 ^ n * (1 + subtables n group)
      rw [Nat.mul_add, Nat.mul_one]
      lia

end Tables

section Refuses

/-- Nothing but an error comes out: an error is returned, or the failed assertion for a static
table aborts the program. -/
def Refused (flags : InitFlags) (result : Option (Int × VLC)) : Prop :=
  (∃ r vlc', r < 0 ∧ result = some (r, vlc')) ∨ (flags.useNewStatic = true ∧ result = none)

/-- Only for a static table nothing is returned. -/
theorem ffInitVlcSparse_ne_none (hsort : SortsCodes sort) (hnb : 0 < nbBits) {vlcArg : VLC}
    (hdynamic : flags.useNewStatic = false) :
    ffInitVlcSparse sort malloc realloc flags vlcArg nbBits codes ≠ none := by
  rw [ffInitVlcSparse, hdynamic, if_neg (by simp)]
  split
  · exact Option.some_ne_none _
  · split
    · exact Option.some_ne_none _
    · rename_i long hlong
      split
      · exact Option.some_ne_none _
      · rename_i short hshort
        obtain ⟨rfl, hlongs⟩ := copyCodes_ok hlong
        obtain ⟨rfl, hshorts⟩ := copyCodes_ok hshort
        split
        · rename_i hnone
          refine absurd hnone (buildTable_ne_none hdynamic hnb (by lia) ?_)
          intro x hx
          obtain ⟨c, hc, hpos, rfl⟩ := (mem_buf hsort).1 hx
          show c.bits < 33
          by_cases hcase : nbBits < c.bits
          · have := (hlongs c hc (by simpa using hcase)).2.1
            lia
          · have := (hshorts c hc (by simpa using ⟨hpos, Nat.le_of_not_lt hcase⟩)).2.1
            lia
        · rw [if_neg Bool.false_ne_true]
          split <;> exact Option.some_ne_none _

/-- The codes are settled in `buf` if every ambiguous pair of them is overlooked. -/
theorem settled_buf (hsort : SortsCodes sort) (hcopied : Copied nbBits codes)
    (hsymbols : ∀ c ∈ codes, c.symbol.toNat < 2 ^ 15)
    (hall : ∀ d ∈ codes, ∀ c ∈ codes, d.bits ≠ 0 → c.bits ≠ 0 → Conflict le d c →
      Overlooked sort le nbBits codes d c) :
    (longCodes sort le nbBits codes ++ shortCodes le nbBits codes).Pairwise (Settled nbBits) := by
  rw [List.pairwise_iff_forall_sublist]
  intro x y hsub
  obtain ⟨d, hd, hdpos, rfl⟩ := (mem_buf hsort).1 (hsub.subset List.mem_cons_self)
  obtain ⟨c, hc, hcpos, rfl⟩ := (mem_buf hsort).1 (hsub.subset
    (List.mem_cons_of_mem _ List.mem_cons_self))
  have hdword := codeword_prepareCode le (hcopied d hd hdpos).2.1
  have hcword := codeword_prepareCode le (hcopied c hc hcpos).2.1
  refine ⟨?_, fun _ => hsymbols d hd⟩
  rintro ⟨hbegins, hne⟩
  rw [hdword, hcword] at hbegins hne
  replace hne : ¬ (givenWord le d = givenWord le c ∧ d.symbol = c.symbol) := hne
  by_cases hfirst : Conflict le d c
  · obtain ⟨-, hle, hlt, -⟩ := hall d hd c hc hdpos hcpos hfirst
    exact ⟨2, by lia, hle, hlt⟩
  · -- the pair in the other order would have been found
    have hsecond : Conflict le c d := by
      by_cases heq : givenWord le d = givenWord le c
      · exact Or.inr ⟨heq.symm, fun hs => hne ⟨heq, hs.symm⟩⟩
      · rcases hbegins with h | h
        · exact absurd (Or.inl ⟨h, heq⟩) hfirst
        · exact Or.inl ⟨h, Ne.symm heq⟩
    obtain ⟨hlong, hle, hlt, hback⟩ := hall c hc d hd hcpos hdpos hsecond
    exact absurd (sublist_longCodes (l := [prepareCode le d]) hsub hlong) hback

theorem copyCodes_copied (le : Bool) (condition : VLCcode → Bool)
    (h : ∀ c ∈ codes, condition c → c.bits ≤ 3 * nbBits ∧ c.bits ≤ 32 ∧ c.code.toNat < 2 ^ c.bits) :
    copyCodes nbBits le condition codes = .ok ((codes.filter condition).map (prepareCode le)) := by
  induction codes with
  | nil => rfl
  | cons c codes ih =>
    have hrest := ih fun d hd => h d (List.mem_cons_of_mem _ hd)
    rw [copyCodes]
    by_cases hc : condition c
    · obtain ⟨hthree, htop, hcode⟩ := h c List.mem_cons_self hc
      rw [if_pos hc, if_neg (by lia), if_neg (by lia), hrest, List.filter_cons_of_pos hc]
      rfl
    · rw [if_neg hc, hrest, List.filter_cons_of_neg hc]

theorem subtables_buf (hsort : SortsCodes sort) (le : Bool) :
    subtables nbBits (longCodes sort le nbBits codes ++ shortCodes le nbBits codes) ≤
      subtables nbBits codes := by
  have hlong : subtables nbBits (longCodes sort le nbBits codes) ≤ subtables nbBits codes := by
    have hperm := (hsort.perm ((codes.filter fun c => nbBits < c.bits).map (prepareCode le))).map
      fun c : VLCcode => (c.bits - 1) / nbBits
    rw [subtables, longCodes, hperm.sum_eq, List.map_map]
    exact (List.Sublist.map _ List.filter_sublist).sum_le_sum (fun _ _ => Nat.zero_le _)
  have hshort : subtables nbBits (shortCodes le nbBits codes) = 0 := by
    rw [subtables, List.sum_eq_zero_iff]
    intro x hx
    obtain ⟨y, hy, rfl⟩ := List.mem_map.1 hx
    obtain ⟨c, -, ⟨hpos, hle⟩, rfl⟩ := mem_shortCodes.1 hy
    show (c.bits - 1) / nbBits = 0
    exact Nat.div_eq_of_lt (by lia)
  rw [subtables_append, hshort]
  exact hlong

/-- A list of codes without an ambiguous pair that is not overlooked is not refused. -/
theorem ffInitVlcSparse_builds (hsort : SortsCodes sort) (hnb : 0 < nbBits) (vlcArg : VLC)
    (hdynamic : flags.useNewStatic = false) (hmalloc : ∀ n, malloc n = true)
    (hrealloc : ∀ n, realloc n = true) (hcopied : Copied nbBits codes)
    (hsymbols : ∀ c ∈ codes, c.symbol.toNat < 2 ^ 15)
    (hfits : 2 ^ nbBits * (1 + subtables nbBits codes) ≤ 2 ^ 15)
    (hall : ∀ d ∈ codes, ∀ c ∈ codes, d.bits ≠ 0 → c.bits ≠ 0 → Conflict flags.le d c →
      Overlooked sort flags.le nbBits codes d c) :
    ∃ vlc', ffInitVlcSparse sort malloc realloc flags vlcArg nbBits codes = some (0, vlc') := by
  have hlong := copyCodes_copied flags.le (fun c => nbBits < c.bits) fun c hc hcond =>
    hcopied c hc (by
      have hlt : nbBits < c.bits := by simpa using hcond
      lia)
  have hshort := copyCodes_copied flags.le (fun c => c.bits ≠ 0 ∧ c.bits ≤ nbBits)
    fun c hc hcond => hcopied c hc (by
      have hboth : c.bits ≠ 0 ∧ c.bits ≤ nbBits := by simpa using hcond
      exact hboth.1)
  have hprep : Prepared 0 nbBits (longCodes sort flags.le nbBits codes ++
      shortCodes flags.le nbBits codes) := prepared_buf hsort hcopied
  have hdepth : ∀ c ∈ longCodes sort flags.le nbBits codes ++ shortCodes flags.le nbBits codes,
      c.bits < 33 := by
    intro c hc
    have := (hprep.justified c hc).bits_le
    lia
  have hcost := (Nat.mul_le_mul_left (2 ^ nbBits)
    (Nat.add_le_add_left (subtables_buf hsort flags.le) 1)).trans hfits
  obtain ⟨vlc', hbuild, -⟩ := buildTable_builds hdynamic hrealloc 33 0 nbBits ⟨nbBits, [], 0⟩ nbBits
    _ (by decide) (Nat.le_refl 0) (Nat.le_refl _) hnb (Nat.le_refl _) hprep hdepth
    (settled_buf hsort hcopied hsymbols hall) (fun _ _ => rfl)
    (by simpa using hcost)
  rw [ffInitVlcSparse, hdynamic, if_neg (by simp), if_neg (by simp [hmalloc]), hlong]
  dsimp only
  rw [hshort]
  dsimp only
  rw [if_neg Bool.false_ne_true]
  rw [longCodes, shortCodes] at hbuild
  rw [hbuild]
  dsimp only
  rw [if_neg Bool.false_ne_true, if_neg (by simp)]
  exact ⟨_, rfl⟩

/-- A list with an ambiguous pair that is not overlooked is refused.  With enough memory, and
tables that fit, a list with ambiguous pairs is refused only if it has such a pair. -/
theorem ffInitVlcSparse_refuses_iff (hsort : SortsCodes sort) (malloc realloc : Nat → Bool)
    (flags : InitFlags) (vlcArg : VLC) (hnb : 1 ≤ nbBits)
    (hcodes : ∀ c ∈ codes, 1 ≤ c.bits ∧ c.bits ≤ min (3 * nbBits) 32 ∧ c.code.toNat < 2 ^ c.bits) :
    ((∃ d ∈ codes, ∃ c ∈ codes, Conflict flags.le d c ∧
        ¬ Overlooked sort flags.le nbBits codes d c) →
      Refused flags (ffInitVlcSparse sort malloc realloc flags vlcArg nbBits codes)) ∧
    (flags.useNewStatic = false → (∀ n, malloc n = true) → (∀ n, realloc n = true) →
      (∀ c ∈ codes, c.symbol.toNat < 2 ^ 15) →
      2 ^ nbBits * (1 + subtables nbBits codes) ≤ 2 ^ 15 →
      (Refused flags (ffInitVlcSparse sort malloc realloc flags vlcArg nbBits codes) ↔
        ∃ d ∈ codes, ∃ c ∈ codes, Conflict flags.le d c ∧
          ¬ Overlooked sort flags.le nbBits codes d c)) := by
  have hseen : (∃ d ∈ codes, ∃ c ∈ codes, Conflict flags.le d c ∧
      ¬ Overlooked sort flags.le nbBits codes d c) →
      Refused flags (ffInitVlcSparse sort malloc realloc flags vlcArg nbBits codes) := by
    rintro ⟨d, hd, c, hc, hconflict, hseen⟩
    cases hresult : ffInitVlcSparse sort malloc realloc flags vlcArg nbBits codes with
    | none =>
      refine Or.inr ⟨?_, rfl⟩
      by_contra hdynamic
      exact ffInitVlcSparse_ne_none hsort hnb (by simpa using hdynamic) hresult
    | some result =>
      obtain ⟨r, vlc'⟩ := result
      have hneg := ffInitVlcSparse_neg hsort hnb hd hc (hcodes d hd).1 (hcodes c hc).1 hconflict
        hseen hresult
      exact Or.inl ⟨r, vlc', hneg, rfl⟩
  refine ⟨hseen, ?_⟩
  intro hdynamic hmalloc hrealloc hsymbols hfits
  refine ⟨?_, hseen⟩
  intro hrefused
  by_contra hnone
  have hcopied : Copied nbBits codes := by
    intro c hc _
    obtain ⟨-, hlength, hcode⟩ := hcodes c hc
    exact ⟨by lia, by lia, hcode⟩
  obtain ⟨vlc', hbuilt⟩ := ffInitVlcSparse_builds hsort hnb vlcArg hdynamic hmalloc
    hrealloc hcopied hsymbols hfits (by
      intro d hd c hc _ _ hconflict
      by_contra hover
      exact hnone ⟨d, hd, c, hc, hconflict, hover⟩)
  rw [hbuilt] at hrefused
  rcases hrefused with ⟨r, vlc₁, hneg, heq⟩ | ⟨hstatic, heq⟩
  · cases heq
    lia
  · cases heq

/-- A sort of the codes. -/
def sortCodes (l : List VLCcode) : List VLCcode :=
  l.insertionSort fun a b => compareVlcspec a b ≤ 0

theorem sortsCodes : SortsCodes sortCodes where
  perm := fun l => List.perm_insertionSort _ l
  sorted := by
    intro l
    have htotal : Std.Total fun a b : VLCcode => compareVlcspec a b ≤ 0 :=
      ⟨fun a b => by simp only [compareVlcspec]; lia⟩
    have htrans : IsTrans VLCcode fun a b => compareVlcspec a b ≤ 0 :=
      ⟨fun a b c => by simp only [compareVlcspec]; lia⟩
    exact List.pairwise_insertionSort _ l

/-- The codewords `000` and `00001`, which begins with it. -/
def prefixCodes : List VLCcode := [⟨3, 7, 0⟩, ⟨5, 8, 1⟩]

instance : Decidable (Conflict le d c) := inferInstanceAs (Decidable (_ ∨ _))

instance : Decidable (Overlooked sort le nbBits codes d c) :=
  inferInstanceAs (Decidable (_ ∧ _ ∧ _ ∧ _))

theorem prefixCodes_lengths {n : Nat} (hn : 2 ≤ n) : ∀ c ∈ prefixCodes,
    1 ≤ c.bits ∧ c.bits ≤ min (3 * n) 32 ∧ c.code.toNat < 2 ^ c.bits := by
  simp [prefixCodes]
  lia

theorem ffInitVlcSparse_refuses_iff_two :
    Refused ⟨false, false⟩ (ffInitVlcSparse sortCodes (fun _ => true) (fun _ => true)
      ⟨false, false⟩ ⟨0, [], 0⟩ 3 prefixCodes) ∧
    (Refused ⟨false, false⟩ (ffInitVlcSparse sortCodes (fun _ => true) (fun _ => true)
      ⟨false, false⟩ ⟨0, [], 0⟩ 2 prefixCodes) ↔
        ∃ d ∈ prefixCodes, ∃ c ∈ prefixCodes, Conflict false d c ∧
          ¬ Overlooked sortCodes false 2 prefixCodes d c) :=
  ⟨(ffInitVlcSparse_refuses_iff sortsCodes (fun _ => true) (fun _ => true) ⟨false, false⟩
      ⟨0, [], 0⟩ (by decide) (prefixCodes_lengths (n := 3) (by decide))).1 (by decide),
    (ffInitVlcSparse_refuses_iff sortsCodes (fun _ => true) (fun _ => true) ⟨false, false⟩
      ⟨0, [], 0⟩ (by decide) (prefixCodes_lengths (Nat.le_refl 2))).2 rfl (fun _ => rfl)
      (fun _ => rfl) (by decide) (by decide)⟩

/-- With a first table of two bits both codes get into one table. -/
theorem ffInitVlcSparse_overlooks :
    SortsCodes sortCodes ∧ (∃ d ∈ prefixCodes, ∃ c ∈ prefixCodes, Conflict false d c) ∧
      ¬ Refused ⟨false, false⟩ (ffInitVlcSparse sortCodes (fun _ => true) (fun _ => true)
        ⟨false, false⟩ ⟨0, [], 0⟩ 2 prefixCodes) := by
  have hlengths := prefixCodes_lengths (Nat.le_refl 2)
  have hcopied : Copied 2 prefixCodes := by
    intro c hc _
    obtain ⟨-, hlength, hcode⟩ := hlengths c hc
    exact ⟨by lia, by lia, hcode⟩
  obtain ⟨vlc', hbuilt⟩ : ∃ vlc', ffInitVlcSparse sortCodes (fun _ => true) (fun _ => true)
      ⟨false, false⟩ ⟨0, [], 0⟩ 2 prefixCodes = some (0, vlc') :=
    ffInitVlcSparse_builds sortsCodes (by decide) ⟨0, [], 0⟩ rfl (fun _ => rfl) (fun _ => rfl)
      hcopied (by decide) (by decide) (by decide)
  refine ⟨sortsCodes, by decide, ?_⟩
  rw [hbuilt]
  rintro (⟨r, vlc₁, hneg, heq⟩ | ⟨hstatic, -⟩)
  · cases heq
    lia
  · cases hstatic

end Refuses

end FFmpeg.Libavcodec.Vlc
