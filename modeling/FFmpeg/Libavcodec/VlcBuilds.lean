import FFmpeg.Libavcodec.VlcAmbiguous

/-!
# When tables are built

With enough memory and tables that an index of 16 bits reaches, `build_table` fails for no other
reason than a slot that is filled with something else.
-/

namespace FFmpeg.Libavcodec.Vlc

open Common Libavutil

variable {c d p : VLCcode} {le : Bool} {t j base o k : Nat} {codes done : List VLCcode}
  {vlc vlc' : VLC} {realloc : Nat → Bool} {flags : InitFlags}

section Depth

/-- The loop always comes to an end if the calls for the subtables do. -/
theorem buildLoop_ne_none {build : VLC → Nat → List VLCcode → Option (Int × VLC)}
    (hbuild : ∀ vlc n group, 0 < n → 0 < k → (∀ c ∈ group, c.bits < k) →
      build vlc n group ≠ none) (ht : 0 < t) (hcodes : ∀ c ∈ codes, c.bits ≤ k) :
    buildLoop build le t base codes vlc ≠ none := by
  induction hn : codes.length using Nat.strong_induction_on generalizing codes vlc with
  | _ n ih =>
    cases codes with
    | nil =>
      rw [buildLoop]
      exact Option.some_ne_none _
    | cons c codes =>
      have hrest : ∀ c ∈ codes, c.bits ≤ k := fun d hd => hcodes d (List.mem_cons_of_mem _ hd)
      rw [buildLoop]
      by_cases hc : c.bits ≤ t
      · rw [if_pos hc]
        split
        · exact Option.some_ne_none _
        · exact ih codes.length (by rw [← hn]; exact Nat.lt_succ_self _) hrest rfl
      · have hlong : t < c.bits := by lia
        have hck := hcodes c List.mem_cons_self
        rw [if_neg hc]
        dsimp only
        split
        · rename_i hnone
          refine absurd hnone (hbuild _ _ _ (subtableBits_pos _ ht hlong) (by lia) ?_)
          intro d hd
          obtain ⟨e, he, rfl⟩ := List.mem_map.1 hd
          have hlt := (mem_group hlong he).1
          have hle : e.bits ≤ k := by
            rcases List.mem_cons.1 he with rfl | he
            · exact hck
            · exact hrest e ((List.takeWhile_sublist _).subset he)
          show e.bits - t < k
          lia
        · split
          · exact Option.some_ne_none _
          · split
            · exact Option.some_ne_none _
            · have hle := (List.dropWhile_sublist (l := codes) (sameSubtable t c)).length_le
              refine ih _ ?_ (fun d hd => hrest d ((List.dropWhile_sublist _).subset hd)) rfl
              rw [← hn, List.length_cons]
              lia

theorem buildTable_ne_none (hdynamic : flags.useNewStatic = false) {depth : Nat} (ht : 0 < t)
    (hdepth : 0 < depth) (hcodes : ∀ c ∈ codes, c.bits < depth) :
    buildTable realloc flags depth vlc t codes ≠ none := by
  induction depth generalizing vlc t codes with
  | zero => lia
  | succ depth ih =>
    rw [buildTable]
    split
    · exact Option.some_ne_none _
    · split
      · rename_i hnone
        rw [allocTable, hdynamic] at hnone
        dsimp only at hnone
        repeat' split at hnone
        all_goals cases hnone
        rename_i hfalse
        cases hfalse
      · split
        · exact Option.some_ne_none _
        · split
          · rename_i hnone
            exact absurd hnone (buildLoop_ne_none (fun _ _ _ hn hk hgroup => ih hn hk hgroup) ht
              fun c hc => Nat.le_of_lt_succ (hcodes c hc))
          · split <;> exact Option.some_ne_none _

end Depth

section Settled

/-- A pair of codes, the first one in front, that the tables can hold.  A symbol that is stored as
a negative number is not taken for itself when the code comes again. -/
def Settled (t : Nat) (d c : VLCcode) : Prop :=
  (Ambiguous d c → Hidden t d c) ∧ (codeword d = codeword c → d.symbol.toNat < 2 ^ 15)

/-- The code that a filled slot belongs to. -/
def FromCode (le : Bool) (t : Nat) (p : VLCcode) (j : Nat) (e : VlcElem) : Prop :=
  Covers le t p j ∧ (t < p.bits ∨ (p.bits ≤ t ∧ e = ⟨int16 p.symbol.toNat, p.bits⟩))

/-- A slot that belongs to an earlier code is free for a later one of the same table. -/
theorem admits_of_settled {e : VlcElem} (hset : Settled t p c) (hp : p.bits ≤ 32)
    (hc : c.bits ≤ t) (hc32 : c.bits ≤ 32) (hcover : Covers le t c j)
    (hfrom : FromCode le t p j e) : Admits c.bits c.symbol.toNat e := by
  have hnot : ¬ Ambiguous p c := by
    intro hamb
    obtain ⟨m, hm, -, hlt⟩ := hset.1 hamb
    have := Nat.mul_le_mul_right t hm
    lia
  have hcword := (covers_iff_begins hc hc32).1 hcover
  obtain ⟨hpcover, hlong | ⟨hpt, rfl⟩⟩ := hfrom
  · -- the codeword is the beginning of the longer one
    refine absurd ?_ hnot
    rw [Covers] at hpcover
    have hlength : ((codeword p).take t).length = (bits (bitOrder le) t j).length := by
      rw [List.length_take, length_codeword hp, length_bits, Nat.min_eq_left hlong.le]
    rw [← hpcover.eq_of_length hlength] at hcword
    refine ⟨Or.inr (hcword.trans (List.take_prefix _ _)), ?_⟩
    rintro ⟨heq, -⟩
    have hbits := congrArg List.length heq
    rw [length_codeword hp, length_codeword hc32] at hbits
    lia
  · have hpword := (covers_iff_begins hpt hp).1 hpcover
    by_cases hsame : codeword p = codeword c ∧ p.symbol = c.symbol
    · have hbits := congrArg List.length hsame.1
      rw [length_codeword hp, length_codeword hc32] at hbits
      have hsmall := hset.2 hsame.1
      rw [hsame.2] at hsmall
      refine Or.inr ⟨by rw [hbits], ?_⟩
      rw [hsame.2]
      exact int16_eq (by lia) (by lia)
    · have hone := List.prefix_or_prefix_of_prefix hpword hcword
      exact absurd ⟨hone, hsame⟩ hnot

variable {group : List VLCcode}

/-- What holds of the codes of a subtable holds of their shortened forms. -/
theorem Settled.shorten (h : Settled t d c) (hfront : SameFront t d c) (hd : t < d.bits)
    (hc : t < c.bits) (hd32 : d.bits ≤ 32) (hc32 : c.bits ≤ 32) (hmem : shorten t c ∈ group) :
    Settled (subtableBits t group) (shorten t d) (shorten t c) := by
  have htake : (codeword d).take t = (codeword c).take t := by
    rw [take_codeword hd.le, take_codeword hc.le, (sameFront_iff (by lia)).1 hfront]
  have hdword := codeword_shorten t hd32
  have hcword := codeword_shorten t hc32
  have hd' := List.take_append_drop t (codeword d)
  have hc' := List.take_append_drop t (codeword c)
  refine ⟨?_, ?_⟩
  · rintro ⟨hbegins, hne⟩
    rw [hdword, hcword] at hbegins hne
    have hamb : Ambiguous d c := by
      refine ⟨?_, ?_⟩
      · rw [← hd', ← hc', htake]
        exact hbegins.imp (List.prefix_append_right_inj _).2 (List.prefix_append_right_inj _).2
      · rintro ⟨heq, hsymbol⟩
        exact hne ⟨by rw [heq], hsymbol⟩
    obtain ⟨m, hm, hle, hlt⟩ := h.1 hamb
    -- the first table is behind, so a further one is full
    obtain ⟨m, rfl⟩ : ∃ m', m = m' + 1 := ⟨m - 1, by lia⟩
    have hm' : 0 < m := by
      rcases Nat.eq_zero_or_pos m with rfl | hpos
      · lia
      · exact hpos
    rw [Nat.succ_mul] at hle hlt
    have hmul := Nat.mul_le_mul_right t hm'
    have hfull : subtableBits t group = t := by
      have hcap : subtableBits t group ≤ t := Nat.min_le_right _ _
      by_contra hne
      have hall : c.bits - t ≤ subtableBits t group := le_subtableBits hmem (by lia)
      lia
    rw [hfull]
    refine ⟨m, hm', ?_, ?_⟩
    · show d.bits - t ≤ m * t
      lia
    · show m * t < c.bits - t
      lia
  · intro heq
    apply h.2
    rw [← hd', ← hc', htake, ← hdword, ← hcword, heq]

/-- The number of subtables on the ways to the codes. -/
def subtables (t : Nat) (codes : List VLCcode) : Nat := (codes.map fun c => (c.bits - 1) / t).sum

theorem subtables_append (codes codes' : List VLCcode) :
    subtables t (codes ++ codes') = subtables t codes + subtables t codes' := by
  rw [subtables, subtables, subtables, List.map_append, List.sum_append]

theorem subtables_shorten (ht : 0 < t) (hlong : ∀ c ∈ group, t < c.bits) {n : Nat}
    (hsize : n = t ∨ ∀ c ∈ group, c.bits - t ≤ n) :
    group.length + subtables n (group.map (shorten t)) ≤ subtables t group := by
  induction group with
  | nil => exact Nat.le_refl _
  | cons c group ih =>
    have hrest := ih (fun d hd => hlong d (List.mem_cons_of_mem _ hd))
      (hsize.imp_right fun h d hd => h d (List.mem_cons_of_mem _ hd))
    have hc := hlong c List.mem_cons_self
    have hone : (c.bits - t - 1) / n + 1 ≤ (c.bits - 1) / t := by
      have hstep : (c.bits - 1) / t = (c.bits - t - 1) / t + 1 := by
        rw [← Nat.add_div_right _ ht]
        congr 1
        lia
      rcases hsize with rfl | hsmall
      · exact hstep.ge
      · have hzero : (c.bits - t - 1) / n = 0 := by
          apply Nat.div_eq_of_lt
          have := hsmall c List.mem_cons_self
          lia
        rw [hzero, hstep, Nat.zero_add]
        exact Nat.le_add_left 1 _
    simp only [subtables, List.map_cons, List.sum_cons, List.length_cons] at hrest ⊢
    replace hone : ((shorten t c).bits - 1) / n + 1 ≤ (c.bits - 1) / t := hone
    lia

end Settled

section Builds

/-- There is nothing behind the tables. -/
def Clean (vlc : VLC) : Prop := ∀ x, vlc.tableSize ≤ x → vlc.table.getD x ⟨0, 0⟩ = ⟨0, 0⟩

/-- Each slot is empty or belongs to a code. -/
def Filled (le : Bool) (t base : Nat) (done : List VLCcode) (table : List VlcElem) : Prop :=
  ∀ j < 2 ^ t, slotAt table base j = ⟨0, 0⟩ ∨ ∃ p ∈ done, FromCode le t p j (slotAt table base j)

/-- The tables have grown by at most `cost` slots. -/
structure Grown (k cost : Nat) (vlc vlc' : VLC) : Prop where
  extends_ : Extends k vlc vlc'
  clean : Clean vlc'
  size_le : vlc'.tableSize ≤ vlc.tableSize + cost

/-- When the call for a subtable is known to succeed. -/
def Builds (build : VLC → Nat → List VLCcode → Option (Int × VLC)) (o t k : Nat) : Prop :=
  ∀ (vlc : VLC) (n : Nat) (group : List VLCcode), 0 < k → vlc.tableSize ≤ vlc.table.length →
    n ≤ vlc.bits → 0 < n → n ≤ t → Prepared o n group → (∀ c ∈ group, c.bits < k) →
    group.Pairwise (Settled n) → Clean vlc →
    vlc.tableSize + 2 ^ n * (1 + subtables n group) ≤ 2 ^ 15 →
    ∃ vlc', build vlc n group = some ((vlc.tableSize : Int), vlc') ∧
      Grown vlc.tableSize (2 ^ n * (1 + subtables n group)) vlc vlc'

theorem group_cost (codes : List VLCcode) (ht : 0 < t) (hc : t < c.bits) :
    2 ^ subtableBits t ((c :: codes.takeWhile (sameSubtable t c)).map (shorten t)) *
        (1 + subtables (subtableBits t ((c :: codes.takeWhile (sameSubtable t c)).map (shorten t)))
          ((c :: codes.takeWhile (sameSubtable t c)).map (shorten t))) ≤
      2 ^ t * subtables t (c :: codes.takeWhile (sameSubtable t c)) := by
  have hcap : subtableBits t ((c :: codes.takeWhile (sameSubtable t c)).map (shorten t)) ≤ t :=
    Nat.min_le_right _ _
  have hcount := subtables_shorten ht (fun d hd => (mem_group hc hd).1)
    (n := subtableBits t ((c :: codes.takeWhile (sameSubtable t c)).map (shorten t))) (by
      rcases Nat.lt_or_ge (subtableBits t
        ((c :: codes.takeWhile (sameSubtable t c)).map (shorten t))) t with hsmall | hfull
      · right
        intro d hd
        exact le_subtableBits (List.mem_map_of_mem hd) hsmall
      · left
        lia)
  rw [List.length_cons] at hcount
  exact Nat.mul_le_mul (Nat.pow_le_pow_right (by decide) hcap) (by lia)

theorem fillSlots_free {table : List VlcElem} (hc : Justified c) (ht : c.bits ≤ t) (htop : t ≤ 32)
    (hroom : base + 2 ^ t ≤ table.length)
    (hfree : ∀ j < 2 ^ t, Covers le t c j → Admits c.bits c.symbol.toNat (slotAt table base j)) :
    ∃ table', fillSlots base (slotInc le c) c.bits c.symbol.toNat (2 ^ (t - c.bits))
      (firstSlot le t c) table = some table' := by
  apply fillSlots_isSome (slotInc_pos le c)
  · intro i hi
    have := ((slot_iff_covers hc ht htop).1 hi).1
    lia
  · intro i hi
    obtain ⟨hi, hcover⟩ := (slot_iff_covers hc ht htop).1 hi
    exact hfree i hi hcover

/-- The loop succeeds if no pair of codes is in the way and the subtables fit. -/
theorem buildLoop_builds {build : VLC → Nat → List VLCcode → Option (Int × VLC)}
    (hbuild : Builds build (o + t) t k) (ht : 0 < t) (htop : t ≤ 30)
    (hprep : Prepared o t codes) (hcodes : ∀ c ∈ codes, c.bits ≤ k)
    (hroom : vlc.tableSize ≤ vlc.table.length) (hbase : base + 2 ^ t ≤ vlc.tableSize)
    (hbits : t ≤ vlc.bits) (hdone : ∀ p ∈ done, p.bits ≤ 32 ∧ ∀ c ∈ codes, Settled t p c)
    (hset : codes.Pairwise (Settled t)) (hfilled : Filled le t base done vlc.table)
    (hclean : Clean vlc) (hsize : vlc.tableSize + 2 ^ t * subtables t codes ≤ 2 ^ 15) :
    ∃ vlc', buildLoop build le t base codes vlc = some ((base : Int), vlc') ∧
      Grown base (2 ^ t * subtables t codes) vlc vlc' := by
  induction hn : codes.length using Nat.strong_induction_on generalizing codes done vlc with
  | _ n ih =>
    cases codes with
    | nil =>
      exact ⟨vlc, by rw [buildLoop], ⟨rfl, Nat.le_refl _, hroom, fun _ _ => rfl⟩, hclean,
        Nat.le_add_right _ _⟩
    | cons c codes =>
      have hjustified := hprep.justified c List.mem_cons_self
      have hrest : ∀ d ∈ codes, d.bits ≤ k := fun d hd => hcodes d (List.mem_cons_of_mem _ hd)
      obtain ⟨hfirst, hset'⟩ := List.pairwise_cons.1 hset
      rw [buildLoop]
      by_cases hc : c.bits ≤ t
      · rw [if_pos hc]
        obtain ⟨table, hfill⟩ : ∃ table, fillSlots base (slotInc le c) c.bits c.symbol.toNat
            (2 ^ (t - c.bits)) (firstSlot le t c) vlc.table = some table := by
          apply fillSlots_free hjustified hc (by lia) (by lia)
          intro j hj hcover
          rcases hfilled j hj with hempty | ⟨p, hp, hfrom⟩
          · rw [hempty]
            exact Or.inl ⟨rfl, rfl⟩
          · exact admits_of_settled ((hdone p hp).2 c List.mem_cons_self) (hdone p hp).1 hc
              hjustified.bits_le hcover hfrom
        obtain ⟨hlength, hnew, hkept, hsame⟩ :=
          fillSlots_covers hjustified hc (by lia) (by lia) hfill
        have hcount : subtables t codes ≤ subtables t (c :: codes) := by
          rw [subtables, subtables, List.map_cons, List.sum_cons]
          exact Nat.le_add_left _ _
        have hcost := Nat.mul_le_mul_left (2 ^ t) hcount
        have hdone' : ∀ p ∈ c :: done, p.bits ≤ 32 ∧ ∀ d ∈ codes, Settled t p d := by
          intro p hp
          rcases List.mem_cons.1 hp with rfl | hp
          · exact ⟨hjustified.bits_le, hfirst⟩
          · exact ⟨(hdone p hp).1, fun d hd => (hdone p hp).2 d (List.mem_cons_of_mem _ hd)⟩
        have hfilled' : Filled le t base (c :: done) table := by
          intro j hj
          by_cases hcover : Covers le t c j
          · exact Or.inr ⟨c, List.mem_cons_self, hcover, Or.inr ⟨hc, (hnew j hj hcover).2⟩⟩
          · rw [hkept j hj hcover]
            rcases hfilled j hj with hempty | ⟨p, hp, hfrom⟩
            · exact Or.inl hempty
            · exact Or.inr ⟨p, List.mem_cons_of_mem _ hp, hfrom⟩
        have hclean' : Clean { vlc with table := table } :=
          fun x hx => (hsame x (Or.inr (hbase.trans hx))).trans (hclean x hx)
        have hroom' : ({ vlc with table := table } : VLC).tableSize ≤
            ({ vlc with table := table } : VLC).table.length := by
          show vlc.tableSize ≤ table.length
          lia
        obtain ⟨vlc', hloop, hext, hclean'', hle⟩ := ih codes.length
          (by rw [← hn]; exact Nat.lt_succ_self _)
          (hprep.sublist (List.sublist_cons_self c codes)) hrest
          hroom' hbase hbits hdone' hset' hfilled' hclean'
          (show vlc.tableSize + 2 ^ t * subtables t codes ≤ 2 ^ 15 by lia) rfl
        rw [hfill]
        refine ⟨vlc', hloop, ⟨hext.bits_eq, hext.size_le, hext.room, ?_⟩, hclean'', ?_⟩
        · intro x hx
          exact (hext.same x hx).trans (hsame x (Or.inl hx))
        · replace hle : vlc'.tableSize ≤ vlc.tableSize + 2 ^ t * subtables t codes := hle
          lia
      · have hlong : t < c.bits := by lia
        have hj := (bits_subtableSlot le hlong.le hjustified.bits_le).1
        have hin : base + subtableSlot le t c < vlc.tableSize := by lia
        have hpos := subtableBits_pos (codes.takeWhile (sameSubtable t c)) ht hlong
        have hcap : subtableBits t
            ((c :: codes.takeWhile (sameSubtable t c)).map (shorten t)) ≤ t := Nat.min_le_right _ _
        have hsub : (c :: codes.takeWhile (sameSubtable t c)).Sublist (c :: codes) :=
          (List.takeWhile_sublist _).cons_cons c
        have hcount : subtables t (c :: codes) =
            subtables t (c :: codes.takeWhile (sameSubtable t c)) +
              subtables t (codes.dropWhile (sameSubtable t c)) := by
          rw [← subtables_append, List.cons_append, List.takeWhile_append_dropWhile]
        have hcost := group_cost codes ht hlong
        rw [hcount, Nat.mul_add] at hsize
        have hsettled : ((c :: codes.takeWhile (sameSubtable t c)).map (shorten t)).Pairwise
            (Settled (subtableBits t
              ((c :: codes.takeWhile (sameSubtable t c)).map (shorten t)))) := by
          rw [List.pairwise_map]
          refine (hset.sublist hsub).imp_of_mem ?_
          intro d e hd he hde
          obtain ⟨hdlong, hdfront⟩ := mem_group hlong hd
          obtain ⟨helong, hefront⟩ := mem_group hlong he
          exact hde.shorten (hdfront.trans hefront.symm) hdlong helong
            (hprep.justified d (hsub.subset hd)).bits_le
            (hprep.justified e (hsub.subset he)).bits_le (List.mem_map_of_mem he)
        rw [if_neg hc]
        dsimp only
        have hsize' : vlc.tableSize + 2 ^ t *
            subtables t (c :: codes.takeWhile (sameSubtable t c)) ≤ 2 ^ 15 := by lia
        have hgroup := fun vlc₁ hroom₁ hbits₁ hclean₁ hsize₁ =>
          hbuild vlc₁ _ _ (by have := hcodes c List.mem_cons_self; lia) hroom₁ hbits₁ hpos hcap
            (hprep.group hlong _) (by
              intro d hd
              obtain ⟨e, he, rfl⟩ := List.mem_map.1 hd
              have hlt := (mem_group hlong he).1
              have hle := hcodes e (hsub.subset he)
              show e.bits - t < k
              lia) hsettled hclean₁ hsize₁
        obtain ⟨vlc₁, hvlc₁⟩ : ∃ v : VLC, v = { vlc with
            table := vlc.table.set (base + subtableSlot le t c)
              ⟨(vlc.table.getD (base + subtableSlot le t c) ⟨0, 0⟩).sym,
                int16 (-(subtableBits t
                  ((c :: codes.takeWhile (sameSubtable t c)).map (shorten t)) : Nat))⟩ } := ⟨_, rfl⟩
        rw [← hvlc₁]
        have hsize₁ : vlc₁.tableSize = vlc.tableSize := by rw [hvlc₁]
        have hbits₁ : vlc₁.bits = vlc.bits := by rw [hvlc₁]
        have hlength₁ : vlc₁.table.length = vlc.table.length := by
          rw [hvlc₁]
          exact List.length_set
        have hkept₁ : ∀ x, x ≠ base + subtableSlot le t c →
            vlc₁.table.getD x ⟨0, 0⟩ = vlc.table.getD x ⟨0, 0⟩ := by
          intro x hx
          rw [hvlc₁]
          exact getD_set_ne hx
        obtain ⟨vlc₂, hbuilt, hext₂, hclean₂, hle₂⟩ := hgroup vlc₁ (by lia) (by lia)
          (fun x hx => by rw [hkept₁ x (by lia), hclean x (by lia)])
          (by rw [hsize₁]; exact (Nat.add_le_add_left hcost _).trans hsize')
        have hsmall : vlc.tableSize < 2 ^ 15 := by
          have hone : 0 < 2 ^ t * subtables t (c :: codes.takeWhile (sameSubtable t c)) :=
            (Nat.mul_pos (Nat.two_pow_pos _) (by lia)).trans_le hcost
          lia
        have hindex : int16 vlc.tableSize = vlc.tableSize := int16_eq (by lia) (by lia)
        rw [hbuilt, hsize₁]
        dsimp only
        rw [if_neg (by lia), if_neg (not_not.2 hindex), hindex]
        -- in this table only the slot of the subtable has changed
        have hin₂ : base + subtableSlot le t c < vlc₂.table.length := by
          have := hext₂.size_le.trans hext₂.room
          lia
        have hkept : ∀ x < vlc.tableSize, x ≠ base + subtableSlot le t c →
            (vlc₂.table.set (base + subtableSlot le t c) ⟨vlc.tableSize,
              (vlc₂.table.getD (base + subtableSlot le t c) ⟨0, 0⟩).bits⟩).getD x ⟨0, 0⟩ =
                vlc.table.getD x ⟨0, 0⟩ := by
          intro x hx hne
          rw [getD_set_ne hne, hext₂.same x (by lia), hkept₁ x hne]
        obtain ⟨vlc₃, hvlc₃⟩ : ∃ v : VLC, v = { vlc₂ with
            table := vlc₂.table.set (base + subtableSlot le t c) ⟨vlc.tableSize,
              (vlc₂.table.getD (base + subtableSlot le t c) ⟨0, 0⟩).bits⟩ } := ⟨_, rfl⟩
        have hsize₃ : vlc₃.tableSize = vlc₂.tableSize := by rw [hvlc₃]
        have hbits₃ : vlc₃.bits = vlc.bits := by rw [hvlc₃, ← hbits₁, ← hext₂.bits_eq]
        have hlength₃ : vlc₃.table.length = vlc₂.table.length := by
          rw [hvlc₃]
          exact List.length_set
        have hroom₂ := hext₂.room
        have hgrown₂ := hext₂.size_le
        have hkept₃ : ∀ x < vlc.tableSize, x ≠ base + subtableSlot le t c →
            vlc₃.table.getD x ⟨0, 0⟩ = vlc.table.getD x ⟨0, 0⟩ := by
          rw [hvlc₃]
          exact hkept
        have hclean₃ : Clean vlc₃ := by
          intro x hx
          rw [hvlc₃]
          exact (getD_set_ne (by lia)).trans (hclean₂ x (by lia))
        have hdone' : ∀ p ∈ c :: done, p.bits ≤ 32 ∧
            ∀ d ∈ codes.dropWhile (sameSubtable t c), Settled t p d := by
          intro p hp
          rcases List.mem_cons.1 hp with rfl | hp
          · exact ⟨hjustified.bits_le, fun d hd =>
              hfirst d ((List.dropWhile_sublist _).subset hd)⟩
          · exact ⟨(hdone p hp).1, fun d hd => (hdone p hp).2 d
              (List.mem_cons_of_mem _ ((List.dropWhile_sublist _).subset hd))⟩
        have hfilled' : Filled le t base (c :: done) vlc₃.table := by
          intro j hj'
          by_cases hne : j = subtableSlot le t c
          · exact Or.inr ⟨c, List.mem_cons_self,
              (covers_iff_eq hlong.le hjustified.bits_le hj').2 hne, Or.inl hlong⟩
          · rw [slotAt, hkept₃ (base + j) (by lia) (by lia)]
            rcases hfilled j hj' with hempty | ⟨p, hp, hfrom⟩
            · exact Or.inl hempty
            · exact Or.inr ⟨p, List.mem_cons_of_mem _ hp, hfrom⟩
        obtain ⟨vlc', hloop, hext', hclean', hle'⟩ := ih _
          (by
            have hle := (List.dropWhile_sublist (l := codes) (sameSubtable t c)).length_le
            rw [← hn, List.length_cons]
            lia)
          (hprep.sublist ((List.dropWhile_sublist _).trans (List.sublist_cons_self c codes)))
          (fun d hd => hrest d ((List.dropWhile_sublist _).subset hd)) (by lia) (by lia)
          (by lia) hdone' (hset'.sublist (List.dropWhile_sublist _)) hfilled' hclean₃
          (by lia) rfl
        rw [← hvlc₃]
        refine ⟨vlc', hloop, ⟨by rw [hext'.bits_eq, hbits₃], ?_, hext'.room, ?_⟩, hclean', ?_⟩
        · exact (by lia : vlc.tableSize ≤ vlc₃.tableSize).trans hext'.size_le
        · intro x hx
          exact (hext'.same x hx).trans (hkept₃ x (by lia) (by lia))
        · rw [hcount, Nat.mul_add]
          lia

end Builds

end FFmpeg.Libavcodec.Vlc
