import FFmpeg.Libavcodec.VlcBuild

/-!
# Which codes a table tells apart

Every slot that a code of the table covers stays filled, with the code itself or with the way to a
subtable.  A code is only put where nothing else is, so a table is built only if each short code
agrees with all codes in front of it.  The way to a subtable is put over whatever is there.
-/

namespace FFmpeg.Libavcodec.Vlc

open Common Libavutil

variable {c d p : VLCcode} {le : Bool} {t j base : Nat}

section Marks

variable {table table' : List VlcElem}

/-- The slot holds the code or leads to a subtable. -/
def Marked (t : Nat) (c : VLCcode) (e : VlcElem) : Prop :=
  e.bits < 0 ∨ (c.bits ≤ t ∧ e.bits = c.bits ∧ e.sym = int16 c.symbol.toNat)

theorem Marked.agrees {e : VlcElem} (h : Marked t p e) (hp : 0 < p.bits) (hc : 0 < c.bits)
    (ha : Admits c.bits c.symbol.toNat e) :
    p.bits ≤ t ∧ p.bits = c.bits ∧ p.symbol = c.symbol := by
  rcases h with hneg | ⟨ht, hbits, hsym⟩
  · rcases ha with ⟨hzero, -⟩ | ⟨hbits, -⟩ <;> lia
  · rcases ha with ⟨hzero, -⟩ | ⟨hbits', hsym'⟩
    · lia
    · exact ⟨ht, by lia, eq_of_int16 (hsym.symm.trans hsym')⟩

theorem slot_iff_covers (hc : Justified c) (ht : c.bits ≤ t) (htop : t ≤ 32) {i : Nat} :
    Slot (slotInc le c) (2 ^ (t - c.bits)) (firstSlot le t c) i ↔ i < 2 ^ t ∧ Covers le t c i := by
  rw [covers_iff_begins ht hc.bits_le, ← hc.slot_iff le ht htop]
  rfl

theorem slotInc_pos (le : Bool) (c : VLCcode) : 0 < slotInc le c := by
  cases le with
  | false => exact Nat.one_pos
  | true => exact Nat.two_pow_pos _

/-- `fillSlots` fills what the code covers. -/
theorem fillSlots_covers (hc : Justified c) (ht : c.bits ≤ t) (htop : t ≤ 32)
    (hroom : base + 2 ^ t ≤ table.length)
    (h : fillSlots base (slotInc le c) c.bits c.symbol.toNat (2 ^ (t - c.bits))
      (firstSlot le t c) table = some table') :
    table'.length = table.length ∧
      (∀ j < 2 ^ t, Covers le t c j → Admits c.bits c.symbol.toNat (slotAt table base j) ∧
        slotAt table' base j = ⟨int16 c.symbol.toNat, c.bits⟩) ∧
      (∀ j < 2 ^ t, ¬ Covers le t c j → slotAt table' base j = slotAt table base j) ∧
      ∀ x, x < base ∨ base + 2 ^ t ≤ x → table'.getD x ⟨0, 0⟩ = table.getD x ⟨0, 0⟩ := by
  obtain ⟨hlength, hfilled, hrest⟩ := fillSlots_some (slotInc_pos le c) (by
    intro i hi
    have := ((slot_iff_covers hc ht htop).1 hi).1
    lia) h
  refine ⟨hlength, ?_, ?_, ?_⟩
  · intro j hj hcover
    obtain ⟨hadmits, hnew⟩ := hfilled j ((slot_iff_covers hc ht htop).2 ⟨hj, hcover⟩)
    have hle := hc.bits_le
    have hbits : int16 c.bits = c.bits := int16_eq (by lia) (by lia)
    rw [hbits] at hnew
    exact ⟨hadmits, hnew⟩
  · intro j hj hcover
    apply hrest
    intro i hi heq
    have hij : i = j := by lia
    exact hcover (hij ▸ ((slot_iff_covers hc ht htop).1 hi).2)
  · intro x hx
    apply hrest
    intro i hi heq
    have := ((slot_iff_covers hc ht htop).1 hi).1
    lia

/-- All slots of the codes are marked. -/
def AllMarked (le : Bool) (t base : Nat) (done : List VLCcode) (table : List VlcElem) : Prop :=
  ∀ p ∈ done, ∀ j < 2 ^ t, Covers le t p j → Marked t p (slotAt table base j)

theorem AllMarked.of_neg {done : List VLCcode} (h : AllMarked le t base done table)
    (hstep : ∀ j < 2 ^ t, slotAt table' base j = slotAt table base j ∨
      (slotAt table' base j).bits < 0) : AllMarked le t base done table' := by
  intro p hp j hj hcover
  rcases hstep j hj with heq | hneg
  · rw [heq]
    exact h p hp j hj hcover
  · exact Or.inl hneg

end Marks

section Loop

variable {o index : Nat} {codes done : List VLCcode} {vlc vlc' : VLC}

/-- A pair of codes that the tables do not tell apart: the first one ends in a table from which
the other one goes on to a subtable. -/
def Hidden (t : Nat) (d c : VLCcode) : Prop := ∃ m, 0 < m ∧ d.bits ≤ m * t ∧ m * t < c.bits

/-- What the call for a subtable is known to do when it succeeds. -/
def BuildsPairs (build : VLC → Nat → List VLCcode → Option (Int × VLC)) (o t : Nat) : Prop :=
  ∀ (vlc vlc' : VLC) (n : Nat) (group : List VLCcode) (r : Int),
    vlc.tableSize ≤ vlc.table.length → n ≤ vlc.bits → 0 < n → n ≤ t → Prepared o n group →
    build vlc n group = some (r, vlc') → 0 ≤ r →
    Extends vlc.tableSize vlc vlc' ∧ group.Pairwise fun d c => Ambiguous d c → Hidden n d c

theorem pairwise_of_shorten {group : List VLCcode} (hlong : ∀ c ∈ group, t < c.bits)
    (htop : ∀ c ∈ group, c.bits ≤ 32)
    (h : (group.map (shorten t)).Pairwise fun d c => Ambiguous d c →
      Hidden (subtableBits t (group.map (shorten t))) d c) :
    group.Pairwise fun d c => Ambiguous d c → Hidden t d c := by
  rw [List.pairwise_map] at h
  refine h.imp_of_mem ?_
  intro d c hd hc himp hamb
  obtain ⟨m, hm, hle, hlt⟩ := himp (hamb.shorten (hlong d hd).le (hlong c hc).le (htop d hd)
    (htop c hc))
  replace hle : d.bits - t ≤ m * subtableBits t (group.map (shorten t)) := hle
  replace hlt : m * subtableBits t (group.map (shorten t)) < c.bits - t := hlt
  have hcap : subtableBits t (group.map (shorten t)) ≤ t := Nat.min_le_right _ _
  rcases Nat.lt_or_ge (subtableBits t (group.map (shorten t))) t with hsmall | hfull
  · -- a smaller subtable has no subtables of its own
    have hall := le_subtableBits (List.mem_map_of_mem hc) hsmall
    replace hall : c.bits - t ≤ subtableBits t (group.map (shorten t)) := hall
    have hmul := Nat.mul_le_mul_right (subtableBits t (group.map (shorten t))) hm
    lia
  · have heq : subtableBits t (group.map (shorten t)) = t := by lia
    rw [heq] at hle hlt
    exact ⟨m + 1, Nat.succ_pos m, by rw [Nat.succ_mul]; lia, by rw [Nat.succ_mul]; lia⟩

/-- What a loop that does not fail says about the codes that it goes over: every short one agrees
with all codes in front of it, and no pair of them is ambiguous but not hidden. -/
structure LoopPairs (le : Bool) (t base : Nat) (done codes : List VLCcode) (vlc vlc' : VLC) :
    Prop where
  extends_ : Extends base vlc vlc'
  short : ∀ p ∈ done, ∀ c ∈ codes, c.bits ≤ t → ∀ j < 2 ^ t, Covers le t p j → Covers le t c j →
    p.bits ≤ t ∧ p.bits = c.bits ∧ p.symbol = c.symbol
  pairs : codes.Pairwise fun d c => Ambiguous d c → Hidden t d c

/-- The step of the loop for a code of the table. -/
theorem LoopPairs.leaf {table : List VlcElem} (hprep : Prepared o t (c :: codes))
    (hdone : ∀ p ∈ done, 0 < p.bits) (hc : c.bits ≤ t) (htop : t ≤ 30)
    (hroom : base + 2 ^ t ≤ vlc.table.length) (hmarked : AllMarked le t base done vlc.table)
    (hfill : fillSlots base (slotInc le c) c.bits c.symbol.toNat (2 ^ (t - c.bits))
      (firstSlot le t c) vlc.table = some table)
    (hrest : AllMarked le t base (c :: done) table →
      LoopPairs le t base (c :: done) codes { vlc with table := table } vlc') :
    LoopPairs le t base done (c :: codes) vlc vlc' := by
  have hjustified := hprep.justified c List.mem_cons_self
  have hcpos := hprep.pos c List.mem_cons_self
  obtain ⟨-, hfilled, hkept, hsame⟩ := fillSlots_covers hjustified hc (by lia) hroom hfill
  have hagrees : ∀ p ∈ done, ∀ j < 2 ^ t, Covers le t p j → Covers le t c j →
      p.bits ≤ t ∧ p.bits = c.bits ∧ p.symbol = c.symbol :=
    fun p hp j hj hpj hcj =>
      (hmarked p hp j hj hpj).agrees (hdone p hp) hcpos (hfilled j hj hcj).1
  have hmarked' : AllMarked le t base (c :: done) table := by
    intro p hp j hj hpj
    by_cases hcj : Covers le t c j
    · rw [(hfilled j hj hcj).2]
      rcases List.mem_cons.1 hp with rfl | hp
      · exact Or.inr ⟨hc, rfl, rfl⟩
      · obtain ⟨hle, heq, hsymbol⟩ := hagrees p hp j hj hpj hcj
        exact Or.inr ⟨hle, by rw [heq], by rw [hsymbol]⟩
    · rw [hkept j hj hcj]
      rcases List.mem_cons.1 hp with rfl | hp
      · exact absurd hpj hcj
      · exact hmarked p hp j hj hpj
  obtain ⟨hext, hshort, hpairs⟩ := hrest hmarked'
  refine ⟨⟨hext.bits_eq, hext.size_le, hext.room, ?_⟩, ?_, ?_⟩
  · intro x hx
    exact (hext.same x hx).trans (hsame x (Or.inl hx))
  · intro p hp d hd hdt j hj hpj hdj
    rcases List.mem_cons.1 hd with rfl | hd
    · exact hagrees p hp j hj hpj hdj
    · exact hshort p (List.mem_cons_of_mem _ hp) d hd hdt j hj hpj hdj
  · refine List.pairwise_cons.2 ⟨?_, hpairs⟩
    intro d hd hamb
    have hdjustified := hprep.justified d (List.mem_cons_of_mem _ hd)
    by_cases hdt : d.bits ≤ t
    · obtain ⟨j, hj, hcj, hdj⟩ := hamb.exists_covers (t := t) le hjustified hdjustified (by lia)
      obtain ⟨-, heq, hsymbol⟩ := hshort c List.mem_cons_self d hd hdt j hj hcj hdj
      exact absurd hamb (not_ambiguous heq hsymbol hjustified.bits_le hdjustified.bits_le)
    · exact ⟨1, Nat.one_pos, by lia, by lia⟩

/-- Behind the codes of a subtable there is no other code that it belongs to. -/
theorem rest_front (hprep : Prepared o t (c :: codes)) (hc : t < c.bits)
    (hshort : ∀ e ∈ codes.dropWhile (sameSubtable t c), e.bits ≤ t → ∀ j < 2 ^ t,
      Covers le t c j → ¬ Covers le t e j) {x : VLCcode}
    (hx : x ∈ codes.dropWhile (sameSubtable t c)) (hlong : t < x.bits) : ¬ SameFront t x c := by
  intro hfront
  have hjustified := hprep.justified c List.mem_cons_self
  have htop : t ≤ 32 := hc.le.trans hjustified.bits_le
  obtain ⟨e, rest, hsplit⟩ := List.exists_cons_of_ne_nil (List.ne_nil_of_mem hx)
  have hhead : sameSubtable t c e = false := by
    have h := List.head?_dropWhile_not (sameSubtable t c) codes
    rw [hsplit] at h
    simpa using h
  have hlast : ¬ (t < e.bits ∧ SameFront t e c) := by
    simpa [sameSubtable, SameFront] using hhead
  rw [hsplit] at hx
  rcases List.mem_cons.1 hx with rfl | hx
  · exact hlast ⟨hlong, hfront⟩
  · have hsub : [c, e, x].Sublist (c :: codes) := by
      refine List.Sublist.cons_cons c ?_
      have htail : [e, x].Sublist (e :: rest) := (List.singleton_sublist.2 hx).cons_cons e
      rw [← hsplit] at htail
      exact htail.trans (List.dropWhile_sublist _)
    have hbetween := hprep.contiguous c e x hsub hc hlong hfront.symm
    have hle : e.bits ≤ t := by
      by_contra hgt
      exact hlast ⟨by lia, hbetween⟩
    obtain ⟨j, hj, hcover⟩ := hjustified.exists_covers le htop
    exact hshort e (hsplit ▸ List.mem_cons_self) hle j hj hcover
      (hbetween.covers hle hc.le htop hcover)

theorem mem_group (hc : t < c.bits) (hd : d ∈ c :: codes.takeWhile (sameSubtable t c)) :
    t < d.bits ∧ SameFront t d c := by
  rcases List.mem_cons.1 hd with rfl | hd
  · exact ⟨hc, rfl⟩
  · have hsame := List.mem_takeWhile_imp hd
    simpa [sameSubtable, SameFront] using hsame

/-- The step of the loop for the codes of a subtable, with what they leave in its slot. -/
theorem LoopPairs.group (hprep : Prepared o t (c :: codes)) (hc : t < c.bits)
    {vlc₁ : VLC} (hext : Extends base vlc vlc₁)
    (hslots : ∀ j < 2 ^ t, j ≠ subtableSlot le t c →
      slotAt vlc₁.table base j = slotAt vlc.table base j)
    (hslot : (slotAt vlc₁.table base (subtableSlot le t c)).bits < 0)
    (hmarked : AllMarked le t base done vlc.table)
    (hgroup : ((c :: codes.takeWhile (sameSubtable t c)).map (shorten t)).Pairwise fun d e =>
      Ambiguous d e →
        Hidden (subtableBits t ((c :: codes.takeWhile (sameSubtable t c)).map (shorten t))) d e)
    (hrest : AllMarked le t base (c :: codes.takeWhile (sameSubtable t c) ++ done) vlc₁.table →
      LoopPairs le t base (c :: codes.takeWhile (sameSubtable t c) ++ done)
        (codes.dropWhile (sameSubtable t c)) vlc₁ vlc') :
    LoopPairs le t base done (c :: codes) vlc vlc' := by
  have hcodes : c :: codes = (c :: codes.takeWhile (sameSubtable t c)) ++
      codes.dropWhile (sameSubtable t c) := by
    rw [List.cons_append, List.takeWhile_append_dropWhile]
  have hjustified := hprep.justified c List.mem_cons_self
  have htop : t ≤ 32 := hc.le.trans hjustified.bits_le
  have hsub : (c :: codes.takeWhile (sameSubtable t c)).Sublist (c :: codes) :=
    (List.takeWhile_sublist _).cons_cons c
  have hmarked' : AllMarked le t base (c :: codes.takeWhile (sameSubtable t c) ++ done)
      vlc₁.table := by
    have hold : AllMarked le t base done vlc₁.table := by
      refine hmarked.of_neg ?_
      intro j hj
      by_cases hne : j = subtableSlot le t c
      · exact Or.inr (hne ▸ hslot)
      · exact Or.inl (hslots j hj hne)
    intro p hp j hj hpj
    rcases List.mem_append.1 hp with hp | hp
    · obtain ⟨hlong, hfront⟩ := mem_group hc hp
      rw [hfront.covers_iff hlong.le hc.le htop, covers_iff_eq hc.le hjustified.bits_le hj] at hpj
      exact Or.inl (hpj ▸ hslot)
    · exact hold p hp j hj hpj
  obtain ⟨hext', hshort, hpairs⟩ := hrest hmarked'
  have hclash : ∀ p ∈ c :: codes.takeWhile (sameSubtable t c),
      ∀ e ∈ codes.dropWhile (sameSubtable t c), e.bits ≤ t → ∀ j < 2 ^ t,
        Covers le t p j → ¬ Covers le t e j := by
    intro p hp e he hle j hj hpj hej
    have hshortp := (hshort p (List.mem_append_left _ hp) e he hle j hj hpj hej).1
    have hlong := (mem_group hc hp).1
    lia
  refine ⟨hext.trans hext', ?_, ?_⟩
  · intro p hp d hd hdt j hj hpj hdj
    rw [hcodes, List.mem_append] at hd
    rcases hd with hd | hd
    · have hlong := (mem_group hc hd).1
      lia
    · exact hshort p (List.mem_append_right _ hp) d hd hdt j hj hpj hdj
  · rw [hcodes, List.pairwise_append]
    refine ⟨?_, hpairs, ?_⟩
    · exact pairwise_of_shorten (fun d hd => (mem_group hc hd).1)
        (fun d hd => (hprep.justified d (hsub.subset hd)).bits_le) hgroup
    · intro d hd x hx hamb
      obtain ⟨hlong, hfront⟩ := mem_group hc hd
      have hdjustified := hprep.justified d (hsub.subset hd)
      have hxjustified := hprep.justified x
        (List.mem_cons_of_mem _ ((List.dropWhile_sublist _).subset hx))
      by_cases hxt : x.bits ≤ t
      · obtain ⟨j, hj, hdj, hxj⟩ := hamb.exists_covers le hdjustified hxjustified htop
        exact absurd hxj (hclash d hd x hx hxt j hj hdj)
      · have hsame := sameFront_of_begins hamb.1 hlong.le (by lia : t ≤ x.bits)
          hdjustified.bits_le hxjustified.bits_le
        exact absurd (hsame.symm.trans hfront)
          (rest_front hprep hc (hclash c List.mem_cons_self) hx (by lia))

/-- A loop that does not fail leaves no short code that disagrees with a code in front of it, and
only hidden pairs among the codes. -/
theorem buildLoop_pairs {build : VLC → Nat → List VLCcode → Option (Int × VLC)}
    (hbuild : BuildsPairs build (o + t) t) (hpos : 0 < t) (htop : t ≤ 30) {r : Int}
    (hprep : Prepared o t codes) (hdone : ∀ p ∈ done, 0 < p.bits)
    (hroom : vlc.tableSize ≤ vlc.table.length) (hbase : base + 2 ^ t ≤ vlc.tableSize)
    (hbits : t ≤ vlc.bits) (hmarked : AllMarked le t base done vlc.table)
    (h : buildLoop build le t base codes vlc = some (r, vlc')) (hr : 0 ≤ r) :
    LoopPairs le t base done codes vlc vlc' := by
  induction hn : codes.length using Nat.strong_induction_on generalizing codes done vlc with
  | _ n ih =>
    cases codes with
    | nil =>
      rw [buildLoop] at h
      cases h
      exact ⟨⟨rfl, Nat.le_refl _, hroom, fun _ _ => rfl⟩, by simp, List.Pairwise.nil⟩
    | cons c codes =>
      have hcpos := hprep.pos c List.mem_cons_self
      rw [buildLoop] at h
      by_cases hc : c.bits ≤ t
      · rw [if_pos hc] at h
        split at h
        · cases h
          cases hr
        · rename_i table hfill
          have hlength := (fillSlots_covers (hprep.justified c List.mem_cons_self) hc (by lia)
            (by lia) hfill).1
          refine LoopPairs.leaf hprep hdone hc htop (by lia) hmarked hfill fun hmarked' => ?_
          refine ih codes.length ?_ (hprep.sublist (List.sublist_cons_self c codes)) ?_ ?_ hbase
            hbits hmarked' h rfl
          · rw [← hn]
            exact Nat.lt_succ_self _
          · intro p hp
            rcases List.mem_cons.1 hp with rfl | hp
            · exact hcpos
            · exact hdone p hp
          · show vlc.tableSize ≤ table.length
            lia
      · have hlong : t < c.bits := by lia
        have hjustified := hprep.justified c List.mem_cons_self
        have hj := (bits_subtableSlot le hlong.le hjustified.bits_le).1
        have hin : base + subtableSlot le t c < vlc.tableSize := by lia
        have hsize := subtableBits_pos (codes.takeWhile (sameSubtable t c)) hpos hlong
        have hcap : subtableBits t
            ((c :: codes.takeWhile (sameSubtable t c)).map (shorten t)) ≤ t := Nat.min_le_right _ _
        rw [if_neg hc] at h
        dsimp only at h
        split at h
        · cases h
        · rename_i index vlc₂ hb
          split at h
          · cases h
            lia
          · rename_i hindex
            split at h
            · cases h
              cases hr
            · have hbuilt := fun hroom₁ hbits₁ => hbuild _ _ _ _ _ hroom₁ hbits₁ hsize hcap
                (hprep.group hlong _) hb (by lia)
              obtain ⟨hext, hpairs⟩ :=
                hbuilt (by rw [List.length_set]; exact hroom) (hcap.trans hbits)
              -- the subtable lies behind this table and leaves the way to itself as it is
              have hkept : ∀ i < 2 ^ t, slotAt vlc₂.table base i =
                  if i = subtableSlot le t c then
                    ⟨(vlc.table.getD (base + subtableSlot le t c) ⟨0, 0⟩).sym,
                      int16 (-(subtableBits t
                        ((c :: codes.takeWhile (sameSubtable t c)).map (shorten t)) : Nat))⟩
                  else slotAt vlc.table base i := by
                intro i hi
                rw [slotAt, hext.same (base + i) (show base + i < vlc.tableSize by lia)]
                exact slotAt_set (by lia : base + subtableSlot le t c < vlc.table.length)
              have hin₂ : base + subtableSlot le t c < vlc₂.table.length :=
                hin.trans_le (hext.size_le.trans hext.room)
              refine LoopPairs.group hprep hlong ?_ ?_ ?_ hmarked hpairs fun hmarked' =>
                ih _ ?_ (hprep.sublist ?_) ?_ ?_ ?_ ?_ hmarked' h rfl
              · refine ⟨hext.bits_eq, hext.size_le, ?_, ?_⟩
                · simpa using hext.room
                · intro x hx
                  rw [getD_set_ne (by lia), hext.same x (show x < vlc.tableSize by lia),
                    getD_set_ne (by lia)]
              · intro i hi hne
                rw [slotAt_set hin₂, if_neg hne, hkept i hi, if_neg hne]
              · rw [slotAt_set hin₂, if_pos rfl]
                show (slotAt vlc₂.table base (subtableSlot le t c)).bits < 0
                have hneg : int16 (-(subtableBits t
                    ((c :: codes.takeWhile (sameSubtable t c)).map (shorten t)) : Nat)) < 0 := by
                  rw [int16_eq (by lia) (by lia)]
                  lia
                rw [hkept _ hj, if_pos rfl]
                exact hneg
              · have hle := (List.dropWhile_sublist (l := codes) (sameSubtable t c)).length_le
                rw [← hn, List.length_cons]
                lia
              · exact (List.dropWhile_sublist _).trans (List.sublist_cons_self c codes)
              · intro p hp
                rcases List.mem_append.1 hp with hp | hp
                · have := (mem_group hlong hp).1
                  lia
                · exact hdone p hp
              · simpa using hext.room
              · exact hbase.trans hext.size_le
              · exact hbits.trans hext.bits_eq.ge

end Loop

section Build

variable {realloc : Nat → Bool} {flags : InitFlags}

theorem length_markUnused (k : Nat) (table : List VlcElem) :
    (markUnused base k table).length = table.length := by
  induction k with
  | zero => rfl
  | succ k ih =>
    rw [markUnused]
    split
    · rw [List.length_set, ih]
    · exact ih

theorem getD_markUnused {k x : Nat} (h : x < base ∨ base + k ≤ x) (table : List VlcElem) :
    (markUnused base k table).getD x ⟨0, 0⟩ = table.getD x ⟨0, 0⟩ := by
  induction k with
  | zero => rfl
  | succ k ih =>
    rw [markUnused]
    split
    · rw [getD_set_ne (by lia), ih (by lia)]
    · exact ih (by lia)

/-- A table that is built tells all pairs of codes apart that are not hidden. -/
theorem buildTable_pairs (depth o t : Nat) : BuildsPairs (buildTable realloc flags depth) o t := by
  induction depth generalizing o t with
  | zero =>
    intro vlc vlc' n group r _ _ _ _ _ h
    cases h
  | succ depth ih =>
    intro vlc vlc' n group r hroom hbits hpos _ hprep h hr
    rw [buildTable] at h
    split at h
    · cases h
      cases hr
    · rename_i htop
      split at h
      · cases h
      · rename_i index vlc₁ halloc
        split at h
        · cases h
          lia
        · rename_i hindex
          obtain ⟨rfl, hext, hsize⟩ := allocTable_extends hroom
            (Nat.pow_le_pow_right (by decide) hbits) halloc (by lia)
          split at h
          · cases h
          · rename_i ret vlc₂ hloop
            split at h
            · cases h
              lia
            · have hpairs : LoopPairs flags.le n vlc.tableSize [] group vlc₁ vlc₂ :=
                buildLoop_pairs (ih (o + n) n) hpos (by lia) hprep (by simp) hext.room
                  hsize.ge (hbits.trans hext.bits_eq.ge)
                  (by simp [AllMarked]) hloop (by lia)
              cases h
              refine ⟨?_, hpairs.pairs⟩
              have hboth := hext.trans hpairs.extends_
              refine ⟨hboth.bits_eq, hboth.size_le, ?_, ?_⟩
              · rw [length_markUnused]
                exact hboth.room
              · intro x hx
                exact (getD_markUnused (Or.inl hx) _).trans (hboth.same x hx)

end Build

end FFmpeg.Libavcodec.Vlc
