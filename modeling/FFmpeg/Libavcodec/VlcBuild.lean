import FFmpeg.Libavcodec.VlcWords
import Mathlib.Data.List.TakeWhile

/-!
# Slots, tables and lists of codes

What the parts of `build_table` do: a loop fills slots, an allocation puts a table behind the
others, and the codes of a subtable stay sorted.
-/

namespace FFmpeg.Libavcodec.Vlc

open Common Libavutil

variable {c d p : VLCcode} {le : Bool} {t j base : Nat}

section Tables

/-- The slot `j` of the table at `base`. -/
def slotAt (table : List VlcElem) (base j : Nat) : VlcElem := table.getD (base + j) ⟨0, 0⟩

/-- The slot is empty or filled with the same. -/
def Admits (n symbol : Int) (e : VlcElem) : Prop :=
  (e.bits = 0 ∧ e.sym = 0) ∨ (e.bits = n ∧ e.sym = symbol)

variable {table : List VlcElem} {e : VlcElem}

theorem getD_set_ne {x i : Nat} (h : x ≠ i) :
    (table.set i e).getD x ⟨0, 0⟩ = table.getD x ⟨0, 0⟩ := by
  rw [List.getD_eq_getElem?_getD, List.getElem?_set, if_neg (Ne.symm h),
    ← List.getD_eq_getElem?_getD]

theorem slotAt_set {i : Nat} (h : base + i < table.length) :
    slotAt (table.set (base + i) e) base j = if j = i then e else slotAt table base j := by
  rw [slotAt, List.getD_eq_getElem?_getD, List.getElem?_set]
  by_cases hji : j = i
  · subst hji
    simp [h]
  · rw [if_neg (by lia), if_neg hji]
    simp [slotAt]

/-- The slots of a loop over `k`. -/
def Slot (inc nb j i : Nat) : Prop := ∃ k < nb, i = j + k * inc

variable {inc : Nat}

theorem slot_succ {nb i : Nat} : Slot inc (nb + 1) j i ↔ i = j ∨ Slot inc nb (j + inc) i := by
  constructor
  · rintro ⟨k, hk, rfl⟩
    cases k with
    | zero => left; lia
    | succ k => exact Or.inr ⟨k, by lia, by rw [Nat.succ_mul]; lia⟩
  · rintro (rfl | ⟨k, hk, rfl⟩)
    · exact ⟨0, by lia, by lia⟩
    · exact ⟨k + 1, by lia, by rw [Nat.succ_mul]; lia⟩

theorem Slot.lt {nb i : Nat} (hinc : 0 < inc) (h : Slot inc nb (j + inc) i) : j < i := by
  obtain ⟨k, -, rfl⟩ := h
  lia

/-- What `fillSlots` does when it does not stop. -/
theorem fillSlots_some (hinc : 0 < inc) {n symbol : Int} {nb : Nat} {table' : List VlcElem}
    (hroom : ∀ i, Slot inc nb j i → base + i < table.length)
    (h : fillSlots base inc n symbol nb j table = some table') :
    table'.length = table.length ∧
      (∀ i, Slot inc nb j i → Admits n symbol (slotAt table base i) ∧
        slotAt table' base i = ⟨int16 symbol, int16 n⟩) ∧
      ∀ x, (∀ i, Slot inc nb j i → x ≠ base + i) → table'.getD x ⟨0, 0⟩ = table.getD x ⟨0, 0⟩ := by
  induction nb generalizing j table with
  | zero =>
    cases h
    refine ⟨rfl, ?_, fun _ _ => rfl⟩
    rintro i ⟨k, hk, -⟩
    lia
  | succ nb ih =>
    rw [fillSlots] at h
    split at h
    · cases h
    · rename_i hfits
      have hj : base + j < table.length := hroom j (slot_succ.2 (Or.inl rfl))
      obtain ⟨hlength, hfilled, hrest⟩ := ih (by
        intro i hi
        rw [List.length_set]
        exact hroom i (slot_succ.2 (Or.inr hi))) h
      refine ⟨by rw [hlength, List.length_set], ?_, ?_⟩
      · intro i hi
        rcases slot_succ.1 hi with rfl | hnext
        · refine ⟨?_, ?_⟩
          · show Admits n symbol (table.getD (base + i) ⟨0, 0⟩)
            rw [Admits]
            tauto
          · have hkeep := hrest (base + i) (fun k hk => by have := hk.lt hinc; lia)
            rw [slotAt, hkeep]
            exact (slotAt_set hj).trans (if_pos rfl)
        · obtain ⟨hadmits, hnew⟩ := hfilled i hnext
          rw [slotAt_set hj, if_neg (hnext.lt hinc).ne'] at hadmits
          exact ⟨hadmits, hnew⟩
      · intro x hx
        rw [hrest x (fun i hi => hx i (slot_succ.2 (Or.inr hi)))]
        have hne := hx j (slot_succ.2 (Or.inl rfl))
        exact getD_set_ne hne

theorem fillSlots_isSome (hinc : 0 < inc) {n symbol : Int} {nb : Nat}
    (hroom : ∀ i, Slot inc nb j i → base + i < table.length)
    (h : ∀ i, Slot inc nb j i → Admits n symbol (slotAt table base i)) :
    ∃ table', fillSlots base inc n symbol nb j table = some table' := by
  induction nb generalizing j table with
  | zero => exact ⟨table, rfl⟩
  | succ nb ih =>
    have hj : base + j < table.length := hroom j (slot_succ.2 (Or.inl rfl))
    have hfits : Admits n symbol (table.getD (base + j) ⟨0, 0⟩) := h j (slot_succ.2 (Or.inl rfl))
    rw [fillSlots, if_neg (by rw [Admits] at hfits; tauto)]
    apply ih
    · intro i hi
      rw [List.length_set]
      exact hroom i (slot_succ.2 (Or.inr hi))
    · intro i hi
      rw [slotAt_set hj, if_neg (hi.lt hinc).ne']
      exact h i (slot_succ.2 (Or.inr hi))

/-- One array of tables goes on where the other one ends and has the same first `k` slots. -/
structure Extends (k : Nat) (vlc vlc' : VLC) : Prop where
  bits_eq : vlc'.bits = vlc.bits
  size_le : vlc.tableSize ≤ vlc'.tableSize
  room : vlc'.tableSize ≤ vlc'.table.length
  same : ∀ x < k, vlc'.table.getD x ⟨0, 0⟩ = vlc.table.getD x ⟨0, 0⟩

theorem Extends.trans {k : Nat} {a b e : VLC} (h : Extends k a b) (h' : Extends k b e) :
    Extends k a e where
  bits_eq := h'.bits_eq.trans h.bits_eq
  size_le := h.size_le.trans h'.size_le
  room := h'.room
  same := fun x hx => (h'.same x hx).trans (h.same x hx)

theorem Extends.mono {k k' : Nat} {a b : VLC} (h : Extends k a b) (hk : k' ≤ k) :
    Extends k' a b where
  bits_eq := h.bits_eq
  size_le := h.size_le
  room := h.room
  same := fun x hx => h.same x (hx.trans_le hk)

/-- A new table lies behind the others. -/
theorem allocTable_extends {realloc : Nat → Bool} {vlc vlc' : VLC} {size : Nat} {static : Bool}
    {index : Int} (hroom : vlc.tableSize ≤ vlc.table.length) (hsize : size ≤ 2 ^ vlc.bits)
    (h : allocTable realloc vlc size static = some (index, vlc')) (hindex : 0 ≤ index) :
    index = vlc.tableSize ∧ Extends vlc.tableSize vlc vlc' ∧
      vlc'.tableSize = vlc.tableSize + size := by
  rw [allocTable] at h
  dsimp only at h
  by_cases hmore : vlc.table.length < vlc.tableSize + size
  · rw [if_pos hmore] at h
    cases static with
    | true => cases h
    | false =>
      rw [if_neg Bool.false_ne_true] at h
      by_cases halloc : realloc (vlc.table.length + 2 ^ vlc.bits)
      · rw [if_pos halloc] at h
        cases h
        refine ⟨rfl, ⟨rfl, Nat.le_add_right _ _, ?_, ?_⟩, rfl⟩
        · simp only [List.length_append, List.length_replicate]
          lia
        · intro x hx
          show (vlc.table ++ _).getD x _ = _
          rw [List.getD_eq_getElem?_getD, List.getElem?_append_left (by lia),
            ← List.getD_eq_getElem?_getD]
      · rw [if_neg halloc] at h
        cases h
        cases hindex
  · rw [if_neg hmore] at h
    cases h
    exact ⟨rfl, ⟨rfl, Nat.le_add_right _ _, Nat.le_of_not_lt hmore, fun _ _ => rfl⟩, rfl⟩

end Tables

section Numbers

theorem int16_eq {x : Int} (h : -2 ^ 15 ≤ x) (h' : x < 2 ^ 15) : int16 x = x := by
  rw [int16, BitVec.toInt_ofInt]
  exact Int.bmod_eq_of_le h h'

theorem eq_of_int16 {a b : BitVec 16} (h : int16 a.toNat = (b.toNat : Int)) : a = b := by
  rw [int16, BitVec.ofInt_natCast, BitVec.ofNat_toNat, BitVec.setWidth_eq,
    BitVec.toInt_eq_toNat_cond] at h
  apply BitVec.eq_of_toNat_eq
  have := a.isLt
  split at h <;> lia

theorem le_foldl_max {codes : List VLCcode} {n : Nat} :
    n ≤ codes.foldl (fun n c => max n c.bits) n ∧
      ∀ c ∈ codes, c.bits ≤ codes.foldl (fun n c => max n c.bits) n := by
  induction codes generalizing n with
  | nil => simp
  | cons d codes ih =>
    obtain ⟨hn, hcodes⟩ := ih (n := max n d.bits)
    refine ⟨(Nat.le_max_left _ _).trans hn, ?_⟩
    intro c hc
    rcases List.mem_cons.1 hc with rfl | hc
    · exact (Nat.le_max_right _ _).trans hn
    · exact hcodes c hc

theorem subtableBits_pos (codes : List VLCcode) (ht : 0 < t) (hc : t < c.bits) :
    0 < subtableBits t ((c :: codes).map (shorten t)) := by
  have hmax := (le_foldl_max (n := 0)).2 (shorten t c)
    (List.mem_map_of_mem (l := c :: codes) List.mem_cons_self)
  replace hmax : c.bits - t ≤ _ := hmax
  rw [subtableBits]
  lia

theorem le_subtableBits {group : List VLCcode} (hc : c ∈ group) (h : subtableBits t group < t) :
    c.bits ≤ subtableBits t group := by
  have hmax := (le_foldl_max (n := 0)).2 c hc
  rw [subtableBits] at h ⊢
  lia

end Numbers

section Sorted

/-- The order of `compare_vlcspec`, which does not see the last bit, on codes that have lost `o`
bits at their front. -/
def Ordered (o : Nat) (d c : VLCcode) : Prop :=
  d.code.toNat / 2 ^ (o + 1) ≤ c.code.toNat / 2 ^ (o + 1)

/-- What the recursion keeps of a list of codes: the longer ones are sorted, and no code stands
between two that go to one subtable. -/
structure Prepared (o t : Nat) (codes : List VLCcode) : Prop where
  justified : ∀ c ∈ codes, Justified c
  pos : ∀ c ∈ codes, 0 < c.bits
  inside : ∀ c ∈ codes, c.bits + o ≤ 32
  sorted : codes.Pairwise fun d c => t < d.bits → t < c.bits → Ordered o d c
  contiguous : ∀ d e c, [d, e, c].Sublist codes → t < d.bits → t < c.bits → SameFront t d c →
    SameFront t e d

variable {o : Nat} {codes codes' : List VLCcode}

theorem Prepared.sublist (h : Prepared o t codes) (hsub : codes'.Sublist codes) :
    Prepared o t codes' where
  justified := fun c hc => h.justified c (hsub.subset hc)
  pos := fun c hc => h.pos c (hsub.subset hc)
  inside := fun c hc => h.inside c (hsub.subset hc)
  sorted := h.sorted.sublist hsub
  contiguous := fun d e c hdec => h.contiguous d e c (hdec.trans hsub)

theorem sameFront_iff_div :
    SameFront t d c ↔ d.code.toNat / 2 ^ (32 - t) = c.code.toNat / 2 ^ (32 - t) := by
  rw [SameFront, ← BitVec.toNat_inj, BitVec.toNat_ushiftRight, BitVec.toNat_ushiftRight,
    Nat.shiftRight_eq_div_pow, Nat.shiftRight_eq_div_pow]

theorem Ordered.sameFront {e : VLCcode} (hde : Ordered o d e) (hec : Ordered o e c)
    (h : SameFront t d c) (ht : t + o < 32) : SameFront t e d := by
  rw [sameFront_iff_div] at h ⊢
  have hpow : 2 ^ (32 - t) = 2 ^ (o + 1) * 2 ^ (31 - t - o) := by
    rw [← Nat.pow_add]
    congr 1
    lia
  rw [hpow, ← Nat.div_div_eq_div_mul, ← Nat.div_div_eq_div_mul] at h ⊢
  have hlow := Nat.div_le_div_right (c := 2 ^ (31 - t - o)) hde
  have hhigh := Nat.div_le_div_right (c := 2 ^ (31 - t - o)) hec
  lia

theorem prepared_of_sorted (hjustified : ∀ c ∈ codes, Justified c) (hpos : ∀ c ∈ codes, 0 < c.bits)
    (hinside : ∀ c ∈ codes, c.bits + o ≤ 32) (hsorted : codes.Pairwise (Ordered o)) :
    Prepared o t codes where
  justified := hjustified
  pos := hpos
  inside := hinside
  sorted := hsorted.imp fun h _ _ => h
  contiguous := by
    intro d e c hsub hd hc hfront
    have hthree := hsorted.sublist hsub
    simp only [List.pairwise_cons, List.mem_cons, List.not_mem_nil, or_false, forall_eq_or_imp,
      forall_eq] at hthree
    have hmem := hinside c (hsub.subset (by simp))
    exact hthree.1.1.sameFront hthree.2.1 hfront (by lia)

theorem Ordered.shorten (h : Ordered o d c) (hfront : SameFront t d c) (ht : t + o < 32) :
    Ordered (o + t) (shorten t d) (shorten t c) := by
  rw [sameFront_iff_div] at hfront
  have hpow : 2 ^ 32 = 2 ^ (32 - t) * 2 ^ t := by
    rw [← Nat.pow_add]
    congr 1
    lia
  have hsplit : 2 ^ (32 - t) = 2 ^ (31 - t - o) * 2 ^ (o + 1) := by
    rw [← Nat.pow_add]
    congr 1
    lia
  have hlow : ∀ x : BitVec 32, (x <<< t).toNat / 2 ^ (o + t + 1) =
      x.toNat % 2 ^ (32 - t) / 2 ^ (o + 1) := by
    intro x
    rw [BitVec.toNat_shiftLeft, Nat.shiftLeft_eq, hpow, Nat.mul_mod_mul_right,
      show o + t + 1 = t + (o + 1) by lia, Nat.pow_add, ← Nat.div_div_eq_div_mul,
      Nat.mul_div_cancel _ (Nat.two_pow_pos t)]
  have hdiv : ∀ x : Nat, x / 2 ^ (o + 1) =
      x / 2 ^ (32 - t) * 2 ^ (31 - t - o) + x % 2 ^ (32 - t) / 2 ^ (o + 1) := by
    intro x
    conv_lhs => rw [← Nat.div_add_mod x (2 ^ (32 - t))]
    rw [hsplit, Nat.mul_comm (2 ^ (31 - t - o)), Nat.mul_assoc,
      Nat.mul_add_div (Nat.two_pow_pos _), Nat.mul_comm (2 ^ (31 - t - o))]
  rw [Ordered, hdiv, hdiv c.code.toNat, hfront] at h
  show (d.code <<< t).toNat / 2 ^ (o + t + 1) ≤ (c.code <<< t).toNat / 2 ^ (o + t + 1)
  rw [hlow, hlow]
  lia

/-- The codes of a subtable are sorted. -/
theorem Prepared.group (h : Prepared o t (c :: codes)) (hc : t < c.bits) (n : Nat) :
    Prepared (o + t) n ((c :: codes.takeWhile (sameSubtable t c)).map (shorten t)) := by
  have hsub : (c :: codes.takeWhile (sameSubtable t c)).Sublist (c :: codes) :=
    (List.takeWhile_sublist _).cons_cons c
  have hmembers : ∀ d ∈ c :: codes.takeWhile (sameSubtable t c), t < d.bits ∧ SameFront t d c := by
    intro d hd
    rcases List.mem_cons.1 hd with rfl | hd
    · exact ⟨hc, rfl⟩
    · have hsame := List.mem_takeWhile_imp hd
      simpa [sameSubtable, SameFront] using hsame
  have hcodes := h.sublist hsub
  have hin := hcodes.inside c List.mem_cons_self
  apply prepared_of_sorted
  · intro d hd
    obtain ⟨d, hmem, rfl⟩ := List.mem_map.1 hd
    exact (hcodes.justified d hmem).shorten (hmembers d hmem).1.le
  · intro d hd
    obtain ⟨d, hmem, rfl⟩ := List.mem_map.1 hd
    exact Nat.sub_pos_of_lt (hmembers d hmem).1
  · intro d hd
    obtain ⟨d, hmem, rfl⟩ := List.mem_map.1 hd
    have hlt := (hmembers d hmem).1
    have hle := hcodes.inside d hmem
    show d.bits - t + (o + t) ≤ 32
    lia
  · rw [List.pairwise_map]
    refine hcodes.sorted.imp_of_mem ?_
    intro d e hd he hordered
    have hfront : SameFront t d e := (hmembers d hd).2.trans (hmembers e he).2.symm
    exact (hordered (hmembers d hd).1 (hmembers e he).1).shorten hfront (by lia)

end Sorted

end FFmpeg.Libavcodec.Vlc
