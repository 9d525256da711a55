import FFmpeg.Libavfilter.Formats

/-!
# Merging is intersection when the common layouts come in one order

A merged list is written entry by entry: first the known layouts that both lists hold, then
those that one holds and the other accepts by their number of channels, then the numbers of
channels of both.  An entry of the first kind is cleared in both lists, and the search for it
goes on with the cleared entry; so a zero is written too for each entry that was cleared before
and comes behind it in the second list.
-/

namespace FFmpeg.Libavfilter.FormatsMerge

open Formats

/-! ## Lists of layouts -/

/-- A channel layout that audio can have: a known one, or an unknown one of so many channels. -/
inductive Layout
  | known (l : UInt64)
  | unknown (channels : UInt32)
  deriving DecidableEq, Repr

/-- The entry that accepts the layouts with as many channels as `x`. -/
def countOf (x : UInt64) : UInt64 := ffCount2Layout (avGetChannelLayoutNbChannels x)

/-- What a list accepts. -/
def accepts (l : List UInt64) : Set Layout := fun layout =>
  match layout with
  | .known x => known x = true ∧ (x ∈ l ∨ countOf x ∈ l)
  | .unknown n => ffCount2Layout n ∈ l

/-- A list as filters make it: without duplicates, of known layouts and of numbers of channels,
where no known layout is covered by a number. -/
structure Valid (l : List UInt64) : Prop where
  nodup : l.Nodup
  entry : ∀ x ∈ l, (x ≠ 0 ∧ x &&& 0x8000000000000000 = 0) ∨
    ∃ c : UInt32, 0 < c.toNat ∧ c.toNat < 2 ^ 31 ∧ x = ffCount2Layout c
  uncovered : ∀ x ∈ l, known x = true → countOf x ∉ l

theorem toNat_count (c : UInt32) : (ffCount2Layout c).toNat = 2 ^ 63 + c.toNat := by
  have hc := c.toNat_lt
  have hor := Nat.two_pow_add_eq_or_of_lt (show c.toNat < 2 ^ 63 by lia) 1
  rw [Nat.mul_one] at hor
  rw [hor]
  simp [ffCount2Layout]

theorem count_ne_zero (c : UInt32) : ffCount2Layout c ≠ 0 := by
  intro h
  have := congrArg UInt64.toNat h
  rw [toNat_count] at this
  simp at this

theorem count_top (c : UInt32) : ffCount2Layout c &&& 0x8000000000000000 ≠ 0 := by
  intro h
  have hbit := congrArg (fun x : UInt64 => x.toNat.testBit 63) h
  have hc := c.toNat_lt
  simp only [UInt64.toNat_and, Nat.testBit_and, toNat_count] at hbit
  rw [Nat.testBit_two_pow_add_eq, Nat.testBit_lt_two_pow (by lia)] at hbit
  simp at hbit
  exact absurd hbit (by decide)

theorem known_count {c : UInt32} (hpos : 0 < c.toNat) (hlt : c.toNat < 2 ^ 31) :
    known (ffCount2Layout c) = false := by
  have hcount : ffLayout2Count (ffCount2Layout c) ≠ 0 := by
    rw [ffLayout2Count, if_pos (count_top c)]
    intro h
    have := congrArg UInt64.toNat h
    rw [UInt64.toNat_and, toNat_count] at this
    have hmod : (2 ^ 63 + c.toNat) &&& (2 ^ 31 - 1) = (2 ^ 63 + c.toNat) % 2 ^ 31 :=
      Nat.and_two_pow_sub_one_eq_mod _ 31
    have hzero : (2 ^ 63 + c.toNat) % 2 ^ 31 = 0 := hmod ▸ this
    lia
  simp [known, hcount]

theorem known_of_top {x : UInt64} (h : x &&& 0x8000000000000000 = 0) : known x = true := by
  simp [known, ffLayout2Count, h]

variable {l : List UInt64}

theorem Valid.zero_notMem (h : Valid l) : (0 : UInt64) ∉ l := by
  intro hmem
  rcases h.entry 0 hmem with hzero | ⟨c, -, -, heq⟩
  · exact hzero.1 rfl
  · exact count_ne_zero c heq.symm

theorem Valid.known_of_count (h : Valid l) {c : UInt32} (hmem : ffCount2Layout c ∈ l) :
    known (ffCount2Layout c) = false := by
  rcases h.entry _ hmem with hlayout | ⟨c', hpos, hlt, heq⟩
  · exact absurd hlayout.2 (count_top c)
  · rw [heq]
    exact known_count hpos hlt

/-! ## The order of the common layouts -/

section Order

variable {a b done : List UInt64}

/-- The known layouts of `a` that `b` holds too, in the order of `a`. -/
def common (a b : List UInt64) : List UInt64 := a.filter fun x => known x ∧ x ∈ b

/-- `y` comes in front of `x` in `b`, when both are known layouts that `b` holds. -/
def InOrder (b : List UInt64) (y x : UInt64) : Prop :=
  (known y = true ∧ y ∈ b) → (known x = true ∧ x ∈ b) → b.idxOf y < b.idxOf x

theorem pairwise_idxOf (h : b.Nodup) : b.Pairwise fun y x => b.idxOf y < b.idxOf x := by
  rw [List.pairwise_iff_getElem]
  intro i j hi hj hij
  rwa [h.idxOf_getElem, h.idxOf_getElem]

theorem common_eq_iff (ha : a.Nodup) (hb : b.Nodup) :
    common a b = common b a ↔ a.Pairwise (InOrder b) := by
  have hfilter : (common a b).Pairwise (fun y x => b.idxOf y < b.idxOf x) ↔
      a.Pairwise (InOrder b) := by
    rw [common, List.pairwise_filter]
    simp only [decide_eq_true_eq]
    rfl
  have hother : (common b a).Pairwise fun y x => b.idxOf y < b.idxOf x :=
    (pairwise_idxOf hb).sublist List.filter_sublist
  rw [← hfilter]
  constructor
  · intro h
    rwa [h]
  · intro h
    have hperm : (common a b).Perm (common b a) := by
      refine (List.perm_ext_iff_of_nodup (ha.filter _) (hb.filter _)).2 fun x => ?_
      simp only [List.mem_filter, decide_eq_true_eq]
      tauto
    exact hperm.eq_of_pairwise (fun y x _ _ hlt hlt' => absurd hlt' (Nat.lt_asymm hlt)) h hother

/-- The entries of `b` with the layouts of `done` cleared. -/
def cleared (done b : List UInt64) : List UInt64 :=
  b.map fun y => if known y ∧ y ∈ done then 0 else y

/-- How many cleared entries come behind `x`. -/
def late (b done : List UInt64) (x : UInt64) : Nat :=
  (b.drop (b.idxOf x + 1)).countP fun y => known y ∧ y ∈ done

/-- What the search for the known layouts of `a` writes, with those of `done` cleared. -/
def written (b : List UInt64) : List UInt64 → List UInt64 → List UInt64
  | _, [] => []
  | done, x :: a =>
    (if known x ∧ x ∈ b then x :: List.replicate (late b done x) 0 else []) ++
      written b (done ++ [x]) a

theorem mem_drop_iff {x : UInt64} (hb : b.Nodup) (k : Nat) :
    x ∈ b.drop k ↔ x ∈ b ∧ k ≤ b.idxOf x := by
  rw [List.mem_drop_iff_getElem]
  constructor
  · rintro ⟨j, hj, rfl⟩
    exact ⟨List.getElem_mem _, by rw [hb.idxOf_getElem]; lia⟩
  · rintro ⟨hx, hk⟩
    have hlt := List.idxOf_lt_length_iff.2 hx
    refine ⟨b.idxOf x - k, by lia, ?_⟩
    simp only [show k + (b.idxOf x - k) = b.idxOf x by lia]
    exact List.getElem_idxOf hlt

theorem late_eq_zero_iff {x : UInt64} (hb : b.Nodup) (hx : known x = true ∧ x ∈ b)
    (hdone : x ∉ done) : late b done x = 0 ↔ ∀ y ∈ done, InOrder b y x := by
  rw [late, List.countP_eq_zero]
  constructor
  · intro h y hy hknown _
    by_contra hlt
    have hne : b.idxOf y ≠ b.idxOf x := fun heq =>
      hdone (List.idxOf_inj hknown.2 |>.1 heq ▸ hy)
    have hbehind : y ∈ b.drop (b.idxOf x + 1) := (mem_drop_iff hb _).2 ⟨hknown.2, by lia⟩
    simpa [hknown.1, hy] using h y hbehind
  · intro h y hbehind hcleared
    simp only [decide_eq_true_eq] at hcleared
    obtain ⟨hy, hle⟩ := (mem_drop_iff hb _).1 hbehind
    have := h y hcleared.2 ⟨hcleared.1, hy⟩ hx
    lia

/-- Only the entries that come out of order make it write a zero; the induction is on what is
left of `a`, with the rest of it in `done`. -/
theorem zero_notMem_written_iff (hb : b.Nodup) (hzero : (0 : UInt64) ∉ a)
    (hdone : (done ++ a).Nodup) :
    0 ∉ written b done a ↔ a.Pairwise (InOrder b) ∧ ∀ y ∈ done, ∀ x ∈ a, InOrder b y x := by
  induction a generalizing done with
  | nil => simp [written]
  | cons x a ih =>
    have hx : x ∉ done := fun hmem => by
      rw [List.nodup_append] at hdone
      exact hdone.2.2 x hmem x List.mem_cons_self rfl
    have hne : (0 : UInt64) ≠ x := fun h => hzero (h ▸ List.mem_cons_self)
    have hrest := ih (fun hmem => hzero (List.mem_cons_of_mem _ hmem))
      (show ((done ++ [x]) ++ a).Nodup by simpa using hdone)
    have hhead : 0 ∉ (if known x ∧ x ∈ b then x :: List.replicate (late b done x) 0 else []) ↔
        ∀ y ∈ done, InOrder b y x := by
      split
      · rename_i hcommon
        rw [← late_eq_zero_iff hb hcommon hx]
        simp [hne, List.mem_replicate]
      · rename_i hcommon
        simp only [List.not_mem_nil, not_false_eq_true, true_iff]
        exact fun y _ _ h => absurd h hcommon
    rw [written, List.mem_append, not_or, hhead, hrest]
    simp only [List.pairwise_cons, List.mem_append, List.mem_cons, List.not_mem_nil, or_false]
    constructor
    · rintro ⟨hfront, hpair, hbehind⟩
      refine ⟨⟨fun z hz => hbehind x (Or.inr rfl) z hz, hpair⟩, fun y hy z hz => ?_⟩
      rcases hz with rfl | hz
      · exact hfront y hy
      · exact hbehind y (Or.inl hy) z hz
    · rintro ⟨⟨hx', hpair⟩, hbehind⟩
      refine ⟨fun y hy => hbehind y hy x (Or.inl rfl), hpair, fun y hy z hz => ?_⟩
      rcases hy with hy | rfl
      · exact hbehind y hy z (Or.inr hz)
      · exact hx' z hz

theorem written_of_zero_notMem (h : 0 ∉ written b done a) : written b done a = common a b := by
  induction a generalizing done with
  | nil => rfl
  | cons x a ih =>
    rw [written, List.mem_append, not_or] at h
    rw [written, ih h.2, common, common, List.filter_cons]
    by_cases hcommon : known x = true ∧ x ∈ b
    · rw [if_pos hcommon] at h ⊢
      have hlate : late b done x = 0 := by
        by_contra hne
        exact h.1 (List.mem_cons_of_mem _ (List.mem_replicate.2 ⟨hne, rfl⟩))
      simp [hcommon, hlate]
    · rw [if_neg hcommon]
      simp [hcommon]

end Order

/-! ## What the loops write -/

section Writes

variable {retMax : Nat} {a b done ret : List UInt64}

/-- Entries that are written one after the other. -/
def puts (retMax : Nat) (ret l : List UInt64) : Option (List UInt64) := l.foldlM (put retMax) ret

theorem puts_append (ret l l' : List UInt64) :
    puts retMax ret (l ++ l') = puts retMax ret l >>= fun ret => puts retMax ret l' :=
  List.foldlM_append

theorem puts_of_le {l : List UInt64} (h : ret.length + l.length ≤ retMax) :
    puts retMax ret l = some (ret ++ l) := by
  induction l generalizing ret with
  | nil => simp [puts]
  | cons x l ih =>
    rw [List.length_cons] at h
    have hrest := ih (show (ret ++ [x]).length + l.length ≤ retMax by simp; lia)
    rw [puts, List.foldlM_cons, put, if_pos (by lia), Option.bind_eq_bind, Option.bind_some]
    simpa [puts] using hrest

theorem puts_eq_some {l ret' : List UInt64} (h : puts retMax ret l = some ret') :
    ret' = ret ++ l := by
  induction l generalizing ret with
  | nil => simpa [puts] using h.symm
  | cons x l ih =>
    rw [puts, List.foldlM_cons, put] at h
    split at h
    · rw [ih h, List.append_assoc, List.singleton_append]
    · cases h

theorem foldlM_puts (f : UInt64 → List UInt64) (l ret : List UInt64) :
    l.foldlM (fun ret x => puts retMax ret (f x)) ret = puts retMax ret (l.flatMap f) := by
  induction l generalizing ret with
  | nil => rfl
  | cons x l ih =>
    rw [List.foldlM_cons, List.flatMap_cons, puts_append]
    exact congrArg (puts retMax ret (f x) >>= ·) (funext ih)

theorem putMatches_eq (wanted l : UInt64) :
    putMatches retMax wanted l b ret = puts retMax ret (List.replicate (b.count wanted) l) := by
  have hone : (fun (ret : List UInt64) y => if y = wanted then put retMax ret l else some ret) =
      fun ret y => puts retMax ret (if y = wanted then [l] else []) := by
    funext ret y
    split
    · simp [puts]
    · rfl
  rw [putMatches, hone, foldlM_puts]
  congr 1
  induction b with
  | nil => rfl
  | cons y b ih =>
    rw [List.flatMap_cons, ih, List.count_cons]
    by_cases hy : y = wanted
    · simp [hy, List.replicate_succ]
    · simp [hy]

/-- What a round writes for the numbers of channels that `b` accepts. -/
def counts (a b : List UInt64) : List UInt64 :=
  a.flatMap fun fmt =>
    if fmt = 0 ∨ !known fmt then [] else List.replicate (b.count (countOf fmt)) fmt

theorem intersectCounts_eq : intersectCounts retMax a b ret = puts retMax ret (counts a b) := by
  rw [counts, ← foldlM_puts, intersectCounts]
  congr 1
  funext ret fmt
  split
  · rfl
  · exact putMatches_eq _ _

/-- What the last loop writes. -/
def generics (a b : List UInt64) : List UInt64 :=
  a.flatMap fun x => if known x then [] else List.replicate (b.count x) x

theorem intersectGeneric_eq : intersectGeneric retMax a b ret = puts retMax ret (generics a b) := by
  rw [generics, ← foldlM_puts, intersectGeneric]
  congr 1
  funext ret x
  split
  · rfl
  · exact putMatches_eq _ _

theorem intersectOne_zero :
    intersectOne retMax 0 b ret =
      (puts retMax ret (List.replicate (b.count 0) 0)).map fun ret => (0, b, ret) := by
  induction b generalizing ret with
  | nil => rfl
  | cons y b ih =>
    rw [intersectOne]
    by_cases hy : 0 = y
    · subst hy
      rw [if_pos rfl, List.count_cons_self, List.replicate_succ, puts, List.foldlM_cons]
      cases put retMax ret 0 with
      | none => rfl
      | some ret' =>
        simp only [Option.bind_eq_bind, Option.bind_some, ih, puts]
        cases List.foldlM (put retMax) ret' (List.replicate (List.count 0 b) 0) <;> rfl
    · rw [if_neg hy, ih, List.count_cons_of_ne (fun h => hy h.symm)]
      cases puts retMax ret (List.replicate (b.count 0) 0) <;> rfl

variable {x : UInt64}

theorem intersectOne_of_notMem (h : x ∉ b) : intersectOne retMax x b ret = some (x, b, ret) := by
  induction b generalizing ret with
  | nil => rfl
  | cons y b ih =>
    rw [List.mem_cons, not_or] at h
    rw [intersectOne, if_neg h.1, ih h.2]
    rfl

theorem intersectOne_append {p q : List UInt64} (hp : x ∉ p) :
    intersectOne retMax x (p ++ x :: q) ret =
      (puts retMax ret (x :: List.replicate (q.count 0) 0)).map fun ret =>
        (0, p ++ 0 :: q, ret) := by
  induction p generalizing ret with
  | nil =>
    rw [List.nil_append, intersectOne, if_pos rfl, puts, List.foldlM_cons]
    cases put retMax ret x with
    | none => rfl
    | some ret' =>
      simp only [Option.bind_eq_bind, Option.bind_some, intersectOne_zero, puts]
      cases List.foldlM (put retMax) ret' (List.replicate (q.count 0) 0) <;> rfl
  | cons y p ih =>
    rw [List.mem_cons, not_or] at hp
    rw [List.cons_append, intersectOne, if_neg hp.1, ih hp.2]
    cases puts retMax ret (x :: List.replicate (q.count 0) 0) <;> rfl

theorem cleared_append (done p q : List UInt64) :
    cleared done (p ++ q) = cleared done p ++ cleared done q := List.map_append

theorem cleared_concat (h : known x = true → x ∉ b) : cleared (done ++ [x]) b = cleared done b := by
  refine List.map_congr_left fun y hy => ?_
  have hne : known y = true → y ≠ x := by
    rintro hknown rfl
    exact h hknown hy
  by_cases hknown : known y = true
  · simp [hne hknown]
  · simp [hknown]

theorem notMem_cleared (hne : ¬ 0 = x) (h : x ∉ b) : x ∉ cleared done b := by
  rintro hmem
  obtain ⟨y, hy, heq⟩ := List.mem_map.1 hmem
  split at heq
  · exact hne heq
  · exact h (heq ▸ hy)

theorem count_cleared (hzero : (0 : UInt64) ∉ b) :
    (cleared done b).count 0 = b.countP fun y => known y ∧ y ∈ done := by
  induction b with
  | nil => rfl
  | cons y b ih =>
    rw [List.mem_cons, not_or] at hzero
    rw [cleared, List.map_cons, ← cleared, List.count_cons, ih hzero.2, List.countP_cons]
    by_cases hy : known y = true ∧ y ∈ done
    · simp [hy]
    · simp [hy, Ne.symm hzero.1]

/-- The first loop; the induction is on what is left of `a`, with the rest of it in `done`. -/
theorem intersectKnown_eq (hb : b.Nodup) (hzero : (0 : UInt64) ∉ b) (hzero' : (0 : UInt64) ∉ a)
    (hdone : (done ++ a).Nodup) :
    intersectKnown retMax a (cleared done b) ret =
      (puts retMax ret (written b done a)).map fun ret =>
        (cleared b a, cleared (done ++ a) b, ret) := by
  induction a generalizing done ret with
  | nil => simp [intersectKnown, written, puts, cleared]
  | cons x a ih =>
    have hx : x ∉ done := fun hmem => by
      rw [List.nodup_append] at hdone
      exact hdone.2.2 x hmem x List.mem_cons_self rfl
    rw [List.mem_cons, not_or] at hzero'
    have hrest (ret : List UInt64) : intersectKnown retMax a (cleared (done ++ [x]) b) ret =
        (puts retMax ret (written b (done ++ [x]) a)).map fun ret =>
          (cleared b a, cleared (done ++ x :: a) b, ret) := by
      have hsame := @ih (done ++ [x]) ret hzero'.2 (by simpa using hdone)
      rwa [List.append_assoc, List.singleton_append] at hsame
    rw [intersectKnown, written]
    by_cases hknown : known x = true
    · by_cases hmem : x ∈ b
      · obtain ⟨p, q, rfl⟩ := List.append_of_mem hmem
        have hp : x ∉ p := fun h => (List.nodup_append.1 hb).2.2 x h x List.mem_cons_self rfl
        have hq : x ∉ q := (List.nodup_cons.1 (List.nodup_append.1 hb).2.1).1
        have hp' : x ∉ cleared done p := notMem_cleared hzero'.1 hp
        have hlate : late (p ++ x :: q) done x = (cleared done q).count 0 := by
          rw [count_cleared fun h => hzero (by simp [h]), late, List.idxOf_append_of_notMem hp,
            List.idxOf_cons_self, Nat.add_zero, List.drop_append, List.drop_of_length_le (by lia)]
          simp
        have hhere : cleared done (p ++ x :: q) = cleared done p ++ x :: cleared done q := by
          rw [cleared_append, cleared, cleared, cleared, List.map_cons, if_neg fun h => hx h.2]
        have hnext : cleared done p ++ 0 :: cleared done q =
            cleared (done ++ [x]) (p ++ x :: q) := by
          rw [cleared_append, cleared_concat fun _ => hp, ← cleared_concat fun _ => hq, cleared,
            cleared, cleared, List.map_cons, if_pos ⟨hknown, by simp⟩]
        rw [if_neg (by simp [hknown]), if_pos ⟨hknown, hmem⟩, hhere, intersectOne_append hp', hnext,
          puts_append, hlate]
        cases puts retMax ret (x :: List.replicate ((cleared done q).count 0) 0) with
        | none => rfl
        | some ret' =>
          simp only [Option.map_some, Option.bind_eq_bind, Option.bind_some, hrest]
          cases puts retMax ret' (written (p ++ x :: q) (done ++ [x]) a) with
          | none => rfl
          | some ret'' => simp [cleared, hknown]
      · have hnext := hrest ret
        rw [cleared_concat fun _ => hmem] at hnext
        rw [if_neg (by simp [hknown]), if_neg fun h => hmem h.2, List.nil_append,
          intersectOne_of_notMem (notMem_cleared hzero'.1 hmem), Option.bind_eq_bind,
          Option.bind_some]
        dsimp only
        rw [hnext]
        cases puts retMax ret (written b (done ++ [x]) a) with
        | none => rfl
        | some ret' => simp [cleared, hmem]
    · have hnext := hrest ret
      rw [cleared_concat fun h => absurd h hknown] at hnext
      rw [if_pos (by simp [hknown]), if_neg fun h => hknown h.1, List.nil_append, hnext]
      cases puts retMax ret (written b (done ++ [x]) a) with
      | none => rfl
      | some ret' => simp [cleared, hknown]

end Writes

/-! ## The merged list -/

section Merge

variable {a b : List UInt64}

/-- The known layouts that only `a` holds and that `b` accepts by their number of channels. -/
def counted (a b : List UInt64) : List UInt64 :=
  a.filter fun x => known x ∧ x ∉ b ∧ countOf x ∈ b

/-- The numbers of channels that both lists hold. -/
def shared (a b : List UInt64) : List UInt64 := a.filter fun x => !known x ∧ x ∈ b

theorem flatMap_eq_filter {f : UInt64 → List UInt64} {p : UInt64 → Bool} {l : List UInt64}
    (h : ∀ x ∈ l, f x = if p x then [x] else []) : l.flatMap f = l.filter p := by
  induction l with
  | nil => rfl
  | cons x l ih =>
    rw [List.flatMap_cons, h x List.mem_cons_self, ih fun y hy => h y (List.mem_cons_of_mem _ hy),
      List.filter_cons]
    cases p x <;> rfl

theorem count_cleared_of_not_known {x : UInt64} (hx : known x = false) :
    (cleared a b).count x = b.count x := by
  have hzero : (0 : UInt64) ≠ x := by
    rintro rfl
    exact absurd hx (by decide)
  induction b with
  | nil => rfl
  | cons y b ih =>
    rw [cleared, List.map_cons, ← cleared, List.count_cons, List.count_cons, ih]
    by_cases hy : known y = true ∧ y ∈ a
    · have hne : y ≠ x := by
        rintro rfl
        rw [hx] at hy
        exact absurd hy.1 (by decide)
      simp [hy, hzero, hne]
    · simp [hy]

theorem counts_cleared (ha : Valid a) (hb : Valid b) :
    counts (cleared b a) (cleared a b) = counted a b := by
  rw [counts, show cleared b a = a.map _ from rfl, List.flatMap_map]
  refine flatMap_eq_filter fun x hx => ?_
  have hne : x ≠ 0 := fun h => ha.zero_notMem (h ▸ hx)
  by_cases hknown : known x = true
  · by_cases hmem : x ∈ b
    · simp [hknown, hmem]
    · by_cases hcount : countOf x ∈ b
      · have hone : (cleared a b).count (countOf x) = 1 := by
          rw [countOf, count_cleared_of_not_known (hb.known_of_count hcount)]
          exact List.count_eq_one_of_mem hb.nodup hcount
        simp [hknown, hmem, hcount, hne, hone]
      · have hnone : (cleared a b).count (countOf x) = 0 :=
          List.count_eq_zero.2 (notMem_cleared (count_ne_zero _).symm hcount)
        simp [hknown, hmem, hcount, hne, hnone]
  · simp [hknown]

theorem generics_cleared (hb : Valid b) : generics (cleared b a) (cleared a b) = shared a b := by
  rw [generics, show cleared b a = a.map _ from rfl, List.flatMap_map]
  refine flatMap_eq_filter fun x _ => ?_
  by_cases hknown : known x = true
  · by_cases hmem : x ∈ b
    · simp [hknown, hmem, show known 0 = true by decide]
    · simp [hknown, hmem]
  · have hcount := count_cleared_of_not_known (a := a) (b := b) (x := x) (by simpa using hknown)
    by_cases hmem : x ∈ b
    · have hone := List.count_eq_one_of_mem hb.nodup hmem
      simp [hknown, hmem, hcount, hone]
    · simp [hknown, hmem, hcount, List.count_eq_zero.2 hmem]

/-- Everything that is written for two lists. -/
def merged (a b : List UInt64) : List UInt64 :=
  written b [] a ++ (counted a b ++ (counted b a ++ shared a b))

theorem merged_eq (ha : Valid a) (hb : Valid b) (h : common a b = common b a) :
    merged a b = common a b ++ (counted a b ++ (counted b a ++ shared a b)) := by
  have hpair := (common_eq_iff ha.nodup hb.nodup).1 h
  have hzero := (@zero_notMem_written_iff a b [] hb.nodup ha.zero_notMem
    (by simpa using ha.nodup)).2 ⟨hpair, fun _ hy => absurd hy (List.not_mem_nil)⟩
  rw [merged, written_of_zero_notMem hzero]

theorem zero_mem_merged (ha : Valid a) (hb : Valid b) (h : common a b ≠ common b a) :
    0 ∈ merged a b := by
  rw [merged, List.mem_append]
  left
  by_contra hzero
  have hpair := (@zero_notMem_written_iff a b [] hb.nodup ha.zero_notMem
    (by simpa using ha.nodup)).1 hzero
  exact h ((common_eq_iff ha.nodup hb.nodup).2 hpair.1)

theorem length_filters_le {p q r : UInt64 → Bool} (l : List UInt64)
    (hpq : ∀ x, p x = true → q x = false) (hpr : ∀ x, p x = true → r x = false)
    (hqr : ∀ x, q x = true → r x = false) :
    (l.filter p).length + (l.filter q).length + (l.filter r).length ≤ l.length := by
  induction l with
  | nil => simp
  | cons x l ih =>
    have hx := hpq x
    have hx' := hpr x
    have hx'' := hqr x
    simp only [List.filter_cons, List.length_cons]
    cases hp : p x <;> cases hq : q x <;> cases hr : r x <;> simp_all <;> lia

theorem length_merged_le (ha : Valid a) (hb : Valid b) (h : common a b = common b a) :
    (merged a b).length ≤ a.length + b.length := by
  have hthree : (common a b).length + (counted a b).length + (shared a b).length ≤ a.length := by
    apply length_filters_le a <;> intro x hx <;> simp_all
  have hother : (counted b a).length ≤ b.length := List.length_filter_le _ _
  rw [merged_eq ha hb h]
  simp only [List.length_append]
  lia

theorem nodup_merged (ha : Valid a) (hb : Valid b) (h : common a b = common b a) :
    (merged a b).Nodup := by
  rw [merged_eq ha hb h]
  simp only [List.nodup_append, common, counted, shared, List.mem_append, List.mem_filter,
    Bool.decide_and]
  refine ⟨ha.nodup.filter _,
    ⟨ha.nodup.filter _, ⟨hb.nodup.filter _, ha.nodup.filter _, ?_⟩, ?_⟩, ?_⟩
  all_goals
    rintro x hx y hy rfl
    simp_all

theorem count_mem_merged (ha : Valid a) (hb : Valid b) (h : common a b = common b a) (c : UInt32) :
    ffCount2Layout c ∈ merged a b ↔ ffCount2Layout c ∈ a ∧ ffCount2Layout c ∈ b := by
  have hknown (hmem : ffCount2Layout c ∈ a ∨ ffCount2Layout c ∈ b) :
      known (ffCount2Layout c) = false := hmem.elim ha.known_of_count hb.known_of_count
  rw [merged_eq ha hb h]
  simp only [common, counted, shared, List.mem_append, List.mem_filter, decide_eq_true_eq,
    Bool.not_eq_true']
  constructor
  · rintro (⟨hmem, hk, -⟩ | ⟨hmem, hk, -⟩ | ⟨hmem, hk, -⟩ | ⟨hmem, -, hmem'⟩)
    · exact absurd (hk.symm.trans (hknown (Or.inl hmem))) (by decide)
    · exact absurd (hk.symm.trans (hknown (Or.inl hmem))) (by decide)
    · exact absurd (hk.symm.trans (hknown (Or.inr hmem))) (by decide)
    · exact ⟨hmem, hmem'⟩
  · rintro ⟨hmem, hmem'⟩
    exact Or.inr (Or.inr (Or.inr ⟨hmem, hknown (Or.inl hmem), hmem'⟩))

theorem accepts_merged (ha : Valid a) (hb : Valid b) (h : common a b = common b a) :
    accepts (merged a b) = accepts a ∩ accepts b := by
  have hcount := count_mem_merged ha hb h
  ext layout
  cases layout with
  | unknown n => exact hcount n
  | known x =>
    have hcount' : countOf x ∈ merged a b ↔ countOf x ∈ a ∧ countOf x ∈ b := hcount _
    show (known x = true ∧ (x ∈ merged a b ∨ countOf x ∈ merged a b)) ↔
      (known x = true ∧ (x ∈ a ∨ countOf x ∈ a)) ∧ (known x = true ∧ (x ∈ b ∨ countOf x ∈ b))
    rw [hcount', merged_eq ha hb h]
    simp only [common, counted, shared, List.mem_append, List.mem_filter, decide_eq_true_eq,
      Bool.not_eq_true']
    have hcover := ha.uncovered x
    have hcover' := hb.uncovered x
    by_cases hknown : known x = true
    · simp only [hknown, true_and, forall_const] at hcover hcover' ⊢
      tauto
    · simp [hknown]

end Merge

/-! ## References -/

section References

variable {m : Memory} {a b r : Nat} {la lb : AVFilterChannelLayouts}

theorem list_eq_some {l : AVFilterChannelLayouts} :
    m.list a = some l ↔ m.lists[a]? = some (some l) := by
  rw [Memory.list, Option.join_eq_some_iff]

theorem getElem?_redirect (refs : List Nat) (pointers : List (Option Nat)) (i : Nat) :
    (refs.foldl (fun pointers ref => pointers.set ref (some r)) pointers)[i]? =
      if i ∈ refs ∧ i < pointers.length then some (some r) else pointers[i]? := by
  induction refs generalizing pointers with
  | nil => simp
  | cons ref refs ih =>
    rw [List.foldl_cons, ih, List.length_set, List.getElem?_set]
    simp only [List.mem_cons]
    by_cases hi : i ∈ refs ∧ i < pointers.length
    · simp [hi]
    · by_cases href : ref = i
      · subst href
        by_cases hlt : ref < pointers.length
        · simp [hlt]
        · simp [hlt]
      · simp [hi, href, Ne.symm href]

theorem length_redirect (refs : List Nat) (pointers : List (Option Nat)) :
    (refs.foldl (fun pointers ref => pointers.set ref (some r)) pointers).length =
      pointers.length := by
  induction refs generalizing pointers with
  | nil => rfl
  | cons ref refs ih => rw [List.foldl_cons, ih, List.length_set]

/-- What the merge of two lists has to do: nothing when no layout is accepted by both, and
otherwise a new list that accepts what both accept takes over all references. -/
def Intersects (m : Memory) (a b : Nat) (la lb : AVFilterChannelLayouts) : Prop :=
  (accepts la.channelLayouts ∩ accepts lb.channelLayouts = ∅ →
    ffMergeChannelLayouts m a b = some (m, none)) ∧
  (accepts la.channelLayouts ∩ accepts lb.channelLayouts ≠ ∅ →
    ∃ m' r l, ffMergeChannelLayouts m a b = some (m', some r) ∧ m'.list r = some l ∧
      accepts l.channelLayouts = accepts la.channelLayouts ∩ accepts lb.channelLayouts ∧
      l.allLayouts = 0 ∧ l.allCounts = 0 ∧ l.channelLayouts.Nodup ∧
      l.channelLayouts.length ≤ la.channelLayouts.length + lb.channelLayouts.length ∧
      l.refs = la.refs ++ lb.refs ∧ ∀ ref ∈ l.refs, m'.pointers[ref]? = some (some r))

/-- The lists at `a` and `b` as the function takes them. -/
structure Lists (m : Memory) (a b : Nat) (la lb : AVFilterChannelLayouts) : Prop where
  distinct : a ≠ b
  left : m.list a = some la
  right : m.list b = some lb
  all_left : la.allLayouts = 0 ∧ la.allCounts = 0
  all_right : lb.allLayouts = 0 ∧ lb.allCounts = 0
  refs : ∀ ref ∈ la.refs ++ lb.refs, ref < m.pointers.length

/-- The two lists with the common layouts cleared. -/
def afterClearing (m : Memory) (a b : Nat) (la lb : AVFilterChannelLayouts) : Memory :=
  let fa := { la with channelLayouts := cleared lb.channelLayouts la.channelLayouts }
  let fb := { lb with channelLayouts := cleared la.channelLayouts lb.channelLayouts }
  { m with lists := (m.lists.set a (some fa)).set b (some fb) }

/-- The code up to the place where it knows what the new list holds. -/
theorem ffMergeChannelLayouts_eq (h : Lists m a b la lb) (ha : Valid la.channelLayouts)
    (hb : Valid lb.channelLayouts) :
    ffMergeChannelLayouts m a b =
      (puts (la.channelLayouts.length + lb.channelLayouts.length) []
        (merged la.channelLayouts lb.channelLayouts)).bind
          (finishMerge (afterClearing m a b la lb) a b) := by
  have hknown := @intersectKnown_eq (la.channelLayouts.length + lb.channelLayouts.length)
    la.channelLayouts lb.channelLayouts [] [] hb.nodup hb.zero_notMem ha.zero_notMem
    (by simpa using ha.nodup)
  have hnone : cleared [] lb.channelLayouts = lb.channelLayouts := by simp [cleared]
  rw [hnone, List.nil_append] at hknown
  have haAll : la.allLayouts + la.allCounts = 0 := by
    have := h.all_left
    lia
  have hbAll : lb.allLayouts + lb.allCounts = 0 := by
    have := h.all_right
    lia
  unfold ffMergeChannelLayouts
  simp only [h.left, h.right, haAll, hbAll, Option.bind_eq_bind, Option.bind_some,
    if_neg h.distinct, Nat.lt_irrefl, if_false, ne_eq, not_true_eq_false, hknown,
    intersectCounts_eq, intersectGeneric_eq]
  rw [merged, puts_append]
  cases puts (la.channelLayouts.length + lb.channelLayouts.length) []
      (written lb.channelLayouts [] la.channelLayouts) with
  | none => rfl
  | some ret =>
    simp only [Option.map_some, Option.bind_eq_bind, Option.bind_some, puts_append,
      counts_cleared ha hb, counts_cleared hb ha, generics_cleared hb, Option.bind_assoc]
    rfl

theorem mergeRef_spec {lr l : AVFilterChannelLayouts} (hr : m.list r = some lr)
    (hl : m.list a = some l) (hne : r ≠ a) :
    ∃ m', mergeRef m r a = some m' ∧ m'.list r = some { lr with refs := lr.refs ++ l.refs } ∧
      (∀ c, c ≠ r → c ≠ a → m'.list c = m.list c) ∧
      m'.pointers = l.refs.foldl (fun pointers ref => pointers.set ref (some r)) m.pointers := by
  have hlt : r < m.lists.length := (List.getElem?_eq_some_iff.1 (list_eq_some.1 hr)).1
  refine ⟨_, by simp only [mergeRef, hr, hl, Option.bind_eq_bind, Option.bind_some]; rfl, ?_, ?_,
    rfl⟩
  · rw [list_eq_some, List.getElem?_set_ne hne.symm, List.getElem?_set_self hlt]
  · intro c hcr hca
    rw [Memory.list, List.getElem?_set_ne hca.symm, List.getElem?_set_ne hcr.symm]
    rfl

/-- The new list has all references, and they point to it. -/
theorem finishMerge_spec (h : Lists m a b la lb) {ret : List UInt64} (hret : ret ≠ []) :
    ∃ m', finishMerge (afterClearing m a b la lb) a b ret = some (m', some m.lists.length) ∧
      m'.list m.lists.length = some ⟨ret, 0, 0, la.refs ++ lb.refs⟩ ∧
      ∀ ref ∈ la.refs ++ lb.refs, m'.pointers[ref]? = some (some m.lists.length) := by
  have ha : a < m.lists.length := (List.getElem?_eq_some_iff.1 (list_eq_some.1 h.left)).1
  have hb : b < m.lists.length := (List.getElem?_eq_some_iff.1 (list_eq_some.1 h.right)).1
  have hlength : (afterClearing m a b la lb).lists.length = m.lists.length := by
    simp [afterClearing]
  obtain ⟨fa, hfa, harefs⟩ : ∃ fa, (afterClearing m a b la lb).lists[a]? = some (some fa) ∧
      fa.refs = la.refs := by
    refine ⟨{ la with channelLayouts := cleared lb.channelLayouts la.channelLayouts }, ?_, rfl⟩
    rw [afterClearing, List.getElem?_set_ne h.distinct.symm, List.getElem?_set_self ha]
  obtain ⟨fb, hfb, hbrefs⟩ : ∃ fb, (afterClearing m a b la lb).lists[b]? = some (some fb) ∧
      fb.refs = lb.refs := by
    refine ⟨{ lb with channelLayouts := cleared la.channelLayouts lb.channelLayouts }, ?_, rfl⟩
    rw [afterClearing, List.getElem?_set_self (by simpa using hb)]
  have hpointers : (afterClearing m a b la lb).pointers = m.pointers := rfl
  generalize afterClearing m a b la lb = m₀ at *
  -- the new list, and the two old ones beside it
  obtain ⟨m₁, hm₁⟩ : ∃ m₁ : Memory, m₁ = { m₀ with lists := m₀.lists ++ [some ⟨ret, 0, 0, []⟩] } :=
    ⟨_, rfl⟩
  have hmade : m₁.list m.lists.length = some ⟨ret, 0, 0, []⟩ := by
    rw [list_eq_some, hm₁, ← hlength]
    simp
  have hleft : m₁.list a = some fa := by
    rw [list_eq_some, hm₁, List.getElem?_append_left (by lia), hfa]
  have hright : m₁.list b = some fb := by
    rw [list_eq_some, hm₁, List.getElem?_append_left (by lia), hfb]
  obtain ⟨m₂, hmerge, hmade₂, hother₂, hpointers₂⟩ := mergeRef_spec hmade hleft (by lia)
  have hright₂ := (hother₂ b (by lia) h.distinct.symm).trans hright
  obtain ⟨m₃, hmerge₃, hmade₃, -, hpointers₃⟩ := mergeRef_spec hmade₂ hright₂ (by lia)
  refine ⟨m₃, ?_, ?_, fun ref href => ?_⟩
  · rw [finishMerge, if_neg hret]
    simp only [hlength, ← hm₁, hmerge, hmerge₃, Option.bind_eq_bind, Option.bind_some]
    rfl
  · rw [hmade₃, harefs, hbrefs]
    rfl
  · have hlt := h.refs ref href
    rw [hpointers₃, hpointers₂, getElem?_redirect, getElem?_redirect, length_redirect, hm₁,
      hpointers, harefs, hbrefs]
    rcases List.mem_append.1 href with hmem | hmem
    · simp [hmem, hlt]
    · simp [hmem, hlt]

theorem cleared_of_common {a b : List UInt64} (h : common a b = []) : cleared b a = a := by
  have hsame : ∀ x ∈ a, (if known x ∧ x ∈ b then 0 else x) = id x := by
    intro x hx
    have hnot : ¬ (known x = true ∧ x ∈ b) := fun hcommon => by
      have hmem : x ∈ common a b := List.mem_filter.2 ⟨hx, by simpa using hcommon⟩
      rw [h] at hmem
      exact List.not_mem_nil hmem
    rw [if_neg hnot, id]
  rw [cleared, List.map_congr_left hsame, List.map_id]

theorem afterClearing_eq (h : Lists m a b la lb)
    (hcommon : common la.channelLayouts lb.channelLayouts = [])
    (hcommon' : common lb.channelLayouts la.channelLayouts = []) :
    afterClearing m a b la lb = m := by
  have hset {c : Nat} {l : AVFilterChannelLayouts} (hl : m.list c = some l) :
      m.lists.set c (some l) = m.lists := by
    rw [list_eq_some] at hl
    refine List.ext_getElem? fun i => ?_
    rw [List.getElem?_set]
    split
    · rename_i hi
      subst hi
      obtain ⟨hlt, -⟩ := List.getElem?_eq_some_iff.1 hl
      rw [if_pos hlt, hl]
    · rfl
  rw [afterClearing, cleared_of_common hcommon, cleared_of_common hcommon']
  show { m with lists := (m.lists.set a (some la)).set b (some lb) } = m
  rw [hset h.left, hset h.right]

variable {l : List UInt64}

theorem accepts_ne_empty {x : UInt64} (hmem : x ∈ l)
    (hentry : known x = true ∨ ∃ c, x = ffCount2Layout c) : accepts l ≠ ∅ := by
  rw [ne_eq, Set.eq_empty_iff_forall_notMem, not_forall]
  rcases hentry with hknown | ⟨c, rfl⟩
  · exact ⟨.known x, not_not.2 ⟨hknown, Or.inl hmem⟩⟩
  · exact ⟨.unknown c, not_not.2 hmem⟩

theorem accepts_nil : accepts [] = ∅ := by
  refine Set.eq_empty_iff_forall_notMem.2 fun layout hlayout => ?_
  cases layout with
  | known x => exact hlayout.2.elim List.not_mem_nil List.not_mem_nil
  | unknown n => exact List.not_mem_nil hlayout

theorem zero_notMem_accepts (h : Valid l) : Layout.known 0 ∉ accepts l := by
  rintro ⟨-, hmem | hmem⟩
  · exact h.zero_notMem hmem
  · exact absurd (h.known_of_count hmem) (by decide)

theorem mem_of_mem_merged {a b : List UInt64} {x : UInt64} (ha : Valid a) (hb : Valid b)
    (h : common a b = common b a) (hx : x ∈ merged a b) : x ∈ a ∨ x ∈ b := by
  rw [merged_eq ha hb h] at hx
  simp only [common, counted, shared, List.mem_append, List.mem_filter] at hx
  tauto

/-- The merge is the intersection exactly when the known layouts that both lists hold come in
the same order in both. -/
theorem intersects_iff (h : Lists m a b la lb) (ha : Valid la.channelLayouts)
    (hb : Valid lb.channelLayouts) :
    Intersects m a b la lb ↔
      common la.channelLayouts lb.channelLayouts = common lb.channelLayouts la.channelLayouts := by
  have hrun := ffMergeChannelLayouts_eq h ha hb
  constructor
  · rintro ⟨-, hmerge⟩
    by_contra hne
    have hzero := zero_mem_merged ha hb hne
    -- out of order there are common layouts, so there is a new list
    have hmeet : accepts la.channelLayouts ∩ accepts lb.channelLayouts ≠ ∅ := by
      intro hempty
      have hnone {x : UInt64} (hx : known x = true) (hxa : x ∈ la.channelLayouts)
          (hxb : x ∈ lb.channelLayouts) : False :=
        Set.eq_empty_iff_forall_notMem.1 hempty (.known x) ⟨⟨hx, Or.inl hxa⟩, ⟨hx, Or.inl hxb⟩⟩
      refine hne ((List.filter_eq_nil_iff.2 fun x hx hcommon => ?_).trans
        (List.filter_eq_nil_iff.2 fun x hx hcommon => ?_).symm)
      · simp only [decide_eq_true_eq] at hcommon
        exact hnone hcommon.1 hx hcommon.2
      · simp only [decide_eq_true_eq] at hcommon
        exact hnone hcommon.1 hcommon.2 hx
    obtain ⟨m', r, l, hsome, hlist, haccepts, -⟩ := hmerge hmeet
    rw [hrun] at hsome
    obtain ⟨ret, hputs, hfinish⟩ := Option.bind_eq_some_iff.1 hsome
    have hret := puts_eq_some hputs
    rw [List.nil_append] at hret
    subst hret
    obtain ⟨m'', hfinish', hlist', -⟩ := finishMerge_spec h (List.ne_nil_of_mem hzero)
    rw [hfinish'] at hfinish
    obtain ⟨rfl, rfl⟩ : m'' = m' ∧ m.lists.length = r := by simpa using hfinish
    rw [hlist'] at hlist
    obtain rfl := Option.some.inj hlist
    have hmem : Layout.known 0 ∈ accepts la.channelLayouts ∩ accepts lb.channelLayouts := by
      rw [← haccepts]
      exact ⟨by decide, Or.inl hzero⟩
    exact zero_notMem_accepts ha hmem.1
  · intro horder
    have hputs := @puts_of_le (la.channelLayouts.length + lb.channelLayouts.length) [] _
      (by simpa using length_merged_le ha hb horder)
    rw [hputs, Option.bind_some, List.nil_append] at hrun
    have haccepts := accepts_merged ha hb horder
    refine ⟨fun hdisjoint => ?_, fun hmeet => ?_⟩
    · have hnil : merged la.channelLayouts lb.channelLayouts = [] := by
        by_contra hne
        obtain ⟨x, hx⟩ := List.exists_mem_of_ne_nil _ hne
        have hentry : known x = true ∨ ∃ c, x = ffCount2Layout c := by
          have hvalid := (mem_of_mem_merged ha hb horder hx).elim (ha.entry x) (hb.entry x)
          exact hvalid.imp (fun hknown => known_of_top hknown.2) fun ⟨c, _, _, heq⟩ => ⟨c, heq⟩
        exact accepts_ne_empty hx hentry (haccepts.trans hdisjoint)
      have hcommon : common la.channelLayouts lb.channelLayouts = [] := by
        have hparts := hnil
        rw [merged_eq ha hb horder] at hparts
        exact (List.append_eq_nil_iff.1 hparts).1
      rw [hrun, hnil, afterClearing_eq h hcommon (horder ▸ hcommon)]
      rfl
    · have hne : merged la.channelLayouts lb.channelLayouts ≠ [] := by
        intro hnil
        rw [hnil, accepts_nil] at haccepts
        exact hmeet haccepts.symm
      obtain ⟨m', hfinish, hlist, hpointers⟩ := finishMerge_spec h hne
      exact ⟨m', m.lists.length, _, hrun.trans hfinish, hlist, haccepts, rfl, rfl,
        nodup_merged ha hb horder, length_merged_le ha hb horder, rfl, hpointers⟩

theorem valid_of_layouts (hnodup : l.Nodup)
    (hlayout : ∀ x ∈ l, x ≠ 0 ∧ x &&& 0x8000000000000000 = 0) : Valid l where
  nodup := hnodup
  entry x hx := Or.inl (hlayout x hx)
  uncovered _ _ _ hmem := count_top _ (hlayout _ hmem).2

/-- Two lists in memory, each with one pointer to it. -/
def twoLists (a b : List UInt64) : Memory :=
  ⟨[some ⟨a, 0, 0, [0]⟩, some ⟨b, 0, 0, [1]⟩], [some 0, some 1]⟩

theorem lists_twoLists (a b : List UInt64) :
    Lists (twoLists a b) 0 1 ⟨a, 0, 0, [0]⟩ ⟨b, 0, 0, [1]⟩ :=
  ⟨by decide, rfl, rfl, ⟨rfl, rfl⟩, ⟨rfl, rfl⟩, by simp [twoLists]⟩

/-- Stereo and front centre, with one more layout in the second list. -/
theorem intersects_iff_sameOrder :
    Intersects (twoLists [3, 4] [3, 0x33, 4]) 0 1 ⟨[3, 4], 0, 0, [0]⟩ ⟨[3, 0x33, 4], 0, 0, [1]⟩ :=
  (intersects_iff (lists_twoLists _ _) (valid_of_layouts (by decide) (by simp; decide))
    (valid_of_layouts (by decide) (by simp; decide))).2 (by decide)

/-- The same two layouts in the other order: the new list accepts a layout without a channel. -/
theorem not_intersects_otherOrder :
    ¬ ∀ m a b la lb, Lists m a b la lb → Valid la.channelLayouts → Valid lb.channelLayouts →
      Intersects m a b la lb := by
  intro hall
  have hvalid : Valid [3, 4] := valid_of_layouts (by decide) (by simp; decide)
  obtain ⟨-, hmerge⟩ := hall _ _ _ _ _ (lists_twoLists [3, 4] [4, 3]) hvalid
    (valid_of_layouts (by decide) (by simp; decide))
  have hmeet : accepts [3, 4] ∩ accepts [4, 3] ≠ ∅ := by
    rw [ne_eq, Set.eq_empty_iff_forall_notMem, not_forall]
    exact ⟨.known 3, not_not.2 ⟨⟨by decide, by decide⟩, ⟨by decide, by decide⟩⟩⟩
  obtain ⟨m', r, l, hsome, hlist, haccepts, -⟩ := hmerge hmeet
  have hrun : ffMergeChannelLayouts (twoLists [3, 4] [4, 3]) 0 1 =
      some (⟨[none, none, some ⟨[3, 4, 0], 0, 0, [0, 1]⟩], [some 2, some 2]⟩, some 2) := by
    decide
  rw [hrun] at hsome
  obtain ⟨rfl, rfl⟩ : _ = m' ∧ 2 = r := by simpa using hsome
  obtain rfl : ⟨[3, 4, 0], 0, 0, [0, 1]⟩ = l := by simpa [Memory.list] using hlist
  have hmem : Layout.known 0 ∈ accepts [3, 4] ∩ accepts [4, 3] := by
    rw [← haccepts]
    exact ⟨by decide, Or.inl (by decide)⟩
  exact zero_notMem_accepts hvalid hmem.1

/-- With four layouts in the reverse order there are more zeros than the array has room for. -/
example : ffMergeChannelLayouts (twoLists [3, 4, 7, 0x33] [0x33, 7, 4, 3]) 0 1 = none := by decide

end References

end FFmpeg.Libavfilter.FormatsMerge
