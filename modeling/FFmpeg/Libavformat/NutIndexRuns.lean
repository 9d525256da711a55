import FFmpeg.Libavformat.NutIndex
import FFmpeg.Libavformat.NutPacket

/-!
# Syncpoints and runs of keyframes in the index of a NUT file

The writer finds the syncpoints in their tree one after the other, and the reader gets
their positions from the differences.  Of the keyframes of a stream both sides treat one
run after the other, so that `j` is the same on both sides.
-/

namespace FFmpeg.Libavformat.NutIndex

open Common Libavutil Crc Nut Nut.AVIOContext IndexEntries

/-! ## Syncpoints in their tree -/

variable {α : Type*}

theorem elems_avTreeInsert_last {cmp : α → α → Int} {t : AVTree α} {key : α}
    (h : ∀ e ∈ t.elems, cmp e key < 0) :
    (avTreeInsert cmp t key true).1.elems = t.elems ++ [key] := by
  induction t with
  | nil => rfl
  | node l e s r _ ihr =>
    have he : cmp e key < 0 := h e (by simp)
    rw [avTreeInsert]
    dsimp only
    rw [if_neg (by lia), if_pos he, elems_ascend, if_pos rfl, if_pos rfl,
      ihr fun x hx => h x (by simp [hx]), AVTree.elems_node, List.append_assoc, List.cons_append]

theorem avTreeFind_next1 {κ : Type*} {cmp : κ → α → Int} {key : κ} {t : AVTree α}
    (h : t.elems.Pairwise fun x y => cmp key x < 0 → cmp key y < 0) (next : Next α) :
    (avTreeFind cmp key t next).2.next1 = (t.elems.find? fun x => cmp key x < 0).or next.next1 := by
  induction t generalizing next with
  | nil => rfl
  | node l e s r ihl ihr =>
    rw [AVTree.elems_node, List.pairwise_append, List.pairwise_cons] at h
    obtain ⟨hl, ⟨-, hr⟩, hbelow⟩ := h
    have hnone (he : ¬ cmp key e < 0) : l.elems.find? (fun x => decide (cmp key x < 0)) = none := by
      apply List.find?_eq_none.mpr
      intro x hx hlt
      exact he (hbelow x hx e List.mem_cons_self (of_decide_eq_true hlt))
    rw [avTreeFind, AVTree.elems_node, List.find?_append, List.find?_cons]
    by_cases hlt : cmp key e < 0
    · rw [if_pos hlt, ihl hl, decide_eq_true hlt]
      dsimp only
      rw [Option.or_assoc, Option.some_or]
    · rw [if_neg hlt, hnone hlt, decide_eq_false hlt, Option.none_or]
      by_cases hgt : 0 < cmp key e
      · rw [if_pos hgt, ihr hr]
      · rw [if_neg hgt, ihr hr, ihl hl, hnone hlt, Option.none_or]

theorem ffNutSpPosCmp_neg_iff {va vb : Syncpoint} (ha : va.pos < 2 ^ 62) (hb : vb.pos < 2 ^ 62) :
    ffNutSpPosCmp va vb < 0 ↔ va.pos < vb.pos := by
  unfold ffNutSpPosCmp toSigned toUnsigned
  rw [Int.bmod_def, Nat.shiftRight_eq_div_pow, Nat.shiftRight_eq_div_pow]
  split_ifs <;> omega

/-- The syncpoints of a muxer, as they are added one after the other. -/
def addSyncpoints (sps : List Syncpoint) : AVTree Syncpoint × Nat :=
  sps.foldl (fun nut sp => ffNutAddSp nut.1 nut.2 sp.pos sp.backPtr sp.ts) (.nil, 0)

/-- Syncpoints at positions that are positive and increase, also without their low bits. -/
structure Increasing (sps : List Syncpoint) : Prop where
  pairwise : sps.Pairwise fun sp sp' => sp.pos >>> 4 < sp'.pos >>> 4
  pos : ∀ sp ∈ sps, 0 < sp.pos >>> 4
  lt : ∀ sp ∈ sps, sp.pos < 2 ^ 62

theorem lt_of_shiftRight_lt {a b : Nat} (h : a >>> 4 < b >>> 4) : a < b := by
  rw [Nat.shiftRight_eq_div_pow, Nat.shiftRight_eq_div_pow] at h
  lia

variable {sps : List Syncpoint} {t : AVTree Syncpoint} {n : Nat}

theorem elems_foldl (h : Increasing (t.elems ++ sps)) :
    let nut := sps.foldl (fun nut sp => ffNutAddSp nut.1 nut.2 sp.pos sp.backPtr sp.ts) (t, n)
    nut.1.elems = t.elems ++ sps ∧ nut.2 = n + sps.length := by
  induction sps generalizing t n with
  | nil => exact ⟨(List.append_nil _).symm, rfl⟩
  | cons sp sps ih =>
    have hlast : (ffNutAddSp t n sp.pos sp.backPtr sp.ts).1.elems = t.elems ++ [sp] := by
      refine elems_avTreeInsert_last fun e he => ?_
      have hlt := (List.pairwise_append.mp h.pairwise).2.2 e he sp List.mem_cons_self
      exact (ffNutSpPosCmp_neg_iff (h.lt e (by simp [he])) (h.lt sp (by simp))).mpr
        (lt_of_shiftRight_lt hlt)
    have hcons : t.elems ++ sp :: sps = (t.elems ++ [sp]) ++ sps := by simp
    rw [hcons, ← hlast] at h
    have hrest := ih (n := n + 1) h
    rw [hlast] at hrest
    rw [hcons, List.length_cons, List.foldl_cons, Nat.add_comm sps.length, ← Nat.add_assoc]
    exact hrest

theorem elems_addSyncpoints (h : Increasing sps) :
    (addSyncpoints sps).1.elems = sps ∧ (addSyncpoints sps).2 = sps.length := by
  have hall := elems_foldl (t := .nil) (n := 0) h
  rw [Nat.zero_add] at hall
  exact hall

/-! ## The positions of the syncpoints -/

/-- The bytes for syncpoints behind a position, in units of 16 bytes. -/
def syncpointBytes : Nat → List Syncpoint → Bytes
  | _, [] => []
  | last, sp :: sps => putV (sp.pos >>> 4 - last) ++ syncpointBytes (sp.pos >>> 4) sps

theorem toUnsigned_natCast (h : n < 2 ^ 64) : toUnsigned 64 n = n := by
  unfold toUnsigned
  lia

/-- Each round of the writer finds the next syncpoint. -/
theorem writeSyncpoints_eq {done : List Syncpoint} (ht : t.elems = done ++ sps)
    (h : Increasing t.elems) (dummy : Syncpoint) (hdummy : dummy.pos < 2 ^ 62)
    (hdone : ∀ sp ∈ done, sp.pos ≤ dummy.pos) (hsps : ∀ sp ∈ sps, dummy.pos >>> 4 < sp.pos >>> 4)
    (next : Next Syncpoint) :
    writeSyncpoints t sps.length dummy next = some (syncpointBytes (dummy.pos >>> 4) sps) := by
  induction sps generalizing done dummy next with
  | nil => rfl
  | cons sp sps ih =>
    have hmem : sp ∈ t.elems := by simp [ht]
    have hcmp : ∀ x ∈ t.elems, ffNutSpPosCmp dummy x < 0 ↔ dummy.pos < x.pos :=
      fun x hx => ffNutSpPosCmp_neg_iff hdummy (h.lt x hx)
    have hpair : t.elems.Pairwise fun x y => ffNutSpPosCmp dummy x < 0 →
        ffNutSpPosCmp dummy y < 0 := by
      refine h.pairwise.imp_of_mem fun {x y} hx hy hlt hneg => (hcmp y hy).mpr ?_
      exact ((hcmp x hx).mp hneg).trans (lt_of_shiftRight_lt hlt)
    have hfound : t.elems.find? (fun x => decide (ffNutSpPosCmp dummy x < 0)) = some sp := by
      have hnone : done.find? (fun x => decide (ffNutSpPosCmp dummy x < 0)) = none := by
        apply List.find?_eq_none.mpr
        intro x hx hneg
        have hlt := (hcmp x (by simp [ht, hx])).mp (of_decide_eq_true hneg)
        exact absurd (hdone x hx) (by omega)
      have hsp := (hcmp sp hmem).mpr (lt_of_shiftRight_lt (hsps sp List.mem_cons_self))
      rw [ht, List.find?_append, hnone, Option.none_or, List.find?_cons, decide_eq_true hsp]
    have hsplit := h.pairwise
    rw [ht, List.pairwise_append, List.pairwise_cons] at hsplit
    have hdone' : t.elems = (done ++ [sp]) ++ sps := by simp [ht]
    have hrest := ih hdone' { dummy with pos := sp.pos }
      (h.lt sp hmem) (fun x hx => by
        rcases List.mem_append.mp hx with hx | hx
        · exact (lt_of_shiftRight_lt (hsplit.2.2 x hx sp List.mem_cons_self)).le
        · rw [List.mem_singleton.mp hx])
      (fun x hx => hsplit.2.1.1 x hx)
      (avTreeFind ffNutSpPosCmp dummy t next).2
    have hlt := hsps sp List.mem_cons_self
    have hdelta : toUnsigned 64 ((sp.pos >>> 4 : Nat) - (dummy.pos >>> 4 : Nat)) =
        sp.pos >>> 4 - dummy.pos >>> 4 := by
      have hsmall : sp.pos >>> 4 ≤ sp.pos := Nat.shiftRight_le _ _
      have hpos := h.lt sp hmem
      rw [← Int.ofNat_sub hlt.le]
      exact toUnsigned_natCast (by omega)
    rw [List.length_cons, writeSyncpoints, avTreeFind_next1 hpair, hfound, Option.some_or,
      Option.bind_eq_bind, Option.bind_some, hrest,
      Option.bind_eq_bind, Option.bind_some, hdelta]
    rfl

theorem toSigned_natCast (h : n < 2 ^ 63) : toSigned 64 n = n :=
  Int.bmod_eq_of_le (by lia) (by lia)

/-- The positions are read from their differences. -/
theorem readSyncpoints_eq {last : Nat} {bc : AVIOContext} {tail : Bytes}
    (hpair : sps.Pairwise fun sp sp' => sp.pos >>> 4 < sp'.pos >>> 4)
    (hlast : ∀ sp ∈ sps, last < sp.pos >>> 4) (hlt : ∀ sp ∈ sps, sp.pos < 2 ^ 62)
    (h : bc.rest = syncpointBytes last sps ++ tail) :
    readSyncpoints sps.length last bc = (true, sps.map fun sp => ((sp.pos >>> 4 : Nat) : Int),
      bc.advance (syncpointBytes last sps).length) := by
  induction sps generalizing last bc with
  | nil => rfl
  | cons sp sps ih =>
    have hpos := hlast sp List.mem_cons_self
    have hsmall : sp.pos >>> 4 < 2 ^ 62 :=
      Nat.lt_of_le_of_lt (Nat.shiftRight_le _ _) (hlt sp List.mem_cons_self)
    rw [List.pairwise_cons] at hpair
    rw [syncpointBytes, List.append_assoc] at h
    have hread := ffioReadVarlen_putV (show sp.pos >>> 4 - last < 2 ^ 64 by lia) h
    have hrest := ih hpair.2 hpair.1 (fun x hx => hlt x (List.mem_cons_of_mem sp hx))
      (rest_advance_append h)
    have hdelta : toSigned 64 (sp.pos >>> 4 - last : Nat) = (sp.pos >>> 4 - last : Nat) :=
      toSigned_natCast (by lia)
    have hsum : toSigned 64 ((sp.pos >>> 4 - last : Nat) + (last : Int)) = (sp.pos >>> 4 : Nat) :=
        by
      rw [← Nat.cast_add, Nat.sub_add_cancel hpos.le]
      exact toSigned_natCast (by lia)
    rw [List.length_cons, readSyncpoints, hread]
    dsimp only
    rw [hdelta, if_neg (by lia), hsum, hrest, advance_advance]
    dsimp only
    rw [syncpointBytes, List.length_append]
    rfl

/-! ## Keyframes -/

/-- A `keyframe_pts` table: entry 0 is not set, and what is set increases from 0 on. -/
structure Keyframes (spCount : Nat) (pts : List Int) : Prop where
  length : pts.length = spCount
  first : pts.head?.any isSet = false
  range : ∀ p ∈ pts, isSet p → 0 ≤ p ∧ p < 2 ^ 63
  pairwise : pts.Pairwise fun p q => isSet p → isSet q → p < q

/-- The entries for a part of the table, whose timestamps come with their indices. -/
def entriesOf (sps : List Syncpoint) (pts : List (Int × Nat)) : List (Int × Int) :=
  pts.filterMap fun p =>
    if isSet p.1 then sps[p.2 - 1]?.map fun sp => (16 * ((sp.pos >>> 4 : Nat) : Int), p.1) else none

/-- The index of a stream: for every `j` that is set, the position of the syncpoint before
it, in units of 16 bytes, and the timestamp. -/
def indexOf (sps : List Syncpoint) (pts : List Int) : List (Int × Int) := entriesOf sps pts.zipIdx

/-- What one call after the other of `av_add_index_entry` does. -/
def addEntries (memory : Bool) (st : AVStream) (entries : List (Int × Int)) : Option AVStream :=
  entries.foldlM (fun st e => (avAddIndexEntry memory st e.1 e.2 0 0 1).map Prod.snd) st

theorem addEntries_append (memory : Bool) (st : AVStream) (a b : List (Int × Int)) :
    addEntries memory st (a ++ b) =
        (addEntries memory st a).bind fun st => addEntries memory st b :=
  List.foldlM_append

theorem addEntries_cons (memory : Bool) (st : AVStream) (e : Int × Int) (l : List (Int × Int)) :
    addEntries memory st (e :: l) =
      (avAddIndexEntry memory st e.1 e.2 0 0 1).bind fun added => addEntries memory added.2 l := by
  rw [addEntries, List.foldlM_cons, Option.bind_eq_bind, Option.bind_map]
  rfl

theorem entriesOf_append (sps : List Syncpoint) (a b : List (Int × Nat)) :
    entriesOf sps (a ++ b) = entriesOf sps a ++ entriesOf sps b :=
  List.filterMap_append

variable {sps : List Syncpoint}

/-- The positions as they are read. -/
def readPositions (sps : List Syncpoint) : List Int := sps.map fun sp => ((sp.pos >>> 4 : Nat) :
    Int)

/-- **The timestamps of a run** are written as differences, and an entry is added for each. -/
theorem writeDeltas_spec (memory : Bool) {l : List Int} {j : Nat} {lastPts : Int} (hlast :
    -1 ≤ lastPts)
    (habove : ∀ p ∈ l, isSet p → lastPts < p ∧ p < 2 ^ 63)
    (hpair : l.Pairwise fun p q => isSet p → isSet q → p < q)
    (hfirst : j = 0 → l.head?.any isSet = false) (hlength : j + l.length ≤ sps.length + 1) :
    ∃ bytes lastPts', writeDeltas l lastPts = some (bytes, lastPts') ∧
      (lastPts' = lastPts ∨ lastPts' ∈ l ∧ isSet lastPts') ∧
      ∀ {bc : AVIOContext} {tail : Bytes} (st : AVStream), bc.rest = bytes ++ tail →
        addKeyframes memory (readPositions sps) (l.map isSet) j lastPts bc st =
          (addEntries memory st (entriesOf sps (l.zipIdx j))).map fun st' =>
            (lastPts', bc.advance bytes.length, st') := by
  induction l generalizing j lastPts with
  | nil => exact ⟨[], lastPts, rfl, .inl rfl, fun st _ => rfl⟩
  | cons p l ih =>
    rw [List.pairwise_cons] at hpair
    rw [List.length_cons] at hlength
    cases hset : isSet p with
    | false =>
      obtain ⟨bytes, lastPts', hwrite, hnew, hread⟩ := ih hlast
        (fun q hq => habove q (List.mem_cons_of_mem p hq)) hpair.2 (j :=
          j + 1) (by lia) (by lia)
      refine ⟨bytes, lastPts', ?_, ?_, fun {bc tail} st h => ?_⟩
      · rw [writeDeltas, hset, if_pos (by decide), hwrite]
      · exact hnew.imp_right fun h => ⟨List.mem_cons_of_mem p h.1, h.2⟩
      · have hskip : entriesOf sps ((p :: l).zipIdx j) = entriesOf sps (l.zipIdx (j + 1)) := by
          rw [List.zipIdx_cons, entriesOf, List.filterMap_cons]
          dsimp only
          rw [hset]
          rfl
        rw [List.map_cons, hset, addKeyframes, hread st h, hskip]
    | true =>
      obtain ⟨hgt, hlt⟩ := habove p List.mem_cons_self hset
      have hj : j ≠ 0 := fun hj => by
        have hhead := hfirst hj
        rw [List.head?_cons, Option.any_some, hset] at hhead
        cases hhead
      obtain ⟨bytes, lastPts', hwrite, hnew, hread⟩ := ih (show -1 ≤ p by lia)
        (fun q hq hq' => ⟨hpair.1 q hq hset hq',
          (habove q (List.mem_cons_of_mem p hq) hq').2⟩) hpair.2
        (j := j + 1) (by lia) (by lia)
      obtain ⟨delta, hdelta⟩ : ∃ delta : Nat, p - lastPts = delta := ⟨(p - lastPts).toNat, by lia⟩
      have hunsigned : toUnsigned 64 (p - lastPts) = delta := by
        rw [hdelta]
        exact toUnsigned_natCast (by lia)
      have hsigned : toSigned 64 (lastPts + delta) = p := by
        rw [← hdelta, add_sub_cancel]
        exact Int.bmod_eq_of_le (by lia) (by lia)
      refine ⟨putV delta ++ bytes, lastPts', ?_, ?_, fun {bc tail} st h => ?_⟩
      · rw [writeDeltas, hset, if_neg (by decide), if_pos hgt, hwrite, hunsigned]
        rfl
      · rcases hnew with rfl | hnew
        · exact .inr ⟨List.mem_cons_self, hset⟩
        · exact .inr ⟨List.mem_cons_of_mem p hnew.1, hnew.2⟩
      · rw [List.append_assoc] at h
        have hindex : j - 1 < sps.length := by lia
        have hentry : entriesOf sps ((p :: l).zipIdx j) =
            (16 * ((sps[j - 1].pos >>> 4 : Nat) : Int), p) :: entriesOf sps (l.zipIdx (j + 1)) := by
          rw [List.zipIdx_cons, entriesOf, List.filterMap_cons]
          dsimp only
          rw [if_pos hset, List.getElem?_eq_getElem hindex]
          rfl
        have hposition : (readPositions sps)[j - 1]? = some ((sps[j - 1].pos >>> 4 : Nat) : Int) :=
            by
          rw [readPositions, List.getElem?_map, List.getElem?_eq_getElem hindex]
          rfl
        have hpos : delta ≠ 0 := by lia
        rw [List.map_cons, hset, addKeyframes, ffioReadVarlen_putV (by lia) h]
        simp only [if_neg hpos, if_neg hj]
        rw [hposition, Nat.cast_zero, add_zero, hsigned, Option.bind_eq_bind, Option.bind_some,
          hentry,
          addEntries_cons, Option.map_bind, List.length_append, ← advance_advance]
        exact Option.bind_congr fun added _ => hread added.2 (rest_advance_append h)

theorem zipIdx_split (l : List α) (j m : Nat) :
    l.zipIdx j = (l.take m).zipIdx j ++ (l.drop m).zipIdx (j + m) := by
  by_cases hm : m ≤ l.length
  · conv_lhs => rw [← List.take_append_drop m l, List.zipIdx_append, List.length_take_of_le hm]
  · rw [List.take_of_length_le (by lia), List.drop_eq_nil_of_le (by lia), List.zipIdx_nil,
      List.append_nil]

theorem take_run (l : List Int) (flag : Bool) :
    (List.replicate (l.takeWhile fun pts => isSet pts == flag).length flag ++ [!flag]).take
        l.length =
      (l.take ((l.takeWhile fun pts => isSet pts == flag).length + 1)).map isSet := by
  induction l with
  | nil => rfl
  | cons p l ih =>
    cases hset : isSet p == flag with
    | true =>
      have heq : isSet p = flag := beq_iff_eq.mp hset
      rw [List.takeWhile_cons, if_pos hset, List.length_cons, List.length_cons, List.replicate_succ,
        List.cons_append, List.take_succ_cons, List.take_succ_cons, List.map_cons, ih, heq]
    | false =>
      have hne : (!flag) = isSet p := by
        cases flag <;> cases hp : isSet p <;> simp_all
      rw [List.takeWhile_cons, hset, if_neg Bool.false_ne_true, hne, List.length_cons,
        List.length_nil,
        List.replicate_zero, List.nil_append, List.take_succ_cons, List.take_nil]
      rfl

theorem readRun_run {spCount j : Nat} (flag : Bool) (h : j + n ≤ spCount) :
    readRun spCount j (1 + 2 * flag.toNat + 4 * n) = (true, List.replicate n flag ++ [!flag]) := by
  have hlow : flag.toNat ≤ 1 := Bool.toNat_le flag
  have hodd : (1 + 2 * flag.toNat + 4 * n) &&& 1 = 1 := by
    rw [Nat.and_one_is_mod]
    lia
  have hflag : (1 + 2 * flag.toNat + 4 * n) >>> 1 &&& 1 = flag.toNat := by
    rw [Nat.and_one_is_mod, Nat.shiftRight_eq_div_pow]
    lia
  have hcount : (1 + 2 * flag.toNat + 4 * n) >>> 1 >>> 1 = n := by
    rw [Nat.shiftRight_eq_div_pow, Nat.shiftRight_eq_div_pow]
    lia
  have hbool : decide (flag.toNat = 1) = flag := by cases flag <;> rfl
  rw [readRun, if_pos hodd]
  dsimp only
  rw [hflag, hcount, if_neg (by lia), hbool]

variable {pts : List Int}

theorem Keyframes.set_eq {spCount : Nat} (h : Keyframes spCount pts) (j : Nat) :
    (if 0 < j ∧ pts[j]? = pts[j - 1]? then pts.set j avNoptsValue else pts) = pts := by
  by_cases hsame : 0 < j ∧ pts[j]? = pts[j - 1]?
  · rw [if_pos hsame]
    by_cases hj : j < pts.length
    · obtain ⟨hpos, hsame⟩ := hsame
      have hpair := List.pairwise_iff_getElem.mp h.pairwise (j - 1) j (by lia) hj (by lia)
      rw [List.getElem?_eq_getElem hj, List.getElem?_eq_getElem (by lia)] at hsame
      rw [← Option.some.inj hsame] at hpair
      have hunset : pts[j] = avNoptsValue := by
        by_contra hset
        have hset : isSet pts[j] := decide_eq_true hset
        exact lt_irrefl _ (hpair hset hset)
      rw [← hunset, List.set_getElem_self]
    · exact List.set_eq_of_length_le (by lia)
  · rw [if_neg hsame]

/-- **The runs from `j` on** are written and read; both sides go on behind the same run. -/
theorem writeRuns_spec (memory : Bool) (hsps : pts.length = sps.length)
    (h : Keyframes sps.length pts) {rounds j : Nat} {lastPts : Int} (hpos : 0 < rounds)
    (hrounds : sps.length < j + rounds) (hlow : -1 ≤ lastPts)
    (hlast : ∀ p ∈ pts.drop j, isSet p → lastPts < p) (hsmall : sps.length < 2 ^ 61) :
    ∃ bytes, writeRuns sps.length rounds pts j lastPts = some bytes ∧
      ∀ {bc : AVIOContext} {tail : Bytes} {hasKeyframe : List Bool} (st : AVStream),
        hasKeyframe.length = j → hasKeyframe.head? ≠ some true → bc.rest = bytes ++ tail →
        readRuns memory (readPositions sps) rounds hasKeyframe lastPts bc st =
          (addEntries memory st (entriesOf sps ((pts.drop j).zipIdx j))).map fun st' =>
            (true, bc.advance bytes.length, st') := by
  have hcount : (readPositions sps).length = sps.length := List.length_map _
  induction rounds generalizing j lastPts with
  | zero => exact absurd hpos (lt_irrefl 0)
  | succ rounds ih =>
    by_cases hj : j < sps.length
    · obtain ⟨left, hleft⟩ : ∃ left, left = pts.drop j := ⟨_, rfl⟩
      have hleftLength : left.length = sps.length - j := by rw [hleft, List.length_drop, hsps]
      obtain ⟨flag, hflag⟩ : ∃ flag, flag = (left.head?.any isSet ^^ decide (j + 1 = sps.length)) :=
        ⟨_, rfl⟩
      obtain ⟨n, hn⟩ : ∃ n, n = (left.takeWhile fun pts => isSet pts == flag).length := ⟨_, rfl⟩
      have hnLength : n ≤ left.length := hn ▸ (List.takeWhile_prefix _).length_le
      have hrun := take_run left flag
      rw [← hn] at hrun
      have hblockMem : ∀ p ∈ left.take (n + 1), p ∈ pts := fun p hp =>
        List.mem_of_mem_drop (hleft ▸ List.mem_of_mem_take hp)
      have hrest : pts.drop (j + n + 1) = left.drop (n + 1) := by
        rw [hleft, List.drop_drop, Nat.add_assoc]
      have hpair : left.Pairwise fun p q => isSet p → isSet q → p < q := hleft ▸ h.pairwise.drop
      have hhead : j = 0 → left.head?.any isSet = false := fun hj => by
        rw [hleft, hj, List.drop_zero]
        exact h.first
      have hblockHead : (left.take (n + 1)).head? = left.head? := by
        cases left <;> rfl
      have hblockLast : ∀ p ∈ left.take (n + 1), isSet p → lastPts < p ∧ p < 2 ^ 63 :=
        fun p hp hset => ⟨hlast p (hleft ▸ List.mem_of_mem_take hp) hset,
          (h.range p (hblockMem p hp) hset).2⟩
      have hblockLength : j + (left.take (n + 1)).length ≤ sps.length + 1 := by
        rw [List.length_take]
        lia
      obtain ⟨deltas, lastPts', hdeltas, hnew, hreadDeltas⟩ := writeDeltas_spec memory hlow
        hblockLast hpair.take (fun hj => hblockHead ▸ hhead hj) hblockLength
      have hnext : ∀ p ∈ pts.drop (j + n + 1), isSet p → lastPts' < p := fun p hp hset => by
        rw [hrest] at hp
        rcases hnew with rfl | ⟨hmem, hset'⟩
        · exact hlast p (hleft ▸ List.mem_of_mem_drop hp) hset
        · have hsplit := hpair
          rw [← List.take_append_drop (n + 1) left, List.pairwise_append] at hsplit
          exact hsplit.2.2 lastPts' hmem p hp hset' hset
      have hlow' : -1 ≤ lastPts' := by
        rcases hnew with rfl | ⟨hmem, hset'⟩
        · exact hlow
        · have hnonneg := (h.range lastPts' (hblockMem lastPts' hmem) hset').1
          lia
      obtain ⟨bytes, hwrite, hread⟩ := ih (j := j + n + 1) (by lia) (by lia) hlow' hnext
      have hcode : 1 + 2 * flag.toNat + 4 * n < 2 ^ 64 := by
        have hbit := Bool.toNat_le flag
        lia
      refine ⟨putV (1 + 2 * flag.toNat + 4 * n) ++ deltas ++ bytes, ?_,
        fun {bc tail hasKeyframe} st hlength hhead' hrestBytes => ?_⟩
      · rw [writeRuns, if_pos hj, h.set_eq j]
        dsimp only
        rw [List.take_of_length_le hsps.le, ← hleft, ← hflag, ← hn, hdeltas, Option.bind_eq_bind,
          Option.bind_some, hwrite]
        rfl
      · rw [List.append_assoc, List.append_assoc] at hrestBytes
        have hnextBytes := rest_advance_append hrestBytes
        have hhasLength : (hasKeyframe ++ (List.replicate n flag ++ [!flag])).length = j + n + 1 :=
            by
          simp [hlength, Nat.add_assoc]
        have hhasHead : (hasKeyframe ++ (List.replicate n flag ++ [!flag])).head? ≠ some true := by
          cases hasKeyframe with
          | cons first hasKeyframe => exact hhead'
          | nil =>
            -- the first entry of the table is the first of the run
            have hfirst := congrArg List.head? hrun
            have hleftHead := hhead hlength.symm
            cases hcase : left with
            | nil => exact absurd hleftLength (by rw [hcase, List.length_nil]; lia)
            | cons p left' =>
              rw [hcase, List.length_cons, List.head?_take, List.take_succ_cons, List.map_cons,
                List.head?_cons, if_neg (by lia)] at hfirst
              rw [hcase, List.head?_cons, Option.any_some] at hleftHead
              rw [List.nil_append, hfirst, hleftHead]
              exact fun h => Bool.false_ne_true (Option.some.inj h)
        have hentries : (pts.drop j).zipIdx j =
            (left.take (n + 1)).zipIdx j ++ (pts.drop (j + n + 1)).zipIdx (j + n + 1) := by
          rw [hrest, ← hleft, Nat.add_assoc]
          exact zipIdx_split left j (n + 1)
        rw [readRuns]
        dsimp only
        rw [hlength, hcount, if_pos hj, ffioReadVarlen_putV hcode hrestBytes]
        dsimp only
        rw [readRun_run flag (by lia)]
        dsimp only
        rw [if_neg (by decide), if_neg hhasHead, if_neg (by simp; lia), ← hleftLength, hrun,
          hreadDeltas st hnextBytes, hentries, entriesOf_append, addEntries_append,
              Option.bind_eq_bind,
          Option.bind_map, Option.map_bind]
        refine Option.bind_congr fun st' _ => ?_
        have hstep := hread st' hhasLength hhasHead (rest_advance_append hnextBytes)
        rw [advance_advance, advance_advance, ← List.length_append, ← List.length_append] at hstep
        rw [Function.comp_apply, advance_advance, ← List.length_append]
        exact hstep
    · have hnil : pts.drop j = [] := List.drop_eq_nil_of_le (by lia)
      refine ⟨[], ?_, fun {bc tail hasKeyframe} st hlength _ _ => ?_⟩
      · rw [writeRuns, if_neg hj]
      · rw [readRuns, hlength, hcount, if_neg hj, hnil]
        rfl

end FFmpeg.Libavformat.NutIndex
