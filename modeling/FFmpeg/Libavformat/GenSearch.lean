import FFmpeg.Libavutil.Error
import FFmpeg.Libavutil.Mathematics

/-!
# Binary seeking

`ff_gen_search` and `ff_find_last_ts` of `libavformat/utils.c`, for streams whose
timestamps do not wrap.  `read_timestamp` is a parameter: at a position it gives the
timestamp and the position of what it finds, or nothing for `AV_NOPTS_VALUE`, and then it
leaves the position as it was.  A failed assertion has no result.

On a file with seek points in order of their positions and their timestamps the search
ends at the last point that is not too late, or at the first one that is not too early.
-/

namespace FFmpeg.Libavformat.GenSearch

open Libavutil

/-- A point of a file that one can seek to. -/
structure SeekPoint where
  pos : Int
  ts : Int
  deriving DecidableEq, Repr

/-- The callback `read_timestamp`. -/
abbrev ReadTimestamp := Int → Option SeekPoint

/-! ## The last timestamp -/

/-- The first loop of `ff_find_last_ts`, which steps back from the end by twice as much
every time.  The result is `some none` if nothing is found. -/
def scanBack (readTimestamp : ReadTimestamp) : Nat → Int → Int → Option (Option SeekPoint)
  | 0, _, _ => none
  | rounds + 1, step, posMax =>
    let limit := posMax
    let posMax := max 0 (posMax - step)
    match readTimestamp posMax with
    | some last => some (some last)
    | none =>
      let step := step + step
      if step < 2 * limit then scanBack readTimestamp rounds step posMax else some none

/-- The second loop of `ff_find_last_ts`, from one point to the next. -/
def scanForward (readTimestamp : ReadTimestamp) (filesize : Int) :
    Nat → SeekPoint → Option SeekPoint
  | 0, _ => none
  | rounds + 1, last =>
    match readTimestamp (last.pos + 1) with
    | none => some last
    | some tmp =>
      if ¬ last.pos < tmp.pos then none
      else if filesize ≤ tmp.pos then some tmp
      else scanForward readTimestamp filesize rounds tmp

/-- `ff_find_last_ts`. -/
def ffFindLastTs (readTimestamp : ReadTimestamp) (filesize : Int) :
    Option (Except AVERROR SeekPoint) :=
  match scanBack readTimestamp (filesize.toNat + 1) 1024 (filesize - 1) with
  | none => none
  | some none => some (.error .other)
  | some (some last) =>
    (scanForward readTimestamp filesize (filesize.toNat + 1) last).map .ok

/-! ## The search -/

/-- The variables of the loop of `ff_gen_search`. -/
structure Search where
  posMin : Int
  posMax : Int
  posLimit : Int
  tsMin : Int
  tsMax : Int
  noChange : Nat
  deriving DecidableEq, Repr

/-- The position to read next. -/
def Search.nextPos (s : Search) (targetTs : Int) : Int :=
  let pos :=
    if s.noChange = 0 then
      -- interpolate position (better than dichotomy)
      let approximateKeyframeDistance := s.posMax - s.posLimit
      avRescale (targetTs - s.tsMin) (s.posMax - s.posMin) (s.tsMax - s.tsMin) +
        s.posMin - approximateKeyframeDistance
    else if s.noChange = 1 then
      -- bisection if interpolation did not change min / max pos last time
      (s.posMin + s.posLimit) / 2
    else
      -- linear search if bisection failed
      s.posMin
  if pos ≤ s.posMin then s.posMin + 1
  else if s.posLimit < pos then s.posLimit
  else pos

/-- What a point found from `startPos` on changes. -/
def Search.narrow (s : Search) (targetTs startPos : Int) (found : SeekPoint) : Search :=
  { posMin := if found.ts ≤ targetTs then found.pos else s.posMin
    posMax := if targetTs ≤ found.ts then found.pos else s.posMax
    posLimit := if targetTs ≤ found.ts then startPos - 1 else s.posLimit
    tsMin := if found.ts ≤ targetTs then found.ts else s.tsMin
    tsMax := if targetTs ≤ found.ts then found.ts else s.tsMax
    noChange := if found.pos = s.posMax then s.noChange + 1 else 0 }

/-- The loop of `ff_gen_search`. -/
def searchLoop (readTimestamp : ReadTimestamp) (targetTs : Int) :
    Nat → Search → Option (Except AVERROR Search)
  | 0, _ => none
  | rounds + 1, s =>
    if s.posMin < s.posLimit then
      if ¬ s.posLimit ≤ s.posMax then none
      else
        match readTimestamp (s.nextPos targetTs) with
        | none => some (.error .other)
        | some found =>
          searchLoop readTimestamp targetTs rounds (s.narrow targetTs (s.nextPos targetTs) found)
    else some (.ok s)

/-- The part of `ff_gen_search` from known bounds on. -/
def searchBetween (readTimestamp : ReadTimestamp) (targetTs : Int) (backward : Bool)
    (posMin posMax posLimit tsMin tsMax : Int) : Option (Except AVERROR SeekPoint) :=
  if tsMax ≤ targetTs then some (.ok ⟨posMax, tsMax⟩)
  else if ¬ tsMin < tsMax then none
  else
    match searchLoop readTimestamp targetTs ((posLimit - posMin).toNat + 1)
      ⟨posMin, posMax, posLimit, tsMin, tsMax, 0⟩ with
    | none => none
    | some (.error e) => some (.error e)
    | some (.ok s) =>
      some (.ok (if backward then ⟨s.posMin, s.tsMin⟩ else ⟨s.posMax, s.tsMax⟩))

/-- The part of `ff_gen_search` from a known lower bound on. -/
def searchFrom (readTimestamp : ReadTimestamp) (filesize targetTs : Int) (backward : Bool)
    (posMin posMax posLimit tsMin : Int) (tsMax : Option Int) :
    Option (Except AVERROR SeekPoint) :=
  if targetTs ≤ tsMin then some (.ok ⟨posMin, tsMin⟩)
  else
    match tsMax with
    | some tsMax => searchBetween readTimestamp targetTs backward posMin posMax posLimit tsMin tsMax
    | none =>
      match ffFindLastTs readTimestamp filesize with
      | none => none
      | some (.error e) => some (.error e)
      | some (.ok last) =>
        searchBetween readTimestamp targetTs backward posMin last.pos last.pos tsMin last.ts

/-- `ff_gen_search`: the position and `ts_ret`.  A bound that is not known has no timestamp. -/
def ffGenSearch (readTimestamp : ReadTimestamp) (dataOffset filesize targetTs : Int)
    (posMin posMax posLimit : Int) (tsMin tsMax : Option Int) (backward : Bool) :
    Option (Except AVERROR SeekPoint) :=
  match tsMin with
  | some tsMin =>
    searchFrom readTimestamp filesize targetTs backward posMin posMax posLimit tsMin tsMax
  | none =>
    match readTimestamp dataOffset with
    | none => some (.error .other)
    | some first =>
      searchFrom readTimestamp filesize targetTs backward first.pos posMax posLimit first.ts tsMax

/-! ## Files with seek points -/

/-- A file with seek points in order of their positions and of their timestamps. -/
structure SeekFile where
  points : List SeekPoint
  dataOffset : Int
  filesize : Int
  nonempty : points ≠ []
  increasing : points.Pairwise fun q q' => q.pos < q'.pos ∧ q.ts < q'.ts
  dataOffset_le : ∀ q ∈ points, dataOffset ≤ q.pos
  nonneg : ∀ q ∈ points, 0 ≤ q.pos
  lt_filesize : ∀ q ∈ points, q.pos < filesize

/-- The first point at or after a position. -/
def SeekFile.readTimestamp (file : SeekFile) : ReadTimestamp :=
  fun p => file.points.find? fun q => p ≤ q.pos

/-- Where a search for `targetTs` is to land: at the last point that is not too late or, if
all are, at the first one; in the other direction at the first point that is not too early
or, if all are, at the last one. -/
def SeekFile.Lands (file : SeekFile) (targetTs : Int) (backward : Bool) (q : SeekPoint) : Prop :=
  q ∈ file.points ∧
    if backward then
      (q.ts ≤ targetTs ∧ ∀ q' ∈ file.points, q'.ts ≤ targetTs → q'.ts ≤ q.ts) ∨
        ((∀ q' ∈ file.points, targetTs < q'.ts) ∧ ∀ q' ∈ file.points, q.ts ≤ q'.ts)
    else
      (targetTs ≤ q.ts ∧ ∀ q' ∈ file.points, targetTs ≤ q'.ts → q.ts ≤ q'.ts) ∨
        ((∀ q' ∈ file.points, q'.ts < targetTs) ∧ ∀ q' ∈ file.points, q'.ts ≤ q.ts)

/-- The lower bound is not known, or it is a point in front of the target. -/
def SeekFile.TrueMin (file : SeekFile) (targetTs posMin : Int) (tsMin : Option Int) : Prop :=
  ∀ ts, tsMin = some ts → ⟨posMin, ts⟩ ∈ file.points ∧ ts < targetTs

/-- The upper bound is not known, or it is a point behind the target, and there is no point
between the limit in front of it and itself. -/
def SeekFile.TrueMax (file : SeekFile) (targetTs posMax posLimit : Int) (tsMax : Option Int) :
    Prop :=
  ∀ ts, tsMax = some ts → ⟨posMax, ts⟩ ∈ file.points ∧ targetTs < ts ∧ posLimit ≤ posMax ∧
    ∀ q ∈ file.points, ¬ (posLimit < q.pos ∧ q.pos < posMax)

variable {file : SeekFile}

variable {q : SeekPoint}

theorem SeekFile.lt_iff (file : SeekFile) {q' : SeekPoint} (hq : q ∈ file.points)
    (hq' : q' ∈ file.points) : q.pos < q'.pos ↔ q.ts < q'.ts := by
  obtain ⟨i, hi, rfl⟩ := List.getElem_of_mem hq
  obtain ⟨j, hj, rfl⟩ := List.getElem_of_mem hq'
  have horder := List.pairwise_iff_getElem.mp file.increasing
  rcases lt_trichotomy i j with hlt | rfl | hgt
  · have hij := horder i j hi hj hlt
    lia
  · lia
  · have hji := horder j i hj hi hgt
    lia

variable {p : Int}

theorem SeekFile.readTimestamp_some (h : file.readTimestamp p = some q) :
    q ∈ file.points ∧ p ≤ q.pos ∧ ∀ q' ∈ file.points, p ≤ q'.pos → q.pos ≤ q'.pos := by
  refine ⟨List.mem_of_find?_eq_some h, by simpa using List.find?_some h, fun q' hq' hle => ?_⟩
  obtain ⟨hp, before, after, hsplit, hbefore⟩ := List.find?_eq_some_iff_append.mp h
  have horder := file.increasing
  rw [hsplit, List.mem_append] at hq'
  rcases hq' with hq' | hq'
  · exact absurd (decide_eq_true hle) (by simpa using hbefore q' hq')
  · rcases List.mem_cons.mp hq' with rfl | hq'
    · exact le_rfl
    · rw [hsplit, List.pairwise_append, List.pairwise_cons] at horder
      exact (horder.2.1.1 q' hq').1.le

theorem SeekFile.readTimestamp_none (h : file.readTimestamp p = none) :
    ∀ q ∈ file.points, q.pos < p := by
  intro q hq
  have hnot := List.find?_eq_none.mp h q hq
  simpa using hnot

theorem SeekFile.exists_readTimestamp (hq : q ∈ file.points) (hle : p ≤ q.pos) :
    ∃ q', file.readTimestamp p = some q' := by
  cases h : file.readTimestamp p with
  | some q' => exact ⟨q', rfl⟩
  | none =>
    have hlt := SeekFile.readTimestamp_none h q hq
    lia

/-! ## Landing -/

theorem scanBack_eq (file : SeekFile) (rounds : Nat) (step posMax : Int) (hstep : 0 < step)
    (hpos : 0 ≤ posMax) (hrounds : posMax < rounds) :
    ∃ q ∈ file.points, scanBack file.readTimestamp rounds step posMax = some (some q) := by
  induction rounds generalizing step posMax with
  | zero => lia
  | succ rounds ih =>
    unfold scanBack
    dsimp only
    cases hread : file.readTimestamp (max 0 (posMax - step)) with
    | some q => exact ⟨q, (SeekFile.readTimestamp_some hread).1, rfl⟩
    | none =>
      obtain ⟨q, hq⟩ := List.exists_mem_of_ne_nil _ file.nonempty
      have hlt := SeekFile.readTimestamp_none hread q hq
      have hnonneg := file.nonneg q hq
      rw [max_eq_right (by lia)]
      dsimp only
      rw [if_pos (by lia)]
      exact ih (step + step) (posMax - step) (by lia) (by lia) (by lia)

theorem scanForward_eq (file : SeekFile) (rounds : Nat) (last : SeekPoint)
    (hlast : last ∈ file.points) (hrounds : file.filesize - last.pos ≤ rounds)
    (hpos : 0 < rounds) :
    ∃ q ∈ file.points, scanForward file.readTimestamp file.filesize rounds last = some q ∧
      ∀ q' ∈ file.points, q'.pos ≤ q.pos := by
  induction rounds generalizing last with
  | zero => lia
  | succ rounds ih =>
    unfold scanForward
    cases hread : file.readTimestamp (last.pos + 1) with
    | none =>
      refine ⟨last, hlast, rfl, fun q' hq' => ?_⟩
      have hlt := SeekFile.readTimestamp_none hread q' hq'
      lia
    | some tmp =>
      obtain ⟨htmp, hle, -⟩ := SeekFile.readTimestamp_some hread
      have hinside := file.lt_filesize tmp htmp
      dsimp only
      rw [if_neg (by lia), if_neg (by lia)]
      exact ih tmp htmp (by lia) (by lia)

theorem ffFindLastTs_eq (file : SeekFile) :
    ∃ q ∈ file.points, ffFindLastTs file.readTimestamp file.filesize = some (.ok q) ∧
      ∀ q' ∈ file.points, q'.ts ≤ q.ts := by
  obtain ⟨q, hq⟩ := List.exists_mem_of_ne_nil _ file.nonempty
  have hnonneg := file.nonneg q hq
  have hinside := file.lt_filesize q hq
  obtain ⟨last, hlast, hback⟩ := scanBack_eq file (file.filesize.toNat + 1) 1024
    (file.filesize - 1) (by lia) (by lia) (by lia)
  have hlastpos := file.nonneg last hlast
  obtain ⟨end', hend, hforward, hmax⟩ := scanForward_eq file (file.filesize.toNat + 1) last hlast
    (by lia) (by lia)
  refine ⟨end', hend, ?_, fun q' hq' => ?_⟩
  · unfold ffFindLastTs
    rw [hback]
    dsimp only
    rw [hforward]
    rfl
  · have horder := file.lt_iff hend hq'
    have hle := hmax q' hq'
    lia

/-- The bounds of the search are points around the target, or both are at the target, and
there is no point between the limit and the upper bound. -/
structure Around (file : SeekFile) (targetTs : Int) (s : Search) : Prop where
  min_mem : ⟨s.posMin, s.tsMin⟩ ∈ file.points
  max_mem : ⟨s.posMax, s.tsMax⟩ ∈ file.points
  around : (s.tsMin < targetTs ∧ targetTs < s.tsMax) ∨ (s.tsMin = targetTs ∧ s.tsMax = targetTs)
  limit_le : s.posLimit ≤ s.posMax
  gap : ∀ q ∈ file.points, ¬ (s.posLimit < q.pos ∧ q.pos < s.posMax)

variable {targetTs : Int} {s : Search}

theorem Search.nextPos_mem (targetTs : Int) (h : s.posMin < s.posLimit) :
    s.posMin < s.nextPos targetTs ∧ s.nextPos targetTs ≤ s.posLimit := by
  unfold Search.nextPos
  dsimp only
  split_ifs <;> lia

/-- A round of the loop keeps the bounds around the target and brings them closer. -/
theorem Around.narrow (h : Around file targetTs s) (hopen : s.posMin < s.posLimit)
    {found : SeekPoint} (hfound : file.readTimestamp (s.nextPos targetTs) = some found) :
    Around file targetTs (s.narrow targetTs (s.nextPos targetTs) found) ∧
      (s.narrow targetTs (s.nextPos targetTs) found).posLimit -
        (s.narrow targetTs (s.nextPos targetTs) found).posMin < s.posLimit - s.posMin := by
  obtain ⟨hmem, hle, hfirst⟩ := SeekFile.readTimestamp_some hfound
  obtain ⟨hlow, hhigh⟩ := Search.nextPos_mem targetTs hopen
  generalize s.nextPos targetTs = pos at *
  have hlimit := h.limit_le
  have hmax := hfirst _ h.max_mem (by dsimp only; lia)
  have hstrict : s.tsMin < targetTs ∧ targetTs < s.tsMax := by
    have horder := file.lt_iff h.min_mem h.max_mem
    dsimp only at horder
    have haround := h.around
    lia
  have horder := file.lt_iff hmem h.max_mem
  dsimp only at hmax horder
  unfold Search.narrow
  rcases lt_trichotomy found.ts targetTs with hlt | heq | hgt
  · have hgap := h.gap found hmem
    simp only [if_pos hlt.le, if_neg (by lia : ¬ targetTs ≤ found.ts)]
    exact ⟨⟨hmem, h.max_mem, .inl ⟨hlt, hstrict.2⟩, hlimit, h.gap⟩, by lia⟩
  · simp only [if_pos heq.le, if_pos heq.ge]
    refine ⟨⟨hmem, hmem, .inr ⟨heq, heq⟩, by dsimp only; lia, fun q hq hbetween => ?_⟩, by lia⟩
    have hle := hfirst q hq (by dsimp only at hbetween; lia)
    dsimp only at hbetween
    lia
  · simp only [if_neg (by lia : ¬ found.ts ≤ targetTs), if_pos hgt.le]
    refine ⟨⟨h.min_mem, hmem, .inl ⟨hstrict.1, hgt⟩, by dsimp only; lia,
      fun q hq hbetween => ?_⟩, by lia⟩
    have hle := hfirst q hq (by dsimp only at hbetween; lia)
    dsimp only at hbetween
    lia

theorem searchLoop_eq (rounds : Nat) (h : Around file targetTs s)
    (hrounds : s.posLimit - s.posMin < rounds) (hpos : 0 < rounds) :
    ∃ s', searchLoop file.readTimestamp targetTs rounds s = some (.ok s') ∧
      Around file targetTs s' ∧ s'.posLimit ≤ s'.posMin := by
  induction rounds generalizing s with
  | zero => lia
  | succ rounds ih =>
    unfold searchLoop
    split_ifs with hopen hassert
    · obtain ⟨-, hhigh⟩ := Search.nextPos_mem targetTs hopen
      have hlimit := h.limit_le
      obtain ⟨found, hfound⟩ := file.exists_readTimestamp h.max_mem
        (p := s.nextPos targetTs) (by dsimp only; lia)
      obtain ⟨hnext, hcloser⟩ := h.narrow hopen hfound
      rw [hfound]
      exact ih hnext (by lia) (by lia)
    · exact absurd h.limit_le hassert
    · exact ⟨s, rfl, h, by lia⟩

theorem Around.lands (h : Around file targetTs s) (hclosed : s.posLimit ≤ s.posMin)
    (backward : Bool) :
    file.Lands targetTs backward
      (if backward then ⟨s.posMin, s.tsMin⟩ else ⟨s.posMax, s.tsMax⟩) := by
  have hgap : ∀ q ∈ file.points, q.ts ≤ s.tsMin ∨ s.tsMax ≤ q.ts := by
    intro q hq
    have hnot := h.gap q hq
    have hmin := file.lt_iff h.min_mem hq
    have hmax := file.lt_iff hq h.max_mem
    dsimp only at hmin hmax
    lia
  have haround := h.around
  cases backward with
  | true =>
    refine ⟨h.min_mem, .inl ⟨by simp only [if_true]; lia, fun q hq hle => ?_⟩⟩
    have hside := hgap q hq
    simp only [if_true]
    lia
  | false =>
    refine ⟨h.max_mem, .inl ⟨by simp; lia, fun q hq hle => ?_⟩⟩
    have hside := hgap q hq
    simp
    lia

theorem searchBetween_lands (file : SeekFile) {targetTs posMin posMax posLimit tsMin tsMax : Int}
    (hmin : ⟨posMin, tsMin⟩ ∈ file.points) (hlow : tsMin < targetTs)
    (hmax : ⟨posMax, tsMax⟩ ∈ file.points)
    (hlast : tsMax ≤ targetTs → ∀ q ∈ file.points, q.ts ≤ tsMax) (hlimit : posLimit ≤ posMax)
    (hgap : ∀ q ∈ file.points, ¬ (posLimit < q.pos ∧ q.pos < posMax)) (backward : Bool) :
    ∃ q, searchBetween file.readTimestamp targetTs backward posMin posMax posLimit tsMin tsMax =
      some (.ok q) ∧ file.Lands targetTs backward q := by
  unfold searchBetween
  rcases le_or_gt tsMax targetTs with hbehind | hahead
  · -- the last point is not behind the target
    rw [if_pos hbehind]
    refine ⟨_, rfl, hmax, ?_⟩
    have hall := hlast hbehind
    cases backward with
    | true => exact .inl ⟨hbehind, fun q hq _ => hall q hq⟩
    | false =>
      rcases eq_or_lt_of_le hbehind with rfl | hlt
      · refine .inl ⟨le_rfl, fun q _ hle => hle⟩
      · exact .inr ⟨fun q hq => (hall q hq).trans_lt hlt, hall⟩
  · have haround : Around file targetTs ⟨posMin, posMax, posLimit, tsMin, tsMax, 0⟩ :=
      ⟨hmin, hmax, .inl ⟨hlow, hahead⟩, hlimit, hgap⟩
    obtain ⟨s, hloop, hs, hclosed⟩ := searchLoop_eq ((posLimit - posMin).toNat + 1) haround
      (by dsimp only; lia) (by lia)
    rw [if_neg (by lia), if_neg (by lia), hloop]
    exact ⟨_, rfl, hs.lands hclosed backward⟩

/-- From a lower bound on. -/
theorem searchFrom_lands (file : SeekFile) {targetTs posMin posMax posLimit tsMin : Int}
    {tsMax : Option Int} (hmin : ⟨posMin, tsMin⟩ ∈ file.points)
    (hfirst : targetTs ≤ tsMin → ∀ q ∈ file.points, tsMin ≤ q.ts)
    (hmax : file.TrueMax targetTs posMax posLimit tsMax) (backward : Bool) :
    ∃ q, searchFrom file.readTimestamp file.filesize targetTs backward posMin posMax posLimit
      tsMin tsMax = some (.ok q) ∧ file.Lands targetTs backward q := by
  unfold searchFrom
  split_ifs with hfront
  · -- the first point is not in front of the target
    refine ⟨_, rfl, hmin, ?_⟩
    have hall := hfirst hfront
    cases backward with
    | false => exact .inl ⟨hfront, fun q hq _ => hall q hq⟩
    | true =>
      rcases eq_or_lt_of_le hfront with rfl | hlt
      · exact .inl ⟨le_rfl, fun q _ hle => hle⟩
      · exact .inr ⟨fun q hq => hlt.trans_le (hall q hq), hall⟩
  · cases tsMax with
    | some tsMax =>
      obtain ⟨hmem, htarget, hlimit, hgap⟩ := hmax tsMax rfl
      exact searchBetween_lands file hmin (by lia) hmem (fun hle => by lia) hlimit hgap backward
    | none =>
      obtain ⟨last, hlast, hfind, hall⟩ := ffFindLastTs_eq file
      rw [hfind]
      exact searchBetween_lands file hmin (by lia) hlast (fun _ => hall) le_rfl
        (fun q _ hbetween => by lia) backward

/-- The search ends without a failed assertion and lands where it is to land, from unknown
bounds as well as from true ones. -/
theorem ffGenSearch_lands (file : SeekFile) (targetTs posMin posMax posLimit : Int)
    (tsMin tsMax : Option Int) (hmin : file.TrueMin targetTs posMin tsMin)
    (hmax : file.TrueMax targetTs posMax posLimit tsMax) (backward : Bool) :
    ∃ q, ffGenSearch file.readTimestamp file.dataOffset file.filesize targetTs posMin posMax
      posLimit tsMin tsMax backward = some (.ok q) ∧ file.Lands targetTs backward q := by
  unfold ffGenSearch
  cases tsMin with
  | some tsMin =>
    obtain ⟨hmem, hlow⟩ := hmin tsMin rfl
    exact searchFrom_lands file hmem (fun hle => by lia) hmax backward
  | none =>
    obtain ⟨q, hq⟩ := List.exists_mem_of_ne_nil _ file.nonempty
    obtain ⟨first, hread⟩ := file.exists_readTimestamp hq (file.dataOffset_le q hq)
    obtain ⟨hmem, -, hleast⟩ := SeekFile.readTimestamp_some hread
    rw [hread]
    refine searchFrom_lands file hmem (fun _ q' hq' => ?_) hmax backward
    have hle := hleast q' hq' (file.dataOffset_le q' hq')
    have horder := file.lt_iff hq' hmem
    lia

/-- Three points; the search is told about the outer ones and does not know about the one in
the middle. -/
def threePoints : SeekFile where
  points := [⟨0, 0⟩, ⟨10, 3⟩, ⟨40, 9⟩]
  dataOffset := 0
  filesize := 64
  nonempty := by decide
  increasing := by decide
  dataOffset_le := by decide
  nonneg := by decide
  lt_filesize := by decide

theorem ffGenSearch_threePoints :
    ∃ q, ffGenSearch threePoints.readTimestamp 0 64 5 0 40 39 (some 0) (some 9) true =
      some (.ok q) ∧ threePoints.Lands 5 true q := by
  refine ffGenSearch_lands threePoints 5 0 40 39 (some 0) (some 9) ?_ ?_ true
  · intro ts hts
    cases hts
    decide
  · intro ts hts
    cases hts
    decide

end FFmpeg.Libavformat.GenSearch
