import FFmpeg.Common.Emits
import FFmpeg.Libavfilter.FrameSync

/-!
# The tracks of the synchroniser

What the synchroniser is for, without links and next frames: every input is a track with the
frames that have been current and the frames to come.  In each turn the tracks whose next time
is the smallest one go on.  Tracks know nothing of arrivals, so what they emit depends on the
streams only.
-/

namespace FFmpeg.Libavfilter.FrameSync

open Common Libavutil

/-- An input with its whole stream: the frames that have been current, the frames to come, and
whether the end has been passed. -/
structure Track (α : Type*) where
  before : FFFrameSyncExtMode
  after : FFFrameSyncExtMode
  sync : Nat
  shown : List (AVFrame α)
  rest : List (AVFrame α)
  ended : Bool

section Track

variable {α : Type*}

/-- The state of the input. -/
def Track.state (k : Track α) : State :=
  if k.ended then .eof else if k.shown.isEmpty then .bof else .run

/-- The current frame. -/
def Track.current (k : Track α) : Option (AVFrame α) :=
  if k.ended then none else k.shown.getLast?

/-- A track has its level until its last frame has been current. -/
def Track.level (k : Track α) : Nat := if k.rest.isEmpty then 0 else k.sync

/-- The time of what comes next, a frame or the end. -/
def Track.nextPts (k : Track α) : Int :=
  match k.rest with
  | f :: _ => f.pts
  | [] =>
    match k.shown.getLast? with
    | some f => if k.after = .infinity then int64Max else f.pts + 1
    | none => int64Max

/-- The track goes on at `pts`.  A first frame that is extended to the past comes at once. -/
def Track.Due (pts : Int) (k : Track α) : Prop :=
  k.ended = false ∧ (k.nextPts = pts ∨ (k.before = .infinity ∧ k.shown = []))

/-- What comes next becomes current. -/
def Track.next (k : Track α) : Track α :=
  match k.rest with
  | f :: rest => { k with shown := k.shown ++ [f], rest := rest }
  | [] => { k with ended := true }

open Classical in
/-- The track at `pts`. -/
noncomputable def Track.advance (pts : Int) (k : Track α) : Track α :=
  if k.Due pts then k.next else k

/-- The frame of a stream that is current at the time `pts`. -/
def currentAt (before after : FFFrameSyncExtMode) (stream : List (AVFrame α)) (pts : Int) :
    Option (AVFrame α) :=
  match (stream.filter (·.pts ≤ pts)).getLast? with
  | some f => if after = .null ∧ ∀ g ∈ stream, g.pts + 1 ≤ pts then none else some f
  | none => if before = .infinity then stream.head? else none

/-- A track for the stream before its first frame. -/
def Track.start (before after : FFFrameSyncExtMode) (sync : Nat) (stream : List (AVFrame α)) :
    Track α :=
  ⟨before, after, sync, [], stream, false⟩

end Track

section Turns

variable {α : Type*} {nbIn : Nat}

/-- The level of the frames that make an event. -/
def syncLevel (T : Fin nbIn → Track α) : Nat := Finset.univ.sup fun i => (T i).level

/-- The smallest time of what comes next. -/
def nextPts (T : Fin nbIn → Track α) : Int :=
  eachInput.foldl (fun pts i =>
    if (T i).ended = false ∧ (T i).nextPts < pts then (T i).nextPts else pts) int64Max

/-- A track ends at `pts` that stops all others. -/
def Stops (pts : Int) (T : Fin nbIn → Track α) : Prop :=
  ∃ i, (T i).Due pts ∧ (T i).rest = [] ∧ (T i).after = .stop

/-- There is an event at `pts`: a frame of the highest level comes, and no track is still
waited for. -/
def Ready (pts : Int) (T : Fin nbIn → Track α) : Prop :=
  (∃ i, (T i).Due pts ∧ (T i).rest ≠ [] ∧ (T i).level = syncLevel T) ∧
    ∀ i, ¬(((T i).advance pts).state = .bof ∧ (T i).before = .stop)

open Classical in
/-- One turn of all tracks. -/
noncomputable def turn (T : Fin nbIn → Track α) :
    Option (Option (Event α nbIn) × (Fin nbIn → Track α)) :=
  if syncLevel T = 0 ∨ nextPts T = int64Max ∨ Stops (nextPts T) T then none
  else
    let T' := fun i => (T i).advance (nextPts T)
    some (if Ready (nextPts T) T then some ⟨nextPts T, fun i => (T' i).current⟩ else none, T')

end Turns

/-! ## One track -/

section Track

variable {α : Type*} {stream : List (AVFrame α)} {pts pts' : Int} {k : Track α}

@[simp] theorem Track.next_before (k : Track α) : k.next.before = k.before := by
  unfold Track.next; split <;> rfl

@[simp] theorem Track.next_after (k : Track α) : k.next.after = k.after := by
  unfold Track.next; split <;> rfl

@[simp] theorem Track.advance_before (pts : Int) (k : Track α) :
    (k.advance pts).before = k.before := by
  unfold Track.advance; split <;> simp

@[simp] theorem Track.advance_after (pts : Int) (k : Track α) :
    (k.advance pts).after = k.after := by
  unfold Track.advance; split <;> simp

theorem Track.advance_of_due (h : k.Due pts) : k.advance pts = k.next := if_pos h

theorem Track.advance_of_not_due (h : ¬k.Due pts) : k.advance pts = k := if_neg h

/-- The frames of a stream in order, with increasing times. -/
def Increasing (stream : List (AVFrame α)) : Prop :=
  (stream.map (·.pts)).Pairwise (· < ·)

/-- What holds of the track of a stream: what has been current is not later than `pts`, but for
a first frame that is extended to the past, and an end that has been passed is the end of all
frames. -/
structure Passed (stream : List (AVFrame α)) (pts : Int) (k : Track α) : Prop where
  split : k.shown ++ k.rest = stream
  past : ∀ f ∈ k.shown, f.pts ≤ pts ∨ (k.before = .infinity ∧ k.shown = [f])
  finished : k.ended = true → k.rest = [] ∧ k.after ≠ .stop ∧
    ∀ f, k.shown.getLast? = some f → k.after ≠ .infinity ∧ f.pts + 1 ≤ pts

/-- All that is due at `pts` has come. -/
structure Caught (stream : List (AVFrame α)) (pts : Int) (k : Track α) : Prop
    extends Passed stream pts k where
  later : k.ended = false → pts < k.nextPts
  opened : k.before = .infinity → k.shown = [] → k.ended = true

theorem Passed.mono (h : Passed stream pts k) (hpts : pts ≤ pts') : Passed stream pts' k where
  split := h.split
  past f hf := (h.past f hf).imp (fun hle => hle.trans hpts) id
  finished hended := by
    obtain ⟨hrest, hafter, hlast⟩ := h.finished hended
    exact ⟨hrest, hafter, fun f hf => ⟨(hlast f hf).1, (hlast f hf).2.trans hpts⟩⟩

theorem passed_start (before after : FFFrameSyncExtMode) (sync : Nat)
    (stream : List (AVFrame α)) (pts : Int) :
    Passed stream pts (Track.start before after sync stream) where
  split := rfl
  past f hf := by simp [Track.start] at hf
  finished h := by simp [Track.start] at h

theorem Increasing.lt_of_append {shown rest : List (AVFrame α)} {f g : AVFrame α}
    (h : Increasing (shown ++ rest)) (hf : f ∈ shown) (hg : g ∈ rest) : f.pts < g.pts := by
  rw [Increasing, List.map_append, List.pairwise_append] at h
  exact h.2.2 _ (List.mem_map_of_mem hf) _ (List.mem_map_of_mem hg)

/-- After a turn at the smallest of the next times a track is caught up. -/
theorem Passed.advance (h : Passed stream pts k) (hinc : Increasing stream)
    (hpts : pts < int64Max) (hmin : k.ended = false → pts ≤ k.nextPts)
    (hstop : ¬(k.Due pts ∧ k.rest = [] ∧ k.after = .stop)) :
    Caught stream pts (k.advance pts) := by
  by_cases hdue : k.Due pts
  · rw [Track.advance_of_due hdue]
    obtain ⟨hended, hnext⟩ := hdue
    have hle := hmin hended
    have hsplit := h.split
    cases hrest : k.rest with
    | nil =>
      -- the end comes
      have hlast : ∀ f, k.shown.getLast? = some f → k.after ≠ .infinity ∧ f.pts + 1 ≤ pts := by
        intro f hf
        have hshown : k.shown ≠ [] := by
          rintro hnil
          simp [hnil] at hf
        have htime : k.nextPts = pts := hnext.resolve_right fun hopen => hshown hopen.2
        simp only [Track.nextPts, hrest, hf] at htime
        split at htime
        · lia
        · exact ⟨‹_›, htime.le⟩
      have hkeep : k.next = { k with ended := true } := by simp only [Track.next, hrest]
      rw [hkeep]
      exact
        { split := hsplit
          past := h.past
          finished := fun _ => ⟨hrest, fun hafter => hstop ⟨⟨hended, hnext⟩, hrest, hafter⟩, hlast⟩
          later := fun hnot => absurd hnot (by simp)
          opened := fun _ _ => rfl }
    | cons f rest =>
      -- a frame comes
      have hfpts : k.nextPts = f.pts := by simp only [Track.nextPts, hrest]
      have hkeep : k.next = { k with shown := k.shown ++ [f], rest := rest } := by
        simp only [Track.next, hrest]
      rw [hrest] at hsplit
      rw [hkeep]
      refine
        { split := by simpa using hsplit
          past := ?_
          finished := fun hend => absurd hend (by simp [hended])
          later := fun _ => ?_
          opened := fun _ hnil => absurd hnil (by simp) }
      · intro g hg
        rcases List.mem_append.1 hg with hg | hg
        · have hshown : k.shown ≠ [] := List.ne_nil_of_mem hg
          have htime : k.nextPts = pts := hnext.resolve_right fun hopen => hshown hopen.2
          have hlt : g.pts < f.pts :=
            (hsplit ▸ hinc : Increasing (k.shown ++ f :: rest)).lt_of_append hg (by simp)
          exact .inl (by lia)
        · obtain rfl := List.mem_singleton.1 hg
          rcases hnext with htime | ⟨hbefore, hshown⟩
          · exact .inl (by lia)
          · exact .inr ⟨hbefore, by simp [hshown]⟩
      · cases rest with
        | nil =>
          simp only [Track.nextPts, List.getLast?_concat]
          split <;> lia
        | cons g rest =>
          have hlt : f.pts < g.pts :=
            (show Increasing ((k.shown ++ [f]) ++ g :: rest) by
              simpa [hsplit] using hinc).lt_of_append (by simp) (by simp)
          show pts < g.pts
          lia
  · rw [Track.advance_of_not_due hdue]
    refine { h with later := fun hended => ?_, opened := fun hbefore hshown => ?_ }
    · have hne : k.nextPts ≠ pts := fun htime => hdue ⟨hended, .inl htime⟩
      have := hmin hended
      lia
    · by_contra hended
      exact hdue ⟨by simpa using hended, .inr ⟨hbefore, hshown⟩⟩

theorem filter_le_of_split {shown rest : List (AVFrame α)} (hshown : ∀ f ∈ shown, f.pts ≤ pts)
    (hrest : ∀ f ∈ rest, pts < f.pts) :
    (shown ++ rest).filter (·.pts ≤ pts) = shown := by
  rw [List.filter_append, List.filter_eq_self.2 (by simpa using hshown),
    List.filter_eq_nil_iff.2 (by simpa using hrest), List.append_nil]

/-- What is current on a track that is caught up is what its stream says. -/
theorem Caught.current_eq (h : Caught stream pts k) (hinc : Increasing stream) :
    k.current = currentAt k.before k.after stream pts := by
  have hsplit := h.split
  rw [← hsplit] at hinc ⊢
  by_cases hended : k.ended = true
  · obtain ⟨hrest, hafter, hlast⟩ := h.finished hended
    rw [hrest, List.append_nil] at hinc ⊢
    rcases List.eq_nil_or_concat k.shown with hnil | ⟨init, f, hshown⟩
    · simp [Track.current, hended, currentAt, hnil]
    · -- all frames are over, and the mode is `EXT_NULL`
      obtain ⟨hinf, hle⟩ := hlast f (by simp [hshown])
      have hnull : k.after = .null := by
        cases hmode : k.after with
        | stop => exact absurd hmode hafter
        | null => rfl
        | infinity => exact absurd hmode hinf
      have hall : ∀ g ∈ k.shown, g.pts + 1 ≤ pts := by
        intro g hg
        rw [hshown, List.concat_eq_append] at hg hinc
        rcases List.mem_append.1 hg with hg | hg
        · have := hinc.lt_of_append hg (List.mem_singleton_self f)
          lia
        · obtain rfl := List.mem_singleton.1 hg
          exact hle
      have hfilter : k.shown.filter (·.pts ≤ pts) = k.shown :=
        List.filter_eq_self.2 fun g hg => by
          have := hall g hg
          simp only [decide_eq_true_eq]
          lia
      simp only [Track.current, hended, currentAt, hfilter]
      rw [if_pos trivial]
      cases hcase : k.shown.getLast? with
      | none => simp [hshown] at hcase
      | some g => exact (if_pos ⟨hnull, hall⟩).symm
  · have hnot : k.ended = false := by simpa using hended
    have hlater := h.later hnot
    have hcurrent : k.current = k.shown.getLast? := by simp [Track.current, hnot]
    rw [hcurrent]
    have hrest : ∀ g ∈ k.rest, pts < g.pts := by
      intro g hg
      cases hcase : k.rest with
      | nil => simp [hcase] at hg
      | cons f rest =>
        simp only [Track.nextPts, hcase] at hlater
        rw [hcase] at hg hinc
        rcases List.mem_cons.1 hg with rfl | hg
        · exact hlater
        · have hinc' : Increasing ((k.shown ++ [f]) ++ rest) := by simpa using hinc
          have := hinc'.lt_of_append (List.mem_append_right _ (List.mem_singleton_self f)) hg
          lia
    by_cases hpast : ∀ f ∈ k.shown, f.pts ≤ pts
    · rw [currentAt, filter_le_of_split hpast hrest]
      cases hcase : k.shown.getLast? with
      | none =>
        have hshown : k.shown = [] := List.getLast?_eq_none_iff.1 hcase
        have hbefore : k.before ≠ .infinity := fun hinf => hended (h.opened hinf hshown)
        simp [hbefore]
      | some f =>
        -- the track has not passed its end
        have hnotover : ¬(k.after = .null ∧ ∀ g ∈ k.shown ++ k.rest, g.pts + 1 ≤ pts) := by
          rintro ⟨hafter, hall⟩
          cases hr : k.rest with
          | nil =>
            have := hall f (List.mem_append_left _ (List.mem_of_getLast? hcase))
            simp only [Track.nextPts, hr, hcase, hafter] at hlater
            simp at hlater
            lia
          | cons g rest =>
            have hg : g ∈ k.rest := by simp [hr]
            have := hall g (List.mem_append_right _ hg)
            have := hrest g hg
            lia
        exact (if_neg hnotover).symm
    · obtain ⟨f, hf, hlt⟩ : ∃ f ∈ k.shown, ¬f.pts ≤ pts := by simpa using hpast
      obtain ⟨hbefore, hshown⟩ := (h.past f hf).resolve_left hlt
      have hnone : ([f] ++ k.rest).filter (·.pts ≤ pts) = [] := by
        simp only [List.filter_eq_nil_iff, List.mem_append, List.mem_singleton, decide_eq_true_eq]
        rintro g (rfl | hg)
        · exact hlt
        · have := hrest g hg
          lia
      rw [currentAt, hshown, hnone]
      simp [hbefore]

end Track

section Runs

variable {α : Type*} {nbIn : Nat}

/-- A loop that looks for the smallest of some numbers below `m`. -/
theorem foldl_min_spec {ι : Type*} (p : ι → Prop) [DecidablePred p] (f : ι → Int) (l : List ι)
    (m : Int) :
    let r := l.foldl (fun pts i => if p i ∧ f i < pts then f i else pts) m
    r ≤ m ∧ (∀ i ∈ l, p i → r ≤ f i) ∧ (r = m ∨ ∃ i ∈ l, p i ∧ f i = r) := by
  induction l generalizing m with
  | nil => simp
  | cons j l ih =>
    obtain ⟨hle, hall, hor⟩ := ih (if p j ∧ f j < m then f j else m)
    simp only [List.foldl_cons]
    generalize l.foldl (fun pts i => if p i ∧ f i < pts then f i else pts)
      (if p j ∧ f j < m then f j else m) = r at hle hall hor ⊢
    by_cases hj : p j ∧ f j < m
    · rw [if_pos hj] at hle hor
      refine ⟨by lia, ?_, ?_⟩
      · rintro i hi hp
        rcases List.mem_cons.1 hi with rfl | hi
        · exact hle
        · exact hall i hi hp
      · rcases hor with hr | ⟨i, hi, hp, hr⟩
        · exact .inr ⟨j, List.mem_cons_self, hj.1, hr.symm⟩
        · exact .inr ⟨i, List.mem_cons_of_mem _ hi, hp, hr⟩
    · rw [if_neg hj] at hle hor
      refine ⟨hle, ?_, ?_⟩
      · rintro i hi hp
        rcases List.mem_cons.1 hi with rfl | hi
        · have : ¬f i < m := fun hlt => hj ⟨hp, hlt⟩
          lia
        · exact hall i hi hp
      · rcases hor with hr | ⟨i, hi, hp, hr⟩
        · exact .inl hr
        · exact .inr ⟨i, List.mem_cons_of_mem _ hi, hp, hr⟩

variable {T T' : Fin nbIn → Track α}

theorem nextPts_le_int64Max (T : Fin nbIn → Track α) : nextPts T ≤ int64Max :=
  (foldl_min_spec (fun i => (T i).ended = false) (fun i => (T i).nextPts) eachInput int64Max).1

theorem nextPts_le {i : Fin nbIn} (h : (T i).ended = false) : nextPts T ≤ (T i).nextPts :=
  (foldl_min_spec (fun i => (T i).ended = false) (fun i => (T i).nextPts) eachInput
    int64Max).2.1 i (List.mem_finRange i) h

theorem exists_nextPts (h : nextPts T ≠ int64Max) :
    ∃ i, (T i).ended = false ∧ (T i).nextPts = nextPts T := by
  rcases (foldl_min_spec (fun i => (T i).ended = false) (fun i => (T i).nextPts) eachInput
    int64Max).2.2 with hmax | ⟨i, -, hended, heq⟩
  · exact absurd hmax h
  · exact ⟨i, hended, heq⟩

theorem turn_eq_some {e : Option (Event α nbIn)} (h : turn T = some (e, T')) :
    syncLevel T ≠ 0 ∧ nextPts T ≠ int64Max ∧ ¬Stops (nextPts T) T ∧
      T' = (fun i => (T i).advance (nextPts T)) ∧
      ∀ ev ∈ e, ev = ⟨nextPts T, fun i => (T' i).current⟩ := by
  unfold turn at h
  split at h
  · cases h
  · rename_i hgo
    simp only [not_or] at hgo
    simp only [Option.some.injEq, Prod.mk.injEq] at h
    obtain ⟨rfl, rfl⟩ := h
    refine ⟨hgo.1, hgo.2.1, hgo.2.2, rfl, ?_⟩
    intro ev hev
    split at hev
    · simpa using hev.symm
    · simp at hev

/-- The frames that are to come on a track, and its end. -/
def Track.budget (k : Track α) : Nat := k.rest.length + if k.ended then 0 else 1

/-- The frames that are to come on all tracks, and the ends. -/
def budget (T : Fin nbIn → Track α) : Nat := ∑ i, (T i).budget

theorem Track.budget_next_lt {k : Track α} (hended : k.ended = false) :
    k.next.budget < k.budget := by
  unfold Track.next
  split
  all_goals
    rename_i hrest
    simp [Track.budget, hrest, hended]

theorem Track.budget_advance_le (pts : Int) (k : Track α) : (k.advance pts).budget ≤ k.budget := by
  by_cases hdue : k.Due pts
  · rw [Track.advance_of_due hdue]
    exact (Track.budget_next_lt hdue.1).le
  · rw [Track.advance_of_not_due hdue]

theorem budget_lt {e : Option (Event α nbIn)} (h : turn T = some (e, T')) :
    budget T' < budget T := by
  obtain ⟨-, hmax, -, rfl, -⟩ := turn_eq_some h
  obtain ⟨i, hended, htime⟩ := exists_nextPts hmax
  refine Finset.sum_lt_sum (fun j _ => Track.budget_advance_le _ _) ⟨i, Finset.mem_univ i, ?_⟩
  show ((T i).advance (nextPts T)).budget < (T i).budget
  rw [Track.advance_of_due ⟨hended, .inl htime⟩]
  exact Track.budget_next_lt hended

variable {streams : Fin nbIn → List (AVFrame α)}

theorem caught_of_turn {e : Option (Event α nbIn)} (hinc : ∀ i, Increasing (streams i))
    (hpassed : ∀ i, Passed (streams i) (nextPts T) (T i)) (h : turn T = some (e, T'))
    (i : Fin nbIn) : Caught (streams i) (nextPts T) (T' i) := by
  obtain ⟨-, hmax, hstops, rfl, -⟩ := turn_eq_some h
  have hle := nextPts_le_int64Max T
  exact (hpassed i).advance (hinc i) (by lia) (fun hended => nextPts_le hended)
    fun hstop => hstops ⟨i, hstop⟩

theorem nextPts_lt_of_caught {pts : Int} (hpts : pts < int64Max)
    (h : ∀ i, Caught (streams i) pts (T i)) : pts < nextPts T := by
  by_cases hmax : nextPts T = int64Max
  · lia
  · obtain ⟨i, hended, htime⟩ := exists_nextPts hmax
    have := (h i).later hended
    lia

/-- What is emitted: events with increasing times, and at each the frames that the streams say
are current. -/
theorem events_of_emits {es : List (Event α nbIn)} {before after : Fin nbIn → FFFrameSyncExtMode}
    (hinc : ∀ i, Increasing (streams i)) (h : Emits turn T es T')
    (hmodes : ∀ i, (T i).before = before i ∧ (T i).after = after i)
    (hpassed : ∀ i, Passed (streams i) (nextPts T) (T i)) :
    (es.map (·.pts)).Pairwise (· < ·) ∧ (∀ e ∈ es, nextPts T ≤ e.pts) ∧
      ∀ e ∈ es, ∀ i, e.frames i = currentAt (before i) (after i) (streams i) e.pts := by
  induction h with
  | refl => simp
  | @head T T₁ T' e es hstep _ ih =>
    have hcaught := caught_of_turn hinc hpassed hstep
    obtain ⟨-, hmax, -, hT₁, hevent⟩ := turn_eq_some hstep
    have hle := nextPts_le_int64Max T
    have hlt : nextPts T < nextPts T₁ := nextPts_lt_of_caught (by lia) hcaught
    have hmodes₁ (i : Fin nbIn) : (T₁ i).before = before i ∧ (T₁ i).after = after i := by
      simpa [hT₁] using hmodes i
    obtain ⟨hpairs, hfrom, hframes⟩ :=
      ih hmodes₁ fun i => (hcaught i).toPassed.mono hlt.le
    cases e with
    | none =>
      refine ⟨by simpa using hpairs, ?_, by simpa using hframes⟩
      intro e he
      have := hfrom e (by simpa using he)
      lia
    | some ev =>
      obtain rfl := hevent ev rfl
      refine ⟨?_, ?_, ?_⟩
      · simp only [Option.toList_some, List.cons_append, List.nil_append, List.map_cons,
          List.pairwise_cons]
        refine ⟨?_, hpairs⟩
        intro pts hpts
        obtain ⟨e, he, rfl⟩ := List.mem_map.1 hpts
        have := hfrom e he
        lia
      · intro e he
        rcases List.mem_cons.1 he with rfl | he
        · exact le_rfl
        · have := hfrom e he
          lia
      · intro e he i
        rcases List.mem_cons.1 he with rfl | he
        · obtain ⟨hb, ha⟩ := hmodes₁ i
          rw [← hb, ← ha]
          exact (hcaught i).current_eq (hinc i)
        · exact hframes e he i

end Runs

end FFmpeg.Libavfilter.FrameSync
