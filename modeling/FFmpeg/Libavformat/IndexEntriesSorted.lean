import FFmpeg.Libavformat.IndexEntries

/-!
# The index stays sorted and searchable

Every call keeps the entries strictly increasing in their timestamps, and on such entries
the search finds the nearest one.  An entry keeps the position, the flags and the size it
was added with, except that a size from 2 ^ 29 on, which `ff_add_index_entry` accepts,
does not fit into the signed bit-field it is stored in.
-/

namespace FFmpeg.Libavformat.IndexEntries

open Common Libavutil

/-- The entries are strictly increasing in timestamp. -/
def Sorted (entries : List AVIndexEntry) : Prop :=
  entries.Pairwise fun e e' => e.timestamp < e'.timestamp

/-- What a search with `flags` may return for the timestamp `wanted`. -/
def Eligible (flags : SeekFlags) (wanted : Int) (e : AVIndexEntry) : Prop :=
  (if flags.backward then e.timestamp ≤ wanted else wanted ≤ e.timestamp) ∧ (flags.any ∨ e.keyframe)

/-- `m` is the index of the last eligible entry of a search backward, or of the first one
of a search forward, and -1 if there is none. -/
def Nearest (entries : List AVIndexEntry) (flags : SeekFlags) (wanted m : Int) : Prop :=
  (m = -1 ∧ ∀ e ∈ entries, ¬ Eligible flags wanted e) ∨
    ∃ (i : Nat) (e : AVIndexEntry), m = i ∧ entries[i]? = some e ∧ Eligible flags wanted e ∧
      ∀ (j : Nat) (e' : AVIndexEntry), entries[j]? = some e' → Eligible flags wanted e' →
        if flags.backward then j ≤ i else i ≤ j

variable {entries : List AVIndexEntry} {wanted : Int}

variable {e : AVIndexEntry}

theorem Sorted.lt (h : Sorted entries) {i j : Nat} {e' : AVIndexEntry} (hi : entries[i]? = some e)
    (hj : entries[j]? = some e') (hij : i < j) :
    e.timestamp < e'.timestamp := by
  obtain ⟨hilt, rfl⟩ := List.getElem?_eq_some_iff.mp hi
  obtain ⟨hjlt, rfl⟩ := List.getElem?_eq_some_iff.mp hj
  exact List.pairwise_iff_getElem.mp h i j hilt hjlt hij

theorem entryAt_natCast (entries : List AVIndexEntry) (i : Nat) :
    entryAt entries i = entries[i]? := by
  rw [entryAt, if_neg (by lia), Int.toNat_natCast]

theorem exists_entry (entries : List AVIndexEntry) {m : Int} (hm : 0 ≤ m) (hlt : m < entries.length) :
    ∃ (i : Nat) (e : AVIndexEntry), m = i ∧ entries[i]? = some e ∧ entryAt entries m = some e := by
  obtain ⟨i, rfl⟩ := Int.eq_ofNat_of_zero_le hm
  have hi : i < entries.length := by lia
  exact ⟨i, entries[i], rfl, List.getElem?_eq_getElem hi, by
    rw [entryAt_natCast, List.getElem?_eq_getElem hi]⟩

/-! ## Searching -/

/-- The two ends of a search: what is at or in front of `a` is too early, and what is at or
behind `b` too late, unless both are at the timestamp itself. -/
def Bracket (entries : List AVIndexEntry) (wanted a b : Int) : Prop :=
  (∃ (i : Nat) (e : AVIndexEntry), a = i ∧ b = i ∧ entries[i]? = some e ∧ e.timestamp = wanted) ∨
    (-1 ≤ a ∧ a < b ∧ b ≤ entries.length ∧
      (∀ (i : Nat) (e : AVIndexEntry), entries[i]? = some e → (i : Int) ≤ a →
        e.timestamp < wanted) ∧
      ∀ (i : Nat) (e : AVIndexEntry), entries[i]? = some e → b ≤ (i : Int) → wanted < e.timestamp)

/-- Skipping discarded frames stays between `a` and `b`, as the entry at `b` is not too
early. -/
theorem skipDiscarded_between {a b : Int}
    (habove : ∀ (i : Nat) (e : AVIndexEntry), entries[i]? = some e → b ≤ (i : Int) →
      wanted < e.timestamp) (hb : b ≤ entries.length) (rounds : Nat) (m : Int)
    (ha : -1 ≤ a) (ham : a < m) (hmb : m < b) (hrounds : (entries.length : Int) - m ≤ rounds) :
    ∃ m', skipDiscarded entries wanted b rounds m = some m' ∧ a < m' ∧ m' < b := by
  induction rounds generalizing m with
  | zero => lia
  | succ rounds ih =>
    obtain ⟨i, e, -, -, hentry⟩ := exists_entry entries (m := m) (by lia) (by lia)
    rw [skipDiscarded, hentry, Option.bind_eq_bind, Option.bind_some]
    split_ifs with hskip
    · obtain ⟨-, -, hlast⟩ := hskip
      obtain ⟨k, next, hk, hnext, hat⟩ := exists_entry entries (m := m + 1) (by lia)
        (by lia)
      rw [hat, Option.bind_some]
      split_ifs with hend
      · exact ⟨b - 1, rfl, by lia, by lia⟩
      · have hne : m + 1 ≠ b := by
          intro heq
          have hlate := habove k next hnext (by lia)
          exact hend ⟨heq, by lia⟩
        exact ih (m + 1) (by lia) (by lia) (by lia)
    · exact ⟨m, rfl, ham, hmb⟩

/-- The loop ends with `a` and `b` next to each other, or both at the timestamp. -/
theorem bisect_eq (hsorted : Sorted entries) (rounds : Nat) (a b : Int)
    (h : Bracket entries wanted a b) (hrounds : b - a ≤ rounds) (hpos : 0 < rounds) :
    ∃ a' b', bisect entries wanted rounds a b = some (a', b') ∧ b' - a' ≤ 1 ∧
      Bracket entries wanted a' b' := by
  induction rounds generalizing a b with
  | zero => lia
  | succ rounds ih =>
    unfold bisect
    split_ifs with hwide
    · rcases h with ⟨i, e, rfl, rfl, -, -⟩ | ⟨ha, hab, hb, hbelow, habove⟩
      · lia
      obtain ⟨m, hskip, ham, hmb⟩ := skipDiscarded_between habove hb entries.length ((a + b) / 2)
        ha (by lia) (by lia) (by lia)
      obtain ⟨i, e, rfl, hi, hat⟩ := exists_entry entries (m := m) (by lia) (by lia)
      rw [hskip, Option.bind_eq_bind, Option.bind_some, hat, Option.bind_eq_bind, Option.bind_some]
      apply ih _ _ _ (by split_ifs <;> lia) (by lia)
      rcases lt_trichotomy e.timestamp wanted with hlt | heq | hgt
      · rw [if_pos hlt.le, if_neg (by lia)]
        refine .inr ⟨by lia, hmb, hb, fun j e' hj hji => ?_, habove⟩
        rcases Nat.lt_or_eq_of_le (by lia : j ≤ i) with hji | rfl
        · have hearlier := hsorted.lt hj hi hji
          lia
        · cases hi.symm.trans hj
          exact hlt
      · rw [if_pos heq.le, if_pos heq.ge]
        exact .inl ⟨i, e, rfl, rfl, hi, heq⟩
      · rw [if_neg (by lia), if_pos hgt.le]
        refine .inr ⟨ha, ham, by lia, hbelow, fun j e' hj hij => ?_⟩
        rcases Nat.lt_or_eq_of_le (by lia : i ≤ j) with hij | rfl
        · have hlater := hsorted.lt hi hj hij
          lia
        · cases hi.symm.trans hj
          exact hgt
    · exact ⟨a, b, rfl, by lia, h⟩

theorem Bracket.le_iff (hsorted : Sorted entries) {a b : Int} (h : Bracket entries wanted a b)
    (hnarrow : b - a ≤ 1) {j : Nat} (hj : entries[j]? = some e) :
    (e.timestamp ≤ wanted ↔ (j : Int) ≤ a) ∧ (wanted ≤ e.timestamp ↔ b ≤ (j : Int)) := by
  rcases h with ⟨i, e₀, rfl, rfl, hi, hat⟩ | ⟨ha, hab, hb, hbelow, habove⟩
  · rcases lt_trichotomy j i with hlt | rfl | hgt
    · have hearlier := hsorted.lt hj hi hlt
      constructor <;> constructor <;> lia
    · cases hi.symm.trans hj
      constructor <;> constructor <;> lia
    · have hlater := hsorted.lt hi hj hgt
      constructor <;> constructor <;> lia
  · rcases le_or_gt (j : Int) a with hle | hgt
    · have hearly := hbelow j e hj hle
      constructor <;> constructor <;> lia
    · have hlate := habove j e hj (by lia)
      constructor <;> constructor <;> lia

/-- The entries from `m` on in the direction of the search. -/
def Ahead (backward : Bool) (m : Int) (j : Nat) : Prop :=
  if backward then (j : Int) ≤ m else m ≤ j

/-- `m'` is the first entry with `P` from `m` on in the direction of the search, or the end
behind the last one. -/
def FirstAhead (entries : List AVIndexEntry) (P : AVIndexEntry → Prop) (backward : Bool)
    (m m' : Int) : Prop :=
  (m' = (if backward then -1 else (entries.length : Int)) ∧
      ∀ (j : Nat) (e : AVIndexEntry), entries[j]? = some e → Ahead backward m j → ¬ P e) ∨
    ∃ (i : Nat) (e : AVIndexEntry), m' = i ∧ entries[i]? = some e ∧ P e ∧ Ahead backward m i ∧
      ∀ (j : Nat) (e' : AVIndexEntry), entries[j]? = some e' → P e' → Ahead backward m j →
        if backward then j ≤ i else i ≤ j

theorem ahead_iff (backward : Bool) (i j : Nat) :
    Ahead backward i j ↔ j = i ∨ Ahead backward (if backward then (i : Int) - 1 else i + 1) j := by
  cases backward <;> simp [Ahead] <;> lia

variable {P : AVIndexEntry → Prop}

theorem FirstAhead.of_next {backward : Bool} {i : Nat} {m' : Int} (hi : entries[i]? = some e)
    (hnot : ¬ P e)
    (h : FirstAhead entries P backward (if backward then (i : Int) - 1 else i + 1) m') :
    FirstAhead entries P backward i m' := by
  rcases h with ⟨hend, hnone⟩ | ⟨k, e', rfl, hk, hp, hahead, hnearest⟩
  · refine .inl ⟨hend, fun j e' hj hle => ?_⟩
    rcases (ahead_iff backward i j).mp hle with rfl | hle
    · cases hi.symm.trans hj
      exact hnot
    · exact hnone j e' hj hle
  · refine .inr ⟨k, e', rfl, hk, hp, (ahead_iff backward i k).mpr (.inr hahead), ?_⟩
    intro j e₁ hj hp₁ hle
    rcases (ahead_iff backward i j).mp hle with rfl | hle
    · cases hi.symm.trans hj
      exact absurd hp₁ hnot
    · exact hnearest j e₁ hj hp₁ hle

theorem FirstAhead.here (backward : Bool) {i : Nat} (hi : entries[i]? = some e) (hp : P e) :
    FirstAhead entries P backward i i := by
  refine .inr ⟨i, e, rfl, hi, hp, ?_, fun j e' _ _ hj => ?_⟩
  · cases backward <;> exact le_rfl
  · cases backward <;> exact Int.ofNat_le.mp hj

theorem FirstAhead.atEnd (P : AVIndexEntry → Prop) (backward : Bool) :
    FirstAhead entries P backward (if backward then -1 else entries.length)
      (if backward then -1 else entries.length) := by
  refine .inl ⟨rfl, fun j e hj hle => ?_⟩
  have hlt := (List.getElem?_eq_some_iff.mp hj).1
  cases backward <;> simp [Ahead] at hle <;> lia

theorem toKeyframe_eq (entries : List AVIndexEntry) (backward : Bool) (rounds : Nat) (m : Int)
    (hrounds : if backward then -1 ≤ m ∧ m < entries.length ∧ m + 2 ≤ rounds
      else 0 ≤ m ∧ m ≤ entries.length ∧ entries.length - m + 1 ≤ rounds) :
    ∃ m', toKeyframe entries backward rounds m = some m' ∧
      FirstAhead entries (fun e => e.keyframe) backward m m' := by
  induction rounds generalizing m with
  | zero => cases backward <;> simp at hrounds <;> lia
  | succ rounds ih =>
    by_cases hin : 0 ≤ m ∧ m < entries.length
    · obtain ⟨i, e, rfl, hi, hat⟩ := exists_entry entries hin.1 hin.2
      rw [toKeyframe, if_pos hin, hat, Option.bind_eq_bind, Option.bind_some]
      by_cases hkey : e.keyframe
      · rw [if_pos hkey]
        exact ⟨i, rfl, .here backward hi hkey⟩
      · have hnext := ih (if backward then (i : Int) - 1 else i + 1) (by
          cases backward <;> simp at hrounds ⊢ <;> lia)
        obtain ⟨m', heq, hfirst⟩ := hnext
        rw [if_neg hkey]
        exact ⟨m', heq, hfirst.of_next hi hkey⟩
    · have hend : m = if backward then -1 else (entries.length : Int) := by
        cases backward <;> simp at hrounds ⊢ <;> lia
      rw [toKeyframe, if_neg hin, hend]
      exact ⟨_, rfl, .atEnd _ backward⟩

theorem bracket_start (hsorted : Sorted entries) (wanted : Int) :
    Bracket entries wanted
      (if entries.getLast?.any (fun e => e.timestamp < wanted) then
        (entries.length : Int) - 1 else -1) entries.length := by
  refine .inr ⟨by split_ifs <;> lia, by split_ifs <;> lia, le_rfl, fun i e hi hle => ?_,
    fun i e hi hle => ?_⟩
  · have hlt := (List.getElem?_eq_some_iff.mp hi).1
    split_ifs at hle with hlast
    · have hend : entries.length - 1 < entries.length := by lia
      rw [List.getLast?_eq_getElem?, List.getElem?_eq_getElem hend, Option.any_some,
        decide_eq_true_eq] at hlast
      rcases Nat.lt_or_eq_of_le (by lia : i ≤ entries.length - 1) with hlt | rfl
      · exact (hsorted.lt hi (List.getElem?_eq_getElem hend) hlt).trans hlast
      · cases hi.symm.trans (List.getElem?_eq_getElem hend)
        exact hlast
    · lia
  · have hlt := (List.getElem?_eq_some_iff.mp hi).1
    lia

theorem Bracket.nearest (hsorted : Sorted entries) {a b m : Int}
    (h : Bracket entries wanted a b) (hnarrow : b - a ≤ 1) {flags : SeekFlags}
    (hfirst : FirstAhead entries (fun e => flags.any ∨ e.keyframe) flags.backward
      (if flags.backward then a else b) m) :
    Nearest entries flags wanted (if m = entries.length then -1 else m) := by
  have hahead {j : Nat} {e : AVIndexEntry} (hj : entries[j]? = some e) :
      Eligible flags wanted e ↔
        Ahead flags.backward (if flags.backward then a else b) j ∧ (flags.any ∨ e.keyframe) := by
    obtain ⟨hbelow, habove⟩ := h.le_iff hsorted hnarrow hj
    unfold Eligible Ahead
    cases flags.backward
    · simp only [Bool.false_eq_true, if_false, habove]
    · simp only [if_true, hbelow]
  rcases hfirst with ⟨hend, hnone⟩ | ⟨i, e, rfl, hi, hp, hle, hnearest⟩
  · refine .inl ⟨?_, fun e he heligible => ?_⟩
    · split_ifs at hend ⊢ <;> lia
    · obtain ⟨j, hj⟩ := List.mem_iff_getElem?.mp he
      obtain ⟨hle, hp⟩ := (hahead hj).mp heligible
      exact hnone j e hj hle hp
  · have hlt := (List.getElem?_eq_some_iff.mp hi).1
    rw [if_neg (by lia)]
    refine .inr ⟨i, e, rfl, hi, (hahead hi).mpr ⟨hle, hp⟩, fun j e' hj heligible => ?_⟩
    obtain ⟨hle', hp'⟩ := (hahead hj).mp heligible
    exact hnearest j e' hj hp' hle'

/-- On sorted entries the search ends and finds the nearest entry. -/
theorem ffIndexSearchTimestamp_eq (hsorted : Sorted entries) (wanted : Int)
    (flags : SeekFlags) :
    ∃ m, ffIndexSearchTimestamp entries wanted flags = some m ∧ Nearest entries flags wanted m := by
  obtain ⟨a, b, hbisect, hnarrow, hbracket⟩ :=
    bisect_eq hsorted (entries.length + 1) _ _ (bracket_start hsorted wanted)
      (by split_ifs <;> lia) (by lia)
  have hbounds : -1 ≤ a ∧ a < entries.length ∧ 0 ≤ b ∧ b ≤ entries.length := by
    rcases hbracket with ⟨i, e, rfl, rfl, hi, -⟩ | ⟨ha, hab, hb, -, -⟩
    · have hlt := (List.getElem?_eq_some_iff.mp hi).1
      lia
    · lia
  unfold ffIndexSearchTimestamp
  simp only [hbisect, Option.bind_eq_bind, Option.bind_some]
  have hnear : ∀ m, FirstAhead entries (fun e => flags.any ∨ e.keyframe) flags.backward
      (if flags.backward then a else b) m →
      Nearest entries flags wanted (if m = entries.length then -1 else m) :=
    fun m hfirst => hbracket.nearest hsorted hnarrow hfirst
  generalize hm₀ : (if flags.backward then a else b) = m₀ at hnear ⊢
  have hrange : if flags.backward then -1 ≤ m₀ ∧ m₀ < entries.length
      else 0 ≤ m₀ ∧ m₀ ≤ entries.length := by
    split_ifs at hm₀ ⊢ <;> lia
  cases hany : flags.any with
  | true =>
    have hfirst : FirstAhead entries (fun e => flags.any ∨ e.keyframe) flags.backward m₀ m₀ := by
      by_cases hin : 0 ≤ m₀ ∧ m₀ < entries.length
      · obtain ⟨i, e, rfl, hi, -⟩ := exists_entry entries hin.1 hin.2
        exact .here _ hi (.inl hany)
      · have hend : m₀ = if flags.backward then -1 else (entries.length : Int) := by
          split_ifs at hrange ⊢ <;> lia
        rw [hend]
        exact .atEnd _ _
    refine ⟨_, ?_, hnear m₀ hfirst⟩
    simp only [if_true]
    split_ifs <;> rfl
  | false =>
    obtain ⟨m, heq, hfirst⟩ := toKeyframe_eq entries flags.backward (entries.length + 1) m₀
      (by split_ifs at hrange ⊢ <;> lia)
    refine ⟨_, ?_, hnear m ?_⟩
    · simp only [Bool.false_eq_true, if_false, heq, Option.bind_some]
      split_ifs <;> rfl
    · simpa only [hany, Bool.false_eq_true, false_or] using hfirst

/-! ## Changing the index -/

/-- The calls that change an index. -/
inductive IndexCall
  | add (memory : Bool) (pos timestamp size distance flags : Int)
  | reduce (maxIndexSize : Nat)

/-- The index after a call. -/
def indexNext (entries : List AVIndexEntry) : IndexCall → List AVIndexEntry
  | .add memory pos timestamp size distance flags =>
    ((ffAddIndexEntry memory entries pos timestamp size distance flags).map Prod.snd).getD entries
  | .reduce maxIndexSize => ffReduceIndex maxIndexSize entries

/-- The arguments an entry is added for. -/
def Accepts (entries : List AVIndexEntry) (memory : Bool) (timestamp size : Int) : Prop :=
  entries.length + 1 < maxEntries ∧ timestamp ≠ avNoptsValue ∧ 0 ≤ size ∧ size ≤ 0x3FFFFFFF ∧ memory

/-- The entry `e` is what a call with these arguments is to store in `entries`. -/
structure StoredAs (entries : List AVIndexEntry) (pos timestamp size distance flags : Int)
    (e : AVIndexEntry) : Prop where
  pos_eq : e.pos = pos
  timestamp_eq : e.timestamp = indexTimestamp timestamp
  flags_eq : (e.flags.toNat : Int) = flags % 4
  size_eq : e.size.toInt = size
  /-- the distance is not reduced for the same position -/
  kept : ∀ old ∈ entries, old.timestamp = e.timestamp → old.pos = pos →
    e.minDistance = max distance old.minDistance
  fresh : (∀ old ∈ entries, old.timestamp = e.timestamp → old.pos ≠ pos) → e.minDistance = distance

/-- What a call is to do: an accepted entry is stored under its timestamp, every other entry
stays as it is, and a call that is not accepted changes nothing. -/
def Meets (entries : List AVIndexEntry) : IndexCall → Prop
  | .add memory pos timestamp size distance flags =>
    (Accepts entries memory timestamp size →
      ∃ (i : Nat) (after : List AVIndexEntry) (e : AVIndexEntry),
        ffAddIndexEntry memory entries pos timestamp size distance flags =
          some (.ok (i : Int), after) ∧
        after[i]? = some e ∧ StoredAs entries pos timestamp size distance flags e ∧
        ∀ e', e' ∈ after ↔ e' = e ∨ (e' ∈ entries ∧ e'.timestamp ≠ e.timestamp)) ∧
    (¬ Accepts entries memory timestamp size →
      ∃ err, ffAddIndexEntry memory entries pos timestamp size distance flags =
        some (.error err, entries))
  | .reduce maxIndexSize => (ffReduceIndex maxIndexSize entries).Sublist entries

/-- The index is sorted and every search in it ends at the nearest entry. -/
def Searchable (entries : List AVIndexEntry) : Prop :=
  Sorted entries ∧ ∀ wanted flags, ∃ m, ffIndexSearchTimestamp entries wanted flags = some m ∧
    Nearest entries flags wanted m

/-- The index is searchable after the calls, and before each of them, and each of them does
what it is to do. -/
def KeepsIndex (calls : List IndexCall) : Prop :=
  Searchable (run indexNext [] calls) ∧
    EachStep indexNext (fun entries call => Searchable entries ∧ Meets entries call) [] calls

/-- The size of an accepted entry fits into the bit-field. -/
def SizeFits (entries : List AVIndexEntry) : IndexCall → Prop
  | .add memory _ timestamp size _ _ =>
    Accepts entries memory timestamp size → size < 2 ^ 29
  | .reduce _ => True

/-- The entry that a call builds. -/
def builtEntry (pos timestamp size distance flags : Int) : AVIndexEntry :=
  { pos := pos
    timestamp := indexTimestamp timestamp
    flags := BitVec.ofInt 2 flags
    size := BitVec.ofInt 30 size
    minDistance := distance }

/-- An accepted entry takes the place of the entry with its timestamp, if there is one. -/
theorem ffAddIndexEntry_accepted (hsorted : Sorted entries) {memory : Bool}
    {timestamp size : Int} (haccepts : Accepts entries memory timestamp size)
    (pos distance flags : Int) :
    ∃ (below same above : List AVIndexEntry) (kept : Int), entries = below ++ same ++ above ∧
      ffAddIndexEntry memory entries pos timestamp size distance flags =
        some (.ok (below.length : Int),
          below ++ builtEntry pos timestamp size kept flags :: above) ∧
      (∀ e ∈ below, e.timestamp < indexTimestamp timestamp) ∧
      (∀ e ∈ above, indexTimestamp timestamp < e.timestamp) ∧
      (∀ e ∈ same, e.timestamp = indexTimestamp timestamp) ∧
      (∀ e ∈ same, e.pos = pos → kept = max distance e.minDistance) ∧
      ((∀ e ∈ same, e.pos ≠ pos) → kept = distance) := by
  obtain ⟨hroom, hset, hpos, hmax, hmemory⟩ := haccepts
  obtain ⟨m, hsearch, hnearest⟩ :=
    ffIndexSearchTimestamp_eq hsorted (indexTimestamp timestamp) ⟨false, true⟩
  unfold ffAddIndexEntry
  simp only [if_neg (Nat.not_le.mpr hroom), if_neg hset,
    if_neg (by lia : ¬ (size < 0 ∨ 0x3FFFFFFF < size)), hmemory, hsearch, not_true, if_false,
    Option.bind_eq_bind, Option.bind_some]
  rcases hnearest with ⟨rfl, hnone⟩ | ⟨i, e, rfl, hi, heligible, hfirst⟩
  · -- the entry goes behind all others
    have hbelow : ∀ e ∈ entries, e.timestamp < indexTimestamp timestamp := by
      intro e he
      by_contra hnot
      exact hnone e he ⟨by simpa using hnot, .inl rfl⟩
    refine ⟨entries, [], [], distance, by simp, ?_, hbelow, by simp, by simp, by simp, by simp⟩
    have hlast : entries.getLast?.all (fun e => e.timestamp < indexTimestamp timestamp) := by
      rw [Option.all_eq_true]
      intro e he
      exact decide_eq_true (hbelow e (List.mem_of_getLast? he))
    rw [if_pos (by lia), if_pos hlast]
    rfl
  · obtain ⟨hlt, rfl⟩ := List.getElem?_eq_some_iff.mp hi
    have hbelow : ∀ e ∈ entries.take i, e.timestamp < indexTimestamp timestamp := by
      intro e he
      obtain ⟨j, hj⟩ := List.mem_iff_getElem?.mp he
      by_contra hnot
      have hji : j < i := by
        have hshort := (List.getElem?_eq_some_iff.mp hj).1
        rw [List.length_take] at hshort
        lia
      rw [List.getElem?_take_of_lt hji] at hj
      have hle := hfirst j e hj ⟨by simpa using hnot, .inl rfl⟩
      simp only [Bool.false_eq_true, if_false] at hle
      lia
    have habove : ∀ e ∈ entries.drop (i + 1), indexTimestamp timestamp < e.timestamp := by
      intro e he
      obtain ⟨j, hj⟩ := List.mem_iff_getElem?.mp he
      rw [List.getElem?_drop] at hj
      have hlater := hsorted.lt hi hj (by lia)
      have hat := heligible.1
      simp at hat
      lia
    have hlength : (entries.take i).length = i := List.length_take_of_le hlt.le
    have hsplit : entries = entries.take i ++ [entries[i]] ++ entries.drop (i + 1) := by
      simp
    rw [if_neg (by lia), entryAt_natCast, hi, Option.bind_some, Int.toNat_natCast]
    by_cases hat : entries[i].timestamp = indexTimestamp timestamp
    · refine ⟨entries.take i, [entries[i]], entries.drop (i + 1),
        if entries[i].pos = pos ∧ distance < entries[i].minDistance then entries[i].minDistance
          else distance, hsplit, ?_, hbelow, habove, by simpa using hat, ?_, ?_⟩
      · rw [if_neg (by simpa using hat), hlength, List.set_eq_take_append_cons_drop, if_pos hlt]
        rfl
      · rintro e he hpos
        cases List.mem_singleton.mp he
        split_ifs with hkept
        · exact (max_eq_right hkept.2.le).symm
        · exact (max_eq_left (by by_contra hless; exact hkept ⟨hpos, by lia⟩)).symm
      · intro hother
        rw [if_neg fun hkept => hother _ (List.mem_singleton.mpr rfl) hkept.1]
    · have hafter : indexTimestamp timestamp < entries[i].timestamp := by
        have hle := heligible.1
        simp at hle
        lia
      refine ⟨entries.take i, [], entries.drop i, distance, by simp, ?_, hbelow, ?_, by simp,
        by simp, by simp⟩
      · rw [if_pos hat, if_neg (by lia), hlength]
        rfl
      · rw [List.drop_eq_getElem_cons hlt]
        intro e he
        rcases List.mem_cons.mp he with rfl | he
        · exact hafter
        · exact habove e he

theorem ffAddIndexEntry_rejected {memory : Bool} {timestamp size : Int}
    (hrejects : ¬ Accepts entries memory timestamp size) (pos distance flags : Int) :
    ∃ err, ffAddIndexEntry memory entries pos timestamp size distance flags =
      some (.error err, entries) := by
  unfold Accepts at hrejects
  unfold ffAddIndexEntry
  split_ifs with hroom hset hsize hmemory
  · exact ⟨_, rfl⟩
  · exact ⟨_, rfl⟩
  · exact ⟨_, rfl⟩
  · exact absurd ⟨by lia, hset, by lia, by lia, hmemory⟩ hrejects
  · exact ⟨_, rfl⟩

theorem toInt_ofInt_size {size : Int} (hpos : 0 ≤ size) :
    (BitVec.ofInt 30 size).toInt = size ↔ size < 2 ^ 29 := by
  rw [BitVec.toInt_ofInt, Int.bmod_def]
  split_ifs <;> lia

theorem toNat_ofInt_flags (flags : Int) : ((BitVec.ofInt 2 flags).toNat : Int) = flags % 4 := by
  rw [BitVec.toNat_ofInt]
  lia

theorem everySecond_sublist {α : Type} (l : List α) : (everySecond l).Sublist l := by
  fun_induction everySecond l with
  | case1 => exact List.Sublist.refl _
  | case2 e => exact List.Sublist.refl _
  | case3 e e' l ih => exact (ih.cons e').cons_cons e

theorem Sorted.reduce (h : Sorted entries) (maxIndexSize : Nat) :
    Sorted (ffReduceIndex maxIndexSize entries) ∧
      (ffReduceIndex maxIndexSize entries).Sublist entries := by
  unfold ffReduceIndex
  split_ifs
  · exact ⟨List.Pairwise.sublist (everySecond_sublist entries) h, everySecond_sublist entries⟩
  · exact ⟨h, List.Sublist.refl _⟩

theorem Sorted.afterCall (h : Sorted entries) (call : IndexCall) :
    Sorted (indexNext entries call) := by
  cases call with
  | reduce maxIndexSize => exact (h.reduce maxIndexSize).1
  | add memory pos timestamp size distance flags =>
    by_cases haccepts : Accepts entries memory timestamp size
    · obtain ⟨below, same, above, kept, hsplit, heq, hbelow, habove, -⟩ :=
        ffAddIndexEntry_accepted h haccepts pos distance flags
      rw [hsplit, Sorted, List.append_assoc, List.pairwise_append, List.pairwise_append] at h
      obtain ⟨hfront, ⟨-, hback, -⟩, hacross⟩ := h
      rw [indexNext, heq]
      refine List.pairwise_append.mpr ⟨hfront, List.pairwise_cons.mpr ⟨habove, hback⟩, ?_⟩
      intro e he e' he'
      rcases List.mem_cons.mp he' with rfl | he'
      · exact hbelow e he
      · exact (hbelow e he).trans (habove e' he')
    · obtain ⟨err, heq⟩ := ffAddIndexEntry_rejected haccepts pos distance flags
      rw [indexNext, heq]
      exact h

/-- On a sorted index a call does what it is to do exactly if the size fits. -/
theorem Sorted.meets_iff (h : Sorted entries) (call : IndexCall) :
    Meets entries call ↔ SizeFits entries call := by
  cases call with
  | reduce maxIndexSize => exact iff_of_true (h.reduce maxIndexSize).2 trivial
  | add memory pos timestamp size distance flags =>
    by_cases haccepts : Accepts entries memory timestamp size
    · obtain ⟨below, same, above, kept, rfl, heq, hbelow, habove, hsame, hkept, hfresh⟩ :=
        ffAddIndexEntry_accepted h haccepts pos distance flags
      have hat : (below ++ builtEntry pos timestamp size kept flags :: above)[below.length]? =
          some (builtEntry pos timestamp size kept flags) := by
        simp
      have hfits := toInt_ofInt_size haccepts.2.2.1
      constructor
      · rintro ⟨hstores, -⟩ -
        obtain ⟨i, after, e, heq', hi, hstored, -⟩ := hstores haccepts
        rw [heq] at heq'
        simp only [Option.some.injEq, Prod.mk.injEq, Except.ok.injEq, Nat.cast_inj] at heq'
        obtain ⟨rfl, rfl⟩ := heq'
        cases hi.symm.trans hat
        exact hfits.mp hstored.size_eq
      · intro hsize
        -- the entries under the new timestamp are the one that is replaced
        have hin : ∀ old, old ∈ same ↔
            old ∈ below ++ same ++ above ∧ old.timestamp = indexTimestamp timestamp := by
          intro old
          constructor
          · intro hold
            exact ⟨by simp [hold], hsame old hold⟩
          · rintro ⟨hold, htimestamp⟩
            rcases List.mem_append.mp hold with hold | hold
            · rcases List.mem_append.mp hold with hold | hold
              · exact absurd htimestamp (hbelow old hold).ne
              · exact hold
            · exact absurd htimestamp (habove old hold).ne'
        refine ⟨fun _ => ⟨below.length, _, _, heq, hat, ?_, fun e' => ?_⟩,
          fun hrejects => absurd haccepts hrejects⟩
        · refine ⟨rfl, rfl, toNat_ofInt_flags flags, hfits.mpr (hsize haccepts), ?_, ?_⟩
          · intro old hold htimestamp hpos
            exact hkept old ((hin old).mpr ⟨hold, htimestamp⟩) hpos
          · intro hother
            refine hfresh fun old hold => ?_
            obtain ⟨hmem, htimestamp⟩ := (hin old).mp hold
            exact hother old hmem htimestamp
        · have hbefore := hbelow e'
          have hbehind := habove e'
          have hequal := hsame e'
          simp only [List.mem_append, List.mem_cons, builtEntry] at hbefore hbehind hequal ⊢
          constructor
          · rintro (hmem | rfl | hmem)
            · exact .inr ⟨.inl (.inl hmem), (hbefore hmem).ne⟩
            · exact .inl rfl
            · exact .inr ⟨.inr hmem, (hbehind hmem).ne'⟩
          · rintro (rfl | ⟨(hmem | hmem) | hmem, hne⟩)
            · exact .inr (.inl rfl)
            · exact .inl hmem
            · exact absurd (hequal hmem) hne
            · exact .inr (.inr hmem)
    · obtain ⟨err, heq⟩ := ffAddIndexEntry_rejected haccepts pos distance flags
      exact iff_of_true ⟨fun hyes => absurd hyes haccepts, fun _ => ⟨err, heq⟩⟩
        fun hyes => absurd hyes haccepts

theorem Sorted.run_iff (calls : List IndexCall) (hsorted : Sorted entries) :
    (Searchable (run indexNext entries calls) ∧
      EachStep indexNext (fun entries call => Searchable entries ∧ Meets entries call)
        entries calls) ↔
      EachStep indexNext SizeFits entries calls := by
  induction calls generalizing entries with
  | nil => exact iff_of_true ⟨⟨hsorted, ffIndexSearchTimestamp_eq hsorted⟩, trivial⟩ trivial
  | cons call calls ih =>
    have hrest := ih (hsorted.afterCall call)
    have hmeets := hsorted.meets_iff call
    have hsearch : Searchable entries := ⟨hsorted, ffIndexSearchTimestamp_eq hsorted⟩
    rw [run_cons, eachStep_cons, eachStep_cons, ← hrest, ← hmeets]
    constructor
    · rintro ⟨hlast, ⟨-, hcall⟩, hcalls⟩
      exact ⟨hcall, hlast, hcalls⟩
    · rintro ⟨hcall, hlast, hcalls⟩
      exact ⟨hlast, ⟨hsearch, hcall⟩, hcalls⟩

/-- A run of calls keeps the index sorted and searchable, and every call does what it is to
do, exactly if the size of every accepted entry fits into its bit-field. -/
theorem keepsIndex_iff (calls : List IndexCall) :
    KeepsIndex calls ↔ EachStep indexNext SizeFits [] calls :=
  Sorted.run_iff calls List.Pairwise.nil

/-- A keyframe of 2 ^ 29 bytes is stored with a negative size. -/
theorem not_keepsIndex_size : ¬ ∀ calls, KeepsIndex calls := by
  intro h
  have hrun := h [.add true 0 0 (2 ^ 29) 0 1]
  have hfits := (Sorted.run_iff _ List.Pairwise.nil).mp hrun
  have hsize := hfits.1 ⟨by decide, by decide, by decide, by decide, rfl⟩
  lia

end FFmpeg.Libavformat.IndexEntries
