import Mathlib.Tactic
import FFmpeg.Common.Run
import FFmpeg.Libavformat.Cache

/-!
# Transparency of the cache protocol

What a reader gets through the cache is what stands at its position in the inner
resource, as long as no read goes to the inner resource believing a stale
`inner_pos`.  A seek beyond the known end moves the inner resource without
recording it, and a later read at the recorded position then gets, and caches,
the bytes of another one.
-/

namespace FFmpeg.Libavformat.Cache

open Common Libavutil

variable {inner : Inner} {outcome : Nat → Outcome} {o : Outcome} {c : Context}

/-! ## Faithful entries -/

theorem bmod_le_self {x : Int} (hx : 0 ≤ x) (m : Nat) : x.bmod m ≤ x := by
  have hmod : x % m ≤ x := by
    lift x to ℕ using hx
    exact_mod_cast Nat.mod_le x m
  unfold Int.bmod
  dsimp only
  split
  · exact hmod
  · lia

/-- The cache file holds, at the physical position, the bytes that the inner content
has at the logical one. -/
structure CacheEntry.Faithful (content file : Bytes) (e : CacheEntry) : Prop where
  physical_le : e.physicalPos + e.size.toNat ≤ file.length
  slice_eq : slice file e.physicalPos e.size.toNat = slice content e.logicalPos e.size.toNat

namespace CacheEntry.Faithful

variable {content file : Bytes} {e : CacheEntry}

theorem shrink (h : e.Faithful content file) {size : Int} (hsize : size.toNat ≤ e.size.toNat) :
    Faithful content file { e with size := size } where
  physical_le := by
    have := h.physical_le
    show e.physicalPos + size.toNat ≤ file.length
    lia
  slice_eq := by
    show slice file e.physicalPos size.toNat = slice content e.logicalPos size.toNat
    have heq := congrArg (List.take size.toNat) h.slice_eq
    rwa [take_slice, take_slice, Nat.min_eq_left hsize] at heq

theorem slice_part (h : e.Faithful content file) {k n : Nat} (hkn : k + n ≤ e.size.toNat) :
    slice file (e.physicalPos + k) n = slice content (e.logicalPos + k) n := by
  rw [← slice_slice hkn, ← slice_slice hkn, h.slice_eq]

theorem append (h : e.Faithful content file) (bytes : Bytes) :
    e.Faithful content (file ++ bytes) where
  physical_le := by
    have := h.physical_le
    rw [List.length_append]
    lia
  slice_eq := by
    have hle : e.size.toNat ≤ (file.drop e.physicalPos).length := by
      have := h.physical_le
      rw [List.length_drop]
      lia
    rw [← h.slice_eq, slice, slice, List.drop_append_of_le_length (by have := h.physical_le; lia),
      List.take_append_of_le_length hle]

/-- An entry that ends where new bytes are put may be extended by them. -/
theorem extend (h : e.Faithful content file) {logicalPos : Nat} {bytes : Bytes}
    (hends : e.endsAt logicalPos file.length = true)
    (hbytes : slice content logicalPos bytes.length = bytes) :
    (e.extend bytes.length).Faithful content (file ++ bytes) := by
  simp only [endsAt, Bool.and_eq_true, decide_eq_true_eq] at hends
  obtain ⟨hlogical, hphysical⟩ := hends
  have hle := h.physical_le
  have hnonneg : 0 ≤ e.size := by lia
  -- the entry of the full size, which the wrapped one is a part of
  have hfull : Faithful content (file ++ bytes) { e with size := e.size + bytes.length } :=
    { physical_le := by
        show e.physicalPos + (e.size + bytes.length).toNat ≤ (file ++ bytes).length
        rw [List.length_append]
        lia
      slice_eq := by
        show slice (file ++ bytes) e.physicalPos (e.size + bytes.length).toNat =
          slice content e.logicalPos (e.size + bytes.length).toNat
        have hn : (e.size + bytes.length).toNat = e.size.toNat + bytes.length := by lia
        have hp : e.physicalPos + e.size.toNat = file.length := by lia
        have hl : e.logicalPos + e.size.toNat = logicalPos := by lia
        have hnew : slice (file ++ bytes) file.length bytes.length = bytes := by
          simp [slice]
        rw [hn, slice_add, slice_add, (h.append bytes).slice_eq, hp, hl, hbytes, hnew] }
  apply hfull.shrink
  show ((e.size + bytes.length).bmod (2 ^ 32)).toNat ≤ (e.size + bytes.length).toNat
  have := bmod_le_self (x := e.size + bytes.length) (by lia) (2 ^ 32)
  lia

end CacheEntry.Faithful

/-- Every entry of the tree is faithful. -/
def CacheFaithful (inner : Inner) (c : Context) : Prop :=
  ∀ e ∈ c.root.elems, e.Faithful inner.content c.fd.content

/-- The invariant of the context: the file offset is where `cache_pos` says, and the
entries are faithful.  Nothing is said about the inner position. -/
structure Sound (inner : Inner) (c : Context) : Prop where
  offset_eq : c.fd.offset = c.cachePos
  entries : CacheFaithful inner c

theorem sound_cacheOpen (inner : Inner) (limit : Int) : Sound inner (cacheOpen limit) where
  offset_eq := rfl
  entries := by
    intro e he
    simp [cacheOpen] at he

/-! ## Adding an entry -/

theorem lookup_mem {e : CacheEntry} (h : c.lookup = some e) :
    e ∈ c.root.elems ∧ e.logicalPos ≤ c.logicalPos := by
  unfold Context.lookup at h
  dsimp only at h
  cases hf : (avTreeFind cmp c.logicalPos c.root ⟨none, none⟩).1 with
  | some x =>
    rw [hf, Option.some_or, Option.some.injEq] at h
    subst h
    obtain ⟨hmem, hcmp⟩ := avTreeFind_some hf
    refine ⟨hmem, ?_⟩
    unfold cmp at hcmp
    split_ifs at hcmp <;> lia
  | none =>
    rw [hf, Option.none_or] at h
    rcases avTreeFind_next0 h with hnone | ⟨hmem, hcmp⟩
    · cases hnone
    · refine ⟨hmem, ?_⟩
      unfold cmp at hcmp
      split_ifs at hcmp <;> lia

theorem recordEntry_frame (o : Outcome) (c : Context) (pos ret : Nat) :
    ∃ root, (recordEntry o c pos ret).2 = { c with root := root } := by
  unfold recordEntry
  dsimp only
  split
  · exact ⟨_, rfl⟩
  · split
    · exact ⟨_, rfl⟩
    · exact ⟨c.root, rfl⟩

variable {bytes : Bytes}

theorem faithful_new {content file : Bytes} {logicalPos : Nat}
    (hbytes : slice content logicalPos bytes.length = bytes) :
    CacheEntry.Faithful content (file ++ bytes) ⟨logicalPos, file.length, bytes.length⟩ where
  physical_le := by
    show file.length + (bytes.length : Int).toNat ≤ (file ++ bytes).length
    rw [Int.toNat_natCast, List.length_append]
  slice_eq := by
    show slice (file ++ bytes) file.length (bytes.length : Int).toNat =
      slice content logicalPos (bytes.length : Int).toNat
    rw [Int.toNat_natCast, hbytes]
    simp [slice]

/-- Recording bytes that were appended to the file keeps the entries faithful. -/
theorem faithful_recordEntry {file : Bytes}
    (hold : ∀ e ∈ c.root.elems, e.Faithful inner.content file)
    (hbytes : slice inner.content c.logicalPos bytes.length = bytes) :
    ∀ e ∈ (recordEntry o c file.length bytes.length).2.root.elems,
      e.Faithful inner.content (file ++ bytes) := by
  have hold' (e : CacheEntry) (he : e ∈ c.root.elems) :
      e.Faithful inner.content (file ++ bytes) := (hold e he).append bytes
  intro e he
  unfold recordEntry at he
  dsimp only at he
  cases hl : c.lookup.filter (·.endsAt c.logicalPos file.length) with
  | some entry =>
    -- the entry before the bytes is continued
    rw [hl] at he
    dsimp only at he
    rw [AVTree.elems_map, List.mem_map] at he
    obtain ⟨x, hx, rfl⟩ := he
    obtain ⟨hlookup, hends⟩ := Option.filter_eq_some_iff.mp hl
    split
    · next heq =>
      subst heq
      exact (hold x hx).extend hends hbytes
    · exact hold' x hx
  | none =>
    rw [hl] at he
    dsimp only at he
    split at he
    · -- a new entry is made
      rcases mem_avTreeInsert he with rfl | hmem
      · exact faithful_new hbytes
      · exact hold' e hmem
    · exact hold' e he

theorem sound_recordEntry {file : Bytes} (hoffset : c.fd.offset = c.cachePos)
    (hfile : c.fd.content = file ++ bytes)
    (hold : ∀ e ∈ c.root.elems, e.Faithful inner.content file)
    (hbytes : slice inner.content c.logicalPos bytes.length = bytes) :
    Sound inner (recordEntry o c file.length bytes.length).2 := by
  have hentries := faithful_recordEntry (o := o) hold hbytes
  obtain ⟨root, hroot⟩ := recordEntry_frame o c file.length bytes.length
  rw [hroot] at hentries ⊢
  refine ⟨hoffset, ?_⟩
  intro e he
  show e.Faithful inner.content c.fd.content
  rw [hfile]
  exact hentries e he

theorem addEntry_frame (o : Outcome) (c : Context) (buf : Bytes) :
    ∃ fd root cachePos,
      (addEntry o c buf).2 = { c with fd := fd, root := root, cachePos := cachePos } := by
  unfold addEntry
  dsimp only
  split
  · split
    · exact ⟨_, c.root, _, rfl⟩
    · obtain ⟨root, hroot⟩ := recordEntry_frame o _ _ _
      exact ⟨_, root, _, hroot⟩
  · exact ⟨c.fd, c.root, c.cachePos, rfl⟩

theorem sound_addEntry (h : Sound inner c) {buf : Bytes}
    (hbuf : slice inner.content c.logicalPos buf.length = buf) :
    Sound inner (addEntry o c buf).2 := by
  unfold addEntry
  dsimp only
  split
  · split
    · exact ⟨rfl, h.entries⟩
    · next n _ =>
      have hwritten : slice inner.content c.logicalPos (buf.take n).length = buf.take n := by
        have := congrArg (List.take n) hbuf
        rw [take_slice] at this
        rw [List.length_take, this]
      have hend : overwrite c.fd.content c.fd.content.length (buf.take n) =
          c.fd.content ++ buf.take n := by
        simp [overwrite]
      rw [hend]
      exact sound_recordEntry rfl rfl h.entries hwritten
  · exact h

/-! ## Reading -/

/-- The cache file gives nothing for a read of `size` bytes: no entry holds the
logical position, or the file does not answer. -/
def Context.misses (o : Outcome) (c : Context) (size : Nat) : Bool :=
  match c.lookup with
  | none => true
  | some entry =>
    let inBlockPos := c.logicalPos - entry.logicalPos
    decide (entry.size ≤ inBlockPos) ||
      (decide (c.cachePos ≠ entry.physicalPos + inBlockPos) && !o.seekSet) ||
      decide (o.readLen = 0) || decide (size = 0)

/-- A read that goes to the inner resource without seeking it finds it at the
position recorded for it. -/
def Fresh (o : Outcome) (c : Context) (size : Nat) : Prop :=
  c.misses o size = true → c.logicalPos = c.innerPos → c.innerOffset = c.innerPos

instance (o : Outcome) (c : Context) (size : Nat) : Decidable (Fresh o c size) :=
  inferInstanceAs (Decidable (_ → _ → _))

variable {size : Nat}

theorem readCached_hit {entry : CacheEntry} {k : Nat} (hoffset : c.fd.offset = c.cachePos)
    (hl : c.lookup = some entry) (hk : k = c.logicalPos - entry.logicalPos)
    (hhit : (k : Int) < entry.size ∧ (c.cachePos = entry.physicalPos + k ∨ o.seekSet = true)) :
    let bytes := slice c.fd.content (entry.physicalPos + k)
      (min o.readLen (min size (entry.size - k).toNat))
    readCached o c size = (bytes, { c with
      fd := ⟨c.fd.content, entry.physicalPos + k + bytes.length⟩
      cachePos := entry.physicalPos + k + bytes.length }) := by
  have htarget : (if c.cachePos ≠ entry.physicalPos + k then entry.physicalPos + k
      else c.fd.offset) = entry.physicalPos + k := by
    split <;> lia
  simp only [readCached, hl, ← hk, if_pos hhit, htarget]

/-- What the cache file gives are the bytes at the logical position, and only the
file offset moves. -/
theorem readCached_spec (h : Sound inner c) (o : Outcome) (size : Nat) :
    ∃ bytes fd cachePos, readCached o c size = (bytes, { c with fd := fd, cachePos := cachePos }) ∧
      bytes = slice inner.content c.logicalPos bytes.length ∧
      (bytes = [] → c.misses o size = true) ∧
      fd.content = c.fd.content ∧ fd.offset = cachePos := by
  cases hl : c.lookup with
  | none =>
    refine ⟨[], c.fd, c.cachePos, ?_, ?_, ?_, rfl, h.offset_eq⟩
    · simp only [readCached, hl]
    · simp
    · intro _
      simp only [Context.misses, hl]
  | some entry =>
    obtain ⟨hmem, hle⟩ := lookup_mem hl
    have hentry := h.entries entry hmem
    by_cases hhit : ((c.logicalPos - entry.logicalPos : Nat) : Int) < entry.size ∧
        (c.cachePos = entry.physicalPos + (c.logicalPos - entry.logicalPos) ∨ o.seekSet = true)
    · obtain ⟨k, hk⟩ : ∃ k, k = c.logicalPos - entry.logicalPos := ⟨_, rfl⟩
      rw [← hk] at hhit
      have hread : readCached o c size =
          (slice c.fd.content (entry.physicalPos + k)
            (min o.readLen (min size (entry.size - k).toNat)), _) :=
        readCached_hit h.offset_eq hl hk hhit
      have hpart := hentry.slice_part (k := k)
        (n := min o.readLen (min size (entry.size - k).toNat)) (by lia)
      rw [hk, Nat.add_sub_cancel' hle, ← hk] at hpart
      refine ⟨_, _, _, hread, ?_, ?_, rfl, rfl⟩
      · rw [hpart, slice_length]
      · intro hnil
        have hzero := congrArg List.length hnil
        rw [length_slice, List.length_nil] at hzero
        have hphysical := hentry.physical_le
        have hsize : o.readLen = 0 ∨ size = 0 := by lia
        simp only [Context.misses, hl, Bool.or_eq_true, decide_eq_true_eq]
        rcases hsize with hsize | hsize
        · exact Or.inl (Or.inr hsize)
        · exact Or.inr hsize
    · refine ⟨[], c.fd, c.cachePos, ?_, ?_, ?_, rfl, h.offset_eq⟩
      · simp only [readCached, hl, if_neg hhit]
      · simp
      · intro _
        simp only [Context.misses, hl, Bool.or_eq_true, Bool.and_eq_true, decide_eq_true_eq,
          Bool.not_eq_true']
        rw [not_and_or, not_or, Bool.not_eq_true] at hhit
        rcases hhit with hhit | hhit
        · exact Or.inl (Or.inl (Or.inl (by lia)))
        · exact Or.inl (Or.inl (Or.inr hhit))

/-- What a read of a context may do: it ends in a sound context, and the bytes it
returns are those at the logical position, which moves behind them. -/
structure ReadsContent (inner : Inner) (c : Context) (r : Except AVERROR Bytes × Context) :
    Prop where
  sound : Sound inner r.2
  bytes_eq : ∀ bytes, r.1 = .ok bytes →
    bytes = slice inner.content c.logicalPos bytes.length ∧
      r.2.logicalPos = c.logicalPos + bytes.length

theorem received_logicalPos (o : Outcome) (c : Context) (bytes : Bytes) :
    (c.received o bytes).logicalPos = c.logicalPos + bytes.length := by
  obtain ⟨fd, root, cachePos, hframe⟩ := addEntry_frame o
    { c with
      innerOffset := c.innerOffset + bytes.length
      innerPos := c.innerPos + bytes.length
      cacheMiss := c.cacheMiss + 1 } bytes
  simp only [Context.received, hframe]

theorem sound_received (h : Sound inner c)
    (hbytes : slice inner.content c.logicalPos bytes.length = bytes) :
    Sound inner (c.received o bytes) := by
  obtain ⟨s, hs⟩ : ∃ s : Context, s = { c with
    innerOffset := c.innerOffset + bytes.length
    innerPos := c.innerPos + bytes.length
    cacheMiss := c.cacheMiss + 1 } := ⟨_, rfl⟩
  have hsound : Sound inner s := by
    subst hs
    exact ⟨h.offset_eq, h.entries⟩
  have hpos : s.logicalPos = c.logicalPos := by rw [hs]
  rw [← hpos] at hbytes
  have hadd := sound_addEntry (o := o) hsound hbytes
  have hreceived : c.received o bytes = { (addEntry o s bytes).2 with
      logicalPos := (addEntry o s bytes).2.logicalPos + bytes.length
      endPos := max (addEntry o s bytes).2.endPos
        ((addEntry o s bytes).2.logicalPos + bytes.length) } := by
    rw [hs]
    rfl
  rw [hreceived]
  exact ⟨hadd.offset_eq, hadd.entries⟩

theorem readInner_at (o : Outcome) (h : Sound inner c) (hinner : c.innerPos = c.logicalPos)
    (hoffset : c.innerOffset = c.logicalPos) (size : Nat) :
    ReadsContent inner c (readInner inner o c size) := by
  unfold readInner
  rw [if_neg (by simp [hinner])]
  dsimp only
  rw [if_neg (by simp [hinner]), hoffset]
  cases hread : slice inner.content c.logicalPos (min o.innerLen size) with
  | nil => exact ⟨⟨h.offset_eq, h.entries⟩, fun _ hok => by simp at hok⟩
  | cons byte rest =>
    have hbytes : slice inner.content c.logicalPos (byte :: rest).length = byte :: rest := by
      rw [← hread, slice_length]
    refine ⟨sound_received h hbytes, ?_⟩
    intro bytes hok
    injection hok with hok
    subst hok
    exact ⟨hbytes.symm, received_logicalPos o c _⟩

/-- Reading at the inner resource gives the bytes at the logical position, unless
the recorded inner position is the logical one and wrong. -/
theorem readInner_spec (h : Sound inner c)
    (hfresh : c.logicalPos = c.innerPos → c.innerOffset = c.innerPos) (size : Nat) :
    ReadsContent inner c (readInner inner o c size) := by
  by_cases hpos : c.logicalPos = c.innerPos
  · exact readInner_at o h hpos.symm (by rw [hfresh hpos, hpos]) size
  · by_cases hreach : inner.reach c.logicalPos = true
    · -- the seek brings both positions to the logical one
      have heq : readInner inner o c size = readInner inner o
          { c with innerOffset := c.logicalPos, innerPos := c.logicalPos } size := by
        unfold readInner
        simp [hpos, hreach]
      rw [heq]
      have hsought := readInner_at o
        (c := { c with innerOffset := c.logicalPos, innerPos := c.logicalPos })
        (show Sound inner _ from ⟨h.offset_eq, h.entries⟩) rfl rfl size
      exact ⟨hsought.sound, hsought.bytes_eq⟩
    · unfold readInner
      rw [if_pos ⟨hpos, hreach⟩]
      exact ⟨h, fun _ hok => by simp at hok⟩

/-- `cache_read` in a sound context. -/
theorem cacheRead_spec (h : Sound inner c) (hfresh : Fresh (outcome c.clock) c size) :
    ReadsContent inner c (cacheRead inner outcome c size) := by
  unfold cacheRead
  dsimp only
  have hclock : Sound inner { c with clock := c.clock + 1 } := ⟨h.offset_eq, h.entries⟩
  obtain ⟨bytes, fd, cachePos, hread, hbytes, hmiss, hcontent, hoffset⟩ :=
    readCached_spec hclock (outcome c.clock) size
  rw [hread]
  have hentries : CacheFaithful inner
      { c with clock := c.clock + 1, fd := fd, cachePos := cachePos } := by
    intro e he
    show e.Faithful inner.content fd.content
    rw [hcontent]
    exact h.entries e he
  cases bytes with
  | nil =>
    dsimp only
    have hspec := readInner_spec (o := outcome c.clock)
      (c := { c with clock := c.clock + 1, fd := fd, cachePos := cachePos })
      (show Sound inner _ from ⟨hoffset, hentries⟩) (hfresh (hmiss rfl)) size
    exact ⟨hspec.sound, hspec.bytes_eq⟩
  | cons byte rest =>
    refine ⟨⟨hoffset, hentries⟩, ?_⟩
    intro bytes hok
    injection hok with hok
    subst hok
    exact ⟨hbytes, rfl⟩

/-! ## Seeking -/

/-- The condition on a read-ahead loop: each of its reads is `Fresh`. -/
def FreshAhead (inner : Inner) (outcome : Nat → Outcome) : Nat → Context → Nat → Prop
  | 0, _, _ => True
  | n + 1, c, pos =>
    c.logicalPos < pos → Fresh (outcome c.clock) c (min readAheadSize (pos - c.logicalPos)) ∧
      FreshAhead inner outcome n
        (cacheRead inner outcome c (min readAheadSize (pos - c.logicalPos))).2 pos

instance decidableFreshAhead (inner : Inner) (outcome : Nat → Outcome) :
    ∀ n c pos, Decidable (FreshAhead inner outcome n c pos)
  | 0, _, _ => .isTrue trivial
  | n + 1, c, pos =>
    letI := decidableFreshAhead inner outcome n
      (cacheRead inner outcome c (min readAheadSize (pos - c.logicalPos))).2 pos
    inferInstanceAs (Decidable (_ → _ ∧ _))

theorem sound_readAhead (n : Nat) {pos : Nat} (h : Sound inner c)
    (hfresh : FreshAhead inner outcome n c pos) :
    Sound inner (readAhead inner outcome n c pos).2 := by
  induction n generalizing c with
  | zero => exact h
  | succ n ih =>
    unfold readAhead
    split
    · next hlt =>
      obtain ⟨hread, hrest⟩ := hfresh hlt
      have hsound := (cacheRead_spec h hread).sound
      generalize cacheRead inner outcome c (min readAheadSize (pos - c.logicalPos)) = r
        at hsound hrest
      obtain ⟨ret, c'⟩ := r
      cases ret with
      | error e => exact hsound
      | ok bytes => exact ih hsound hrest
    · exact h

theorem readCached_logicalPos (o : Outcome) (c : Context) (size : Nat) :
    (readCached o c size).2.logicalPos = c.logicalPos := by
  unfold readCached
  split
  · rfl
  · dsimp only
    split <;> rfl

theorem readInner_advances (h : (readInner inner o c size).1 = .ok bytes) :
    c.logicalPos < (readInner inner o c size).2.logicalPos := by
  unfold readInner at h ⊢
  split at h
  · cases h
  · next hseek =>
    rw [if_neg hseek]
    obtain ⟨s, hs⟩ : ∃ s : Context, s = if c.logicalPos ≠ c.innerPos then
      { c with innerOffset := c.logicalPos, innerPos := c.logicalPos } else c := ⟨_, rfl⟩
    have hpos : s.logicalPos = c.logicalPos := by
      rw [hs]
      split <;> rfl
    rw [← hs] at h ⊢
    dsimp only at h ⊢
    cases hread : slice inner.content s.innerOffset (min o.innerLen size) with
    | nil =>
      rw [hread] at h
      cases h
    | cons byte rest =>
      show c.logicalPos < (s.received o (byte :: rest)).logicalPos
      rw [received_logicalPos, hpos, List.length_cons]
      lia

theorem cacheRead_advances (h : (cacheRead inner outcome c size).1 = .ok bytes) :
    c.logicalPos < (cacheRead inner outcome c size).2.logicalPos := by
  unfold cacheRead at h ⊢
  dsimp only at h ⊢
  have hpos := readCached_logicalPos (outcome c.clock) { c with clock := c.clock + 1 } size
  generalize readCached (outcome c.clock) { c with clock := c.clock + 1 } size = r at h hpos ⊢
  obtain ⟨hits, s⟩ := r
  have hpos : s.logicalPos = c.logicalPos := hpos
  cases hits with
  | nil =>
    rw [← hpos]
    exact readInner_advances h
  | cons byte rest =>
    show c.logicalPos < s.logicalPos + (rest.length + 1)
    lia

/-- A read-ahead with a round for each byte to go reports success only where it was
to stop. -/
theorem readAhead_ok {n p pos : Nat} (hn : pos - c.logicalPos ≤ n)
    (h : (readAhead inner outcome n c pos).1 = .ok p) : pos ≤ p := by
  induction n generalizing c with
  | zero =>
    injection h with h
    lia
  | succ n ih =>
    unfold readAhead at h
    split at h
    · generalize hr : cacheRead inner outcome c (min readAheadSize (pos - c.logicalPos)) = r at h
      have hadvance (bytes : Bytes) (hok : r.1 = .ok bytes) : c.logicalPos < r.2.logicalPos := by
        rw [← hr] at hok ⊢
        exact cacheRead_advances hok
      obtain ⟨ret, c'⟩ := r
      cases ret with
      | error e => cases h
      | ok bytes =>
        have := hadvance bytes rfl
        exact ih (by dsimp only at this; lia) h
    · injection h with h
      lia

/-- The condition on a call. -/
def FreshCall (inner : Inner) (outcome : Nat → Outcome) (c : Context) : Call → Prop
  | .read size => Fresh (outcome c.clock) c size
  | .seek pos whence =>
    inner.reach (c.target pos whence) = false → c.readsAhead (c.target pos whence) = true →
      FreshAhead inner outcome ((c.target pos whence).toNat - c.logicalPos) c
        (c.target pos whence).toNat

instance (inner : Inner) (outcome : Nat → Outcome) (c : Context) :
    ∀ call, Decidable (FreshCall inner outcome c call)
  | .read size => inferInstanceAs (Decidable (Fresh _ c size))
  | .seek _ _ => inferInstanceAs (Decidable (_ → _ → FreshAhead _ _ _ _ _))

theorem sound_cacheSeek (h : Sound inner c) {pos : Int} {whence : Whence}
    (hfresh : FreshCall inner outcome c (.seek pos whence)) :
    Sound inner (cacheSeek inner outcome c pos whence).2 := by
  unfold FreshCall at hfresh
  unfold cacheSeek
  dsimp only
  split
  · exact ⟨h.offset_eq, h.entries⟩
  · split
    · exact ⟨h.offset_eq, h.entries⟩
    · next hreach =>
      split
      · next hahead =>
        exact sound_readAhead _ h (hfresh (by simpa using hreach) hahead)
      · exact h

/-! ## Runs -/

/-- The bytes a call returns are the inner content's at the logical position before
it. -/
def Transparent (inner : Inner) (outcome : Nat → Outcome) (c : Context) : Call → Prop
  | .read size => ∀ bytes, (cacheRead inner outcome c size).1 = .ok bytes →
      bytes = slice inner.content c.logicalPos bytes.length
  | .seek _ _ => True

theorem sound_step {call : Call} (h : Sound inner c) (hfresh : FreshCall inner outcome c call) :
    Sound inner (step inner outcome c call) := by
  cases call with
  | read size => exact (cacheRead_spec h hfresh).sound
  | seek pos whence => exact sound_cacheSeek h hfresh

theorem transparent_of_sound {call : Call} (h : Sound inner c)
    (hfresh : FreshCall inner outcome c call) : Transparent inner outcome c call := by
  cases call with
  | read size =>
    intro bytes hok
    exact ((cacheRead_spec h hfresh).bytes_eq bytes hok).1
  | seek pos whence => trivial

/-- Transparency of the cache: in a run whose reads of the inner resource at the
recorded position find it there, every read returns the bytes of the inner content
at its logical position, and the entries are faithful before and after each call. -/
theorem cache_transparent (inner : Inner) (outcome : Nat → Outcome) (readAheadLimit : Int)
    (calls : List Call)
    (h : EachStep (step inner outcome) (FreshCall inner outcome) (cacheOpen readAheadLimit)
      calls) :
    EachStep (step inner outcome) (Transparent inner outcome) (cacheOpen readAheadLimit) calls ∧
      EachStep (step inner outcome) (fun c _ => CacheFaithful inner c)
        (cacheOpen readAheadLimit) calls ∧
      CacheFaithful inner (run (step inner outcome) (cacheOpen readAheadLimit) calls) := by
  have hinit := sound_cacheOpen inner readAheadLimit
  obtain ⟨hrun, hbefore⟩ := EachStep.invariant (fun c call => sound_step) hinit h
  refine ⟨?_, ?_, hrun.entries⟩
  · exact hbefore.map₂ (fun c call => transparent_of_sound) h
  · exact hbefore.map₂ (fun c call hsound _ => hsound.entries) h

/-- A resource that can be sought anywhere in its content and no further. -/
def fileInner (content : Bytes) : Inner where
  content := content
  reach pos := decide (0 ≤ pos) && decide (pos ≤ content.length)
  nonneg pos h := by
    rw [Bool.and_eq_true, decide_eq_true_eq] at h
    exact h.1
  seekable pos h := by
    rw [Bool.and_eq_true, decide_eq_true_eq, decide_eq_true_eq]
    lia

/-- Surroundings in which nothing fails, with an inner read of at most `n` bytes. -/
def workingOutcome (n : Nat) : Outcome := ⟨true, true, n, some n, true, n⟩

/-- Six bytes, read ahead and reread with a seek back into what is cached. -/
theorem cache_transparent_six :
    let step := step (fileInner [0, 1, 2, 3, 4, 5]) fun _ => workingOutcome 3
    let calls : List Call := [.read 2, .seek (-1) .seekCur, .read 4, .read 4]
    EachStep step (Transparent (fileInner [0, 1, 2, 3, 4, 5]) fun _ => workingOutcome 3)
        (cacheOpen 65536) calls ∧
      EachStep step (fun c _ => CacheFaithful (fileInner [0, 1, 2, 3, 4, 5]) c)
        (cacheOpen 65536) calls ∧
      CacheFaithful (fileInner [0, 1, 2, 3, 4, 5]) (run step (cacheOpen 65536) calls) :=
  cache_transparent _ _ 65536 _
    ⟨by decide, by decide, by decide, by decide, trivial⟩

/-- A byte is read, the inner resource is sought to the known end and beyond it, and
the reader goes back to where it was: it gets the last byte for the second. -/
theorem not_cache_transparent :
    ¬ ∀ (inner : Inner) (outcome : Nat → Outcome) (readAheadLimit : Int) (calls : List Call),
      EachStep (step inner outcome) (Transparent inner outcome) (cacheOpen readAheadLimit) calls ∧
      EachStep (step inner outcome) (fun c _ => CacheFaithful inner c)
        (cacheOpen readAheadLimit) calls ∧
      CacheFaithful inner (run (step inner outcome) (cacheOpen readAheadLimit) calls) := by
  intro h
  have hread := (h (fileInner [0, 1, 2, 3, 4, 5]) (fun _ => workingOutcome 6) 65536
    [.read 1, .seek 5 .seekSet, .seek 1 .seekSet, .read 1]).1.2.2.2.1
  have hbyte := hread [5] (by decide)
  revert hbyte
  decide

end FFmpeg.Libavformat.Cache
