import Mathlib.Logic.Relation
import FFmpeg.Libavutil.Buffer

/-!
# References to buffers have value semantics

What a reference shows changes only when somebody does something with this reference:
the other references to the same buffer keep the bytes and the size they show.  The
reference count of a buffer is the number of live references to it, and the `free` of a
buffer is called once, by the step that drops the last of them.  The reference count has
32 bits; this holds as long as it does not wrap around.
-/

namespace FFmpeg.Libavutil.BufferValues

open Common Buffer

variable {Arg Free : Type}

/-! ## What is promised -/

/-- How many live references there are to a buffer. -/
def references (s : State Arg Free) (b : Nat) : Nat :=
  s.refs.count fun ref => ref.buffer == b

/-- The bytes a reference shows. -/
def view (s : State Arg Free) (p : Nat) : Option Bytes :=
  (s.refs.load p).bind fun ref => readAt s.blocks ref.data ref.offset ref.size.toNat

/-- A reference is as it was and shows what it showed. -/
def Same (s t : State Arg Free) (p : Nat) : Prop :=
  t.refs.load p = s.refs.load p ∧ view t p = view s p

/-- A reference nobody has dropped. -/
def Live (s : State Arg Free) (p : Nat) : Prop :=
  (s.refs.load p).isSome

/-- The buffers created so far, each with its `free` and `opaque`. -/
def created (events : List (Event Arg Free)) : List (Nat × Option Free × Option Arg) :=
  events.filterMap fun
    | .created p free arg => some (p, free, arg)
    | _ => none

/-- The calls of a `free` so far. -/
def freed (events : List (Event Arg Free)) : List (Nat × Option Free × Option Arg) :=
  events.filterMap fun
    | .freed p free arg _ => some (p, free, arg)
    | _ => none

/-- The reference an action may change. -/
def target : Action Arg Free → Option Nat
  | .unref p => some p
  | .makeWritable _ p => some p
  | .realloc _ p _ => p
  | .describe p _ _ => some p
  | .write p _ _ => some p
  | _ => none

/-- The variable of the caller that a function may change. -/
def variablePassed : Action Arg Free → Option Nat
  | .makeWritable _ p => some p
  | .realloc _ p _ => p
  | _ => none

/-- The values of an `int`. -/
def IsInt (size : Int) : Prop :=
  -2 ^ 31 ≤ size ∧ size < 2 ^ 31

/-- What the functions ask of their callers: a reference passed in is live, a block has
the size it is said to have, a reference is made to describe a part of its buffer, and
bytes are written inside of what a writable reference shows. -/
def Legal (s : State Arg Free) : Action Arg Free → Prop
  | .create _ block size _ _ _ => 0 ≤ size ∧ IsInt size ∧ size.toNat ≤ block.length
  | .alloc _ size => IsInt size
  | .ref _ p => Live s p
  | .unref p => Live s p
  | .makeWritable _ p => Live s p
  | .realloc _ p size => IsInt size ∧ ∀ q, p = some q → Live s q
  | .describe p offset size => ∃ ref buf, s.refs.load p = some ref ∧
      s.buffers.load ref.buffer = some buf ∧ 0 ≤ size ∧ offset + size ≤ buf.size
  | .write p offset src => avBufferIsWritable s p = some true ∧
      ∃ ref, s.refs.load p = some ref ∧ (offset + src.length : Int) ≤ ref.size

/-- A function returned a new reference, which shows `bytes`. -/
def ShowsNew (s : State Arg Free) (r : Result Arg Free) (bytes : Option Bytes) : Prop :=
  ∃ q, r.ref = some q ∧ s.refs.load q = none ∧ view r.state q = bytes

/-- What a step that succeeds does. -/
def Does (s : State Arg Free) : Action Arg Free → Result Arg Free → Prop
  | .create _ block size _ _ _, r => ShowsNew s r (some (block.take size.toNat))
  | .alloc _ size, r => ∃ bytes, bytes.length = size.toNat ∧ ShowsNew s r (some bytes)
  | .ref _ p, r => ShowsNew s r (view s p)
  | .unref p, r => r.state.refs.load p = none
  | .makeWritable _ p, r => view r.state p = view s p ∧ avBufferIsWritable r.state p = some true
  | .realloc _ none size, r => ∃ bytes, bytes.length = size.toNat ∧ ShowsNew s r (some bytes)
  | .realloc _ (some p) size, r => ∃ old new, view s p = some old ∧
      view r.state p = some new ∧ new.length = size.toNat ∧
      new.take (min old.length size.toNat) = old.take (min old.length size.toNat)
  | .describe p offset size, r => ∀ ref, s.refs.load p = some ref →
      r.state.refs.load p = some ⟨ref.buffer, ref.data, offset, size⟩
  | .write p offset src, r => ∃ old, view s p = some old ∧
      view r.state p = some (overwrite old offset src)

/-- What a step promises. -/
structure Meets (s : State Arg Free) (a : Action Arg Free) (r : Result Arg Free) : Prop where
  /-- the other references are as they were -/
  others : ∀ p, Live s p → target a ≠ some p → Same s r.state p
  code : r.ret = 0 ∨ r.ret = AVERROR.enomem.toInt
  /-- on failure all references are as they were, and so is the variable passed in -/
  failed : r.ret ≠ 0 → (∀ p, Live s p → Same s r.state p) ∧ r.ref = variablePassed a
  done : r.ret = 0 → Does s a r

/-- What holds in every state. -/
structure Sound (s : State Arg Free) : Prop where
  refcount : ∀ b buf, s.buffers.load b = some buf →
    buf.refcount.toNat = references s b ∧ 0 < references s b
  /-- a live reference is to a live buffer, and what it shows is as long as it says -/
  shown : ∀ p ref, s.refs.load p = some ref → (s.buffers.load ref.buffer).isSome ∧
    0 ≤ ref.size ∧ ∃ bytes, view s p = some bytes ∧ bytes.length = ref.size.toNat
  fresh : ((created s.events).map (·.1)).Nodup
  /-- `free` was called once for each buffer without a reference, and for no other -/
  freed : (freed s.events).Perm ((created s.events).filter fun c => references s c.1 = 0)

/-- The reference count has room for what the step takes. -/
def Fits (s : State Arg Free) : Action Arg Free → Prop
  | .ref memory p => memory.ref = true →
      ∀ ref, s.refs.load p = some ref → references s ref.buffer + 1 < 2 ^ 32
  | _ => True

/-- A step of anybody. -/
def Moves (s t : State Arg Free) : Prop :=
  ∃ a r, Legal s a ∧ step s a = some r ∧ r.state = t

/-- A step that fits. -/
def MovesFitting (s t : State Arg Free) : Prop :=
  ∃ a r, Legal s a ∧ Fits s a ∧ step s a = some r ∧ r.state = t

/-! ## Views and events -/

section Views

variable {s t u : State Arg Free} {p : Nat} {ref : AVBufferRef}

theorem live_iff : Live s p ↔ ∃ ref, s.refs.load p = some ref :=
  Option.isSome_iff_exists

theorem live_of_load (hp : s.refs.load p = some ref) : Live s p :=
  live_iff.mpr ⟨ref, hp⟩

theorem view_eq (hp : s.refs.load p = some ref) :
    view s p = readAt s.blocks ref.data ref.offset ref.size.toNat := by
  rw [view, hp, Option.bind_some]

theorem Same.refl (s : State Arg Free) (p : Nat) : Same s s p :=
  ⟨rfl, rfl⟩

theorem Same.trans (hst : Same s t p) (htu : Same t u p) : Same s u p :=
  ⟨htu.1.trans hst.1, htu.2.trans hst.2⟩

theorem Same.live (hst : Same s t p) (hp : Live s p) : Live t p := by
  rw [Live, hst.1]
  exact hp

theorem same_of_block (hp : s.refs.load p = some ref) (href : t.refs.load p = some ref)
    (hblock : t.blocks.load ref.data = s.blocks.load ref.data) : Same s t p := by
  refine ⟨by rw [href, hp], ?_⟩
  rw [view_eq hp, view_eq href, readAt, readAt, hblock]

variable {blocks : Cells Bytes}

theorem readAt_eq {data offset n : Nat} {block : Bytes} (hblock : blocks.load data = some block)
    (hn : offset + n ≤ block.length) :
    readAt blocks data offset n = some (slice block offset n) := by
  rw [readAt, hblock, Option.bind_some, if_pos hn]

theorem writeAt_eq {data offset : Nat} {block src : Bytes} (hblock : blocks.load data = some block)
    (hn : offset + src.length ≤ block.length) :
    writeAt blocks data offset src = some (blocks.store data (overwrite block offset src)) := by
  rw [writeAt, hblock, Option.bind_some, if_pos hn]

variable (events more : List (Event Arg Free))

@[simp] theorem created_append : created (events ++ more) = created events ++ created more :=
  List.filterMap_append

@[simp] theorem freed_append : freed (events ++ more) = freed events ++ freed more :=
  List.filterMap_append

end Views

/-! ## The ledger -/

/-- A reference describes a part of a buffer. -/
structure InBuffer (ref : AVBufferRef) (buf : AVBuffer Arg Free) : Prop where
  data : ref.data = buf.data
  size : 0 ≤ ref.size
  inside : ref.offset + ref.size ≤ buf.size

/-- How many of the references that are not in the memory any more, but still counted,
are to a buffer. -/
def heldCount (held : Option Nat) (b : Nat) : Nat :=
  if held = some b then 1 else 0

/-- The counts cover the references in memory and the one that is `held`, every buffer
has a block of its own, and the buffers that are gone have been freed. -/
structure Ledger (s : State Arg Free) (held : Option Nat) : Prop where
  refs : ∀ p ref, s.refs.load p = some ref →
    ∃ buf, s.buffers.load ref.buffer = some buf ∧ InBuffer ref buf
  count : ∀ b buf, s.buffers.load b = some buf →
    buf.refcount.toNat = references s b + heldCount held b ∧ 0 < buf.refcount.toNat
  block : ∀ b buf, s.buffers.load b = some buf → 0 ≤ buf.size ∧ buf.size < 2 ^ 31 ∧
    ∃ block, s.blocks.load buf.data = some block ∧ buf.size.toNat ≤ block.length
  exclusive : ∀ b c buf buf', s.buffers.load b = some buf → s.buffers.load c = some buf' →
    buf.data = buf'.data → b = c
  fresh : ((created s.events).map (·.1)).Nodup
  old : ∀ c ∈ created s.events, c.1 < s.buffers.next
  alive : ∀ b buf, s.buffers.load b = some buf → (b, buf.free, buf.arg) ∈ created s.events
  freed : (freed s.events).Perm
    ((created s.events).filter fun c => (s.buffers.load c.1).isNone)

section Ledger

variable {s : State Arg Free} {held : Option Nat} {p : Nat} {ref : AVBufferRef}

theorem ledger_initial : Ledger (initial : State Arg Free) none where
  refs := fun _ _ h => absurd h (by simp [initial])
  count := fun _ _ h => absurd h (by simp [initial])
  block := fun _ _ h => absurd h (by simp [initial])
  exclusive := fun _ _ _ _ h => absurd h (by simp [initial])
  fresh := List.nodup_nil
  old := List.forall_mem_nil _
  alive := fun _ _ h => absurd h (by simp [initial])
  freed := List.Perm.refl []

theorem Ledger.shown (h : Ledger s held) (hp : s.refs.load p = some ref) :
    ∃ block, s.blocks.load ref.data = some block ∧ ref.offset + ref.size.toNat ≤ block.length ∧
      view s p = some (slice block ref.offset ref.size.toNat) := by
  obtain ⟨buf, hbuf, hin⟩ := h.refs p ref hp
  obtain ⟨hsize, _, block, hblock, hle⟩ := h.block ref.buffer buf hbuf
  have hinside := hin.inside
  have hnonneg := hin.size
  have hroom : ref.offset + ref.size.toNat ≤ block.length := by lia
  rw [← hin.data] at hblock
  exact ⟨block, hblock, hroom, by rw [view_eq hp, readAt_eq hblock hroom]⟩

variable {q : Nat} {new : AVBufferRef}

theorem eq_of_references_eq_one (hp : s.refs.load p = some ref) (hone : references s ref.buffer = 1)
    (hq : s.refs.load q = some new) (hbuffer : new.buffer = ref.buffer) : q = p := by
  by_contra hne
  have hfree := Cells.count_free (fun r => r.buffer == ref.buffer) hp
  rw [if_pos (beq_self_eq_true _)] at hfree
  have hpos : 0 < (s.refs.free p).count fun r => r.buffer == ref.buffer := by
    refine Cells.count_pos_iff.mpr ⟨q, new, ?_, beq_iff_eq.mpr hbuffer⟩
    rw [Cells.load_free_of_ne _ hne]
    exact hq
  rw [references] at hone
  lia

theorem references_pos (hp : s.refs.load p = some ref) : 0 < references s ref.buffer :=
  Cells.count_pos_iff.mpr ⟨p, ref, hp, beq_self_eq_true _⟩

variable {b : Nat} {buf : AVBuffer Arg Free} {refs : Cells AVBufferRef} {held' : Option Nat}

/-- One buffer changes, and with it blocks and references, so that the counts still agree and
the buffer still has a block of its own. -/
theorem Ledger.setBuffer (h : Ledger s held) (hbuf : s.buffers.load b = some buf)
    (buf' : AVBuffer Arg Free) (hfree : buf'.free = buf.free) (harg : buf'.arg = buf.arg)
    {blocks : Cells Bytes}
    (hrefs : ∀ p ref, refs.load p = some ref → (ref.buffer = b ∧ InBuffer ref buf') ∨ (ref.buffer ≠ b ∧ ∃ q, s.refs.load q = some ref))
    (hself : buf'.refcount.toNat = (refs.count fun ref => ref.buffer == b) + heldCount held' b)
    (hpos : 0 < buf'.refcount.toNat)
    (hother : ∀ c, c ≠ b → (refs.count fun ref => ref.buffer == c) + heldCount held' c = references s c + heldCount held c)
    (hblock : 0 ≤ buf'.size ∧ buf'.size < 2 ^ 31 ∧ ∃ block, blocks.load buf'.data = some block ∧ buf'.size.toNat ≤ block.length)
    (hkeep : ∀ c new, c ≠ b → s.buffers.load c = some new → blocks.load new.data = s.blocks.load new.data ∧ new.data ≠ buf'.data) :
    Ledger { s with
      blocks := blocks
      refs := refs
      buffers := s.buffers.store b buf' } held' := by
  have hcases : ∀ c new, (s.buffers.store b buf').load c = some new →
      (c = b ∧ new = buf') ∨ (c ≠ b ∧ s.buffers.load c = some new) := by
    intro c new hload
    by_cases hc : c = b
    · rw [hc, Cells.load_store_self hbuf] at hload
      exact .inl ⟨hc, (Option.some.inj hload).symm⟩
    · rw [Cells.load_store_of_ne _ _ hc] at hload
      exact .inr ⟨hc, hload⟩
  refine ⟨?_, ?_, ?_, ?_, h.fresh, ?_, ?_, ?_⟩
  · intro p ref hp
    rcases hrefs p ref hp with ⟨hb, hin⟩ | ⟨hb, q, hq⟩
    · exact ⟨buf', by rw [hb]; exact Cells.load_store_self hbuf _, hin⟩
    · obtain ⟨old, hold, hin⟩ := h.refs q ref hq
      exact ⟨old, (Cells.load_store_of_ne _ _ hb).trans hold, hin⟩
  · intro c new hnew
    rcases hcases c new hnew with ⟨rfl, rfl⟩ | ⟨hc, hold⟩
    · exact ⟨hself, hpos⟩
    · obtain ⟨hcount, hcpos⟩ := h.count c new hold
      exact ⟨hcount.trans (hother c hc).symm, hcpos⟩
  · intro c new hnew
    rcases hcases c new hnew with ⟨rfl, rfl⟩ | ⟨hc, hold⟩
    · exact hblock
    · obtain ⟨hnonneg, hsmall, old, hload, hle⟩ := h.block c new hold
      exact ⟨hnonneg, hsmall, old, (hkeep c new hc hold).1.trans hload, hle⟩
  · intro c d new new' hnew hnew' heq
    rcases hcases c new hnew with ⟨rfl, rfl⟩ | ⟨hc, hold⟩
    · rcases hcases d new' hnew' with ⟨rfl, rfl⟩ | ⟨hd, hold'⟩
      · rfl
      · exact absurd heq.symm (hkeep d new' hd hold').2
    · rcases hcases d new' hnew' with ⟨rfl, rfl⟩ | ⟨hd, hold'⟩
      · exact absurd heq (hkeep c new hc hold).2
      · exact h.exclusive c d new new' hold hold' heq
  · intro c hc
    rw [Cells.next_store]
    exact h.old c hc
  · intro c new hnew
    rcases hcases c new hnew with ⟨rfl, rfl⟩ | ⟨_, hold⟩
    · rw [hfree, harg]
      exact h.alive c buf hbuf
    · exact h.alive c new hold
  · have hnone : ∀ c, ((s.buffers.store b buf').load c).isNone = (s.buffers.load c).isNone := by
      intro c
      by_cases hc : c = b
      · rw [hc, Cells.load_store_self hbuf, hbuf]
        rfl
      · rw [Cells.load_store_of_ne _ _ hc]
    simp only [hnone]
    exact h.freed

/-- With another reference count, other references and another one held, where the counts
still agree. -/
theorem Ledger.setRefcount (h : Ledger s held) (hbuf : s.buffers.load b = some buf) {n : UInt32}
    (hrefs : ∀ p ref, refs.load p = some ref → ∃ q, s.refs.load q = some ref)
    (hself : n.toNat = (refs.count fun ref => ref.buffer == b) + heldCount held' b)
    (hpos : 0 < n.toNat)
    (hother : ∀ c, c ≠ b → (refs.count fun ref => ref.buffer == c) + heldCount held' c = references s c + heldCount held c) :
    Ledger { s with
      refs := refs
      buffers := s.buffers.store b { buf with refcount := n } } held' := by
  refine h.setBuffer hbuf { buf with refcount := n } rfl rfl ?_ hself hpos hother
    (h.block b buf hbuf) ?_
  · intro p ref hp
    obtain ⟨q, hq⟩ := hrefs p ref hp
    by_cases hb : ref.buffer = b
    · obtain ⟨old, hold, hin⟩ := h.refs q ref hq
      rw [hb, hbuf] at hold
      cases hold
      exact .inl ⟨hb, hin.data, hin.size, hin.inside⟩
    · exact .inr ⟨hb, q, hq⟩
  · intro c new hc hnew
    exact ⟨rfl, fun heq => hc (h.exclusive c b new buf hnew hbuf heq)⟩

theorem Ledger.setRefs (h : Ledger s held)
    (hrefs : ∀ p ref, refs.load p = some ref → ∃ buf, s.buffers.load ref.buffer = some buf ∧ InBuffer ref buf)
    (hcount : ∀ b, (refs.count fun ref => ref.buffer == b) + heldCount held' b = references s b + heldCount held b) :
    Ledger { s with refs := refs } held' where
  refs := hrefs
  count := fun b buf hbuf =>
    ⟨(h.count b buf hbuf).1.trans (hcount b).symm, (h.count b buf hbuf).2⟩
  block := h.block
  exclusive := h.exclusive
  fresh := h.fresh
  old := h.old
  alive := h.alive
  freed := h.freed

theorem filter_insert_perm {β : Type} {l : List (Nat × β)} (hnodup : (l.map (·.1)).Nodup) {x : β}
    (hmem : (b, x) ∈ l) {P Q : Nat → Bool} (hold : P b = false) (hnew : Q b = true)
    (hother : ∀ c, c ≠ b → Q c = P c) :
    ((l.filter fun c => P c.1) ++ [(b, x)]).Perm (l.filter fun c => Q c.1) := by
  induction l with
  | nil => cases hmem
  | cons c l ih =>
    obtain ⟨hnot, hnodup⟩ := List.nodup_cons.mp hnodup
    rw [List.filter_cons, List.filter_cons]
    rcases List.mem_cons.mp hmem with rfl | hmem
    · have hsame : (l.filter fun c => Q c.1) = l.filter fun c => P c.1 := by
        apply List.filter_congr
        intro d hd
        apply hother
        intro hdb
        exact hnot (List.mem_map.mpr ⟨d, hd, hdb⟩)
      rw [if_pos hnew, if_neg (by rw [hold]; exact Bool.false_ne_true), hsame]
      exact List.perm_append_singleton _ _
    · have hne : c.1 ≠ b := fun hcb => hnot (List.mem_map.mpr ⟨(b, x), hmem, hcb.symm⟩)
      rw [hother _ hne]
      split_ifs with hc
      · exact (ih hnodup hmem).cons c
      · exact ih hnodup hmem

/-- A buffer to which there are no references in memory goes, with its block. -/
theorem Ledger.freeBuffer (h : Ledger s held) (hbuf : s.buffers.load b = some buf)
    (hnone : references s b = 0) (hheld : ∀ c, c ≠ b → heldCount held c = 0) :
    ∃ t, freeBuffer s b buf = some t ∧ Ledger t none ∧ t.refs = s.refs ∧
      (∀ p, Live s p → Same s t p) ∧ ∀ c, c ≠ b → t.buffers.load c = s.buffers.load c := by
  obtain ⟨_, _, block, hblock, _⟩ := h.block b buf hbuf
  have hbuffer : ∀ p ref, s.refs.load p = some ref → ref.buffer ≠ b := by
    intro p ref hp hb
    have hpos := references_pos hp
    rw [hb] at hpos
    lia
  have hdata : ∀ c new, c ≠ b → s.buffers.load c = some new → new.data ≠ buf.data :=
    fun c new hc hnew heq => hc (h.exclusive c b new buf hnew hbuf heq)
  have hfree : Buffer.freeBuffer s b buf = some { s with
      blocks := s.blocks.free buf.data
      buffers := s.buffers.free b
      events := s.events ++ [.freed b buf.free buf.arg buf.data] } := by
    rw [Buffer.freeBuffer, hblock, Option.map_some]
  refine ⟨_, hfree, ?_, rfl, ?_, ?_⟩
  · refine ⟨?_, ?_, ?_, ?_, ?_, ?_, ?_, ?_⟩
    · intro p ref hp
      obtain ⟨old, hold, hin⟩ := h.refs p ref hp
      exact ⟨old, (Cells.load_free_of_ne _ (hbuffer p ref hp)).trans hold, hin⟩
    · intro c new hnew
      have hc := Cells.ne_of_load_free hnew
      obtain ⟨hcount, hpos⟩ := h.count c new (Cells.load_of_load_free hnew)
      rw [hheld c hc] at hcount
      exact ⟨hcount, hpos⟩
    · intro c new hnew
      have hold := Cells.load_of_load_free hnew
      have hne := hdata c new (Cells.ne_of_load_free hnew) hold
      obtain ⟨hnonneg, hsmall, block, hblock, hle⟩ := h.block c new hold
      exact ⟨hnonneg, hsmall, block, (Cells.load_free_of_ne _ hne).trans hblock, hle⟩
    · intro c d new new' hnew hnew'
      exact h.exclusive c d new new' (Cells.load_of_load_free hnew)
        (Cells.load_of_load_free hnew')
    · simpa [created] using h.fresh
    · simpa [created] using h.old
    · intro c new hnew
      simpa [created] using h.alive c new (Cells.load_of_load_free hnew)
    · rw [created_append, freed_append]
      show (BufferValues.freed s.events ++ [(b, buf.free, buf.arg)]).Perm
        ((created s.events ++ []).filter fun c => ((s.buffers.free b).load c.1).isNone)
      rw [List.append_nil]
      refine (h.freed.append_right _).trans ?_
      refine filter_insert_perm (P := fun c => (s.buffers.load c).isNone)
        (Q := fun c => ((s.buffers.free b).load c).isNone) h.fresh (h.alive b buf hbuf) ?_ ?_ ?_
      · rw [hbuf]
        rfl
      · rw [Cells.load_free_self]
        rfl
      · intro c hc
        rw [Cells.load_free_of_ne _ hc]
  · intro p hlive
    obtain ⟨ref, hp⟩ := live_iff.mp hlive
    obtain ⟨new, hnew, hin⟩ := h.refs p ref hp
    refine same_of_block hp hp (Cells.load_free_of_ne _ ?_)
    rw [hin.data]
    exact hdata ref.buffer new (hbuffer p ref hp) hnew
  · intro c hc
    exact Cells.load_free_of_ne _ hc

/-- Dropping the reference that is held leaves all references in memory as they are. -/
theorem Ledger.unref (h : Ledger s (some b)) (hbuf : s.buffers.load b = some buf) :
    ∃ t, bufferUnref s b = some t ∧ Ledger t none ∧ t.refs = s.refs ∧
      (∀ p, Live s p → Same s t p) ∧ ∀ c, c ≠ b → t.buffers.load c = s.buffers.load c := by
  obtain ⟨hcount, hpos⟩ := h.count b buf hbuf
  have hself : heldCount (some b) b = 1 := if_pos rfl
  have hheld : ∀ c, c ≠ b → heldCount (some b) c = 0 := by
    intro c hc
    exact if_neg fun heq => hc (Option.some.inj heq).symm
  rw [hself] at hcount
  by_cases hone : buf.refcount = 1
  · have hnone : references s b = 0 := by
      rw [hone] at hcount
      exact (Nat.succ.inj hcount).symm
    rw [bufferUnref, hbuf, Option.bind_some, if_pos hone]
    exact h.freeBuffer hbuf hnone hheld
  · have hne : buf.refcount.toNat ≠ 1 := fun heq => hone (UInt32.toNat_inj.mp heq)
    have hsub : (buf.refcount - 1).toNat = references s b := by
      have hle : (1 : UInt32) ≤ buf.refcount := UInt32.le_iff_toNat_le.mpr hpos
      rw [UInt32.toNat_sub_of_le _ _ hle, hcount]
      exact Nat.add_sub_cancel _ _
    have hdrop : bufferUnref s b = some { s with
        buffers := s.buffers.store b { buf with refcount := buf.refcount - 1 } } := by
      rw [bufferUnref, hbuf, Option.bind_some, if_neg hone]
    refine ⟨_, hdrop, ?_, rfl, ?_, ?_⟩
    · refine h.setRefcount hbuf (fun p ref hp => ⟨p, hp⟩) ?_ ?_ ?_
      · exact hsub
      · lia
      · intro c hc
        rw [hheld c hc]
        rfl
    · intro p hlive
      exact ⟨rfl, rfl⟩
    · intro c hc
      exact Cells.load_store_of_ne _ _ hc

/-! ## Dropping and replacing a reference -/

theorem heldCount_buffer (ref : AVBufferRef) (b : Nat) :
    heldCount (some ref.buffer) b = if ref.buffer == b then 1 else 0 := by
  simp [heldCount]

theorem Ledger.drop (h : Ledger s none) (hp : s.refs.load p = some ref) :
    Ledger { s with refs := s.refs.free p } (some ref.buffer) := by
  refine h.setRefs ?_ ?_
  · intro q new hq
    exact h.refs q new (Cells.load_of_load_free hq)
  · intro b
    rw [heldCount_buffer]
    exact Cells.count_free (fun ref => ref.buffer == b) hp

theorem Ledger.avBufferUnref (h : Ledger s none) (hp : s.refs.load p = some ref) :
    ∃ t, avBufferUnref s p = some t ∧ Ledger t none ∧ t.refs.load p = none ∧
      ∀ q, Live s q → q ≠ p → Same s t q := by
  obtain ⟨buf, hbuf, _⟩ := h.refs p ref hp
  obtain ⟨t, ht, hled, hrefs, hsame, _⟩ := (h.drop hp).unref hbuf
  refine ⟨t, ?_, hled, ?_, ?_⟩
  · rw [Buffer.avBufferUnref, bufferReplace, hp, Option.bind_some]
    exact ht
  · rw [hrefs]
    exact Cells.load_free_self _ _
  · intro q hlive hq
    obtain ⟨old, hold⟩ := live_iff.mp hlive
    have hold' := (Cells.load_free_of_ne s.refs hq).trans hold
    have hdrop : Same s { s with refs := s.refs.free p } q := same_of_block hold hold' rfl
    exact hdrop.trans (hsame q (live_of_load hold'))

theorem Ledger.move (h : Ledger s none) (hp : s.refs.load p = some ref)
    (hq : s.refs.load q = some new) (hne : p ≠ q) :
    Ledger { s with refs := (s.refs.store p new).free q } (some ref.buffer) := by
  have hq' : (s.refs.store p new).load q = some new :=
    (Cells.load_store_of_ne _ _ (Ne.symm hne)).trans hq
  refine h.setRefs ?_ ?_
  · intro r moved hr
    have hr := Cells.load_of_load_free hr
    by_cases hrp : r = p
    · rw [hrp, Cells.load_store_self hp] at hr
      cases hr
      exact h.refs q new hq
    · rw [Cells.load_store_of_ne _ _ hrp] at hr
      exact h.refs r moved hr
  · intro b
    have hstore := Cells.count_store (fun ref => ref.buffer == b) hp new
    have hfree := Cells.count_free (fun ref => ref.buffer == b) hq'
    rw [heldCount_buffer]
    show _ = (s.refs.count fun ref => ref.buffer == b) + 0
    lia

theorem Ledger.replace (h : Ledger s none) (hp : s.refs.load p = some ref)
    (hq : s.refs.load q = some new) (hne : p ≠ q) :
    ∃ t, bufferReplace s p (some q) = some t ∧ Ledger t none ∧
      t.refs.load p = some new ∧ view t p = view s q ∧
      (∀ r, Live s r → r ≠ p → r ≠ q → Same s t r) ∧
      ∀ c, c ≠ ref.buffer → t.buffers.load c = s.buffers.load c := by
  obtain ⟨buf, hbuf, _⟩ := h.refs p ref hp
  obtain ⟨t, ht, hled, hrefs, hsame, hother⟩ := (h.move hp hq hne).unref hbuf
  have hself : ((s.refs.store p new).free q).load p = some new :=
    (Cells.load_free_of_ne _ hne).trans (Cells.load_store_self hp new)
  refine ⟨t, ?_, hled, ?_, ?_, ?_, hother⟩
  · rw [bufferReplace, hp, Option.bind_some]
    show ((s.refs.load q).bind fun new => _) = _
    rw [hq, Option.bind_some]
    exact ht
  · rw [hrefs]
    exact hself
  · rw [(hsame p (live_of_load hself)).2, view_eq hself, view_eq hq]
  · intro r hlive hrp hrq
    obtain ⟨old, hold⟩ := live_iff.mp hlive
    have hold' : ((s.refs.store p new).free q).load r = some old :=
      (Cells.load_free_of_ne _ hrq).trans ((Cells.load_store_of_ne _ _ hrp).trans hold)
    have hmove : Same s { s with refs := (s.refs.store p new).free q } r :=
      same_of_block hold hold' rfl
    exact hmove.trans (hsame r (live_of_load hold'))

/-! ## New buffers -/

theorem Ledger.allocBlock (h : Ledger s held) (block : Bytes) :
    Ledger { s with blocks := s.blocks.alloc block } held where
  refs := h.refs
  count := h.count
  block := by
    intro b buf hbuf
    obtain ⟨hnonneg, hsmall, old, hold, hle⟩ := h.block b buf hbuf
    exact ⟨hnonneg, hsmall, old, Cells.load_alloc hold block, hle⟩
  exclusive := h.exclusive
  fresh := h.fresh
  old := h.old
  alive := h.alive
  freed := h.freed

theorem Ledger.data_ne_next (h : Ledger s held) (hbuf : s.buffers.load b = some buf) :
    buf.data ≠ s.blocks.next := by
  obtain ⟨_, _, block, hblock, _⟩ := h.block b buf hbuf
  exact Cells.ne_next_of_load hblock

theorem Ledger.same_allocBlock (h : Ledger s held) (block : Bytes) (hlive : Live s p) :
    Same s { s with blocks := s.blocks.alloc block } p := by
  obtain ⟨ref, hp⟩ := live_iff.mp hlive
  obtain ⟨old, hold, _⟩ := h.shown hp
  exact same_of_block hp hp ((Cells.load_alloc hold block).trans hold.symm)

variable {data : Nat}

theorem Ledger.freeBlock (h : Ledger s held)
    (hunused : ∀ b buf, s.buffers.load b = some buf → buf.data ≠ data) :
    Ledger { s with blocks := s.blocks.free data } held where
  refs := h.refs
  count := h.count
  block := by
    intro b buf hbuf
    obtain ⟨hnonneg, hsmall, old, hold, hle⟩ := h.block b buf hbuf
    exact ⟨hnonneg, hsmall, old, (Cells.load_free_of_ne _ (hunused b buf hbuf)).trans hold, hle⟩
  exclusive := h.exclusive
  fresh := h.fresh
  old := h.old
  alive := h.alive
  freed := h.freed

theorem Ledger.same_freeBlock (h : Ledger s held)
    (hunused : ∀ b buf, s.buffers.load b = some buf → buf.data ≠ data) (hlive : Live s p) :
    Same s { s with blocks := s.blocks.free data } p := by
  obtain ⟨ref, hp⟩ := live_iff.mp hlive
  obtain ⟨buf, hbuf, hin⟩ := h.refs p ref hp
  refine same_of_block hp hp (Cells.load_free_of_ne _ ?_)
  rw [hin.data]
  exact hunused ref.buffer buf hbuf

theorem Ledger.allocFree (h : Ledger s held) (buf : AVBuffer Arg Free) :
    Ledger { s with buffers := (s.buffers.alloc buf).free s.buffers.next } held := by
  have hload : ∀ b, ((s.buffers.alloc buf).free s.buffers.next).load b = s.buffers.load b := by
    intro b
    by_cases hb : b = s.buffers.next
    · rw [hb, Cells.load_free_self, Cells.load_next]
    · rw [Cells.load_free_of_ne _ hb, Cells.load_alloc_of_ne _ _ hb]
  refine ⟨?_, ?_, ?_, ?_, h.fresh, ?_, ?_, ?_⟩
  · simpa only [hload] using h.refs
  · simpa only [hload, references] using h.count
  · simpa only [hload] using h.block
  · simpa only [hload] using h.exclusive
  · intro c hc
    have hlt := h.old c hc
    rw [Cells.next_free, Cells.next_alloc]
    exact Nat.lt_succ_of_lt hlt
  · simpa only [hload] using h.alive
  · simpa only [hload] using h.freed

variable {block : Bytes}

/-- A new buffer with one reference. -/
theorem Ledger.allocRef (h : Ledger s none) (hone : buf.refcount = 1) (hnonneg : 0 ≤ buf.size)
    (hsmall : buf.size < 2 ^ 31) (hblock : s.blocks.load buf.data = some block)
    (hle : buf.size.toNat ≤ block.length)
    (hunused : ∀ b old, s.buffers.load b = some old → old.data ≠ buf.data) :
    Ledger { s with
      buffers := s.buffers.alloc buf
      refs := s.refs.alloc ⟨s.buffers.next, buf.data, 0, buf.size⟩
      events := s.events ++ [.created s.buffers.next buf.free buf.arg] } none := by
  have hcases : ∀ b new, (s.buffers.alloc buf).load b = some new →
      (b = s.buffers.next ∧ new = buf) ∨ (b ≠ s.buffers.next ∧ s.buffers.load b = some new) := by
    intro b new hnew
    by_cases hb : b = s.buffers.next
    · rw [hb, Cells.load_alloc_self] at hnew
      exact .inl ⟨hb, (Option.some.inj hnew).symm⟩
    · rw [Cells.load_alloc_of_ne _ _ hb] at hnew
      exact .inr ⟨hb, hnew⟩
  have hrefs : ∀ p ref, s.refs.load p = some ref → ref.buffer ≠ s.buffers.next := by
    intro p ref hp
    obtain ⟨old, hold, _⟩ := h.refs p ref hp
    exact Cells.ne_next_of_load hold
  refine ⟨?_, ?_, ?_, ?_, ?_, ?_, ?_, ?_⟩
  · intro p ref hp
    by_cases hnew : p = s.refs.next
    · subst hnew
      rw [Cells.load_alloc_self] at hp
      cases hp
      exact ⟨buf, Cells.load_alloc_self _ _, rfl, hnonneg, by simp⟩
    · rw [Cells.load_alloc_of_ne _ _ hnew] at hp
      obtain ⟨old, hold, hin⟩ := h.refs p ref hp
      exact ⟨old, Cells.load_alloc hold buf, hin⟩
  · intro b new hnew
    rw [references, Cells.count_alloc]
    rcases hcases b new hnew with ⟨rfl, rfl⟩ | ⟨hb, hold⟩
    · have hzero : (s.refs.count fun ref => ref.buffer == s.buffers.next) = 0 := by
        by_contra hne
        obtain ⟨p, ref, hp, href⟩ := Cells.count_pos_iff.mp (Nat.pos_of_ne_zero hne)
        exact hrefs p ref hp (beq_iff_eq.mp href)
      rw [hzero, hone, if_pos (beq_self_eq_true _)]
      exact ⟨rfl, Nat.one_pos⟩
    · rw [if_neg (by rw [beq_iff_eq]; exact Ne.symm hb)]
      exact h.count b new hold
  · intro b new hnew
    rcases hcases b new hnew with ⟨rfl, rfl⟩ | ⟨_, hold⟩
    · exact ⟨hnonneg, hsmall, block, hblock, hle⟩
    · exact h.block b new hold
  · intro b c new new' hnew hnew' heq
    rcases hcases b new hnew with ⟨rfl, rfl⟩ | ⟨_, hold⟩
    · rcases hcases c new' hnew' with ⟨rfl, rfl⟩ | ⟨_, hold'⟩
      · rfl
      · exact absurd heq.symm (hunused c new' hold')
    · rcases hcases c new' hnew' with ⟨rfl, rfl⟩ | ⟨_, hold'⟩
      · exact absurd heq (hunused b new hold)
      · exact h.exclusive b c new new' hold hold' heq
  · rw [created_append, List.map_append]
    refine List.nodup_append.mpr ⟨h.fresh, List.nodup_singleton _, ?_⟩
    intro b hb c hc
    obtain ⟨entry, hentry, rfl⟩ := List.mem_map.mp hb
    rw [List.mem_singleton.mp hc]
    exact Nat.ne_of_lt (h.old entry hentry)
  · intro c hc
    rw [Cells.next_alloc]
    rw [created_append] at hc
    rcases List.mem_append.mp hc with hold | hnew
    · exact Nat.lt_succ_of_lt (h.old c hold)
    · rw [List.mem_singleton.mp hnew]
      exact Nat.lt_succ_self _
  · intro b new hnew
    rw [created_append]
    rcases hcases b new hnew with ⟨rfl, rfl⟩ | ⟨_, hold⟩
    · exact List.mem_append_right _ (List.mem_singleton.mpr rfl)
    · exact List.mem_append_left _ (h.alive b new hold)
  · rw [created_append, freed_append, List.filter_append]
    have hfilter : ((created s.events).filter fun c => ((s.buffers.alloc buf).load c.1).isNone) =
        (created s.events).filter fun c => (s.buffers.load c.1).isNone := by
      apply List.filter_congr
      intro c hc
      rw [Cells.load_alloc_of_ne _ _ (Nat.ne_of_lt (h.old c hc))]
    have hnone : ([(s.buffers.next, buf.free, buf.arg)].filter fun c =>
        ((s.buffers.alloc buf).load c.1).isNone) = [] := by
      rw [List.filter_singleton, Cells.load_alloc_self]
      rfl
    show (BufferValues.freed s.events ++ []).Perm (_ ++ List.filter _ [_])
    rw [hfilter, hnone, List.append_nil, List.append_nil]
    exact h.freed

/-- What a function that makes a new buffer around the block `data` does. -/
structure Creates (s : State Arg Free) (r : State Arg Free × Option Nat) (data : Nat)
    (size : Int) (readonly : Bool) : Prop where
  ledger : Ledger r.1 none
  same : ∀ p, Live s p → Same s r.1 p
  fresh : ∀ q, r.2 = some q → s.refs.load q = none ∧
    r.1.refs.load q = some ⟨s.buffers.next, data, 0, size⟩ ∧
    ∃ buf, r.1.buffers.load s.buffers.next = some buf ∧ buf.data = data ∧ buf.size = size ∧
      buf.refcount = 1 ∧ buf.readonly = readonly

variable {size : Int}

theorem Ledger.avBufferCreate (h : Ledger s none) (memory : Memory) (free : Option Free)
    (arg : Option Arg) (readonly reallocatable : Bool) (hnonneg : 0 ≤ size) (hsmall : size < 2 ^ 31)
    (hblock : s.blocks.load data = some block) (hle : size.toNat ≤ block.length)
    (hunused : ∀ b buf, s.buffers.load b = some buf → buf.data ≠ data) {r}
    (hr : avBufferCreate s memory data size free arg readonly reallocatable = r) :
    Creates s r data size readonly ∧ r.1.blocks = s.blocks ∧
      (r.2 = none → ∀ b buf, r.1.buffers.load b = some buf → buf.data ≠ data) := by
  rw [Buffer.avBufferCreate] at hr
  split_ifs at hr with hbuffer href
  · subst hr
    refine ⟨⟨h.allocRef rfl hnonneg hsmall hblock hle hunused, ?_, ?_⟩, rfl, nofun⟩
    · intro p hlive
      obtain ⟨ref, hp⟩ := live_iff.mp hlive
      exact same_of_block hp (Cells.load_alloc hp _) rfl
    · intro q hq
      cases hq
      exact ⟨Cells.load_next _, Cells.load_alloc_self _ _, _, Cells.load_alloc_self _ _, rfl, rfl,
        rfl, rfl⟩
  · subst hr
    refine ⟨⟨h.allocFree _, fun p _ => ⟨rfl, rfl⟩, nofun⟩, rfl, ?_⟩
    intro _ b buf hbuf
    have hold := Cells.load_of_load_free hbuf
    rw [Cells.load_alloc_of_ne _ _ (Cells.ne_of_load_free hbuf)] at hold
    exact hunused b buf hold
  · subst hr
    exact ⟨⟨h, fun p _ => Same.refl s p, nofun⟩, rfl, fun _ => hunused⟩

theorem Ledger.createAround (h : Ledger s none) (memory : Memory) {block : Option Bytes}
    (reallocatable : Bool)
    (hblock : ∀ b, block = some b → 0 ≤ size ∧ size < 2 ^ 31 ∧ size.toNat ≤ b.length) :
    Creates s (createAround s memory block size reallocatable) s.blocks.next size false := by
  cases block with
  | none => exact ⟨h, fun p _ => Same.refl s p, nofun⟩
  | some block =>
    obtain ⟨hnonneg, hsmall, hle⟩ := hblock block rfl
    have hunused : ∀ b buf, s.buffers.load b = some buf → buf.data ≠ s.blocks.next :=
      fun b buf hbuf => h.data_ne_next hbuf
    obtain ⟨hcreates, hblocks, hnone⟩ := (h.allocBlock block).avBufferCreate memory none none false
      reallocatable hnonneg hsmall (Cells.load_alloc_self _ _) hle hunused rfl
    rw [Buffer.createAround]
    split_ifs with hsome
    · refine ⟨hcreates.ledger, ?_, hcreates.fresh⟩
      intro p hlive
      have hsame := h.same_allocBlock block hlive
      exact hsame.trans (hcreates.same p (hsame.live hlive))
    · rw [Bool.not_eq_true, Option.isSome_eq_false_iff, Option.isNone_iff_eq_none] at hsome
      refine ⟨hcreates.ledger.freeBlock (hnone hsome), ?_, nofun⟩
      intro p hlive
      have hsame := h.same_allocBlock block hlive
      have hcreated := hcreates.same p (hsame.live hlive)
      exact (hsame.trans hcreated).trans
        (hcreates.ledger.same_freeBlock (hnone hsome) (hcreated.live (hsame.live hlive)))

theorem sizeT_of_lt (hint : IsInt size) (hlt : sizeT size < 2 ^ 31) :
    0 ≤ size ∧ size < 2 ^ 31 ∧ sizeT size = size.toNat := by
  obtain ⟨hlow, hhigh⟩ := hint
  rw [sizeT] at hlt ⊢
  lia

theorem Ledger.avBufferAlloc (h : Ledger s none) (memory : Memory) (hint : IsInt size) :
    Creates s (avBufferAlloc s memory size) s.blocks.next size false := by
  refine h.createAround memory false ?_
  intro block hblock
  obtain ⟨hlen, hlt⟩ := length_of_avMalloc hblock
  obtain ⟨hnonneg, hsmall, heq⟩ := sizeT_of_lt hint hlt
  exact ⟨hnonneg, hsmall, by lia⟩

theorem avReallocBlock_some {memory : Memory} {old : Bytes} (hint : IsInt size)
    (h : avReallocBlock memory old size = some block) :
    0 ≤ size ∧ size < 2 ^ 31 ∧ size.toNat ≤ block.length ∧
      ∀ k, k ≤ old.length → k ≤ size.toNat → block.take k = old.take k := by
  obtain ⟨hlen, hlt, htake⟩ := avRealloc_some h
  split_ifs at hlen hlt htake with hzero
  · obtain ⟨hnonneg, hsmall, heq⟩ := sizeT_of_lt hint (by lia)
    refine ⟨hnonneg, hsmall, by lia, ?_⟩
    intro k hold hk
    exact htake k hold (by lia)
  · obtain ⟨hnonneg, hsmall, heq⟩ := sizeT_of_lt hint hlt
    refine ⟨hnonneg, hsmall, by lia, ?_⟩
    intro k hold hk
    exact htake k hold (by lia)

theorem Ledger.avBufferReallocNull (h : Ledger s none) (memory : Memory) (hint : IsInt size) :
    Creates s (avBufferReallocNull s memory size) s.blocks.next size false := by
  refine h.createAround memory true ?_
  intro block hblock
  obtain ⟨hnonneg, hsmall, hle, _⟩ := avReallocBlock_some hint hblock
  exact ⟨hnonneg, hsmall, hle⟩

/-! ## Copying -/

theorem Ledger.storeBlock (h : Ledger s held) {old new : Bytes}
    (hold : s.blocks.load data = some old) (hlen : new.length = old.length) :
    Ledger { s with blocks := s.blocks.store data new } held where
  refs := h.refs
  count := h.count
  block := by
    intro b buf hbuf
    obtain ⟨hnonneg, hsmall, block, hblock, hle⟩ := h.block b buf hbuf
    by_cases hdata : buf.data = data
    · rw [hdata, hold] at hblock
      cases hblock
      rw [hdata]
      exact ⟨hnonneg, hsmall, new, Cells.load_store_self hold new, hlen ▸ hle⟩
    · exact ⟨hnonneg, hsmall, block, (Cells.load_store_of_ne _ _ hdata).trans hblock, hle⟩
  exclusive := h.exclusive
  fresh := h.fresh
  old := h.old
  alive := h.alive
  freed := h.freed

theorem Ledger.same_storeBlock (h : Ledger s held) (hbuf : s.buffers.load b = some buf)
    (hp : s.refs.load p = some ref) (hne : ref.buffer ≠ b) (new : Bytes) :
    Same s { s with blocks := s.blocks.store buf.data new } p := by
  obtain ⟨old, hold, hin⟩ := h.refs p ref hp
  refine same_of_block hp hp (Cells.load_store_of_ne _ _ ?_)
  rw [hin.data]
  intro heq
  exact hne (h.exclusive _ _ _ _ hold hbuf heq)

/-- What a function does that may put a new buffer of a size in the place of the one of the
reference `p`, with the first `n` bytes of what `p` shows. -/
structure Replaces (s : State Arg Free) (p : Nat) (size n : Int) (r : Result Arg Free) : Prop where
  ledger : Ledger r.state none
  others : ∀ q, Live s q → q ≠ p → Same s r.state q
  ref : r.ref = some p
  outcome : (r.ret = AVERROR.enomem.toInt ∧ Same s r.state p) ∨
    (r.ret = 0 ∧ avBufferIsWritable r.state p = some true ∧ ∃ old bytes, view s p = some old ∧
      view r.state p = some bytes ∧ bytes.length = size.toNat ∧
      bytes.take n.toNat = old.take n.toNat)

theorem Ledger.copyAndReplace (h : Ledger s none) (hp : s.refs.load p = some ref)
    {new : State Arg Free × Option Nat} {n : Int} (hnew : Creates s new data size false)
    (hn : n ≤ ref.size) (hsize : n ≤ size) :
    ∃ r, copyAndReplace new p ref n = some r ∧ Replaces s p size n r := by
  have hlive := live_of_load hp
  have hsame := hnew.same p hlive
  cases hq : new.2 with
  | none =>
    refine ⟨_, by rw [Buffer.copyAndReplace, hq], hnew.ledger, ?_, rfl, .inl ⟨rfl, hsame⟩⟩
    intro r hr _
    exact hnew.same r hr
  | some q =>
    obtain ⟨hfresh, hload, buf, hbuf, hdata, hbufsize, hone, hreadonly⟩ := hnew.fresh q hq
    have hne : p ≠ q := by
      rintro rfl
      rw [hfresh] at hp
      cases hp
    have hp' : new.1.refs.load p = some ref := hsame.1.trans hp
    obtain ⟨block, hblock, hroom, hview⟩ := hnew.ledger.shown hp'
    obtain ⟨block', hblock', hinside, _⟩ := hnew.ledger.shown hload
    have hroom' : size.toNat ≤ block'.length := by simpa using hinside
    have hread : readAt new.1.blocks ref.data ref.offset n.toNat =
        some (slice block ref.offset n.toNat) := readAt_eq hblock (by lia)
    have hsrc : (slice block ref.offset n.toNat).length = n.toNat := by
      rw [length_slice]
      lia
    have hkept : slice block ref.offset n.toNat =
        (slice block ref.offset ref.size.toNat).take n.toNat := by
      rw [take_slice, Nat.min_eq_left (by lia)]
    generalize slice block ref.offset n.toNat = src at hread hsrc hkept
    have hfits : 0 + src.length ≤ block'.length := by lia
    have hwrite := writeAt_eq hblock' hfits
    have hlength : (overwrite block' 0 src).length = block'.length :=
      length_overwrite_of_le hfits
    have hfront : (overwrite block' 0 src).take (0 + src.length) = block'.take 0 ++ src :=
      take_overwrite (Nat.zero_le _)
    rw [Nat.zero_add, hsrc, List.take_zero, List.nil_append] at hfront
    have hstored := hnew.ledger.storeBlock hblock' hlength
    obtain ⟨t, ht, hled, hself, hshows, hothers, hbuffers⟩ := hstored.replace hp' hload hne
    have hold : ∀ r old, s.refs.load r = some old → old.buffer ≠ s.buffers.next := by
      intro r old hr
      obtain ⟨b, hb, _⟩ := h.refs r old hr
      exact Cells.ne_next_of_load hb
    refine ⟨⟨t, some p, 0⟩, ?_, hled, ?_, rfl, .inr ⟨rfl, ?_, ?_⟩⟩
    · rw [Buffer.copyAndReplace, hq]
      show ((new.1.refs.load q).bind fun newbuf => _) = _
      rw [hload, Option.bind_some, hread, Option.bind_some, hwrite, Option.bind_some, ht,
        Option.map_some]
    · intro r hr hrp
      obtain ⟨old, hr'⟩ := live_iff.mp hr
      have hcreated := hnew.same r hr
      have hrq : r ≠ q := by
        rintro rfl
        rw [hfresh] at hr'
        cases hr'
      have hwritten := hnew.ledger.same_storeBlock hbuf (hcreated.1.trans hr') (hold r old hr')
        (overwrite block' 0 src)
      rw [hdata] at hwritten
      exact (hcreated.trans hwritten).trans
        (hothers r (hwritten.live (hcreated.live hr)) hrp hrq)
    · have hbuf' : t.buffers.load s.buffers.next = some buf :=
        (hbuffers _ (Ne.symm (hold p ref hp))).trans hbuf
      rw [avBufferIsWritable, hself, Option.bind_some, hbuf', Option.map_some, hone, hreadonly]
      rfl
    · have hcopied : (new.1.blocks.store data (overwrite block' 0 src)).load data =
          some (overwrite block' 0 src) := Cells.load_store_self hblock' _
      refine ⟨_, slice (overwrite block' 0 src) 0 size.toNat, hsame.2.symm.trans hview, ?_, ?_, ?_⟩
      · rw [hshows, view]
        show ((new.1.refs.load q).bind fun ref => _) = _
        rw [hload, Option.bind_some]
        exact readAt_eq hcopied (by rw [hlength, Nat.zero_add]; exact hroom')
      · rw [length_slice, hlength]
        lia
      · rw [take_slice, Nat.min_eq_left (by lia), ← hkept, slice, List.drop_zero]
        exact hfront

/-! ## The functions -/

theorem Ledger.isWritable_eq (h : Ledger s none) (hp : s.refs.load p = some ref) :
    ∃ buf, s.buffers.load ref.buffer = some buf ∧ InBuffer ref buf ∧
      avBufferIsWritable s p = some (!buf.readonly && buf.refcount == 1) := by
  obtain ⟨buf, hbuf, hin⟩ := h.refs p ref hp
  refine ⟨buf, hbuf, hin, ?_⟩
  rw [avBufferIsWritable, hp, Option.bind_some, hbuf, Option.map_some]

theorem Ledger.eq_of_writable (h : Ledger s none) (hp : s.refs.load p = some ref)
    (hwritable : avBufferIsWritable s p = some true) (hq : s.refs.load q = some new)
    (hbuffer : new.buffer = ref.buffer) : q = p := by
  obtain ⟨buf, hbuf, _, heq⟩ := h.isWritable_eq hp
  rw [hwritable] at heq
  have hone : buf.refcount = 1 :=
    beq_iff_eq.mp (Bool.and_eq_true_iff.mp (Option.some.inj heq).symm).2
  have hcount := (h.count ref.buffer buf hbuf).1
  rw [hone] at hcount
  exact eq_of_references_eq_one hp hcount.symm hq hbuffer

theorem InBuffer.isInt (hin : InBuffer ref buf) (hsmall : buf.size < 2 ^ 31) : IsInt ref.size := by
  have hsize := hin.size
  have hinside := hin.inside
  constructor <;> lia

theorem Ledger.replaces_self (h : Ledger s none) (hp : s.refs.load p = some ref)
    (hwritable : avBufferIsWritable s p = some true) (n : Int) :
    Replaces s p ref.size n ⟨s, some p, 0⟩ := by
  obtain ⟨block, _, hroom, hview⟩ := h.shown hp
  refine ⟨h, fun q _ _ => Same.refl s q, rfl, .inr ⟨rfl, hwritable, _, _, hview, hview, ?_, rfl⟩⟩
  rw [length_slice]
  lia

theorem Ledger.avBufferMakeWritable (h : Ledger s none) (memory : Memory)
    (hp : s.refs.load p = some ref) :
    ∃ r, avBufferMakeWritable s memory p = some r ∧ Replaces s p ref.size ref.size r := by
  obtain ⟨buf, hbuf, hin, hwritable⟩ := h.isWritable_eq hp
  obtain ⟨_, hsmall, _⟩ := h.block ref.buffer buf hbuf
  rw [Buffer.avBufferMakeWritable, hwritable, Option.bind_some]
  by_cases hyes : (!buf.readonly && buf.refcount == 1) = true
  · rw [if_pos hyes]
    rw [hyes] at hwritable
    exact ⟨_, rfl, h.replaces_self hp hwritable _⟩
  · rw [if_neg hyes, hp, Option.bind_some]
    exact h.copyAndReplace hp (h.avBufferAlloc memory (hin.isInt hsmall)) le_rfl le_rfl

/-- The only reference to a buffer gets a new block for it. -/
theorem Ledger.reallocInPlace (h : Ledger s none) (memory : Memory) (hp : s.refs.load p = some ref)
    (hbuf : s.buffers.load ref.buffer = some buf) (hin : InBuffer ref buf)
    (hwritable : avBufferIsWritable s p = some true) (hoffset : ref.offset = 0) (hint : IsInt size) :
    ∃ r, reallocInPlace s memory p ref buf size = some r ∧
      Replaces s p size (min size ref.size) r := by
  obtain ⟨block, hblock, hroom, hview⟩ := h.shown hp
  rw [hoffset, Nat.zero_add] at hroom
  have hload : s.blocks.load buf.data = some block := hin.data ▸ hblock
  cases htmp : avReallocBlock memory block size with
  | none =>
    refine ⟨⟨s, some p, AVERROR.enomem.toInt⟩, ?_, h, fun q _ _ => Same.refl s q, rfl,
      .inl ⟨rfl, Same.refl s p⟩⟩
    rw [Buffer.reallocInPlace, hload, Option.map_some, htmp]
  | some tmp =>
    obtain ⟨hnonneg, hsmall, hle, htake⟩ := avReallocBlock_some hint htmp
    have hnext : (s.blocks.free buf.data).next = s.blocks.next := Cells.next_free _ _
    have hnew : ((s.blocks.free buf.data).alloc tmp).load s.blocks.next = some tmp := by
      rw [← hnext]
      exact Cells.load_alloc_self _ _
    have hkeep : ∀ d old, d ≠ buf.data → s.blocks.load d = some old →
        ((s.blocks.free buf.data).alloc tmp).load d = some old := by
      intro d old hd hold
      exact Cells.load_alloc ((Cells.load_free_of_ne _ hd).trans hold) tmp
    have hself : (s.refs.store p ⟨ref.buffer, s.blocks.next, 0, size⟩).load p =
        some ⟨ref.buffer, s.blocks.next, 0, size⟩ := Cells.load_store_self hp _
    have hbuffer : ∀ q new, s.refs.load q = some new → q ≠ p → new.buffer ≠ ref.buffer :=
      fun q new hq hne heq => hne (h.eq_of_writable hp hwritable hq heq)
    have hsame : ∀ q, Live s q → q ≠ p → Same s { s with
        blocks := (s.blocks.free buf.data).alloc tmp
        buffers := s.buffers.store ref.buffer { buf with data := s.blocks.next, size := size }
        refs := s.refs.store p ⟨ref.buffer, s.blocks.next, 0, size⟩ } q := by
      intro q hlive hq
      obtain ⟨new, hnew⟩ := live_iff.mp hlive
      obtain ⟨old, hold, hin'⟩ := h.refs q new hnew
      obtain ⟨block', hblock', _⟩ := h.shown hnew
      have hdata : new.data ≠ buf.data := by
        rw [hin'.data]
        intro heq
        exact hbuffer q new hnew hq (h.exclusive _ _ _ _ hold hbuf heq)
      exact same_of_block hnew ((Cells.load_store_of_ne _ _ hq).trans hnew)
        ((hkeep _ _ hdata hblock').trans hblock'.symm)
    refine ⟨⟨{ s with
        blocks := (s.blocks.free buf.data).alloc tmp
        buffers := s.buffers.store ref.buffer { buf with data := s.blocks.next, size := size }
        refs := s.refs.store p ⟨ref.buffer, s.blocks.next, 0, size⟩ }, some p, 0⟩,
      ?_, ?_, hsame, rfl, .inr ⟨rfl, ?_, ?_⟩⟩
    · rw [Buffer.reallocInPlace, hload, Option.map_some, htmp]
    · have hcount : ∀ b, ((s.refs.store p ⟨ref.buffer, s.blocks.next, 0, size⟩).count fun ref =>
          ref.buffer == b) = references s b := by
        intro b
        have hstore := Cells.count_store (fun ref => ref.buffer == b) hp
          ⟨ref.buffer, s.blocks.next, 0, size⟩
        exact Nat.add_right_cancel hstore
      obtain ⟨hself', hpos⟩ := h.count ref.buffer buf hbuf
      refine h.setBuffer hbuf { buf with data := s.blocks.next, size := size } rfl rfl ?_ ?_ hpos
        ?_ ⟨hnonneg, hsmall, tmp, hnew, hle⟩ ?_
      · intro q new hq
        by_cases hqp : q = p
        · rw [hqp, hself] at hq
          cases hq
          exact .inl ⟨rfl, rfl, hnonneg, by simp⟩
        · have hq' := (Cells.load_store_of_ne s.refs _ hqp).symm.trans hq
          exact .inr ⟨hbuffer q new hq' hqp, q, hq'⟩
      · rw [hcount]
        exact hself'
      · intro b _
        rw [hcount]
      · intro b new hb hold
        obtain ⟨_, _, old, hblock', _⟩ := h.block b new hold
        refine ⟨(hkeep _ _ ?_ hblock').trans hblock'.symm, h.data_ne_next hold⟩
        exact fun heq => hb (h.exclusive _ _ _ _ hold hbuf heq)
    · obtain ⟨old, hold, _, heq⟩ := h.isWritable_eq hp
      rw [hbuf] at hold
      cases hold
      show ((s.refs.store p _).load p).bind _ = _
      rw [hself, Option.bind_some]
      show ((s.buffers.store ref.buffer _).load ref.buffer).map _ = _
      rw [Cells.load_store_self hbuf, ← hwritable, heq]
      rfl
    · refine ⟨_, slice tmp 0 size.toNat, hview, ?_, ?_, ?_⟩
      · show ((s.refs.store p _).load p).bind _ = _
        rw [hself, Option.bind_some]
        exact readAt_eq hnew (by rw [Nat.zero_add]; exact hle)
      · rw [length_slice]
        lia
      · rw [hoffset, take_slice, take_slice, Nat.min_eq_left (by lia), Nat.min_eq_left (by lia)]
        rw [slice, slice, List.drop_zero, List.drop_zero]
        exact htake _ (by lia) (by lia)

theorem Ledger.avBufferReallocRef (h : Ledger s none) (memory : Memory)
    (hp : s.refs.load p = some ref) (hint : IsInt size) :
    ∃ r, avBufferReallocRef s memory p size = some r ∧
      ((ref.size = size ∧ r = ⟨s, some p, 0⟩) ∨ Replaces s p size (min size ref.size) r) := by
  obtain ⟨buf, hbuf, hin, hwritable⟩ := h.isWritable_eq hp
  rw [Buffer.avBufferReallocRef, hp, Option.bind_some]
  by_cases hsize : ref.size = size
  · rw [if_pos hsize]
    exact ⟨_, rfl, .inl ⟨hsize, rfl⟩⟩
  · rw [if_neg hsize, hbuf, Option.bind_some, hwritable, Option.bind_some]
    split_ifs with hcopy
    · obtain ⟨r, hr, hreplaces⟩ := h.copyAndReplace hp (h.avBufferReallocNull memory hint)
        (min_le_right size ref.size) (min_le_left size ref.size)
      exact ⟨r, hr, .inr hreplaces⟩
    · simp only [Bool.or_eq_true, decide_eq_true_eq, not_or, Bool.not_eq_true, ne_eq,
        Decidable.not_not] at hcopy
      obtain ⟨⟨⟨_, hyes⟩, _⟩, hoffset⟩ := hcopy
      rw [Bool.not_eq_false'] at hyes
      rw [hyes] at hwritable
      obtain ⟨r, hr, hreplaces⟩ :=
        h.reallocInPlace memory hp hbuf hin hwritable hoffset hint
      exact ⟨r, hr, .inr hreplaces⟩

theorem Ledger.avBufferRef (h : Ledger s none) (memory : Memory)
    (hp : s.refs.load p = some ref) :
    ∃ r, avBufferRef s memory p = some r ∧ (∀ q, Live s q → Same s r.1 q) ∧
      (∀ q, r.2 = some q → s.refs.load q = none ∧ view r.1 q = view s p) ∧
      ((memory.ref = true → references s ref.buffer + 1 < 2 ^ 32) → Ledger r.1 none) := by
  obtain ⟨buf, hbuf, hin⟩ := h.refs p ref hp
  rw [Buffer.avBufferRef]
  split_ifs with hmemory
  · rw [hp, Option.bind_some, hbuf, Option.map_some]
    refine ⟨_, rfl, ?_, ?_, ?_⟩
    · intro q hlive
      obtain ⟨new, hnew⟩ := live_iff.mp hlive
      exact same_of_block hnew (Cells.load_alloc hnew ref) rfl
    · intro q hq
      cases hq
      refine ⟨Cells.load_next _, ?_⟩
      rw [view_eq hp, view]
      show ((s.refs.alloc ref).load s.refs.next).bind _ = _
      rw [Cells.load_alloc_self]
      rfl
    · intro hfits
      have hroom := hfits hmemory
      obtain ⟨hcount, hpos⟩ := h.count ref.buffer buf hbuf
      have hcount : buf.refcount.toNat = references s ref.buffer := hcount
      have hone : (1 : UInt32).toNat = 1 := rfl
      have hadd : (buf.refcount + 1).toNat = references s ref.buffer + 1 := by
        rw [UInt32.toNat_add, hcount, hone, Nat.mod_eq_of_lt hroom]
      refine h.setRefcount hbuf ?_ ?_ ?_ ?_
      · intro q new hq
        by_cases hnew : q = s.refs.next
        · rw [hnew, Cells.load_alloc_self] at hq
          cases hq
          exact ⟨p, hp⟩
        · rw [Cells.load_alloc_of_ne _ _ hnew] at hq
          exact ⟨q, hq⟩
      · rw [Cells.count_alloc, if_pos (beq_self_eq_true _)]
        exact hadd
      · lia
      · intro c hc
        rw [Cells.count_alloc, if_neg (by rw [beq_iff_eq]; exact Ne.symm hc)]
        rfl
  · exact ⟨_, rfl, fun q _ => Same.refl s q, nofun, fun _ => h⟩

theorem Ledger.describe (h : Ledger s none) (hp : s.refs.load p = some ref)
    (hbuf : s.buffers.load ref.buffer = some buf) {offset : Nat} (hnonneg : 0 ≤ size)
    (hinside : offset + size ≤ buf.size) :
    Ledger { s with refs := s.refs.store p ⟨ref.buffer, buf.data, offset, size⟩ } none := by
  refine h.setRefs ?_ ?_
  · intro q new hq
    by_cases hqp : q = p
    · rw [hqp, Cells.load_store_self hp] at hq
      cases hq
      exact ⟨buf, hbuf, rfl, hnonneg, hinside⟩
    · rw [Cells.load_store_of_ne _ _ hqp] at hq
      exact h.refs q new hq
  · intro b
    have hstore := Cells.count_store (fun ref => ref.buffer == b) hp
      ⟨ref.buffer, buf.data, offset, size⟩
    exact congrArg (· + heldCount none b) (Nat.add_right_cancel hstore)

theorem Ledger.write (h : Ledger s none) (hp : s.refs.load p = some ref)
    (hwritable : avBufferIsWritable s p = some true) {offset : Nat} {src : Bytes}
    (hinside : (offset + src.length : Int) ≤ ref.size) :
    ∃ blocks, writeAt s.blocks ref.data (ref.offset + offset) src = some blocks ∧
      Ledger { s with blocks := blocks } none ∧
      (∀ q, Live s q → q ≠ p → Same s { s with blocks := blocks } q) ∧
      ∃ old, view s p = some old ∧
        view { s with blocks := blocks } p = some (overwrite old offset src) := by
  obtain ⟨buf, hbuf, hin⟩ := h.refs p ref hp
  obtain ⟨block, hblock, hroom, hview⟩ := h.shown hp
  have hfits : ref.offset + offset + src.length ≤ block.length := by lia
  have hlength := length_overwrite_of_le hfits
  refine ⟨_, writeAt_eq hblock hfits, h.storeBlock hblock hlength, ?_, _, hview, ?_⟩
  · intro q hlive hq
    obtain ⟨new, hnew⟩ := live_iff.mp hlive
    have hne : new.buffer ≠ ref.buffer :=
      fun heq => hq (h.eq_of_writable hp hwritable hnew heq)
    rw [hin.data]
    exact h.same_storeBlock hbuf hnew hne _
  · rw [view]
    show ((s.refs.load p).bind _) = _
    rw [hp, Option.bind_some]
    have hread := Cells.load_store_self hblock (overwrite block (ref.offset + offset) src)
    refine (readAt_eq hread (by rw [hlength]; exact hroom)).trans ?_
    rw [slice_overwrite_inside (by lia) hroom]

/-! ## Every step -/

variable {r : State Arg Free × Option Nat} {readonly : Bool} {a : Action Arg Free}

theorem Creates.meets (h : Creates s r data size readonly) (hvar : variablePassed a = none)
    (hdone : r.2.isSome → Does s a (returned r)) :
    Meets s a (returned r) where
  others := fun p hlive _ => h.same p hlive
  code := by
    rw [returned]
    split_ifs
    · exact .inl rfl
    · exact .inr rfl
  failed := by
    intro hret
    refine ⟨h.same, ?_⟩
    rw [returned] at hret ⊢
    split_ifs at hret with hsome
    · exact absurd rfl hret
    · rw [hvar]
      rw [Bool.not_eq_true, Option.isSome_eq_false_iff, Option.isNone_iff_eq_none] at hsome
      exact hsome
  done := by
    intro hret
    rw [returned] at hret
    split_ifs at hret with hsome
    · exact hdone hsome
    · cases hret

theorem Creates.showsNew (h : Creates s r data size readonly) (hsome : r.2.isSome) :
    ∃ block, r.1.blocks.load data = some block ∧ size.toNat ≤ block.length ∧
      ShowsNew s (returned r) (some (block.take size.toNat)) := by
  obtain ⟨q, hq⟩ := Option.isSome_iff_exists.mp hsome
  obtain ⟨hfresh, hload, _⟩ := h.fresh q hq
  obtain ⟨block, hblock, hroom, hview⟩ := h.ledger.shown hload
  refine ⟨block, hblock, by simpa using hroom, q, hq, hfresh, hview.trans ?_⟩
  rw [slice]
  rfl

theorem Creates.showsNew_length (h : Creates s r data size readonly) (hsome : r.2.isSome) :
    ∃ bytes : Bytes, bytes.length = size.toNat ∧ ShowsNew s (returned r) (some bytes) := by
  obtain ⟨block, _, hle, hshows⟩ := h.showsNew hsome
  exact ⟨block.take size.toNat, by rw [List.length_take, Nat.min_eq_left hle], hshows⟩

theorem Replaces.meets {r : Result Arg Free} {n : Int} (h : Replaces s p size n r)
    (htarget : target a = some p) (hvar : variablePassed a = some p)
    (hdone : r.ret = 0 → Does s a r) : Meets s a r where
  others := by
    intro q hlive hq
    refine h.others q hlive ?_
    rintro rfl
    exact hq htarget
  code := by
    rcases h.outcome with ⟨hret, _⟩ | ⟨hret, _⟩
    · exact .inr hret
    · exact .inl hret
  failed := by
    intro hret
    rcases h.outcome with ⟨_, hsame⟩ | ⟨hzero, _⟩
    · refine ⟨?_, h.ref.trans hvar.symm⟩
      intro q hlive
      by_cases hq : q = p
      · rw [hq]
        exact hsame
      · exact h.others q hlive hq
    · exact absurd hzero hret
  done := hdone

theorem Replaces.shows {r : Result Arg Free} {n : Int} (h : Replaces s p size n r)
    (hret : r.ret = 0) : avBufferIsWritable r.state p = some true ∧ ∃ old bytes,
      view s p = some old ∧ view r.state p = some bytes ∧ bytes.length = size.toNat ∧
      bytes.take n.toNat = old.take n.toNat := by
  rcases h.outcome with ⟨herror, _⟩ | ⟨_, hshows⟩
  · rw [hret] at herror
    cases herror
  · exact hshows

/-- Nobody can make a step do what it must not, every step keeps its promise, and the
ledger stays right as long as the reference count has room. -/
theorem Ledger.step (h : Ledger s none) (hlegal : Legal s a) :
    ∃ r, step s a = some r ∧ Meets s a r ∧ (Fits s a → Ledger r.state none) := by
  cases a with
  | create memory block size free arg readonly =>
    obtain ⟨hnonneg, ⟨_, hsmall⟩, hle⟩ := hlegal
    have hunused : ∀ b buf, s.buffers.load b = some buf → buf.data ≠ s.blocks.next :=
      fun b buf hbuf => h.data_ne_next hbuf
    obtain ⟨hcreates, hblocks, _⟩ := (h.allocBlock block).avBufferCreate memory free arg readonly
      false hnonneg hsmall (Cells.load_alloc_self _ _) hle hunused rfl
    have hall : Creates s _ s.blocks.next size readonly :=
      ⟨hcreates.ledger, fun p hlive => (h.same_allocBlock block hlive).trans
        (hcreates.same p ((h.same_allocBlock block hlive).live hlive)), hcreates.fresh⟩
    refine ⟨_, rfl, hall.meets rfl ?_, fun _ => hall.ledger⟩
    intro hsome
    obtain ⟨block', hblock', _, hshows⟩ := hall.showsNew hsome
    rw [hblocks] at hblock'
    cases (Cells.load_alloc_self s.blocks block).symm.trans hblock'
    exact hshows
  | alloc memory size =>
    have hcreates := h.avBufferAlloc memory hlegal
    exact ⟨_, rfl, hcreates.meets rfl hcreates.showsNew_length, fun _ => hcreates.ledger⟩
  | ref memory p =>
    obtain ⟨ref, hp⟩ := live_iff.mp hlegal
    obtain ⟨r, hr, hsame, hnew, hled⟩ := h.avBufferRef memory hp
    refine ⟨returned r, by rw [Buffer.step, hr, Option.map_some], ?_, ?_⟩
    · refine ⟨fun q hlive _ => hsame q hlive, ?_, ?_, ?_⟩
      · rw [returned]
        split_ifs
        · exact .inl rfl
        · exact .inr rfl
      · intro hret
        refine ⟨hsame, ?_⟩
        rw [returned] at hret ⊢
        split_ifs at hret with hsome
        · exact absurd rfl hret
        · rw [Bool.not_eq_true, Option.isSome_eq_false_iff, Option.isNone_iff_eq_none] at hsome
          exact hsome
      · intro hret
        rw [returned] at hret
        split_ifs at hret with hsome
        · obtain ⟨q, hq⟩ := Option.isSome_iff_exists.mp hsome
          obtain ⟨hfresh, hview⟩ := hnew q hq
          exact ⟨q, hq, hfresh, hview⟩
        · cases hret
    · exact fun hfits => hled fun hmemory => hfits hmemory ref hp
  | unref p =>
    obtain ⟨ref, hp⟩ := live_iff.mp hlegal
    obtain ⟨t, ht, hled, hgone, hsame⟩ := h.avBufferUnref hp
    refine ⟨⟨t, none, 0⟩, by rw [Buffer.step, ht, Option.map_some], ?_, fun _ => hled⟩
    refine ⟨?_, .inl rfl, fun hret => absurd rfl hret, fun _ => hgone⟩
    intro q hlive hq
    exact hsame q hlive fun heq => hq (congrArg some heq.symm)
  | makeWritable memory p =>
    obtain ⟨ref, hp⟩ := live_iff.mp hlegal
    obtain ⟨r, hr, hreplaces⟩ := h.avBufferMakeWritable memory hp
    refine ⟨r, hr, hreplaces.meets rfl rfl ?_, fun _ => hreplaces.ledger⟩
    intro hret
    obtain ⟨hwritable, old, bytes, hold, hbytes, hlength, htake⟩ := hreplaces.shows hret
    refine ⟨?_, hwritable⟩
    obtain ⟨block, _, hroom, hview⟩ := h.shown hp
    have holdlen : old.length = ref.size.toNat := by
      cases hold.symm.trans hview
      rw [length_slice]
      lia
    rw [List.take_of_length_le (by lia), List.take_of_length_le (by lia)] at htake
    rw [hbytes, hold, htake]
  | realloc memory p size =>
    obtain ⟨hint, hlive⟩ := hlegal
    cases p with
    | none =>
      have hcreates := h.avBufferReallocNull memory hint
      exact ⟨_, rfl, hcreates.meets rfl hcreates.showsNew_length, fun _ => hcreates.ledger⟩
    | some p =>
      obtain ⟨ref, hp⟩ := live_iff.mp (hlive p rfl)
      obtain ⟨block, _, hroom, hview⟩ := h.shown hp
      have hlength : (slice block ref.offset ref.size.toNat).length = ref.size.toNat := by
        rw [length_slice]
        lia
      obtain ⟨r, hr, ⟨hsize, rfl⟩ | hreplaces⟩ := h.avBufferReallocRef memory hp hint
      · refine ⟨_, hr, ⟨fun q _ _ => Same.refl s q, .inl rfl, fun hret => absurd rfl hret, ?_⟩,
          fun _ => h⟩
        intro _
        exact ⟨_, _, hview, hview, by rw [hlength, hsize], rfl⟩
      · refine ⟨r, hr, hreplaces.meets rfl rfl ?_, fun _ => hreplaces.ledger⟩
        intro hret
        obtain ⟨_, old, bytes, hold, hbytes, hnew, htake⟩ := hreplaces.shows hret
        refine ⟨old, bytes, hold, hbytes, hnew, ?_⟩
        cases hold.symm.trans hview
        have hmin : min (slice block ref.offset ref.size.toNat).length size.toNat =
            (min size ref.size).toNat := by
          rw [hlength]
          lia
        rw [hmin]
        exact htake
  | describe p offset size =>
    obtain ⟨ref, buf, hp, hbuf, hnonneg, hinside⟩ := hlegal
    obtain ⟨old, hold, hin⟩ := h.refs p ref hp
    cases hbuf.symm.trans hold
    refine ⟨_, by rw [Buffer.step, hp, Option.bind_some, hbuf, Option.map_some], ?_,
      fun _ => h.describe hp hbuf hnonneg hinside⟩
    refine ⟨?_, .inl rfl, fun hret => absurd rfl hret, ?_⟩
    · intro q hlive hq
      obtain ⟨new, hnew⟩ := live_iff.mp hlive
      have hqp : q ≠ p := fun heq => hq (congrArg some heq.symm)
      exact same_of_block hnew ((Cells.load_store_of_ne _ _ hqp).trans hnew) rfl
    · intro _ ref' hp'
      cases hp.symm.trans hp'
      rw [hin.data]
      exact Cells.load_store_self hp _
  | write p offset src =>
    obtain ⟨hwritable, ref, hp, hinside⟩ := hlegal
    obtain ⟨blocks, hblocks, hled, hsame, hshows⟩ := h.write hp hwritable hinside
    refine ⟨_, by rw [Buffer.step, hp, Option.bind_some, hblocks, Option.map_some], ?_,
      fun _ => hled⟩
    refine ⟨?_, .inl rfl, fun hret => absurd rfl hret, fun _ => hshows⟩
    intro q hlive hq
    exact hsame q hlive fun heq => hq (congrArg some heq.symm)

/-! ## Every run -/

theorem Ledger.sound (h : Ledger s none) : Sound s where
  refcount := by
    intro b buf hbuf
    obtain ⟨hcount, hpos⟩ := h.count b buf hbuf
    have hcount : buf.refcount.toNat = references s b := hcount
    exact ⟨hcount, by lia⟩
  shown := by
    intro p ref hp
    obtain ⟨buf, hbuf, hin⟩ := h.refs p ref hp
    obtain ⟨block, _, hroom, hview⟩ := h.shown hp
    refine ⟨by rw [hbuf]; rfl, hin.size, _, hview, ?_⟩
    rw [length_slice]
    lia
  fresh := h.fresh
  freed := by
    have hsame : ∀ c : Nat × Option Free × Option Arg,
        (s.buffers.load c.1).isNone = decide (references s c.1 = 0) := by
      intro c
      cases hload : s.buffers.load c.1 with
      | none =>
        symm
        rw [Option.isNone_none, decide_eq_true_eq]
        by_contra hne
        obtain ⟨p, ref, hp, href⟩ := Cells.count_pos_iff.mp (Nat.pos_of_ne_zero hne)
        obtain ⟨buf, hbuf, _⟩ := h.refs p ref hp
        rw [beq_iff_eq.mp href, hload] at hbuf
        cases hbuf
      | some buf =>
        obtain ⟨hcount, hpos⟩ := h.count c.1 buf hload
        have hcount : buf.refcount.toNat = references s c.1 := hcount
        symm
        rw [Option.isNone_some, decide_eq_false_iff_not]
        lia
    have hfreed := h.freed
    simp only [hsame] at hfreed
    exact hfreed

theorem ledger_of_reachable (hrun : Relation.ReflTransGen MovesFitting initial s) :
    Ledger s none := by
  induction hrun with
  | refl => exact ledger_initial
  | tail _ hmove ih =>
    obtain ⟨a, r, hlegal, hfits, hstep, rfl⟩ := hmove
    obtain ⟨r', hr', _, hled⟩ := ih.step hlegal
    cases hstep.symm.trans hr'
    exact hled hfits

/-- In every run in which no reference count wraps around, in every state the counts are
right and what has no reference any more has been freed once, and whatever is done next
keeps its promise. -/
theorem values_of_run {s : State Arg Free}
    (hrun : Relation.ReflTransGen MovesFitting initial s) :
    Sound s ∧ ∀ a, Legal s a → ∃ r, step s a = some r ∧ Meets s a r := by
  have h := ledger_of_reachable hrun
  refine ⟨h.sound, ?_⟩
  intro a hlegal
  obtain ⟨r, hr, hmeets, _⟩ := h.step hlegal
  exact ⟨r, hr, hmeets⟩

end Ledger

/-- What the allocators give in the runs below. -/
def plenty : Memory where
  data := zeroMalloc
  buffer := true
  ref := true

/-- Two references to a block, which is freed when the second of them is dropped. -/
theorem values_of_run_unref :
    ∃ s : State Unit Unit, s.events = [.created 0 (some ()) none, .freed 0 (some ()) none 0] ∧
      Sound s ∧ ∀ a, Legal s a → ∃ r, step s a = some r ∧ Meets s a r := by
  have hcreate : MovesFitting (initial : State Unit Unit)
      ⟨⟨[some [1, 2]]⟩, ⟨[some ⟨0, 2, 1, some (), none, false, false⟩]⟩, ⟨[some ⟨0, 0, 0, 2⟩]⟩,
        [.created 0 (some ()) none]⟩ :=
    ⟨.create plenty [1, 2] 2 (some ()) none false, _,
      ⟨by decide, ⟨by decide, by decide⟩, le_rfl⟩, trivial, rfl, rfl⟩
  have href : MovesFitting
      (⟨⟨[some [1, 2]]⟩, ⟨[some ⟨0, 2, 1, some (), none, false, false⟩]⟩, ⟨[some ⟨0, 0, 0, 2⟩]⟩,
        [.created 0 (some ()) none]⟩ : State Unit Unit)
      ⟨⟨[some [1, 2]]⟩, ⟨[some ⟨0, 2, 2, some (), none, false, false⟩]⟩,
        ⟨[some ⟨0, 0, 0, 2⟩, some ⟨0, 0, 0, 2⟩]⟩, [.created 0 (some ()) none]⟩ := by
    refine ⟨.ref plenty 0, _, rfl, ?_, rfl, rfl⟩
    intro _ ref hload
    cases hload
    decide
  have hrun := ((Relation.ReflTransGen.refl.tail hcreate).tail href).tail
    ⟨.unref 0, _, rfl, trivial, rfl, rfl⟩
  have hrun := hrun.tail ⟨.unref 1, _, rfl, trivial, rfl, rfl⟩
  exact ⟨_, rfl, values_of_run hrun⟩

theorem refcount_after_refs (n : Nat) :
    ∃ s : State Unit Unit, Relation.ReflTransGen Moves initial s ∧
      s.refs.load 0 = some ⟨0, 0, 0, 0⟩ ∧ references s 0 = n + 1 ∧
      s.buffers.load 0 = some ⟨0, 0, UInt32.ofNat (n + 1), none, none, false, false⟩ := by
  induction n with
  | zero =>
    have hlegal : Legal (initial : State Unit Unit) (.create plenty [] 0 none none false) :=
      ⟨le_rfl, ⟨by decide, by decide⟩, le_rfl⟩
    exact ⟨_, .single ⟨_, _, hlegal, rfl, rfl⟩, rfl, rfl, rfl⟩
  | succ n ih =>
    obtain ⟨s, hrun, href, hcount, hbuf⟩ := ih
    have hstep : step s (.ref plenty 0) = some ⟨{ s with
        refs := s.refs.alloc ⟨0, 0, 0, 0⟩
        buffers := s.buffers.store 0
          ⟨0, 0, UInt32.ofNat (n + 1) + 1, none, none, false, false⟩ }, some s.refs.next, 0⟩ := by
      rw [step, avBufferRef, if_pos (show plenty.ref = true from rfl), href, Option.bind_some,
        hbuf, Option.map_some, Option.map_some]
      rfl
    refine ⟨_, hrun.tail ⟨.ref plenty 0, _, live_of_load href, hstep, rfl⟩,
      Cells.load_alloc href _, ?_, ?_⟩
    · rw [references, Cells.count_alloc, if_pos (beq_self_eq_true 0)]
      exact congrArg (· + 1) hcount
    · rw [UInt32.ofNat_add (n + 1) 1]
      exact Cells.load_store_self hbuf _

/-- With `2 ^ 32` references to a buffer the count is zero. -/
theorem values_of_run_wraps :
    ¬ ∀ s : State Unit Unit, Relation.ReflTransGen Moves initial s →
      Sound s ∧ ∀ a, Legal s a → ∃ r, step s a = some r ∧ Meets s a r := by
  intro hall
  obtain ⟨s, hrun, _, hcount, hbuf⟩ := refcount_after_refs (2 ^ 32 - 1)
  have hsound := ((hall s hrun).1.refcount 0 _ hbuf).1
  rw [hcount] at hsound
  revert hsound
  decide

end FFmpeg.Libavutil.BufferValues
