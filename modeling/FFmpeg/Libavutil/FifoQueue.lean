import Mathlib.Tactic
import FFmpeg.Common.Ring
import FFmpeg.Libavutil.Fifo

/-!
# Fifos as queues

`AVFifoBuffer` refines a queue of bytes with a capacity, over every run of
operations that stay within the size and the space of the fifo.
-/

namespace FFmpeg.Libavutil

open Common

/-! ## The representation -/

/-- The fifo holds the bytes `q`. -/
structure Represents (f : AVFifoBuffer) (q : Bytes) : Prop where
  le : q.length ≤ f.buffer.length
  small : f.buffer.length < 2 ^ 31
  rptr : f.rptr = 0 ∨ f.rptr < f.buffer.length
  wptr : f.wptr = wrapIndex f.buffer.length (f.rptr + q.length)
  wndx : f.wndx = (f.rndx + q.length) % 2 ^ 32
  rndx : f.rndx < 2 ^ 32
  content : ringSlice f.buffer f.rptr q.length = q

variable {f : AVFifoBuffer} {q : Bytes}

variable {buffer : Bytes}

theorem represents_fifoAllocCommon (h : buffer.length < 2 ^ 31) :
    Represents (fifoAllocCommon buffer) [] where
  le := Nat.zero_le _
  small := h
  rptr := Or.inl rfl
  wptr := by
    unfold wrapIndex
    split_ifs
    · exact (Nat.zero_sub _).symm
    · rfl
  wndx := rfl
  rndx := Nat.two_pow_pos 32
  content := ringSlice_zero _ _

theorem Represents.fifoCount_eq (h : Represents f q) : fifoCount f = q.length := by
  have hle := h.le
  have hsmall := h.small
  have hrndx := h.rndx
  rw [fifoCount, h.wndx]
  omega

theorem Represents.avFifoSize_eq (h : Represents f q) : avFifoSize f = q.length := by
  have hle := h.le
  have hsmall := h.small
  unfold avFifoSize
  rw [h.fifoCount_eq]
  exact Int.bmod_eq_of_le_mul_two (by lia) (by lia)

theorem Represents.rptr_le (h : Represents f q) : f.rptr ≤ f.buffer.length := by
  have hrptr := h.rptr
  lia

theorem Represents.wptr_lt (h : Represents f q) : f.wptr = 0 ∨ f.wptr < f.buffer.length := by
  have hrptr := h.rptr
  have hle := h.le
  rw [h.wptr, wrapIndex]
  split_ifs <;> lia

/-! ## One round of a loop -/

variable {n : Nat}

theorem Represents.slice_eq (h : Represents f q) (hn : n ≤ q.length)
    (hend : f.rptr + n ≤ f.buffer.length) : slice f.buffer f.rptr n = q.take n := by
  rw [← ringSlice_of_le hend, ← take_ringSlice h.rptr_le h.le hn, h.content]

theorem Represents.drain (h : Represents f q) (hn : n ≤ q.length) :
    Represents (avFifoDrain f n) (q.drop n) where
  le := by
    have hle := h.le
    rw [List.length_drop]
    show q.length - n ≤ f.buffer.length
    lia
  small := h.small
  rptr := by
    have hrptr := h.rptr
    have hle := h.le
    show (if f.buffer.length ≤ f.rptr + n then _ else _) = 0 ∨
      (if f.buffer.length ≤ f.rptr + n then _ else _) < f.buffer.length
    split_ifs <;> lia
  wptr := by
    have hrptr := h.rptr
    have hle := h.le
    rw [List.length_drop]
    show f.wptr = wrapIndex f.buffer.length
      ((if f.buffer.length ≤ f.rptr + n then f.rptr + n - f.buffer.length else f.rptr + n) + _)
    rw [h.wptr]
    unfold wrapIndex
    split_ifs <;> lia
  wndx := by
    rw [List.length_drop]
    show f.wndx = ((f.rndx + n) % 2 ^ 32 + (q.length - n)) % 2 ^ 32
    rw [h.wndx, Nat.mod_add_mod]
    congr 1
    lia
  rndx := Nat.mod_lt _ (by decide)
  content := by
    have hdrop := drop_ringSlice h.rptr_le h.le hn
    rw [h.content] at hdrop
    rw [List.length_drop]
    exact hdrop.symm

variable {block : Bytes}

/-- Bytes put into the free space up to the end of the buffer. -/
theorem Represents.put (h : Represents f q) {len : Nat} (hlen : len ≤ block.length)
    (hspace : q.length + block.length ≤ f.buffer.length)
    (hend : f.wptr + block.length ≤ f.buffer.length) :
    Represents (fifoPut f block len) (q ++ block.take len) := by
  have htake : (block.take len).length = len := by
    rw [List.length_take]
    lia
  have hlength : (overwrite f.buffer f.wptr block).length = f.buffer.length :=
    length_overwrite_of_le hend
  have hrptr := h.rptr
  have hwptr := h.wptr
  have hle := h.le
  constructor
  · rw [List.length_append, htake]
    show q.length + len ≤ (overwrite f.buffer f.wptr block).length
    lia
  · show (overwrite f.buffer f.wptr block).length < 2 ^ 31
    rw [hlength]
    exact h.small
  · show f.rptr = 0 ∨ f.rptr < (overwrite f.buffer f.wptr block).length
    rw [hlength]
    exact h.rptr
  · rw [List.length_append, htake]
    show (if f.buffer.length ≤ f.wptr + len then 0 else f.wptr + len) =
      wrapIndex (overwrite f.buffer f.wptr block).length (f.rptr + (q.length + len))
    rw [hlength]
    unfold wrapIndex at hwptr ⊢
    split_ifs at hwptr ⊢ <;> lia
  · rw [List.length_append, htake]
    show (f.wndx + len) % 2 ^ 32 = (f.rndx + (q.length + len)) % 2 ^ 32
    rw [h.wndx, Nat.mod_add_mod, Nat.add_assoc]
  · exact h.rndx
  · -- the old bytes stay, and the new ones follow them
    show ringSlice (overwrite f.buffer f.wptr block) f.rptr (q ++ block.take len).length = _
    rw [List.length_append, htake, ringSlice_add (by lia) (by lia), hlength, ← hwptr]
    congr 1
    · rw [hwptr, ringSlice_overwrite h.rptr_le hspace (by rwa [← hwptr]), h.content]
    · rw [← take_ringSlice (by lia) (by lia) hlen, ringSlice_overwrite_self hend]

theorem Represents.scribble (h : Represents f q)
    (hspace : q.length + block.length ≤ f.buffer.length)
    (hend : f.wptr + block.length ≤ f.buffer.length) :
    Represents { f with buffer := overwrite f.buffer f.wptr block } q := by
  have hlength : (overwrite f.buffer f.wptr block).length = f.buffer.length :=
    length_overwrite_of_le hend
  have hwptr := h.wptr
  constructor
  · show q.length ≤ (overwrite f.buffer f.wptr block).length
    rw [hlength]
    exact h.le
  · show (overwrite f.buffer f.wptr block).length < 2 ^ 31
    rw [hlength]
    exact h.small
  · show f.rptr = 0 ∨ f.rptr < (overwrite f.buffer f.wptr block).length
    rw [hlength]
    exact h.rptr
  · show f.wptr = wrapIndex (overwrite f.buffer f.wptr block).length (f.rptr + q.length)
    rw [hlength]
    exact h.wptr
  · exact h.wndx
  · exact h.rndx
  · show ringSlice (overwrite f.buffer f.wptr block) f.rptr q.length = q
    rw [hwptr, ringSlice_overwrite h.rptr_le hspace (by rwa [← hwptr]), h.content]

/-! ## Reading -/

theorem Represents.readLoop (h : Represents f q) {fuel : Nat} (hn : n ≤ q.length) (hfuel : n < fuel) :
    ∃ f', avFifoReadLoop fuel f n = some (q.take n, f') ∧ Represents f' (q.drop n) ∧
      f'.buffer = f.buffer := by
  induction fuel generalizing f q n with
  | zero => exact absurd hfuel (Nat.not_lt_zero n)
  | succ fuel ih =>
    have hrptr := h.rptr
    have hle := h.le
    obtain ⟨len, hlen⟩ : ∃ len, len = min (f.buffer.length - f.rptr) n := ⟨_, rfl⟩
    have hslice : slice f.buffer f.rptr len = q.take len := h.slice_eq (by lia) (by lia)
    have hdrain : Represents (avFifoDrain f len) (q.drop len) := h.drain (by lia)
    rw [avFifoReadLoop, ← hlen, hslice]
    split_ifs with hmore
    · -- the buffer ended before the bytes did
      have hrest : n - len ≤ (q.drop len).length := by
        rw [List.length_drop]
        lia
      obtain ⟨f', hloop, hrep, hbuffer⟩ := ih hdrain hrest (by lia)
      refine ⟨f', ?_, ?_, hbuffer⟩
      · rw [hloop, Option.map_some, ← List.take_add, Nat.add_sub_cancel' (by lia)]
      · rwa [List.drop_drop, Nat.add_sub_cancel' (by lia)] at hrep
    · have hall : len = n := by lia
      rw [hall] at hdrain ⊢
      exact ⟨_, rfl, hdrain, rfl⟩

theorem Represents.read (h : Represents f q) (hn : n ≤ q.length) :
    ∃ f', avFifoGenericRead f n = some (q.take n, f') ∧ Represents f' (q.drop n) ∧
      f'.buffer = f.buffer :=
  h.readLoop hn (Nat.lt_succ_self n)

theorem avFifoPeekLoop_eq (fuel : Nat) (f : AVFifoBuffer) (n : Nat) :
    avFifoPeekLoop f.buffer fuel f.rptr n = (avFifoReadLoop fuel f n).map Prod.fst := by
  induction fuel generalizing f n with
  | zero => rfl
  | succ fuel ih =>
    obtain ⟨len, hlen⟩ : ∃ len, len = min (f.buffer.length - f.rptr) n := ⟨_, rfl⟩
    have hih : avFifoPeekLoop f.buffer fuel
        (if f.buffer.length ≤ f.rptr + len then f.rptr + len - f.buffer.length
          else f.rptr + len) (n - len) =
        (avFifoReadLoop fuel (avFifoDrain f len) (n - len)).map Prod.fst :=
      ih (avFifoDrain f len) (n - len)
    rw [avFifoPeekLoop, avFifoReadLoop, ← hlen]
    split_ifs at hih ⊢
    all_goals first | rfl | rw [hih, Option.map_map, Option.map_map]; rfl

theorem Represents.peek (h : Represents f q) (hn : n ≤ q.length) :
    avFifoGenericPeek f n = some (q.take n) := by
  obtain ⟨f', hread, _⟩ := h.read hn
  rw [avFifoGenericPeek, avFifoPeekLoop_eq]
  rw [avFifoGenericRead] at hread
  rw [hread]
  rfl

/-- The loop of `av_fifo_generic_peek_at` from an index that may be the end. -/
theorem avFifoPeekAtLoop_eq {fuel start : Nat} (hstart : start ≤ buffer.length)
    (hn : n ≤ buffer.length) (hfuel : n < fuel) :
    avFifoPeekAtLoop buffer fuel start n = some (ringSlice buffer start n) := by
  induction fuel generalizing start n with
  | zero => exact absurd hfuel (Nat.not_lt_zero n)
  | succ fuel ih =>
    rw [avFifoPeekAtLoop]
    by_cases hpos : 0 < n
    · obtain ⟨rptr, hrptr⟩ : ∃ rptr, rptr = wrapIndex buffer.length start := ⟨_, rfl⟩
      obtain ⟨len, hlen⟩ : ∃ len, len = min (buffer.length - rptr) n := ⟨_, rfl⟩
      have hwrap : rptr < buffer.length := by
        rw [hrptr, wrapIndex]
        split_ifs <;> lia
      have hloop : avFifoPeekAtLoop buffer fuel (rptr + len) (n - len) =
          some (ringSlice buffer (rptr + len) (n - len)) := ih (by lia) (by lia) (by lia)
      have hsame : ringSlice buffer rptr n = ringSlice buffer start n :=
        hrptr ▸ ringSlice_wrapIndex hstart hn
      have hpiece : ringSlice buffer rptr len = slice buffer rptr len :=
        ringSlice_of_le (by lia)
      have hsplit := ringSlice_add (a := len) (b := n - len) hwrap.le (by lia)
      rw [Nat.add_sub_cancel' (by lia), hpiece, hsame,
        ringSlice_wrapIndex (by lia) (by lia)] at hsplit
      unfold wrapIndex at hrptr
      rw [if_pos hpos, ← hrptr]
      dsimp only
      rw [← hlen, hloop, Option.map_some, hsplit]
    · have hzero : n = 0 := by lia
      rw [if_neg hpos, hzero, ringSlice_zero]

theorem Represents.peekAt (h : Represents f q) {offset : Nat} (hn : offset + n ≤ q.length) :
    avFifoGenericPeekAt f offset n = some (slice q offset n) := by
  have hrptr := h.rptr
  have hle := h.le
  have hdrop := drop_ringSlice h.rptr_le h.le (show offset ≤ q.length by lia)
  rw [h.content] at hdrop
  obtain ⟨start, hstart⟩ : ∃ start, start = wrapIndex f.buffer.length (f.rptr + offset) :=
    ⟨_, rfl⟩
  have hstartle : start ≤ f.buffer.length := by
    rw [hstart, wrapIndex]
    split_ifs <;> lia
  have hsame : (if f.buffer.length - f.rptr ≤ offset then f.rptr + offset - f.buffer.length
      else f.rptr + offset) = start := by
    rw [hstart, wrapIndex]
    split_ifs <;> lia
  rw [avFifoGenericPeekAt, hsame, avFifoPeekAtLoop_eq hstartle (by lia) (Nat.lt_succ_self n), slice, hdrop, ← hstart,
    take_ringSlice hstartle (by lia) (by lia)]

/-! ## Writing -/

/-- Writing appends bytes. -/
theorem Represents.copyLoop (h : Represents f q) {src : Bytes} {fuel : Nat}
    (hspace : q.length + src.length ≤ f.buffer.length) (hfuel : src.length < fuel) :
    ∃ f', avFifoCopyLoop fuel f src = some f' ∧ Represents f' (q ++ src) ∧
      f'.buffer.length = f.buffer.length := by
  induction fuel generalizing f q src with
  | zero => exact absurd hfuel (Nat.not_lt_zero _)
  | succ fuel ih =>
    have hwptr := h.wptr_lt
    obtain ⟨len, hlen⟩ : ∃ len, len = min (f.buffer.length - f.wptr) src.length := ⟨_, rfl⟩
    have htake : (src.take len).length = len := by
      rw [List.length_take]
      lia
    have hput : Represents (fifoPut f (src.take len) len) (q ++ src.take len) := by
      have := h.put htake.ge (by lia) (by lia)
      rwa [List.take_take, Nat.min_self] at this
    have hsize : (fifoPut f (src.take len) len).buffer.length = f.buffer.length :=
      length_overwrite_of_le (by lia)
    rw [avFifoCopyLoop, ← hlen]
    split_ifs with hmore
    · have hrest : (src.drop len).length = src.length - len := List.length_drop
      have hroom : (q ++ src.take len).length + (src.drop len).length ≤
          (fifoPut f (src.take len) len).buffer.length := by
        rw [List.length_append]
        lia
      obtain ⟨f', hloop, hrep, hbuffer⟩ := ih hput hroom (by lia)
      refine ⟨f', hloop, ?_, hbuffer.trans hsize⟩
      rwa [List.append_assoc, List.take_append_drop] at hrep
    · have hall : src.take len = src := List.take_of_length_le (by lia)
      refine ⟨_, rfl, ?_, hsize⟩
      rwa [hall] at hput ⊢

theorem Represents.write (h : Represents f q) {src : Bytes}
    (hspace : q.length + src.length ≤ f.buffer.length) :
    ∃ f', avFifoGenericWrite f src = some ((src.length : Int), f') ∧ Represents f' (q ++ src) ∧
      f'.buffer.length = f.buffer.length := by
  obtain ⟨f', hloop, hrep⟩ := h.copyLoop hspace (Nat.lt_succ_self _)
  refine ⟨f', ?_, hrep⟩
  rw [avFifoGenericWrite, hloop]
  rfl

variable {ω : Type}

/-- A callback never gives more than it is asked for, and what it counts it has put there. -/
def WellBehaved (func : ω → Nat → Reply ω) : Prop :=
  ∀ src len, (func src len).block.length ≤ len ∧ (func src len).ret ≤ (func src len).block.length

/-- The bytes a callback gives when it is asked for `size` bytes in several calls: until
it has given them all or it stops. -/
inductive Delivers (func : ω → Nat → Reply ω) : ω → Nat → Bytes → Prop
  | stop {src : ω} {size len : Nat} (hlen : len ≤ size) (hpos : 0 < len ∨ size = 0)
      (hret : (func src len).ret ≤ 0) : Delivers func src size []
  | full {src : ω} {size : Nat} (hret : (func src size).ret = size) :
      Delivers func src size ((func src size).block.take size)
  | more {src : ω} {size len : Nat} {rest : Bytes} (hlen : len ≤ size)
      (hret : 0 < (func src len).ret)
      (hrest : Delivers func (func src len).next (size - (func src len).ret.toNat) rest) :
      Delivers func src size ((func src len).block.take (func src len).ret.toNat ++ rest)

variable {func : ω → Nat → Reply ω} {size : Nat}

/-- Writing through a callback appends the bytes it gives. -/
theorem Represents.writeLoop (hfunc : WellBehaved func) (h : Represents f q) (src : ω) {fuel : Nat}
    (hspace : q.length + size ≤ f.buffer.length) (hfuel : size < fuel) :
    ∃ left next f' given, avFifoWriteLoop func fuel f src size = some (left, next, f') ∧
      Delivers func src size given ∧ left + given.length = size ∧
      Represents f' (q ++ given) ∧ f'.buffer.length = f.buffer.length := by
  induction fuel generalizing f q src size with
  | zero => exact absurd hfuel (Nat.not_lt_zero _)
  | succ fuel ih =>
    have hwptr := h.wptr_lt
    obtain ⟨len, hlen⟩ : ∃ len, len = min (f.buffer.length - f.wptr) size := ⟨_, rfl⟩
    obtain ⟨hblock, hret⟩ := hfunc src len
    obtain ⟨reply, hreply⟩ : ∃ reply, reply = func src len := ⟨_, rfl⟩
    rw [← hreply] at hblock hret
    have hsame : (overwrite f.buffer f.wptr reply.block).length = f.buffer.length :=
      length_overwrite_of_le (by lia)
    rw [avFifoWriteLoop, ← hlen, ← hreply]
    by_cases hstop : reply.ret ≤ 0
    · rw [if_pos hstop]
      refine ⟨size, reply.next, _, [], rfl, ?_, rfl, ?_, hsame⟩
      · rw [hreply] at hstop
        exact Delivers.stop (by lia) (by lia) hstop
      · rw [List.append_nil]
        exact h.scribble (by lia) (by lia)
    have hput : Represents (fifoPut f reply.block reply.ret.toNat)
        (q ++ reply.block.take reply.ret.toNat) := h.put (by lia) (by lia) (by lia)
    have hgiven : (reply.block.take reply.ret.toNat).length = reply.ret.toNat := by
      rw [List.length_take]
      lia
    rw [if_neg hstop]
    dsimp only
    split_ifs with hmore
    · have hroom : (q ++ reply.block.take reply.ret.toNat).length +
          (size - reply.ret.toNat) ≤ (fifoPut f reply.block reply.ret.toNat).buffer.length := by
        rw [List.length_append, hgiven]
        show _ ≤ (overwrite f.buffer f.wptr reply.block).length
        lia
      obtain ⟨left, next, f', rest, hloop, hdel, hleft, hrep, hbuffer⟩ := ih hput reply.next
        hroom (by lia)
      refine ⟨left, next, f', reply.block.take reply.ret.toNat ++ rest, hloop, ?_, ?_, ?_,
        hbuffer.trans hsame⟩
      · rw [hreply] at hstop hdel ⊢
        exact Delivers.more (by lia) (by lia) hdel
      · rw [List.length_append, hgiven]
        lia
      · rwa [← List.append_assoc]
    · have hall : reply.ret.toNat = size ∧ len = size := by lia
      refine ⟨_, _, _, reply.block.take size, rfl, ?_, ?_, ?_, hsame⟩
      · have hfull : (func src size).ret = size := by
          rw [← hall.2, ← hreply, hall.2, ← hall.1]
          lia
        have := Delivers.full hfull
        rwa [hreply, hall.2]
      · rw [List.length_take]
        lia
      · rwa [hall.1] at hput ⊢

theorem Represents.writeFunc (hfunc : WellBehaved func) (h : Represents f q) (src : ω)
    (hspace : q.length + size ≤ f.buffer.length) :
    ∃ next f' given,
      avFifoGenericWriteFunc func f src size = some ((given.length : Int), next, f') ∧
      Delivers func src size given ∧ Represents f' (q ++ given) ∧
      f'.buffer.length = f.buffer.length := by
  obtain ⟨left, next, f', given, hloop, hdel, hleft, hrep, hbuffer⟩ :=
    h.writeLoop hfunc src hspace (Nat.lt_succ_self size)
  refine ⟨next, f', given, ?_, hdel, hrep, hbuffer⟩
  have hlength : (size : Int) - left = given.length := by lia
  rw [avFifoGenericWriteFunc, hloop, Option.map_some, hlength]

/-! ## Growing -/

/-- Growing keeps the content; it fails or the capacity reaches the new size. -/
theorem Represents.realloc2 (malloc : Malloc) (h : Represents f q) (newSize : Nat) :
    ∃ ret f', avFifoRealloc2 malloc f newSize = some (ret, f') ∧ Represents f' q ∧
      f.buffer.length ≤ f'.buffer.length ∧
      (ret = 0 ∧ newSize ≤ f'.buffer.length ∨ ret < 0 ∧ f' = f) := by
  have hle := h.le
  unfold avFifoRealloc2
  split_ifs with hnew
  · unfold avFifoAlloc
    cases hmalloc : avMalloc malloc newSize with
    | none => exact ⟨_, f, rfl, h, Nat.le_refl _, Or.inr ⟨by decide, rfl⟩⟩
    | some block =>
      obtain ⟨hblock, hsmall⟩ := length_of_avMalloc hmalloc
      obtain ⟨f', hread, _⟩ := h.read (Nat.le_refl q.length)
      rw [List.take_of_length_le (Nat.le_refl _)] at hread
      rw [Option.map_some]
      dsimp only
      rw [h.fifoCount_eq, hread, Option.map_some]
      dsimp only
      have hlength : (overwrite block 0 q).length = block.length :=
        length_overwrite_of_le (by lia)
      refine ⟨0, _, rfl, ?_, ?_, Or.inl ⟨rfl, ?_⟩⟩
      · constructor
        · show q.length ≤ (overwrite block 0 q).length
          lia
        · show (overwrite block 0 q).length < 2 ^ 31
          lia
        · exact Or.inl rfl
        · show 0 + q.length = wrapIndex (overwrite block 0 q).length (0 + q.length)
          rw [wrapIndex, if_neg (by lia)]
        · show 0 + q.length = (0 + q.length) % 2 ^ 32
          lia
        · exact Nat.two_pow_pos 32
        · have hself : ringSlice (overwrite block 0 q) 0 q.length = q :=
            ringSlice_overwrite_self (by lia)
          exact hself
      · show f.buffer.length ≤ (overwrite block 0 q).length
        lia
      · show newSize ≤ (overwrite block 0 q).length
        lia
  · exact ⟨0, f, rfl, h, Nat.le_refl _, Or.inl ⟨rfl, by lia⟩⟩

theorem Represents.grow (malloc : Malloc) (h : Represents f q) :
    ∃ ret f', avFifoGrow malloc f size = some (ret, f') ∧ Represents f' q ∧
      f.buffer.length ≤ f'.buffer.length ∧
      (ret = 0 ∧ q.length + size ≤ f'.buffer.length ∨ ret < 0 ∧ f' = f) := by
  have hle := h.le
  have hsmall := h.small
  unfold avFifoGrow
  rw [h.fifoCount_eq]
  split_ifs with hwrap
  · exact ⟨_, f, rfl, h, Nat.le_refl _, Or.inr ⟨by decide, rfl⟩⟩
  · dsimp only
    have hsum : (size + q.length) % 2 ^ 32 = q.length + size := by lia
    rw [hsum]
    split_ifs with hroom
    · obtain ⟨ret, f', heq, hrep, hmono, hret⟩ := h.realloc2 malloc
        (max (q.length + size) (2 * f.buffer.length % 2 ^ 32))
      refine ⟨ret, f', heq, hrep, hmono, hret.imp_left fun hok => ⟨hok.1, ?_⟩⟩
      exact (Nat.le_max_left _ _).trans hok.2
    · exact ⟨0, f, rfl, h, Nat.le_refl _, Or.inl ⟨rfl, by lia⟩⟩

/-! ## Runs -/

/-- An operation on a fifo.  A callback comes with its context. -/
inductive FifoOp (ω : Type)
  | write (src : Bytes)
  | writeFunc (func : ω → Nat → Reply ω) (src : ω) (size : Nat)
  | read (bufSize : Nat)
  | peek (bufSize : Nat)
  | peekAt (offset bufSize : Nat)
  | drain (size : Nat)
  | grow (malloc : Malloc) (size : Nat)
  | realloc2 (malloc : Malloc) (newSize : Nat)
  | reset

/-- The result of an operation and the bytes it gives. -/
structure FifoOutput where
  ret : Int
  dest : Bytes
  deriving DecidableEq, Repr

/-- One operation on the fifo. -/
def fifoStep (f : AVFifoBuffer) : FifoOp ω → Option (FifoOutput × AVFifoBuffer)
  | .write src => (avFifoGenericWrite f src).map fun r => (⟨r.1, []⟩, r.2)
  | .writeFunc func src size =>
    (avFifoGenericWriteFunc func f src size).map fun r => (⟨r.1, []⟩, r.2.2)
  | .read bufSize => (avFifoGenericRead f bufSize).map fun r => (⟨0, r.1⟩, r.2)
  | .peek bufSize => (avFifoGenericPeek f bufSize).map fun dest => (⟨0, dest⟩, f)
  | .peekAt offset bufSize =>
    (avFifoGenericPeekAt f offset bufSize).map fun dest => (⟨0, dest⟩, f)
  | .drain size => some (⟨0, []⟩, avFifoDrain f size)
  | .grow malloc size => (avFifoGrow malloc f size).map fun r => (⟨r.1, []⟩, r.2)
  | .realloc2 malloc newSize => (avFifoRealloc2 malloc f newSize).map fun r => (⟨r.1, []⟩, r.2)
  | .reset => some (⟨0, []⟩, avFifoReset f)

/-- What a caller has to keep to: the size and the space of the fifo, and the range of
an `unsigned int`. -/
def Permitted (f : AVFifoBuffer) : FifoOp ω → Prop
  | .write src => src.length ≤ avFifoSpace f
  | .writeFunc func _ size => WellBehaved func ∧ size ≤ avFifoSpace f
  | .read bufSize => bufSize ≤ avFifoSize f
  | .peek bufSize => bufSize ≤ avFifoSize f
  | .peekAt offset bufSize => ((offset + bufSize : Nat) : Int) ≤ avFifoSize f
  | .drain size => size ≤ avFifoSize f
  | .grow _ size => size < 2 ^ 32
  | .realloc2 _ newSize => newSize < 2 ^ 32
  | .reset => True

/-- A run of permitted operations. -/
inductive FifoRun : AVFifoBuffer → List (FifoOp ω) → List FifoOutput → AVFifoBuffer → Prop
  | nil (f : AVFifoBuffer) : FifoRun f [] [] f
  | cons {f f' f'' : AVFifoBuffer} {op : FifoOp ω} {ops : List (FifoOp ω)} {out : FifoOutput}
      {outs : List FifoOutput} (hop : Permitted f op) (hstep : fifoStep f op = some (out, f'))
      (hrun : FifoRun f' ops outs f'') : FifoRun f (op :: ops) (out :: outs) f''

/-- A queue of bytes with a capacity. -/
structure ByteQueue where
  content : Bytes
  capacity : Nat
  deriving DecidableEq, Repr

/-- What an operation means for the queue. -/
inductive ByteQueue.Step (q : ByteQueue) : FifoOp ω → FifoOutput → ByteQueue → Prop
  | write (src : Bytes) : Step q (.write src) ⟨src.length, []⟩ ⟨q.content ++ src, q.capacity⟩
  | writeFunc {func : ω → Nat → Reply ω} {src : ω} {size : Nat} {given : Bytes}
      (hgiven : Delivers func src size given) :
      Step q (.writeFunc func src size) ⟨given.length, []⟩ ⟨q.content ++ given, q.capacity⟩
  | read (n : Nat) : Step q (.read n) ⟨0, q.content.take n⟩ ⟨q.content.drop n, q.capacity⟩
  | peek (n : Nat) : Step q (.peek n) ⟨0, q.content.take n⟩ q
  | peekAt (offset n : Nat) : Step q (.peekAt offset n) ⟨0, slice q.content offset n⟩ q
  | drain (n : Nat) : Step q (.drain n) ⟨0, []⟩ ⟨q.content.drop n, q.capacity⟩
  | grow (malloc : Malloc) {size capacity : Nat} (hmono : q.capacity ≤ capacity)
      (hroom : q.content.length + size ≤ capacity) :
      Step q (.grow malloc size) ⟨0, []⟩ ⟨q.content, capacity⟩
  | growFails (malloc : Malloc) {size : Nat} {ret : Int} (hret : ret < 0) :
      Step q (.grow malloc size) ⟨ret, []⟩ q
  | realloc2 (malloc : Malloc) {newSize capacity : Nat} (hmono : q.capacity ≤ capacity)
      (hroom : newSize ≤ capacity) :
      Step q (.realloc2 malloc newSize) ⟨0, []⟩ ⟨q.content, capacity⟩
  | realloc2Fails (malloc : Malloc) {newSize : Nat} {ret : Int} (hret : ret < 0) :
      Step q (.realloc2 malloc newSize) ⟨ret, []⟩ q
  | reset : Step q .reset ⟨0, []⟩ ⟨[], q.capacity⟩

/-- A run of the queue. -/
inductive ByteQueue.Run : ByteQueue → List (FifoOp ω) → List FifoOutput → ByteQueue → Prop
  | nil (q : ByteQueue) : Run q [] [] q
  | cons {q q' q'' : ByteQueue} {op : FifoOp ω} {ops : List (FifoOp ω)} {out : FifoOutput}
      {outs : List FifoOutput} (hstep : q.Step op out q') (hrun : Run q' ops outs q'') :
      Run q (op :: ops) (out :: outs) q''

/-- A permitted operation ends, and it is one on the queue. -/
theorem fifoStep_refines (h : Represents f q) {op : FifoOp ω} (hop : Permitted f op) :
    ∃ out f' q', fifoStep f op = some (out, f') ∧ Represents f' q' ∧
      ByteQueue.Step ⟨q, f.buffer.length⟩ op out ⟨q', f'.buffer.length⟩ := by
  have hsize := h.avFifoSize_eq
  have hspace : avFifoSpace f = f.buffer.length - q.length := by rw [avFifoSpace, hsize]
  cases op with
  | write src =>
    have hle : (src.length : Int) ≤ avFifoSpace f := hop
    have hroom : q.length + src.length ≤ f.buffer.length := by lia
    obtain ⟨f', heq, hrep, hlength⟩ := h.write hroom
    refine ⟨_, f', _, by rw [fifoStep, heq]; rfl, hrep, ?_⟩
    rw [hlength]
    exact .write src
  | writeFunc func src size =>
    obtain ⟨hfunc, hle⟩ : WellBehaved func ∧ (size : Int) ≤ avFifoSpace f := hop
    have hroom : q.length + size ≤ f.buffer.length := by lia
    obtain ⟨next, f', given, heq, hgiven, hrep, hlength⟩ := h.writeFunc hfunc src hroom
    refine ⟨_, f', _, by rw [fifoStep, heq]; rfl, hrep, ?_⟩
    rw [hlength]
    exact .writeFunc hgiven
  | read n =>
    have hle : (n : Int) ≤ avFifoSize f := hop
    obtain ⟨f', heq, hrep, hbuffer⟩ := h.read (n := n) (by lia)
    refine ⟨_, f', _, by rw [fifoStep, heq]; rfl, hrep, ?_⟩
    rw [hbuffer]
    exact .read n
  | peek n =>
    have hle : (n : Int) ≤ avFifoSize f := hop
    exact ⟨_, f, q, by rw [fifoStep, h.peek (by lia)]; rfl, h, .peek n⟩
  | peekAt offset n =>
    have hle : ((offset + n : Nat) : Int) ≤ avFifoSize f := hop
    exact ⟨_, f, q, by rw [fifoStep, h.peekAt (by lia)]; rfl, h, .peekAt offset n⟩
  | drain n =>
    have hle : (n : Int) ≤ avFifoSize f := hop
    exact ⟨_, _, _, rfl, h.drain (by lia), .drain n⟩
  | grow malloc size =>
    obtain ⟨ret, f', heq, hrep, hmono, hret⟩ := h.grow malloc
    refine ⟨_, f', q, by rw [fifoStep, heq]; rfl, hrep, ?_⟩
    rcases hret with ⟨rfl, hroom⟩ | ⟨hneg, rfl⟩
    · exact .grow malloc hmono hroom
    · exact .growFails malloc hneg
  | realloc2 malloc newSize =>
    obtain ⟨ret, f', heq, hrep, hmono, hret⟩ := h.realloc2 malloc newSize
    refine ⟨_, f', q, by rw [fifoStep, heq]; rfl, hrep, ?_⟩
    rcases hret with ⟨rfl, hroom⟩ | ⟨hneg, rfl⟩
    · exact .realloc2 malloc hmono hroom
    · exact .realloc2Fails malloc hneg
  | reset => exact ⟨_, _, _, rfl, represents_fifoAllocCommon h.small, .reset⟩

theorem FifoRun.refines {f' : AVFifoBuffer} {ops : List (FifoOp ω)} {outs : List FifoOutput}
    (h : Represents f q) (hrun : FifoRun f ops outs f') :
    ∃ q', Represents f' q' ∧
      ByteQueue.Run ⟨q, f.buffer.length⟩ ops outs ⟨q', f'.buffer.length⟩ := by
  induction hrun generalizing q with
  | nil f => exact ⟨q, h, .nil _⟩
  | cons hop hstep hrun ih =>
    obtain ⟨out, f₁, q₁, heq, hrep, hqueue⟩ := fifoStep_refines h hop
    cases hstep.symm.trans heq
    obtain ⟨q', hrep', hrest⟩ := ih hrep
    exact ⟨q', hrep', .cons hqueue hrest⟩

/-- From allocation on, every permitted run of operations gives the outputs of a byte queue
that starts empty, the size of the fifo is the length of the queue and the size and the
space make up its capacity; and every further permitted operation ends. -/
theorem fifoRun_refines_byteQueue {malloc : Malloc} {size : Nat} {f f' : AVFifoBuffer}
    {ops : List (FifoOp ω)} {outs : List FifoOutput} (halloc : avFifoAlloc malloc size = some f)
    (hrun : FifoRun f ops outs f') :
    ∃ q : ByteQueue, ByteQueue.Run ⟨[], size⟩ ops outs q ∧
      avFifoSize f' = q.content.length ∧ avFifoSize f' + avFifoSpace f' = q.capacity ∧
      ∀ op : FifoOp ω, Permitted f' op → ∃ out f'', fifoStep f' op = some (out, f'') := by
  obtain ⟨block, hmalloc, rfl⟩ := Option.map_eq_some_iff.mp halloc
  obtain ⟨hblock, hsmall⟩ := length_of_avMalloc hmalloc
  have hstart : Represents (fifoAllocCommon block) [] :=
    represents_fifoAllocCommon (by lia)
  obtain ⟨q, hrep, hqueue⟩ := hrun.refines hstart
  refine ⟨⟨q, f'.buffer.length⟩, ?_, hrep.avFifoSize_eq, ?_, ?_⟩
  · rw [← hblock]
    exact hqueue
  · rw [avFifoSpace]
    exact add_sub_cancel _ _
  · intro op hop
    obtain ⟨out, f'', _, heq, _⟩ := fifoStep_refines hrep hop
    exact ⟨out, f'', heq⟩

/-- Three bytes fit, one is read, and the next write wraps around. -/
theorem fifoRun_refines_byteQueue_wrapped :
    ∃ q : ByteQueue, ByteQueue.Run (ω := Unit) ⟨[], 3⟩
        [.write [1, 2, 3], .read 1, .write [4], .peekAt 1 2]
        [⟨3, []⟩, ⟨0, [1]⟩, ⟨1, []⟩, ⟨0, [3, 4]⟩] q ∧
      avFifoSize ⟨[4, 2, 3], 1, 1, 1, 4⟩ = q.content.length ∧
      avFifoSize ⟨[4, 2, 3], 1, 1, 1, 4⟩ + avFifoSpace ⟨[4, 2, 3], 1, 1, 1, 4⟩ = q.capacity ∧
      ∀ op : FifoOp Unit, Permitted ⟨[4, 2, 3], 1, 1, 1, 4⟩ op →
        ∃ out f'', fifoStep ⟨[4, 2, 3], 1, 1, 1, 4⟩ op = some (out, f'') := by
  have halloc : avFifoAlloc zeroMalloc 3 = some ⟨[0, 0, 0], 0, 0, 0, 0⟩ := rfl
  have hwrite : Permitted (ω := Unit) ⟨[0, 0, 0], 0, 0, 0, 0⟩ (.write [1, 2, 3]) := by
    show (3 : Int) ≤ avFifoSpace _
    decide
  have hread : Permitted (ω := Unit) ⟨[1, 2, 3], 0, 0, 0, 3⟩ (.read 1) := by
    show (1 : Int) ≤ avFifoSize _
    decide
  have hwrap : Permitted (ω := Unit) ⟨[1, 2, 3], 1, 0, 1, 3⟩ (.write [4]) := by
    show (1 : Int) ≤ avFifoSpace _
    decide
  have hpeek : Permitted (ω := Unit) ⟨[4, 2, 3], 1, 1, 1, 4⟩ (.peekAt 1 2) := by
    show (3 : Int) ≤ avFifoSize _
    decide
  exact fifoRun_refines_byteQueue halloc
    (.cons hwrite rfl (.cons hread rfl (.cons hwrap rfl (.cons hpeek rfl (.nil _)))))

end FFmpeg.Libavutil
