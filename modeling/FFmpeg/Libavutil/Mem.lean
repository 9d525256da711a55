import FFmpeg.Common.Bytes
import FFmpeg.Common.Overwrite
import Mathlib.Tactic

/-!
# Memory

The allocation functions of `libavutil/mem.c`, over what the system returns.
-/

namespace FFmpeg.Libavutil

open Common

/-- What `malloc` returns for a size: no memory, or a block of that size with any
content. -/
abbrev Malloc :=
  (size : Nat) → Option { block : Bytes // block.length = size }

/-- `av_malloc`, with the default of `max_alloc_size`, which is `INT_MAX`. -/
def avMalloc (malloc : Malloc) (size : Nat) : Option Bytes :=
  if 2 ^ 31 - 1 < size then none else (malloc size).map Subtype.val

/-- `av_realloc` for a positive size: a new block that begins with the old one. -/
def avRealloc (malloc : Malloc) (ptr : Bytes) (size : Nat) : Option Bytes :=
  (avMalloc malloc size).map fun block => overwrite block 0 (ptr.take size)

/-- `av_fast_realloc`: the block, or nothing, and the new value of `size`. -/
def avFastRealloc (malloc : Malloc) (ptr : Bytes) (size minSize : Nat) : Option Bytes × Nat :=
  if minSize ≤ size then (some ptr, size)
  else if 2 ^ 31 - 1 < minSize then (none, 0)
  else
    let minSize := min (2 ^ 31 - 1) (max (minSize + minSize / 16 + 32) minSize)
    match avRealloc malloc ptr minSize with
    | none => (none, 0)
    | some block => (some block, minSize)

/-- `av_fast_malloc`: the block that is at the pointer then, and the new value of `size`. -/
def avFastMalloc (malloc : Malloc) (ptr : Option Bytes) (size minSize : Nat) : Option Bytes × Nat :=
  if minSize ≤ size then (ptr, size)
  else
    let minSize := max (minSize + minSize / 16 + 32) minSize
    match avMalloc malloc minSize with
    | none => (none, 0)
    | some block => (some block, minSize)

/-- Memory that is all zero. -/
def zeroMalloc : Malloc :=
  fun size => some ⟨List.replicate size 0, List.length_replicate⟩

variable {malloc : Malloc} {size : Nat}

theorem length_of_avMalloc {block : Bytes} (h : avMalloc malloc size = some block) :
    block.length = size ∧ size < 2 ^ 31 := by
  unfold avMalloc at h
  split_ifs at h with hsize
  obtain ⟨b, _, hb⟩ := Option.map_eq_some_iff.mp h
  exact ⟨hb ▸ b.property, by lia⟩

/-- A reallocated block has the new size, which the limit admits, and keeps what fits
of the old block. -/
theorem avRealloc_some {ptr block : Bytes} (h : avRealloc malloc ptr size = some block) :
    block.length = size ∧ size < 2 ^ 31 ∧
      ∀ k, k ≤ ptr.length → k ≤ size → block.take k = ptr.take k := by
  obtain ⟨fresh, hfresh, rfl⟩ := Option.map_eq_some_iff.mp h
  obtain ⟨hlen, hsmall⟩ := length_of_avMalloc hfresh
  have hkept : (ptr.take size).length ≤ fresh.length := by
    rw [List.length_take, hlen]
    exact Nat.min_le_left _ _
  refine ⟨?_, hsmall, ?_⟩
  · rw [length_overwrite_of_le (by lia), hlen]
  · intro k hk hsize
    have hfront : (overwrite fresh 0 (ptr.take size)).take (ptr.take size).length =
        ptr.take size := by
      simp [overwrite]
    have hlong : k ≤ (ptr.take size).length := by
      rw [List.length_take]
      exact Nat.le_min.mpr ⟨hsize, hk⟩
    calc (overwrite fresh 0 (ptr.take size)).take k
        = ((overwrite fresh 0 (ptr.take size)).take (ptr.take size).length).take k := by
          rw [List.take_take, Nat.min_eq_left hlong]
      _ = ptr.take k := by rw [hfront, List.take_take, Nat.min_eq_left hsize]

theorem avFastRealloc_some {ptr block : Bytes} {size' minSize : Nat} (hsize : size ≤ ptr.length)
    (h : avFastRealloc malloc ptr size minSize = (some block, size')) :
    minSize ≤ size' ∧ size ≤ size' ∧ size' ≤ block.length ∧
      ∀ k, k ≤ ptr.length → k ≤ size' → block.take k = ptr.take k := by
  unfold avFastRealloc at h
  split_ifs at h with hfits hlarge
  · obtain ⟨hblock, rfl⟩ := Prod.mk.inj h
    rw [Option.some.inj hblock] at hsize ⊢
    exact ⟨hfits, le_rfl, hsize, fun _ _ _ => rfl⟩
  · simp at h
  · dsimp only at h
    split at h
    · simp at h
    · rename_i found hfound
      obtain ⟨hblock, rfl⟩ := Prod.mk.inj h
      rw [Option.some.inj hblock] at hfound
      obtain ⟨hlength, -, htake⟩ := avRealloc_some hfound
      exact ⟨by lia, by lia, hlength.ge, htake⟩

end FFmpeg.Libavutil
