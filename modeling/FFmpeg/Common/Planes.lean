import Mathlib.Data.List.GetD
import Mathlib.Tactic
import FFmpeg.Common.File

/-!
# Planes

A sequence of frames, each of which has one sample of a fixed width for each of several
planes, and the planes, in which the samples of all frames lie one behind the other.
-/

namespace FFmpeg.Common

variable {α : Type*}

/-- The samples of one frame, one for each plane. -/
abbrev Frame (α : Type*) := List (List α)

/-- The samples of all frames in one plane. -/
def plane (frames : List (Frame α)) (i : Nat) : List α :=
  frames.flatMap fun frame => frame.getD i []

/-- The first `n` frames of some planes. -/
def framesOf (width n : Nat) (planes : List (List α)) : List (Frame α) :=
  (List.range n).map fun k => planes.map fun samples => slice samples (k * width) width

/-- Frames of a number of planes, with samples of a width. -/
def Framed (planes width : Nat) (frames : List (Frame α)) : Prop :=
  ∀ frame ∈ frames, frame.length = planes ∧ ∀ sample ∈ frame, sample.length = width

variable {planes width : Nat} {frames more : List (Frame α)} {i n : Nat}

@[simp] theorem plane_nil (i : Nat) : plane ([] : List (Frame α)) i = [] := rfl

theorem plane_append (frames more : List (Frame α)) (i : Nat) :
    plane (frames ++ more) i = plane frames i ++ plane more i :=
  List.flatMap_append

/-! ## Frames of the right shape -/

theorem framed_nil : Framed planes width ([] : List (Frame α)) :=
  fun _ hframe => nomatch hframe

theorem Framed.append (h : Framed planes width frames) (hmore : Framed planes width more) :
    Framed planes width (frames ++ more) := by
  intro frame hframe
  rcases List.mem_append.mp hframe with hold | hnew
  · exact h frame hold
  · exact hmore frame hnew

theorem Framed.sublist (h : Framed planes width frames) (hmore : more.Sublist frames) :
    Framed planes width more :=
  fun frame hframe => h frame (hmore.subset hframe)

theorem Framed.length_sample (h : Framed planes width frames) (hi : i < planes)
    {frame : Frame α} (hframe : frame ∈ frames) : (frame.getD i []).length = width := by
  obtain ⟨hlength, hsample⟩ := h frame hframe
  rw [List.getD_eq_getElem frame [] (by lia)]
  exact hsample _ (List.getElem_mem _)

theorem Framed.length_plane (h : Framed planes width frames) (hi : i < planes) :
    (plane frames i).length = frames.length * width := by
  induction frames with
  | nil => rw [plane_nil, List.length_nil, List.length_nil, Nat.zero_mul]
  | cons frame frames ih =>
    have hsample := h.length_sample hi (List.mem_cons_self (a := frame) (l := frames))
    have hrest := ih (h.sublist (List.sublist_cons_self frame frames))
    rw [plane] at hrest ⊢
    rw [List.flatMap_cons, List.length_append, hsample, hrest, List.length_cons]
    ring

theorem Framed.plane_split (h : Framed planes width frames) (hi : i < planes) (n : Nat) :
    (plane frames i).take (n * width) = plane (frames.take n) i ∧
      (plane frames i).drop (n * width) = plane (frames.drop n) i := by
  have hjoin : plane frames i = plane (frames.take n) i ++ plane (frames.drop n) i := by
    rw [← plane_append, List.take_append_drop]
  have hlength := (h.sublist (List.take_sublist n frames)).length_plane hi
  rw [List.length_take] at hlength
  rcases Nat.le_total n frames.length with hn | hn
  · rw [Nat.min_eq_left hn] at hlength
    rw [hjoin]
    exact ⟨List.take_left' hlength, List.drop_left' hlength⟩
  · have hall := h.length_plane hi
    have hle : frames.length * width ≤ n * width := Nat.mul_le_mul_right width hn
    rw [List.take_of_length_le hn, List.drop_of_length_le hn, plane_nil,
      List.take_of_length_le (by lia), List.drop_of_length_le (by lia)]
    exact ⟨rfl, rfl⟩

theorem Framed.take_plane (h : Framed planes width frames) (hi : i < planes) (n : Nat) :
    (plane frames i).take (n * width) = plane (frames.take n) i :=
  (h.plane_split hi n).1

theorem Framed.drop_plane (h : Framed planes width frames) (hi : i < planes) (n : Nat) :
    (plane frames i).drop (n * width) = plane (frames.drop n) i :=
  (h.plane_split hi n).2

theorem Framed.slice_plane (h : Framed planes width frames) (hi : i < planes)
    (offset n : Nat) :
    slice (plane frames i) (offset * width) (n * width) = plane (slice frames offset n) i := by
  rw [slice, h.drop_plane hi, slice]
  exact (h.sublist (List.drop_sublist offset frames)).take_plane hi n

/-! ## Planes cut into frames -/

@[simp] theorem length_framesOf (width n : Nat) (data : List (List α)) :
    (framesOf width n data).length = n := by
  rw [framesOf, List.length_map, List.length_range]

variable {data : List (List α)}

theorem framed_framesOf (h : ∀ samples ∈ data, n * width ≤ samples.length) :
    Framed data.length width (framesOf width n data) := by
  intro frame hframe
  obtain ⟨k, hk, rfl⟩ := List.mem_map.mp hframe
  refine ⟨List.length_map _, ?_⟩
  intro sample hsample
  obtain ⟨samples, hmem, rfl⟩ := List.mem_map.mp hsample
  have hlength := h samples hmem
  have hle : (k + 1) * width ≤ n * width :=
    Nat.mul_le_mul_right width (List.mem_range.mp hk)
  rw [length_slice]
  rw [Nat.add_mul, Nat.one_mul] at hle
  lia

theorem plane_framesOf (hi : i < data.length) (n : Nat) :
    plane (framesOf width n data) i = (data.getD i []).take (n * width) := by
  induction n with
  | zero => rw [Nat.zero_mul, List.take_zero]; rfl
  | succ n ih =>
    have hlast : framesOf width (n + 1) data = framesOf width n data ++
        [data.map fun samples => slice samples (n * width) width] := by
      rw [framesOf, List.range_succ, List.map_append, framesOf, List.map_singleton]
    have hframe : plane [data.map fun samples => slice samples (n * width) width] i =
        slice (data.getD i []) (n * width) width := by
      rw [plane, List.flatMap_singleton, List.getD_eq_getElem _ _ (by rwa [List.length_map]),
        List.getElem_map, List.getD_eq_getElem _ _ hi]
    rw [hlast, plane_append, ih, hframe, Nat.add_mul, Nat.one_mul, List.take_add, slice]

end FFmpeg.Common
