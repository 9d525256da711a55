import FFmpeg.Common.Bytes

/-!
# Adding a key stream

A stream cipher adds byte `i` of a key stream to byte `i` of a text.  What is known of
the text from byte `pos` on is changed by the stream from `pos` on, so a text may come in
pieces, and adding the stream twice gives the text back.
-/

namespace FFmpeg.Common

/-- The text `x`, which begins at byte `pos`, with the stream added. -/
def addStream (stream : Nat → UInt8) : Nat → Bytes → Bytes
  | _, [] => []
  | pos, b :: x => (b ^^^ stream pos) :: addStream stream (pos + 1) x

example : addStream UInt8.ofNat 1 [5, 6] = [4, 4] := by
  rw [addStream]
  rfl

variable (stream : Nat → UInt8)

@[simp] theorem addStream_nil (pos : Nat) : addStream stream pos [] = [] := rfl

@[simp] theorem length_addStream (pos : Nat) (x : Bytes) :
    (addStream stream pos x).length = x.length := by
  induction x generalizing pos with
  | nil => rfl
  | cons b x ih => rw [addStream, List.length_cons, List.length_cons, ih]

theorem addStream_append (pos : Nat) (x y : Bytes) :
    addStream stream pos (x ++ y) =
      addStream stream pos x ++ addStream stream (pos + x.length) y := by
  induction x generalizing pos with
  | nil => rfl
  | cons b x ih =>
    rw [List.cons_append, addStream, addStream, ih, List.cons_append, List.length_cons,
      Nat.add_assoc, Nat.add_comm 1]

theorem addStream_addStream (pos : Nat) (x : Bytes) :
    addStream stream pos (addStream stream pos x) = x := by
  induction x generalizing pos with
  | nil => rfl
  | cons b x ih =>
    rw [addStream, addStream, ih, UInt8.xor_assoc, UInt8.xor_self, UInt8.xor_zero]

theorem zipWith_eq_addStream {stream : Nat → UInt8} {pos : Nat} {x key : Bytes}
    (hlength : x.length ≤ key.length) (hkey : ∀ i < x.length, key[i]? = some (stream (pos + i))) :
    List.zipWith (· ^^^ ·) x key = addStream stream pos x := by
  induction x generalizing pos key with
  | nil => rfl
  | cons b x ih =>
    obtain ⟨k, key, rfl⟩ := List.exists_cons_of_length_pos (Nat.lt_of_lt_of_le (Nat.succ_pos _) hlength)
    have hk : k = stream pos := Option.some.inj (hkey 0 (Nat.succ_pos _))
    have htail : List.zipWith (· ^^^ ·) x key = addStream stream (pos + 1) x := by
      refine ih (Nat.le_of_succ_le_succ hlength) fun i hi => ?_
      have hnext := hkey (i + 1) (Nat.succ_lt_succ hi)
      rwa [List.getElem?_cons_succ, Nat.add_left_comm, Nat.add_comm i] at hnext
    rw [List.zipWith_cons_cons, addStream, hk, htail]

end FFmpeg.Common
