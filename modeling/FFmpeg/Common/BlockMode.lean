import Mathlib.Tactic

/-!
# Modes of a block cipher

Cipher block chaining adds the cipher text of a block, or an initial value, to the next
block before it is encrypted.  Decryption undoes this with the same cipher texts.
-/

namespace FFmpeg.Common.BlockMode

variable {β : Type*} (add : β → β → β) (cipher : β → β)

/-- Encryption of a chain of blocks. -/
def cbcEncrypt : β → List β → List β
  | _, [] => []
  | iv, p :: ps =>
    let c := cipher (add p iv)
    c :: cbcEncrypt c ps

/-- Encryption of blocks, each by itself or chained to an initial value. -/
def encryptBlocks (iv : Option β) (blocks : List β) : List β :=
  match iv with
  | none => blocks.map cipher
  | some iv => cbcEncrypt add cipher iv blocks

@[simp] theorem encryptBlocks_nil (iv : Option β) : encryptBlocks add cipher iv [] = [] := by
  cases iv <;> rfl

/-- What the first block is before it is encrypted. -/
def chained (iv : Option β) (p : β) : β :=
  match iv with
  | none => p
  | some iv => add p iv

theorem encryptBlocks_cons (iv : Option β) (p : β) (ps : List β) :
    encryptBlocks add cipher iv (p :: ps) =
      cipher (chained add iv p) ::
        encryptBlocks add cipher (iv.map fun _ => cipher (chained add iv p)) ps := by
  cases iv <;> rfl

/-- The blocks of a string. -/
def toBlocks {α : Type*} (width : Nat) : Nat → List α → List (List α)
  | 0, _ => []
  | n + 1, l => l.take width :: toBlocks width n (l.drop width)

example : toBlocks 2 2 [1, 2, 3, 4] = [[1, 2], [3, 4]] := by
  rw [toBlocks]
  rfl

variable {α : Type*}

theorem flatten_toBlocks (width n : Nat) (l : List α) :
    (toBlocks width n l).flatten = l.take (width * n) := by
  induction n generalizing l with
  | zero => rw [Nat.mul_zero]; rfl
  | succ n ih =>
    rw [toBlocks, List.flatten_cons, ih, Nat.mul_succ, Nat.add_comm, List.take_add]

variable {width : Nat}

theorem toBlocks_flatten {blocks : List (List α)} (h : ∀ b ∈ blocks, b.length = width) :
    toBlocks width blocks.length blocks.flatten = blocks := by
  induction blocks with
  | nil => rfl
  | cons b blocks ih =>
    have hb := h b List.mem_cons_self
    rw [List.length_cons, List.flatten_cons, toBlocks, List.take_left' hb, List.drop_left' hb,
      ih fun c hc => h c (List.mem_cons_of_mem b hc)]

theorem length_toBlocks (width n : Nat) (l : List α) : (toBlocks width n l).length = n := by
  induction n generalizing l with
  | zero => rfl
  | succ n ih => rw [toBlocks, List.length_cons, ih]

theorem length_of_mem_toBlocks {n : Nat} {l b : List α} (hl : width * n ≤ l.length)
    (hb : b ∈ toBlocks width n l) : b.length = width := by
  induction n generalizing l with
  | zero => cases hb
  | succ n ih =>
    rw [Nat.mul_succ] at hl
    rcases List.mem_cons.mp hb with rfl | hrest
    · rw [List.length_take]
      lia
    · apply ih ?_ hrest
      rw [List.length_drop]
      lia

theorem length_encryptBlocks (iv : Option β) (blocks : List β) :
    (encryptBlocks add cipher iv blocks).length = blocks.length := by
  induction blocks generalizing iv with
  | nil => rw [encryptBlocks_nil]
  | cons p ps ih => rw [encryptBlocks_cons, List.length_cons, List.length_cons, ih]

variable {P : β → Prop}

theorem forall_mem_encryptBlocks (hcipher : ∀ b, P (cipher b)) (iv : Option β) (blocks : List β) :
    ∀ c ∈ encryptBlocks add cipher iv blocks, P c := by
  induction blocks generalizing iv with
  | nil =>
    rw [encryptBlocks_nil]
    exact nofun
  | cons p ps ih =>
    intro c hc
    rw [encryptBlocks_cons] at hc
    rcases List.mem_cons.mp hc with rfl | hrest
    · exact hcipher _
    · exact ih _ c hrest

/-! ## Chains of blocks -/

theorem cbcEncrypt_append (iv : β) (ps qs : List β) :
    cbcEncrypt add cipher iv (ps ++ qs) = cbcEncrypt add cipher iv ps ++
      cbcEncrypt add cipher ((cbcEncrypt add cipher iv ps).getLastD iv) qs := by
  induction ps generalizing iv with
  | nil => rfl
  | cons p ps ih =>
    rw [List.cons_append, cbcEncrypt, cbcEncrypt, ih, List.getLastD_cons, List.cons_append]

variable (decipher : β → β)

/-- Decryption of a chain of blocks. -/
def cbcDecrypt : β → List β → List β
  | _, [] => []
  | iv, c :: cs => add (decipher c) iv :: cbcDecrypt c cs

theorem cbcDecrypt_append (iv : β) (cs ds : List β) :
    cbcDecrypt add decipher iv (cs ++ ds) =
      cbcDecrypt add decipher iv cs ++ cbcDecrypt add decipher (cs.getLastD iv) ds := by
  induction cs generalizing iv with
  | nil => rfl
  | cons c cs ih => rw [List.cons_append, cbcDecrypt, cbcDecrypt, ih, List.getLastD_cons,
      List.cons_append]

theorem length_cbcDecrypt (iv : β) (cs : List β) :
    (cbcDecrypt add decipher iv cs).length = cs.length := by
  induction cs generalizing iv with
  | nil => rfl
  | cons c cs ih => rw [cbcDecrypt, List.length_cons, ih, List.length_cons]

variable {iv : β}

theorem cbcDecrypt_cbcEncrypt (hcipher : ∀ b, P (cipher b))
    (hundo : ∀ p iv, P p → P iv → add (decipher (cipher (add p iv))) iv = p) (hiv : P iv)
    {ps : List β} (hps : ∀ p ∈ ps, P p) :
    cbcDecrypt add decipher iv (cbcEncrypt add cipher iv ps) = ps := by
  induction ps generalizing iv with
  | nil => rfl
  | cons p ps ih =>
    rw [cbcEncrypt, cbcDecrypt, hundo p iv (hps p List.mem_cons_self) hiv,
      ih (hcipher _) fun q hq => hps q (List.mem_cons_of_mem p hq)]

variable {cs : List β}

theorem cbcEncrypt_cbcDecrypt
    (hundo : ∀ c iv, P c → P iv → cipher (add (add (decipher c) iv) iv) = c) (hiv : P iv)
    (hcs : ∀ c ∈ cs, P c) :
    cbcEncrypt add cipher iv (cbcDecrypt add decipher iv cs) = cs := by
  induction cs generalizing iv with
  | nil => rfl
  | cons c cs ih =>
    have hc := hcs c List.mem_cons_self
    rw [cbcDecrypt, cbcEncrypt, hundo c iv hc hiv,
      ih hc fun d hd => hcs d (List.mem_cons_of_mem c hd)]

theorem forall_mem_cbcDecrypt (hadd : ∀ c iv, P c → P iv → P (add (decipher c) iv)) (hiv : P iv)
    (hcs : ∀ c ∈ cs, P c) :
    ∀ p ∈ cbcDecrypt add decipher iv cs, P p := by
  induction cs generalizing iv with
  | nil => exact nofun
  | cons c cs ih =>
    have hc := hcs c List.mem_cons_self
    intro p hp
    rcases List.mem_cons.mp hp with rfl | hrest
    · exact hadd c iv hc hiv
    · exact ih hc (fun d hd => hcs d (List.mem_cons_of_mem c hd)) p hrest

/-! ## Strings of whole blocks -/

theorem toBlocks_append {n m : Nat} {l : List α} (hl : l.length = width * n) (k : List α) :
    toBlocks width (n + m) (l ++ k) = toBlocks width n l ++ toBlocks width m k := by
  induction n generalizing l with
  | zero =>
    obtain rfl : l = [] := List.eq_nil_of_length_eq_zero (by lia)
    rw [Nat.zero_add]
    rfl
  | succ n ih =>
    rw [Nat.mul_succ] at hl
    rw [show n + 1 + m = (n + m) + 1 by lia, toBlocks, toBlocks,
      List.take_append_of_le_length (by lia), List.drop_append_of_le_length (by lia),
      ih (by rw [List.length_drop]; lia), List.cons_append]

theorem getLastD_toBlocks {n : Nat} {l : List α} (hl : l.length = width * n) {iv : List α}
    (hiv : iv.length = width) :
    (toBlocks width n l).getLastD iv = (iv ++ l).drop l.length := by
  induction n generalizing iv l with
  | zero =>
    obtain rfl : l = [] := List.eq_nil_of_length_eq_zero (by lia)
    rw [List.append_nil]
    rfl
  | succ n ih =>
    rw [Nat.mul_succ] at hl
    have hfront : (l.take width).length = width := by
      rw [List.length_take]
      lia
    have hrest : (l.drop width).length = width * n := by
      rw [List.length_drop]
      lia
    have hgone : iv.drop l.length = [] := List.drop_eq_nil_of_le (by lia)
    rw [toBlocks, List.getLastD_cons, ih hrest hfront, List.take_append_drop, List.length_drop,
      List.drop_append, hgone, List.nil_append, hiv]

end FFmpeg.Common.BlockMode
