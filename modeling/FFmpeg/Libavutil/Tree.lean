import Mathlib.Tactic

/-!
# Balanced search trees

The tree of `libavutil/tree.c`.  An element is whatever the tree's `void *elem`
points to, and the comparison function is a parameter, with the sign of its
`int` result as in C.  A node slot handed in or out through `*next` is a `Bool`:
whether it is not `NULL`.
-/

namespace FFmpeg.Libavutil

variable {α κ : Type*}

/-- `AVTreeNode *`: `NULL`, or a node with `child[0]`, `elem`, `state` and
`child[1]`. -/
inductive AVTree (α : Type*)
  | nil
  | node (child0 : AVTree α) (elem : α) (state : Int) (child1 : AVTree α)
  deriving DecidableEq, Repr

namespace AVTree

/-- The elements, from `child[0]` to `child[1]`. -/
def elems : AVTree α → List α
  | nil => []
  | node l e _ r => l.elems ++ e :: r.elems

/-- Whether the pointer is `NULL`. -/
def isNil : AVTree α → Bool
  | nil => true
  | node .. => false

/-- `t->state`. -/
def state : AVTree α → Int
  | nil => 0
  | node _ _ s _ => s

/-- The node with `same` at `child[i]` and `other` at `child[i ^ 1]`. -/
def join (i : Bool) (other : AVTree α) (e : α) (s : Int) (same : AVTree α) : AVTree α :=
  if i then node other e s same else node same e s other

/-- `child[i]`. -/
def child (i : Bool) : AVTree α → AVTree α
  | nil => nil
  | node l _ _ r => if i then r else l

/-- The tree with every element replaced by its image: an update of the data the
elements point to. -/
def map (f : α → α) : AVTree α → AVTree α
  | nil => nil
  | node l e s r => node (l.map f) (f e) s (r.map f)

@[simp] theorem elems_nil : (nil : AVTree α).elems = [] := rfl

@[simp] theorem elems_node (l r : AVTree α) (e : α) (s : Int) :
    (node l e s r).elems = l.elems ++ e :: r.elems := rfl

theorem elems_join (i : Bool) (other same : AVTree α) (e : α) (s : Int) :
    (join i other e s same).elems =
      if i then other.elems ++ e :: same.elems else same.elems ++ e :: other.elems := by
  cases i <;> rfl

theorem elems_map (f : α → α) (t : AVTree α) : (t.map f).elems = t.elems.map f := by
  induction t with
  | nil => rfl
  | node l e s r ihl ihr => simp [map, ihl, ihr]

theorem join_child (i : Bool) (l : AVTree α) (e : α) (s : Int) (r : AVTree α) :
    join i (child (!i) (node l e s r)) e s (child i (node l e s r)) = node l e s r := by
  cases i <;> rfl

end AVTree

open AVTree

/-! ## Searching -/

/-- The array `next[2]`: the neighbours found so far. -/
structure Next (α : Type*) where
  next0 : Option α
  next1 : Option α
  deriving DecidableEq, Repr

/-- `next[i]`. -/
def Next.get (next : Next α) (i : Bool) : Option α :=
  if i then next.next1 else next.next0

/-- `av_tree_find`. -/
def avTreeFind (cmp : κ → α → Int) (key : κ) : AVTree α → Next α → Option α × Next α
  | .nil, next => (none, next)
  | .node l e _ r, next =>
    let v := cmp key e
    if v < 0 then avTreeFind cmp key l { next with next1 := some e }
    else if 0 < v then avTreeFind cmp key r { next with next0 := some e }
    else (some e, (avTreeFind cmp key r (avTreeFind cmp key l next).2).2)

variable {cmp : κ → α → Int} {key : κ} {t : AVTree α} {next : Next α} {e : α}

theorem avTreeFind_some (h : (avTreeFind cmp key t next).1 = some e) :
    e ∈ t.elems ∧ cmp key e = 0 := by
  induction t generalizing next with
  | nil => simp [avTreeFind] at h
  | node l x s r ihl ihr =>
    simp only [avTreeFind] at h
    split_ifs at h with hlt hgt
    · exact ⟨by simp [(ihl h).1], (ihl h).2⟩
    · exact ⟨by simp [(ihr h).1], (ihr h).2⟩
    · obtain rfl : x = e := by simpa using h
      exact ⟨by simp, by omega⟩

/-- The lower neighbour is the one known before, or it is in the tree and below
the key. -/
theorem avTreeFind_next0 (h : (avTreeFind cmp key t next).2.next0 = some e) :
    next.next0 = some e ∨ (e ∈ t.elems ∧ 0 < cmp key e) := by
  induction t generalizing next with
  | nil => exact Or.inl h
  | node l x s r ihl ihr =>
    simp only [avTreeFind] at h
    split_ifs at h with hlt hgt
    · rcases ihl h with hold | ⟨hmem, hpos⟩
      · exact Or.inl hold
      · exact Or.inr ⟨by simp [hmem], hpos⟩
    · rcases ihr h with hold | ⟨hmem, hpos⟩
      · obtain rfl : x = e := by simpa using hold
        exact Or.inr ⟨by simp, hgt⟩
      · exact Or.inr ⟨by simp [hmem], hpos⟩
    · rcases ihr h with hold | ⟨hmem, hpos⟩
      · rcases ihl hold with hold | ⟨hmem, hpos⟩
        · exact Or.inl hold
        · exact Or.inr ⟨by simp [hmem], hpos⟩
      · exact Or.inr ⟨by simp [hmem], hpos⟩

/-- The neighbours are in the tree if they were not known before. -/
theorem avTreeFind_next_mem {i : Bool} (h : (avTreeFind cmp key t next).2.get i = some e) :
    next.get i = some e ∨ e ∈ t.elems := by
  induction t generalizing next with
  | nil => exact Or.inl h
  | node l x s r ihl ihr =>
    simp only [avTreeFind] at h
    split_ifs at h with hlt hgt
    · rcases ihl h with hold | hmem
      · cases i with
        | false => exact Or.inl hold
        | true =>
          obtain rfl : x = e := by simpa [Next.get] using hold
          exact Or.inr (by simp)
      · exact Or.inr (by simp [hmem])
    · rcases ihr h with hold | hmem
      · cases i with
        | false =>
          obtain rfl : x = e := by simpa [Next.get] using hold
          exact Or.inr (by simp)
        | true => exact Or.inl hold
      · exact Or.inr (by simp [hmem])
    · rcases ihr h with hold | hmem
      · rcases ihl hold with hold | hmem
        · exact Or.inl hold
        · exact Or.inr (by simp [hmem])
      · exact Or.inr (by simp [hmem])

/-! ## Inserting and removing -/

/-- The state `child[j]` gets in a double rotation around a node of state `s`. -/
def childState (j : Bool) (s : Int) : Int :=
  if j then (if s < 0 then 1 else 0) else (if 0 < s then -1 else 0)

/-- The rotation of a node whose state reached 2 or -2 towards `child[i]`.  A
subtree without the nodes to be moved, where the source would follow a `NULL`
pointer, is left as it is. -/
def rotate (i : Bool) : AVTree α → AVTree α
  | .nil => .nil
  | .node l e s r =>
    match child i (.node l e s r) with
    | .nil => .node l e s r
    | .node cl ce cs cr =>
      let outer := child i (.node cl ce cs cr)
      let inner := child (!i) (.node cl ce cs cr)
      let far := child (!i) (.node l e s r)
      if cs * 2 = -s then
        match inner with
        | .nil => .node l e s r
        | .node gl ge gs gr =>
          join i (join i far e (childState (!i) gs) (child (!i) (.node gl ge gs gr))) ge 0
            (join i (child i (.node gl ge gs gr)) ce (childState i gs) outer)
      else
        let state := if cs ≠ 0 then 0 else s / 2
        join i (join i far e state inner) ce (-state) outer

/-- The way back up after the height of the subtree changed: `t->state` moves
towards `child[i]`, and the node is rotated when it is out of balance. -/
def retrace (i : Bool) (l : AVTree α) (e : α) (s : Int) (r : AVTree α) : AVTree α :=
  let state := s + if i then 1 else -1
  if state % 2 = 0 ∧ state ≠ 0 then rotate i (.node l e state r) else .node l e state r

/-- The part of `av_tree_insert` after the recursive call for `child[i]`, which
gave `sub`. -/
def ascend (i : Bool) (l : AVTree α) (e : α) (s : Int) (r : AVTree α) (key : α)
    (sub : AVTree α × Option α × Bool) : AVTree α × Option α × Bool :=
  let (c, ret, next) := sub
  let l := if i then l else c
  let r := if i then c else r
  match ret with
  | some ret => (.node l e s r, some ret, next)
  | none =>
    let t := retrace (i != next) l e s r
    if decide (t.state = 0) != next then (t, some key, next) else (t, none, next)

/-- `av_tree_insert`: the new tree, the returned element, and whether `*next`
holds a node at the end.  With `*next` a node at the start the key is inserted,
else it is removed. -/
def avTreeInsert (cmp : α → α → Int) : AVTree α → α → Bool → AVTree α × Option α × Bool
  | .nil, key, next =>
    if next then (.node .nil key 0 .nil, none, false) else (.nil, some key, false)
  | .node l e s r, key, next =>
    let v := cmp e key
    if v = 0 then
      if next then (.node l e s r, some e, next)
      else if l.isNil ∧ r.isNil then (.nil, none, true)
      else
        -- the removed element is replaced by its neighbour in the subtree `i`
        let i := l.isNil
        let found := (avTreeFind cmp key (if i then r else l) ⟨none, none⟩).2.get i
        let e := found.getD e
        if i then ascend i l e s r e (avTreeInsert cmp r e next)
        else ascend i l e s r e (avTreeInsert cmp l e next)
    else if v < 0 then ascend true l e s r key (avTreeInsert cmp r key next)
    else ascend false l e s r key (avTreeInsert cmp l key next)

@[simp] theorem elems_rotate (i : Bool) (t : AVTree α) : (rotate i t).elems = t.elems := by
  cases t with
  | nil => rfl
  | node l e s r =>
    -- the heavy subtree, and in it the one that moves over
    cases hc : child i (.node l e s r) with
    | nil => simp only [rotate, hc]
    | node cl ce cs cr =>
      have ht := join_child i l e s r
      have hct := join_child i cl ce cs cr
      rw [hc, ← hct] at ht
      simp only [rotate, hc]
      split
      · cases hg : child (!i) (.node cl ce cs cr) with
        | nil => rfl
        | node gl ge gs gr =>
          have hgt := join_child i gl ge gs gr
          rw [hg, ← hgt] at ht
          refine Eq.trans ?_ (congrArg elems ht)
          cases i <;> simp [elems_join]
      · refine Eq.trans ?_ (congrArg elems ht)
        cases i <;> simp [elems_join]

@[simp] theorem elems_retrace (i : Bool) (l r : AVTree α) (e : α) (s : Int) :
    (retrace i l e s r).elems = l.elems ++ e :: r.elems := by
  unfold retrace
  generalize s + (if i = true then 1 else -1) = state
  dsimp only
  split_ifs
  · rw [elems_rotate, elems_node]
  · rw [elems_node]

theorem elems_ascend (i : Bool) (l r : AVTree α) (e key : α) (s : Int)
    (sub : AVTree α × Option α × Bool) :
    (ascend i l e s r key sub).1.elems =
      (if i then l else sub.1).elems ++ e :: (if i then sub.1 else r).elems := by
  obtain ⟨c, ret, next⟩ := sub
  unfold ascend
  cases ret with
  | some ret => rfl
  | none =>
    have hsplit (c : Prop) [Decidable c] (t : AVTree α) :
        (if c then (t, some key, next) else (t, none, next)).1 = t := by
      split <;> rfl
    dsimp only
    rw [hsplit]
    exact elems_retrace _ _ _ _ _

theorem replacement_mem {cmp : α → α → Int} {key x : α} {i : Bool}
    (h : x = ((avTreeFind cmp key t ⟨none, none⟩).2.get i).getD e) : x = e ∨ x ∈ t.elems := by
  cases hf : (avTreeFind cmp key t ⟨none, none⟩).2.get i with
  | none => exact Or.inl (by rw [h, hf, Option.getD_none])
  | some y =>
    rw [hf, Option.getD_some] at h
    subst h
    rcases avTreeFind_next_mem hf with hnone | hmem
    · cases i <;> simp [Next.get] at hnone
    · exact Or.inr hmem

/-- Nothing but the key comes into the tree. -/
theorem mem_avTreeInsert {cmp : α → α → Int} {key x : α} {next : Bool}
    (h : x ∈ (avTreeInsert cmp t key next).1.elems) : x = key ∨ x ∈ t.elems := by
  induction t generalizing key next with
  | nil =>
    cases next
    · simp [avTreeInsert] at h
    · exact Or.inl (by simpa [avTreeInsert] using h)
  | node l e s r ihl ihr =>
    have hright (a k : α) (hk : x = k → x = key ∨ x ∈ l.elems ∨ x = e ∨ x ∈ r.elems)
        (ha : x = a → x = key ∨ x ∈ l.elems ∨ x = e ∨ x ∈ r.elems)
        (h : x ∈ (ascend true l a s r k (avTreeInsert cmp r k next)).1.elems) :
        x = key ∨ x ∈ l.elems ∨ x = e ∨ x ∈ r.elems := by
      rw [elems_ascend, if_pos rfl, if_pos rfl, List.mem_append, List.mem_cons] at h
      rcases h with h | h | h
      · exact Or.inr (Or.inl h)
      · exact ha h
      · rcases ihr h with h | h
        · exact hk h
        · exact Or.inr (Or.inr (Or.inr h))
    have hleft (a k : α) (hk : x = k → x = key ∨ x ∈ l.elems ∨ x = e ∨ x ∈ r.elems)
        (ha : x = a → x = key ∨ x ∈ l.elems ∨ x = e ∨ x ∈ r.elems)
        (h : x ∈ (ascend false l a s r k (avTreeInsert cmp l k next)).1.elems) :
        x = key ∨ x ∈ l.elems ∨ x = e ∨ x ∈ r.elems := by
      rw [elems_ascend, if_neg Bool.false_ne_true, if_neg Bool.false_ne_true, List.mem_append,
        List.mem_cons] at h
      rcases h with h | h | h
      · rcases ihl h with h | h
        · exact hk h
        · exact Or.inr (Or.inl h)
      · exact ha h
      · exact Or.inr (Or.inr (Or.inr h))
    rw [elems_node, List.mem_append, List.mem_cons]
    unfold avTreeInsert at h
    dsimp only at h
    split_ifs at h with hv hnext hnil hi hlt
    · simpa using Or.inr h
    · simp at h
    · have hkey (hx : x = ((avTreeFind cmp key r ⟨none, none⟩).2.get l.isNil).getD e) :
          x = key ∨ x ∈ l.elems ∨ x = e ∨ x ∈ r.elems := by
        rcases replacement_mem hx with hx | hx
        · exact Or.inr (Or.inr (Or.inl hx))
        · exact Or.inr (Or.inr (Or.inr hx))
      rw [hi] at h hkey
      exact hright _ _ hkey hkey h
    · have hkey (hx : x = ((avTreeFind cmp key l ⟨none, none⟩).2.get l.isNil).getD e) :
          x = key ∨ x ∈ l.elems ∨ x = e ∨ x ∈ r.elems := by
        rcases replacement_mem hx with hx | hx
        · exact Or.inr (Or.inr (Or.inl hx))
        · exact Or.inr (Or.inl hx)
      rw [Bool.not_eq_true] at hi
      rw [hi] at h hkey
      exact hleft _ _ hkey hkey h
    · exact hright e key (fun h => Or.inl h) (fun h => Or.inr (Or.inr (Or.inl h))) h
    · exact hleft e key (fun h => Or.inl h) (fun h => Or.inr (Or.inr (Or.inl h))) h

end FFmpeg.Libavutil
