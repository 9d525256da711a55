import Mathlib.Tactic
import FFmpeg.Libavutil.Tree

/-!
# Balance and order of the trees

Inserting into a balanced search tree and removing from it gives a balanced
search tree again.
-/

namespace FFmpeg.Libavutil

variable {α : Type*}

namespace AVTree

/-- The number of nodes on a longest path. -/
def height : AVTree α → Nat
  | nil => 0
  | node l _ _ r => max l.height r.height + 1

/-- In every node the state is the difference of the heights of the children and lies
in {-1, 0, 1}. -/
def Balanced : AVTree α → Prop
  | nil => True
  | node l _ s r =>
    l.Balanced ∧ r.Balanced ∧ s = (r.height : Int) - l.height ∧ -1 ≤ s ∧ s ≤ 1

/-- The tree seen from the other side. -/
def mirror : AVTree α → AVTree α
  | nil => nil
  | node l e s r => node r.mirror e (-s) l.mirror

@[simp] theorem height_nil : (nil : AVTree α).height = 0 := rfl

@[simp] theorem height_node (l r : AVTree α) (e : α) (s : Int) :
    (node l e s r).height = max l.height r.height + 1 := rfl

@[simp] theorem balanced_nil : (nil : AVTree α).Balanced := trivial

@[simp] theorem balanced_node (l r : AVTree α) (e : α) (s : Int) :
    (node l e s r).Balanced ↔
      l.Balanced ∧ r.Balanced ∧ s = (r.height : Int) - l.height ∧ -1 ≤ s ∧ s ≤ 1 := Iff.rfl

@[simp] theorem state_node (l r : AVTree α) (e : α) (s : Int) : (node l e s r).state = s := rfl

@[simp] theorem height_mirror (t : AVTree α) : t.mirror.height = t.height := by
  induction t with
  | nil => rfl
  | node l e s r ihl ihr => rw [mirror, height_node, height_node, ihl, ihr, max_comm]

@[simp] theorem state_mirror (t : AVTree α) : t.mirror.state = -t.state := by
  cases t <;> rfl

@[simp] theorem balanced_mirror (t : AVTree α) : t.mirror.Balanced ↔ t.Balanced := by
  induction t with
  | nil => rfl
  | node l e s r ihl ihr =>
    rw [mirror, balanced_node, balanced_node, ihl, ihr, height_mirror, height_mirror]
    constructor
    · rintro ⟨hr, hl, hs, hlo, hhi⟩
      exact ⟨hl, hr, by lia, by lia, by lia⟩
    · rintro ⟨hl, hr, hs, hlo, hhi⟩
      exact ⟨hr, hl, by lia, by lia, by lia⟩

end AVTree

open AVTree

/-! ## Rotations -/

/-- A node that leans by two to the right is balanced by a rotation.  The tree gets lower
unless the state at the root says otherwise. -/
theorem rotate_true {l r : AVTree α} {e : α} (hl : l.Balanced) (hr : r.Balanced)
    (hs : (r.height : Int) - l.height = 2) :
    (rotate true (.node l e 2 r)).Balanced ∧
      (rotate true (.node l e 2 r)).height +
        (if (rotate true (.node l e 2 r)).state = 0 then 1 else 0) =
        max l.height r.height + 1 := by
  cases r with
  | nil =>
    rw [height_nil] at hs
    lia
  | node cl ce cs cr =>
    obtain ⟨hcl, hcr, hcs, hlo, hhi⟩ := hr
    rw [height_node] at hs ⊢
    by_cases hdouble : cs * 2 = -2
    · cases cl with
      | nil =>
        rw [height_nil] at hcs
        lia
      | node gl ge gs gr =>
        obtain ⟨hgl, hgr, hgs, hglo, hghi⟩ := hcl
        rw [height_node] at hs hcs ⊢
        simp only [rotate, child, join, childState, if_pos hdouble, if_true, Bool.not_true,
          Bool.false_eq_true, if_false, balanced_node, height_node, state_node]
        refine ⟨⟨⟨hl, hgl, ?_⟩, ⟨hgr, hcr, ?_⟩, ?_⟩, ?_⟩
        all_goals first | (split_ifs <;> lia) | lia
    · simp only [rotate, child, join, if_neg hdouble, if_true, Bool.not_true,
        Bool.false_eq_true, if_false, balanced_node, height_node, state_node]
      refine ⟨⟨⟨hl, hcl, ?_⟩, hcr, ?_⟩, ?_⟩
      all_goals split_ifs <;> lia

theorem rotate_false_mirror (l r : AVTree α) (e : α) :
    (rotate false (.node l e (-2) r)).mirror = rotate true (.node r.mirror e 2 l.mirror) := by
  cases l with
  | nil => rfl
  | node cl ce cs cr =>
    by_cases hdouble : cs * 2 = 2
    · have hmirror : -cs * 2 = -2 := by lia
      cases cr with
      | nil => simp [rotate, child, mirror, hdouble, hmirror]
      | node gl ge gs gr =>
        simp [rotate, child, join, childState, mirror, hdouble, hmirror]
        split_ifs <;> lia
    · have hmirror : ¬ -cs * 2 = -2 := by lia
      simp [rotate, child, join, mirror, hdouble]
      split_ifs <;> lia

theorem rotate_false {l r : AVTree α} {e : α} (hl : l.Balanced) (hr : r.Balanced)
    (hs : (r.height : Int) - l.height = -2) :
    (rotate false (.node l e (-2) r)).Balanced ∧
      (rotate false (.node l e (-2) r)).height +
        (if (rotate false (.node l e (-2) r)).state = 0 then 1 else 0) =
        max l.height r.height + 1 := by
  have hmirror := rotate_true (l := r.mirror) (r := l.mirror) (e := e) (by simpa using hr)
    (by simpa using hl) (by rw [height_mirror, height_mirror]; lia)
  rw [← rotate_false_mirror] at hmirror
  simpa [max_comm] using hmirror

variable {s : Int}

/-- After the height of a subtree changed by one: the node is balanced again, and it is as
high as before balancing, or one lower if it was rotated to state 0. -/
theorem retrace_spec {i : Bool} {l r : AVTree α} {e : α} (hl : l.Balanced) (hr : r.Balanced)
    (hlo : -1 ≤ s) (hhi : s ≤ 1) (hs : s + (if i then 1 else -1) = (r.height : Int) - l.height) :
    (retrace i l e s r).Balanced ∧
      (retrace i l e s r).height +
        (if (retrace i l e s r).state = 0 ∧ l.height ≠ r.height then 1 else 0) =
        max l.height r.height + 1 ∧
      (l.height = r.height → (retrace i l e s r).state = 0) := by
  unfold retrace
  dsimp only
  by_cases hrotate : (s + if i then 1 else -1) % 2 = 0 ∧ (s + if i then 1 else -1) ≠ 0
  · rw [if_pos hrotate]
    cases i with
    | true =>
      have htwo : s + (if true then 1 else -1) = 2 := by
        simp only [if_true] at hrotate ⊢
        lia
      rw [htwo] at hs ⊢
      have hne : l.height ≠ r.height := by lia
      obtain ⟨hbal, hheight⟩ := rotate_true (e := e) hl hr hs.symm
      exact ⟨hbal, by simpa [hne] using hheight, fun h => absurd h hne⟩
    | false =>
      have htwo : s + (if false then 1 else -1) = -2 := by
        simp only [Bool.false_eq_true, if_false] at hrotate ⊢
        lia
      rw [htwo] at hs ⊢
      have hne : l.height ≠ r.height := by lia
      obtain ⟨hbal, hheight⟩ := rotate_false (e := e) hl hr hs.symm
      exact ⟨hbal, by simpa [hne] using hheight, fun h => absurd h hne⟩
  · rw [if_neg hrotate]
    have hrange : -1 ≤ s + (if i then 1 else -1) ∧ s + (if i then 1 else -1) ≤ 1 := by
      split_ifs at hrotate ⊢ <;> lia
    have hlevel : ¬(s + (if i then 1 else -1) = 0 ∧ l.height ≠ r.height) := by
      rw [hs]
      lia
    rw [state_node, height_node, if_neg hlevel]
    refine ⟨⟨hl, hr, hs, hrange.1, hrange.2⟩, rfl, fun h => ?_⟩
    rw [hs]
    lia

/-- How the height changes, as `av_tree_insert` tells its caller: not at all if it returns
an element, else by one, downwards if it hands back a node. -/
def heightChange (ret : Option α) (next : Bool) : Int :=
  if ret.isSome then 0 else if next then -1 else 1

@[simp] theorem heightChange_some (ret : α) (next : Bool) : heightChange (some ret) next = 0 := rfl

@[simp] theorem heightChange_none (next : Bool) :
    heightChange (none : Option α) next = if next then -1 else 1 := rfl

@[simp] theorem child_true (l r : AVTree α) (e : α) (s : Int) : child true (node l e s r) = r := rfl

@[simp] theorem child_false (l r : AVTree α) (e : α) (s : Int) :
    child false (node l e s r) = l := rfl

/-- On the way up a node whose subtree changed its height as told is balanced again, and
tells its own change. -/
theorem ascend_spec (i : Bool) {l r c : AVTree α} {e : α} (key : α) {ret : Option α} {next : Bool}
    (h : (node l e s r).Balanced) (hc : c.Balanced)
    (hheight : (c.height : Int) = (child i (node l e s r)).height + heightChange ret next) :
    (ascend i l e s r key (c, ret, next)).1.Balanced ∧
      ((ascend i l e s r key (c, ret, next)).1.height : Int) = (node l e s r).height +
        heightChange (ascend i l e s r key (c, ret, next)).2.1 next ∧
      (ascend i l e s r key (c, ret, next)).2.2 = next := by
  obtain ⟨hl, hr, hs, hlo, hhi⟩ := h
  cases ret with
  | some ret =>
    rw [heightChange_some] at hheight
    cases i with
    | true =>
      rw [child_true] at hheight
      refine ⟨⟨hl, hc, ?_, hlo, hhi⟩, ?_, rfl⟩
      · show s = (c.height : Int) - l.height
        lia
      · show ((max l.height c.height + 1 : Nat) : Int) = (max l.height r.height + 1 : Nat) + 0
        lia
    | false =>
      rw [child_false] at hheight
      refine ⟨⟨hc, hr, ?_, hlo, hhi⟩, ?_, rfl⟩
      · show s = (r.height : Int) - c.height
        lia
      · show ((max c.height r.height + 1 : Nat) : Int) = (max l.height r.height + 1 : Nat) + 0
        lia
  | none =>
    rw [heightChange_none] at hheight
    obtain ⟨l', hl'⟩ : ∃ l', l' = if i then l else c := ⟨_, rfl⟩
    obtain ⟨r', hr'⟩ : ∃ r', r' = if i then c else r := ⟨_, rfl⟩
    have hbl : l'.Balanced := by
      rw [hl']
      split_ifs
      exacts [hl, hc]
    have hbr : r'.Balanced := by
      rw [hr']
      split_ifs
      exacts [hc, hr]
    have hlean : s + (if (i != next) = true then 1 else -1) = (r'.height : Int) - l'.height := by
      rw [hl', hr']
      cases i <;> cases next <;> simp [child] at hheight ⊢ <;> lia
    obtain ⟨hbal, hheight', hlevel⟩ := retrace_spec (e := e) hbl hbr hlo hhi hlean
    unfold ascend
    dsimp only
    rw [← hl', ← hr']
    obtain ⟨t, ht⟩ : ∃ t, t = retrace (i != next) l' e s r' := ⟨_, rfl⟩
    rw [← ht] at hbal hheight' hlevel ⊢
    -- the height that comes out depends on the state at the root only
    obtain ⟨old, hold⟩ : ∃ old, old = (node l e s r).height := ⟨_, rfl⟩
    have hnew : (t.height : Int) =
        old + if t.state = 0 then (if next then -1 else 0) else if next then 0 else 1 := by
      rw [height_node] at hold
      cases i <;> cases next <;>
        simp only [if_true, Bool.false_eq_true, if_false, child_true, child_false, bne_self_eq_false,
          Bool.true_bne, Bool.false_bne, Bool.not_false]
          at hheight hl' hr' hlean ⊢ <;>
        rw [hl', hr'] at hheight' hlevel hlean <;>
        split_ifs at hheight' ⊢ <;> lia
    rw [← hold]
    refine ⟨?_, ?_, ?_⟩
    · split_ifs <;> exact hbal
    · by_cases hzero : t.state = 0
      · cases next <;> simpa [hzero] using hnew
      · cases next <;> simpa [hzero] using hnew
    · split_ifs <;> rfl

/-! ## Order -/

/-- The signs of a comparison function are a strict total order. -/
structure StrictTotal (cmp : α → α → Int) : Prop where
  eq_zero_iff : ∀ a b, cmp a b = 0 ↔ a = b
  neg_iff : ∀ a b, cmp a b < 0 ↔ 0 < cmp b a
  trans : ∀ a b c, cmp a b < 0 → cmp b c < 0 → cmp a c < 0

/-- In-order traversal is strictly increasing. -/
def SearchTree (cmp : α → α → Int) (t : AVTree α) : Prop :=
  t.elems.Pairwise fun a b => cmp a b < 0

variable {cmp : α → α → Int}

theorem StrictTotal.irrefl (h : StrictTotal cmp) (a : α) : ¬ cmp a a < 0 := by
  rw [(h.eq_zero_iff a a).mpr rfl]
  exact lt_irrefl 0

theorem StrictTotal.not_neg (h : StrictTotal cmp) {a b : α} (hlt : cmp a b < 0) : ¬ cmp b a < 0 :=
  fun hgt => h.irrefl a (h.trans a b a hlt hgt)

theorem searchTree_node {l r : AVTree α} {e : α} :
    SearchTree cmp (node l e s r) ↔
      SearchTree cmp l ∧ SearchTree cmp r ∧ (∀ x ∈ l.elems, cmp x e < 0) ∧
        (∀ y ∈ r.elems, cmp e y < 0) ∧ ∀ x ∈ l.elems, ∀ y ∈ r.elems, cmp x y < 0 := by
  unfold SearchTree
  rw [elems_node, List.pairwise_append, List.pairwise_cons]
  constructor
  · rintro ⟨hl, ⟨her, hr⟩, hx⟩
    exact ⟨hl, hr, fun x hxl => hx x hxl e List.mem_cons_self, her,
      fun x hxl y hyr => hx x hxl y (List.mem_cons_of_mem e hyr)⟩
  · rintro ⟨hl, hr, hle, her, hlr⟩
    refine ⟨hl, ⟨her, hr⟩, fun x hxl y hy => ?_⟩
    rcases List.mem_cons.mp hy with rfl | hyr
    · exact hle x hxl
    · exact hlr x hxl y hyr

variable {key : α}

theorem not_mem_right {l r : AVTree α} {e : α} (h : SearchTree cmp (node l e s r))
    (hkey : ¬ cmp e key < 0) : key ∉ r.elems :=
  fun hmem => hkey ((searchTree_node.mp h).2.2.2.1 key hmem)

theorem not_mem_left {l r : AVTree α} {e : α} (h : SearchTree cmp (node l e s r))
    (hkey : ¬ cmp key e < 0) : key ∉ l.elems :=
  fun hmem => hkey ((searchTree_node.mp h).2.2.1 key hmem)

/-! ## Insertion and removal -/

variable {t : AVTree α}

/-- Inserting an absent key uses up the node, and the key comes into its place. -/
theorem avTreeInsert_insert (hcmp : StrictTotal cmp) (hbal : t.Balanced) (h : SearchTree cmp t)
    (hmem : key ∉ t.elems) :
    (avTreeInsert cmp t key true).1.Balanced ∧
      ((avTreeInsert cmp t key true).1.height : Int) =
        t.height + heightChange (avTreeInsert cmp t key true).2.1 false ∧
      (avTreeInsert cmp t key true).2.2 = false ∧
      ∃ below above, t.elems = below ++ above ∧
        (avTreeInsert cmp t key true).1.elems = below ++ key :: above ∧
        (∀ x ∈ below, cmp x key < 0) ∧ ∀ y ∈ above, cmp key y < 0 := by
  induction t with
  | nil =>
    refine ⟨⟨trivial, trivial, rfl, by decide, by decide⟩, rfl, rfl, [], [], rfl, rfl, ?_, ?_⟩
    · intro x hx
      cases hx
    · intro y hy
      cases hy
  | node l e s r ihl ihr =>
    obtain ⟨hl, hr, hle, her, hlr⟩ := searchTree_node.mp h
    have hbl : l.Balanced := hbal.1
    have hbr : r.Balanced := hbal.2.1
    rw [elems_node, List.mem_append, List.mem_cons, not_or, not_or] at hmem
    obtain ⟨hml, hme, hmr⟩ := hmem
    have hzero : cmp e key ≠ 0 := fun hz => hme ((hcmp.eq_zero_iff e key).mp hz).symm
    rw [avTreeInsert]
    dsimp only
    rw [if_neg hzero]
    by_cases hlt : cmp e key < 0
    · rw [if_pos hlt]
      obtain ⟨hcb, hch, hcn, below, above, hold, hnew, hbelow, habove⟩ := ihr hbr hr hmr
      obtain ⟨⟨c, ret, next⟩, hsub⟩ : ∃ sub, sub = avTreeInsert cmp r key true := ⟨_, rfl⟩
      rw [← hsub] at hcb hch hcn hnew ⊢
      obtain rfl : next = false := hcn
      obtain ⟨hb, hh, hn⟩ := ascend_spec true key hbal hcb hch
      refine ⟨hb, hh, hn, l.elems ++ e :: below, above, ?_, ?_, ?_, habove⟩
      · rw [elems_node, hold, List.append_assoc, List.cons_append]
      · rw [elems_ascend, if_pos rfl, if_pos rfl, hnew, List.append_assoc, List.cons_append]
      · intro x hx
        rcases List.mem_append.mp hx with hx | hx
        · exact hcmp.trans x e key (hle x hx) hlt
        · rcases List.mem_cons.mp hx with rfl | hx
          · exact hlt
          · exact hbelow x hx
    · rw [if_neg hlt]
      have hgt : cmp key e < 0 := (hcmp.neg_iff key e).mpr (by lia)
      obtain ⟨hcb, hch, hcn, below, above, hold, hnew, hbelow, habove⟩ := ihl hbl hl hml
      obtain ⟨⟨c, ret, next⟩, hsub⟩ : ∃ sub, sub = avTreeInsert cmp l key true := ⟨_, rfl⟩
      rw [← hsub] at hcb hch hcn hnew ⊢
      obtain rfl : next = false := hcn
      obtain ⟨hb, hh, hn⟩ := ascend_spec false key hbal hcb hch
      refine ⟨hb, hh, hn, below, above ++ e :: r.elems, ?_, ?_, hbelow, ?_⟩
      · rw [elems_node, hold, List.append_assoc]
      · rw [elems_ascend, if_neg Bool.false_ne_true, if_neg Bool.false_ne_true, hnew,
          List.append_assoc, List.cons_append]
      · intro y hy
        rcases List.mem_append.mp hy with hy | hy
        · exact habove y hy
        · rcases List.mem_cons.mp hy with rfl | hy
          · exact hgt
          · exact hcmp.trans key e y hgt (her y hy)

theorem avTreeFind_below {next : Next α} (h : ∀ x ∈ t.elems, cmp key x < 0) :
    (avTreeFind cmp key t next).2.next1 = t.elems.head?.or next.next1 := by
  induction t generalizing next with
  | nil => rfl
  | node l e s r ihl _ =>
    have hlt : cmp key e < 0 := h e (by simp)
    rw [avTreeFind, if_pos hlt, ihl (fun x hx => h x (by simp [hx])), elems_node]
    cases l.elems <;> rfl

theorem avTreeFind_above {next : Next α} (h : ∀ x ∈ t.elems, 0 < cmp key x) :
    (avTreeFind cmp key t next).2.next0 = t.elems.getLast?.or next.next0 := by
  induction t generalizing next with
  | nil => rfl
  | node l e s r _ ihr =>
    have hgt : 0 < cmp key e := h e (by simp)
    rw [avTreeFind, if_neg (by lia), if_pos hgt, ihr (fun x hx => h x (by simp [hx])),
      elems_node, List.getLast?_append]
    cases hr : r.elems with
    | nil => rfl
    | cons y ys =>
      rw [List.getLast?_cons_cons]
      obtain ⟨last, hlast⟩ : ∃ last, (y :: ys).getLast? = some last :=
        ⟨_, List.getLast?_eq_some_getLast (List.cons_ne_nil y ys)⟩
      rw [hlast]
      rfl

theorem elems_eq_nil (h : t.isNil = true) : t.elems = [] := by
  cases t with
  | nil => rfl
  | node l e s r => cases h

theorem elems_ne_nil (h : t.isNil = false) : t.elems ≠ [] := by
  cases t with
  | nil => cases h
  | node l e s r => simp

theorem before_first (hcmp : StrictTotal cmp) {below above : List α} {x : α}
    (h : (below ++ x :: above).Pairwise fun a b => cmp a b < 0)
    (hx : (below ++ x :: above).head? = some x) : below = [] := by
  cases below with
  | nil => rfl
  | cons y below =>
    obtain rfl : y = x := by simpa using hx
    have hlt := (List.pairwise_cons.mp h).1 y (by simp)
    exact absurd hlt (hcmp.irrefl y)

theorem after_last (hcmp : StrictTotal cmp) {below above : List α} {x : α}
    (h : (below ++ x :: above).Pairwise fun a b => cmp a b < 0)
    (hx : (below ++ x :: above).getLast? = some x) : above = [] := by
  rcases List.eq_nil_or_concat above with rfl | ⟨init, last, rfl⟩
  · rfl
  · obtain rfl : last = x := by
      rw [List.concat_eq_append, ← List.cons_append, ← List.append_assoc,
        List.getLast?_append] at hx
      simpa using hx
    have hlt := (List.pairwise_cons.mp (List.pairwise_append.mp h).2.1).1 last (by simp)
    exact absurd hlt (hcmp.irrefl last)

/-- What removing a key gives: a balanced tree that tells its height, a node in `*next`, and
the elements without the key. -/
structure Removed (t : AVTree α) (key : α) (res : AVTree α × Option α × Bool) : Prop where
  balanced : res.1.Balanced
  height : (res.1.height : Int) = t.height + heightChange res.2.1 true
  next : res.2.2 = true
  elems : ∃ below above, t.elems = below ++ key :: above ∧ res.1.elems = below ++ above

variable {sub : AVTree α × Option α × Bool}

theorem Removed.ascend_right {l r : AVTree α} {e k : α} (hbal : (node l e s r).Balanced)
    (h : Removed r k sub) (x : α) :
    (ascend true l x s r k sub).1.Balanced ∧
      ((ascend true l x s r k sub).1.height : Int) =
        (node l e s r).height + heightChange (ascend true l x s r k sub).2.1 true ∧
      (ascend true l x s r k sub).2.2 = true ∧
      ∃ below above, r.elems = below ++ k :: above ∧
        (ascend true l x s r k sub).1.elems = l.elems ++ x :: (below ++ above) := by
  obtain ⟨c, ret, next⟩ := sub
  obtain ⟨hcb, hch, hcn, below, above, hold, hnew⟩ := h
  obtain rfl : next = true := hcn
  have hbal' : (node l x s r).Balanced := hbal
  obtain ⟨hb, hh, hn⟩ := ascend_spec true k hbal' hcb hch
  refine ⟨hb, hh, hn, below, above, hold, ?_⟩
  rw [elems_ascend, if_pos rfl, if_pos rfl, hnew]

theorem Removed.ascend_left {l r : AVTree α} {e k : α} (hbal : (node l e s r).Balanced)
    (h : Removed l k sub) (x : α) :
    (ascend false l x s r k sub).1.Balanced ∧
      ((ascend false l x s r k sub).1.height : Int) =
        (node l e s r).height + heightChange (ascend false l x s r k sub).2.1 true ∧
      (ascend false l x s r k sub).2.2 = true ∧
      ∃ below above, l.elems = below ++ k :: above ∧
        (ascend false l x s r k sub).1.elems = below ++ above ++ x :: r.elems := by
  obtain ⟨c, ret, next⟩ := sub
  obtain ⟨hcb, hch, hcn, below, above, hold, hnew⟩ := h
  obtain rfl : next = true := hcn
  have hbal' : (node l x s r).Balanced := hbal
  obtain ⟨hb, hh, hn⟩ := ascend_spec false k hbal' hcb hch
  refine ⟨hb, hh, hn, below, above, hold, ?_⟩
  rw [elems_ascend, if_neg Bool.false_ne_true, if_neg Bool.false_ne_true, hnew]

/-- Removing a present key hands back a node, and only the key leaves the tree. -/
theorem avTreeInsert_remove (hcmp : StrictTotal cmp) (hbal : t.Balanced) (h : SearchTree cmp t)
    (hmem : key ∈ t.elems) :
    Removed t key (avTreeInsert cmp t key false) := by
  induction t generalizing key with
  | nil => cases hmem
  | node l e s r ihl ihr =>
    obtain ⟨hl, hr, hle, her, hlr⟩ := searchTree_node.mp h
    have hbl : l.Balanced := hbal.1
    have hbr : r.Balanced := hbal.2.1
    rw [avTreeInsert]
    dsimp only
    by_cases hzero : cmp e key = 0
    · obtain rfl : e = key := (hcmp.eq_zero_iff e key).mp hzero
      rw [if_pos hzero, if_neg Bool.false_ne_true]
      by_cases hleaf : (l.isNil && r.isNil) = true
      · obtain ⟨hnl, hnr⟩ := Bool.and_eq_true_iff.mp hleaf
        rw [if_pos ⟨hnl, hnr⟩]
        cases l with
        | node => cases hnl
        | nil =>
          cases r with
          | node => cases hnr
          | nil => exact ⟨trivial, rfl, rfl, [], [], rfl, rfl⟩
      · have hleaf' : ¬(l.isNil = true ∧ r.isNil = true) := fun hb =>
          hleaf (Bool.and_eq_true_iff.mpr hb)
        rw [if_neg hleaf']
        cases hi : l.isNil with
        | true =>
          -- the first element above takes the place
          have hnr : r.isNil = false := by
            rw [hi] at hleaf
            simpa using hleaf
          obtain ⟨x, xs, hxs⟩ := List.exists_cons_of_ne_nil (elems_ne_nil hnr)
          have hfound : (avTreeFind cmp e r ⟨none, none⟩).2.get true = some x := by
            rw [Next.get, if_pos rfl, avTreeFind_below her, hxs]
            rfl
          rw [if_pos rfl, if_pos rfl, hfound, Option.getD_some]
          have hx : x ∈ r.elems := by
            rw [hxs]
            exact List.mem_cons_self
          obtain ⟨hb, hh, hn, below, above, hold, hnew⟩ := (ihr hbr hr hx).ascend_right hbal x
          refine ⟨hb, hh, hn, l.elems, r.elems, rfl, ?_⟩
          have hsorted : (below ++ x :: above).Pairwise fun a b => cmp a b < 0 := hold ▸ hr
          have hfirst : below = [] := by
            refine before_first hcmp hsorted ?_
            rw [← hold, hxs]
            rfl
          rw [hnew, hold, hfirst]
          rfl
        | false =>
          -- the last element below takes the place
          have hne := elems_ne_nil hi
          have hgt : ∀ x ∈ l.elems, 0 < cmp e x := fun x hx => (hcmp.neg_iff x e).mp (hle x hx)
          obtain ⟨x, hlast⟩ : ∃ x, l.elems.getLast? = some x :=
            ⟨_, List.getLast?_eq_some_getLast hne⟩
          have hfound : (avTreeFind cmp e l ⟨none, none⟩).2.get false = some x := by
            rw [Next.get, if_neg Bool.false_ne_true, avTreeFind_above hgt, hlast]
            rfl
          rw [if_neg Bool.false_ne_true, if_neg Bool.false_ne_true, hfound, Option.getD_some]
          obtain ⟨hb, hh, hn, below, above, hold, hnew⟩ :=
            (ihl hbl hl (List.mem_of_getLast? hlast)).ascend_left hbal x
          refine ⟨hb, hh, hn, l.elems, r.elems, rfl, ?_⟩
          have hsorted : (below ++ x :: above).Pairwise fun a b => cmp a b < 0 := hold ▸ hl
          have habove : above = [] := after_last hcmp hsorted (hold ▸ hlast)
          rw [hnew, hold, habove, List.append_nil, List.append_assoc]
          rfl
    · rw [if_neg hzero]
      have hne : key ≠ e := fun heq => hzero ((hcmp.eq_zero_iff e key).mpr heq.symm)
      rw [elems_node, List.mem_append, List.mem_cons] at hmem
      by_cases hlt : cmp e key < 0
      · have hnl : key ∉ l.elems := not_mem_left h (hcmp.not_neg hlt)
        have hmr : key ∈ r.elems := (hmem.resolve_left hnl).resolve_left hne
        rw [if_pos hlt]
        obtain ⟨hb, hh, hn, below, above, hold, hnew⟩ := (ihr hbr hr hmr).ascend_right hbal e
        refine ⟨hb, hh, hn, l.elems ++ e :: below, above, ?_, ?_⟩
        · rw [elems_node, hold, List.append_assoc, List.cons_append]
        · rw [hnew, List.append_assoc, List.cons_append]
      · have hnr : key ∉ r.elems := not_mem_right h hlt
        have hml : key ∈ l.elems := by
          rcases hmem with hm | hm | hm
          exacts [hm, absurd hm hne, absurd hm hnr]
        rw [if_neg hlt]
        obtain ⟨hb, hh, hn, below, above, hold, hnew⟩ := (ihl hbl hl hml).ascend_left hbal e
        refine ⟨hb, hh, hn, below, above ++ e :: r.elems, ?_, ?_⟩
        · rw [elems_node, hold, List.append_assoc, List.cons_append]
        · rw [hnew, List.append_assoc]

end FFmpeg.Libavutil
