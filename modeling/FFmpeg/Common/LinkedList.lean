import Mathlib.Tactic

/-!
# Singly linked lists in memory

Nodes live in numbered memory cells and point to each other by number.  A list
operation in the style of C walks a pointer to a pointer, the `Slot`, and changes
the list by writing to it.  `Chain` says which sequence of nodes a pointer leads
to, and the lemmas describe each operation by its effect on that sequence.  An
operation that follows a null pointer or a pointer to freed memory has no result.
-/

namespace FFmpeg.Common

/-- A node; the null pointer is `none`. -/
structure Node (α : Type*) where
  data : α
  next : Option Nat
  deriving DecidableEq, Repr

/-- The memory cells allocated so far, `none` where they have been freed. -/
structure Heap (α : Type*) where
  cells : List (Option (Node α))
  deriving DecidableEq, Repr

/-- Where a pointer is stored: the variable that holds the head of the list, or the
`next` field of a node. -/
inductive Slot
  | head
  | next (p : Nat)
  deriving DecidableEq, Repr

variable {α : Type*}

namespace Heap

/-- The node in a cell. -/
def load (h : Heap α) (p : Nat) : Option (Node α) :=
  h.cells[p]?.join

/-- Put a node into a new cell. -/
def alloc (h : Heap α) (node : Node α) : Nat × Heap α :=
  (h.cells.length, ⟨h.cells ++ [some node]⟩)

/-- Give a cell back. -/
def free (h : Heap α) (p : Nat) : Heap α :=
  ⟨h.cells.set p none⟩

/-- Write the `next` field of a node. -/
def setNext (h : Heap α) (p : Nat) (next : Option Nat) : Option (Heap α) :=
  (h.load p).map fun node => ⟨h.cells.set p (some { node with next := next })⟩

/-- Read a slot, the head of the list being `head`. -/
def readSlot (h : Heap α) (head : Option Nat) : Slot → Option (Option Nat)
  | .head => some head
  | .next p => (h.load p).map (·.next)

/-- Write a slot; the result is the memory and the head. -/
def writeSlot (h : Heap α) (head : Option Nat) (slot : Slot) (value : Option Nat) :
    Option (Heap α × Option Nat) :=
  match slot with
  | .head => some (h, value)
  | .next p => (h.setNext p value).map fun h => (h, head)

/-- Walk from a slot to the first one that holds the null pointer or points to a node
without `f`, in less than `n` steps. -/
def skipWhile (h : Heap α) (head : Option Nat) (f : α → Bool) : Nat → Slot → Option Slot
  | 0, _ => none
  | n + 1, slot =>
    match h.readSlot head slot with
    | none => none
    | some none => some slot
    | some (some p) =>
      match h.load p with
      | none => none
      | some node => if f node.data then skipWhile h head f n (.next p) else some slot

/-! ## Cells -/

theorem load_alloc_self (h : Heap α) (node : Node α) :
    (h.alloc node).2.load (h.alloc node).1 = some node := by
  simp [alloc, load]

variable {h : Heap α} {node : Node α}

theorem lt_of_load {p : Nat} (hp : h.load p = some node) : p < h.cells.length := by
  by_contra hlt
  rw [load, List.getElem?_eq_none (Nat.le_of_not_lt hlt)] at hp
  cases hp

theorem load_alloc {p : Nat} {n : Node α} (hp : h.load p = some n) :
    (h.alloc node).2.load p = some n := by
  have hlt := lt_of_load hp
  rw [load] at hp ⊢
  rwa [alloc, List.getElem?_append_left hlt]

theorem load_free_of_ne (h : Heap α) {p q : Nat} (hne : p ≠ q) : (h.free q).load p = h.load p := by
  rw [load, free, List.getElem?_set_ne (Ne.symm hne), load]

theorem setNext_eq {p : Nat} (hp : h.load p = some node) (next : Option Nat) :
    ∃ h', h.setNext p next = some h' ∧
      h'.cells.length = h.cells.length ∧ h'.load p = some { node with next := next } ∧
      ∀ q, q ≠ p → h'.load q = h.load q := by
  have hlt := lt_of_load hp
  refine ⟨_, by rw [setNext, hp, Option.map_some], List.length_set, ?_, ?_⟩
  · rw [load, List.getElem?_set_self hlt, Option.join_some]
  · intro q hq
    rw [load, List.getElem?_set_ne (Ne.symm hq), load]

/-! ## Chains -/

/-- Following the pointers from `p` on one meets these nodes at these addresses, and
then the pointer `q`. -/
def Chain (h : Heap α) (q : Option Nat) : Option Nat → List (Nat × α) → Prop
  | p, [] => p = q
  | p, (a, x) :: l => p = some a ∧ ∃ next, h.load a = some ⟨x, next⟩ ∧ Chain h q next l

/-- The pointer to the first node of a sequence. -/
def first (l : List (Nat × α)) : Option Nat := l.head?.map (·.1)

/-- The slot behind the last node of a sequence. -/
def slotAfter (l : List (Nat × α)) : Slot :=
  match l.getLast? with
  | none => .head
  | some (a, _) => .next a

@[simp] theorem slotAfter_nil : slotAfter ([] : List (Nat × α)) = .head := rfl

@[simp] theorem slotAfter_concat (l : List (Nat × α)) (a : Nat) (x : α) :
    slotAfter (l ++ [(a, x)]) = .next a := by
  simp [slotAfter]

variable {p : Option Nat}

theorem chain_append {q : Option Nat} {l₁ l₂ : List (Nat × α)} :
    Chain h q p (l₁ ++ l₂) ↔ ∃ m, Chain h m p l₁ ∧ Chain h q m l₂ := by
  induction l₁ generalizing p with
  | nil =>
    constructor
    · intro hc
      exact ⟨p, rfl, hc⟩
    · rintro ⟨m, hm, hc⟩
      have hm : p = m := hm
      rwa [hm]
  | cons node l₁ ih =>
    obtain ⟨a, x⟩ := node
    constructor
    · rintro ⟨hp, next, hload, hc⟩
      obtain ⟨m, hm, hrest⟩ := ih.mp hc
      exact ⟨m, ⟨hp, next, hload, hm⟩, hrest⟩
    · rintro ⟨m, ⟨hp, next, hload, hm⟩, hrest⟩
      exact ⟨hp, next, hload, ih.mpr ⟨m, hm, hrest⟩⟩

variable {l : List (Nat × α)}

theorem Chain.congr {h' : Heap α} {q : Option Nat} (hc : Chain h q p l)
    (heq : ∀ node ∈ l, h'.load node.1 = h.load node.1) :
    Chain h' q p l := by
  induction l generalizing p with
  | nil => exact hc
  | cons node l ih =>
    obtain ⟨a, x⟩ := node
    obtain ⟨hp, next, hload, hrest⟩ := hc
    refine ⟨hp, next, ?_, ih hrest fun node hnode => heq node (List.mem_cons_of_mem _ hnode)⟩
    rw [heq (a, x) List.mem_cons_self, hload]

variable {a : Nat}

theorem Chain.load {q : Option Nat} (hc : Chain h q p l) {x : α} (hmem : (a, x) ∈ l) :
    ∃ next, h.load a = some ⟨x, next⟩ := by
  induction l generalizing p with
  | nil => cases hmem
  | cons node l ih =>
    obtain ⟨b, y⟩ := node
    obtain ⟨_, next, hload, hrest⟩ := hc
    rcases List.mem_cons.mp hmem with heq | hmem
    · injection heq with ha hx
      subst ha hx
      exact ⟨next, hload⟩
    · exact ih hrest hmem

theorem Chain.lt {q : Option Nat} (hc : Chain h q p l) {node : Nat × α} (hmem : node ∈ l) :
    node.1 < h.cells.length := by
  obtain ⟨next, hload⟩ := hc.load (a := node.1) (x := node.2) hmem
  exact lt_of_load hload

theorem Chain.length_le {q : Option Nat} (hc : Chain h q p l) (hnodup : (l.map (·.1)).Nodup) :
    l.length ≤ h.cells.length := by
  have hsub : (l.map (·.1)) ⊆ List.range h.cells.length := by
    intro a ha
    obtain ⟨node, hnode, rfl⟩ := List.mem_map.mp ha
    exact List.mem_range.mpr (hc.lt hnode)
  have hle := (hnodup.subperm hsub).length_le
  rwa [List.length_map, List.length_range] at hle

theorem Chain.alloc {q : Option Nat} (hc : Chain h q p l) (node : Node α) :
    Chain (h.alloc node).2 q p l := by
  apply hc.congr
  intro n hn
  obtain ⟨next, hload⟩ := hc.load (a := n.1) (x := n.2) hn
  rw [load_alloc hload, hload]

theorem Chain.first_eq (hc : Chain h none p l) : p = first l := by
  cases l with
  | nil => exact hc
  | cons node l => exact hc.1

variable {head : Option Nat}

theorem readSlot_slotAfter {l₁ l₂ : List (Nat × α)} (hc : Chain h none head (l₁ ++ l₂)) :
    h.readSlot head (slotAfter l₁) = some (first l₂) := by
  rcases List.eq_nil_or_concat l₁ with rfl | ⟨l, ⟨a, x⟩, rfl⟩
  · rw [slotAfter_nil, readSlot, hc.first_eq, List.nil_append]
  · rw [List.concat_eq_append] at hc ⊢
    rw [List.append_assoc, chain_append] at hc
    obtain ⟨_, _, _, next, hload, hrest⟩ := hc
    rw [slotAfter_concat, readSlot, hload, Option.map_some]
    exact congrArg some hrest.first_eq

/-- The walk stops behind the nodes with `f`. -/
theorem skipWhile_slotAfter {f : α → Bool} {l₁ l₂ : List (Nat × α)}
    (hc : Chain h none head (l₁ ++ l₂)) {n : Nat} (hn : l₂.length < n) :
    h.skipWhile head f n (slotAfter l₁) =
      some (slotAfter (l₁ ++ l₂.takeWhile fun node => f node.2)) := by
  induction l₂ generalizing l₁ n with
  | nil =>
    cases n with
    | zero => cases hn
    | succ n => simp [skipWhile, readSlot_slotAfter hc, first]
  | cons node l₂ ih =>
    obtain ⟨a, x⟩ := node
    cases n with
    | zero => cases hn
    | succ n =>
      obtain ⟨next, hload⟩ := hc.load (List.mem_append_right l₁ List.mem_cons_self)
      have hread := readSlot_slotAfter hc
      rw [skipWhile, hread]
      simp only [first, List.head?_cons, Option.map_some, hload]
      by_cases hf : f x = true
      · have hc' : Chain h none head ((l₁ ++ [(a, x)]) ++ l₂) := by
          rwa [List.append_assoc, List.singleton_append]
        have hrest := ih hc' (Nat.lt_of_succ_lt_succ hn)
        have htake : ((a, x) :: l₂).takeWhile (fun node => f node.2) =
            (a, x) :: l₂.takeWhile fun node => f node.2 := by simp [hf]
        rw [slotAfter_concat] at hrest
        rw [if_pos hf, hrest, htake, List.append_assoc, List.singleton_append]
      · have htake : ((a, x) :: l₂).takeWhile (fun node => f node.2) = [] := by simp [hf]
        rw [if_neg hf, htake, List.append_nil]

/-- Linking a new node in at a slot puts it between the nodes before and behind. -/
theorem link_slotAfter {l₁ l₂ : List (Nat × α)} {x : α} {next : Option Nat}
    (hc : Chain h none head (l₁ ++ l₂)) (hnodup : ((l₁ ++ l₂).map (·.1)).Nodup)
    (hload : h.load a = some ⟨x, next⟩) (hnew : ∀ node ∈ l₁ ++ l₂, node.1 ≠ a) :
    ∃ h₁ h₂ head', h.setNext a (first l₂) = some h₁ ∧
      h₁.writeSlot head (slotAfter l₁) (some a) = some (h₂, head') ∧
      h₂.cells.length = h.cells.length ∧ Chain h₂ none head' (l₁ ++ (a, x) :: l₂) := by
  obtain ⟨h₁, hset, hlength, hself, hother⟩ := setNext_eq hload (first l₂)
  have hc₁ : Chain h₁ none head (l₁ ++ l₂) :=
    hc.congr fun node hnode => hother node.1 (hnew node hnode)
  rcases List.eq_nil_or_concat l₁ with rfl | ⟨l, ⟨b, y⟩, rfl⟩
  · refine ⟨h₁, h₁, some a, hset, rfl, hlength, rfl, first l₂, hself, ?_⟩
    rw [List.nil_append] at hc₁
    rwa [← hc₁.first_eq]
  · rw [List.concat_eq_append] at hc hc₁ hnodup hnew ⊢
    rw [List.append_assoc, chain_append] at hc₁
    obtain ⟨m, hbefore, hm, next', hb, hrest⟩ := hc₁
    obtain ⟨h₂, hset₂, hlength₂, hself₂, hother₂⟩ := setNext_eq hb (some a)
    have hba : b ≠ a := hnew (b, y) (by simp)
    refine ⟨h₁, h₂, head, hset, ?_, by rw [hlength₂, hlength], ?_⟩
    · rw [slotAfter_concat, writeSlot, hset₂, Option.map_some]
    · rw [List.append_assoc, chain_append]
      -- no other node lives in the cell that was written
      have hother' : ∀ node ∈ l ++ l₂, node.1 ≠ b := by
        intro node hnode heq
        rw [List.append_assoc, List.singleton_append, List.map_append, List.map_cons,
          List.nodup_append] at hnodup
        obtain ⟨_, hcons, hdisjoint⟩ := hnodup
        rcases List.mem_append.mp hnode with hleft | hright
        · exact hdisjoint node.1 (List.mem_map_of_mem hleft) b List.mem_cons_self heq
        · apply (List.nodup_cons.mp hcons).1
          exact List.mem_map.mpr ⟨node, hright, heq⟩
      have hfirst : next' = first l₂ := Chain.first_eq (l := l₂) hrest
      refine ⟨m, hbefore.congr ?_, hm, some a, hself₂, rfl, first l₂, ?_, ?_⟩
      · intro node hnode
        exact hother₂ node.1 (hother' node (List.mem_append_left l₂ hnode))
      · rw [hother₂ a hba.symm, hself]
      · rw [← hfirst]
        apply hrest.congr
        intro node hnode
        exact hother₂ node.1 (hother' node (List.mem_append_right l hnode))

theorem chain_free_first {q : Option Nat} {x : α} (hc : Chain h q p ((a, x) :: l))
    (hnew : ∀ node ∈ l, node.1 ≠ a) :
    ∃ next, p = some a ∧ h.load a = some ⟨x, next⟩ ∧ Chain (h.free a) q next l := by
  obtain ⟨hp, next, hload, hrest⟩ := hc
  refine ⟨next, hp, hload, hrest.congr ?_⟩
  intro node hnode
  exact load_free_of_ne h (hnew node hnode)

end Heap

end FFmpeg.Common
