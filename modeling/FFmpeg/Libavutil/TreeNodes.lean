import Mathlib.Tactic
import FFmpeg.Common.Run
import FFmpeg.Libavutil.TreeBalanced

/-!
# Nodes of the trees

The tree functions with the identity of the nodes, which the caller allocates
and gets back.  Without the identities they are the functions on trees of
elements; over any run of insertions and removals the tree stays a balanced
search tree of the right keys, and no node is lost or kept twice.
-/

namespace FFmpeg.Libavutil

open Common AVTree

variable {ν α κ : Type*}

/-- A node as memory: its address and the element it holds. -/
structure Cell (ν α : Type*) where
  addr : ν
  elem : α
  deriving DecidableEq, Repr

namespace AVTree

/-- The tree of the elements. -/
def erase : AVTree (Cell ν α) → AVTree α
  | nil => nil
  | node l c s r => node l.erase c.elem s r.erase

/-- The addresses of the nodes. -/
def addrs (t : AVTree (Cell ν α)) : List ν :=
  t.elems.map Cell.addr

@[simp] theorem erase_nil : (nil : AVTree (Cell ν α)).erase = nil := rfl

@[simp] theorem erase_node (l r : AVTree (Cell ν α)) (c : Cell ν α) (s : Int) :
    (node l c s r).erase = node l.erase c.elem s r.erase := rfl

@[simp] theorem isNil_erase (t : AVTree (Cell ν α)) : t.erase.isNil = t.isNil := by
  cases t <;> rfl

@[simp] theorem state_erase (t : AVTree (Cell ν α)) : t.erase.state = t.state := by
  cases t <;> rfl

theorem erase_rotate (i : Bool) (t : AVTree (Cell ν α)) :
    (rotate i t).erase = rotate i t.erase := by
  have hjoin (other same : AVTree (Cell ν α)) (c : Cell ν α) (s : Int) :
      (join i other c s same).erase = join i other.erase c.elem s same.erase := by
    cases i <;> rfl
  have hchild (j : Bool) (t : AVTree (Cell ν α)) : (child j t).erase = child j t.erase := by
    cases t <;> cases j <;> rfl
  cases t with
  | nil => rfl
  | node l c s r =>
    have hc := hchild i (node l c s r)
    rw [erase_node] at hc
    rw [erase_node, rotate, rotate, ← hc]
    cases child i (node l c s r) with
    | nil => rfl
    | node cl cc cs cr =>
      have hg := hchild (!i) (node cl cc cs cr)
      rw [erase_node] at hg
      simp only [erase_node]
      by_cases hdouble : cs * 2 = -s
      · rw [if_pos hdouble, if_pos hdouble, ← hg]
        cases child (!i) (node cl cc cs cr) with
        | nil => rfl
        | node gl gc gs gr => simp only [erase_node, hjoin, hchild]
      · rw [if_neg hdouble, if_neg hdouble]
        simp only [erase_node, hjoin, hchild]

theorem erase_retrace (i : Bool) (l r : AVTree (Cell ν α)) (c : Cell ν α) (s : Int) :
    (retrace i l c s r).erase = retrace i l.erase c.elem s r.erase := by
  unfold retrace
  generalize s + (if i = true then 1 else -1) = state
  dsimp only
  split_ifs
  · exact erase_rotate i _
  · rfl

end AVTree

/-! ## The functions -/

/-- The part of `av_tree_insert` after the recursive call, on nodes. -/
def ascendNodes (i : Bool) (l : AVTree (Cell ν α)) (c : Cell ν α) (s : Int)
    (r : AVTree (Cell ν α)) (key : α) (sub : AVTree (Cell ν α) × Option α × Option ν) :
    AVTree (Cell ν α) × Option α × Option ν :=
  let (t, ret, next) := sub
  let l := if i then l else t
  let r := if i then t else r
  match ret with
  | some ret => (.node l c s r, some ret, next)
  | none =>
    let t := retrace (i != next.isSome) l c s r
    if decide (t.state = 0) != next.isSome then (t, some key, next) else (t, none, next)

/-- `av_tree_insert` on nodes; `next` is the address in `*next`.  A removed element is
replaced in its node, and the node of its neighbour is unlinked. -/
def avTreeInsertNodes (cmp : α → α → Int) :
    AVTree (Cell ν α) → α → Option ν → AVTree (Cell ν α) × Option α × Option ν
  | .nil, key, some addr => (.node .nil ⟨addr, key⟩ 0 .nil, none, none)
  | .nil, key, none => (.nil, some key, none)
  | .node l c s r, key, next =>
    let v := cmp c.elem key
    if v = 0 then
      if next.isSome then (.node l c s r, some c.elem, next)
      else if l.isNil ∧ r.isNil then (.nil, none, some c.addr)
      else
        let i := l.isNil
        let found :=
          (avTreeFind (fun k c => cmp k c.elem) key (if i then r else l) ⟨none, none⟩).2.get i
        let e := (found.map Cell.elem).getD c.elem
        if i then ascendNodes i l { c with elem := e } s r e (avTreeInsertNodes cmp r e next)
        else ascendNodes i l { c with elem := e } s r e (avTreeInsertNodes cmp l e next)
    else if v < 0 then ascendNodes true l c s r key (avTreeInsertNodes cmp r key next)
    else ascendNodes false l c s r key (avTreeInsertNodes cmp l key next)

/-- The result without the addresses. -/
def eraseResult (res : AVTree (Cell ν α) × Option α × Option ν) : AVTree α × Option α × Bool :=
  (res.1.erase, res.2.1, res.2.2.isSome)

theorem eraseResult_ascendNodes (i : Bool) (l r : AVTree (Cell ν α)) (c : Cell ν α) (s : Int)
    (key : α) (sub : AVTree (Cell ν α) × Option α × Option ν) :
    eraseResult (ascendNodes i l c s r key sub) =
      ascend i l.erase c.elem s r.erase key (eraseResult sub) := by
  obtain ⟨t, ret, next⟩ := sub
  have hl : (if i then l else t).erase = if i then l.erase else t.erase := by
    split_ifs <;> rfl
  have hr : (if i then t else r).erase = if i then t.erase else r.erase := by
    split_ifs <;> rfl
  unfold ascendNodes ascend eraseResult
  cases ret with
  | some ret => simp only [erase_node, hl, hr]
  | none =>
    dsimp only
    rw [← hl, ← hr, ← erase_retrace, state_erase]
    split_ifs <;> rfl

theorem avTreeFind_erase (cmp : κ → α → Int) (key : κ) (t : AVTree (Cell ν α))
    (next : Next (Cell ν α)) :
    (avTreeFind cmp key t.erase ⟨next.next0.map Cell.elem, next.next1.map Cell.elem⟩) =
      ((avTreeFind (fun k c => cmp k c.elem) key t next).1.map Cell.elem,
        ⟨(avTreeFind (fun k c => cmp k c.elem) key t next).2.next0.map Cell.elem,
          (avTreeFind (fun k c => cmp k c.elem) key t next).2.next1.map Cell.elem⟩) := by
  induction t generalizing next with
  | nil => rfl
  | node l c s r ihl ihr =>
    rw [erase_node, avTreeFind, avTreeFind]
    dsimp only
    split_ifs
    · exact ihl ⟨next.next0, some c⟩
    · exact ihr ⟨some c, next.next1⟩
    · rw [ihl next, ihr]
      rfl

/-- Without the addresses it is `av_tree_insert` on trees of elements. -/
theorem eraseResult_avTreeInsertNodes (cmp : α → α → Int) (t : AVTree (Cell ν α)) (key : α)
    (next : Option ν) :
    eraseResult (avTreeInsertNodes cmp t key next) = avTreeInsert cmp t.erase key next.isSome := by
  induction t generalizing key with
  | nil => cases next <;> rfl
  | node l c s r ihl ihr =>
    have hfind (t : AVTree (Cell ν α)) (i : Bool) :
        (avTreeFind cmp key t.erase ⟨none, none⟩).2.get i =
          ((avTreeFind (fun k c => cmp k c.elem) key t ⟨none, none⟩).2.get i).map Cell.elem := by
      have h := avTreeFind_erase cmp key t ⟨none, none⟩
      rw [Option.map_none] at h
      rw [h]
      cases i <;> rfl
    rw [avTreeInsertNodes, erase_node, avTreeInsert]
    dsimp only
    rw [isNil_erase, isNil_erase]
    by_cases hzero : cmp c.elem key = 0
    · rw [if_pos hzero, if_pos hzero]
      by_cases hnext : next.isSome = true
      · rw [if_pos hnext, if_pos hnext, eraseResult]
        rfl
      · rw [if_neg hnext, if_neg hnext]
        by_cases hleaf : l.isNil = true ∧ r.isNil = true
        · rw [if_pos hleaf, if_pos hleaf]
          rfl
        · rw [if_neg hleaf, if_neg hleaf]
          cases l.isNil with
          | true =>
            rw [if_pos rfl, if_pos rfl, if_pos rfl, if_pos rfl, hfind, eraseResult_ascendNodes, ihr]
          | false =>
            rw [if_neg Bool.false_ne_true, if_neg Bool.false_ne_true, if_neg Bool.false_ne_true,
              if_neg Bool.false_ne_true, hfind, eraseResult_ascendNodes, ihl]
    · rw [if_neg hzero, if_neg hzero]
      split_ifs
      · rw [eraseResult_ascendNodes, ihr]
      · rw [eraseResult_ascendNodes, ihl]

/-! ## No node is lost -/

@[simp] theorem addrs_node (l r : AVTree (Cell ν α)) (c : Cell ν α) (s : Int) :
    (node l c s r).addrs = l.addrs ++ c.addr :: r.addrs := by
  rw [addrs, elems_node, List.map_append, List.map_cons, addrs, addrs]

theorem addrs_ascendNodes (i : Bool) (l r : AVTree (Cell ν α)) (c : Cell ν α) (s : Int)
    (key : α) (sub : AVTree (Cell ν α) × Option α × Option ν) :
    (ascendNodes i l c s r key sub).1.addrs =
        (if i then l else sub.1).addrs ++ c.addr :: (if i then sub.1 else r).addrs ∧
      (ascendNodes i l c s r key sub).2.2 = sub.2.2 := by
  obtain ⟨t, ret, next⟩ := sub
  unfold ascendNodes
  cases ret with
  | some ret => exact ⟨addrs_node _ _ _ _, rfl⟩
  | none =>
    dsimp only
    generalize (if i = true then l else t) = l'
    generalize (if i = true then t else r) = r'
    have hsame : (retrace (i != next.isSome) l' c s r').addrs = l'.addrs ++ c.addr :: r'.addrs := by
      rw [addrs, elems_retrace, List.map_append, List.map_cons, addrs, addrs]
    split_ifs
    · exact ⟨hsame, rfl⟩
    · exact ⟨hsame, rfl⟩

theorem perm_trade {n n' a b b' : List ν} (h : (n' ++ b').Perm (n ++ b)) :
    (n' ++ (a ++ b')).Perm (n ++ (a ++ b)) :=
  (List.perm_append_comm_assoc n' a b').trans
    ((h.append_left a).trans (List.perm_append_comm_assoc a n b))

/-- The nodes of the tree and the one in `*next` stay the same, together. -/
theorem addrs_avTreeInsertNodes (cmp : α → α → Int) (t : AVTree (Cell ν α)) (key : α)
    (next : Option ν) :
    ((avTreeInsertNodes cmp t key next).2.2.toList ++
      (avTreeInsertNodes cmp t key next).1.addrs).Perm (next.toList ++ t.addrs) := by
  induction t generalizing key with
  | nil =>
    cases next with
    | none => exact List.Perm.refl _
    | some addr => exact List.Perm.refl _
  | node l c s r ihl ihr =>
    -- the recursive call trades nodes with one subtree only
    have hright (k : α) (c' : Cell ν α) (hc : c'.addr = c.addr) :
        ((ascendNodes true l c' s r k (avTreeInsertNodes cmp r k next)).2.2.toList ++
          (ascendNodes true l c' s r k (avTreeInsertNodes cmp r k next)).1.addrs).Perm
          (next.toList ++ (node l c s r).addrs) := by
      obtain ⟨haddrs, hnext⟩ :=
        addrs_ascendNodes true l r c' s k (avTreeInsertNodes cmp r k next)
      rw [haddrs, hnext, if_pos rfl, if_pos rfl, addrs_node, hc]
      have htrade := perm_trade (a := l.addrs ++ [c.addr]) (ihr k)
      simpa only [List.append_assoc, List.singleton_append] using htrade
    have hleft (k : α) (c' : Cell ν α) (hc : c'.addr = c.addr) :
        ((ascendNodes false l c' s r k (avTreeInsertNodes cmp l k next)).2.2.toList ++
          (ascendNodes false l c' s r k (avTreeInsertNodes cmp l k next)).1.addrs).Perm
          (next.toList ++ (node l c s r).addrs) := by
      obtain ⟨haddrs, hnext⟩ :=
        addrs_ascendNodes false l r c' s k (avTreeInsertNodes cmp l k next)
      rw [haddrs, hnext, if_neg Bool.false_ne_true, if_neg Bool.false_ne_true, addrs_node, hc]
      have happend := (ihl k).append_right (c.addr :: r.addrs)
      rwa [List.append_assoc, List.append_assoc] at happend
    rw [avTreeInsertNodes]
    dsimp only
    by_cases hzero : cmp c.elem key = 0
    · rw [if_pos hzero]
      by_cases hnext : next.isSome = true
      · rw [if_pos hnext]
      · rw [if_neg hnext]
        by_cases hleaf : l.isNil = true ∧ r.isNil = true
        · rw [if_pos hleaf, Option.not_isSome_iff_eq_none.mp hnext, addrs, addrs, elems_node,
            elems_eq_nil hleaf.1, elems_eq_nil hleaf.2]
          exact List.Perm.refl _
        · rw [if_neg hleaf]
          cases l.isNil with
          | true =>
            rw [if_pos rfl, if_pos rfl]
            exact hright _ { c with elem := _ } rfl
          | false =>
            rw [if_neg Bool.false_ne_true, if_neg Bool.false_ne_true]
            exact hleft _ { c with elem := _ } rfl
    · rw [if_neg hzero]
      split_ifs
      · exact hright key c rfl
      · exact hleft key c rfl

/-- Inserting a present key, or removing an absent one, changes no node. -/
theorem avTreeInsertNodes_unchanged {cmp : α → α → Int} (hcmp : StrictTotal cmp)
    {t : AVTree (Cell ν α)} {key : α} {next : Option ν} (h : SearchTree cmp t.erase)
    (hmem : key ∈ t.erase.elems ↔ next.isSome = true) :
    avTreeInsertNodes cmp t key next = (t, some key, next) := by
  induction t with
  | nil =>
    cases next with
    | none => rfl
    | some addr => cases hmem.mpr rfl
  | node l c s r ihl ihr =>
    obtain ⟨hl, hr, _⟩ := searchTree_node.mp h
    rw [erase_node] at h
    rw [erase_node, elems_node, List.mem_append, List.mem_cons] at hmem
    rw [avTreeInsertNodes]
    dsimp only
    by_cases hzero : cmp c.elem key = 0
    · have heq : c.elem = key := (hcmp.eq_zero_iff c.elem key).mp hzero
      have hnext : next.isSome = true := hmem.mp (Or.inr (Or.inl heq.symm))
      rw [if_pos hzero, if_pos hnext, heq]
    · have hne : key ≠ c.elem := fun heq => hzero ((hcmp.eq_zero_iff _ _).mpr heq.symm)
      rw [if_neg hzero]
      by_cases hlt : cmp c.elem key < 0
      · have hnl : key ∉ l.erase.elems := not_mem_left h (hcmp.not_neg hlt)
        have hiff : key ∈ r.erase.elems ↔ next.isSome = true := by
          rw [← hmem]
          simp [hnl, hne]
        rw [if_pos hlt, ihr hr hiff]
        rfl
      · have hnr : key ∉ r.erase.elems := not_mem_right h hlt
        have hiff : key ∈ l.erase.elems ↔ next.isSome = true := by
          rw [← hmem]
          simp [hnr, hne]
        rw [if_neg hlt, ihl hl hiff]
        rfl

/-! ## Runs -/

/-- A call of `av_tree_insert`: with an allocated node in `*next`, or with `NULL` there. -/
inductive TreeOp (ν α : Type*)
  | insert (key : α) (addr : ν)
  | remove (key : α)
  deriving DecidableEq, Repr

/-- The key of a call. -/
def TreeOp.key : TreeOp ν α → α
  | insert key _ => key
  | remove key => key

/-- What `*next` holds at the start of a call. -/
def TreeOp.next : TreeOp ν α → Option ν
  | insert _ addr => some addr
  | remove _ => none

/-- The tree after a call. -/
def treeStep (cmp : α → α → Int) (t : AVTree (Cell ν α)) (op : TreeOp ν α) : AVTree (Cell ν α) :=
  (avTreeInsertNodes cmp t op.key op.next).1

/-- What `*next` holds at the end of a call. -/
def handedBack (cmp : α → α → Int) (t : AVTree (Cell ν α)) (op : TreeOp ν α) : Option ν :=
  (avTreeInsertNodes cmp t op.key op.next).2.2

/-- An allocated node is not one of the tree. -/
def Fresh (t : AVTree (Cell ν α)) (op : TreeOp ν α) : Prop :=
  ∀ addr ∈ op.next, addr ∉ t.addrs

/-- The keys inserted and not removed. -/
def keysAfter (keys : Set α) : TreeOp ν α → Set α
  | .insert key _ => insert key keys
  | .remove key => keys \ {key}

/-- A balanced search tree of a set of keys, whose nodes are all different. -/
structure TreeOf (cmp : α → α → Int) (keys : Set α) (t : AVTree (Cell ν α)) : Prop where
  sorted : SearchTree cmp t.erase
  mem_iff : ∀ x, x ∈ t.erase.elems ↔ x ∈ keys
  balanced : t.erase.Balanced
  nodup : t.addrs.Nodup

/-- What a call does with the nodes. -/
structure NodesKept (cmp : α → α → Int) (keys : Set α) (t : AVTree (Cell ν α)) : Prop where
  /-- an insertion uses up the node unless the key is present -/
  insert_absent : ∀ key addr, key ∉ keys → addr ∉ t.addrs →
    handedBack cmp t (.insert key addr) = none ∧
      (treeStep cmp t (.insert key addr)).addrs.Perm (addr :: t.addrs)
  insert_present : ∀ key addr, key ∈ keys → addr ∉ t.addrs →
    treeStep cmp t (.insert key addr) = t ∧ handedBack cmp t (.insert key addr) = some addr
  /-- a removal hands back one node of the tree, which is unlinked, and no other -/
  remove_present : ∀ key, key ∈ keys →
    ∃ addr, handedBack cmp t (.remove key) = some addr ∧
      t.addrs.Perm (addr :: (treeStep cmp t (.remove key)).addrs) ∧
      addr ∉ (treeStep cmp t (.remove key)).addrs
  remove_absent : ∀ key, key ∉ keys →
    treeStep cmp t (.remove key) = t ∧ handedBack cmp t (.remove key) = none

theorem erase_treeStep (cmp : α → α → Int) (t : AVTree (Cell ν α)) (op : TreeOp ν α) :
    (treeStep cmp t op).erase = (avTreeInsert cmp t.erase op.key op.next.isSome).1 :=
  congrArg Prod.fst (eraseResult_avTreeInsertNodes cmp t op.key op.next)

theorem isSome_handedBack (cmp : α → α → Int) (t : AVTree (Cell ν α)) (op : TreeOp ν α) :
    (handedBack cmp t op).isSome = (avTreeInsert cmp t.erase op.key op.next.isSome).2.2 :=
  congrArg (fun res => res.2.2) (eraseResult_avTreeInsertNodes cmp t op.key op.next)

variable {cmp : α → α → Int} {keys : Set α} {t : AVTree (Cell ν α)}

theorem TreeOf.unchanged (hcmp : StrictTotal cmp) (h : TreeOf cmp keys t) (op : TreeOp ν α)
    (hop : op.key ∈ keys ↔ op.next.isSome = true) :
    treeStep cmp t op = t ∧ handedBack cmp t op = op.next := by
  have heq : avTreeInsertNodes cmp t op.key op.next = (t, some op.key, op.next) :=
    avTreeInsertNodes_unchanged hcmp h.sorted ((h.mem_iff op.key).trans hop)
  exact ⟨congrArg Prod.fst heq, congrArg (fun res => res.2.2) heq⟩

theorem addrs_treeStep (cmp : α → α → Int) (t : AVTree (Cell ν α)) (op : TreeOp ν α) :
    ((handedBack cmp t op).toList ++ (treeStep cmp t op).addrs).Perm
      (op.next.toList ++ t.addrs) :=
  addrs_avTreeInsertNodes cmp t op.key op.next

/-- An insertion of an absent key. -/
theorem TreeOf.insert (hcmp : StrictTotal cmp) (h : TreeOf cmp keys t) {key : α} {addr : ν}
    (hkey : key ∉ keys) (hfresh : addr ∉ t.addrs) :
    TreeOf cmp (insert key keys) (treeStep cmp t (.insert key addr)) ∧
      handedBack cmp t (.insert key addr) = none ∧
      (treeStep cmp t (.insert key addr)).addrs.Perm (addr :: t.addrs) := by
  obtain ⟨hbal, _, hnext, below, above, hold, hnew, hbelow, habove⟩ :=
    avTreeInsert_insert hcmp h.balanced h.sorted (mt (h.mem_iff key).mp hkey)
  have herase := erase_treeStep cmp t (.insert key addr)
  have hnone : handedBack cmp t (.insert key addr) = none :=
    Option.isNone_iff_eq_none.mp (by
      rw [← Option.not_isSome, isSome_handedBack]
      exact congrArg (!·) hnext)
  have hperm : (treeStep cmp t (.insert key addr)).addrs.Perm (addr :: t.addrs) := by
    have := addrs_treeStep cmp t (.insert key addr)
    rwa [hnone] at this
  have hsorted := h.sorted
  unfold SearchTree at hsorted
  rw [hold] at hsorted
  obtain ⟨hsb, hsa, hba⟩ := List.pairwise_append.mp hsorted
  refine ⟨⟨?_, ?_, ?_, ?_⟩, hnone, hperm⟩
  · unfold SearchTree
    rw [herase]
    refine hnew ▸ List.pairwise_append.mpr ⟨hsb, List.pairwise_cons.mpr ⟨habove, hsa⟩, ?_⟩
    intro x hx y hy
    rcases List.mem_cons.mp hy with rfl | hy
    · exact hbelow x hx
    · exact hba x hx y hy
  · intro x
    rw [herase]
    have hmem := h.mem_iff x
    rw [hold] at hmem
    rw [Set.mem_insert_iff, ← hmem]
    show x ∈ (avTreeInsert cmp t.erase key true).1.elems ↔ _
    rw [hnew]
    simp only [List.mem_append, List.mem_cons]
    tauto
  · rw [herase]
    exact hbal
  · exact hperm.nodup_iff.mpr (List.nodup_cons.mpr ⟨hfresh, h.nodup⟩)

/-- A removal of a present key. -/
theorem TreeOf.remove (hcmp : StrictTotal cmp) (h : TreeOf cmp keys t) {key : α}
    (hkey : key ∈ keys) :
    TreeOf cmp (keys \ {key}) (treeStep cmp t (.remove key)) ∧
      ∃ addr, handedBack cmp t (.remove key) = some addr ∧
        t.addrs.Perm (addr :: (treeStep cmp t (.remove key)).addrs) ∧
        addr ∉ (treeStep cmp t (.remove key)).addrs := by
  obtain ⟨hbal, _, hnext, below, above, hold, hnew⟩ :=
    avTreeInsert_remove hcmp h.balanced h.sorted ((h.mem_iff key).mpr hkey)
  have herase := erase_treeStep cmp t (.remove key)
  obtain ⟨addr, haddr⟩ : ∃ addr, handedBack cmp t (.remove key) = some addr :=
    Option.isSome_iff_exists.mp ((isSome_handedBack cmp t (.remove key)).trans hnext)
  have hperm : t.addrs.Perm (addr :: (treeStep cmp t (.remove key)).addrs) := by
    have := addrs_treeStep cmp t (.remove key)
    rw [haddr] at this
    exact this.symm
  have hnodup := List.nodup_cons.mp (hperm.nodup_iff.mp h.nodup)
  have hsorted := h.sorted
  unfold SearchTree at hsorted
  rw [hold] at hsorted
  obtain ⟨hsb, hsa, hba⟩ := List.pairwise_append.mp hsorted
  obtain ⟨hka, hsa⟩ := List.pairwise_cons.mp hsa
  refine ⟨⟨?_, ?_, ?_, hnodup.2⟩, addr, haddr, hperm, hnodup.1⟩
  · unfold SearchTree
    rw [herase]
    refine hnew ▸ List.pairwise_append.mpr ⟨hsb, hsa, ?_⟩
    exact fun x hx y hy => hba x hx y (List.mem_cons_of_mem key hy)
  · intro x
    rw [herase]
    have hmem := h.mem_iff x
    rw [hold, List.mem_append, List.mem_cons] at hmem
    show x ∈ (avTreeInsert cmp t.erase key false).1.elems ↔ _
    rw [hnew, List.mem_append, Set.mem_sdiff, Set.mem_singleton_iff, ← hmem]
    constructor
    · rintro (hx | hx)
      · refine ⟨Or.inl hx, ?_⟩
        rintro rfl
        exact hcmp.irrefl x (hba x hx x List.mem_cons_self)
      · refine ⟨Or.inr (Or.inr hx), ?_⟩
        rintro rfl
        exact hcmp.irrefl x (hka x hx)
    · rintro ⟨hx | hx | hx, hne⟩
      exacts [Or.inl hx, absurd hx hne, Or.inr hx]
  · rw [herase]
    exact hbal

theorem TreeOf.step (hcmp : StrictTotal cmp) (h : TreeOf cmp keys t) {op : TreeOp ν α}
    (hfresh : Fresh t op) : TreeOf cmp (keysAfter keys op) (treeStep cmp t op) := by
  cases op with
  | insert key addr =>
    by_cases hkey : key ∈ keys
    · have hsame := h.unchanged hcmp (.insert key addr) (iff_of_true hkey rfl)
      rw [hsame.1, keysAfter, Set.insert_eq_of_mem hkey]
      exact h
    · exact (h.insert hcmp hkey (hfresh addr rfl)).1
  | remove key =>
    by_cases hkey : key ∈ keys
    · exact (h.remove hcmp hkey).1
    · have hsame := h.unchanged hcmp (.remove key) (iff_of_false hkey Bool.false_ne_true)
      rw [hsame.1, keysAfter, Set.sdiff_singleton_eq_self hkey]
      exact h

theorem TreeOf.nodesKept (hcmp : StrictTotal cmp) (h : TreeOf cmp keys t) :
    NodesKept cmp keys t where
  insert_absent := fun _ _ hkey hfresh => (h.insert hcmp hkey hfresh).2
  insert_present := fun _ _ hkey _ => h.unchanged hcmp _ (iff_of_true hkey rfl)
  remove_present := fun _ hkey => (h.remove hcmp hkey).2
  remove_absent := fun _ hkey => h.unchanged hcmp _ (iff_of_false hkey Bool.false_ne_true)

theorem TreeOf.run (hcmp : StrictTotal cmp) (h : TreeOf cmp keys t) {ops : List (TreeOp ν α)}
    (hfresh : EachStep (treeStep cmp) Fresh t ops) :
    TreeOf cmp (ops.foldl keysAfter keys) (Common.run (treeStep cmp) t ops) := by
  induction ops generalizing keys t with
  | nil => exact h
  | cons op ops ih => exact ih (h.step hcmp hfresh.1) hfresh.2

/-- Every sequence of insertions and removals, each with a fresh node or none, on an empty
tree gives a balanced search tree of the keys inserted and not removed, and at every point
of the sequence a call keeps account of the nodes. -/
theorem treeOf_run (hcmp : StrictTotal cmp) (ops : List (TreeOp ν α))
    (hfresh : EachStep (treeStep cmp) Fresh .nil ops) :
    TreeOf cmp (ops.foldl keysAfter ∅) (run (treeStep cmp) .nil ops) ∧
      NodesKept cmp (ops.foldl keysAfter ∅) (run (treeStep cmp) .nil ops) := by
  have hempty : TreeOf cmp ∅ (.nil : AVTree (Cell ν α)) :=
    ⟨List.Pairwise.nil, fun x => iff_of_false List.not_mem_nil (Set.notMem_empty x), trivial,
      List.nodup_nil⟩
  have h := hempty.run hcmp hfresh
  exact ⟨h, h.nodesKept hcmp⟩

theorem strictTotal_sub : StrictTotal fun a b : Int => a - b where
  eq_zero_iff := fun a b => by lia
  neg_iff := fun a b => by lia
  trans := fun a b c hab hbc => by lia

/-- Three keys go in and the middle one comes out. -/
theorem treeOf_run_three :
    TreeOf (fun a b : Int => a - b)
        ([.insert 1 10, .insert 2 20, .insert 3 30, .remove 2].foldl keysAfter ∅)
        (run (treeStep fun a b : Int => a - b) .nil
          [.insert 1 10, .insert 2 20, .insert 3 30, .remove 2]) ∧
      NodesKept (ν := Nat) (fun a b : Int => a - b)
        ([.insert 1 10, .insert 2 20, .insert 3 30, .remove 2].foldl keysAfter ∅)
        (run (treeStep fun a b : Int => a - b) .nil
          [.insert 1 10, .insert 2 20, .insert 3 30, .remove 2]) := by
  refine treeOf_run strictTotal_sub [.insert 1 10, .insert 2 20, .insert 3 30, .remove 2] ?_
  simp only [eachStep_cons, eachStep_nil, Fresh, TreeOp.next]
  decide

end FFmpeg.Libavutil
