import Mathlib.Logic.Relation
import FFmpeg.Libavutil.BufferPool

/-!
# Who owns the entries of a buffer pool

While a pool lives, each of its entries is either in the free list or belongs to one
buffer in use, and the reference count is the number of those who may come back to
the pool: the buffers in use, and the owner until it gives the pool up.  The last of
them finds all entries in the free list and frees them with the pool.  The reference
count has 32 bits; this holds as long as it does not wrap around.
-/

namespace FFmpeg.Libavutil.BufferPoolOwnership

open Common BufferPool

variable {Data Arg Free : Type}

/-- The entries allocated so far. -/
def entriesAllocated (events : List (Event Data Arg Free)) :
    List (Nat × BufferPoolEntry Data Arg Free) :=
  events.filterMap fun
    | .entryAllocated p buf => some (p, buf)
    | _ => none

/-- The entries freed so far. -/
def entriesFreed (events : List (Event Data Arg Free)) :
    List (Nat × BufferPoolEntry Data Arg Free) :=
  events.filterMap fun
    | .entryFreed p buf => some (p, buf)
    | _ => none

/-- How often `buffer_pool_free` ran to its end. -/
def poolsFreed (events : List (Event Data Arg Free)) : Nat :=
  events.countP fun
    | .poolFreed => true
    | _ => false

/-- How many may still come back to the pool. -/
def references (s : State Data Arg Free) : Nat :=
  s.inUse.length + if s.owned then 1 else 0

/-- Nobody will come back to the pool any more. -/
def Abandoned (s : State Data Arg Free) : Prop :=
  s.owned = false ∧ s.inUse = []

instance (s : State Data Arg Free) : Decidable (Abandoned s) :=
  decidable_of_iff (s.owned = false ∧ s.inUse.isEmpty) (by simp [Abandoned])

/-- Whether `av_buffer_pool_get` hands a buffer out. -/
def HandsOut (pool : AVBufferPool) (memory : Memory Data Arg Free) : Prop :=
  if pool.pool.isSome then memory.create = true
  else memory.alloc.isSome ∧ memory.entry = true

/-- The reference count has room for what the step takes. -/
def Fits (s : State Data Arg Free) : Action Data Arg Free → Prop
  | .get memory =>
    ∀ pool, s.pool = some pool → HandsOut pool memory → references s + 1 < 2 ^ 32
  | _ => True

/-- A step of anybody. -/
def Moves (s t : State Data Arg Free) : Prop :=
  ∃ a, step s a = some t

/-- A step that fits. -/
def MovesFitting (s t : State Data Arg Free) : Prop :=
  ∃ a, Fits s a ∧ step s a = some t

/-- Lists, ownership and reference count agree. -/
structure Agrees (s : State Data Arg Free) : Prop where
  /-- no entry is twice in the free list or in use, or both -/
  exclusive : ∀ pool, s.pool = some pool → ∃ free,
    s.heap.Chain none pool.pool free ∧ (free.map (·.1) ++ s.inUse.map (·.entry)).Nodup
  refcount : ∀ pool, s.pool = some pool → pool.refcount.toNat = references s
  gone : s.pool = none ↔ Abandoned s
  once : poolsFreed s.events = if Abandoned s then 1 else 0
  fresh : ((entriesAllocated s.events).map (·.1)).Nodup
  freed : (entriesFreed s.events).Perm (if Abandoned s then entriesAllocated s.events else [])
  /-- a buffer can always come back -/
  release : ∀ i, i < s.inUse.length → ∃ t, step s (.release i) = some t
  uninit : s.owned = true → ∃ t, step s .uninit = some t

/-! ## Events -/

section Events

variable (events : List (Event Data Arg Free)) (free : List (Nat × BufferPoolEntry Data Arg Free))

@[simp] theorem entriesAllocated_append (more : List (Event Data Arg Free)) :
    entriesAllocated (events ++ more) = entriesAllocated events ++ entriesAllocated more :=
  List.filterMap_append

@[simp] theorem entriesFreed_append (more : List (Event Data Arg Free)) :
    entriesFreed (events ++ more) = entriesFreed events ++ entriesFreed more :=
  List.filterMap_append

@[simp] theorem poolsFreed_append (more : List (Event Data Arg Free)) :
    poolsFreed (events ++ more) = poolsFreed events + poolsFreed more :=
  List.countP_append

/-- What `buffer_pool_free` leaves behind. -/
def freeEvents : List (Event Data Arg Free) :=
  (free.map fun node => .entryFreed node.1 node.2) ++ [.poolFreed]

theorem entriesAllocated_freeEvents : entriesAllocated (freeEvents free) = [] := by
  induction free with
  | nil => rfl
  | cons node free ih => exact ih

theorem entriesFreed_freeEvents : entriesFreed (freeEvents free) = free := by
  induction free with
  | nil => rfl
  | cons node free ih => exact congrArg (node :: ·) ih

theorem poolsFreed_freeEvents : poolsFreed (freeEvents free) = 1 := by
  induction free with
  | nil => rfl
  | cons node free ih => exact ih

end Events

/-! ## The ledger of a pool that lives -/

variable {heap : Entries Data Arg Free} {head : Option Nat} {pool : AVBufferPool}
  {inUse : List (PooledBuffer Data)} {events : List (Event Data Arg Free)}
  {free used : List (Nat × BufferPoolEntry Data Arg Free)}

/-- Every entry allocated so far is in the free list `free` that starts at `head`, or it
is one of `used`, which belong to the buffers in use. -/
structure Ledger (heap : Entries Data Arg Free) (head : Option Nat)
    (inUse : List (PooledBuffer Data)) (events : List (Event Data Arg Free))
    (free used : List (Nat × BufferPoolEntry Data Arg Free)) : Prop where
  chain : heap.Chain none head free
  inUse_eq : used.map (fun node => (node.1, node.2.data)) =
    inUse.map fun buf => (buf.entry, buf.data)
  loaded : ∀ node ∈ used, ∃ next, heap.load node.1 = some ⟨node.2, next⟩
  allocated : (entriesAllocated events).Perm (free ++ used)
  nodup : ((free ++ used).map (·.1)).Nodup
  noneFreed : entriesFreed events = []
  notFreed : poolsFreed events = 0

theorem Ledger.entries_eq (h : Ledger heap head inUse events free used) :
    used.map (·.1) = inUse.map (·.entry) := by
  have heq := congrArg (List.map Prod.fst) h.inUse_eq
  rwa [List.map_map, List.map_map] at heq

theorem Ledger.length_eq (h : Ledger heap head inUse events free used) :
    used.length = inUse.length := by
  have heq := congrArg List.length h.entries_eq
  rwa [List.length_map, List.length_map] at heq

theorem Ledger.exclusive (h : Ledger heap head inUse events free used) :
    (free.map (·.1) ++ inUse.map (·.entry)).Nodup := by
  rw [← h.entries_eq, ← List.map_append]
  exact h.nodup

variable {node : Nat × BufferPoolEntry Data Arg Free}

theorem Ledger.lt (h : Ledger heap head inUse events free used) (hnode : node ∈ free ++ used) :
    node.1 < heap.cells.length := by
  rcases List.mem_append.mp hnode with hfree | hused
  · exact h.chain.lt hfree
  · obtain ⟨next, hload⟩ := h.loaded node hused
    exact Heap.lt_of_load hload

theorem ledger_initial : Ledger (⟨[]⟩ : Entries Data Arg Free) none [] [] [] [] where
  chain := rfl
  inUse_eq := rfl
  loaded := fun _ hnode => nomatch hnode
  allocated := List.Perm.refl []
  nodup := List.nodup_nil
  noneFreed := rfl
  notFreed := rfl

theorem chain_setNext {heap heap' : Entries Data Arg Free} {a : Nat}
    (hother : ∀ q, q ≠ a → heap'.load q = heap.load q) (hchain : heap.Chain none head free)
    (hnew : a ∉ free.map (·.1)) : heap'.Chain none head free := by
  apply hchain.congr
  intro node hnode
  apply hother
  rintro rfl
  exact hnew (List.mem_map_of_mem hnode)

variable {buf : BufferPoolEntry Data Arg Free}

theorem loaded_setNext {heap heap' : Entries Data Arg Free} {a : Nat} {next : Option Nat}
    (hself : heap'.load a = some ⟨buf, next⟩) (hother : ∀ q, q ≠ a → heap'.load q = heap.load q)
    (hsame : node.1 = a → node.2 = buf) (hload : ∃ next, heap.load node.1 = some ⟨node.2, next⟩) :
    ∃ next, heap'.load node.1 = some ⟨node.2, next⟩ := by
  by_cases heq : node.1 = a
  · exact ⟨next, by rw [heq, hself, hsame heq]⟩
  · obtain ⟨next', hload⟩ := hload
    exact ⟨next', by rw [hother node.1 heq, hload]⟩

/-- The first entry of the free list goes to a new buffer. -/
theorem Ledger.pop {p : Nat} (h : Ledger heap head inUse events ((p, buf) :: free) used)
    (size : Int) :
    ∃ next heap', head = some p ∧ heap.load p = some ⟨buf, next⟩ ∧
      heap.setNext p none = some heap' ∧
      Ledger heap' next (inUse ++ [⟨buf.data, size, p⟩]) events free (used ++ [(p, buf)]) := by
  obtain ⟨hp, next, hload, hrest⟩ := h.chain
  obtain ⟨heap', hset, _, hself, hother⟩ := Heap.setNext_eq hload none
  have hnodup := h.nodup
  rw [List.cons_append, List.map_cons, List.nodup_cons, List.map_append, List.mem_append,
    not_or] at hnodup
  obtain ⟨⟨hfree, hused⟩, _⟩ := hnodup
  -- the entry goes from the front of the one list to the end of the other
  have hperm : ((p, buf) :: free ++ used).Perm (free ++ (used ++ [(p, buf)])) := by
    rw [← List.append_assoc]
    exact (List.perm_append_singleton (p, buf) (free ++ used)).symm
  refine ⟨next, heap', hp, hload, hset, chain_setNext hother hrest hfree, ?_, ?_,
    h.allocated.trans hperm, (hperm.map (·.1)).nodup_iff.mp h.nodup, h.noneFreed, h.notFreed⟩
  · rw [List.map_append, List.map_append, h.inUse_eq]
    rfl
  · intro node hnode
    rcases List.mem_append.mp hnode with hold | hnew
    · apply loaded_setNext hself hother ?_ (h.loaded node hold)
      intro heq
      exact absurd (List.mem_map.mpr ⟨node, hold, heq⟩) hused
    · rw [List.mem_singleton.mp hnew]
      exact ⟨none, hself⟩

/-- A new entry goes to a new buffer. -/
theorem Ledger.alloc (h : Ledger heap head inUse events free used)
    (buf : BufferPoolEntry Data Arg Free) (size : Int) :
    Ledger (heap.alloc ⟨buf, none⟩).2 head
      (inUse ++ [⟨buf.data, size, (heap.alloc ⟨buf, none⟩).1⟩])
      (events ++ [.entryAllocated (heap.alloc ⟨buf, none⟩).1 buf]) free
      (used ++ [((heap.alloc ⟨buf, none⟩).1, buf)]) := by
  have hnew : ∀ node ∈ free ++ used, node.1 ≠ heap.cells.length := fun node hnode =>
    Nat.ne_of_lt (h.lt hnode)
  refine ⟨h.chain.alloc ⟨buf, none⟩, ?_, ?_, ?_, ?_, ?_, ?_⟩
  · rw [List.map_append, List.map_append, h.inUse_eq]
    rfl
  · intro node hnode
    rcases List.mem_append.mp hnode with hold | hnew
    · obtain ⟨next, hload⟩ := h.loaded node hold
      exact ⟨next, Heap.load_alloc hload⟩
    · rw [List.mem_singleton.mp hnew]
      exact ⟨none, Heap.load_alloc_self heap ⟨buf, none⟩⟩
  · rw [entriesAllocated_append, ← List.append_assoc]
    exact h.allocated.append (List.Perm.refl _)
  · rw [← List.append_assoc, List.map_append, List.nodup_append]
    refine ⟨h.nodup, List.nodup_singleton _, ?_⟩
    intro a ha b hb
    obtain ⟨node, hnode, rfl⟩ := List.mem_map.mp ha
    rw [List.map_singleton, List.mem_singleton] at hb
    rw [hb]
    exact hnew node hnode
  · rw [entriesFreed_append, h.noneFreed]
    rfl
  · rw [poolsFreed_append, h.notFreed]
    rfl

/-- A buffer comes back: its entry becomes the first of the free list. -/
theorem Ledger.release (h : Ledger heap head inUse events free used) {i : Nat}
    {buf : PooledBuffer Data} (hi : inUse[i]? = some buf) :
    ∃ heap' node, heap.setNext buf.entry head = some heap' ∧
      Ledger heap' (some buf.entry) (inUse.eraseIdx i) events (node :: free)
        (used.eraseIdx i) := by
  obtain ⟨hlt, _⟩ := List.getElem?_eq_some_iff.mp hi
  rw [← h.length_eq] at hlt
  -- the entry of the buffer
  obtain ⟨e, hget⟩ : ∃ e, used[i] = (buf.entry, e) := by
    have heq := congrArg (·[i]?) h.entries_eq
    simp only [List.getElem?_map, hi, Option.map_some, List.getElem?_eq_getElem hlt] at heq
    exact ⟨used[i].2, by rw [← Option.some.inj heq]⟩
  have hmem : (buf.entry, e) ∈ used := hget ▸ List.getElem_mem hlt
  obtain ⟨next, hload⟩ := h.loaded (buf.entry, e) hmem
  obtain ⟨heap', hset, _, hself, hother⟩ := Heap.setNext_eq hload head
  have hperm : (free ++ used).Perm ((buf.entry, e) :: free ++ used.eraseIdx i) := by
    have hpick := List.getElem_cons_eraseIdx_perm hlt
    rw [hget] at hpick
    exact (hpick.symm.append_left free).trans List.perm_middle
  have hnodup := (hperm.map (·.1)).nodup_iff.mp h.nodup
  have hkeys := hnodup
  rw [List.cons_append, List.map_cons, List.nodup_cons, List.map_append, List.mem_append,
    not_or] at hkeys
  obtain ⟨⟨hfree, hused⟩, _⟩ := hkeys
  refine ⟨heap', (buf.entry, e), hset, ⟨rfl, head, hself, chain_setNext hother h.chain hfree⟩,
    ?_, ?_, h.allocated.trans hperm, hnodup, h.noneFreed, h.notFreed⟩
  · rw [← List.eraseIdx_map, ← List.eraseIdx_map, h.inUse_eq]
  · intro node hnode
    apply loaded_setNext hself hother ?_ (h.loaded node (List.eraseIdx_subset hnode))
    intro heq
    exact absurd (List.mem_map.mpr ⟨node, hnode, heq⟩) hused

/-! ## States -/

variable {s t : State Data Arg Free}

/-- A state whose pool lives. -/
structure Alive (s : State Data Arg Free) (pool : AVBufferPool)
    (free used : List (Nat × BufferPoolEntry Data Arg Free)) : Prop where
  pool_eq : s.pool = some pool
  ledger : Ledger s.heap pool.pool s.inUse s.events free used
  refcount : pool.refcount.toNat = references s
  held : 0 < references s

/-- A state whose pool has been freed. -/
structure Gone (s : State Data Arg Free) : Prop where
  pool_eq : s.pool = none
  abandoned : Abandoned s
  once : poolsFreed s.events = 1
  fresh : ((entriesAllocated s.events).map (·.1)).Nodup
  freed : (entriesFreed s.events).Perm (entriesAllocated s.events)

/-- What every step keeps. -/
def Inv (s : State Data Arg Free) : Prop :=
  (∃ pool free used, Alive s pool free used) ∨ Gone s

theorem abandoned_iff : Abandoned s ↔ references s = 0 := by
  rw [Abandoned, references]
  cases s.owned <;> simp

theorem Alive.not_abandoned (h : Alive s pool free used) : ¬ Abandoned s := by
  rw [abandoned_iff]
  exact Nat.ne_of_gt h.held

theorem inv_initial (size : Int) : Inv (initial size : State Data Arg Free) :=
  Or.inl ⟨avBufferPoolInit size, [], [], rfl, ledger_initial, rfl, Nat.zero_lt_one⟩

theorem bufferPoolFreeLoop_eq {p : Option Nat} (hchain : heap.Chain none p free)
    (hnodup : (free.map (·.1)).Nodup) {fuel : Nat} (hfuel : free.length < fuel) :
    ∃ heap', bufferPoolFreeLoop fuel heap p =
      some (heap', free.map fun node => .entryFreed node.1 node.2) := by
  induction free generalizing heap p fuel with
  | nil =>
    have hp : p = none := hchain
    cases fuel with
    | zero => cases hfuel
    | succ fuel => exact ⟨heap, by rw [hp]; rfl⟩
  | cons node free ih =>
    obtain ⟨a, buf⟩ := node
    rw [List.map_cons, List.nodup_cons] at hnodup
    have hnew : ∀ node ∈ free, node.1 ≠ a := fun node hnode heq =>
      hnodup.1 (List.mem_map.mpr ⟨node, hnode, heq⟩)
    obtain ⟨next, hp, hload, hrest⟩ := Heap.chain_free_first hchain hnew
    cases fuel with
    | zero => cases hfuel
    | succ fuel =>
      obtain ⟨heap', hloop⟩ := ih hrest hnodup.2 (Nat.lt_of_succ_lt_succ hfuel)
      refine ⟨heap', ?_⟩
      rw [hp, bufferPoolFreeLoop, hload, Option.bind_some, hloop]
      rfl

theorem Ledger.bufferPoolFree_eq (h : Ledger heap pool.pool inUse events free used) :
    ∃ heap', bufferPoolFree heap pool = some ⟨heap', none, none, freeEvents free⟩ := by
  have hnodup : (free.map (·.1)).Nodup := by
    have hall := h.nodup
    rw [List.map_append] at hall
    exact hall.of_append_left
  obtain ⟨heap', hloop⟩ :=
    bufferPoolFreeLoop_eq h.chain hnodup (Nat.lt_succ_of_le (h.chain.length_le hnodup))
  exact ⟨heap', by rw [bufferPoolFree, hloop]; rfl⟩

/-- Giving a reference up ends well: somebody else still holds one, or all entries are in
the free list. -/
theorem Ledger.unref (h : Ledger heap pool.pool inUse events free used) (owned : Bool)
    (href : pool.refcount.toNat = references ⟨heap, some pool, owned, inUse, events⟩ + 1) :
    ∃ r, poolUnref heap pool = some r ∧ Inv ⟨r.heap, r.pool, owned, inUse, events ++ r.events⟩ := by
  by_cases hlast : references ⟨heap, some pool, owned, inUse, events⟩ = 0
  · have hone : pool.refcount = 1 := by
      apply UInt32.toNat_inj.mp
      rw [href, hlast]
      rfl
    have habandoned := abandoned_iff.mpr hlast
    obtain ⟨howned, hinUse⟩ := habandoned
    have hused : used = [] := by
      apply List.eq_nil_of_length_eq_zero
      rw [h.length_eq, show inUse = [] from hinUse]
      rfl
    obtain ⟨heap', hfree⟩ := h.bufferPoolFree_eq
    refine ⟨_, by rw [poolUnref, if_pos hone, hfree], Or.inr ⟨rfl, ⟨howned, hinUse⟩, ?_, ?_, ?_⟩⟩
    · show poolsFreed (events ++ freeEvents free) = 1
      rw [poolsFreed_append, h.notFreed, poolsFreed_freeEvents]
    · show ((entriesAllocated (events ++ freeEvents free)).map (·.1)).Nodup
      rw [entriesAllocated_append, entriesAllocated_freeEvents, List.append_nil]
      exact (h.allocated.map (·.1)).nodup_iff.mpr h.nodup
    · show (entriesFreed (events ++ freeEvents free)).Perm
        (entriesAllocated (events ++ freeEvents free))
      rw [entriesFreed_append, h.noneFreed, entriesFreed_freeEvents, entriesAllocated_append,
        entriesAllocated_freeEvents, List.append_nil, List.nil_append]
      have hall := h.allocated
      rw [hused, List.append_nil] at hall
      exact hall.symm
  · have hne : pool.refcount ≠ 1 := by
      intro heq
      rw [heq] at href
      exact hlast (Nat.succ.inj href).symm
    have hle : (1 : UInt32) ≤ pool.refcount := by
      rw [UInt32.le_iff_toNat_le, href]
      exact Nat.succ_le_succ (Nat.zero_le _)
    refine ⟨_, by rw [poolUnref, if_neg hne], Or.inl ⟨_, free, used, rfl, ?_, ?_,
      Nat.pos_of_ne_zero hlast⟩⟩
    · rw [List.append_nil]
      exact h
    · show (pool.refcount - 1).toNat = _
      rw [UInt32.toNat_sub_of_le _ _ hle, href]
      rfl

/-- What the locked section of `av_buffer_pool_get` does to the ledger. -/
theorem Ledger.getLocked (h : Ledger heap pool.pool inUse events free used)
    (memory : Memory Data Arg Free) :
    ∃ r pool' free' used', poolGetLocked heap pool memory = some r ∧ r.pool = some pool' ∧
      pool'.refcount = pool.refcount ∧ (r.ret.isSome → HandsOut pool memory) ∧
      Ledger r.heap pool'.pool (inUse ++ r.ret.toList) (events ++ r.events) free' used' := by
  -- where no buffer is handed out nothing changes
  have hsame : Ledger heap pool.pool (inUse ++ (none : Option (PooledBuffer Data)).toList)
      (events ++ []) free used := by
    rw [Option.toList_none, List.append_nil, List.append_nil]
    exact h
  cases free with
  | nil =>
    have hpool : pool.pool = none := h.chain
    have hlocked : poolGetLocked heap pool memory = some (poolAllocBuffer heap pool memory) := by
      rw [poolGetLocked, hpool]
    cases halloc : memory.alloc with
    | none =>
      refine ⟨⟨heap, some pool, none, []⟩, pool, [], used, ?_, rfl, rfl, nofun, hsame⟩
      rw [hlocked, poolAllocBuffer, halloc]
    | some ret =>
      cases hentry : memory.entry with
      | false =>
        refine ⟨⟨heap, some pool, none, [.dropped ret]⟩, pool, [], used, ?_, rfl, rfl, nofun, ?_⟩
        · rw [hlocked, poolAllocBuffer, halloc, hentry]
          rfl
        · rw [Option.toList_none, List.append_nil]
          refine ⟨h.chain, h.inUse_eq, h.loaded, ?_, h.nodup, ?_, ?_⟩
          · rw [entriesAllocated_append]
            simpa [entriesAllocated] using h.allocated
          · rw [entriesFreed_append, h.noneFreed]
            rfl
          · rw [poolsFreed_append, h.notFreed]
            rfl
      | true =>
        have hled := h.alloc ⟨ret.data, ret.arg, ret.free⟩ ret.size
        refine ⟨⟨_, some pool, some ⟨ret.data, ret.size, _⟩, [.entryAllocated _ _]⟩, pool, [], _, ?_,
          rfl, rfl, ?_, hled⟩
        · rw [hlocked, poolAllocBuffer, halloc, hentry]
          rfl
        · intro _
          rw [HandsOut, hpool, halloc, hentry]
          simp
  | cons node free =>
    obtain ⟨p, buf⟩ := node
    obtain ⟨next, heap', hp, hload, hset, hled⟩ := h.pop pool.size
    cases hcreate : memory.create with
    | false =>
      refine ⟨⟨heap, some pool, none, []⟩, pool, (p, buf) :: free, used, ?_, rfl, rfl, nofun, hsame⟩
      rw [poolGetLocked, hp]
      simp only [hload, Option.bind_some, hcreate]
      rfl
    | true =>
      refine ⟨⟨heap', some { pool with pool := next }, some ⟨buf.data, pool.size, p⟩, []⟩, _, free,
        used ++ [(p, buf)], ?_, rfl, rfl, ?_, ?_⟩
      · rw [poolGetLocked, hp]
        simp only [hload, Option.bind_some, hcreate, if_pos, hset, Option.map_some]
      · intro _
        rw [HandsOut, hp, hcreate]
        rfl
      · rw [List.append_nil]
        exact hled

/-! ## Steps -/

theorem Alive.get (h : Alive s pool free used) (memory : Memory Data Arg Free)
    (hfits : HandsOut pool memory → references s + 1 < 2 ^ 32) :
    ∃ t, step s (.get memory) = some t ∧ Inv t := by
  obtain ⟨r, pool', free', used', hlocked, hpool', hcount, hhands, hled⟩ :=
    h.ledger.getLocked memory
  have href := h.refcount
  cases hret : r.ret with
  | none =>
    refine ⟨⟨r.heap, r.pool, s.owned, s.inUse ++ r.ret.toList, s.events ++ r.events⟩, ?_,
      Or.inl ⟨pool', free', used', hpool', hled, ?_, ?_⟩⟩
    · simp only [step, h.pool_eq, Option.bind_some, avBufferPoolGet, hlocked, Option.map_some,
        hret, Option.isSome_none, Bool.false_eq_true, if_false]
    · rw [hcount, href, hret]
      simp [references]
    · rw [hret]
      simpa [references] using h.held
  | some buf =>
    have hroom := hfits (hhands (by rw [hret]; rfl))
    have hlength : references (⟨r.heap, r.pool.map poolRef, s.owned, s.inUse ++ r.ret.toList,
        s.events ++ r.events⟩ : State Data Arg Free) = references s + 1 := by
      rw [hret, references, references, Option.toList_some, List.length_append,
        List.length_singleton]
      exact Nat.add_right_comm _ _ _
    refine ⟨⟨r.heap, r.pool.map poolRef, s.owned, s.inUse ++ r.ret.toList, s.events ++ r.events⟩,
      ?_, Or.inl ⟨poolRef pool', free', used', ?_, hled, ?_, ?_⟩⟩
    · simp only [step, h.pool_eq, Option.bind_some, avBufferPoolGet, hlocked, Option.map_some,
        hret, Option.isSome_some, if_true]
    · show r.pool.map poolRef = _
      rw [hpool', Option.map_some]
    · -- the one place where the count goes up, and so where it could wrap around
      show (pool'.refcount + 1).toNat = _
      rw [hlength, UInt32.toNat_add, hcount, href]
      exact Nat.mod_eq_of_lt hroom
    · rw [hlength]
      exact Nat.succ_pos _

theorem Alive.release (h : Alive s pool free used) {i : Nat} (hi : i < s.inUse.length) :
    ∃ t, step s (.release i) = some t ∧ Inv t := by
  have hbuf := List.getElem?_eq_getElem hi
  obtain ⟨heap', node, hset, hled⟩ := h.ledger.release hbuf
  let pool' : AVBufferPool := { pool with pool := some s.inUse[i].entry }
  have href : pool'.refcount.toNat =
      references ⟨heap', some pool', s.owned, s.inUse.eraseIdx i, s.events⟩ + 1 := by
    show pool.refcount.toNat = _
    rw [h.refcount, references, references, ← List.length_eraseIdx_add_one hi]
    exact Nat.add_right_comm _ _ _
  have hled' : Ledger heap' pool'.pool (s.inUse.eraseIdx i) s.events (node :: free)
      (used.eraseIdx i) := hled
  obtain ⟨r, hunref, hinv⟩ := hled'.unref s.owned href
  refine ⟨_, ?_, hinv⟩
  have hreturn : poolReleaseBuffer s.heap pool s.inUse[i] = some r := by
    rw [poolReleaseBuffer, hset, Option.bind_some]
    exact hunref
  simp only [step, hbuf, h.pool_eq, Option.bind_some, hreturn, Option.map_some]

theorem Alive.uninit (h : Alive s pool free used) (howned : s.owned = true) :
    ∃ t, step s .uninit = some t ∧ Inv t := by
  have href : pool.refcount.toNat =
      references ⟨s.heap, some pool, false, s.inUse, s.events⟩ + 1 := by
    rw [h.refcount, references, references, howned]
    rfl
  obtain ⟨r, hunref, hinv⟩ := h.ledger.unref false href
  refine ⟨_, ?_, hinv⟩
  simp only [step, howned, if_true, h.pool_eq, Option.bind_some, hunref, Option.map_some]

theorem Gone.step_eq_none (h : Gone s) (a : Action Data Arg Free) : step s a = none := by
  obtain ⟨howned, hinUse⟩ := h.abandoned
  cases a with
  | get memory => rw [step, h.pool_eq, Option.bind_none]
  | release i => rw [step, hinUse, List.getElem?_nil, Option.bind_none]
  | uninit => rw [step, howned, if_neg Bool.false_ne_true]

theorem inv_step {a : Action Data Arg Free} (hinv : Inv s) (hfits : Fits s a)
    (hstep : step s a = some t) : Inv t := by
  rcases hinv with ⟨pool, free, used, h⟩ | h
  · have hsome : ∃ t, step s a = some t ∧ Inv t := by
      cases a with
      | get memory => exact h.get memory (hfits pool h.pool_eq)
      | release i =>
        apply h.release
        by_contra hi
        rw [step, List.getElem?_eq_none (Nat.le_of_not_lt hi)] at hstep
        cases hstep
      | uninit =>
        apply h.uninit
        by_contra howned
        rw [step, if_neg howned] at hstep
        cases hstep
    obtain ⟨t', ht', hinv⟩ := hsome
    rw [hstep] at ht'
    cases ht'
    exact hinv
  · rw [h.step_eq_none a] at hstep
    cases hstep

theorem inv_of_reachable {size : Int}
    (hrun : Relation.ReflTransGen MovesFitting (initial size) s) : Inv s := by
  induction hrun with
  | refl => exact inv_initial size
  | tail _ hmove ih =>
    obtain ⟨a, hfits, hstep⟩ := hmove
    exact inv_step ih hfits hstep

theorem Inv.agrees (hinv : Inv s) : Agrees s := by
  rcases hinv with ⟨pool, free, used, h⟩ | h
  · have hnot := h.not_abandoned
    refine ⟨?_, ?_, ?_, ?_, ?_, ?_, ?_, ?_⟩
    · intro pool' hpool'
      rw [h.pool_eq] at hpool'
      cases hpool'
      exact ⟨free, h.ledger.chain, h.ledger.exclusive⟩
    · intro pool' hpool'
      rw [h.pool_eq] at hpool'
      cases hpool'
      exact h.refcount
    · rw [h.pool_eq]
      exact ⟨nofun, fun habandoned => absurd habandoned hnot⟩
    · rw [if_neg hnot]
      exact h.ledger.notFreed
    · exact (h.ledger.allocated.map (·.1)).nodup_iff.mpr h.ledger.nodup
    · rw [if_neg hnot, h.ledger.noneFreed]
    · intro i hi
      obtain ⟨t, hstep, _⟩ := h.release hi
      exact ⟨t, hstep⟩
    · intro howned
      obtain ⟨t, hstep, _⟩ := h.uninit howned
      exact ⟨t, hstep⟩
  · have habandoned := h.abandoned
    obtain ⟨howned, hinUse⟩ := h.abandoned
    refine ⟨?_, ?_, ⟨fun _ => habandoned, fun _ => h.pool_eq⟩, ?_, h.fresh, ?_, ?_, ?_⟩
    · rw [h.pool_eq]
      exact nofun
    · rw [h.pool_eq]
      exact nofun
    · rw [if_pos habandoned]
      exact h.once
    · rw [if_pos habandoned]
      exact h.freed
    · rw [hinUse]
      exact nofun
    · rw [howned]
      exact nofun

/-! ## Every run -/

/-- In every run in which the reference count does not wrap around, whatever the order
in which buffers are handed out and come back and the pool is given up, lists,
ownership and reference count agree in every state. -/
theorem agrees_of_run {size : Int} {s : State Data Arg Free}
    (hrun : Relation.ReflTransGen MovesFitting (initial size) s) : Agrees s :=
  (inv_of_reachable hrun).agrees

/-- What `alloc` gives in the runs below. -/
def plenty : Memory Unit Unit Unit where
  create := true
  alloc := some ⟨(), 4, (), ()⟩
  entry := true

/-- The pool is given up while a buffer is in use, and freed when that one comes back. -/
theorem agrees_of_run_late :
    ∃ s : State Unit Unit Unit, s.events =
      [.entryAllocated 0 ⟨(), (), ()⟩, .entryFreed 0 ⟨(), (), ()⟩, .poolFreed] ∧ Agrees s := by
  have hget : MovesFitting (initial 4)
      ⟨⟨[some ⟨⟨(), (), ()⟩, none⟩]⟩, some ⟨none, 2, 4⟩, true, [⟨(), 4, 0⟩],
        [.entryAllocated 0 ⟨(), (), ()⟩]⟩ := by
    refine ⟨.get plenty, ?_, rfl⟩
    intro _ _ _
    decide
  have hrun := ((Relation.ReflTransGen.refl.tail hget).tail ⟨.uninit, trivial, rfl⟩).tail
    ⟨.release 0, trivial, rfl⟩
  exact ⟨⟨⟨[none]⟩, none, false, [], _⟩, rfl, agrees_of_run hrun⟩

theorem refcount_after_gets (n : Nat) :
    ∃ (s : State Unit Unit Unit) (pool : AVBufferPool)
      (used : List (Nat × BufferPoolEntry Unit Unit Unit)),
      Relation.ReflTransGen Moves (initial 4) s ∧ s.pool = some pool ∧
      Ledger s.heap pool.pool s.inUse s.events [] used ∧
      pool.refcount = UInt32.ofNat (n + 1) ∧ s.owned = true ∧ s.inUse.length = n := by
  induction n with
  | zero => exact ⟨_, _, [], .refl, rfl, ledger_initial, rfl, rfl, rfl⟩
  | succ n ih =>
    obtain ⟨s, pool, used, hrun, hpool, hled, hcount, howned, hlength⟩ := ih
    have hhead : pool.pool = none := hled.chain
    have hled' := hled.alloc ⟨(), (), ()⟩ 4
    refine ⟨⟨_, some (poolRef pool), s.owned, _, _⟩, poolRef pool, _, hrun.tail ⟨.get plenty, ?_⟩,
      rfl, hled', ?_, howned, ?_⟩
    · simp only [step, hpool, Option.bind_some, avBufferPoolGet, poolGetLocked, hhead,
        poolAllocBuffer, plenty, if_true, Option.map_some, Option.isSome_some]
      rfl
    · show pool.refcount + 1 = _
      rw [hcount, UInt32.ofNat_add (n + 1) 1]
      rfl
    · rw [List.length_append, hlength, List.length_singleton]

/-- With `2 ^ 32 - 1` buffers in use the count is zero. -/
theorem agrees_of_run_wraps :
    ¬ ∀ s : State Unit Unit Unit, Relation.ReflTransGen Moves (initial 4) s → Agrees s := by
  intro hall
  obtain ⟨s, pool, used, hrun, hpool, _, hcount, howned, hlength⟩ :=
    refcount_after_gets (2 ^ 32 - 1)
  have href := (hall s hrun).refcount pool hpool
  rw [references, hlength, howned, hcount] at href
  revert href
  decide

end FFmpeg.Libavutil.BufferPoolOwnership
