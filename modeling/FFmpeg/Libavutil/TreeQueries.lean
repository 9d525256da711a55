import FFmpeg.Libavutil.TreeNodes

/-!
# Queries of the trees

What `av_tree_find` puts into `next`, and what `av_tree_enumerate` visits, after any run of
insertions and removals.
-/

namespace FFmpeg.Libavutil

open Common AVTree

namespace AVTree

variable {α : Type*}

/-- `av_tree_enumerate`: what `enu` is called with; `cmp` may be `NULL`. -/
def avTreeEnumerate (cmp : Option (α → Int)) : AVTree α → List α
  | .nil => []
  | .node l e _ r =>
    let v := cmp.elim 0 fun cmp => cmp e
    (if 0 ≤ v then avTreeEnumerate cmp l else []) ++ (if v = 0 then [e] else []) ++
      (if v ≤ 0 then avTreeEnumerate cmp r else [])

/-- The nearest of some elements, if there is one. -/
def Nearest (among : α → Prop) (farther : α → α → Prop) : Option α → Prop
  | none => ∀ x, ¬ among x
  | some e => among e ∧ ∀ x, among x → x = e ∨ farther x e

variable {cmp : α → α → Int} {t : AVTree α} {key : α}

theorem nearest_getLast? {l : List α} (h : l.Pairwise fun a b => cmp a b < 0) :
    Nearest (· ∈ l) (fun x e => cmp x e < 0) l.getLast? := by
  rcases l.eq_nil_or_concat with rfl | ⟨l, e, rfl⟩
  · simp [Nearest]
  · rw [List.concat_eq_append] at h ⊢
    rw [List.getLast?_concat]
    refine ⟨by simp, fun x hx => ?_⟩
    rcases List.mem_append.1 hx with hx | hx
    · exact .inr ((List.pairwise_append.1 h).2.2 x hx e (List.mem_singleton_self e))
    · exact .inl (List.mem_singleton.1 hx)

theorem nearest_head? {l : List α} (h : l.Pairwise fun a b => cmp a b < 0) :
    Nearest (· ∈ l) (fun x e => cmp e x < 0) l.head? := by
  cases l with
  | nil => simp [Nearest]
  | cons e l =>
    refine ⟨by simp, fun x hx => ?_⟩
    rcases List.mem_cons.1 hx with rfl | hx
    · exact .inl rfl
    · exact .inr ((List.pairwise_cons.1 h).1 x hx)

/-- The neighbours are the last element below the key and the first one above it. -/
theorem avTreeFind_eq (hcmp : StrictTotal cmp) (h : SearchTree cmp t) (next : Next α) :
    ((avTreeFind cmp key t next).1 = some key ↔ key ∈ t.elems) ∧
      (avTreeFind cmp key t next).2.next0 =
        (t.elems.filter fun x => 0 < cmp key x).getLast?.or next.next0 ∧
      (avTreeFind cmp key t next).2.next1 =
        (t.elems.filter fun x => cmp key x < 0).head?.or next.next1 := by
  induction t generalizing next with
  | nil => simp [avTreeFind]
  | node l e s r ihl ihr =>
    obtain ⟨hl, hr, hle, her, -⟩ := searchTree_node.1 h
    rw [avTreeFind, elems_node, List.filter_append, List.filter_append]
    rcases lt_trichotomy (cmp key e) 0 with hlt | heq | hgt
    · -- everything to the right is above the key
      have hright : ∀ x ∈ r.elems, cmp key x < 0 := fun x hx => hcmp.trans _ _ _ hlt (her x hx)
      have hnone : r.elems.filter (fun x => 0 < cmp key x) = [] :=
        List.filter_eq_nil_iff.2 fun x hx => by simpa using (hright x hx).le
      obtain ⟨hfound, hnext0, hnext1⟩ := ihl hl { next with next1 := some e }
      have hne : key ≠ e := fun h => hlt.ne ((hcmp.eq_zero_iff key e).2 h)
      rw [if_pos hlt, hfound, hnext0, hnext1]
      refine ⟨?_, ?_, ?_⟩
      · have hnot : key ∉ r.elems := fun hmem => hcmp.irrefl key (hright key hmem)
        simp [hne, hnot]
      · simp [hlt.le, hnone]
      · simp [hlt]
    · obtain rfl := (hcmp.eq_zero_iff key e).1 heq
      have hleft : l.elems.filter (fun x => cmp key x < 0) = [] :=
        List.filter_eq_nil_iff.2 fun x hx => by simpa using ((hcmp.neg_iff x key).1 (hle x hx)).le
      have hright : r.elems.filter (fun x => 0 < cmp key x) = [] :=
        List.filter_eq_nil_iff.2 fun x hx => by simpa using (her x hx).le
      -- both subtrees are searched, and what the first search finds is kept by the second one
      have hnextl := ihl hl next
      have hnextr := ihr hr (avTreeFind cmp key l next).2
      rw [if_neg (by omega), if_neg (by omega)]
      dsimp only
      rw [hnextr.2.1, hnextr.2.2, hnextl.2.1, hnextl.2.2, hleft, hright]
      simp [heq, hright, -List.getLast?_filter, -List.head?_filter]
    · -- everything to the left is below the key
      have hleft : ∀ x ∈ l.elems, 0 < cmp key x := fun x hx =>
        (hcmp.neg_iff x key).1 (hcmp.trans _ _ _ (hle x hx) ((hcmp.neg_iff e key).2 hgt))
      have hnone : l.elems.filter (fun x => cmp key x < 0) = [] :=
        List.filter_eq_nil_iff.2 fun x hx => by simpa using (hleft x hx).le
      obtain ⟨hfound, hnext0, hnext1⟩ := ihr hr { next with next0 := some e }
      have hne : key ≠ e := fun h => hgt.ne' ((hcmp.eq_zero_iff key e).2 h)
      rw [if_neg (by omega), if_pos hgt, hfound, hnext0, hnext1]
      refine ⟨?_, ?_, ?_⟩
      · have hnot : key ∉ l.elems := fun hmem =>
          hcmp.irrefl key ((hcmp.neg_iff key key).2 (hleft key hmem))
        simp [hne, hnot]
      · simp [hgt, List.getLast?_cons, -List.getLast?_filter]
      · simp [hgt.le, hnone]

theorem avTreeEnumerate_none (t : AVTree α) : avTreeEnumerate none t = t.elems := by
  induction t with
  | nil => rfl
  | node l e s r ihl ihr => simp [avTreeEnumerate, ihl, ihr]

theorem avTreeEnumerate_some {v : α → Int} (h : SearchTree cmp t)
    (hv : ∀ a b, cmp a b < 0 → v a ≤ v b) :
    avTreeEnumerate (some v) t = t.elems.filter fun x => v x = 0 := by
  induction t with
  | nil => rfl
  | node l e s r ihl ihr =>
    obtain ⟨hl, hr, hle, her, -⟩ := searchTree_node.1 h
    have hleft : v e < 0 → l.elems.filter (fun x => v x = 0) = [] := fun hneg =>
      List.filter_eq_nil_iff.2 fun x hx => by
        have := hv x e (hle x hx)
        simp only [decide_eq_true_eq]
        omega
    have hright : 0 < v e → r.elems.filter (fun x => v x = 0) = [] := fun hpos =>
      List.filter_eq_nil_iff.2 fun x hx => by
        have := hv e x (her x hx)
        simp only [decide_eq_true_eq]
        omega
    rw [avTreeEnumerate, ihl hl, ihr hr, elems_node, List.filter_append, List.filter_cons]
    dsimp only [Option.elim]
    rcases lt_trichotomy (v e) 0 with hlt | heq | hgt
    · simp [hlt.ne, hlt.le, hlt.not_ge, hleft hlt]
    · simp [heq]
    · simp [hgt.ne', hgt.le, hgt.not_ge, hright hgt]

end AVTree

variable {ν α : Type*} {cmp : α → α → Int}

/-- After every sequence of insertions and removals, `av_tree_find` finds the keys that are in the
tree and puts the nearest keys on both sides into `next`, and `av_tree_enumerate` visits the keys of
a range, or all of them, once and in order. -/
theorem treeOf_run_queries (hcmp : StrictTotal cmp) (ops : List (TreeOp ν α))
    (hfresh : EachStep (treeStep cmp) Fresh .nil ops) :
    let keys := ops.foldl keysAfter ∅
    let t := (run (treeStep cmp) .nil ops).erase
    (∀ key, ((avTreeFind cmp key t ⟨none, none⟩).1 = some key ↔ key ∈ keys) ∧
      AVTree.Nearest (fun x => x ∈ keys ∧ cmp x key < 0) (fun x e => cmp x e < 0)
        (avTreeFind cmp key t ⟨none, none⟩).2.next0 ∧
      AVTree.Nearest (fun x => x ∈ keys ∧ cmp key x < 0) (fun x e => cmp e x < 0)
        (avTreeFind cmp key t ⟨none, none⟩).2.next1) ∧
    (∀ v : α → Int, (∀ a b, cmp a b < 0 → v a ≤ v b) →
      (avTreeEnumerate (some v) t).Pairwise (fun a b => cmp a b < 0) ∧
        ∀ x, x ∈ avTreeEnumerate (some v) t ↔ x ∈ keys ∧ v x = 0) ∧
    (avTreeEnumerate none t).Pairwise (fun a b => cmp a b < 0) ∧
      ∀ x, x ∈ avTreeEnumerate none t ↔ x ∈ keys := by
  intro keys t
  have hempty : TreeOf cmp ∅ (.nil : AVTree (Cell ν α)) :=
    ⟨List.Pairwise.nil, fun x => iff_of_false List.not_mem_nil (Set.notMem_empty x), trivial,
      List.nodup_nil⟩
  have h := hempty.run hcmp hfresh
  refine ⟨fun key => ?_, fun v hv => ?_, ?_, fun x => ?_⟩
  · obtain ⟨hfound, hnext0, hnext1⟩ := @avTreeFind_eq _ _ _ key hcmp h.sorted ⟨none, none⟩
    refine ⟨hfound.trans (h.mem_iff key), ?_, ?_⟩
    · have hbelow : (fun x => x ∈ keys ∧ cmp x key < 0) =
          (· ∈ t.elems.filter fun x => 0 < cmp key x) := by
        funext x
        rw [List.mem_filter, decide_eq_true_iff, h.mem_iff, hcmp.neg_iff]
      rw [hnext0, Option.or_none, hbelow]
      exact nearest_getLast? (h.sorted.filter _)
    · have habove : (fun x => x ∈ keys ∧ cmp key x < 0) =
          (· ∈ t.elems.filter fun x => cmp key x < 0) := by
        funext x
        rw [List.mem_filter, decide_eq_true_iff, h.mem_iff]
      rw [hnext1, Option.or_none, habove]
      exact nearest_head? (h.sorted.filter _)
  · rw [avTreeEnumerate_some h.sorted hv]
    refine ⟨h.sorted.filter _, fun x => ?_⟩
    rw [List.mem_filter, decide_eq_true_iff, h.mem_iff]
  · rw [avTreeEnumerate_none]
    exact h.sorted
  · rw [avTreeEnumerate_none]
    exact h.mem_iff x

theorem treeOf_run_queries_three :
    (avTreeEnumerate none (run (treeStep fun a b : Int => a - b) .nil
      [.insert 1 10, .insert 2 20, .insert 3 (30 : Nat), .remove 2]).erase).Pairwise
        fun a b => a - b < 0 := by
  refine (treeOf_run_queries strictTotal_sub _ ?_).2.2.1
  simp only [eachStep_cons, eachStep_nil, Fresh, TreeOp.next]
  decide

end FFmpeg.Libavutil
