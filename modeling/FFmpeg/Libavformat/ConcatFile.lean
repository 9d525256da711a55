import FFmpeg.Common.Run
import FFmpeg.Libavformat.Concat

/-!
# The concat protocol as one file

The nodes one behind the other are a file with a position.  A read goes wrong when a node fails
after it has given bytes to a call that began at an earlier node: the node that is current stays
the earlier one, and the next read begins behind that.
-/

namespace FFmpeg.Libavformat.Concat

open Common Libavutil

/-! ## Positions -/

section Positions

variable {contents : List Bytes} {nodes : List ConcatNodes} {i j p : Nat} {node : ConcatNodes}

theorem set_self (hi : nodes[i]? = some node) :
    nodes.set i { node with uc := node.uc } = nodes := by
  obtain ⟨hlt, rfl⟩ := List.getElem?_eq_some_iff.1 hi
  exact List.set_getElem_self hlt

/-- Where node `i` begins. -/
def start (contents : List Bytes) (i : Nat) : Nat := (contents.take i).flatten.length

theorem start_succ {content : Bytes} (h : contents[i]? = some content) :
    start contents (i + 1) = start contents i + content.length := by
  obtain ⟨hi, hget⟩ := List.getElem?_eq_some_iff.1 h
  simp [start, ← List.take_concat_get' contents i hi, hget]

theorem start_length (contents : List Bytes) :
    start contents contents.length = contents.flatten.length := by
  rw [start, List.take_length]

theorem slice_flatten {content : Bytes} (h : contents[i]? = some content) {n : Nat}
    (hn : p + n ≤ content.length) :
    slice contents.flatten (start contents i + p) n = slice content p n := by
  obtain ⟨hi, hget⟩ := List.getElem?_eq_some_iff.1 h
  have hsplit : contents.flatten =
      (contents.take i).flatten ++ (content ++ (contents.drop (i + 1)).flatten) := by
    conv_lhs => rw [← List.take_append_drop i contents, List.drop_eq_getElem_cons hi, hget]
    rw [List.flatten_append, List.flatten_cons]
  rw [hsplit, start, slice, slice, ← List.drop_drop, List.drop_left, List.drop_append_of_le_length
    (by lia), List.take_append_of_le_length (by rw [List.length_drop]; lia)]

/-- The nodes have these contents, and know their sizes. -/
structure Holds (contents : List Bytes) (nodes : List ConcatNodes) : Prop where
  contents : nodes.map (·.uc.content) = contents
  size : ∀ node ∈ nodes, node.size = node.uc.content.length

theorem Holds.length (h : Holds contents nodes) : nodes.length = contents.length := by
  rw [← h.contents, List.length_map]

theorem Holds.content (h : Holds contents nodes) (hi : nodes[i]? = some node) :
    contents[i]? = some node.uc.content := by
  rw [← h.contents, List.getElem?_map, hi]
  rfl

variable {uc : URLContext}

theorem Holds.set (h : Holds contents nodes) (hi : nodes[i]? = some node)
    (huc : uc.content = node.uc.content) :
    Holds contents (nodes.set i { node with uc := uc }) := by
  obtain ⟨hlt, hget⟩ := List.getElem?_eq_some_iff.1 hi
  constructor
  · rw [List.map_set, huc, h.contents]
    refine List.ext_getElem? fun j => ?_
    rw [List.getElem?_set]
    split
    · rename_i hij
      subst hij
      rw [h.content hi, if_pos (by rw [← h.length]; exact hlt)]
    · rfl
  · intro node' hmem
    rcases List.mem_or_eq_of_mem_set hmem with hmem | rfl
    · exact h.size node' hmem
    · show node.size = uc.content.length
      rw [huc]
      exact h.size node (List.mem_of_getElem? hi)

/-- Node `i` is at position `p` of the file. -/
def At (contents : List Bytes) (nodes : List ConcatNodes) (i p : Nat) : Prop :=
  ∃ node, nodes[i]? = some node ∧ node.uc.pos ≤ node.uc.content.length ∧
    p = start contents i + node.uc.pos

theorem At.of_eq {nodes' : List ConcatNodes} (h : At contents nodes i p)
    (heq : nodes'[i]? = nodes[i]?) : At contents nodes' i p := by
  obtain ⟨node, hi, hpos, hp⟩ := h
  exact ⟨node, heq.trans hi, hpos, hp⟩

theorem at_set (hi : nodes[i]? = some node) (hpos : uc.pos ≤ uc.content.length) :
    At contents (nodes.set i { node with uc := uc }) i (start contents i + uc.pos) := by
  obtain ⟨hlt, -⟩ := List.getElem?_eq_some_iff.1 hi
  exact ⟨{ node with uc := uc }, List.getElem?_set_self hlt, hpos, rfl⟩

theorem start_le_length (h : Holds contents nodes) (hi : nodes[i]? = some node) :
    start contents i + node.uc.content.length ≤ contents.flatten.length := by
  rw [← start_succ (h.content hi), start]
  exact List.Sublist.length_le (List.Sublist.flatten (List.take_sublist _ _))

end Positions

/-! ## Reading -/

/-- A node fails after it has given bytes to a read that began at an earlier node.  `lefts` are
the bytes that are left in the node and in those behind it, `moved` says that the read has left
its first node, and `taken` that it has bytes of another. -/
inductive FailsBehind : Bool → Bool → List Nat → Nat → (Nat → Answer) → Prop
  | fail {moved : Bool} {lefts : List Nat} {size : Nat} {answers : Nat → Answer}
      {e : { e : Int // e < 0 ∧ e ≠ AVERROR.eof.toInt }} (hsize : size ≠ 0)
      (hanswer : answers 0 = .fail e) : FailsBehind moved true lefts size answers
  | take {moved taken : Bool} {left : Nat} {rest : List Nat} {size n : Nat}
      {answers : Nat → Answer} (hsize : size ≠ 0) (hanswer : answers 0 = .give n)
      (hleft : left ≠ 0)
      (hmore : FailsBehind moved (taken || moved) ((left - min size (n + 1)) :: rest)
        (size - min (min size (n + 1)) left) fun k => answers (k + 1)) :
      FailsBehind moved taken (left :: rest) size answers
  | move {moved taken : Bool} {rest : List Nat} {size n : Nat} {answers : Nat → Answer}
      (hsize : size ≠ 0) (hanswer : answers 0 = .give n)
      (hmore : FailsBehind true taken rest size fun k => answers (k + 1)) :
      FailsBehind moved taken (0 :: rest) size answers

/-- The bytes that are left in node `i`, and those of the nodes behind it, which a read gets from
their beginning. -/
def lefts (nodes : List ConcatNodes) (i : Nat) : List Nat :=
  match nodes.drop i with
  | [] => []
  | node :: rest =>
    (node.uc.content.length - node.uc.pos) :: rest.map fun node => node.uc.content.length

section Reading

variable {contents : List Bytes} {nodes : List ConcatNodes} {i q : Nat}

/-- What the loop of `concat_read` leaves behind. -/
structure Left (contents : List Bytes) (q size : Nat) (got : Bytes) (e : ReadExit) (k : Nat) :
    Prop where
  holds : Holds contents e.nodes
  got : e.got = got ++ slice contents.flatten q k
  inside : q + k ≤ contents.flatten.length
  le : k ≤ size
  here : At contents e.nodes e.i (q + k)
  full : e.leave = .full → k = size
  broken : e.leave = .broken → q + k = contents.flatten.length ∧ e.result = AVERROR.eof.toInt
  returned : e.leave = .returned → e.result < 0 ∧ e.result ≠ AVERROR.eof.toInt

theorem lefts_eq {node : ConcatNodes} (hi : nodes[i]? = some node) :
    lefts nodes i = (node.uc.content.length - node.uc.pos) ::
      (nodes.drop (i + 1)).map fun node => node.uc.content.length := by
  obtain ⟨hlt, hget⟩ := List.getElem?_eq_some_iff.1 hi
  rw [lefts, List.drop_eq_getElem_cons hlt, hget]

theorem drop_set_of_lt {nodes : List ConcatNodes} {i j : Nat} (h : i < j) (node : ConcatNodes) :
    (nodes.set i node).drop j = nodes.drop j := by
  rw [List.drop_set, if_pos h]

/-- The loop of `concat_read` goes on along the file.  `c` is the node at which the read began:
as long as no byte of another node has been taken, it is at the same position of the file. -/
theorem readLoop_left {rounds size : Nat} {answers : Nat → Answer} {got : Bytes} {result : Int}
    {c : Nat} {taken : Bool} (hnodes : Holds contents nodes) (hhere : At contents nodes i q)
    (hc : c ≤ i) (hfirst : taken = false → At contents nodes c q)
    (hrounds : size + (nodes.length - i) < rounds) :
    ∃ e k, readLoop rounds nodes i size answers got result = some e ∧ Left contents q size got e k ∧
      (e.leave = .returned → ¬FailsBehind (decide (i ≠ c)) taken (lefts nodes i) size answers →
        At contents e.nodes c (q + k)) := by
  induction rounds generalizing nodes i q size answers got result taken with
  | zero => lia
  | succ rounds ih =>
    obtain ⟨node, hi, hpos, hq⟩ := id hhere
    obtain ⟨hlt, -⟩ := List.getElem?_eq_some_iff.1 hi
    have hinside := start_le_length hnodes hi
    unfold readLoop
    by_cases hsize : size = 0
    · rw [if_pos hsize]
      refine ⟨_, 0, rfl, ?_, fun hleave => by cases hleave⟩
      exact
        { holds := hnodes
          got := by simp
          inside := by lia
          le := Nat.zero_le _
          here := hhere
          full := fun _ => hsize.symm
          broken := fun hleave => by cases hleave
          returned := fun hleave => by cases hleave }
    rw [if_neg hsize, hi]
    cases hanswer : answers 0 with
    | fail err =>
      -- an error ends the read, and nothing has moved
      have hkeep := set_self hi
      have hne : ¬err.val = AVERROR.eof.toInt := err.property.2
      simp only [ffurlRead, hkeep]
      rw [if_neg hne, if_pos err.property.1]
      refine ⟨_, 0, rfl, ?_, fun _ hbehind => ?_⟩
      · exact
          { holds := hnodes
            got := by simp
            inside := by lia
            le := Nat.zero_le _
            here := hhere
            full := fun hleave => by cases hleave
            broken := fun hleave => by cases hleave
            returned := fun _ => err.property }
      · cases taken with
        | false => exact hfirst rfl
        | true => exact absurd (.fail hsize hanswer) hbehind
    | give n =>
      by_cases hend : node.uc.content.length ≤ node.uc.pos
      · -- the node is at its end
        have hkeep := set_self hi
        simp only [ffurlRead, if_pos hend, hkeep, if_true]
        by_cases hlast : i + 1 = nodes.length
        · rw [if_pos hlast]
          refine ⟨_, 0, rfl, ?_, fun hleave => by cases hleave⟩
          have htotal : start contents (i + 1) = contents.flatten.length := by
            rw [hlast, hnodes.length, start_length]
          rw [start_succ (hnodes.content hi)] at htotal
          exact
            { holds := hnodes
              got := by simp
              inside := by lia
              le := Nat.zero_le _
              here := hhere
              full := fun hleave => by cases hleave
              broken := fun _ => ⟨by lia, rfl⟩
              returned := fun hleave => by cases hleave }
        · obtain ⟨next, hnext⟩ : ∃ next, nodes[i + 1]? = some next :=
            ⟨nodes[i + 1], List.getElem?_eq_getElem (by lia)⟩
          obtain ⟨hltn, hgetn⟩ := List.getElem?_eq_some_iff.1 hnext
          have hseek : ffurlSeek next.uc 0 .seekSet = (0, { next.uc with pos := 0 }) := rfl
          rw [if_neg hlast, hnext]
          simp only [hseek]
          rw [if_neg (lt_irrefl (0 : Int))]
          obtain ⟨nodes', hnodes'⟩ : ∃ nodes', nodes' =
            nodes.set (i + 1) { next with uc := { next.uc with pos := 0 } } := ⟨_, rfl⟩
          have hholds' : Holds contents nodes' := hnodes' ▸ hnodes.set hnext rfl
          have hstart : start contents (i + 1) + 0 = q := by
            rw [start_succ (hnodes.content hi)]
            lia
          have hhere' : At contents nodes' (i + 1) q := by
            rw [← hstart, hnodes']
            exact at_set hnext (Nat.zero_le _)
          have hfirst' (htaken : taken = false) : At contents nodes' c q := by
            refine (hfirst htaken).of_eq ?_
            rw [hnodes', List.getElem?_set_ne (by lia)]
          have hlength' : nodes'.length = nodes.length := by rw [hnodes', List.length_set]
          obtain ⟨e, k, hrun, hleft, hreturned⟩ := @ih nodes' (i + 1) q size
            (fun k => answers (k + 1)) got 0 taken hholds' hhere' (by lia) hfirst' (by lia)
          rw [← hnodes']
          refine ⟨e, k, hrun, hleft, fun hleave hbehind => hreturned hleave fun hmore => ?_⟩
          refine hbehind ?_
          have hlefts : lefts nodes i = 0 :: lefts nodes' (i + 1) := by
            have hnext' : nodes'[i + 1]? = some { next with uc := { next.uc with pos := 0 } } := by
              rw [hnodes']
              exact List.getElem?_set_self (by lia)
            rw [lefts_eq hi, lefts_eq hnext', List.drop_eq_getElem_cons hltn, hgetn, List.map_cons,
              hnodes', drop_set_of_lt (by lia), Nat.sub_eq_zero_of_le hend]
            rfl
          rw [hlefts]
          have hmoved : decide (i + 1 ≠ c) = true := by
            simp only [decide_eq_true_eq]
            lia
          rw [hmoved] at hmore
          exact .move hsize hanswer hmore
      · -- the node gives bytes
        obtain ⟨bytes, hbytes⟩ : ∃ bytes, bytes =
          slice node.uc.content node.uc.pos (min size (n + 1)) := ⟨_, rfl⟩
        have hlength : bytes.length =
            min (min size (n + 1)) (node.uc.content.length - node.uc.pos) := by
          rw [hbytes, length_slice]
        have hpositive : 0 < bytes.length := by lia
        have hread : ffurlRead node.uc size (.give n) = ((bytes.length : Int), bytes,
            { node.uc with pos := node.uc.pos + bytes.length }) := by
          simp only [ffurlRead, if_neg hend, ← hbytes]
        have hnoteof : ¬(bytes.length : Int) = AVERROR.eof.toInt := by
          have : AVERROR.eof.toInt < 0 := by decide
          lia
        simp only [hread]
        rw [if_neg hnoteof, if_neg (by lia)]
        obtain ⟨nodes', hnodes'⟩ : ∃ nodes', nodes' = nodes.set i
          { node with uc := { node.uc with pos := node.uc.pos + bytes.length } } := ⟨_, rfl⟩
        have hholds' : Holds contents nodes' := hnodes' ▸ hnodes.set hi rfl
        have hwithin : node.uc.pos + bytes.length ≤ node.uc.content.length := by lia
        have hhere' : At contents nodes' i (q + bytes.length) := by
          rw [hq, Nat.add_assoc, hnodes']
          exact at_set hi hwithin
        have hfirst' (htaken : (taken || decide (i ≠ c)) = false) :
            At contents nodes' c (q + bytes.length) := by
          have heq : i = c := by simpa using (Bool.or_eq_false_iff.1 htaken).2
          rw [← heq]
          exact hhere'
        have hlength' : nodes'.length = nodes.length := by rw [hnodes', List.length_set]
        obtain ⟨e, k, hrun, hleft, hreturned⟩ := @ih nodes' i (q + bytes.length)
          (size - bytes.length) (fun k => answers (k + 1)) (got ++ bytes) bytes.length (taken || decide (i ≠ c))
          hholds' hhere' hc hfirst' (by lia)
        have hslice : bytes = slice contents.flatten q bytes.length := by
          rw [hq, slice_flatten (hnodes.content hi) hwithin, hbytes, slice_length]
        rw [← hnodes']
        refine ⟨e, bytes.length + k, hrun, ?_, fun hleave hbehind => ?_⟩
        · have hle := hleft.le
          have hinside' := hleft.inside
          exact
            { holds := hleft.holds
              got := by rw [hleft.got, slice_add, ← hslice, List.append_assoc]
              inside := by lia
              le := by lia
              here := by rw [← Nat.add_assoc]; exact hleft.here
              full := fun hfull => by have := hleft.full hfull; lia
              broken := fun hbroken => by
                rw [← Nat.add_assoc]
                exact hleft.broken hbroken
              returned := hleft.returned }
        · rw [← Nat.add_assoc]
          refine hreturned hleave fun hmore => hbehind ?_
          have hi' : nodes'[i]? = some
              { node with uc := { node.uc with pos := node.uc.pos + bytes.length } } := by
            rw [hnodes']
            exact List.getElem?_set_self hlt
          rw [lefts_eq hi]
          refine .take hsize hanswer (by lia) ?_
          have hlefts : lefts nodes' i =
              (node.uc.content.length - node.uc.pos - min size (n + 1)) ::
                (nodes.drop (i + 1)).map fun node => node.uc.content.length := by
            rw [lefts_eq hi', hnodes', drop_set_of_lt (Nat.lt_succ_self i)]
            congr 1
            show node.uc.content.length - (node.uc.pos + bytes.length) = _
            lia
          rw [← hlefts, ← hlength]
          exact hmore

end Reading

/-! ## Seeking -/

section Seeking

variable {contents : List Bytes} {nodes : List ConcatNodes} {i p : Nat}

theorem sizeBefore_eq (h : Holds contents nodes) (hi : i ≤ nodes.length) :
    sizeBefore nodes i = start contents i := by
  induction i with
  | zero => rfl
  | succ i ih =>
    obtain ⟨node, hnode⟩ : ∃ node, nodes[i]? = some node :=
      ⟨nodes[i], List.getElem?_eq_getElem hi⟩
    obtain ⟨hlt, rfl⟩ := List.getElem?_eq_some_iff.1 hnode
    have hstep : sizeBefore nodes (i + 1) = sizeBefore nodes i + nodes[i].size := by
      simp only [sizeBefore, List.take_add_one, hnode, Option.toList_some, List.map_append,
        List.sum_append, List.map_cons, List.map_nil, List.sum_singleton]
    rw [hstep, ih (by lia), start_succ (h.content hnode), h.size _ (List.getElem_mem hlt)]
    push_cast
    rfl

variable {pos : Int}

/-- The walk from the first node on finds the node of a position. -/
theorem seekSetLoop_spec {rest : List ConcatNodes} (h : Holds contents nodes)
    (hrest : nodes.drop i = rest) (hne : rest ≠ []) (hpos : 0 ≤ pos)
    (hle : start contents i + pos ≤ contents.flatten.length) :
    ∃ (j n : Nat) (node : ConcatNodes),
      seekSetLoop rest i pos = some (j, (n : Int)) ∧ nodes[j]? = some node ∧
      n ≤ node.uc.content.length ∧ (start contents j + n : Int) = start contents i + pos := by
  induction rest generalizing i pos with
  | nil => exact absurd rfl hne
  | cons node rest ih =>
    have hi : i < nodes.length := by
      by_contra hge
      rw [List.drop_eq_nil_of_le (by lia)] at hrest
      cases hrest
    rw [List.drop_eq_getElem_cons hi] at hrest
    obtain ⟨rfl, hrest'⟩ := List.cons.inj hrest
    have hnode : nodes[i]? = some nodes[i] := List.getElem?_eq_getElem hi
    have hsize := h.size _ (List.getElem_mem hi)
    have hsucc := start_succ (h.content hnode)
    unfold seekSetLoop
    by_cases hgo : rest ≠ [] ∧ pos ≥ nodes[i].size
    · rw [if_pos hgo]
      obtain ⟨j, n, node, hrun, hj, hn, heq⟩ := ih hrest' hgo.1 (by lia)
        (show _ + (pos - nodes[i].size) ≤ _ by rw [hsucc, hsize]; push_cast; lia)
      refine ⟨j, n, node, hrun, hj, hn, ?_⟩
      rw [heq, hsucc, hsize]
      push_cast
      lia
    · rw [if_neg hgo]
      obtain ⟨n, rfl⟩ := Int.eq_ofNat_of_zero_le hpos
      refine ⟨i, n, nodes[i], rfl, hnode, ?_, rfl⟩
      by_cases hlast : rest = []
      · -- behind the last node there is nothing
        have hend : i + 1 = nodes.length := by
          have hdrop : (nodes.drop (i + 1)).length = 0 := by rw [hrest', hlast]; rfl
          rw [List.length_drop] at hdrop
          lia
        have htotal := start_length contents
        rw [← h.length, ← hend, hsucc] at htotal
        lia
      · have : ¬(n : Int) ≥ nodes[i].size := fun hge => hgo ⟨hlast, hge⟩
        lia

/-- The walk from the last node on finds the node of a position. -/
theorem seekEndLoop_spec (h : Holds contents nodes) (hi : i < nodes.length) (hpos : pos ≤ 0)
    (hle : 0 ≤ start contents (i + 1) + pos) :
    ∃ j pos' node, seekEndLoop nodes i pos = some (j, pos') ∧ nodes[j]? = some node ∧
      pos' ≤ 0 ∧ 0 ≤ node.uc.content.length + pos' ∧
      start contents (j + 1) + pos' = start contents (i + 1) + pos := by
  induction i generalizing pos with
  | zero =>
    have hnode : nodes[0]? = some nodes[0] := List.getElem?_eq_getElem hi
    have hzero : start contents 0 = 0 := rfl
    refine ⟨0, pos, nodes[0], rfl, hnode, hpos, ?_, rfl⟩
    rw [start_succ (h.content hnode), hzero] at hle
    push_cast at hle
    lia
  | succ i ih =>
    have hnode : nodes[i + 1]? = some nodes[i + 1] := List.getElem?_eq_getElem hi
    have hsize := h.size _ (List.getElem_mem hi)
    have hsucc := start_succ (h.content hnode)
    rw [hsucc] at hle ⊢
    push_cast at hle ⊢
    unfold seekEndLoop
    rw [hnode]
    dsimp only
    by_cases hgo : pos < -nodes[i + 1].size
    · rw [if_pos hgo]
      obtain ⟨j, pos', node, hrun, hj, hpos', hin, heq⟩ :=
        @ih (pos + nodes[i + 1].size) (by lia) (by lia) (by lia)
      exact ⟨j, pos', node, hrun, hj, hpos', hin, by lia⟩
    · rw [if_neg hgo]
      refine ⟨i + 1, pos, nodes[i + 1], rfl, hnode, hpos, by lia, ?_⟩
      rw [hsucc]
      push_cast
      lia

/-- Where a seek goes, from position `p` of a file of `length` bytes. -/
def target (length p : Nat) (pos : Int) : Whence → Int
  | .seekCur => p + pos
  | .seekEnd => length + pos
  | _ => pos

/-- The protocol is at position `p` of the file. -/
structure Tells (contents : List Bytes) (data : ConcatData) (p : Nat) : Prop where
  holds : Holds contents data.nodes
  here : At contents data.nodes data.current p

/-- A seek goes to its target and returns it. -/
theorem concatSeek_spec {data : ConcatData} {whence : Whence} (h : Tells contents data p)
    (hwhence : whence = .seekSet ∨ whence = .seekCur ∨ (whence = .seekEnd ∧ pos ≤ 0))
    (hlow : 0 ≤ target contents.flatten.length p pos whence)
    (hhigh : target contents.flatten.length p pos whence ≤ contents.flatten.length) :
    ∃ data', concatSeek data pos whence =
        some (target contents.flatten.length p pos whence, data') ∧
      Tells contents data' (target contents.flatten.length p pos whence).toNat := by
  obtain ⟨goal, hgoal⟩ : ∃ goal, goal = target contents.flatten.length p pos whence := ⟨_, rfl⟩
  rw [← hgoal] at hlow hhigh ⊢
  obtain ⟨node₀, hcurrent, hin₀, hp⟩ := h.here
  obtain ⟨hlt₀, -⟩ := List.getElem?_eq_some_iff.1 hcurrent
  have hne : data.nodes ≠ [] := by
    rintro hnil
    simp [hnil] at hlt₀
  have hzero : start contents 0 = 0 := rfl
  -- the node and the position in it
  have hfound : ∃ j pos' w node, seekTarget data pos whence = some (j, pos', w) ∧
      data.nodes[j]? = some node ∧ ∃ n : Nat, n ≤ node.uc.content.length ∧
        ffurlSeek node.uc pos' w = ((n : Int), { node.uc with pos := n }) ∧
        (n : Int) + start contents j = goal := by
    have hset (at₀ : Int) (hat₀ : at₀ = goal) : ∃ (j n : Nat) (node : ConcatNodes),
        seekSetLoop data.nodes 0 at₀ = some (j, (n : Int)) ∧ data.nodes[j]? = some node ∧
          n ≤ node.uc.content.length ∧ (n : Int) + start contents j = goal := by
      obtain ⟨j, n, node, hrun, hj, hn, heq⟩ := seekSetLoop_spec h.holds
        (List.drop_zero) hne (show 0 ≤ at₀ by lia) (by rw [hzero]; push_cast; lia)
      exact ⟨j, n, node, hrun, hj, hn, by rw [hzero] at heq; push_cast at heq; lia⟩
    have hseekSet (uc : URLContext) (n : Nat) :
        ffurlSeek uc (n : Int) .seekSet = ((n : Int), { uc with pos := n }) := by
      simp [ffurlSeek]
    rcases hwhence with rfl | rfl | ⟨rfl, hpos⟩
    · obtain ⟨j, n, node, hrun, hj, hn, heq⟩ := hset pos hgoal.symm
      exact ⟨j, n, .seekSet, node, by simp [seekTarget, hrun], hj, n, hn, hseekSet _ _, heq⟩
    · have hcur : (ffurlSeek node₀.uc 0 .seekCur).1 = node₀.uc.pos := by
        simp only [ffurlSeek, add_zero]
        rw [if_neg (by lia)]
      have hat : pos + sizeBefore data.nodes data.current + (ffurlSeek node₀.uc 0 .seekCur).1 =
          goal := by
        rw [hcur, sizeBefore_eq h.holds hlt₀.le, hgoal, target, hp]
        push_cast
        lia
      obtain ⟨j, n, node, hrun, hj, hn, heq⟩ := hset _ hat
      exact ⟨j, n, .seekSet, node, by simp [seekTarget, hcurrent, hrun], hj, n, hn, hseekSet _ _,
        heq⟩
    · have hlength : data.nodes.length - 1 + 1 = contents.length := by
        rw [← h.holds.length]
        lia
      obtain ⟨j, pos', node, hrun, hj, hpos', hin, heq⟩ := seekEndLoop_spec h.holds
        (show data.nodes.length - 1 < data.nodes.length by lia) hpos
        (by rw [hlength, start_length]; rw [target] at hgoal; lia)
      rw [hlength, start_length, start_succ (h.holds.content hj)] at heq
      rw [target] at hgoal
      push_cast at heq
      obtain ⟨n, hn⟩ := Int.eq_ofNat_of_zero_le hin
      refine ⟨j, pos', .seekEnd, node, by simp [seekTarget, hrun], hj, n, by lia, ?_, by lia⟩
      simp only [ffurlSeek, hn]
      rw [if_neg (by lia)]
      rfl
  obtain ⟨j, pos', w, node, htarget, hj, n, hn, hseek, heq⟩ := hfound
  obtain ⟨hlt, -⟩ := List.getElem?_eq_some_iff.1 hj
  have huc : ({ node.uc with pos := n } : URLContext).content = node.uc.content := rfl
  have hset := h.holds.set hj huc
  have hbefore : sizeBefore (data.nodes.set j { node with uc := { node.uc with pos := n } }) j =
      start contents j := sizeBefore_eq hset (by rw [List.length_set]; exact hlt.le)
  refine ⟨{ data with
    nodes := data.nodes.set j { node with uc := { node.uc with pos := n } }
    current := j }, ?_, hset, ?_⟩
  · have hnotsize : whence ≠ .avseekSize := by
      rintro rfl
      rcases hwhence with hw | hw | ⟨hw, -⟩ <;> cases hw
    have hnotother : whence ≠ .other := by
      rintro rfl
      rcases hwhence with hw | hw | ⟨hw, -⟩ <;> cases hw
    unfold concatSeek
    rw [if_neg hnotsize, if_neg hnotother, htarget]
    simp only [Option.bind_eq_bind, Option.bind_some, hj, hseek]
    rw [if_pos (Int.natCast_nonneg n), hbefore, heq]
    rfl
  · have hgoal' : goal.toNat = start contents j + n := by lia
    rw [hgoal']
    exact at_set hj hn

end Seeking

/-! ## Runs -/

/-- A call of the protocol. -/
inductive Op
  | read (size : Nat) (answers : Nat → Answer) (indeterminate : Int)
  | seek (pos : Int) (whence : Whence)

/-- The data after a call, and the position in the file that its result stands for. -/
def after (length : Nat) (s : ConcatData × Nat) : Op → ConcatData × Nat
  | .read size answers indeterminate =>
    match concatRead s.1 size answers indeterminate with
    | none => s
    | some (_, bytes, data) => (data, s.2 + bytes.length)
  | .seek pos whence =>
    match concatSeek s.1 pos whence with
    | none => s
    | some (_, data) => (data, (target length s.2 pos whence).toNat)

/-- What a call is to return at a position of the file. -/
def Behaves (content : Bytes) (s : ConcatData × Nat) : Op → Prop
  | .read size answers indeterminate =>
    match concatRead s.1 size answers indeterminate with
    | none => False
    | some (ret, bytes, _) =>
      bytes = slice content s.2 bytes.length ∧ bytes.length ≤ size ∧
        ((0 < ret ∧ ret = bytes.length) ∨ (ret < 0 ∧ bytes = [])) ∧
        (ret = AVERROR.eof.toInt → s.2 = content.length)
  | .seek pos whence =>
    match concatSeek s.1 pos whence with
    | none => False
    | some (ret, _) => ret = target content.length s.2 pos whence

/-- A seek with a valid `whence` to a position inside of the file. -/
def Valid (length : Nat) (s : ConcatData × Nat) : Op → Prop
  | .read _ _ _ => True
  | .seek pos whence =>
    (whence = .seekSet ∨ whence = .seekCur ∨ (whence = .seekEnd ∧ pos ≤ 0)) ∧
      0 ≤ target length s.2 pos whence ∧ target length s.2 pos whence ≤ length

/-- A read asks for a byte, and no node fails after the read has bytes of a node behind the
current one. -/
def Orderly (s : ConcatData × Nat) : Op → Prop
  | .read size answers _ =>
    0 < size ∧ ¬FailsBehind false false (lefts s.1.nodes s.1.current) size answers
  | .seek _ _ => True

section Runs

variable {contents : List Bytes}

theorem concatOpen_tells (h : contents ≠ []) : Tells contents (concatOpen contents) 0 := by
  obtain ⟨content, rest, rfl⟩ := List.exists_cons_of_ne_nil h
  refine ⟨⟨?_, ?_⟩, ⟨⟨⟨content, 0⟩, content.length⟩, rfl, Nat.zero_le _, rfl⟩⟩
  · simp [concatOpen, Function.comp_def]
  · intro node hnode
    obtain ⟨c, -, rfl⟩ := List.mem_map.1 hnode
    rfl

variable {answers : Nat → Answer}

/-- A read that does not go wrong. -/
theorem concatRead_spec {data : ConcatData} {p size : Nat} (h : Tells contents data p)
    (hsize : 0 < size)
    (horderly : ¬FailsBehind false false (lefts data.nodes data.current) size answers)
    (indeterminate : Int) :
    ∃ ret bytes data', concatRead data size answers indeterminate = some (ret, bytes, data') ∧
      Tells contents data' (p + bytes.length) ∧
      bytes = slice contents.flatten p bytes.length ∧ bytes.length ≤ size ∧
      ((0 < ret ∧ ret = bytes.length) ∨ (ret < 0 ∧ bytes = [])) ∧
      (ret = AVERROR.eof.toInt → p = contents.flatten.length) := by
  obtain ⟨e, k, hrun, hleft, hreturned⟩ := @readLoop_left contents data.nodes data.current p
    (size + data.nodes.length + 1) size answers [] indeterminate data.current false h.holds h.here
    le_rfl (fun _ => h.here) (by lia)
  have hsame : decide (data.current ≠ data.current) = false := by simp
  rw [hsame] at hreturned
  have hgot : e.got = slice contents.flatten p k := by simpa using hleft.got
  have hlength : e.got.length = k := by
    have := hleft.inside
    rw [hgot, length_slice]
    lia
  have hbytes : e.got = slice contents.flatten p e.got.length := by rw [hlength, hgot]
  have heofNeg : AVERROR.eof.toInt < 0 := by decide
  have hle := hleft.le
  have hret : (0 < (if e.got.length ≠ 0 then (e.got.length : Int) else e.result) ∧
      (if e.got.length ≠ 0 then (e.got.length : Int) else e.result) = e.got.length) ∨
      ((if e.got.length ≠ 0 then (e.got.length : Int) else e.result) < 0 ∧ e.got = []) := by
    by_cases hzero : e.got.length = 0
    · right
      rw [if_neg (not_not.2 hzero)]
      refine ⟨?_, List.length_eq_zero_iff.1 hzero⟩
      cases hleave : e.leave with
      | full =>
        have := hleft.full hleave
        lia
      | broken =>
        rw [(hleft.broken hleave).2]
        exact heofNeg
      | returned => exact (hleft.returned hleave).1
    · left
      rw [if_pos hzero]
      exact ⟨by lia, rfl⟩
  have heof (hret : (if e.got.length ≠ 0 then (e.got.length : Int) else e.result) =
      AVERROR.eof.toInt) : p = contents.flatten.length := by
    by_cases hzero : e.got.length = 0
    · rw [if_neg (not_not.2 hzero)] at hret
      cases hleave : e.leave with
      | full =>
        have := hleft.full hleave
        lia
      | broken =>
        have := (hleft.broken hleave).1
        lia
      | returned => exact absurd hret (hleft.returned hleave).2
    · rw [if_pos hzero] at hret
      lia
  unfold concatRead
  rw [hrun]
  dsimp only
  cases hleave : e.leave with
  | returned =>
    refine ⟨_, _, _, rfl, ⟨hleft.holds, ?_⟩, hbytes, by lia, hret, heof⟩
    rw [hlength]
    exact hreturned hleave horderly
  | full =>
    refine ⟨_, _, _, rfl, ⟨hleft.holds, ?_⟩, hbytes, by lia, hret, heof⟩
    rw [hlength]
    exact hleft.here
  | broken =>
    refine ⟨_, _, _, rfl, ⟨hleft.holds, ?_⟩, hbytes, by lia, hret, heof⟩
    rw [hlength]
    exact hleft.here

theorem behaves_of_orderly {s : ConcatData × Nat} (h : Tells contents s.1 s.2) (op : Op)
    (hvalid : Valid contents.flatten.length s op) (horderly : Orderly s op) :
    Behaves contents.flatten s op ∧
      Tells contents (after contents.flatten.length s op).1
        (after contents.flatten.length s op).2 := by
  cases op with
  | read size answers indeterminate =>
    obtain ⟨ret, bytes, data', hrun, htells, hbytes, hle, hret, heof⟩ :=
      concatRead_spec h horderly.1 horderly.2 indeterminate
    simp only [Behaves, after, hrun]
    exact ⟨⟨hbytes, hle, hret, heof⟩, htells⟩
  | seek pos whence =>
    obtain ⟨data', hrun, htells⟩ := concatSeek_spec h hvalid.1 hvalid.2.1 hvalid.2.2
    simp only [Behaves, after, hrun]
    exact ⟨trivial, htells⟩

/-- In a run in which no node fails behind the current one, the nodes are one file. -/
theorem eachStep_behaves (h : contents ≠ []) {ops : List Op}
    (hvalid : EachStep (after contents.flatten.length) (Valid contents.flatten.length)
      (concatOpen contents, 0) ops)
    (horderly : EachStep (after contents.flatten.length) Orderly (concatOpen contents, 0) ops) :
    EachStep (after contents.flatten.length) (Behaves contents.flatten)
      (concatOpen contents, 0) ops := by
  have hboth : EachStep (after contents.flatten.length)
      (fun s op => Valid contents.flatten.length s op ∧ Orderly s op)
      (concatOpen contents, 0) ops :=
    hvalid.map₂ (fun _ _ hv ho => ⟨hv, ho⟩) horderly
  have hinv := hboth.invariant (I := fun s => Tells contents s.1 s.2)
    (fun s op hs hop => (behaves_of_orderly hs op hop.1 hop.2).2) (concatOpen_tells h)
  exact hboth.map₂ (fun s op hop hs => (behaves_of_orderly hs op hop.1 hop.2).1) hinv.2

/-- The answers of a node that gives all it is asked for. -/
def giveAll : Nat → Answer := fun _ => .give 99

/-- The answers of a node that fails the fourth time it is read. -/
def failFourth : Nat → Answer := fun k => if k = 3 then .fail ⟨-5, by decide⟩ else .give 0

theorem not_failsBehind {moved taken : Bool} {l : List Nat} {size : Nat}
    (h : ∀ k, ∃ n, answers k = .give n) : ¬FailsBehind moved taken l size answers := by
  intro hfails
  induction hfails with
  | fail _ hanswer =>
    obtain ⟨n, hn⟩ := h 0
    rw [hn] at hanswer
    cases hanswer
  | take _ _ _ _ ih => exact ih fun k => h (k + 1)
  | move _ _ _ ih => exact ih fun k => h (k + 1)

theorem eachStep_behaves_twoNodes :
    EachStep (after 3) (Behaves [1, 2, 3]) (concatOpen [[1], [2, 3]], 0)
      [.read 2 giveAll 0, .seek (-1) .seekEnd] :=
  @eachStep_behaves [[1], [2, 3]] (by decide) [.read 2 giveAll 0, .seek (-1) .seekEnd]
    ⟨trivial, ⟨.inr (.inr ⟨rfl, by decide⟩), by decide, by decide⟩, trivial⟩
    ⟨⟨by decide, not_failsBehind fun _ => ⟨99, rfl⟩⟩, trivial, trivial⟩

/-- After the error the read begins behind the first node again. -/
theorem not_eachStep_behaves_failFourth :
    EachStep (after 3) (Valid 3) (concatOpen [[1], [2, 3]], 0)
        [.read 3 failFourth 0, .read 1 giveAll 0] ∧
      ¬EachStep (after 3) (Behaves [1, 2, 3]) (concatOpen [[1], [2, 3]], 0)
        [.read 3 failFourth 0, .read 1 giveAll 0] := by
  refine ⟨⟨trivial, trivial, trivial⟩, ?_⟩
  rintro ⟨-, hsecond, -⟩
  have hfirst : concatRead (concatOpen [[1], [2, 3]]) 3 failFourth 0 =
      some (2, [1, 2], ⟨[⟨⟨[1], 1⟩, 1⟩, ⟨⟨[2, 3], 1⟩, 2⟩], 0, 3⟩) := rfl
  have hagain : concatRead ⟨[⟨⟨[1], 1⟩, 1⟩, ⟨⟨[2, 3], 1⟩, 2⟩], 0, 3⟩ 1 giveAll 0 =
      some (1, [2], ⟨[⟨⟨[1], 1⟩, 1⟩, ⟨⟨[2, 3], 1⟩, 2⟩], 1, 3⟩) := rfl
  simp only [after, hfirst, Behaves, hagain] at hsecond
  exact absurd hsecond.1 (by decide)

end Runs

end FFmpeg.Libavformat.Concat
