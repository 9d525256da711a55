import FFmpeg.Common.Bytes
import FFmpeg.Common.File
import FFmpeg.Libavutil.Error

/-!
# The concat protocol

`libavformat/concat.c`.  A node is opened on a fixed content.  How much a read of a node gives,
and whether it fails, is not up to the node's position alone, so every read of a node has an
answer from outside.  A loop that runs out of its rounds, or an index outside of the nodes, has
no result.
-/

namespace FFmpeg.Libavformat.Concat

open Common Libavutil

/-- What a seek may be relative to. -/
inductive Whence
  | seekSet
  | seekCur
  | seekEnd
  | avseekSize
  | other
  deriving DecidableEq, Repr

/-! ## Nodes -/

/-- The `URLContext` of a node: its content, and its position in it. -/
structure URLContext where
  content : Bytes
  pos : Nat
  deriving DecidableEq, Repr

/-- What a read of a node does: it gives at most `n + 1` bytes, if it is not at the end, or
it fails with another error than the end of the file. -/
inductive Answer
  | give (n : Nat)
  | fail (e : { e : Int // e < 0 ∧ e ≠ AVERROR.eof.toInt })

/-- `ffurl_read` of a node: the return value, the bytes and the node after it. -/
def ffurlRead (uc : URLContext) (size : Nat) : Answer → Int × Bytes × URLContext
  | .fail e => (e.val, [], uc)
  | .give n =>
    if uc.content.length ≤ uc.pos then (AVERROR.eof.toInt, [], uc)
    else
      let bytes := slice uc.content uc.pos (min size (n + 1))
      (bytes.length, bytes, { uc with pos := uc.pos + bytes.length })

/-- `ffurl_seek` of a node; a position before the start is not valid. -/
def ffurlSeek (uc : URLContext) (pos : Int) (whence : Whence) : Int × URLContext :=
  let target : Int :=
    match whence with
    | .seekCur => uc.pos + pos
    | .seekEnd => uc.content.length + pos
    | _ => pos
  if target < 0 then (AVERROR.einval.toInt, uc) else (target, { uc with pos := target.toNat })

/-- `struct concat_nodes`. -/
structure ConcatNodes where
  uc : URLContext
  size : Int
  deriving DecidableEq, Repr

/-- `struct concat_data`; the number of nodes is that of the list. -/
structure ConcatData where
  nodes : List ConcatNodes
  current : Nat
  totalSize : Int
  deriving DecidableEq, Repr

/-- The end of `concat_open`, when all nodes are open. -/
def concatOpen (contents : List Bytes) : ConcatData where
  nodes := contents.map fun content => ⟨⟨content, 0⟩, content.length⟩
  current := 0
  totalSize := (contents.map fun content => (content.length : Int)).sum

/-! ## Reading -/

/-- How the loop of `concat_read` is left: all bytes are there, at a `break`, or at the `return`
inside of it. -/
inductive Leave
  | full
  | broken
  | returned
  deriving DecidableEq, Repr

/-- The variables of `concat_read` behind its loop. -/
structure ReadExit where
  leave : Leave
  nodes : List ConcatNodes
  i : Nat
  got : Bytes
  result : Int
  deriving DecidableEq, Repr

/-- The loop of `concat_read`, with `size` bytes to go.  `result` is the variable as it stands. -/
def readLoop : Nat → List ConcatNodes → Nat → Nat → (Nat → Answer) → Bytes → Int → Option ReadExit
  | 0, _, _, _, _, _, _ => none
  | rounds + 1, nodes, i, size, answers, got, result =>
    if size = 0 then some ⟨.full, nodes, i, got, result⟩
    else
      match nodes[i]? with
      | none => none
      | some node =>
        match ffurlRead node.uc size (answers 0) with
        | (result, bytes, uc) =>
          let nodes := nodes.set i { node with uc := uc }
          if result = AVERROR.eof.toInt then
            if i + 1 = nodes.length then some ⟨.broken, nodes, i, got, result⟩
            else
              match nodes[i + 1]? with
              | none => none
              | some next =>
                match ffurlSeek next.uc 0 .seekSet with
                | (ret, uc) =>
                  let nodes := nodes.set (i + 1) { next with uc := uc }
                  if ret < 0 then some ⟨.broken, nodes, i + 1, got, result⟩
                  else readLoop rounds nodes (i + 1) size (fun k => answers (k + 1)) got 0
          else if result < 0 then some ⟨.returned, nodes, i, got, result⟩
          else
            readLoop rounds nodes i (size - bytes.length) (fun k => answers (k + 1)) (got ++ bytes)
              result

/-- `concat_read`: the return value, the bytes and the data after it.  `indeterminate` is what
the variable `result` holds before it is set. -/
def concatRead (data : ConcatData) (size : Nat) (answers : Nat → Answer) (indeterminate : Int) :
    Option (Int × Bytes × ConcatData) :=
  match readLoop (size + data.nodes.length + 1) data.nodes data.current size answers []
      indeterminate with
  | none => none
  | some e =>
    let ret : Int := if e.got.length ≠ 0 then e.got.length else e.result
    match e.leave with
    | .returned => some (ret, e.got, { data with nodes := e.nodes })
    | _ => some (ret, e.got, { data with nodes := e.nodes, current := e.i })

/-! ## Seeking -/

/-- The loop of `concat_seek` from the last node on: the node and the position in it. -/
def seekEndLoop (nodes : List ConcatNodes) : Nat → Int → Option (Nat × Int)
  | 0, pos => some (0, pos)
  | i + 1, pos =>
    match nodes[i + 1]? with
    | none => none
    | some node =>
      if pos < -node.size then seekEndLoop nodes i (pos + node.size) else some (i + 1, pos)

/-- The loop of `concat_seek` from the first node on; `rest` are the nodes from `i` on. -/
def seekSetLoop : List ConcatNodes → Nat → Int → Option (Nat × Int)
  | [], _, _ => none
  | node :: rest, i, pos =>
    if rest ≠ [] ∧ pos ≥ node.size then seekSetLoop rest (i + 1) (pos - node.size)
    else some (i, pos)

/-- The sizes of the first `i` nodes. -/
def sizeBefore (nodes : List ConcatNodes) (i : Nat) : Int :=
  ((nodes.take i).map (·.size)).sum

/-- The node and the position in it to which `concat_seek` goes, and how it does.  The seek of
the current node by 0 does not move it. -/
def seekTarget (data : ConcatData) (pos : Int) : Whence → Option (Nat × Int × Whence)
  | .seekEnd => do
    let (i, pos) ← seekEndLoop data.nodes (data.nodes.length - 1) pos
    return (i, pos, .seekEnd)
  | .seekCur => do
    let node ← data.nodes[data.current]?
    let pos := pos + sizeBefore data.nodes data.current + (ffurlSeek node.uc 0 .seekCur).1
    let (i, pos) ← seekSetLoop data.nodes 0 pos
    return (i, pos, .seekSet)
  | _ => do
    let (i, pos) ← seekSetLoop data.nodes 0 pos
    return (i, pos, .seekSet)

/-- `concat_seek`: the return value and the data after it. -/
def concatSeek (data : ConcatData) (pos : Int) (whence : Whence) : Option (Int × ConcatData) :=
  if whence = .avseekSize then some (data.totalSize, data)
  else if whence = .other then some (AVERROR.einval.toInt, data)
  else do
    let (i, pos, whence) ← seekTarget data pos whence
    let node ← data.nodes[i]?
    let (result, uc) := ffurlSeek node.uc pos whence
    let nodes := data.nodes.set i { node with uc := uc }
    if 0 ≤ result then
      return (result + sizeBefore nodes i, { data with nodes := nodes, current := i })
    else return (result, { data with nodes := nodes })

end FFmpeg.Libavformat.Concat
