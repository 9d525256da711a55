import Mathlib.Tactic

/-!
# Merging lists of channel layouts

`libavfilter/formats.c`: `ff_merge_channel_layouts` makes one list of two, and everything that
refers to one of them refers to the new list afterwards.  A list knows the pointers to itself.
Memory can always be had; a function has no result when it follows a pointer to nothing or
writes behind an array.
-/

namespace FFmpeg.Libavfilter.Formats

/-- `av_popcount_c`. -/
def avPopcountC (x : UInt32) : UInt32 :=
  let x := x - ((x >>> 1) &&& (0x55555555 : UInt32))
  let x := (x &&& (0x33333333 : UInt32)) + ((x >>> 2) &&& (0x33333333 : UInt32))
  let x := (x + (x >>> 4)) &&& (0x0F0F0F0F : UInt32)
  let x := x + (x >>> 8)
  (x + (x >>> 16)) &&& (0x3F : UInt32)

/-- `av_popcount64_c`. -/
def avPopcount64C (x : UInt64) : UInt32 :=
  avPopcountC x.toUInt32 + avPopcountC (x >>> 32).toUInt32

/-- `av_get_channel_layout_nb_channels`. -/
def avGetChannelLayoutNbChannels (channelLayout : UInt64) : UInt32 := avPopcount64C channelLayout

/-- `FF_COUNT2LAYOUT`. -/
def ffCount2Layout (c : UInt32) : UInt64 := 0x8000000000000000 ||| c.toUInt64

/-- `FF_LAYOUT2COUNT`. -/
def ffLayout2Count (l : UInt64) : UInt64 :=
  if l &&& 0x8000000000000000 ≠ 0 then l &&& 0x7FFFFFFF else 0

/-- `KNOWN`. -/
def known (l : UInt64) : Bool := ffLayout2Count l = 0

/-- `AVFilterChannelLayouts`; `refs` holds `refcount` addresses of pointers to the list. -/
structure AVFilterChannelLayouts where
  channelLayouts : List UInt64
  allLayouts : Nat
  allCounts : Nat
  refs : List Nat
  deriving DecidableEq, Repr

/-- The lists at their addresses, and what the pointers to lists hold. -/
structure Memory where
  lists : List (Option AVFilterChannelLayouts)
  pointers : List (Option Nat)
  deriving DecidableEq, Repr

/-- The list at an address. -/
def Memory.list (m : Memory) (a : Nat) : Option AVFilterChannelLayouts := m.lists[a]?.join

/-- `MERGE_REF`: all references of `a` go to `ret`, and `a` is freed. -/
def mergeRef (m : Memory) (ret a : Nat) : Option Memory := do
  let r ← m.list ret
  let l ← m.list a
  return {
    lists := (m.lists.set ret (some { r with refs := r.refs ++ l.refs })).set a none
    pointers := l.refs.foldl (fun pointers ref => pointers.set ref (some ret)) m.pointers }

/-- `ret->channel_layouts[ret_nb++] = l`, in an array of `ret_max`. -/
def put (retMax : Nat) (ret : List UInt64) (l : UInt64) : Option (List UInt64) :=
  if ret.length < retMax then some (ret ++ [l]) else none

/-- The loop over `j` of "a[known] intersect b[known]", with `x` at `i`; both arrays change. -/
def intersectOne (retMax : Nat) :
    UInt64 → List UInt64 → List UInt64 → Option (UInt64 × List UInt64 × List UInt64)
  | x, [], ret => some (x, [], ret)
  | x, y :: b, ret =>
    if x = y then do
      let (x, b, ret) ← intersectOne retMax 0 b (← put retMax ret x)
      return (x, 0 :: b, ret)
    else do
      let (x, b, ret) ← intersectOne retMax x b ret
      return (x, y :: b, ret)

/-- "a[known] intersect b[known]". -/
def intersectKnown (retMax : Nat) :
    List UInt64 → List UInt64 → List UInt64 → Option (List UInt64 × List UInt64 × List UInt64)
  | [], b, ret => some ([], b, ret)
  | x :: a, b, ret =>
    if !known x then do
      let (a, b, ret) ← intersectKnown retMax a b ret
      return (x :: a, b, ret)
    else do
      let (x, b, ret) ← intersectOne retMax x b ret
      let (a, b, ret) ← intersectKnown retMax a b ret
      return (x :: a, b, ret)

/-- The loop over `j` of the later rounds: `l` is put for each entry of `b` that is `wanted`. -/
def putMatches (retMax : Nat) (wanted l : UInt64) (b : List UInt64) (ret : List UInt64) :
    Option (List UInt64) :=
  b.foldlM (fun ret y => if y = wanted then put retMax ret l else some ret) ret

/-- "a[known] intersect b[generic]", and the other way round in the second round. -/
def intersectCounts (retMax : Nat) (a b ret : List UInt64) : Option (List UInt64) :=
  a.foldlM (fun ret fmt =>
    if fmt = 0 ∨ !known fmt then some ret
    else putMatches retMax (ffCount2Layout (avGetChannelLayoutNbChannels fmt)) fmt b ret) ret

/-- "a[generic] intersect b[generic]". -/
def intersectGeneric (retMax : Nat) (a b ret : List UInt64) : Option (List UInt64) :=
  a.foldlM (fun ret x => if known x then some ret else putMatches retMax x x b ret) ret

/-- The merge of two lists one of which accepts more than what it holds, the more generic one
at `a`. -/
def mergeAll (m : Memory) (a b aAll bAll : Nat) : Option (Memory × Option Nat) := do
  let lb ← m.list b
  if aAll = 1 ∧ bAll = 0 then
    -- keep only known layouts in b
    let kept := lb.channelLayouts.filter known
    if kept = [] then return (m, none)
    else
      let m := { m with lists := m.lists.set b (some { lb with channelLayouts := kept }) }
      return (← mergeRef m b a, some b)
  else return (← mergeRef m b a, some b)

/-- What `ff_merge_channel_layouts` does with the entries that it has found. -/
def finishMerge (m : Memory) (a b : Nat) (ret : List UInt64) : Option (Memory × Option Nat) :=
  if ret = [] then some (m, none)
  else do
    let r := m.lists.length
    let made : AVFilterChannelLayouts := ⟨ret, 0, 0, []⟩
    let m ← mergeRef { m with lists := m.lists ++ [some made] } r a
    let m ← mergeRef m r b
    return (m, some r)

/-- `ff_merge_channel_layouts`. -/
def ffMergeChannelLayouts (m : Memory) (a b : Nat) : Option (Memory × Option Nat) := do
  let la ← m.list a
  let lb ← m.list b
  let aAll := la.allLayouts + la.allCounts
  let bAll := lb.allLayouts + lb.allCounts
  if a = b then return (m, some a)
  else if aAll < bAll then mergeAll m b a bAll aAll
  else if aAll ≠ 0 then mergeAll m a b aAll bAll
  else
    let retMax := la.channelLayouts.length + lb.channelLayouts.length
    let (fa, fb, ret) ← intersectKnown retMax la.channelLayouts lb.channelLayouts []
    let ret ← intersectCounts retMax fa fb ret
    let ret ← intersectCounts retMax fb fa ret
    let ret ← intersectGeneric retMax fa fb ret
    let lists := m.lists.set a (some { la with channelLayouts := fa })
    let lists := lists.set b (some { lb with channelLayouts := fb })
    finishMerge { m with lists } a b ret

end FFmpeg.Libavfilter.Formats
