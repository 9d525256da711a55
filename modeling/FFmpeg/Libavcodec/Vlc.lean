import FFmpeg.Common.Bits
import FFmpeg.Libavutil.Error
import Mathlib.Data.List.Sort

/-!
# Tables for variable length codes

`ff_init_vlc_sparse` and `build_table` from `libavcodec/bitstream.c`.  All tables of a code lie in
one array.  A pointer into it is an index, and `table_allocated` is the length of the array.  What
`av_malloc_array` and `av_realloc_f` give is a parameter, and so is the order in which `AV_QSORT`,
which is not stable, leaves codes that compare equal.
-/

namespace FFmpeg.Libavcodec.Vlc

open Common Libavutil

/-- `table[j][0]` and `table[j][1]`. -/
structure VlcElem where
  sym : Int
  bits : Int
  deriving DecidableEq, Repr

structure VLC where
  bits : Nat
  table : List VlcElem
  tableSize : Nat
  deriving DecidableEq, Repr

/-- A code as `GET_DATA` reads it; in `buf` the first bit to be read is the most significant one
of `code`. -/
structure VLCcode where
  bits : Nat
  symbol : BitVec 16
  code : BitVec 32
  deriving DecidableEq, Repr

/-- The flags of `ff_init_vlc_sparse`. -/
structure InitFlags where
  le : Bool
  useNewStatic : Bool
  deriving DecidableEq, Repr

/-- `AVERROR_PATCHWELCOME`. -/
def averrorPatchwelcome : Int := -0x45574150

/-- A byte of the table `ff_reverse`. -/
def ffReverse (b : BitVec 8) : BitVec 8 := b.reverse

/-- `bitswap_32`. -/
def bitswap32 (x : BitVec 32) : BitVec 32 :=
  (ffReverse (x.setWidth 8)).setWidth 32 <<< 24 |||
    (ffReverse ((x >>> 8).setWidth 8)).setWidth 32 <<< 16 |||
    (ffReverse ((x >>> 16).setWidth 8)).setWidth 32 <<< 8 |||
    (ffReverse ((x >>> 24).setWidth 8)).setWidth 32

/-- The conversion of `x` to `int16_t`. -/
def int16 (x : Int) : Int := (BitVec.ofInt 16 x).toInt

/-- `alloc_table`: the index or an error.  Without room for a static table the program is
aborted. -/
def allocTable (realloc : Nat → Bool) (vlc : VLC) (size : Nat) (useStatic : Bool) :
    Option (Int × VLC) :=
  let index := vlc.tableSize
  let tableSize := index + size
  if vlc.table.length < tableSize then
    if useStatic then none
    else
      let tableAllocated := vlc.table.length + 2 ^ vlc.bits
      if realloc tableAllocated then
        let table := vlc.table ++ List.replicate (2 ^ vlc.bits) ⟨0, 0⟩
        some (index, { vlc with table := table, tableSize := tableSize })
      else some (AVERROR.enomem.toInt, { vlc with table := [], tableSize := 0 })
  else some (index, { vlc with tableSize := tableSize })

/-- `compare_vlcspec`. -/
def compareVlcspec (a b : VLCcode) : Int :=
  (a.code >>> 1).toNat - (b.code >>> 1).toNat

/-- The first slot of a code of at most `table_nb_bits` bits. -/
def firstSlot (le : Bool) (tableNbBits : Nat) (c : VLCcode) : Nat :=
  if le then (bitswap32 c.code).toNat else (c.code >>> (32 - tableNbBits)).toNat

/-- The step from one slot of such a code to the next. -/
def slotInc (le : Bool) (c : VLCcode) : Nat := if le then 2 ^ c.bits else 1

/-- The loop over `k` that fills `nb` slots from `j` on with `symbol` and `n`.  It stops at a slot
that is filled with something else. -/
def fillSlots (tableIndex inc : Nat) (n symbol : Int) :
    Nat → Nat → List VlcElem → Option (List VlcElem)
  | 0, _, table => some table
  | nb + 1, j, table =>
    let e := table.getD (tableIndex + j) ⟨0, 0⟩
    if (e.bits ≠ 0 ∨ e.sym ≠ 0) ∧ (e.bits ≠ n ∨ e.sym ≠ symbol) then none
    else
      fillSlots tableIndex inc n symbol nb (j + inc)
        (table.set (tableIndex + j) ⟨int16 symbol, int16 n⟩)

/-- The slot that leads to the subtable of a longer code. -/
def subtableSlot (le : Bool) (tableNbBits : Nat) (c : VLCcode) : Nat :=
  let codePrefix := c.code >>> (32 - tableNbBits)
  if le then (bitswap32 codePrefix >>> (32 - tableNbBits)).toNat else codePrefix.toNat

/-- A code without its first `table_nb_bits` bits. -/
def shorten (tableNbBits : Nat) (c : VLCcode) : VLCcode :=
  { c with bits := c.bits - tableNbBits, code := c.code <<< tableNbBits }

/-- Does the code `d` go to the subtable of `c`, too? -/
def sameSubtable (tableNbBits : Nat) (c d : VLCcode) : Bool :=
  tableNbBits < d.bits ∧ d.code >>> (32 - tableNbBits) = c.code >>> (32 - tableNbBits)

/-- `subtable_bits` of the shortened codes of a subtable. -/
def subtableBits (tableNbBits : Nat) (group : List VLCcode) : Nat :=
  min (group.foldl (fun n c => max n c.bits) 0) tableNbBits

/-- The loop of `build_table` over the codes; `build` is the call for a subtable. -/
def buildLoop (build : VLC → Nat → List VLCcode → Option (Int × VLC)) (le : Bool)
    (tableNbBits tableIndex : Nat) : List VLCcode → VLC → Option (Int × VLC)
  | [], vlc => some (tableIndex, vlc)
  | c :: codes, vlc =>
    if c.bits ≤ tableNbBits then
      match fillSlots tableIndex (slotInc le c) c.bits c.symbol.toNat (2 ^ (tableNbBits - c.bits))
          (firstSlot le tableNbBits c) vlc.table with
      | none => some (AVERROR.invalidData.toInt, vlc)
      | some table =>
        buildLoop build le tableNbBits tableIndex codes { vlc with table := table }
    else
      let same := codes.takeWhile (sameSubtable tableNbBits c)
      let group := (c :: same).map (shorten tableNbBits)
      let n := subtableBits tableNbBits group
      let j := subtableSlot le tableNbBits c
      let e := vlc.table.getD (tableIndex + j) ⟨0, 0⟩
      let vlc := { vlc with table := vlc.table.set (tableIndex + j) ⟨e.sym, int16 (-n)⟩ }
      match build vlc n group with
      | none => none
      | some (index, vlc) =>
        if index < 0 then some (index, vlc)
        else
          let e := vlc.table.getD (tableIndex + j) ⟨0, 0⟩
          let vlc := { vlc with table := vlc.table.set (tableIndex + j) ⟨int16 index, e.bits⟩ }
          if int16 index ≠ index then some (averrorPatchwelcome, vlc)
          else
            buildLoop build le tableNbBits tableIndex
              (codes.dropWhile (sameSubtable tableNbBits c)) vlc
termination_by codes => codes.length
decreasing_by
  · simp
  · exact Nat.lt_succ_of_le (List.dropWhile_sublist _).length_le

/-- The loop at the end of `build_table`. -/
def markUnused (tableIndex : Nat) : Nat → List VlcElem → List VlcElem
  | 0, table => table
  | k + 1, table =>
    let table := markUnused tableIndex k table
    let e := table.getD (tableIndex + k) ⟨0, 0⟩
    if e.bits = 0 then table.set (tableIndex + k) ⟨-1, e.bits⟩ else table

/-- `build_table`, with a bound on the depth of the tables. -/
def buildTable (realloc : Nat → Bool) (flags : InitFlags) :
    Nat → VLC → Nat → List VLCcode → Option (Int × VLC)
  | 0, _, _, _ => none
  | depth + 1, vlc, tableNbBits, codes =>
    if 30 < tableNbBits then some (AVERROR.einval.toInt, vlc)
    else
      match allocTable realloc vlc (2 ^ tableNbBits) flags.useNewStatic with
      | none => none
      | some (index, vlc) =>
        if index < 0 then some (index, vlc)
        else
          match buildLoop (buildTable realloc flags depth) flags.le tableNbBits index.toNat codes
              vlc with
          | none => none
          | some (ret, vlc) =>
            if ret < 0 then some (ret, vlc)
            else
              some (ret, { vlc with
                table := markUnused index.toNat (2 ^ tableNbBits) vlc.table })

/-- `COPY`: the codes for which `condition` holds, as they are put into `buf`. -/
def copyCodes (nbBits : Nat) (le : Bool) (condition : VLCcode → Bool) :
    List VLCcode → Except AVERROR (List VLCcode)
  | [] => .ok []
  | c :: codes =>
    if condition c then
      if 3 * nbBits < c.bits ∨ 32 < c.bits then .error .einval
      else if 2 ^ c.bits ≤ c.code.toNat then .error .einval
      else
        match copyCodes nbBits le condition codes with
        | .error e => .error e
        | .ok buf =>
          let code := if le then bitswap32 c.code else c.code <<< (32 - c.bits)
          .ok ({ c with code := code } :: buf)
    else copyCodes nbBits le condition codes

/-- `ff_init_vlc_sparse`: what is returned and `*vlc_arg`.  A failed assertion gives nothing. -/
def ffInitVlcSparse (sort : List VLCcode → List VLCcode) (malloc : Nat → Bool)
    (realloc : Nat → Bool) (flags : InitFlags) (vlcArg : VLC) (nbBits : Nat)
    (codes : List VLCcode) : Option (Int × VLC) :=
  let vlc := if flags.useNewStatic then { vlcArg with bits := nbBits, tableSize := 0 }
    else { bits := nbBits, table := [], tableSize := 0 }
  if flags.useNewStatic ∧ 1500 < codes.length + 1 then none
  else if ¬ flags.useNewStatic ∧ ¬ malloc (codes.length + 1) then
    some (AVERROR.enomem.toInt, vlc)
  else
    match copyCodes nbBits flags.le (fun c => nbBits < c.bits) codes with
    | .error e => some (e.toInt, vlc)
    | .ok long =>
      match copyCodes nbBits flags.le (fun c => c.bits ≠ 0 ∧ c.bits ≤ nbBits) codes with
      | .error e => some (e.toInt, vlc)
      | .ok short =>
        match buildTable realloc flags 33 vlc nbBits (sort long ++ short) with
        | none => none
        | some (ret, vlc) =>
          if flags.useNewStatic then if ret < 0 then none else some (0, vlc)
          else if ret < 0 then some (ret, { vlc with table := [] })
          else some (0, vlc)

end FFmpeg.Libavcodec.Vlc
