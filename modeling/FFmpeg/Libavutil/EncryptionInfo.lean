import FFmpeg.Common.Bytes
import FFmpeg.Common.File
import Mathlib.Tactic

/-!
# Encryption init info side data

The list of `AVEncryptionInitInfo` in packet side data, from
`libavutil/encryption_info.c`.  A list is the Lean list of its elements, so NULL is
the empty list.  An access that the source makes without checking what it accesses
gives a `Fault` where there is nothing to access.
-/

namespace FFmpeg.Libavutil.EncryptionInfo

open Common

/-- `AVEncryptionInitInfo` without `next`.  `system_id_size` and `data_size` are the
lengths; `key_ids` is NULL or an array. -/
structure AVEncryptionInitInfo where
  systemId : Bytes
  keyIds : Option (List Bytes)
  numKeyIds : Nat
  keyIdSize : Nat
  data : Bytes
  deriving DecidableEq, Repr

/-- The invalid accesses. -/
inductive Fault
  /-- a read behind the end of the side data -/
  | readPastEnd
  /-- `key_ids[i]` where `key_ids` is NULL or has no element `i` -/
  | noKeyId
  deriving DecidableEq, Repr

/-- The allocations for one element. -/
inductive Site
  | info
  | systemId
  | keyIds
  | data
  | keyId (i : Nat)
  deriving DecidableEq, Repr

/-- Which allocations the system grants; the number is the position in the list. -/
abbrev Memory := Nat → Site → Bool

/-- `INT_MAX`, the default of `max_alloc_size`. -/
def intMax : Nat := 2 ^ 31 - 1

/-- Does `av_malloc` or `av_mallocz` return a block? -/
def granted (mem : Memory) (i : Nat) (site : Site) (size : Nat) : Bool :=
  decide (size ≤ intMax) && mem i site

/-- `info->key_ids[i]`. -/
def keyIdAt (info : AVEncryptionInitInfo) (i : Nat) : Except Fault Bytes :=
  match info.keyIds.bind (·[i]?) with
  | some id => .ok id
  | none => .error .noKeyId

/-- The loop of `av_encryption_init_info_free` over the key ids, for one element.
An array that exists may hold NULL pointers. -/
def initInfoFree (info : AVEncryptionInitInfo) : Except Fault Unit :=
  if info.numKeyIds ≠ 0 ∧ info.keyIds = none then .error .noKeyId else .ok ()

/-- `av_encryption_init_info_free`. -/
def initInfoFreeList : List AVEncryptionInitInfo → Except Fault Unit
  | [] => .ok ()
  | info :: next => (initInfoFree info).bind fun _ => initInfoFreeList next

/-- `av_encryption_init_info_alloc` for position `i` of a list; `none` is NULL. -/
def initInfoAlloc (mem : Memory) (i systemIdSize numKeyIds keyIdSize dataSize : Nat) :
    Except Fault (Option AVEncryptionInitInfo) :=
  if !mem i .info then .ok none
  else
    let systemIdNull := !granted mem i .systemId systemIdSize
    -- `av_mallocz_array` of pointers, which are 8 bytes
    let keyIdsNull := keyIdSize = 0 || !granted mem i .keyIds (8 * numKeyIds)
    let dataNull := !granted mem i .data dataSize
    let info : AVEncryptionInitInfo :=
      { systemId := List.replicate systemIdSize 0
        keyIds :=
          if keyIdsNull then none
          else some (List.replicate numKeyIds (List.replicate keyIdSize 0))
        numKeyIds := numKeyIds
        keyIdSize := keyIdSize
        data := List.replicate dataSize 0 }
    if (systemIdNull && systemIdSize ≠ 0) || (dataNull && dataSize ≠ 0) ||
        (keyIdsNull && numKeyIds ≠ 0 && keyIdSize ≠ 0) then
      (initInfoFree info).map fun _ => none
    else if keyIdSize ≠ 0 ∧ ∃ j < numKeyIds, granted mem i (.keyId j) keyIdSize = false then
      (initInfoFree info).map fun _ => none
    else .ok (some info)

/-- A read of `n` bytes at the front of what is left of the side data. -/
def readBytes (sideData : Bytes) (n : Nat) : Except Fault (Bytes × Bytes) :=
  if n ≤ sideData.length then .ok (sideData.take n, sideData.drop n) else .error .readPastEnd

/-- The loop that fills `key_ids[j]`, `key_ids[j + 1]`, ... -/
def readKeyIds (info : AVEncryptionInitInfo) : Nat → Nat → Bytes → Except Fault (List Bytes × Bytes)
  | 0, _, sideData => .ok ([], sideData)
  | n + 1, j, sideData =>
    (keyIdAt info j).bind fun _ =>
    (readBytes sideData info.keyIdSize).bind fun r =>
    (readKeyIds info n (j + 1) r.2).map fun s => (r.1 :: s.1, s.2)

/-- Field `k` of the header of an element. -/
def headerField (header : Bytes) (k : Nat) : Nat := getBE (slice header (4 * k) 4)

/-- Give up: free what was parsed and return NULL. -/
def giveUp (ret : List AVEncryptionInitInfo) (sideData : Bytes) :
    Except Fault (List AVEncryptionInitInfo × Bytes) :=
  (initInfoFreeList ret).map fun _ => ([], sideData)

/-- The loop of `av_encryption_init_info_get_side_data` for `n` more elements from
position `i`, with the list so far.  The result is the list and the bytes behind it. -/
def getSideDataLoop (mem : Memory) : Nat → Nat → Bytes → Nat → List AVEncryptionInitInfo →
    Except Fault (List AVEncryptionInitInfo × Bytes)
  | 0, _, sideData, _, ret => .ok (ret, sideData)
  | n + 1, i, sideData, sideDataSize, ret =>
    if sideDataSize < 16 then giveUp ret sideData
    else
      (readBytes sideData 16).bind fun header =>
      let systemIdSize := headerField header.1 0
      let numKeyIds := headerField header.1 1
      let keyIdSize := headerField header.1 2
      let dataSize := headerField header.1 3
      if sideDataSize - 16 < (systemIdSize + dataSize + numKeyIds * keyIdSize) % 2 ^ 64 then
        giveUp ret sideData
      else
        (initInfoAlloc mem i systemIdSize numKeyIds keyIdSize dataSize).bind fun tempInfo =>
        match tempInfo with
        | none => giveUp ret sideData
        | some info =>
          (readBytes header.2 systemIdSize).bind fun systemId =>
          (readKeyIds info numKeyIds 0 systemId.2).bind fun keyIds =>
          (readBytes keyIds.2 dataSize).bind fun data =>
          let info := { info with
            systemId := systemId.1
            keyIds := info.keyIds.map fun _ => keyIds.1
            data := data.1 }
          getSideDataLoop mem n (i + 1) data.2
            (sideDataSize - 16 - systemIdSize - numKeyIds * keyIdSize - dataSize) (ret ++ [info])

/-- `av_encryption_init_info_get_side_data`. -/
def getSideData (mem : Memory) (sideData : Bytes) :
    Except Fault (List AVEncryptionInitInfo × Bytes) :=
  if sideData.length < 4 then .ok ([], sideData)
  else
    (readBytes sideData 4).bind fun count =>
    getSideDataLoop mem (getBE count.1) 0 count.2 (sideData.length - 4) []

/-! ## Serialising -/

/-- `UINT32_MAX`. -/
def uint32Max : Nat := 2 ^ 32 - 1

/-- The loop that adds up the size; `none` is the return of NULL. -/
def sideDataSize : List AVEncryptionInitInfo → Nat → Nat → Option (Nat × Nat)
  | [], size, count => some (size, count)
  | info :: next, size, count =>
    let size := size + (16 + info.systemId.length + info.data.length)
    if count = uint32Max ∨ uint32Max < size then none
    else
      let count := count + 1
      if info.numKeyIds ≠ 0 then
        let size := size + info.numKeyIds * info.keyIdSize
        if uint32Max < size then none else sideDataSize next size count
      else sideDataSize next size count

/-- The loop that copies the key ids from `key_ids[j]` on. -/
def writeKeyIds (info : AVEncryptionInitInfo) : Nat → Nat → Except Fault Bytes
  | 0, _ => .ok []
  | n + 1, j =>
    (keyIdAt info j).bind fun id =>
    (writeKeyIds info n (j + 1)).map fun rest => id.take info.keyIdSize ++ rest

/-- The loop that writes the elements. -/
def writeInfos : List AVEncryptionInitInfo → Except Fault Bytes
  | [] => .ok []
  | info :: next =>
    (writeKeyIds info info.numKeyIds 0).bind fun keyIds =>
    (writeInfos next).map fun rest =>
      putBE 4 info.systemId.length ++ putBE 4 info.numKeyIds ++ putBE 4 info.keyIdSize ++
        putBE 4 info.data.length ++ info.systemId ++ keyIds ++ info.data ++ rest

/-- `av_encryption_init_info_add_side_data`; `grant` says whether the system has
memory for the buffer. -/
def addSideData (grant : Bool) (infos : List AVEncryptionInitInfo) : Except Fault (Option Bytes) :=
  match sideDataSize infos 4 0 with
  | none => .ok none
  | some (size, count) =>
    if decide (size ≤ intMax) && grant then
      (writeInfos infos).map fun rest => some (putBE 4 count ++ rest)
    else .ok none

end FFmpeg.Libavutil.EncryptionInfo
