import FFmpeg.Common.File
import FFmpeg.Libavutil.Error
import FFmpeg.Libavutil.Mem

/-!
# Side data inside a packet

`libavcodec/avpacket.c`: `av_packet_merge_side_data` puts the side data of a packet behind its
payload, and `av_packet_split_side_data` takes it apart again, from the end.  A function has no
result when it reads or writes outside of a block, or when an assertion fails; the split also
has none when it reads outside of the data of the packet.
-/

namespace FFmpeg.Libavcodec.PacketSideData

open Common Libavutil

/-- `AV_PKT_DATA_NB`. -/
def avPktDataNb : Nat := 30

/-- `AV_INPUT_BUFFER_PADDING_SIZE`. -/
def avInputBufferPaddingSize : Nat := 64

/-- `FF_MERGE_MARKER`. -/
def ffMergeMarker : Nat := 0x8c4d9d108e25e9fe

/-- `AVPacketSideData`, with the block that `data` points to; no memory is an empty block. -/
structure AVPacketSideData where
  data : Bytes
  size : Nat
  type : Nat
  deriving DecidableEq, Repr

/-- An `AVPacket`: the memory from `data` on, and the array of the side data. -/
structure AVPacket where
  data : Bytes
  size : Int
  sideData : Option (List AVPacketSideData)
  sideDataElems : Nat
  deriving DecidableEq, Repr

/-- The bytes of a packet. -/
def AVPacket.payload (pkt : AVPacket) : Bytes := pkt.data.take pkt.size.toNat

/-- So many bytes at a pointer into a block. -/
def readAt (bytes : Bytes) (p : Int) (n : Nat) : Option Bytes :=
  if 0 ≤ p ∧ p.toNat + n ≤ bytes.length then some (slice bytes p.toNat n) else none

/-! ## Merging -/

/-- `bytestream_put_buffer` at the pointer into a block. -/
def putBuffer (w : Bytes × Nat) (src : Bytes) : Option (Bytes × Nat) :=
  if w.2 + src.length ≤ w.1.length then some (overwrite w.1 w.2 src, w.2 + src.length) else none

/-- The loop of `av_packet_merge_side_data`, from the last element to the first. -/
def mergeLoop (sideData : List AVPacketSideData) (elems : Nat) :
    Nat → Bytes × Nat → Option (Bytes × Nat)
  | 0, w => some w
  | i + 1, w => do
    let sd ← sideData[i]?
    let w ← putBuffer w (← readAt sd.data 0 sd.size)
    let w ← putBuffer w (putBE 4 sd.size)
    let w ← putBuffer w [UInt8.ofNat (sd.type ||| if i + 1 = elems then 128 else 0)]
    mergeLoop sideData elems i w

/-- The new block is filled. -/
def mergeInto (pkt : AVPacket) (sideData : List AVPacketSideData) (block : Bytes) :
    Option AVPacket := do
  let size : Int := block.length - avInputBufferPaddingSize
  let w ← putBuffer (block, 0) (← readAt pkt.data 0 pkt.size.toNat)
  let w ← mergeLoop sideData pkt.sideDataElems pkt.sideDataElems w
  let w ← putBuffer w (putBE 8 ffMergeMarker)
  if (w.2 : Int) ≠ size then none
  else
    let w ← putBuffer w (List.replicate avInputBufferPaddingSize 0)
    some { data := w.1, size := size, sideData := none, sideDataElems := 0 }

/-- `av_packet_merge_side_data`: whether there was something to merge, and the packet. -/
def avPacketMergeSideData (malloc : Malloc) (pkt : AVPacket) :
    Option (Except AVERROR Bool × AVPacket) :=
  if pkt.sideDataElems ≠ 0 then do
    let sideData ← pkt.sideData
    let size : Int := pkt.size + 8 + avInputBufferPaddingSize +
      ((sideData.take pkt.sideDataElems).map fun sd => (sd.size : Int) + 5).sum
    if size < 0 ∨ 2 ^ 31 - 1 < size then some (.error .einval, pkt)
    else
      match avMalloc malloc size.toNat with
      | none => some (.error .enomem, pkt)
      | some block => do
        let merged ← mergeInto pkt sideData block
        some (.ok true, merged)
  else some (.ok false, pkt)

/-! ## Splitting -/

/-- The first loop of `av_packet_split_side_data`: the number of elements, or nothing when the
bytes are not side data. -/
def scanLoop (bytes : Bytes) : Nat → Int → Nat → Option (Option Nat)
  | 0, _, _ => none
  | fuel + 1, p, i => do
    let size := getBE (← readAt bytes p 4)
    if 2 ^ 31 - 1 - 5 < size ∨ p < size then some none
    else
      let tag := getBE (← readAt bytes (p + 4) 1)
      if tag &&& 128 ≠ 0 then some (some i)
      else if p < size + 5 then some none
      else scanLoop bytes fuel (p - (size + 5)) (i + 1)

/-- The second loop, which copies the elements into an array of so many: the size of the packet
and the elements that have been written. -/
def splitLoop (malloc : Nat → Malloc) (bytes : Bytes) (count : Nat) :
    Nat → Int → Nat → Int → List AVPacketSideData →
      Option (Except AVERROR Unit × Int × List AVPacketSideData)
  | 0, _, _, _, _ => none
  | fuel + 1, p, i, pktSize, sideData => do
    let size := getBE (← readAt bytes p 4)
    let tag := getBE (← readAt bytes (p + 4) 1)
    if ¬(size ≤ 2 ^ 31 - 1 - 5 ∧ size ≤ p) ∨ count ≤ i then none
    else
      match avMalloc (malloc i) (size + avInputBufferPaddingSize) with
      | none => some (.error .enomem, pktSize, sideData ++ [⟨[], size, tag &&& 127⟩])
      | some _ => do
        let copied ← readAt bytes (p - size) size
        let sd : AVPacketSideData :=
          ⟨copied ++ List.replicate avInputBufferPaddingSize 0, size, tag &&& 127⟩
        if tag &&& 128 ≠ 0 then some (.ok (), pktSize - (size + 5), sideData ++ [sd])
        else
          splitLoop malloc bytes count fuel (p - (size + 5)) (i + 1) (pktSize - (size + 5))
            (sideData ++ [sd])

/-- The side data is copied, when there is memory for the array and for each element. -/
def splitInto (mallocArray : Malloc) (malloc : Nat → Malloc) (pkt : AVPacket) (count : Nat) :
    Option (Except AVERROR Bool × AVPacket) :=
  if avPktDataNb < count then some (.error .erange, pkt)
  else
    match avMalloc mallocArray (16 * count) with
    | none => some (.error .enomem, { pkt with sideData := none })
    | some _ => do
      let (ret, size, sideData) ←
        splitLoop malloc pkt.payload count pkt.size.toNat (pkt.size - 8 - 5) 0 pkt.size []
      match ret with
      | .error err => some (.error err, { pkt with size := size, sideData := some sideData })
      | .ok () => some (.ok true, { pkt with
          size := size - 8, sideData := some sideData, sideDataElems := sideData.length })

/-- `av_packet_split_side_data`: whether there was side data, and the packet. -/
def avPacketSplitSideData (mallocArray : Malloc) (malloc : Nat → Malloc) (pkt : AVPacket) :
    Option (Except AVERROR Bool × AVPacket) :=
  if pkt.sideDataElems = 0 ∧ 12 < pkt.size then do
    let marker := getBE (← readAt pkt.payload (pkt.size - 8) 8)
    if marker = ffMergeMarker then
      match ← scanLoop pkt.payload pkt.size.toNat (pkt.size - 8 - 5) 1 with
      | none => some (.ok false, pkt)
      | some count => splitInto mallocArray malloc pkt count
    else some (.ok false, pkt)
  else some (.ok false, pkt)

end FFmpeg.Libavcodec.PacketSideData
