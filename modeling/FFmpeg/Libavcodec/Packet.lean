import FFmpeg.Libavcodec.PacketSideData
import FFmpeg.Libavutil.Buffer

/-!
# Packets

`libavcodec/avpacket.c`: packets whose data lies in a reference-counted buffer, or in memory of
the caller.  A function has no result when it uses memory that has been freed, reads or writes
outside of a block, or when an assertion fails.
-/

namespace FFmpeg.Libavcodec.Packet

open Common Libavutil Buffer
open PacketSideData (AVPacketSideData avPktDataNb avInputBufferPaddingSize)

variable {Arg Free : Type}

/-- `INT_MAX`. -/
def intMax : Int := 2 ^ 31 - 1

/-- `AV_NOPTS_VALUE`. -/
def avNoptsValue : Int := -2 ^ 63

/-- Where `data` points to: a place in the block of a buffer, or in memory of the caller. -/
inductive Place
  | block (data offset : Nat)
  | outer (data offset : Nat)
  deriving DecidableEq, Repr

/-- An `AVPacket`; its side data is the list of so many elements. -/
structure AVPacket where
  buf : Option Nat
  pts : Int
  dts : Int
  data : Option Place
  size : Int
  streamIndex : Int
  flags : Int
  sideData : List AVPacketSideData
  duration : Int
  pos : Int
  convergenceDuration : Int
  deriving DecidableEq, Repr

/-- The buffers, the memory of the caller and the packets. -/
structure State (Arg Free : Type) where
  mem : Buffer.State Arg Free
  outer : Cells Bytes
  packets : Cells AVPacket

/-- What the allocators give a call that makes a packet. -/
structure PacketMemory where
  /-- whether there is memory for an `AVPacket` -/
  packet : Bool
  /-- for the data of each element of the side data, and for the array -/
  sideData : Nat → Malloc
  sideArray : Nat → Malloc
  buffer : Memory

/-- What a call does; the packet is the one it returns. -/
structure Result (Arg Free : Type) where
  state : State Arg Free
  packet : Option Nat
  ret : Int

/-- A place behind another one. -/
def Place.add : Place → Nat → Place
  | .block data offset, n => .block data (offset + n)
  | .outer data offset, n => .outer data (offset + n)

/-- So many bytes at a place; none need one. -/
def readPlace (s : State Arg Free) (place : Option Place) (n : Nat) : Option Bytes :=
  match place with
  | some (.block data offset) => readAt s.mem.blocks data offset n
  | some (.outer data offset) => readAt s.outer data offset n
  | none => if n = 0 then some [] else none

/-- The data of a packet. -/
def packetBytes (s : State Arg Free) (pkt : AVPacket) : Option Bytes :=
  readPlace s pkt.data pkt.size.toNat

/-- The zeros behind the data. -/
def padding : Bytes := List.replicate avInputBufferPaddingSize 0

/-- `memset(data + pos, 0, AV_INPUT_BUFFER_PADDING_SIZE)`. -/
def clearPadding (s : State Arg Free) (place : Option Place) (pos : Int) :
    Option (State Arg Free) :=
  match place with
  | some (.block data offset) =>
    if offset + pos < 0 then none
    else
      (writeAt s.mem.blocks data (offset + pos).toNat padding).map fun blocks =>
        { s with mem := { s.mem with blocks := blocks } }
  | some (.outer data offset) =>
    if offset + pos < 0 then none
    else
      (writeAt s.outer data (offset + pos).toNat padding).map fun outer => { s with outer := outer }
  | none => none

/-! ## Buffers of packets -/

/-- The `data` of a reference. -/
def bufData (m : Buffer.State Arg Free) (buf : Option Nat) : Option Place :=
  buf.bind fun r => (m.refs.load r).map fun ref => .block ref.data ref.offset

/-- Bytes are written behind the `data` of the reference that a call returned. -/
def fillBuf (r : Buffer.Result Arg Free) (pos : Nat) (src : Bytes) :
    Option (Buffer.Result Arg Free) :=
  r.ref.bind fun p =>
    (r.state.refs.load p).bind fun ref =>
      (writeAt r.state.blocks ref.data (ref.offset + pos) src).map fun blocks =>
        { r with state := { r.state with blocks := blocks } }

/-- `av_buffer_unref` of the buffer of a packet, which may be null. -/
def unrefBuf (m : Buffer.State Arg Free) : Option Nat → Option (Buffer.State Arg Free)
  | none => some m
  | some r => avBufferUnref m r

/-- `packet_alloc`. -/
def packetAlloc (m : Buffer.State Arg Free) (memory : Memory) (buf : Option Nat) (size : Int) :
    Option (Buffer.Result Arg Free) :=
  if size < 0 ∨ intMax - avInputBufferPaddingSize ≤ size then
    some ⟨m, buf, AVERROR.einval.toInt⟩
  else
    (avBufferRealloc m memory buf (size + avInputBufferPaddingSize)).bind fun r =>
      if r.ret < 0 then some r else fillBuf r size.toNat padding

/-- `packet_alloc` of a buffer for a packet, into which the data is copied. -/
def allocCopy (s : State Arg Free) (memory : Memory) (pkt : AVPacket) :
    Option (Buffer.Result Arg Free) :=
  (packetAlloc s.mem memory none pkt.size).bind fun r =>
    if r.ret < 0 then some r
    else (packetBytes { s with mem := r.state } pkt).bind fun bytes => fillBuf r 0 bytes

/-- `av_init_packet`. -/
def avInitPacket (pkt : AVPacket) : AVPacket :=
  { pkt with
    pts := avNoptsValue
    dts := avNoptsValue
    pos := -1
    duration := 0
    convergenceDuration := 0
    flags := 0
    streamIndex := 0
    buf := none
    sideData := [] }

/-- A packet that has been reset. -/
def resetPacket (pkt : AVPacket) : AVPacket :=
  { avInitPacket pkt with data := none, size := 0 }

/-- `av_packet_alloc`, when there is memory. -/
def newPacket : AVPacket := avInitPacket ⟨none, 0, 0, none, 0, 0, 0, [], 0, 0, 0⟩

/-- `av_new_packet`. -/
def avNewPacket (s : State Arg Free) (memory : Memory) (p : Nat) (size : Int) :
    Option (Result Arg Free) :=
  (s.packets.load p).bind fun pkt =>
    (packetAlloc s.mem memory none size).bind fun r =>
      if r.ret < 0 then some ⟨{ s with mem := r.state }, none, r.ret⟩
      else
        (bufData r.state r.ref).map fun data =>
          ⟨{ s with
              mem := r.state
              packets := s.packets.store p
                { avInitPacket pkt with buf := r.ref, data := some data, size := size } },
            none, 0⟩

/-- `av_packet_unref`. -/
def avPacketUnref (s : State Arg Free) (p : Nat) : Option (State Arg Free) :=
  (s.packets.load p).bind fun pkt =>
    (unrefBuf s.mem pkt.buf).map fun m =>
      { s with mem := m, packets := s.packets.store p (resetPacket pkt) }

/-! ## Resizing -/

/-- `av_shrink_packet`. -/
def avShrinkPacket (s : State Arg Free) (p : Nat) (size : Int) : Option (State Arg Free) :=
  (s.packets.load p).bind fun pkt =>
    if pkt.size ≤ size then some s
    else
      clearPadding { s with packets := s.packets.store p { pkt with size := size } } pkt.data size

/-- The end of `av_grow_packet`. -/
def growEnd (s : State Arg Free) (p : Nat) (pkt : AVPacket) (growBy : Int) :
    Option (Result Arg Free) :=
  (clearPadding { s with packets := s.packets.store p { pkt with size := pkt.size + growBy } }
    pkt.data (pkt.size + growBy)).map fun s => ⟨s, none, 0⟩

/-- Where the data of a packet is in its buffer, and the place: without data it begins there. -/
def dataOffset (ref : AVBufferRef) : Option Place → Option (Place × Nat)
  | none => some (.block ref.data ref.offset, 0)
  | some (.block data offset) =>
    if data = ref.data then
      some (.block data offset, sizeT ((offset : Int) - ref.offset))
    else none
  | some (.outer _ _) => none

/-- `av_grow_packet` of a packet with a buffer. -/
def growBuf (s : State Arg Free) (memory : Memory) (p : Nat) (pkt : AVPacket) (growBy : Int)
    (r : Nat) : Option (Result Arg Free) :=
  let newSize := pkt.size + growBy + avInputBufferPaddingSize
  (s.mem.refs.load r).bind fun ref =>
    (dataOffset ref pkt.data).bind fun place =>
      if pkt.data ≠ none ∧ intMax - newSize < place.2 then some ⟨s, none, AVERROR.enomem.toInt⟩
      else
        (avBufferIsWritable s.mem r).bind fun writable =>
          if ref.size < newSize + place.2 ∨ ¬writable then
            (avBufferReallocRef s.mem memory r (newSize + place.2)).bind fun new =>
              if new.ret < 0 then some ⟨{ s with mem := new.state }, none, new.ret⟩
              else
                (bufData new.state new.ref).bind fun data =>
                  growEnd { s with mem := new.state } p
                    { pkt with buf := new.ref, data := some (data.add place.2) } growBy
          else growEnd s p { pkt with data := some place.1 } growBy

/-- `av_grow_packet` of a packet without a buffer. -/
def growNew (s : State Arg Free) (memory : Memory) (p : Nat) (pkt : AVPacket) (growBy : Int) :
    Option (Result Arg Free) :=
  let new := avBufferAlloc s.mem memory (pkt.size + growBy + avInputBufferPaddingSize)
  if new.2 = none then some ⟨{ s with mem := new.1 }, none, AVERROR.enomem.toInt⟩
  else
    (packetBytes { s with mem := new.1 } pkt).bind fun bytes =>
      (fillBuf (returned new) 0 bytes).bind fun r =>
        (bufData r.state r.ref).bind fun data =>
          growEnd { s with mem := r.state } p { pkt with buf := r.ref, data := some data } growBy

/-- `av_grow_packet`. -/
def avGrowPacket (s : State Arg Free) (memory : Memory) (p : Nat) (growBy : Int) :
    Option (Result Arg Free) :=
  (s.packets.load p).bind fun pkt =>
    if pkt.size < 0 ∨ intMax - avInputBufferPaddingSize < pkt.size then none
    else if growBy < 0 ∨ intMax - (pkt.size + avInputBufferPaddingSize) < growBy then
      some ⟨s, none, AVERROR.enomem.toInt⟩
    else
      match pkt.buf with
      | some r => growBuf s memory p pkt growBy r
      | none => growNew s memory p pkt growBy

/-! ## Copies -/

/-- `av_packet_add_side_data`: the list then. -/
def avPacketAddSideData (malloc : Malloc) (sideData : List AVPacketSideData)
    (sd : AVPacketSideData) : Except AVERROR (List AVPacketSideData) :=
  match sideData.findIdx? fun old => old.type = sd.type with
  | some i => .ok (sideData.set i sd)
  | none =>
    if avPktDataNb < sideData.length + 1 then .error .erange
    else
      match avMalloc malloc (16 * (sideData.length + 1)) with
      | none => .error .enomem
      | some _ => .ok (sideData ++ [sd])

/-- `av_packet_new_side_data`, where the bytes are copied to then. -/
def avPacketNewSideData (mallocData mallocArray : Malloc) (sideData : List AVPacketSideData)
    (type size : Nat) (src : Bytes) : Option (List AVPacketSideData) :=
  if intMax - avInputBufferPaddingSize < size then none
  else
    match avMalloc mallocData (size + avInputBufferPaddingSize) with
    | none => none
    | some _ =>
      match avPacketAddSideData mallocArray sideData
        ⟨src ++ List.replicate avInputBufferPaddingSize 0, size, type⟩ with
      | .error _ => none
      | .ok sideData => some sideData

/-- The loop of `av_packet_copy_props`: nothing when memory is short. -/
def copySideData (memory : PacketMemory) :
    Nat → List AVPacketSideData → List AVPacketSideData → Option (Option (List AVPacketSideData))
  | _, [], sideData => some (some sideData)
  | i, sd :: src, sideData =>
    (PacketSideData.readAt sd.data 0 sd.size).bind fun bytes =>
      match avPacketNewSideData (memory.sideData i) (memory.sideArray i) sideData sd.type sd.size
        bytes with
      | none => some none
      | some sideData => copySideData memory (i + 1) src sideData

/-- The fields that `av_packet_copy_props` copies, without the side data. -/
def copyFields (dst src : AVPacket) : AVPacket :=
  { dst with
    pts := src.pts
    dts := src.dts
    pos := src.pos
    duration := src.duration
    convergenceDuration := src.convergenceDuration
    flags := src.flags
    streamIndex := src.streamIndex
    sideData := [] }

/-- `av_packet_copy_props`.  Both packets may be one. -/
def avPacketCopyProps (s : State Arg Free) (memory : PacketMemory) (dst src : Nat) :
    Option (Result Arg Free) :=
  (s.packets.load src).bind fun original =>
    (s.packets.load dst).bind fun into =>
      let into := copyFields into original
      let packets := s.packets.store dst into
      (packets.load src).bind fun original =>
        (copySideData memory 0 original.sideData []).map fun copied =>
          match copied with
          | none => ⟨{ s with packets := packets }, none, AVERROR.enomem.toInt⟩
          | some sideData =>
            ⟨{ s with packets := packets.store dst { into with sideData := sideData } }, none, 0⟩

/-- The end of `av_packet_ref` when it fails. -/
def refFail (s : State Arg Free) (dst : Nat) (ret : Int) : Option (Result Arg Free) :=
  (avPacketUnref s dst).map fun s => ⟨s, none, ret⟩

/-- `av_packet_ref` from the copy of the properties on. -/
def refData (s : State Arg Free) (memory : PacketMemory) (dst : Nat) (into original : AVPacket) :
    Option (Result Arg Free) :=
  match original.buf with
  | none =>
    (allocCopy s memory.buffer original).bind fun r =>
      if r.ret < 0 then refFail { s with mem := r.state } dst r.ret
      else
        (bufData r.state r.ref).map fun data =>
          ⟨{ s with
              mem := r.state
              packets := s.packets.store dst
                { into with buf := r.ref, data := some data, size := original.size } }, none, 0⟩
  | some b =>
    (Buffer.avBufferRef s.mem memory.buffer b).bind fun r =>
      match r.2 with
      | none => refFail { s with mem := r.1 } dst AVERROR.enomem.toInt
      | some q =>
        some ⟨{ s with
            mem := r.1
            packets := s.packets.store dst
              { into with buf := some q, data := original.data, size := original.size } }, none, 0⟩

/-- `av_packet_ref`. -/
def avPacketRef (s : State Arg Free) (memory : PacketMemory) (dst src : Nat) :
    Option (Result Arg Free) :=
  (s.packets.load dst).bind fun into =>
    let s := { s with packets := s.packets.store dst { into with buf := none } }
    (avPacketCopyProps s memory dst src).bind fun r =>
      if r.ret < 0 then refFail r.state dst r.ret
      else
        (r.state.packets.load src).bind fun original =>
          (r.state.packets.load dst).bind fun into => refData r.state memory dst into original

/-- `av_packet_clone`, the result of which is null when it fails. -/
def avPacketClone (s : State Arg Free) (memory : PacketMemory) (src : Nat) :
    Option (Result Arg Free) :=
  if memory.packet then
    let new := s.packets.next
    (avPacketRef { s with packets := s.packets.alloc newPacket } memory new src).bind fun r =>
      if r.ret ≠ 0 then
        (avPacketUnref r.state new).map fun s =>
          ⟨{ s with packets := s.packets.free new }, none, AVERROR.enomem.toInt⟩
      else some ⟨r.state, some new, 0⟩
  else some ⟨s, none, AVERROR.enomem.toInt⟩

/-- `av_packet_move_ref`.  Both packets may be one. -/
def avPacketMoveRef (s : State Arg Free) (dst src : Nat) : Option (State Arg Free) :=
  (s.packets.load src).bind fun original =>
    (s.packets.load dst).bind fun _ =>
      let packets := s.packets.store dst original
      (packets.load src).map fun original =>
        { s with packets := packets.store src (resetPacket original) }

/-- `av_packet_make_refcounted`. -/
def avPacketMakeRefcounted (s : State Arg Free) (memory : Memory) (p : Nat) :
    Option (Result Arg Free) :=
  (s.packets.load p).bind fun pkt =>
    if pkt.buf ≠ none then some ⟨s, none, 0⟩
    else
      (allocCopy s memory pkt).bind fun r =>
        if r.ret < 0 then some ⟨{ s with mem := r.state }, none, r.ret⟩
        else
          (bufData r.state r.ref).map fun data =>
            ⟨{ s with
                mem := r.state
                packets := s.packets.store p { pkt with buf := r.ref, data := some data } },
              none, 0⟩

/-- Whether a packet has a buffer that is writable. -/
def bufIsWritable (m : Buffer.State Arg Free) (buf : Option Nat) : Option Bool :=
  match buf with
  | none => some false
  | some r => avBufferIsWritable m r

/-- `av_packet_make_writable`. -/
def avPacketMakeWritable (s : State Arg Free) (memory : Memory) (p : Nat) :
    Option (Result Arg Free) :=
  (s.packets.load p).bind fun pkt =>
    (bufIsWritable s.mem pkt.buf).bind fun writable =>
      if writable then some ⟨s, none, 0⟩
      else
        (allocCopy s memory pkt).bind fun r =>
          if r.ret < 0 then some ⟨{ s with mem := r.state }, none, r.ret⟩
          else
            (unrefBuf r.state pkt.buf).bind fun m =>
              (bufData m r.ref).map fun data =>
                ⟨{ s with
                    mem := m
                    packets := s.packets.store p { pkt with buf := r.ref, data := some data } },
                  none, 0⟩

/-! ## What is done with packets -/

/-- What somebody does with packets. -/
inductive Action
  | new (memory : Memory) (p : Nat) (size : Int)
  | ref (memory : PacketMemory) (dst src : Nat)
  | clone (memory : PacketMemory) (src : Nat)
  | moveRef (dst src : Nat)
  | makeWritable (memory : Memory) (p : Nat)
  | makeRefcounted (memory : Memory) (p : Nat)
  | grow (memory : Memory) (p : Nat) (growBy : Int)
  | shrink (p : Nat) (size : Int)
  | unref (p : Nat)

/-- One step, where it does not use memory it must not use. -/
def step (s : State Arg Free) : Action → Option (Result Arg Free)
  | .new memory p size => avNewPacket s memory p size
  | .ref memory dst src => avPacketRef s memory dst src
  | .clone memory src => avPacketClone s memory src
  | .moveRef dst src => (avPacketMoveRef s dst src).map fun s => ⟨s, none, 0⟩
  | .makeWritable memory p => avPacketMakeWritable s memory p
  | .makeRefcounted memory p => avPacketMakeRefcounted s memory p
  | .grow memory p growBy => avGrowPacket s memory p growBy
  | .shrink p size => (avShrinkPacket s p size).map fun s => ⟨s, none, 0⟩
  | .unref p => (avPacketUnref s p).map fun s => ⟨s, none, 0⟩

end FFmpeg.Libavcodec.Packet
