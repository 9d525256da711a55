import FFmpeg.Libavcodec.PutBitsStream
import FFmpeg.Libavcodec.GetBits

/-!
# What the bit writer writes, the bit reader reads

Any calls of the writer whose bits fit the buffer put them one after the other, and reads
of the same widths get the numbers back, signed ones around zero.  Copied bits may be read
in any pieces.
-/

namespace FFmpeg.Libavcodec.PutGetBits

open Common PutBits GetBits PutBitsStream GetBitsStream

/-! ## Writing -/

/-- A call of the writer. -/
inductive PutOp
  | putBits (n value : Nat)
  | putBits32 (value : Nat)
  | putBits64 (n value : Nat)
  | putSbits (n : Nat) (value : Int)
  | copyBits (src : Bytes) (length : Nat)

variable (order : BitOrder)

/-- The arguments are those the function is for. -/
def PutOp.Valid : PutOp → Prop
  | putBits n value => n ≤ 31 ∧ value < 2 ^ n
  | putBits32 value => value < 2 ^ 32
  | putBits64 n value => n ≤ 64 ∧ value < 2 ^ n
  | putSbits n _ => n ≤ 31
  | copyBits src length => order = .msbFirst ∧ length ≤ 8 * src.length

/-- The number of bits of a call. -/
def PutOp.width : PutOp → Nat
  | putBits n _ => n
  | putBits32 _ => 32
  | putBits64 n _ => n
  | putSbits n _ => n
  | copyBits _ length => length

/-- The bits of a call. -/
def PutOp.written : PutOp → List Bool
  | putBits n value => bits order n value
  | putBits32 value => bits order 32 value
  | putBits64 n value => bits order n value
  | putSbits n value => bits order n (value % 2 ^ n).toNat
  | copyBits src length => (bitsOfBytes order src).take length

/-- A call; `small` is `CONFIG_SMALL`. -/
def putStep (small : Bool) (s : PutBitContext) : PutOp → Option PutBitContext
  | .putBits n value => some (PutBits.putBits order s n value)
  | .putBits32 value => some (PutBits.putBits32 order s value)
  | .putBits64 n value => some (PutBits.putBits64 order s n value)
  | .putSbits n value => some (PutBits.putSbits order s n value)
  | .copyBits src length => avprivCopyBits small s src length

variable {order}

variable {op : PutOp}

theorem PutOp.length_written (h : op.Valid order) : (op.written order).length = op.width := by
  cases op with
  | putBits n value => exact length_bits n value
  | putBits32 value => exact length_bits 32 value
  | putBits64 n value => exact length_bits n value
  | putSbits n value => exact length_bits n _
  | copyBits src length =>
    show ((bitsOfBytes order src).take length).length = length
    rw [List.length_take, length_bitsOfBytes]
    exact Nat.min_eq_left h.2

variable {s : PutBitContext} {out : List Bool}

theorem putStep_writes {size : Nat} (hs : Writes order size s out) (small : Bool)
    (hop : op.Valid order) (hfits : out.length + op.width ≤ 8 * size) :
    ∃ t, putStep order small s op = some t ∧ Writes order size t (out ++ op.written order) := by
  cases op with
  | putBits n value => exact ⟨_, rfl, hs.putBits (Nat.le_succ_of_le hop.1) hop.2 hfits⟩
  | putBits32 value => exact ⟨_, rfl, hs.putBits32 hop hfits⟩
  | putBits64 n value => exact ⟨_, rfl, hs.putBits64 hop.1 hop.2 hfits⟩
  | putSbits n value => exact ⟨_, rfl, hs.putSbits hop value hfits⟩
  | copyBits src length =>
    obtain ⟨rfl, hsrc⟩ := hop
    exact hs.avprivCopyBits small hsrc hfits

variable {ops : List PutOp}

theorem foldlM_putStep_writes {size : Nat} (small : Bool) (hops : ∀ op ∈ ops, op.Valid order)
    (hs : Writes order size s out) (hfits : out.length + (ops.map PutOp.width).sum ≤ 8 * size) :
    ∃ t, ops.foldlM (putStep order small) s = some t ∧
      Writes order size t (out ++ ops.flatMap (PutOp.written order)) := by
  induction ops generalizing s out with
  | nil =>
    refine ⟨s, rfl, ?_⟩
    rwa [List.flatMap_nil, List.append_nil]
  | cons op ops ih =>
    rw [List.map_cons, List.sum_cons] at hfits
    have hop := hops op List.mem_cons_self
    obtain ⟨t, hput, ht⟩ := putStep_writes hs small hop (by lia)
    obtain ⟨u, hrest, hu⟩ := ih (fun o ho => hops o (List.mem_cons_of_mem op ho)) ht
      (by rw [List.length_append, PutOp.length_written hop]; lia)
    refine ⟨u, ?_, ?_⟩
    · rw [List.foldlM_cons, hput]
      exact hrest
    · rwa [List.append_assoc] at hu

/-! ## Reading -/

/-- A call of the reader. -/
inductive GetOp
  | getBits (n : Nat)
  | getBitsLong (n : Nat)
  | getBits64 (n : Nat)
  | getSbitsLong (n : Nat)

/-- The widths a function is for. -/
def GetOp.Valid : GetOp → Prop
  | getBits n => 0 < n ∧ n ≤ 25
  | getBitsLong n => n ≤ 32
  | getBits64 n => n ≤ 64
  | getSbitsLong n => n ≤ 32

/-- The number of bits of a call. -/
def GetOp.width : GetOp → Nat
  | getBits n => n
  | getBitsLong n => n
  | getBits64 n => n
  | getSbitsLong n => n

/-- What a call returns for a number of its width: a signed one extends its sign. -/
def GetOp.value (number : Nat) : GetOp → Int
  | getSbitsLong n => Int.bmod number (2 ^ n)
  | _ => number

variable (config : Config)

def getStep (s : GetBitContext) : GetOp → Int × GetBitContext
  | .getBits n => ((GetBits.getBits config s n).1, (GetBits.getBits config s n).2)
  | .getBitsLong n => ((GetBits.getBitsLong config s n).1, (GetBits.getBitsLong config s n).2)
  | .getBits64 n => ((GetBits.getBits64 config s n).1, (GetBits.getBits64 config s n).2)
  | .getSbitsLong n => GetBits.getSbitsLong config s n

/-- What a list of calls returns. -/
def getAll : GetBitContext → List GetOp → List Int
  | _, [] => []
  | s, op :: ops => (getStep config s op).1 :: getAll (getStep config s op).2 ops

variable {config}

/-- A call gets the next number of the stream. -/
theorem getStep_eq {s : GetBitContext} {op : GetOp} (hop : op.Valid) (h : HasBits s op.width)
    {number : Nat} (hnumber : number < 2 ^ op.width)
    (hbits : bits config.order op.width number =
      slice (bitsOfBytes config.order s.buffer) s.index op.width) :
    getStep config s op = (op.value number, { s with index := s.index + op.width }) := by
  have hsame : ∀ {r : Nat × GetBitContext}, Gets config.order s op.width r →
      r.1 = number ∧ r.2 = { s with index := s.index + op.width } :=
    fun hr => ⟨bits_injective hr.value_lt hnumber (hr.bits_eq.trans hbits.symm), hr.context_eq⟩
  cases op with
  | getBits n =>
    obtain ⟨hvalue, hcontext⟩ := hsame (getBits_gets config hop.2 h)
    exact Prod.ext (congrArg (Nat.cast : Nat → Int) hvalue) hcontext
  | getBitsLong n =>
    obtain ⟨hvalue, hcontext⟩ := hsame (getBitsLong_gets config hop h)
    exact Prod.ext (congrArg (Nat.cast : Nat → Int) hvalue) hcontext
  | getBits64 n =>
    obtain ⟨hvalue, hcontext⟩ := hsame (getBits64_gets config hop h)
    exact Prod.ext (congrArg (Nat.cast : Nat → Int) hvalue) hcontext
  | getSbitsLong n =>
    obtain ⟨hvalue, hcontext⟩ := hsame (getBitsLong_gets config hop h)
    show GetBits.getSbitsLong config s n = _
    have hsigned : getSbitsLong config s n =
        (Int.bmod (GetBits.getBitsLong config s n).1 (2 ^ n), (GetBits.getBitsLong config s n).2) :=
      getSbitsLong_eq hop h
    rw [hsigned]
    exact Prod.ext (congrArg (fun m : Nat => Int.bmod m (2 ^ n)) hvalue) hcontext

variable {fields : List (GetOp × Nat)}

/-- Calls get the numbers of which the stream is made up, from where it has been read to;
the induction is on the calls. -/
theorem getAll_eq {s : GetBitContext} {stream : List Bool}
    (hvalid : ∀ f ∈ fields, f.1.Valid ∧ f.2 < 2 ^ f.1.width)
    (hstream : fields.flatMap (fun f => bits config.order f.1.width f.2) = stream)
    (hbits : slice (bitsOfBytes config.order s.buffer) s.index stream.length = stream)
    (h : HasBits s stream.length) :
    getAll config s (fields.map Prod.fst) = fields.map fun f => f.1.value f.2 := by
  induction fields generalizing s stream with
  | nil => rfl
  | cons f fields ih =>
    obtain ⟨hop, hnumber⟩ := hvalid f List.mem_cons_self
    rw [List.flatMap_cons] at hstream
    subst hstream
    rw [List.length_append, length_bits] at hbits h
    rw [slice_add] at hbits
    have hlength : (slice (bitsOfBytes config.order s.buffer) s.index f.1.width).length =
        (bits config.order f.1.width f.2).length := by
      have hbuffer := h.buffer
      rw [length_slice, length_bitsOfBytes, length_bits]
      lia
    obtain ⟨hfirst, hrest⟩ := List.append_inj hbits hlength
    have hstep := getStep_eq hop (h.mono (Nat.le_add_right _ _)) hnumber hfirst.symm
    rw [List.map_cons, List.map_cons, getAll, hstep,
      ih (fun g hg => hvalid g (List.mem_cons_of_mem f hg)) rfl hrest (h.after (Nat.le_refl _))]

/-! ## The round trip -/

/-- How the bits of a call are read: by a call of the same width, for which they are a
number; or, if they have been copied, by any calls that together get them. -/
inductive ReadBy : PutOp → List (GetOp × Nat) → Prop
  | putBits {n value : Nat} {op : GetOp} (h : op.width = n) : ReadBy (.putBits n value) [(op, value)]
  | putBits32 {value : Nat} {op : GetOp} (h : op.width = 32) : ReadBy (.putBits32 value) [(op, value)]
  | putBits64 {n value : Nat} {op : GetOp} (h : op.width = n) :
      ReadBy (.putBits64 n value) [(op, value)]
  | putSbits {n : Nat} {value : Int} {op : GetOp} (h : op.width = n) :
      ReadBy (.putSbits n value) [(op, (value % 2 ^ n).toNat)]
  | copyBits {src : Bytes} {length : Nat} {fields : List (GetOp × Nat)}
      (hnumber : ∀ f ∈ fields, f.2 < 2 ^ f.1.width)
      (hbits : fields.flatMap (fun f => bits .msbFirst f.1.width f.2) =
        (bitsOfBytes .msbFirst src).take length) :
      ReadBy (.copyBits src length) fields

theorem emod_two_pow_lt (n : Nat) (value : Int) : (value % 2 ^ n).toNat < 2 ^ n := by
  have hmod := Int.emod_lt_of_pos value (show (0 : Int) < 2 ^ n by positivity)
  have hnonneg := Int.emod_nonneg value (show (2 : Int) ^ n ≠ 0 by positivity)
  zify
  rw [Int.toNat_of_nonneg hnonneg]
  exact hmod

theorem ReadBy.bits_eq (h : ReadBy op fields) (hop : op.Valid order) :
    fields.flatMap (fun f => bits order f.1.width f.2) = op.written order ∧
      ∀ f ∈ fields, f.2 < 2 ^ f.1.width := by
  have hone : ∀ f : GetOp × Nat,
      [f].flatMap (fun f => bits order f.1.width f.2) = bits order f.1.width f.2 :=
    fun f => List.append_nil _
  cases h with
  | putBits h =>
    subst h
    exact ⟨hone _, fun f hf => List.mem_singleton.mp hf ▸ hop.2⟩
  | putBits32 h =>
    refine ⟨(hone _).trans (by rw [h]; rfl), fun f hf => ?_⟩
    rw [List.mem_singleton.mp hf, h]
    exact hop
  | putBits64 h =>
    subst h
    exact ⟨hone _, fun f hf => List.mem_singleton.mp hf ▸ hop.2⟩
  | putSbits h =>
    subst h
    exact ⟨hone _, fun f hf => List.mem_singleton.mp hf ▸ emod_two_pow_lt _ _⟩
  | copyBits hnumber hbits =>
    obtain ⟨rfl, -⟩ := hop
    exact ⟨hbits, hnumber⟩

theorem flatMap_flatten_reads {reads : List (List (GetOp × Nat))}
    (hops : ∀ op ∈ ops, op.Valid order) (h : List.Forall₂ ReadBy ops reads) :
    reads.flatten.flatMap (fun f => bits order f.1.width f.2) = ops.flatMap (PutOp.written order) ∧
      ∀ f ∈ reads.flatten, f.2 < 2 ^ f.1.width := by
  induction h with
  | nil => exact ⟨rfl, fun f hf => nomatch hf⟩
  | @cons op fields ops reads hread _ ih =>
    obtain ⟨hbits, hlt⟩ := hread.bits_eq (hops op List.mem_cons_self)
    obtain ⟨hrest, hltRest⟩ := ih fun o ho => hops o (List.mem_cons_of_mem op ho)
    refine ⟨?_, fun f hf => ?_⟩
    · rw [List.flatten_cons, List.flatMap_append, hbits, hrest, List.flatMap_cons]
    · rcases List.mem_append.mp hf with hf | hf
      · exact hlt f hf
      · exact hltRest f hf

theorem initGetBits_eq {buffer : Bytes} {bitSize : Int} {g : GetBitContext}
    (h : initGetBits buffer bitSize = (g, 0)) :
    0 ≤ bitSize ∧ g = ⟨buffer, 0, bitSize.toNat, bitSize.toNat + 8⟩ := by
  unfold initGetBits at h
  split at h
  · have herror : Libavutil.AVERROR.invalidData.toInt ≠ 0 := by decide
    exact absurd (congrArg Prod.snd h) herror
  · next hsize =>
    exact ⟨Int.not_lt.mp (not_or.mp hsize).2, (congrArg Prod.fst h).symm⟩

/-- In both orders, and however the calls of the writer and the reader are mixed: calls
whose bits fit the buffer find room for them, the count is that of their bits, and a reader
of the flushed buffer gets the numbers back. -/
theorem getAll_putBits (small unchecked : Bool) {buffer : Bytes} {s : PutBitContext}
    (hinit : initPutBits buffer = some s) {ops : List PutOp} (hops : ∀ op ∈ ops, op.Valid order)
    (hfits : (ops.map PutOp.width).sum ≤ 8 * buffer.length) :
    ∃ t u, ops.foldlM (putStep order small) s = some t ∧ flushPutBits order t = some u ∧
      u.log = [] ∧ putBitsCount t = (ops.map PutOp.width).sum ∧
      ∀ (padding : Bytes) (bitSize : Int) (g : GetBitContext),
        initGetBits (u.buf ++ padding) bitSize = (g, 0) →
        ((ops.map PutOp.width).sum : Int) ≤ bitSize →
        ∀ reads : List (List (GetOp × Nat)), List.Forall₂ ReadBy ops reads →
          (∀ f ∈ reads.flatten, f.1.Valid) →
          getAll ⟨order, unchecked⟩ g (reads.flatten.map Prod.fst) =
            reads.flatten.map fun f => f.1.value f.2 := by
  obtain ⟨t, hrun, ht⟩ := foldlM_putStep_writes small hops (writes_init hinit)
    (by rw [List.length_nil]; lia)
  have hlength : ([] ++ ops.flatMap (PutOp.written order)).length = (ops.map PutOp.width).sum := by
    rw [List.nil_append, List.length_flatMap]
    exact congrArg List.sum (List.map_congr_left fun op hop => PutOp.length_written (hops op hop))
  obtain ⟨u, hflush, hsize, -, -, hlog, hptr, hout⟩ := ht.flushPutBits (by lia)
  rw [hlength] at hptr hout
  refine ⟨t, u, hrun, hflush, hlog, by rw [ht.putBitsCount_eq, hlength], ?_⟩
  intro padding bitSize g hg hbitSize reads hreads hvalid
  obtain ⟨hnonneg, rfl⟩ := initGetBits_eq hg
  obtain ⟨hbits, hlt⟩ := flatMap_flatten_reads hops hreads
  have hstream : slice (bitsOfBytes order (u.buf ++ padding)) 0
      (ops.flatMap (PutOp.written order)).length = ops.flatMap (PutOp.written order) := by
    have hsplit : u.buf ++ padding = u.buf.take u.bufPtr ++ (u.buf.drop u.bufPtr ++ padding) := by
      rw [← List.append_assoc, List.take_append_drop]
    rw [List.nil_append] at hlength hout
    rw [slice, List.drop_zero, hlength, hsplit, bitsOfBytes_append, List.take_append_of_le_length,
      hout]
    rw [length_bitsOfBytes, List.length_take]
    lia
  rw [List.nil_append] at hlength
  refine getAll_eq (fun f hf => ⟨hvalid f hf, hlt f hf⟩) hbits hstream ⟨?_, ?_, rfl⟩
  · show 0 + _ ≤ 8 * (u.buf ++ padding).length
    rw [List.length_append]
    lia
  · show 0 + _ ≤ bitSize.toNat
    lia

/-- Five calls, the third one of which copies eleven bits that are read in two pieces. -/
theorem getAll_putBits_mixed :
    ∃ t u, [PutOp.putBits 5 19, .putSbits 9 (-100), .copyBits [0xAB, 0xCD] 11, .putBits32 7,
        .putBits64 40 5].foldlM (putStep .msbFirst false) ⟨0, 32, List.replicate 13 0, 0, []⟩ =
          some t ∧
      flushPutBits .msbFirst t = some u ∧
      getAll ⟨.msbFirst, false⟩ ⟨u.buf ++ [], 0, 104, 112⟩
        [.getBits 5, .getSbitsLong 9, .getBits 3, .getBits 8, .getBitsLong 32, .getBits64 40] =
          [19, -100, 5, 94, 7, 5] := by
  have hinit : initPutBits (List.replicate 13 0) = some ⟨0, 32, List.replicate 13 0, 0, []⟩ := rfl
  have hops : ∀ op ∈ [PutOp.putBits 5 19, .putSbits 9 (-100), .copyBits [0xAB, 0xCD] 11,
      .putBits32 7, .putBits64 40 5], op.Valid .msbFirst := by simp [PutOp.Valid]
  obtain ⟨t, u, hrun, hflush, -, -, hread⟩ := getAll_putBits false false hinit hops (by decide)
  refine ⟨t, u, hrun, hflush, ?_⟩
  exact hread [] 104 _ rfl (by decide)
    [[(.getBits 5, 19)], [(.getSbitsLong 9, 412)], [(.getBits 3, 5), (.getBits 8, 94)],
      [(.getBitsLong 32, 7)], [(.getBits64 40, 5)]]
    (.cons (.putBits rfl) (.cons (.putSbits rfl) (.cons (.copyBits (by decide) (by decide))
      (.cons (.putBits32 rfl) (.cons (.putBits64 rfl) .nil)))))
    (by simp [GetOp.Valid])

end FFmpeg.Libavcodec.PutGetBits
