import FFmpeg.Libavcodec.PacketSideData

/-!
# Merged side data splits back

What the merge writes behind the payload is read back from the end, element by element.  On any
bytes the two loops of the split read the same elements, so the second one has a result whenever
the first one has found its end.
-/

namespace FFmpeg.Libavcodec.PacketSideData

open Common Libavutil

variable {bytes front : Bytes} {sd : AVPacketSideData} {sideData : List AVPacketSideData}

/-! ## Reading -/

theorem readAt_of_le {p n : Nat} (h : p + n ≤ bytes.length) :
    readAt bytes p n = some (slice bytes p n) := by
  have hpos : 0 ≤ (p : Int) ∧ (p : Int).toNat + n ≤ bytes.length := ⟨Int.natCast_nonneg p, h⟩
  exact if_pos hpos

theorem exists_readAt {p : Int} {n : Nat} (hp : 0 ≤ p) (h : p + n ≤ bytes.length) :
    ∃ read, readAt bytes p n = some read ∧ read.length = n := by
  obtain ⟨p, rfl⟩ := Int.eq_ofNat_of_zero_le hp
  refine ⟨_, readAt_of_le (by lia), ?_⟩
  rw [length_slice]
  lia

theorem readAt_append {mid back : Bytes} {p : Int} {n : Nat} (hp : p = front.length)
    (hn : n = mid.length) : readAt (front ++ (mid ++ back)) p n = some mid := by
  subst hp hn
  rw [readAt_of_le (by simp)]
  simp [slice]

/-! ## The elements of a packet -/

/-- An element with its size and its tag, as the merge writes it. -/
def record (sd : AVPacketSideData) (last : Bool) : Bytes :=
  sd.data.take sd.size ++ (putBE 4 sd.size ++ [UInt8.ofNat (sd.type ||| if last then 128 else 0)])

/-- The elements from the last one to the first. -/
def records : List AVPacketSideData → Bytes
  | [] => []
  | sd :: sideData => records sideData ++ record sd sideData.isEmpty

/-- An element that can be merged. -/
structure Mergeable (sd : AVPacketSideData) : Prop where
  size_le : sd.size ≤ sd.data.length
  type_lt : sd.type < 128

/-- The length of the elements in the packet. -/
def sizes (sideData : List AVPacketSideData) : Nat := (sideData.map fun sd => sd.size + 5).sum

theorem Mergeable.length_record (h : Mergeable sd) (last : Bool) :
    (record sd last).length = sd.size + 5 := by
  have hsize := h.size_le
  simp [record]
  lia

theorem length_records (h : ∀ sd ∈ sideData, Mergeable sd) :
    (records sideData).length = sizes sideData := by
  induction sideData with
  | nil => rfl
  | cons sd sideData ih =>
    rw [records, List.length_append, ih fun sd hsd => h sd (List.mem_cons_of_mem _ hsd),
      (h sd List.mem_cons_self).length_record]
    simp [sizes]
    lia

/-- The element that ends at a pointer: its size is there, with its tag behind it. -/
structure EntryAt (bytes : Bytes) (p : Int) (sd : AVPacketSideData) (tag : Nat) : Prop where
  sizeField : ∃ read, readAt bytes p 4 = some read ∧ getBE read = sd.size
  tagField : ∃ read, readAt bytes (p + 4) 1 = some read ∧ getBE read = tag
  fits : sd.size ≤ 2 ^ 31 - 1 - 5
  room : sd.size ≤ p
  data : readAt bytes (p - sd.size) sd.size = some sd.data
  type : tag &&& 127 = sd.type

/-- The elements that are found from a pointer on: the last one has the mark. -/
inductive Entries (bytes : Bytes) : Int → List AVPacketSideData → Prop
  | last {p : Int} {sd : AVPacketSideData} {tag : Nat} (hentry : EntryAt bytes p sd tag)
      (hmark : tag &&& 128 ≠ 0) : Entries bytes p [sd]
  | next {p : Int} {sd : AVPacketSideData} {tag : Nat} {sideData : List AVPacketSideData}
      (hentry : EntryAt bytes p sd tag) (hmark : tag &&& 128 = 0) (hroom : sd.size + 5 ≤ p)
      (hrest : Entries bytes (p - (sd.size + 5)) sideData) : Entries bytes p (sd :: sideData)

variable {p : Int} {fuel i count : Nat}

theorem Entries.ne_nil (h : Entries bytes p sideData) : sideData ≠ [] := by
  cases h <;> simp

theorem Entries.length_le (h : Entries bytes p sideData) : sideData.length ≤ p + 1 := by
  induction h with
  | last hentry hmark =>
    have hroom := hentry.room
    simp
    lia
  | next hentry hmark hroom hrest ih =>
    simp
    lia

theorem scanLoop_entries (h : Entries bytes p sideData) (hfuel : sideData.length ≤ fuel) :
    scanLoop bytes fuel p i = some (some (i + sideData.tail.length)) := by
  induction h generalizing fuel i with
  | @last p sd tag hentry hmark =>
    obtain ⟨size, hsize, hget⟩ := hentry.sizeField
    obtain ⟨mark, htag, hmarked⟩ := hentry.tagField
    have hfits := hentry.fits
    have hroom := hentry.room
    obtain ⟨fuel, rfl⟩ := Nat.exists_eq_succ_of_ne_zero (Nat.one_le_iff_ne_zero.mp hfuel)
    rw [scanLoop, hsize, htag]
    simp only [Option.bind_eq_bind, Option.bind_some, hget, hmarked]
    rw [if_neg (by lia), if_pos hmark]
    rfl
  | @next p sd tag sideData hentry hmark hnext hrest ih =>
    obtain ⟨size, hsize, hget⟩ := hentry.sizeField
    obtain ⟨mark, htag, hmarked⟩ := hentry.tagField
    have hfits := hentry.fits
    have hlength := List.length_pos_iff.mpr hrest.ne_nil
    rw [List.length_cons] at hfuel
    obtain ⟨fuel, rfl⟩ := Nat.exists_eq_succ_of_ne_zero (show fuel ≠ 0 by lia)
    rw [scanLoop, hsize, htag]
    simp only [Option.bind_eq_bind, Option.bind_some, hget, hmarked]
    rw [if_neg (by lia), if_neg (not_not.mpr hmark), if_neg (by lia), ih (by lia)]
    simp
    lia

/-- On any bytes the first loop stops: it finds elements, or it finds that there are none. -/
theorem scanLoop_cases (hp : 0 ≤ p) (hroom : p + 5 ≤ bytes.length) (hfuel : p < fuel) :
    scanLoop bytes fuel p i = some none ∨ ∃ sideData, Entries bytes p sideData := by
  induction fuel generalizing p i with
  | zero => lia
  | succ fuel ih =>
    obtain ⟨size, hsize, -⟩ := @exists_readAt bytes p 4 hp (by lia)
    obtain ⟨mark, htag, -⟩ := @exists_readAt bytes (p + 4) 1 (by lia) (by lia)
    rw [scanLoop, hsize, htag]
    simp only [Option.bind_eq_bind, Option.bind_some]
    by_cases hfits : 2 ^ 31 - 1 - 5 < getBE size ∨ p < getBE size
    · exact .inl (if_pos hfits)
    · rw [if_neg hfits]
      obtain ⟨data, hdata, -⟩ := @exists_readAt bytes (p - getBE size) (getBE size) (by lia)
        (by lia)
      have hentry : EntryAt bytes p ⟨data, getBE size, getBE mark &&& 127⟩ (getBE mark) :=
        ⟨⟨size, hsize, rfl⟩, ⟨mark, htag, rfl⟩, by dsimp only; lia, by dsimp only; lia, hdata, rfl⟩
      by_cases hmark : getBE mark &&& 128 ≠ 0
      · exact .inr ⟨_, .last hentry hmark⟩
      · rw [if_neg hmark]
        by_cases hnext : p < getBE size + 5
        · exact .inl (if_pos hnext)
        · rw [if_neg hnext]
          rcases ih (p := p - (getBE size + 5)) (i := i + 1) (by lia) (by lia) (by lia) with
            hnone | ⟨sideData, hrest⟩
          · exact .inl hnone
          · exact .inr ⟨_, .next hentry (not_not.mp hmark) (by dsimp only; lia) hrest⟩

/-- An element as the split copies it. -/
def AVPacketSideData.padded (sd : AVPacketSideData) : AVPacketSideData :=
  { sd with data := sd.data ++ List.replicate avInputBufferPaddingSize 0 }

/-- The second loop copies the elements, or it finds no memory for one of them. -/
theorem splitLoop_entries {malloc : Nat → Malloc} {pktSize : Int}
    {written : List AVPacketSideData} (h : Entries bytes p sideData)
    (hfuel : sideData.length ≤ fuel) (hcount : i + sideData.length ≤ count) :
    (∃ size left, splitLoop malloc bytes count fuel p i pktSize written =
        some (.error .enomem, size, left) ∧
      ∃ j, ∃ sd ∈ sideData, avMalloc (malloc j) (sd.size + avInputBufferPaddingSize) = none) ∨
    splitLoop malloc bytes count fuel p i pktSize written = some (.ok (),
      pktSize - sizes sideData, written ++ sideData.map AVPacketSideData.padded) := by
  induction h generalizing fuel i pktSize written with
  | @last p sd tag hentry hmark =>
    obtain ⟨size, hsize, hget⟩ := hentry.sizeField
    obtain ⟨mark, htag, hmarked⟩ := hentry.tagField
    have hfits := hentry.fits
    have hroom := hentry.room
    rw [List.length_singleton] at hfuel hcount
    obtain ⟨fuel, rfl⟩ := Nat.exists_eq_succ_of_ne_zero (Nat.one_le_iff_ne_zero.mp hfuel)
    rw [splitLoop, hsize, htag]
    simp only [Option.bind_eq_bind, Option.bind_some, hget, hmarked]
    rw [if_neg (by lia)]
    cases hmalloc : avMalloc (malloc i) (sd.size + avInputBufferPaddingSize) with
    | none => exact .inl ⟨_, _, rfl, i, sd, List.mem_singleton_self sd, hmalloc⟩
    | some block =>
      simp only [hentry.data, Option.bind_some, if_pos hmark, hentry.type]
      exact .inr (by simp [sizes, AVPacketSideData.padded])
  | @next p sd tag sideData hentry hmark hnext hrest ih =>
    obtain ⟨size, hsize, hget⟩ := hentry.sizeField
    obtain ⟨mark, htag, hmarked⟩ := hentry.tagField
    have hfits := hentry.fits
    have hroom := hentry.room
    rw [List.length_cons] at hfuel hcount
    obtain ⟨fuel, rfl⟩ := Nat.exists_eq_succ_of_ne_zero (show fuel ≠ 0 by lia)
    rw [splitLoop, hsize, htag]
    simp only [Option.bind_eq_bind, Option.bind_some, hget, hmarked]
    rw [if_neg (by lia)]
    cases hmalloc : avMalloc (malloc i) (sd.size + avInputBufferPaddingSize) with
    | none => exact .inl ⟨_, _, rfl, i, sd, List.mem_cons_self, hmalloc⟩
    | some block =>
      simp only [hentry.data, Option.bind_some, if_neg (not_not.mpr hmark), hentry.type]
      have hrest := @ih fuel (i + 1) (pktSize - (sd.size + 5)) (written ++ [sd.padded]) (by lia)
        (by lia)
      rcases hrest with ⟨size, left, hloop, j, sd', hmem, hnone⟩ | hloop
      · exact .inl ⟨size, left, hloop, j, sd', List.mem_cons_of_mem _ hmem, hnone⟩
      · refine .inr (hloop.trans ?_)
        simp [sizes]
        lia

/-! ## What the merge writes -/

/-- An element with its content only. -/
def AVPacketSideData.content (sd : AVPacketSideData) : AVPacketSideData :=
  { sd with data := sd.data.take sd.size }

theorem tag_and (type : Fin 128) (last : Bool) :
    (type.val ||| if last then 128 else 0) % 256 &&& 127 = type.val ∧
      ((type.val ||| if last then 128 else 0) % 256 &&& 128 ≠ 0 ↔ last = true) := by
  revert type last
  decide

/-- A record is read back at its size. -/
theorem Mergeable.entryAt (h : Mergeable sd) (hsize : sd.size ≤ 2 ^ 31 - 1 - 5) (last : Bool)
    {back : Bytes} (hp : p = front.length + sd.size) :
    EntryAt (front ++ (record sd last ++ back)) p sd.content
      ((sd.type ||| if last then 128 else 0) % 256) where
  sizeField := by
    refine ⟨putBE 4 sd.size, ?_, getBE_putBE_of_lt (by lia)⟩
    have hsplit : front ++ (record sd last ++ back) = (front ++ sd.data.take sd.size) ++
        (putBE 4 sd.size ++ ([UInt8.ofNat (sd.type ||| if last then 128 else 0)] ++ back)) := by
      simp [record]
    rw [hsplit]
    refine readAt_append ?_ (length_putBE 4 sd.size).symm
    rw [hp, List.length_append, List.length_take, Nat.min_eq_left h.size_le, Nat.cast_add]
  tagField := by
    refine ⟨[UInt8.ofNat (sd.type ||| if last then 128 else 0)], ?_, ?_⟩
    · have hsplit : front ++ (record sd last ++ back) =
          (front ++ (sd.data.take sd.size ++ putBE 4 sd.size)) ++
            ([UInt8.ofNat (sd.type ||| if last then 128 else 0)] ++ back) := by
        simp [record]
      rw [hsplit]
      refine readAt_append ?_ rfl
      have hlength := h.size_le
      rw [hp]
      simp
      lia
    · show (UInt8.ofNat (sd.type ||| if last then 128 else 0)).toNat * 1 + 0 = _
      rw [UInt8.toNat_ofNat', Nat.mul_one, Nat.add_zero]
  fits := hsize
  room := by
    show (sd.size : Int) ≤ p
    lia
  data := by
    have hsplit : front ++ (record sd last ++ back) = front ++ (sd.data.take sd.size ++
        (putBE 4 sd.size ++ ([UInt8.ofNat (sd.type ||| if last then 128 else 0)] ++ back))) := by
      simp [record]
    have hlength := h.size_le
    rw [hsplit]
    refine readAt_append ?_ ?_
    · show p - (sd.size : Int) = _
      lia
    · show sd.size = (sd.data.take sd.size).length
      rw [List.length_take, Nat.min_eq_left h.size_le]
  type := (tag_and ⟨sd.type, h.type_lt⟩ last).1

/-- The elements are found from the size of the first one on, by induction on the elements. -/
theorem entries_records {back : Bytes} (h : ∀ sd ∈ sideData, Mergeable sd)
    (hsize : sizes sideData ≤ 2 ^ 31 - 1) (hne : sideData ≠ [])
    (hp : p = front.length + sizes sideData - 5) :
    Entries (front ++ (records sideData ++ back)) p
      (sideData.map AVPacketSideData.content) := by
  induction sideData generalizing p back with
  | nil => exact absurd rfl hne
  | cons sd sideData ih =>
    have hsd := h sd List.mem_cons_self
    have hrest : ∀ sd ∈ sideData, Mergeable sd := fun sd hmem => h sd (List.mem_cons_of_mem _ hmem)
    have hlength := length_records hrest
    have hsizes : sizes (sd :: sideData) = sd.size + 5 + sizes sideData := rfl
    have hsplit : front ++ (records (sd :: sideData) ++ back) =
        (front ++ records sideData) ++ (record sd sideData.isEmpty ++ back) := by
      simp [records]
    have hentry := @Mergeable.entryAt (front ++ records sideData) sd p hsd (by lia)
      sideData.isEmpty back (by rw [List.length_append]; lia)
    have hmark := (tag_and ⟨sd.type, hsd.type_lt⟩ sideData.isEmpty).2
    rw [hsplit, List.map_cons]
    cases hempty : sideData with
    | nil =>
      rw [hempty] at hentry hmark
      exact .last hentry (hmark.mpr rfl)
    | cons sd' tail =>
      rw [← hempty]
      have hmarked : sideData.isEmpty = false := by rw [hempty]; rfl
      refine .next hentry ?_ ?_ ?_
      · by_contra hne
        exact absurd (hmark.mp hne) (by rw [hmarked]; exact Bool.false_ne_true)
      · have hpos : 5 ≤ sizes sideData := by
          rw [hempty]
          simp [sizes]
          lia
        show (sd.size : Int) + 5 ≤ p
        lia
      · rw [List.append_assoc]
        refine ih hrest (by lia) (by rw [hempty]; simp) ?_
        show p - (sd.size + 5) = _
        lia

/-- What has been written into a block of so many bytes. -/
structure Wrote (w : Bytes × Nat) (content : Bytes) (total : Nat) : Prop where
  pos : w.2 = content.length
  front : w.1.take w.2 = content
  length : w.1.length = total

variable {w : Bytes × Nat}

theorem Wrote.put {content src : Bytes} {total : Nat} (h : Wrote w content total)
    (hroom : content.length + src.length ≤ total) :
    ∃ w', putBuffer w src = some w' ∧ Wrote w' (content ++ src) total := by
  have hpos := h.pos
  have hlength := h.length
  refine ⟨_, if_pos (by lia), ?_, ?_, ?_⟩
  · rw [List.length_append]
    dsimp only
    lia
  · dsimp only
    rw [take_overwrite (by lia), h.front]
  · dsimp only
    rw [length_overwrite_of_le (by lia), hlength]

/-- The loop writes the elements from the last one to the first. -/
theorem Wrote.mergeLoop {content : Bytes} {total elems : Nat} (h : ∀ sd ∈ sideData, Mergeable sd)
    (helems : elems = sideData.length) {array : List AVPacketSideData}
    (harray : array.take elems = sideData) (hi : i ≤ elems)
    (hw : Wrote w (content ++ records (sideData.drop i)) total)
    (hroom : content.length + sizes sideData ≤ total) :
    ∃ w', mergeLoop array elems i w = some w' ∧ Wrote w' (content ++ records sideData) total := by
  induction i generalizing w with
  | zero => exact ⟨w, rfl, hw⟩
  | succ i ih =>
    have hlt : i < sideData.length := by lia
    have hsd := h _ (List.getElem_mem hlt)
    have hget : array[i]? = some sideData[i] := by
      rw [← List.getElem?_eq_getElem hlt, ← harray, List.getElem?_take, if_pos (by lia)]
    have hdrop : sideData.drop i = sideData[i] :: sideData.drop (i + 1) :=
      List.drop_eq_getElem_cons hlt
    have hread : readAt sideData[i].data 0 sideData[i].size =
        some (sideData[i].data.take sideData[i].size) := by
      have hsize := hsd.size_le
      exact readAt_of_le (show 0 + _ ≤ _ by lia)
    have hrecords : records (sideData.drop i) = records (sideData.drop (i + 1)) ++
        record sideData[i] (sideData.drop (i + 1)).isEmpty := by
      rw [hdrop, records]
    have hlast : (sideData.drop (i + 1)).isEmpty = decide (i + 1 = elems) := by
      rw [Bool.eq_iff_iff, List.isEmpty_iff, List.drop_eq_nil_iff, decide_eq_true_iff]
      lia
    have hmem : ∀ sd ∈ sideData.drop i, Mergeable sd :=
      fun sd hsd => h sd (List.mem_of_mem_drop hsd)
    have htotal : sizes (sideData.drop i) ≤ sizes sideData :=
      ((List.drop_sublist i sideData).map _).sum_le_sum (fun _ _ => Nat.zero_le _)
    have hlength := length_records hmem
    rw [hrecords, List.length_append, record, List.length_append, List.length_append] at hlength
    obtain ⟨w₁, hput₁, hw₁⟩ := hw.put
      (show _ + (sideData[i].data.take sideData[i].size).length ≤ total by
        rw [List.length_append]
        lia)
    obtain ⟨w₂, hput₂, hw₂⟩ := hw₁.put (show _ + (putBE 4 sideData[i].size).length ≤ total by
      rw [List.length_append, List.length_append]
      lia)
    obtain ⟨w₃, hput₃, hw₃⟩ := hw₂.put
      (show _ + [UInt8.ofNat (sideData[i].type |||
        if i + 1 = elems then 128 else 0)].length ≤ total by
      rw [List.length_append, List.length_append, List.length_append, List.length_singleton]
      rw [List.length_singleton] at hlength
      lia)
    have hthree : Wrote w₃ (content ++ records (sideData.drop i)) total := by
      rw [hrecords, record, hlast]
      simpa [List.append_assoc] using hw₃
    obtain ⟨w', hloop, hwrote⟩ := ih (by lia) hthree
    refine ⟨w', ?_, hwrote⟩
    rw [PacketSideData.mergeLoop, hget]
    simp only [Option.bind_eq_bind, Option.bind_some, hread, hput₁, hput₂, hput₃]
    exact hloop

/-! ## Packets -/

/-- The side data of a packet. -/
def AVPacket.elements (pkt : AVPacket) : List AVPacketSideData :=
  (pkt.sideData.getD []).take pkt.sideDataElems

/-- A packet with side data whose merged size fits an `int`. -/
structure MergeablePacket (pkt : AVPacket) : Prop where
  size_nonneg : 0 ≤ pkt.size
  size_le : pkt.size ≤ pkt.data.length
  elems_pos : 0 < pkt.sideDataElems
  elems_le : pkt.sideDataElems ≤ avPktDataNb
  elems : pkt.elements.length = pkt.sideDataElems
  mergeable : ∀ sd ∈ pkt.elements, Mergeable sd
  fits : pkt.size + 8 + avInputBufferPaddingSize + sizes pkt.elements ≤ 2 ^ 31 - 1

/-- No allocation fails. -/
def Gives (malloc : Malloc) : Prop := ∀ size, (malloc size).isSome

theorem Gives.avMalloc {malloc : Malloc} (h : Gives malloc) {size : Nat}
    (hsize : size ≤ 2 ^ 31 - 1) : ∃ block, avMalloc malloc size = some block := by
  obtain ⟨block, hblock⟩ := Option.isSome_iff_exists.mp (h size)
  exact ⟨block.val, by rw [Libavutil.avMalloc, if_neg (by lia), hblock]; rfl⟩

variable {pkt : AVPacket} {block : Bytes}

theorem MergeablePacket.array (h : MergeablePacket pkt) :
    ∃ array, pkt.sideData = some array ∧ array.take pkt.sideDataElems = pkt.elements := by
  have hpos := h.elems_pos
  have helems := h.elems
  cases hside : pkt.sideData with
  | none =>
    simp [AVPacket.elements, hside] at helems
    lia
  | some array => exact ⟨array, rfl, by rw [AVPacket.elements, hside]; rfl⟩

theorem MergeablePacket.payload_length (h : MergeablePacket pkt) :
    (pkt.payload.length : Int) = pkt.size := by
  have hnonneg := h.size_nonneg
  have hle := h.size_le
  rw [AVPacket.payload, List.length_take]
  lia

/-- The merged packet: the payload, the elements and the marker. -/
theorem MergeablePacket.mergeInto (h : MergeablePacket pkt) {array : List AVPacketSideData}
    (harray : array.take pkt.sideDataElems = pkt.elements)
    (hblock : (block.length : Int) = pkt.size + 8 + avInputBufferPaddingSize + sizes pkt.elements) :
    ∃ merged, mergeInto pkt array block = some merged ∧
      merged.payload = pkt.payload ++ (records pkt.elements ++ putBE 8 ffMergeMarker) ∧
      merged.size = pkt.size + 8 + sizes pkt.elements ∧ merged.sideDataElems = 0 := by
  have hnonneg := h.size_nonneg
  have hsize := h.size_le
  have hpadding : avInputBufferPaddingSize = 64 := rfl
  have hpayload := h.payload_length
  have hlength := length_records h.mergeable
  have hread : readAt pkt.data 0 pkt.size.toNat = some pkt.payload :=
    readAt_of_le (show 0 + _ ≤ _ by lia)
  have hstart : Wrote (block, 0) [] block.length := ⟨rfl, List.take_zero, rfl⟩
  obtain ⟨w₁, hput₁, hw₁⟩ := hstart.put
    (show ([] : Bytes).length + pkt.payload.length ≤ block.length by
      rw [List.length_nil]
      lia)
  rw [List.nil_append] at hw₁
  have hnone : records (pkt.elements.drop pkt.sideDataElems) = [] := by
    rw [← h.elems, List.drop_length]
    rfl
  obtain ⟨w₂, hloop, hw₂⟩ := Wrote.mergeLoop h.mergeable h.elems.symm harray le_rfl
    (by rw [hnone, List.append_nil]; exact hw₁) (by lia)
  obtain ⟨w₃, hput₃, hw₃⟩ := hw₂.put
    (show _ + (putBE 8 ffMergeMarker).length ≤ block.length by
      rw [List.length_append, length_putBE]
      lia)
  have hpos := hw₃.pos
  rw [List.length_append, List.length_append, length_putBE] at hpos
  obtain ⟨w₄, hput₄, hw₄⟩ := hw₃.put
    (show _ + (List.replicate avInputBufferPaddingSize (0 : UInt8)).length ≤ block.length by
      rw [List.length_append, List.length_append, length_putBE, List.length_replicate]
      lia)
  have hmerged : PacketSideData.mergeInto pkt array block = some
      ⟨w₄.1, (block.length : Int) - avInputBufferPaddingSize, none, 0⟩ := by
    unfold PacketSideData.mergeInto
    rw [hread]
    simp only [Option.bind_eq_bind, Option.bind_some, hput₁, hloop, hput₃, hput₄]
    rw [if_neg (by lia)]
  refine ⟨_, hmerged, ?_, by dsimp only; lia, rfl⟩
  have hfront := congrArg (List.take w₃.2) hw₄.front
  have hpos₄ := hw₄.pos
  rw [List.length_append, ← hw₃.pos] at hpos₄
  rw [List.take_take, Nat.min_eq_left (by lia), List.take_left' hw₃.pos.symm] at hfront
  rw [AVPacket.payload]
  dsimp only
  rw [show ((block.length : Int) - avInputBufferPaddingSize).toNat = w₃.2 by lia, hfront,
    List.append_assoc]

theorem MergeablePacket.avPacketMergeSideData (h : MergeablePacket pkt) {malloc : Malloc}
    (hmalloc : Gives malloc) :
    ∃ merged, avPacketMergeSideData malloc pkt = some (.ok true, merged) ∧
      merged.payload = pkt.payload ++ (records pkt.elements ++ putBE 8 ffMergeMarker) ∧
      merged.size = pkt.size + 8 + sizes pkt.elements ∧ merged.sideDataElems = 0 := by
  obtain ⟨array, hside, harray⟩ := h.array
  have hnonneg := h.size_nonneg
  have hfits := h.fits
  have hsum : (((array.take pkt.sideDataElems).map fun sd => (sd.size : Int) + 5).sum) =
      sizes pkt.elements := by
    rw [harray, sizes, Nat.cast_list_sum, List.map_map]
    rfl
  obtain ⟨size, hsize⟩ := Int.eq_ofNat_of_zero_le (show 0 ≤ pkt.size + 8 +
    avInputBufferPaddingSize + sizes pkt.elements by lia)
  obtain ⟨block, hblock⟩ := hmalloc.avMalloc (show size ≤ 2 ^ 31 - 1 by lia)
  obtain ⟨merged, hmerged, hspec⟩ := h.mergeInto harray
    (show (block.length : Int) = _ by rw [(length_of_avMalloc hblock).1, hsize])
  refine ⟨merged, ?_, hspec⟩
  unfold PacketSideData.avPacketMergeSideData
  rw [if_pos h.elems_pos.ne', hside]
  simp only [Option.bind_eq_bind, Option.bind_some, hsum, hsize]
  rw [if_neg (by lia)]
  simp only [Int.toNat_natCast, hblock, hmerged, Option.bind_some]

variable {mallocArray : Malloc}

/-- What the copying of the elements does: without memory for an element the split fails. -/
theorem splitInto_entries {malloc : Nat → Malloc}
    (h : Entries pkt.payload (pkt.size - 8 - 5) sideData) (hsize : 12 < pkt.size) :
    (∃ out, splitInto mallocArray malloc pkt sideData.length = some (.error .erange, out) ∧
      avPktDataNb < sideData.length ∧ out = pkt) ∨
    (∃ out, splitInto mallocArray malloc pkt sideData.length = some (.error .enomem, out) ∧
      out.data = pkt.data ∧ (out.sideData = none → out.size = pkt.size) ∧
      (avMalloc mallocArray (16 * sideData.length) = none ∨
        ∃ j, ∃ sd ∈ sideData, avMalloc (malloc j) (sd.size + avInputBufferPaddingSize) = none)) ∨
    splitInto mallocArray malloc pkt sideData.length = some (.ok true, { pkt with
      size := pkt.size - sizes sideData - 8
      sideData := some (sideData.map AVPacketSideData.padded)
      sideDataElems := sideData.length }) := by
  have hlength := h.length_le
  unfold splitInto
  split_ifs with hcount
  · exact .inl ⟨pkt, rfl, hcount, rfl⟩
  · refine .inr ?_
    cases harray : avMalloc mallocArray (16 * sideData.length) with
    | none => exact .inl ⟨_, rfl, rfl, fun _ => rfl, .inl rfl⟩
    | some array =>
      have hloop := @splitLoop_entries _ _ _ pkt.size.toNat 0 sideData.length malloc pkt.size [] h
        (by lia) (by lia)
      rcases hloop with ⟨size, left, hloop, hnone⟩ | hloop
      · refine .inl ⟨{ pkt with size := size, sideData := some left }, ?_, rfl, fun hsome => ?_,
          .inr hnone⟩
        · simp only [hloop, Option.bind_eq_bind, Option.bind_some]
        · exact absurd hsome (by simp)
      · refine .inr ?_
        simp only [hloop, Option.bind_eq_bind, Option.bind_some]
        simp

theorem avPacketSplitSideData_entries {malloc : Nat → Malloc}
    (h : Entries pkt.payload (pkt.size - 8 - 5) sideData) (hsize : 12 < pkt.size)
    (helems : pkt.sideDataElems = 0) {marker : Bytes}
    (hmarker : readAt pkt.payload (pkt.size - 8) 8 = some marker)
    (hmerged : getBE marker = ffMergeMarker) :
    avPacketSplitSideData mallocArray malloc pkt =
      splitInto mallocArray malloc pkt sideData.length := by
  have hlength := h.length_le
  have hpos := List.length_pos_iff.mpr h.ne_nil
  have hscan := scanLoop_entries h (show sideData.length ≤ pkt.size.toNat by lia) (i := 1)
  rw [List.length_tail, show 1 + (sideData.length - 1) = sideData.length by lia] at hscan
  unfold avPacketSplitSideData
  rw [if_pos ⟨helems, hsize⟩, hmarker]
  simp only [Option.bind_eq_bind, Option.bind_some, if_pos hmerged, hscan]

theorem content_padded (h : sd.data.length = sd.size) : sd.padded.content = sd := by
  cases sd with
  | mk data size type =>
    simp only [AVPacketSideData.padded, AVPacketSideData.content] at h ⊢
    rw [List.take_left' h]

/-- The payload and the elements are restored. -/
theorem MergeablePacket.restored (h : MergeablePacket pkt) {malloc : Malloc}
    {mallocs : Nat → Malloc} (hmalloc : Gives malloc) (hmallocArray : Gives mallocArray)
    (hmallocs : ∀ i, Gives (mallocs i)) :
    ∃ merged out, PacketSideData.avPacketMergeSideData malloc pkt = some (.ok true, merged) ∧
      avPacketSplitSideData mallocArray mallocs merged = some (.ok true, out) ∧
      out.payload = pkt.payload ∧ out.size = pkt.size ∧
      out.elements.map AVPacketSideData.content = pkt.elements.map AVPacketSideData.content := by
  obtain ⟨merged, hmerge, hpayload, hsize, helems⟩ := h.avPacketMergeSideData hmalloc
  have hnonneg := h.size_nonneg
  have hlength := h.payload_length
  have hfits := h.fits
  have hpos := h.elems_pos
  have hle := h.elems_le
  have hcount := h.elems
  have hne : pkt.elements ≠ [] := List.length_pos_iff.mp (by lia)
  have hrecords := length_records h.mergeable
  have hentries := @entries_records pkt.payload _ (merged.size - 8 - 5) (putBE 8 ffMergeMarker)
    h.mergeable (by lia) hne (by lia)
  rw [← hpayload] at hentries
  have hfive : 5 ≤ sizes pkt.elements := by
    obtain ⟨sd, rest, hcons⟩ := List.exists_cons_of_ne_nil hne
    rw [hcons]
    simp [sizes]
    lia
  have hmarker : readAt merged.payload (merged.size - 8) 8 = some (putBE 8 ffMergeMarker) := by
    have hread := @readAt_append (pkt.payload ++ records pkt.elements) (putBE 8 ffMergeMarker) []
      (merged.size - 8) 8 (by rw [List.length_append]; lia) (length_putBE 8 _).symm
    rw [hpayload]
    simpa [List.append_assoc] using hread
  have hsplit := @avPacketSplitSideData_entries _ _ mallocArray mallocs hentries (by lia) helems
    _ hmarker (getBE_putBE_of_lt (by decide))
  have hcontents : sizes (pkt.elements.map AVPacketSideData.content) = sizes pkt.elements := by
    simp [sizes, AVPacketSideData.content, Function.comp_def]
  refine ⟨merged, { merged with
    size := merged.size - sizes (pkt.elements.map AVPacketSideData.content) - 8
    sideData := some ((pkt.elements.map AVPacketSideData.content).map AVPacketSideData.padded)
    sideDataElems := (pkt.elements.map AVPacketSideData.content).length }, hmerge, ?_, ?_, ?_, ?_⟩
  · rw [hsplit]
    rcases @splitInto_entries _ _ mallocArray mallocs hentries (by lia) with
      ⟨out, -, hmany, -⟩ | ⟨out, -, -, -, hnone | ⟨j, sd, hmem, hnone⟩⟩ | hok
    · rw [List.length_map] at hmany
      lia
    · obtain ⟨block, hblock⟩ := hmallocArray.avMalloc (show
        16 * (pkt.elements.map AVPacketSideData.content).length ≤ 2 ^ 31 - 1 by
          have hnb : avPktDataNb = 30 := rfl
          rw [List.length_map]
          lia)
      rw [hblock] at hnone
      exact absurd hnone (by simp)
    · have hone : sd.size + 5 ≤ sizes (pkt.elements.map AVPacketSideData.content) :=
        List.single_le_sum (fun _ _ => Nat.zero_le _) _
          (List.mem_map_of_mem (f := fun sd : AVPacketSideData => sd.size + 5) hmem)
      obtain ⟨block, hblock⟩ := (hmallocs j).avMalloc
        (show sd.size + avInputBufferPaddingSize ≤ 2 ^ 31 - 1 by lia)
      rw [hblock] at hnone
      exact absurd hnone (by simp)
    · exact hok
  · have htake := congrArg (List.take pkt.size.toNat) hpayload
    rw [AVPacket.payload, List.take_take, Nat.min_eq_left (by lia),
      List.take_left' (by lia)] at htake
    rw [AVPacket.payload, hcontents]
    dsimp only
    rw [show merged.size - sizes pkt.elements - 8 = pkt.size by lia, htake]
  · dsimp only
    lia
  · rw [AVPacket.elements]
    dsimp only [Option.getD_some]
    rw [List.take_of_length_le (by rw [List.length_map]), List.map_map]
    refine (List.map_congr_left (g := id) fun sd hsd => ?_).trans (List.map_id _)
    obtain ⟨original, hmem, rfl⟩ := List.mem_map.mp hsd
    refine content_padded ?_
    show (original.data.take original.size).length = original.size
    rw [List.length_take, Nat.min_eq_left (h.mergeable original hmem).size_le]

/-- Any packet is split, or it is left as it is. -/
theorem avPacketSplitSideData_cases {any : AVPacket} (hany : any.size ≤ any.data.length)
    (mallocArray : Malloc) (mallocs : Nat → Malloc) :
    ∃ ret out, avPacketSplitSideData mallocArray mallocs any = some (ret, out) ∧
      (ret = .ok false ∨ ret = .error .erange ∨ out.sideData = none →
        out.data = any.data ∧ out.size = any.size) := by
  have hunchanged : ∃ ret out, some (Except.ok false, any) = some (ret, out) ∧
      (ret = .ok false ∨ ret = .error AVERROR.erange ∨ out.sideData = none →
        out.data = any.data ∧ out.size = any.size) := ⟨_, _, rfl, fun _ => ⟨rfl, rfl⟩⟩
  by_cases hlarge : any.sideDataElems = 0 ∧ 12 < any.size
  · have hlength : (any.payload.length : Int) = any.size := by
      rw [AVPacket.payload, List.length_take]
      lia
    obtain ⟨marker, hmarker, -⟩ := @exists_readAt any.payload (any.size - 8) 8 (by lia)
      (by lia)
    by_cases hmerged : getBE marker = ffMergeMarker
    · rcases @scanLoop_cases any.payload (any.size - 8 - 5) any.size.toNat 1 (by lia) (by lia)
        (by lia) with hscan | ⟨sideData, hentries⟩
      · unfold avPacketSplitSideData
        rw [if_pos hlarge, hmarker]
        simp only [Option.bind_eq_bind, Option.bind_some, if_pos hmerged, hscan]
        exact hunchanged
      · rw [avPacketSplitSideData_entries hentries hlarge.2 hlarge.1 hmarker hmerged]
        rcases @splitInto_entries _ _ mallocArray mallocs hentries hlarge.2 with
          ⟨out, hout, -, rfl⟩ | ⟨out, hout, hdata, hkept, -⟩ | hok
        · exact ⟨_, _, hout, fun _ => ⟨rfl, rfl⟩⟩
        · refine ⟨_, _, hout, fun hcase => ?_⟩
          rcases hcase with hret | hret | hnone
          · exact absurd hret (by simp)
          · exact absurd hret (by simp)
          · exact ⟨hdata, hkept hnone⟩
        · refine ⟨_, _, hok, fun hcase => ?_⟩
          rcases hcase with hret | hret | hnone
          · exact absurd hret (by simp)
          · exact absurd hret (by simp)
          · exact absurd hnone (by simp)
    · unfold avPacketSplitSideData
      rw [if_pos hlarge, hmarker]
      simp only [Option.bind_eq_bind, Option.bind_some, if_neg hmerged]
      exact hunchanged
  · unfold avPacketSplitSideData
    rw [if_neg hlarge]
    exact hunchanged

/-- **Merged side data splits back**: the payload and the elements are restored.  On any bytes the
split has a result, so it reads inside of the packet only and its assertion holds, and it leaves
the data and the size unless it has found memory for the elements. -/
theorem avPacketSplitSideData_merged {pkt : AVPacket} (h : MergeablePacket pkt)
    {malloc mallocArray : Malloc} {mallocs : Nat → Malloc} (hmalloc : Gives malloc)
    (hmallocArray : Gives mallocArray) (hmallocs : ∀ i, Gives (mallocs i)) :
    (∃ merged out, avPacketMergeSideData malloc pkt = some (.ok true, merged) ∧
      avPacketSplitSideData mallocArray mallocs merged = some (.ok true, out) ∧
      out.payload = pkt.payload ∧ out.size = pkt.size ∧
      out.elements.map AVPacketSideData.content = pkt.elements.map AVPacketSideData.content) ∧
    ∀ (any : AVPacket), any.size ≤ any.data.length →
      ∀ (mallocArray : Malloc) (mallocs : Nat → Malloc),
        ∃ ret out, avPacketSplitSideData mallocArray mallocs any = some (ret, out) ∧
          (ret = .ok false ∨ ret = .error .erange ∨ out.sideData = none →
            out.data = any.data ∧ out.size = any.size) := by
  exact ⟨h.restored hmalloc hmallocArray hmallocs,
    fun _ hany mallocArray mallocs => avPacketSplitSideData_cases hany mallocArray mallocs⟩

/-- A packet with two elements, of which one is empty. -/
def twoElements : AVPacket where
  data := [1, 2, 3]
  size := 3
  sideData := some [⟨[7, 8], 2, 11⟩, ⟨[], 0, 5⟩]
  sideDataElems := 2

theorem gives_zeroMalloc : Gives zeroMalloc := fun _ => rfl

theorem avPacketSplitSideData_merged_twoElements :
    (∃ merged out, avPacketMergeSideData zeroMalloc twoElements = some (.ok true, merged) ∧
      avPacketSplitSideData zeroMalloc (fun _ => zeroMalloc) merged = some (.ok true, out) ∧
      out.payload = [1, 2, 3] ∧ out.size = 3 ∧
      out.elements.map AVPacketSideData.content = [⟨[7, 8], 2, 11⟩, ⟨[], 0, 5⟩]) ∧
    ∀ (any : AVPacket), any.size ≤ any.data.length →
      ∀ (mallocArray : Malloc) (mallocs : Nat → Malloc),
        ∃ ret out, avPacketSplitSideData mallocArray mallocs any = some (ret, out) ∧
          (ret = .ok false ∨ ret = .error .erange ∨ out.sideData = none →
            out.data = any.data ∧ out.size = any.size) :=
  @avPacketSplitSideData_merged twoElements
    ⟨by decide, by decide, by decide, by decide, rfl, fun sd hsd => by
      rcases List.mem_cons.mp hsd with rfl | hsd
      · exact ⟨by decide, by decide⟩
      · rw [List.mem_singleton.mp hsd]
        exact ⟨by decide, by decide⟩, by decide⟩
    zeroMalloc zeroMalloc (fun _ => zeroMalloc) gives_zeroMalloc gives_zeroMalloc
    fun _ => gives_zeroMalloc

end FFmpeg.Libavcodec.PacketSideData
