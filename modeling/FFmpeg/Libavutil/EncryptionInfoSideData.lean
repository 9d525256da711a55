import FFmpeg.Libavutil.EncryptionInfo

/-!
# When init info side data is parsed safely and losslessly

The allocator leaves `key_ids` NULL for key ids of size zero, and gives an element
whose array it could not allocate to a free that indexes the array; the parser and
the serialiser index `key_ids` whenever there are key ids.  `walk` follows only the
headers of a buffer and the memory there is, and tells what the parser does with it.
-/

namespace FFmpeg.Libavutil.EncryptionInfoSideData

open Common EncryptionInfo

variable {mem : Memory} {i : Nat}

/-- The sizes in a header: `system_id`, `num_key_ids`, `key_id_size`, `data`. -/
structure Sizes where
  systemIdSize : Nat
  numKeyIds : Nat
  keyIdSize : Nat
  dataSize : Nat

/-- The bytes behind the header. -/
def Sizes.body (z : Sizes) : Nat := z.systemIdSize + z.numKeyIds * z.keyIdSize + z.dataSize

/-- The sizes in the header at the front of a buffer. -/
def sizesOf (b : Bytes) : Sizes where
  systemIdSize := headerField (b.take 16) 0
  numKeyIds := headerField (b.take 16) 1
  keyIdSize := headerField (b.take 16) 2
  dataSize := headerField (b.take 16) 3

/-- There is an array for the key ids, or there are none. -/
def Slots (mem : Memory) (i : Nat) (z : Sizes) : Prop :=
  z.numKeyIds ≠ 0 → z.keyIdSize ≠ 0 ∧ granted mem i .keyIds (8 * z.numKeyIds) = true

/-- Memory for all that is not empty. -/
def Enough (mem : Memory) (i : Nat) (z : Sizes) : Prop :=
  (z.systemIdSize ≠ 0 → granted mem i .systemId z.systemIdSize = true) ∧
    (z.dataSize ≠ 0 → granted mem i .data z.dataSize = true) ∧
    (z.keyIdSize ≠ 0 → ∀ j < z.numKeyIds, granted mem i (.keyId j) z.keyIdSize = true)

instance (mem : Memory) (i : Nat) (z : Sizes) : Decidable (Slots mem i z) :=
  inferInstanceAs (Decidable (_ → _))

instance (mem : Memory) (i : Nat) (z : Sizes) : Decidable (Enough mem i z) :=
  inferInstanceAs (Decidable (_ ∧ _ ∧ _))

/-- Where a walk along the headers ends. -/
inductive Walk
  /-- an element does not fit, or there is no memory for it -/
  | stops
  /-- an element has key ids and no array for them -/
  | noSlots
  | reaches (rest : Bytes)
  deriving DecidableEq

/-- The walk over `n` elements from position `i`. -/
def walk (mem : Memory) : Nat → Nat → Bytes → Walk
  | 0, _, b => .reaches b
  | n + 1, i, b =>
    if b.length < 16 then .stops
    else if b.length - 16 < (sizesOf b).body then .stops
    else if mem i .info = false then .stops
    else if ¬ Slots mem i (sizesOf b) then .noSlots
    else if ¬ Enough mem i (sizesOf b) then .stops
    else walk mem n (i + 1) (b.drop (16 + (sizesOf b).body))

/-- The walk over all elements of a buffer. -/
def walkAll (mem : Memory) (b : Bytes) : Walk :=
  if b.length < 4 then .stops else walk mem (getBE (b.take 4)) 0 (b.drop 4)

section Records

/-- The sizes of an element. -/
def sizes (info : AVEncryptionInitInfo) : Sizes where
  systemIdSize := info.systemId.length
  numKeyIds := info.numKeyIds
  keyIdSize := info.keyIdSize
  dataSize := info.data.length

/-- An element whose sizes are `uint32_t` and say how long its parts are. -/
structure WellFormed (info : AVEncryptionInitInfo) : Prop where
  systemId_lt : info.systemId.length < 2 ^ 32
  numKeyIds_lt : info.numKeyIds < 2 ^ 32
  keyIdSize_lt : info.keyIdSize < 2 ^ 32
  data_lt : info.data.length < 2 ^ 32
  keyIds : ∀ ids, info.keyIds = some ids →
    ids.length = info.numKeyIds ∧ ∀ id ∈ ids, id.length = info.keyIdSize

/-- Key ids come with an array. -/
def Ready (info : AVEncryptionInitInfo) : Prop :=
  info.numKeyIds ≠ 0 → info.keyIds ≠ none

/-- The four fields of a header. -/
def header (z : Sizes) : Bytes :=
  putBE 4 z.systemIdSize ++ putBE 4 z.numKeyIds ++ putBE 4 z.keyIdSize ++ putBE 4 z.dataSize

/-- What is written for an element. -/
def record (info : AVEncryptionInitInfo) : Bytes :=
  header (sizes info) ++ (info.systemId ++ (info.keyIds.getD []).flatten ++ info.data)

theorem length_header (z : Sizes) : (header z).length = 16 := by simp [header]

theorem header_sizesOf {b : Bytes} (h : 16 ≤ b.length) : header (sizesOf b) = b.take 16 := by
  have hfield : ∀ k, 4 * k + 4 ≤ 16 → putBE 4 (headerField (b.take 16) k) =
      slice (b.take 16) (4 * k) 4 := by
    intro k hk
    have hlen : (slice (b.take 16) (4 * k) 4).length = 4 := by
      rw [length_slice, List.length_take]
      lia
    have hread := putBE_getBE (slice (b.take 16) (4 * k) 4)
    rwa [hlen] at hread
  have hjoin : slice (b.take 16) 0 4 ++ slice (b.take 16) 4 4 ++ slice (b.take 16) 8 4 ++
      slice (b.take 16) 12 4 = slice (b.take 16) 0 16 := by
    rw [← slice_add, ← slice_add, ← slice_add]
  rw [header]
  show putBE 4 (headerField (b.take 16) 0) ++ putBE 4 (headerField (b.take 16) 1) ++
    putBE 4 (headerField (b.take 16) 2) ++ putBE 4 (headerField (b.take 16) 3) = b.take 16
  rw [hfield 0 (by lia), hfield 1 (by lia), hfield 2 (by lia), hfield 3 (by lia)]
  have hall : slice (b.take 16) 0 16 = b.take 16 := by
    rw [slice, List.drop_zero, List.take_take, Nat.min_self]
  exact hjoin.trans hall

theorem sizesOf_header {z : Sizes} (hs : z.systemIdSize < 2 ^ 32) (hn : z.numKeyIds < 2 ^ 32)
    (hk : z.keyIdSize < 2 ^ 32) (hd : z.dataSize < 2 ^ 32) (rest : Bytes) :
    sizesOf (header z ++ rest) = z := by
  have htake : (header z ++ rest).take 16 = header z := by
    rw [List.take_append_of_le_length (length_header z).ge,
      List.take_of_length_le (length_header z).le]
  have hfields : slice (header z) (4 * 0) 4 = putBE 4 z.systemIdSize ∧
      slice (header z) (4 * 1) 4 = putBE 4 z.numKeyIds ∧
      slice (header z) (4 * 2) 4 = putBE 4 z.keyIdSize ∧
      slice (header z) (4 * 3) 4 = putBE 4 z.dataSize := by
    simp [slice, header, List.drop_append, List.drop_eq_nil_of_le]
  have hread : ∀ n, n < 2 ^ 32 → getBE (putBE 4 n) = n := fun n hn =>
    getBE_putBE_of_lt (by norm_num at hn ⊢; exact hn)
  obtain ⟨h0, h1, h2, h3⟩ := hfields
  unfold sizesOf headerField
  rw [htake, h0, h1, h2, h3, hread _ hs, hread _ hn, hread _ hk, hread _ hd]

variable {info : AVEncryptionInitInfo}

theorem length_flatten_keyIds (hwf : WellFormed info) (hready : Ready info) :
    (info.keyIds.getD []).flatten.length = info.numKeyIds * info.keyIdSize := by
  cases hids : info.keyIds with
  | none =>
    have hzero : info.numKeyIds = 0 := by
      by_contra hne
      exact hready hne hids
    simp [hzero]
  | some ids =>
    obtain ⟨hcount, hlength⟩ := hwf.keyIds ids hids
    have hmap : ids.map List.length = List.replicate ids.length info.keyIdSize := by
      rw [List.eq_replicate_iff]
      exact ⟨by simp, by simpa using hlength⟩
    rw [Option.getD_some, List.length_flatten, hmap, List.sum_replicate, hcount, smul_eq_mul]

theorem length_record (hwf : WellFormed info) (hready : Ready info) :
    (record info).length = 16 + (sizes info).body := by
  rw [record, List.length_append, length_header, List.length_append, List.length_append,
    length_flatten_keyIds hwf hready]
  rfl

end Records

section Parse

variable {b : Bytes} {n : Nat}

theorem readBytes_of_le (h : n ≤ b.length) : readBytes b n = .ok (b.take n, b.drop n) := if_pos h

theorem initInfoFreeList_ready {infos : List AVEncryptionInitInfo}
    (h : ∀ info ∈ infos, Ready info) : initInfoFreeList infos = .ok () := by
  induction infos with
  | nil => rfl
  | cons info infos ih =>
    have hfirst : initInfoFree info = .ok () := by
      unfold initInfoFree
      rw [if_neg]
      rintro ⟨hne, hnone⟩
      exact h info List.mem_cons_self hne hnone
    rw [initInfoFreeList, hfirst]
    exact ih fun d hd => h d (List.mem_cons_of_mem info hd)

variable {ret : List AVEncryptionInitInfo}

theorem giveUp_ready (h : ∀ info ∈ ret, Ready info) (b : Bytes) : giveUp ret b = .ok ([], b) := by
  rw [giveUp, initInfoFreeList_ready h]
  rfl

variable {info : AVEncryptionInitInfo}

theorem readKeyIds_slots {slots : List Bytes} (hslots : info.keyIds = some slots) (n j : Nat)
    (hn : j + n ≤ slots.length) (hb : n * info.keyIdSize ≤ b.length) :
    ∃ ids, readKeyIds info n j b = .ok (ids, b.drop (n * info.keyIdSize)) ∧
      ids.length = n ∧ (∀ id ∈ ids, id.length = info.keyIdSize) ∧
      ids.flatten = b.take (n * info.keyIdSize) := by
  induction n generalizing j b with
  | zero => exact ⟨[], by simp [readKeyIds], rfl, nofun, by simp⟩
  | succ n ih =>
    have hsplit : (n + 1) * info.keyIdSize = info.keyIdSize + n * info.keyIdSize := by ring
    rw [hsplit] at hb ⊢
    have hj : j < slots.length := by lia
    have hslot : keyIdAt info j = .ok slots[j] := by simp [keyIdAt, hslots, hj]
    obtain ⟨ids, hrun, hcount, hlength, hflatten⟩ := ih (j + 1) (by lia)
      (b := b.drop info.keyIdSize) (by rw [List.length_drop]; lia)
    refine ⟨b.take info.keyIdSize :: ids, ?_, by rw [List.length_cons, hcount], ?_, ?_⟩
    · rw [readKeyIds, hslot, readBytes_of_le (by lia)]
      show (readKeyIds info n (j + 1) (b.drop info.keyIdSize)).map _ = _
      rw [hrun, List.drop_drop]
      rfl
    · intro id hid
      rcases List.mem_cons.mp hid with rfl | hmem
      · rw [List.length_take]
        lia
      · exact hlength id hmem
    · rw [List.flatten_cons, hflatten, List.take_add]

/-- The element that the allocator makes for these sizes. -/
def emptyInfo (mem : Memory) (i : Nat) (z : Sizes) : AVEncryptionInitInfo where
  systemId := List.replicate z.systemIdSize 0
  keyIds :=
    if z.keyIdSize = 0 || !granted mem i .keyIds (8 * z.numKeyIds) then none
    else some (List.replicate z.numKeyIds (List.replicate z.keyIdSize 0))
  numKeyIds := z.numKeyIds
  keyIdSize := z.keyIdSize
  data := List.replicate z.dataSize 0

variable {z : Sizes}

theorem keyIds_emptyInfo_of_slots (h : Slots mem i z) (hne : z.numKeyIds ≠ 0) :
    (emptyInfo mem i z).keyIds =
      some (List.replicate z.numKeyIds (List.replicate z.keyIdSize 0)) := by
  obtain ⟨hsize, hgranted⟩ := h hne
  simp [emptyInfo, hsize, hgranted]

theorem ready_emptyInfo (h : Slots mem i z) : Ready (emptyInfo mem i z) := by
  intro hne
  rw [keyIds_emptyInfo_of_slots h hne]
  simp

/-- The array that `av_encryption_init_info_alloc` insists on. -/
def ArrayGranted (mem : Memory) (i : Nat) (z : Sizes) : Prop :=
  z.numKeyIds ≠ 0 → z.keyIdSize ≠ 0 → granted mem i .keyIds (8 * z.numKeyIds) = true

/-- With memory for the structure the allocator makes the element, or frees it for
want of something else. -/
theorem initInfoAlloc_cases (hinfo : mem i .info = true) (z : Sizes) :
    (Enough mem i z ∧ ArrayGranted mem i z ∧
      initInfoAlloc mem i z.systemIdSize z.numKeyIds z.keyIdSize z.dataSize =
        .ok (some (emptyInfo mem i z))) ∨
    (¬ (Enough mem i z ∧ ArrayGranted mem i z) ∧
      initInfoAlloc mem i z.systemIdSize z.numKeyIds z.keyIdSize z.dataSize =
        (initInfoFree (emptyInfo mem i z)).map fun _ => none) := by
  unfold initInfoAlloc
  rw [if_neg (by simp [hinfo])]
  dsimp only
  by_cases hpart : ((!granted mem i .systemId z.systemIdSize && z.systemIdSize ≠ 0) ||
      (!granted mem i .data z.dataSize && z.dataSize ≠ 0) ||
      ((z.keyIdSize = 0 || !granted mem i .keyIds (8 * z.numKeyIds)) && z.numKeyIds ≠ 0 &&
        z.keyIdSize ≠ 0)) = true
  · refine Or.inr ⟨?_, if_pos hpart⟩
    rintro ⟨⟨hsys, hdata, -⟩, harray⟩
    simp only [Bool.or_eq_true, Bool.and_eq_true, Bool.not_eq_true', decide_eq_true_eq] at hpart
    rcases hpart with (⟨hno, hne⟩ | ⟨hno, hne⟩) | ⟨⟨hzero | hno, hn⟩, hk⟩
    · rw [hsys hne] at hno
      cases hno
    · rw [hdata hne] at hno
      cases hno
    · exact hk hzero
    · rw [harray hn hk] at hno
      cases hno
  rw [if_neg hpart]
  simp only [Bool.or_eq_true, Bool.and_eq_true, Bool.not_eq_true', decide_eq_true_eq, not_or,
    not_and] at hpart
  obtain ⟨⟨hsys, hdata⟩, harray⟩ := hpart
  have hgot : ∀ b : Bool, b ≠ false → b = true := by decide
  have hArray : ArrayGranted mem i z := fun hn hk =>
    hgot _ fun hno => harray ⟨Or.inr hno, hn⟩ hk
  by_cases hids : z.keyIdSize ≠ 0 ∧ ∃ j < z.numKeyIds, granted mem i (.keyId j) z.keyIdSize = false
  · rw [if_pos hids]
    refine Or.inr ⟨?_, rfl⟩
    rintro ⟨⟨-, -, hall⟩, -⟩
    obtain ⟨hk, j, hj, hno⟩ := hids
    rw [hall hk j hj] at hno
    cases hno
  · rw [if_neg hids]
    refine Or.inl ⟨⟨fun hne => hgot _ fun hno => hsys hno hne,
      fun hne => hgot _ fun hno => hdata hno hne, ?_⟩, hArray, rfl⟩
    intro hk j hj
    exact hgot _ fun hno => hids ⟨hk, j, hj, hno⟩

theorem initInfoAlloc_noSlots (hinfo : mem i .info = true) (hslots : ¬ Slots mem i z) :
    initInfoAlloc mem i z.systemIdSize z.numKeyIds z.keyIdSize z.dataSize = .error .noKeyId ∨
      (initInfoAlloc mem i z.systemIdSize z.numKeyIds z.keyIdSize z.dataSize =
          .ok (some (emptyInfo mem i z)) ∧
        (emptyInfo mem i z).keyIds = none ∧ z.numKeyIds ≠ 0) := by
  have hne : z.numKeyIds ≠ 0 := fun hzero => hslots fun hn => absurd hzero hn
  have hnone : (emptyInfo mem i z).keyIds = none := by
    by_cases hk : z.keyIdSize = 0
    · simp [emptyInfo, hk]
    · have hno : granted mem i .keyIds (8 * z.numKeyIds) ≠ true :=
        fun h => hslots fun _ => ⟨hk, h⟩
      simp [emptyInfo, hno]
  rcases initInfoAlloc_cases hinfo z with ⟨-, -, hok⟩ | ⟨-, hfree⟩
  · exact Or.inr ⟨hok, hnone, hne⟩
  · refine Or.inl ?_
    have hfault : initInfoFree (emptyInfo mem i z) = .error .noKeyId :=
      if_pos ⟨hne, hnone⟩
    rw [hfree, hfault]
    rfl

theorem initInfoAlloc_slots (hinfo : mem i .info = true) (hslots : Slots mem i z) :
    initInfoAlloc mem i z.systemIdSize z.numKeyIds z.keyIdSize z.dataSize =
      .ok (if Enough mem i z then some (emptyInfo mem i z) else none) := by
  rcases initInfoAlloc_cases hinfo z with ⟨henough, -, hok⟩ | ⟨hmissing, hfree⟩
  · rw [hok, if_pos henough]
  · have hnot : ¬ Enough mem i z := fun henough =>
      hmissing ⟨henough, fun hn _ => (hslots hn).2⟩
    have hnofault : initInfoFree (emptyInfo mem i z) = .ok () :=
      if_neg fun h => ready_emptyInfo hslots h.1 h.2
    rw [hfree, hnofault, if_neg hnot]
    rfl

theorem headerField_lt (h : Bytes) (k : Nat) : headerField h k < 2 ^ 32 := by
  have hbound := getBE_lt (slice h (4 * k) 4)
  have hlen : (slice h (4 * k) 4).length ≤ 4 := by
    rw [length_slice]
    lia
  calc headerField h k < 256 ^ (slice h (4 * k) 4).length := hbound
    _ ≤ 256 ^ 4 := Nat.pow_le_pow_right (by decide) hlen
    _ = 2 ^ 32 := by norm_num

theorem size_check (b : Bytes) :
    ((sizesOf b).systemIdSize + (sizesOf b).dataSize +
      (sizesOf b).numKeyIds * (sizesOf b).keyIdSize) % 2 ^ 64 = (sizesOf b).body := by
  have hs := headerField_lt (b.take 16) 0
  have hd := headerField_lt (b.take 16) 3
  have hmul : headerField (b.take 16) 1 * headerField (b.take 16) 2 ≤ (2 ^ 32 - 1) * (2 ^ 32 - 1) :=
    Nat.mul_le_mul (Nat.le_sub_one_of_lt (headerField_lt _ 1))
      (Nat.le_sub_one_of_lt (headerField_lt _ 2))
  have hbody : (sizesOf b).body = headerField (b.take 16) 0 +
      headerField (b.take 16) 1 * headerField (b.take 16) 2 + headerField (b.take 16) 3 := rfl
  have hsum : (sizesOf b).systemIdSize + (sizesOf b).dataSize +
      (sizesOf b).numKeyIds * (sizesOf b).keyIdSize = headerField (b.take 16) 0 +
      headerField (b.take 16) 3 + headerField (b.take 16) 1 * headerField (b.take 16) 2 := rfl
  rw [hsum, hbody, Nat.mod_eq_of_lt (by lia)]
  lia

theorem readKeyIds_none (hnone : info.keyIds = none) (hn : n ≠ 0) (j : Nat) (b : Bytes) :
    readKeyIds info n j b = .error .noKeyId := by
  cases n with
  | zero => exact absurd rfl hn
  | succ n =>
    have hfault : keyIdAt info j = .error .noKeyId := by simp [keyIdAt, hnone]
    rw [readKeyIds, hfault]
    rfl

theorem readKeyIds_emptyInfo (hslots : Slots mem i z) (hb : z.numKeyIds * z.keyIdSize ≤ b.length) :
    ∃ ids, readKeyIds (emptyInfo mem i z) z.numKeyIds 0 b =
        .ok (ids, b.drop (z.numKeyIds * z.keyIdSize)) ∧
      ids.length = z.numKeyIds ∧ (∀ id ∈ ids, id.length = z.keyIdSize) ∧
      ids.flatten = b.take (z.numKeyIds * z.keyIdSize) := by
  by_cases hne : z.numKeyIds = 0
  · rw [hne]
    exact ⟨[], by simp [readKeyIds], rfl, nofun, by simp⟩
  · exact readKeyIds_slots (keyIds_emptyInfo_of_slots hslots hne) z.numKeyIds 0 (by simp) hb

/-- The element read from the front of `b`. -/
def readInfo (mem : Memory) (i : Nat) (b : Bytes) (ids : List Bytes) : AVEncryptionInitInfo :=
  { emptyInfo mem i (sizesOf b) with
    systemId := (b.drop 16).take (sizesOf b).systemIdSize
    keyIds := (emptyInfo mem i (sizesOf b)).keyIds.map fun _ => ids
    data := (((b.drop 16).drop (sizesOf b).systemIdSize).drop
      ((sizesOf b).numKeyIds * (sizesOf b).keyIdSize)).take (sizesOf b).dataSize }

/-- The element that was read is well formed and is what the bytes say. -/
theorem readInfo_spec (hshort : ¬ b.length < 16) (hfit : ¬ b.length - 16 < (sizesOf b).body)
    (hslots : Slots mem i (sizesOf b)) {ids : List Bytes}
    (hcount : ids.length = (sizesOf b).numKeyIds)
    (hlength : ∀ id ∈ ids, id.length = (sizesOf b).keyIdSize)
    (hflatten : ids.flatten = ((b.drop 16).drop (sizesOf b).systemIdSize).take ((sizesOf b).numKeyIds * (sizesOf b).keyIdSize)) :
    WellFormed (readInfo mem i b ids) ∧ Ready (readInfo mem i b ids) ∧
      b = record (readInfo mem i b ids) ++ b.drop (16 + (sizesOf b).body) := by
  obtain ⟨z, hz⟩ : ∃ z, z = sizesOf b := ⟨_, rfl⟩
  have hbody : z.body = z.systemIdSize + z.numKeyIds * z.keyIdSize + z.dataSize := rfl
  have hsys : ((b.drop 16).take z.systemIdSize).length = z.systemIdSize := by
    rw [List.length_take, List.length_drop]
    rw [← hz] at hfit
    lia
  have hdata : ((((b.drop 16).drop z.systemIdSize).drop (z.numKeyIds * z.keyIdSize)).take
      z.dataSize).length = z.dataSize := by
    rw [List.length_take, List.length_drop, List.length_drop, List.length_drop]
    rw [← hz] at hfit
    lia
  have hready : Ready (readInfo mem i b ids) := by
    intro hne
    rw [readInfo, keyIds_emptyInfo_of_slots hslots hne]
    simp
  -- without key ids nothing is flattened, whether or not there is an array
  have hids : ((readInfo mem i b ids).keyIds.getD []).flatten = ids.flatten := by
    by_cases hne : (sizesOf b).numKeyIds = 0
    · have hnil : ids = [] := List.length_eq_zero_iff.mp (hcount.trans hne)
      cases hkeys : (readInfo mem i b ids).keyIds with
      | none => simp [hnil]
      | some l =>
        obtain ⟨_, -, rfl⟩ := Option.map_eq_some_iff.mp hkeys
        rfl
    · rw [readInfo, keyIds_emptyInfo_of_slots hslots hne]
      rfl
  refine ⟨⟨?_, headerField_lt _ 1, headerField_lt _ 2, ?_, ?_⟩, hready, ?_⟩
  · show ((b.drop 16).take (sizesOf b).systemIdSize).length < 2 ^ 32
    rw [← hz, hsys, hz]
    exact headerField_lt _ 0
  · show (List.take (sizesOf b).dataSize _).length < 2 ^ 32
    rw [← hz, hdata, hz]
    exact headerField_lt _ 3
  · intro l hl
    obtain ⟨_, -, rfl⟩ := Option.map_eq_some_iff.mp hl
    exact ⟨hcount, hlength⟩
  · have hsizes : sizes (readInfo mem i b ids) = sizesOf b := by
      show Sizes.mk ((b.drop 16).take (sizesOf b).systemIdSize).length _ _
        (List.take (sizesOf b).dataSize _).length = _
      rw [← hz, hsys, hdata]
      rw [hz]
      rfl
    rw [record, hsizes, header_sizesOf (by lia), hids, hflatten]
    show b = b.take 16 ++ ((b.drop 16).take _ ++ List.take _ _ ++ List.take _ _) ++ b.drop _
    rw [← hz, hbody]
    simp only [← List.drop_drop, List.append_assoc, List.take_append_drop]

/-- What the parser does with the `n` elements in `b` behind the elements `ret`, where
the walk over them ends with `w`. -/
def Agrees (ret : List AVEncryptionInitInfo) (n : Nat) (b : Bytes) (w : Walk)
    (r : Except Fault (List AVEncryptionInitInfo × Bytes)) : Prop :=
  match w with
  | .stops => ∃ rest, r = .ok ([], rest)
  | .noSlots => r = .error .noKeyId
  | .reaches rest => ∃ infos, r = .ok (ret ++ infos, rest) ∧ infos.length = n ∧
      b = infos.flatMap record ++ rest ∧ ∀ info ∈ infos, WellFormed info ∧ Ready info

theorem Agrees.cons {w : Walk} {r : Except Fault (List AVEncryptionInitInfo × Bytes)}
    (h : Agrees (ret ++ [info]) n b w r) (hwf : WellFormed info) (hready : Ready info) :
    Agrees ret (n + 1) (record info ++ b) w r := by
  cases w with
  | stops => exact h
  | noSlots => exact h
  | reaches rest =>
    obtain ⟨infos, hr, hcount, hb, hall⟩ := h
    refine ⟨info :: infos, ?_, by rw [List.length_cons, hcount], ?_, ?_⟩
    · rw [hr, List.append_assoc]
      rfl
    · rw [hb, List.flatMap_cons, List.append_assoc]
    · intro d hd
      rcases List.mem_cons.mp hd with rfl | hmem
      · exact ⟨hwf, hready⟩
      · exact hall d hmem

/-- What the loop does is what the walk along the headers says.  The induction is on
the number of elements that are left; `ret` holds the elements before them. -/
theorem getSideDataLoop_agrees (n i : Nat) (b : Bytes) (hret : ∀ info ∈ ret, Ready info) :
    Agrees ret n b (walk mem n i b) (getSideDataLoop mem n i b b.length ret) := by
  induction n generalizing i b ret with
  | zero => exact ⟨[], by simp [getSideDataLoop], rfl, by simp, nofun⟩
  | succ n ih =>
    have hgive : Agrees ret (n + 1) b .stops (giveUp ret b) := ⟨b, giveUp_ready hret b⟩
    unfold walk getSideDataLoop
    by_cases hshort : b.length < 16
    · rw [if_pos hshort, if_pos hshort]
      exact hgive
    rw [if_neg hshort, if_neg hshort, readBytes_of_le (by lia)]
    show Agrees ret (n + 1) b _ (if b.length - 16 < ((sizesOf b).systemIdSize +
      (sizesOf b).dataSize + (sizesOf b).numKeyIds * (sizesOf b).keyIdSize) % 2 ^ 64 then _ else
        Except.bind (initInfoAlloc mem i (sizesOf b).systemIdSize (sizesOf b).numKeyIds
          (sizesOf b).keyIdSize (sizesOf b).dataSize) _)
    rw [size_check]
    by_cases hfit : b.length - 16 < (sizesOf b).body
    · rw [if_pos hfit, if_pos hfit]
      exact hgive
    rw [if_neg hfit, if_neg hfit]
    have hbody : (sizesOf b).body = (sizesOf b).systemIdSize +
      (sizesOf b).numKeyIds * (sizesOf b).keyIdSize + (sizesOf b).dataSize := rfl
    have hsysfit : (sizesOf b).systemIdSize ≤ (b.drop 16).length := by
      rw [List.length_drop]
      lia
    cases hinfo : mem i .info with
    | false =>
      have hnull : initInfoAlloc mem i (sizesOf b).systemIdSize (sizesOf b).numKeyIds
          (sizesOf b).keyIdSize (sizesOf b).dataSize = .ok none := by simp [initInfoAlloc, hinfo]
      rw [if_pos rfl, hnull]
      exact hgive
    | true =>
      rw [if_neg (by decide)]
      by_cases hslots : Slots mem i (sizesOf b)
      · rw [if_neg (not_not.mpr hslots), initInfoAlloc_slots hinfo hslots]
        by_cases henough : Enough mem i (sizesOf b)
        · rw [if_neg (not_not.mpr henough), if_pos henough]
          obtain ⟨ids, hread, hcount, hlength, hflatten⟩ := readKeyIds_emptyInfo hslots
            (b := (b.drop 16).drop (sizesOf b).systemIdSize) (by
              rw [List.length_drop, List.length_drop]
              lia)
          obtain ⟨hwf, hready, hsplit⟩ := readInfo_spec hshort hfit hslots hcount hlength hflatten
          show Agrees ret (n + 1) b _
            (Except.bind (readBytes (b.drop 16) (sizesOf b).systemIdSize) _)
          rw [readBytes_of_le hsysfit]
          show Agrees ret (n + 1) b _ (Except.bind (readKeyIds _ (sizesOf b).numKeyIds 0 _) _)
          rw [hread]
          show Agrees ret (n + 1) b _ (Except.bind (readBytes _ (sizesOf b).dataSize) _)
          rw [readBytes_of_le (by simp only [List.length_drop]; lia)]
          have hrest : (((b.drop 16).drop (sizesOf b).systemIdSize).drop
              ((sizesOf b).numKeyIds * (sizesOf b).keyIdSize)).drop (sizesOf b).dataSize =
              b.drop (16 + (sizesOf b).body) := by
            rw [List.drop_drop, List.drop_drop, List.drop_drop, hbody]
            congr 1
            lia
          have hleft : b.length - 16 - (sizesOf b).systemIdSize -
              (sizesOf b).numKeyIds * (sizesOf b).keyIdSize - (sizesOf b).dataSize =
              (b.drop (16 + (sizesOf b).body)).length := by
            rw [List.length_drop, hbody]
            lia
          show Agrees ret (n + 1) b _ (getSideDataLoop mem n (i + 1) (List.drop _ _)
            (b.length - 16 - (sizesOf b).systemIdSize -
              (sizesOf b).numKeyIds * (sizesOf b).keyIdSize - (sizesOf b).dataSize)
            (ret ++ [readInfo mem i b ids]))
          rw [hrest, hleft]
          have hret' : ∀ info ∈ ret ++ [readInfo mem i b ids], Ready info := by
            intro info hmem
            rcases List.mem_append.mp hmem with hold | hnew
            · exact hret info hold
            · rw [List.mem_singleton.mp hnew]
              exact hready
          have hcons := (ih (i + 1) (b.drop (16 + (sizesOf b).body)) hret').cons hwf hready
          rwa [← hsplit] at hcons
        · rw [if_pos henough, if_neg henough]
          exact hgive
      · rw [if_pos hslots]
        rcases initInfoAlloc_noSlots hinfo hslots with hfault | ⟨hok, hnone, hne⟩
        · rw [hfault]
          rfl
        · rw [hok]
          show Except.bind (readBytes (b.drop 16) (sizesOf b).systemIdSize) _ = _
          rw [readBytes_of_le hsysfit]
          show Except.bind (readKeyIds _ (sizesOf b).numKeyIds 0 _) _ = _
          rw [readKeyIds_none hnone hne]
          rfl

end Parse

section Serialise

variable {info : AVEncryptionInitInfo}

theorem writeKeyIds_some {ids : List Bytes} (hids : info.keyIds = some ids)
    (hlength : ∀ id ∈ ids, id.length = info.keyIdSize) (n j : Nat) (hn : j + n = ids.length) :
    writeKeyIds info n j = .ok (ids.drop j).flatten := by
  induction n generalizing j with
  | zero =>
    rw [List.drop_eq_nil_of_le (by lia)]
    rfl
  | succ n ih =>
    have hj : j < ids.length := by lia
    have hslot : keyIdAt info j = .ok ids[j] := by simp [keyIdAt, hids, hj]
    have hwhole : ids[j].take info.keyIdSize = ids[j] :=
      List.take_of_length_le (hlength _ (List.getElem_mem hj)).le
    rw [writeKeyIds, hslot]
    show (writeKeyIds info n (j + 1)).map _ = _
    rw [ih (j + 1) (by lia), List.drop_eq_getElem_cons hj, List.flatten_cons]
    show Except.ok (ids[j].take info.keyIdSize ++ _) = _
    rw [hwhole]

theorem writeKeyIds_ready (hwf : WellFormed info) (hready : Ready info) :
    writeKeyIds info info.numKeyIds 0 = .ok (info.keyIds.getD []).flatten := by
  cases hids : info.keyIds with
  | none =>
    have hzero : info.numKeyIds = 0 := by
      by_contra hne
      exact hready hne hids
    rw [hzero]
    rfl
  | some ids =>
    obtain ⟨hcount, hlength⟩ := hwf.keyIds ids hids
    rw [writeKeyIds_some hids hlength info.numKeyIds 0 (by lia)]
    rfl

variable {infos : List AVEncryptionInitInfo}

theorem writeInfos_ready (h : ∀ info ∈ infos, WellFormed info ∧ Ready info) :
    writeInfos infos = .ok (infos.flatMap record) := by
  induction infos with
  | nil => rfl
  | cons info infos ih =>
    obtain ⟨hwf, hready⟩ := h info List.mem_cons_self
    rw [writeInfos, writeKeyIds_ready hwf hready]
    show (writeInfos infos).map _ = _
    rw [ih fun d hd => h d (List.mem_cons_of_mem info hd), List.flatMap_cons]
    simp [Except.map, record, header, sizes]

theorem ready_of_writeInfos {bytes : Bytes} (h : writeInfos infos = .ok bytes) :
    ∀ info ∈ infos, Ready info := by
  induction infos generalizing bytes with
  | nil => nofun
  | cons info infos ih =>
    have hready : Ready info := by
      intro hne hnone
      obtain ⟨n, hn⟩ := Nat.exists_eq_succ_of_ne_zero hne
      have hfault : keyIdAt info 0 = .error .noKeyId := by simp [keyIdAt, hnone]
      rw [writeInfos, hn, writeKeyIds, hfault] at h
      cases h
    cases hkeys : writeKeyIds info info.numKeyIds 0 with
    | error e =>
      rw [writeInfos, hkeys] at h
      cases h
    | ok keyIds =>
      cases hrest : writeInfos infos with
      | error e =>
        rw [writeInfos, hkeys, hrest] at h
        cases h
      | ok rest =>
        intro d hd
        rcases List.mem_cons.mp hd with rfl | hmem
        · exact hready
        · exact ih hrest d hmem

/-- The loop that adds up the size succeeds within `UINT32_MAX` and counts right. -/
theorem sideDataSize_eq (h : ∀ info ∈ infos, WellFormed info ∧ Ready info) {size count : Nat}
    (hcount : count < size) (hsize : size ≤ uint32Max) :
    sideDataSize infos size count =
      if size + (infos.flatMap record).length ≤ uint32Max then
        some (size + (infos.flatMap record).length, count + infos.length)
      else none := by
  induction infos generalizing size count with
  | nil => simp [sideDataSize, hsize]
  | cons info infos ih =>
    obtain ⟨hwf, hready⟩ := h info List.mem_cons_self
    have hrest := fun d hd => h d (List.mem_cons_of_mem info hd)
    have hlength : ((info :: infos).flatMap record).length =
        16 + (info.systemId.length + info.numKeyIds * info.keyIdSize + info.data.length) +
          (infos.flatMap record).length := by
      rw [List.flatMap_cons, List.length_append, length_record hwf hready]
      rfl
    rw [sideDataSize, hlength]
    dsimp only
    by_cases hover : uint32Max < size + (16 + info.systemId.length + info.data.length)
    · rw [if_pos (Or.inr hover), if_neg (by lia)]
    rw [if_neg (by lia)]
    by_cases hkeys : info.numKeyIds = 0
    · rw [if_neg (not_not.mpr hkeys), ih hrest (by lia) (by lia), hkeys, Nat.zero_mul]
      simp only [List.length_cons]
      split_ifs <;> lia
    · rw [if_pos hkeys]
      by_cases hover' : uint32Max <
          size + (16 + info.systemId.length + info.data.length) + info.numKeyIds * info.keyIdSize
      · rw [if_pos hover', if_neg (by lia)]
      · rw [if_neg hover', ih hrest (by lia) (by lia)]
        simp only [List.length_cons]
        split_ifs <;> lia

theorem addSideData_eq (h : ∀ info ∈ infos, WellFormed info ∧ Ready info) :
    addSideData true infos =
      if 4 + (infos.flatMap record).length ≤ intMax then
        .ok (some (putBE 4 infos.length ++ infos.flatMap record))
      else .ok none := by
  have hmax : uint32Max = 2 ^ 32 - 1 := rfl
  have hint : intMax = 2 ^ 31 - 1 := rfl
  rw [addSideData, sideDataSize_eq h (by lia) (by lia), writeInfos_ready h]
  generalize (infos.flatMap record).length = size
  by_cases hsmall : 4 + size ≤ intMax
  · rw [if_pos (by lia), if_pos hsmall]
    simp [hsmall, Except.map]
  · rw [if_neg hsmall]
    by_cases hmid : 4 + size ≤ uint32Max
    · rw [if_pos hmid]
      simp [hsmall]
    · rw [if_neg hmid]

end Serialise

section Content

/-- An element up to the difference between NULL and an array without key ids. -/
def content (info : AVEncryptionInitInfo) : AVEncryptionInitInfo :=
  { info with keyIds := some (info.keyIds.getD []) }

variable {info : AVEncryptionInitInfo}

theorem keyIds_getD (hwf : WellFormed info) (hready : Ready info) :
    (info.keyIds.getD []).length = info.numKeyIds ∧
      ∀ id ∈ info.keyIds.getD [], id.length = info.keyIdSize := by
  cases hids : info.keyIds with
  | none =>
    refine ⟨?_, nofun⟩
    by_contra hne
    exact hready (fun hzero => hne (by simp [hzero])) hids
  | some ids => exact hwf.keyIds ids hids

theorem flatten_inj_of_length {k : Nat} {a b : List Bytes} (hcount : a.length = b.length)
    (ha : ∀ x ∈ a, x.length = k) (hb : ∀ x ∈ b, x.length = k) (h : a.flatten = b.flatten) :
    a = b := by
  induction a generalizing b with
  | nil => exact (List.length_eq_zero_iff.mp hcount.symm).symm
  | cons x a ih =>
    cases b with
    | nil => cases hcount
    | cons y b =>
      have hlength : x.length = y.length := by
        rw [ha x List.mem_cons_self, hb y List.mem_cons_self]
      obtain ⟨hxy, hrest⟩ := List.append_inj h hlength
      have htail := ih (Nat.succ.inj hcount) (fun z hz => ha z (List.mem_cons_of_mem x hz))
        (fun z hz => hb z (List.mem_cons_of_mem y hz)) hrest
      rw [hxy, htail]

theorem sizesOf_record (hwf : WellFormed info) (rest : Bytes) :
    sizesOf (record info ++ rest) = sizes info := by
  rw [record, List.append_assoc]
  exact sizesOf_header hwf.systemId_lt hwf.numKeyIds_lt hwf.keyIdSize_lt hwf.data_lt _

/-- The bytes of an element determine it, whatever follows. -/
theorem record_append_inj {a b : AVEncryptionInitInfo} (ha : WellFormed a ∧ Ready a)
    (hb : WellFormed b ∧ Ready b) {x y : Bytes} (h : record a ++ x = record b ++ y) :
    content a = content b ∧ x = y := by
  have hsizes : sizes a = sizes b := by
    rw [← sizesOf_record ha.1 x, h, sizesOf_record hb.1 y]
  have hsys : a.systemId.length = b.systemId.length := congrArg Sizes.systemIdSize hsizes
  have hcount : a.numKeyIds = b.numKeyIds := congrArg Sizes.numKeyIds hsizes
  have hkey : a.keyIdSize = b.keyIdSize := congrArg Sizes.keyIdSize hsizes
  have hdata : a.data.length = b.data.length := congrArg Sizes.dataSize hsizes
  have hlength : (record a).length = (record b).length := by
    rw [length_record ha.1 ha.2, length_record hb.1 hb.2, hsizes]
  obtain ⟨hrecord, hrest⟩ := List.append_inj h hlength
  have hheader : (header (sizes a)).length = (header (sizes b)).length := by rw [hsizes]
  have hbodies := (List.append_inj hrecord hheader).2
  have hflat : (a.keyIds.getD []).flatten.length = (b.keyIds.getD []).flatten.length := by
    rw [length_flatten_keyIds ha.1 ha.2, length_flatten_keyIds hb.1 hb.2, hcount, hkey]
  obtain ⟨hfront, hdataEq⟩ := List.append_inj hbodies
    (by rw [List.length_append, List.length_append, hsys, hflat])
  obtain ⟨hsysEq, hflatEq⟩ := List.append_inj hfront hsys
  obtain ⟨hacount, halength⟩ := keyIds_getD ha.1 ha.2
  obtain ⟨hbcount, hblength⟩ := keyIds_getD hb.1 hb.2
  have hids : a.keyIds.getD [] = b.keyIds.getD [] :=
    flatten_inj_of_length (by rw [hacount, hbcount, hcount]) halength
      (fun id hid => (hblength id hid).trans hkey.symm) hflatEq
  refine ⟨?_, hrest⟩
  rw [content, content, hids, hsysEq, hcount, hkey, hdataEq]

theorem flatMap_record_inj {a b : List AVEncryptionInitInfo}
    (ha : ∀ info ∈ a, WellFormed info ∧ Ready info)
    (hb : ∀ info ∈ b, WellFormed info ∧ Ready info) (hcount : a.length = b.length)
    (h : a.flatMap record = b.flatMap record) : a.map content = b.map content := by
  induction a generalizing b with
  | nil => rw [List.length_eq_zero_iff.mp hcount.symm]
  | cons x a ih =>
    cases b with
    | nil => cases hcount
    | cons y b =>
      rw [List.flatMap_cons, List.flatMap_cons] at h
      obtain ⟨hxy, hrest⟩ := record_append_inj (ha x List.mem_cons_self)
        (hb y List.mem_cons_self) h
      have htail := ih (fun d hd => ha d (List.mem_cons_of_mem x hd))
        (fun d hd => hb d (List.mem_cons_of_mem y hd)) (Nat.succ.inj hcount) hrest
      rw [List.map_cons, List.map_cons, hxy, htail]

end Content

section Written

/-- The list can be parsed again: there is memory for every element and an array
for its key ids. -/
def AllGranted (mem : Memory) : Nat → List AVEncryptionInitInfo → Prop
  | _, [] => True
  | i, info :: next =>
    (mem i .info = true ∧ Slots mem i (sizes info) ∧ Enough mem i (sizes info)) ∧
      AllGranted mem (i + 1) next

/-- The walk along what was written. -/
theorem walk_flatMap_record {infos : List AVEncryptionInitInfo}
    (h : ∀ info ∈ infos, WellFormed info ∧ Ready info) (i : Nat) :
    (AllGranted mem i infos ∧ walk mem infos.length i (infos.flatMap record) = .reaches []) ∨
      (¬ AllGranted mem i infos ∧
        (walk mem infos.length i (infos.flatMap record) = .stops ∨
          walk mem infos.length i (infos.flatMap record) = .noSlots)) := by
  induction infos generalizing i with
  | nil => exact Or.inl ⟨trivial, rfl⟩
  | cons info infos ih =>
    obtain ⟨hwf, hready⟩ := h info List.mem_cons_self
    have hlength := length_record hwf hready
    have hsizes := sizesOf_record hwf (infos.flatMap record)
    have hdrop : (record info ++ infos.flatMap record).drop (16 + (sizes info).body) =
        infos.flatMap record := by
      rw [← hlength, List.drop_left]
    rw [List.flatMap_cons, List.length_cons]
    unfold walk
    rw [hsizes, hdrop, if_neg (by rw [List.length_append]; lia),
      if_neg (by rw [List.length_append]; lia)]
    by_cases hinfo : mem i .info = false
    · rw [if_pos hinfo]
      refine Or.inr ⟨fun hall => ?_, Or.inl rfl⟩
      rw [hall.1.1] at hinfo
      cases hinfo
    rw [if_neg hinfo]
    by_cases hslots : Slots mem i (sizes info)
    · rw [if_neg (not_not.mpr hslots)]
      by_cases henough : Enough mem i (sizes info)
      · rw [if_neg (not_not.mpr henough)]
        have hfirst : mem i .info = true := by simpa using hinfo
        rcases ih (fun d hd => h d (List.mem_cons_of_mem info hd)) (i + 1) with
          ⟨hall, hwalk⟩ | ⟨hnot, hwalk⟩
        · exact Or.inl ⟨⟨⟨hfirst, hslots, henough⟩, hall⟩, hwalk⟩
        · exact Or.inr ⟨fun hall => hnot hall.2, hwalk⟩
      · rw [if_pos henough]
        exact Or.inr ⟨fun hall => henough hall.1.2.2, Or.inl rfl⟩
    · rw [if_pos hslots]
      exact Or.inr ⟨fun hall => hslots hall.1.2.1, Or.inr rfl⟩

end Written

/-- The parser does not fault, and the list it returns is serialised to the front of
the buffer that it consumed. -/
def ParsesLosslessly (mem : Memory) (b : Bytes) : Prop :=
  ∃ infos rest, getSideData mem b = .ok (infos, rest) ∧
    (infos ≠ [] → addSideData true infos = .ok (some (b.take (b.length - rest.length))))

/-- Parsing the serialised list returns an equal list. -/
def ParsesBack (mem : Memory) (infos : List AVEncryptionInitInfo) (bytes : Bytes) : Prop :=
  ∃ parsed, getSideData mem bytes = .ok (parsed, []) ∧ parsed.map content = infos.map content

theorem getSideData_agrees (mem : Memory) {b : Bytes} (hb : ¬ b.length < 4) :
    Agrees [] (getBE (b.take 4)) (b.drop 4) (walkAll mem b) (getSideData mem b) := by
  have hloop : Agrees [] (getBE (b.take 4)) (b.drop 4) (walk mem (getBE (b.take 4)) 0 (b.drop 4))
      (getSideDataLoop mem (getBE (b.take 4)) 0 (b.drop 4) (b.drop 4).length []) :=
    getSideDataLoop_agrees (getBE (b.take 4)) 0 (b.drop 4) nofun
  rw [walkAll, getSideData, if_neg hb, if_neg hb, readBytes_of_le (by lia)]
  rwa [List.length_drop] at hloop

/-- A buffer is parsed losslessly exactly when no element that the walk reaches has
key ids without an array, and a list that is returned is small enough to be
serialised. -/
theorem parsesLosslessly_iff (b : Bytes) :
    ParsesLosslessly mem b ↔ walkAll mem b ≠ .noSlots ∧
      ∀ rest, walkAll mem b = .reaches rest → b.length - rest.length ≤ intMax := by
  by_cases hshort : b.length < 4
  · have hwalk : walkAll mem b = .stops := if_pos hshort
    have hget : getSideData mem b = .ok ([], b) := if_pos hshort
    rw [hwalk]
    exact ⟨fun _ => ⟨nofun, nofun⟩, fun _ => ⟨[], b, hget, fun h => absurd rfl h⟩⟩
  have hagrees := getSideData_agrees mem hshort
  cases hwalk : walkAll mem b with
  | stops =>
    rw [hwalk] at hagrees
    obtain ⟨rest, hget⟩ := hagrees
    exact ⟨fun _ => ⟨nofun, nofun⟩, fun _ => ⟨[], rest, hget, fun h => absurd rfl h⟩⟩
  | noSlots =>
    rw [hwalk] at hagrees
    constructor
    · rintro ⟨infos, rest, hget, -⟩
      rw [show getSideData mem b = .error .noKeyId from hagrees] at hget
      cases hget
    · rintro ⟨hslots, -⟩
      exact absurd rfl hslots
  | reaches rest =>
    rw [hwalk] at hagrees
    obtain ⟨infos, hget, hcount, hb, hall⟩ := hagrees
    rw [List.nil_append] at hget
    have hlength : b.length = 4 + (infos.flatMap record).length + rest.length := by
      have hdrop := congrArg List.length hb
      rw [List.length_drop, List.length_append] at hdrop
      lia
    have hconsumed : b.length - rest.length = 4 + (infos.flatMap record).length := by lia
    -- what the parser consumed is what the serialiser writes
    have hbytes : b.take (b.length - rest.length) = putBE 4 infos.length ++ infos.flatMap record := by
      have hfour : (b.take 4).length = 4 := by
        rw [List.length_take]
        lia
      have hcountBytes : putBE 4 infos.length = b.take 4 := by
        have hread := putBE_getBE (b.take 4)
        rwa [hfour, ← hcount] at hread
      rw [hconsumed, List.take_add, hcountBytes, hb, List.take_left]
    have hadd := addSideData_eq hall
    constructor
    · rintro ⟨infos', rest', hget', hlossless⟩
      rw [hget, Except.ok.injEq, Prod.mk.injEq] at hget'
      obtain ⟨rfl, rfl⟩ := hget'
      refine ⟨nofun, fun r hr => ?_⟩
      cases hr
      by_contra hlarge
      have hne : infos ≠ [] := by
        rintro rfl
        have hint : intMax = 2 ^ 31 - 1 := rfl
        rw [hconsumed] at hlarge
        simp at hlarge
        lia
      rw [hconsumed] at hlarge
      have hwritten := hlossless hne
      rw [hadd, if_neg hlarge] at hwritten
      cases hwritten
    · rintro ⟨-, hsmall⟩
      have hfits := hsmall rest rfl
      rw [hconsumed] at hfits
      refine ⟨infos, rest, hget, fun _ => ?_⟩
      rw [hbytes, hadd, if_pos hfits]

variable {infos : List AVEncryptionInitInfo}

theorem length_le_flatMap_record (h : ∀ info ∈ infos, WellFormed info ∧ Ready info) :
    infos.length ≤ (infos.flatMap record).length := by
  induction infos with
  | nil => exact Nat.zero_le _
  | cons info infos ih =>
    obtain ⟨hwf, hready⟩ := h info List.mem_cons_self
    have hrest := ih fun d hd => h d (List.mem_cons_of_mem info hd)
    rw [List.flatMap_cons, List.length_append, length_record hwf hready, List.length_cons]
    lia

/-- A serialised list is parsed back exactly when there is memory for its elements
and an array for the key ids of each. -/
theorem parsesBack_iff {bytes : Bytes} (hwf : ∀ info ∈ infos, WellFormed info)
    (hadd : addSideData true infos = .ok (some bytes)) :
    ParsesBack mem infos bytes ↔ AllGranted mem 0 infos := by
  have hready : ∀ info ∈ infos, Ready info := by
    unfold addSideData at hadd
    split at hadd
    · cases hadd
    · split at hadd
      · cases hwrite : writeInfos infos with
        | error e =>
          rw [hwrite] at hadd
          cases hadd
        | ok written => exact ready_of_writeInfos hwrite
      · cases hadd
  have hall : ∀ info ∈ infos, WellFormed info ∧ Ready info := fun info hmem =>
    ⟨hwf info hmem, hready info hmem⟩
  rw [addSideData_eq hall] at hadd
  split at hadd
  case isFalse => cases hadd
  case isTrue hsmall =>
  have hbytes : putBE 4 infos.length ++ infos.flatMap record = bytes := by
    simpa using hadd
  subst hbytes
  have hint : intMax = 2 ^ 31 - 1 := rfl
  have hlong := length_le_flatMap_record hall
  have hcount : getBE ((putBE 4 infos.length ++ infos.flatMap record).take 4) = infos.length := by
    have hfour : (putBE 4 infos.length).length = 4 := length_putBE 4 _
    rw [List.take_append_of_le_length hfour.ge, List.take_of_length_le hfour.le]
    apply getBE_putBE_of_lt
    norm_num
    lia
  have hdrop : (putBE 4 infos.length ++ infos.flatMap record).drop 4 = infos.flatMap record := by
    have hfour : (putBE 4 infos.length).length = 4 := length_putBE 4 _
    rw [List.drop_append_of_le_length hfour.ge, List.drop_eq_nil_of_le hfour.le, List.nil_append]
  have hnotshort : ¬ (putBE 4 infos.length ++ infos.flatMap record).length < 4 := by
    rw [List.length_append, length_putBE]
    lia
  have hagrees := getSideData_agrees mem hnotshort
  rw [walkAll, if_neg hnotshort, hcount, hdrop] at hagrees
  rcases walk_flatMap_record hall 0 with ⟨hgranted, hwalk⟩ | ⟨hnot, hwalk⟩
  · rw [hwalk] at hagrees
    obtain ⟨parsed, hget, hlength, hsame, hparsed⟩ := hagrees
    rw [List.nil_append] at hget
    rw [List.append_nil] at hsame
    refine ⟨fun _ => hgranted, fun _ => ⟨parsed, hget, ?_⟩⟩
    exact flatMap_record_inj hparsed hall hlength hsame.symm
  · refine ⟨?_, fun h => absurd h hnot⟩
    rintro ⟨parsed, hget, hsame⟩
    rcases hwalk with hwalk | hwalk
    · -- the parser gives up, so the list must have been empty
      rw [hwalk] at hagrees
      obtain ⟨rest, hstop⟩ := hagrees
      rw [hstop, Except.ok.injEq, Prod.mk.injEq] at hget
      obtain ⟨rfl, -⟩ := hget
      have hempty : infos = [] := List.map_eq_nil_iff.mp hsame.symm
      rw [hempty]
      trivial
    · rw [hwalk] at hagrees
      rw [show getSideData mem _ = .error .noKeyId from hagrees] at hget
      cases hget

theorem getSideData_ne_readPastEnd (b : Bytes) : getSideData mem b ≠ .error .readPastEnd := by
  intro hfault
  by_cases hshort : b.length < 4
  · have hget : getSideData mem b = .ok ([], b) := if_pos hshort
    rw [hget] at hfault
    cases hfault
  have hagrees := getSideData_agrees mem hshort
  rw [hfault] at hagrees
  cases hwalk : walkAll mem b with
  | stops =>
    rw [hwalk] at hagrees
    obtain ⟨rest, hget⟩ := hagrees
    cases hget
  | noSlots =>
    rw [hwalk] at hagrees
    cases hagrees
  | reaches rest =>
    rw [hwalk] at hagrees
    obtain ⟨infos, hget, -⟩ := hagrees
    cases hget

/-- When side data is parsed safely and losslessly, and when a serialised list is
parsed back, with any memory; the parser never reads outside the buffer. -/
theorem initInfoSideData_iff (mem : Memory) :
    (∀ b, getSideData mem b ≠ .error .readPastEnd) ∧
      (∀ b, ParsesLosslessly mem b ↔ walkAll mem b ≠ .noSlots ∧
        ∀ rest, walkAll mem b = .reaches rest → b.length - rest.length ≤ intMax) ∧
      ∀ infos bytes, (∀ info ∈ infos, WellFormed info) → addSideData true infos = .ok (some bytes) →
        (ParsesBack mem infos bytes ↔ AllGranted mem 0 infos) :=
  ⟨getSideData_ne_readPastEnd, parsesLosslessly_iff, fun _ _ hwf hadd => parsesBack_iff hwf hadd⟩

/-- A system that always has memory. -/
def grantAll : Memory := fun _ _ => true

/-- One element with two key ids. -/
theorem initInfoSideData_iff_two :
    ParsesBack grantAll [⟨[9], some [[1], [2]], 2, 1, [7, 8]⟩]
        [0, 0, 0, 1, 0, 0, 0, 1, 0, 0, 0, 2, 0, 0, 0, 1, 0, 0, 0, 2, 9, 1, 2, 7, 8] ↔
      AllGranted grantAll 0 [⟨[9], some [[1], [2]], 2, 1, [7, 8]⟩] := by
  refine (initInfoSideData_iff grantAll).2.2 _ _ ?_ (by decide)
  intro info hmem
  rw [List.mem_singleton.mp hmem]
  refine ⟨by decide, by decide, by decide, by decide, ?_⟩
  rintro ids hids
  cases hids
  decide

/-- One element with one key id of size zero: the copy indexes the array that was
never made. -/
theorem getSideData_faults_on_empty_key_id :
    ¬ ∀ (mem : Memory) (b : Bytes), ParsesLosslessly mem b := by
  intro hall
  obtain ⟨infos, rest, hget, -⟩ := hall grantAll
    [0, 0, 0, 1, 0, 0, 0, 0, 0, 0, 0, 1, 0, 0, 0, 0, 0, 0, 0, 0]
  have hfault : getSideData grantAll
      [0, 0, 0, 1, 0, 0, 0, 0, 0, 0, 0, 1, 0, 0, 0, 0, 0, 0, 0, 0] = .error .noKeyId := by
    decide
  rw [hfault] at hget
  cases hget

end FFmpeg.Libavutil.EncryptionInfoSideData
