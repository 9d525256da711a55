import FFmpeg.Libavutil.Dict
import FFmpeg.Libavutil.DictString

/-!
# Packed dictionaries

The entries of a dictionary as side data of a packet: each key and each value with its NUL, one
behind the other.  Unpacking walks over bytes that nobody has checked; a read at or past their end
gives no result here.
-/

namespace FFmpeg.Libavcodec.PacketDictionary

open Common Libavutil Dict DictMap DictString

/-- The loop of `av_packet_pack_dictionary` behind the entry `t`, with `data` and `*size`. -/
def packLoop (malloc : Malloc) (dict : Option AVDictionary) :
    Nat → Option Nat → Option Bytes → Nat → Option Bytes × Nat
  | 0, _, data, size => (data, size)
  | fuel + 1, t, data, size =>
    match avDictGet dict [] t { ignoreSuffix := true } with
    | none => (data, size)
    | some i =>
      let e := (dict.getD [])[i]?.getD ⟨[], []⟩
      let newSize := size + e.key.length + 1 + e.value.length + 1
      match avRealloc malloc (data.getD []) newSize with
      | none => (none, 0)
      | some newData =>
        if 2 ^ 31 - 1 < newSize then (none, 0)
        else
          let data := overwrite newData size (e.key ++ [0])
          let data := overwrite data (size + e.key.length + 1) (e.value ++ [0])
          packLoop malloc dict fuel (some i) (some data) newSize

/-- `av_packet_pack_dictionary`: the data and `*size`. -/
def avPacketPackDictionary (malloc : Malloc) (dict : Option AVDictionary) : Option Bytes × Nat :=
  if dict.isNone then (none, 0)
  else packLoop malloc dict (avDictCount dict + 1) none none 0

/-- `strlen` of the string at the start of the bytes in front of the end. -/
def strlen (bytes : Bytes) : Option Nat := bytes.findIdx? (· = 0)

/-- The loop of `av_packet_unpack_dictionary` over the bytes that are left, with `*dict`.  The
outcome of `av_dict_set`, which may run out of memory, is `set`. -/
def unpackLoop (set : Option AVDictionary → Bytes → Bytes → Int × Option AVDictionary)
    (data : Bytes) (dict : Option AVDictionary) : Option (Int × Option AVDictionary) :=
  if data = [] then some (0, dict)
  else
    match strlen data with
    | none => none
    | some keyLen =>
      let val := data.drop (keyLen + 1)
      if val = [] ∨ keyLen = 0 then some (AVERROR.invalidData.toInt, dict)
      else
        match strlen val with
        | none => none
        | some valLen =>
          let r := set dict (data.take keyLen) (val.take valLen)
          if r.1 < 0 then some r
          else unpackLoop set (val.drop (valLen + 1)) r.2
termination_by data.length
decreasing_by
  have hpos : 0 < data.length := List.length_pos_iff.2 (by assumption)
  simp only [List.length_drop]
  lia

/-- `av_packet_unpack_dictionary`: what is returned and `*dict`. -/
def avPacketUnpackDictionary
    (set : Option AVDictionary → Bytes → Bytes → Int × Option AVDictionary)
    (data : Option Bytes) (size : Nat) (dict : Option AVDictionary) :
    Option (Int × Option AVDictionary) :=
  match data with
  | none => some (0, dict)
  | some data =>
    if size = 0 then some (0, dict)
    else
      match (data.take size)[size - 1]? with
      | none => none
      | some last =>
        if last ≠ 0 then some (AVERROR.invalidData.toInt, dict)
        else unpackLoop set (data.take size) dict

/-- `av_dict_set` without flags, as long as there is memory. -/
def setEntry (dict : Option AVDictionary) (key value : Bytes) : Int × Option AVDictionary :=
  (0, avDictSet dict key (some value) {})

/-! ## Packing -/

/-- An entry as it is packed. -/
def entryBytes (e : AVDictionaryEntry) : Bytes := e.key ++ [0] ++ (e.value ++ [0])

/-- The packed entries. -/
def packed (elems : List AVDictionaryEntry) : Bytes := elems.flatMap entryBytes

theorem overwrite_two (block a b : Bytes) (i : Nat) (h : block.length = i + a.length + b.length) :
    overwrite (overwrite block i a) (i + a.length) b = block.take i ++ a ++ b := by
  have hlength : (overwrite block i a).length = i + a.length + b.length := by
    rw [length_overwrite_of_le (by lia), h]
  rw [overwrite, take_overwrite (by lia), ← hlength, List.drop_length, List.append_nil]

variable {malloc : Malloc} {elems : List AVDictionaryEntry}

/-- The loop packs the entries behind `t`. -/
theorem packLoop_packs (hmalloc : ∀ n, 0 < n → n ≤ 2 ^ 31 - 1 → (malloc n).isSome)
    (hsize : (packed elems).length ≤ 2 ^ 31 - 1) (fuel : Nat) (t : Option Nat) (data : Option Bytes)
    (hfuel : elems.length < fuel + after t) (ht : after t ≤ elems.length)
    (hdata : data.getD [] = packed (elems.take (after t))) :
    ∃ data', packLoop malloc (some elems) fuel t data (packed (elems.take (after t))).length =
        (data', (packed elems).length) ∧ data'.getD [] = packed elems := by
  induction fuel generalizing t data with
  | zero => lia
  | succ fuel ih =>
    rw [packLoop, avDictGet_next]
    by_cases hnext : after t < elems.length
    · have hentry : ((some elems).getD [])[after t]?.getD ⟨[], []⟩ = elems[after t] := by
        simp [hnext]
      have hmore : packed (elems.take (after t + 1)) =
          packed (elems.take (after t)) ++ entryBytes elems[after t] := by
        rw [packed, packed, List.take_succ_eq_append_getElem hnext, List.flatMap_append,
          List.flatMap_singleton]
      have hall : packed elems = packed (elems.take (after t + 1)) ++
          packed (elems.drop (after t + 1)) := by
        rw [packed, packed, packed, ← List.flatMap_append, List.take_append_drop]
      have hlength : (packed (elems.take (after t))).length + elems[after t].key.length + 1 +
          elems[after t].value.length + 1 = (packed (elems.take (after t + 1))).length := by
        rw [hmore, entryBytes]
        simp only [List.length_append, List.length_singleton]
        lia
      have hfits : (packed (elems.take (after t + 1))).length ≤ 2 ^ 31 - 1 := by
        rw [hall, List.length_append] at hsize
        lia
      rw [if_pos hnext]
      dsimp only
      rw [hentry, hlength]
      obtain ⟨block, hblock⟩ : ∃ block, avRealloc malloc (data.getD [])
          (packed (elems.take (after t + 1))).length = some block := by
        obtain ⟨fresh, hfresh⟩ := Option.isSome_iff_exists.1
          (hmalloc (packed (elems.take (after t + 1))).length (by lia) hfits)
        rw [avRealloc, avMalloc, if_neg (by lia), hfresh]
        exact ⟨_, rfl⟩
      obtain ⟨hblockLength, -, hkeep⟩ := avRealloc_some hblock
      have hold := hkeep (packed (elems.take (after t))).length (by rw [hdata]) (by lia)
      rw [hdata, List.take_length] at hold
      rw [hblock]
      dsimp only
      rw [if_neg (by lia)]
      have hwrite : overwrite (overwrite block (packed (elems.take (after t))).length
          (elems[after t].key ++ [0])) ((packed (elems.take (after t))).length +
            elems[after t].key.length + 1) (elems[after t].value ++ [0]) =
          packed (elems.take (after t + 1)) := by
        have htwo := overwrite_two block (elems[after t].key ++ [0]) (elems[after t].value ++ [0])
          (packed (elems.take (after t))).length (by
            rw [hblockLength, ← hlength]
            simp only [List.length_append, List.length_singleton]
            lia)
        rw [hold] at htwo
        rw [hmore, entryBytes, ← List.append_assoc]
        simpa [Nat.add_assoc] using htwo
      rw [hwrite]
      exact ih (some (after t)) _ (by simp only [after, Option.elim_some] at *; lia)
        hnext rfl
    · rw [if_neg hnext]
      have hdone : elems.take (after t) = elems := List.take_of_length_le (by lia)
      rw [hdone] at hdata ⊢
      exact ⟨data, rfl, hdata⟩

/-! ## Unpacking -/

theorem strlen_append {s rest : Bytes} (h : (0 : UInt8) ∉ s) :
    strlen (s ++ 0 :: rest) = some s.length := by
  rw [strlen, List.findIdx?_eq_some_iff_getElem]
  refine ⟨by simp, by simp, ?_⟩
  intro j hj
  have hlt : j < (s ++ 0 :: rest).length := by
    rw [List.length_append]
    lia
  have hmem : (s ++ 0 :: rest)[j] ∈ s := by
    rw [List.getElem_append_left hj]
    exact List.getElem_mem hj
  simp only [decide_eq_true_eq]
  intro hzero
  rw [hzero] at hmem
  exact h hmem

/-- Some bytes are left, and the last of them is a NUL. -/
def Terminated (data : Bytes) : Prop := data.getLast? = some 0

variable {data : Bytes}

theorem Terminated.strlen_isSome (h : Terminated data) : ∃ n, strlen data = some n := by
  have hmem : (0 : UInt8) ∈ data := List.mem_of_getLast? h
  rw [← Option.isSome_iff_exists, strlen, List.findIdx?_isSome, List.any_eq_true]
  exact ⟨0, hmem, by simp⟩

theorem Terminated.drop (h : Terminated data) (n : Nat) :
    data.drop n = [] ∨ Terminated (data.drop n) := by
  by_cases hn : data.length ≤ n
  · exact Or.inl (List.drop_of_length_le hn)
  · right
    rw [Terminated, List.getLast?_drop, if_neg hn]
    exact h

/-- Nothing is read behind the last NUL. -/
theorem unpackLoop_isSome
    (set : Option AVDictionary → Bytes → Bytes → Int × Option AVDictionary) (data : Bytes)
    (dict : Option AVDictionary) (h : data = [] ∨ Terminated data) :
    (unpackLoop set data dict).isSome := by
  induction data, dict using unpackLoop.induct set with
  | case1 dict => simp [unpackLoop]
  | case2 data dict hne hnone =>
    obtain ⟨n, hn⟩ := (h.resolve_left hne).strlen_isSome
    rw [hn] at hnone
    cases hnone
  | case3 data dict hne keyLen hkey val hbad =>
    rw [unpackLoop, if_neg hne, hkey]
    dsimp only
    rw [if_pos hbad]
    rfl
  | case4 data dict hne keyLen hkey val hgood hnone =>
    have hval := ((h.resolve_left hne).drop (keyLen + 1)).resolve_left (fun he => hgood (Or.inl he))
    obtain ⟨n, hn⟩ := hval.strlen_isSome
    rw [hn] at hnone
    cases hnone
  | case5 data dict hne keyLen hkey val hgood valLen hval r hfail =>
    rw [unpackLoop, if_neg hne, hkey]
    dsimp only
    rw [if_neg hgood, hval]
    dsimp only
    rw [if_pos hfail]
    rfl
  | case6 data dict hne keyLen hkey val hgood valLen hval r hset ih =>
    rw [unpackLoop, if_neg hne, hkey]
    dsimp only
    rw [if_neg hgood, hval]
    dsimp only
    rw [if_neg hset]
    exact ih ((((h.resolve_left hne).drop (keyLen + 1)).resolve_left
      (fun he => hgood (Or.inl he))).drop (valLen + 1))

/-- The packed entries are set one after the other. -/
theorem unpackLoop_packed (elems : List AVDictionaryEntry) (dict : Option AVDictionary)
    (hkeys : ∀ e ∈ elems, e.key ≠ []) (hnul : ∀ e ∈ elems, (0 : UInt8) ∉ e.key ∧ 0 ∉ e.value)
    (hdistinct : ((entries dict ++ elems).map entryKey).Nodup) :
    ∃ dict', unpackLoop setEntry (packed elems) dict = some (0, dict') ∧
      entries dict' = entries dict ++ elems := by
  induction elems generalizing dict with
  | nil =>
    refine ⟨dict, ?_, by simp⟩
    rw [packed, List.flatMap_nil, unpackLoop, if_pos rfl]
  | cons e elems ih =>
    obtain ⟨hkey, hvalue⟩ := hnul e (by simp)
    have hne := hkeys e (by simp)
    have hkeyLen : e.key.length ≠ 0 := fun h => hne (List.length_eq_zero_iff.1 h)
    have hbytes : packed (e :: elems) = e.key ++ 0 :: (e.value ++ 0 :: packed elems) := by
      simp [packed, entryBytes]
    have hkeyRest : (e.key ++ 0 :: (e.value ++ 0 :: packed elems)).drop (e.key.length + 1) =
        e.value ++ 0 :: packed elems := by
      rw [← List.drop_drop, List.drop_left]
      rfl
    have hvalueRest : (e.value ++ 0 :: packed elems).drop (e.value.length + 1) = packed elems := by
      rw [← List.drop_drop, List.drop_left]
      rfl
    -- the key is new, so the entry goes behind the others
    have hset : entries (avDictSet dict e.key (some e.value) {}) = entries dict ++ [e] := by
      cases hget : avDictGet dict e.key none {} with
      | none =>
        rw [avDictSet_of_none rfl hget, entries_finishSet]
        rfl
      | some i =>
        obtain ⟨hi, hsame⟩ := avDictGet_some rfl rfl hget
        rw [List.map_append, List.map_cons, List.nodup_append] at hdistinct
        exact absurd hsame (hdistinct.2.2 _ (List.mem_map_of_mem (List.getElem_mem hi)) _
          List.mem_cons_self)
    obtain ⟨dict', hunpack, hentries⟩ := ih (avDictSet dict e.key (some e.value) {})
      (fun d hd => hkeys d (List.mem_cons_of_mem _ hd))
      (fun d hd => hnul d (List.mem_cons_of_mem _ hd))
      (by
        rw [hset, List.append_assoc]
        exact hdistinct)
    refine ⟨dict', ?_, ?_⟩
    · rw [hbytes, unpackLoop, if_neg (by simp), strlen_append hkey]
      simp only [hkeyRest, List.take_left, strlen_append hvalue, hvalueRest, setEntry]
      rw [if_neg (by simp [hkeyLen]), if_neg (by simp)]
      exact hunpack
    · rw [hentries, hset, List.append_assoc]
      rfl

theorem packed_terminated (h : elems ≠ []) : Terminated (packed elems) := by
  obtain ⟨front, e, rfl⟩ := (List.eq_nil_or_concat' elems).resolve_left h
  have hlast : packed (front ++ [e]) = packed front ++ (e.key ++ [0] ++ e.value) ++ [0] := by
    simp [packed, entryBytes]
  rw [Terminated, hlast, List.getLast?_concat]

theorem avPacketUnpackDictionary_terminated
    (set : Option AVDictionary → Bytes → Bytes → Int × Option AVDictionary)
    (dict : Option AVDictionary) (h : Terminated data) :
    avPacketUnpackDictionary set (some data) data.length dict = unpackLoop set data dict := by
  have hpos : data.length ≠ 0 := by
    intro hzero
    rw [List.length_eq_zero_iff] at hzero
    rw [Terminated, hzero] at h
    cases h
  have hlast : data[data.length - 1]? = some 0 := by
    rw [← List.getLast?_eq_getElem?]
    exact h
  simp [avPacketUnpackDictionary, hpos, hlast]

theorem avPacketPackDictionary_packs {dict : Option AVDictionary}
    (hmalloc : ∀ n, 0 < n → n ≤ 2 ^ 31 - 1 → (malloc n).isSome)
    (hsize : (packed (entries dict)).length ≤ 2 ^ 31 - 1) :
    ∃ data, avPacketPackDictionary malloc dict = (data, (packed (entries dict)).length) ∧
      data.getD [] = packed (entries dict) := by
  cases dict with
  | none => exact ⟨none, rfl, rfl⟩
  | some elems =>
    obtain ⟨data, hpack, hdata⟩ := packLoop_packs hmalloc hsize (elems.length + 1) none none
      (Nat.lt_succ_self _) (Nat.zero_le _) rfl
    exact ⟨data, hpack, hdata⟩

/-- A dictionary whose keys are not empty and differ, ignoring case, is unpacked from what it is
packed to; and whatever the bytes are and whatever `av_dict_set` returns, unpacking them comes to
an end without a read behind them. -/
theorem avPacketUnpackDictionary_packs :
    (∀ (malloc : Malloc) (dict : Option AVDictionary),
      (∀ n, 0 < n → n ≤ 2 ^ 31 - 1 → (malloc n).isSome) →
      (∀ e ∈ entries dict, e.key ≠ []) →
      (∀ e ∈ entries dict, (0 : UInt8) ∉ e.key ∧ 0 ∉ e.value) →
      ((entries dict).map entryKey).Nodup →
      (packed (entries dict)).length ≤ 2 ^ 31 - 1 →
      ∃ dict', avPacketUnpackDictionary setEntry (avPacketPackDictionary malloc dict).1
          (avPacketPackDictionary malloc dict).2 none = some (0, dict') ∧
        entries dict' = entries dict) ∧
    ∀ (set : Option AVDictionary → Bytes → Bytes → Int × Option AVDictionary) (data : Bytes)
      (dict : Option AVDictionary),
      (avPacketUnpackDictionary set (some data) data.length dict).isSome := by
  refine ⟨?_, ?_⟩
  · intro malloc dict hmalloc hkeys hnul hdistinct hsize
    obtain ⟨data, hpack, hdata⟩ := avPacketPackDictionary_packs hmalloc hsize
    rw [hpack]
    dsimp only
    by_cases hempty : entries dict = []
    · have hzero : (packed (entries dict)).length = 0 := by rw [hempty]; rfl
      rw [hzero, hempty]
      refine ⟨none, ?_, rfl⟩
      cases data with
      | none => rfl
      | some bytes => rw [avPacketUnpackDictionary, if_pos rfl]
    · have hterminated := packed_terminated hempty
      have hbytes : data = some (packed (entries dict)) := by
        cases data with
        | none =>
          rw [← hdata] at hterminated
          cases hterminated
        | some bytes => exact congrArg some hdata
      obtain ⟨dict', hunpack, hentries⟩ := unpackLoop_packed (entries dict) none hkeys hnul
        (by simpa [entries] using hdistinct)
      refine ⟨dict', ?_, hentries⟩
      rw [hbytes, avPacketUnpackDictionary_terminated setEntry none hterminated]
      exact hunpack
  · intro set data dict
    by_cases hterminated : Terminated data
    · rw [avPacketUnpackDictionary_terminated set dict hterminated]
      exact unpackLoop_isSome set data dict (Or.inr hterminated)
    · -- either there is nothing to walk over or the last byte is refused
      by_cases hzero : data.length = 0
      · simp [avPacketUnpackDictionary, hzero]
      · have hlast : data[data.length - 1]? = some data[data.length - 1] :=
          List.getElem?_eq_getElem (by lia)
        have hnonzero : data[data.length - 1] ≠ 0 := by
          intro h
          rw [h, ← List.getLast?_eq_getElem?] at hlast
          exact hterminated hlast
        simp [avPacketUnpackDictionary, hzero, hlast, hnonzero]

/-- Two entries. -/
def titleAndArtist : AVDictionary := [⟨[116], [120, 121]⟩, ⟨[97, 98], []⟩]

theorem avPacketUnpackDictionary_packs_two :
    (∃ dict', avPacketUnpackDictionary setEntry
        (avPacketPackDictionary zeroMalloc (some titleAndArtist)).1
        (avPacketPackDictionary zeroMalloc (some titleAndArtist)).2 none = some (0, dict') ∧
      entries dict' = titleAndArtist) ∧
    (avPacketUnpackDictionary setEntry (some [1, 0, 0, 5, 0]) 5 none).isSome :=
  ⟨avPacketUnpackDictionary_packs.1 zeroMalloc (some titleAndArtist)
      (fun _ _ _ => rfl) (by simp [entries, titleAndArtist]) (by simp [entries, titleAndArtist])
      (by decide) (by decide),
    avPacketUnpackDictionary_packs.2 setEntry [1, 0, 0, 5, 0] none⟩

end FFmpeg.Libavcodec.PacketDictionary
