import FFmpeg.Libavutil.BprintEscape
import FFmpeg.Libavutil.Dict

/-!
# A dictionary survives its string form

`av_dict_get_string` prints `dictText`, and `av_dict_parse_string` reads the
entries back from it, for keys and values that are not empty: an empty one is
refused by `parse_key_value_pair`.
-/

namespace FFmpeg.Libavutil.DictString

open Common AvString Bprint BprintConcat BprintEscape Dict DictMap

/-- One entry of the string form. -/
def entryText (keyValSep pairsSep : UInt8) (e : AVDictionaryEntry) : Bytes :=
  escapeText [pairsSep, keyValSep] true e.key ++
    keyValSep :: escapeText [pairsSep, keyValSep] true e.value

/-- The string form of the entries; `more` says that others come before them. -/
def dictText (keyValSep pairsSep : UInt8) : Bool → List AVDictionaryEntry → Bytes
  | _, [] => []
  | more, e :: elems =>
    (if more then [pairsSep] else []) ++ entryText keyValSep pairsSep e ++
      dictText keyValSep pairsSep true elems

section Print

theorem findIdx?_drop_true (elems : List AVDictionaryEntry) (k : Nat) :
    ((elems.drop k).findIdx? fun _ => true).map (· + k) =
      if k < elems.length then some k else none := by
  by_cases hk : k < elems.length
  · rw [if_pos hk, List.drop_eq_getElem_cons hk, List.findIdx?_cons]
    simp
  · rw [if_neg hk, List.drop_eq_nil_of_le (Nat.le_of_not_lt hk)]
    rfl

/-- The entry behind `t`. -/
def after (t : Option Nat) : Nat := t.elim 0 (· + 1)

theorem avDictGet_next (elems : List AVDictionaryEntry) (t : Option Nat) :
    avDictGet (some elems) [] t { ignoreSuffix := true } =
      if after t < elems.length then some (after t) else none := by
  have hmatch : ∀ s : Bytes, matchKey { ignoreSuffix := true } s [] = true := by
    intro s
    cases s <;> simp [matchKey]
  rw [← findIdx?_drop_true]
  cases t <;> simp only [avDictGet, hmatch, after] <;> rfl

/-- The loop prints the entries behind `t`. -/
theorem avDictPrintLoop_prints (malloc : Malloc) (elems : List AVDictionaryEntry)
    (keyValSep pairsSep : UInt8) {fuel cnt : Nat} {t : Option Nat} {buf : AVBPrint} {text : Bytes}
    (h : Prints buf text) (ht : after t ≤ elems.length) (hfuel : elems.length < fuel + after t)
    (hcnt : cnt = after t) :
    ∃ buf', avDictPrintLoop malloc (some elems) keyValSep pairsSep fuel t cnt buf = some buf' ∧
      Prints buf' (text ++
        dictText keyValSep pairsSep (decide (cnt ≠ 0)) (elems.drop (after t))) := by
  induction fuel generalizing t cnt buf text with
  | zero => lia
  | succ fuel ih =>
    unfold avDictPrintLoop
    rw [avDictGet_next]
    by_cases hnext : after t < elems.length
    · rw [if_pos hnext, List.drop_eq_getElem_cons hnext, dictText]
      dsimp only
      have hentry : ((some elems).getD [])[after t]?.getD ⟨[], []⟩ = elems[after t] := by
        simp [hnext]
      rw [hentry]
      obtain ⟨buf₁, hrun₁, h₁⟩ : ∃ buf₁,
          (if cnt ≠ 0 then avBprintAppendData malloc buf [pairsSep] else some buf) = some buf₁ ∧
          Prints buf₁ (text ++ if decide (cnt ≠ 0) then [pairsSep] else []) := by
        by_cases hzero : cnt = 0
        · exact ⟨buf, by simp [hzero], by simpa [hzero] using h⟩
        · simpa [hzero] using h.append malloc [pairsSep]
      obtain ⟨buf₂, hrun₂, h₂⟩ := Prints.escape h₁ malloc [pairsSep, keyValSep] elems[after t].key
      obtain ⟨buf₃, hrun₃, h₃⟩ := h₂.append malloc [keyValSep]
      obtain ⟨buf₄, hrun₄, h₄⟩ := Prints.escape h₃ malloc [pairsSep, keyValSep] elems[after t].value
      have hafter : after (some (after t)) = after t + 1 := rfl
      obtain ⟨buf₅, hrun₅, h₅⟩ := ih (t := some (after t)) h₄ (by lia) (by lia)
        (show cnt + 1 = after (some (after t)) by lia)
      refine ⟨buf₅, ?_, ?_⟩
      · simp only [hrun₁, hrun₂, hrun₃, hrun₄, Option.bind_some]
        exact hrun₅
      · simpa [entryText, after] using h₅
    · rw [if_neg hnext, List.drop_eq_nil_of_le (Nat.le_of_not_lt hnext)]
      exact ⟨buf, rfl, by simpa [dictText] using h⟩

theorem avDictPrint_prints (malloc : Malloc) {internal : Bytes}
    (hinternal : internal.length = sizeAuto) (elems : List AVDictionaryEntry)
    (keyValSep pairsSep : UInt8) :
    ∃ buf, avDictPrint malloc internal (some elems) keyValSep pairsSep = some buf ∧
      Prints buf (dictText keyValSep pairsSep false elems) := by
  have hfresh := prints_init malloc hinternal 64 uintMax
  have hfuel : elems.length < avDictCount (some elems) + 1 + after none := by
    show elems.length < elems.length + 1 + 0
    lia
  exact avDictPrintLoop_prints malloc elems keyValSep pairsSep hfresh (Nat.zero_le _) hfuel rfl

end Print

section Text

variable {keyValSep pairsSep : UInt8}

theorem mem_escapeText {special : Bytes} {c : UInt8} (src : Bytes) (first : Bool)
    (hc : c ∈ escapeText special first src) : c = backslash ∨ c ∈ src := by
  induction src generalizing first with
  | nil => exact absurd hc List.not_mem_nil
  | cons d src ih =>
    rw [escapeText, List.mem_append] at hc
    rcases hc with hhead | htail
    · have hchar : c = backslash ∨ c = d := by
        split at hhead
        · simpa using hhead
        · exact Or.inr (List.mem_singleton.mp hhead)
      rcases hchar with hback | rfl
      · exact Or.inl hback
      · exact Or.inr List.mem_cons_self
    · rcases ih false htail with hback | hmem
      · exact Or.inl hback
      · exact Or.inr (List.mem_cons_of_mem d hmem)

/-- The string form has no NUL. -/
theorem zero_notMem_dictText (hkv : keyValSep ≠ 0) (hpairs : pairsSep ≠ 0)
    (elems : List AVDictionaryEntry) (hnul : ∀ e ∈ elems, 0 ∉ e.key ∧ 0 ∉ e.value) (more : Bool) :
    0 ∉ dictText keyValSep pairsSep more elems := by
  have hescape : ∀ s : Bytes, 0 ∉ s → 0 ∉ escapeText [pairsSep, keyValSep] true s := by
    intro s hs hmem
    rcases mem_escapeText s true hmem with hback | hzero
    · exact absurd hback (by decide)
    · exact hs hzero
  induction elems generalizing more with
  | nil => exact List.not_mem_nil
  | cons e elems ih =>
    obtain ⟨hkey, hvalue⟩ := hnul e List.mem_cons_self
    have hrest := ih (fun d hd => hnul d (List.mem_cons_of_mem e hd)) true
    have hentry : 0 ∉ entryText keyValSep pairsSep e := by
      rw [entryText, List.mem_append, List.mem_cons]
      rintro (hmem | hsep | hmem)
      · exact hescape e.key hkey hmem
      · exact hkv hsep.symm
      · exact hescape e.value hvalue hmem
    rw [dictText, List.mem_append, List.mem_append]
    rintro ((hsep | hmem) | hmem)
    · cases more with
      | true => exact hpairs (List.mem_singleton.mp hsep).symm
      | false => exact absurd hsep List.not_mem_nil
    · exact hentry hmem
    · exact hrest hmem

theorem drop_dictText_true (elems : List AVDictionaryEntry) :
    (dictText keyValSep pairsSep true elems).drop 1 = dictText keyValSep pairsSep false elems := by
  cases elems <;> simp [dictText]

theorem head_dictText_true (elems : List AVDictionaryEntry) {c : UInt8}
    (hc : (dictText keyValSep pairsSep true elems).head? = some c) : c ∈ [pairsSep] := by
  cases elems with
  | nil => cases hc
  | cons e elems => simpa [dictText, eq_comm] using hc

end Text

section Parse

variable {keyValSep pairsSep : UInt8}

theorem parseKeyValuePair_entryText (hkv : keyValSep ≠ backslash) (hpairs : pairsSep ≠ backslash)
    {e : AVDictionaryEntry} (hkey : e.key ≠ []) (hvalue : e.value ≠ []) {rest : Bytes}
    (hrest : ∀ c, rest.head? = some c → c ∈ [pairsSep]) (pm : Option AVDictionary)
    (flags : Flags) :
    parseKeyValuePair pm (entryText keyValSep pairsSep e ++ rest) [keyValSep] [pairsSep] flags =
      (0, avDictSet pm e.key (some e.value) flags, rest) := by
  have hback : ∀ sep : UInt8, sep ≠ backslash → backslash ∉ [sep] := by
    intro sep hsep hmem
    exact hsep (List.mem_singleton.mp hmem).symm
  have hkeyTerm : ∀ c ∈ [keyValSep], c ∈ [pairsSep, keyValSep] := by simp
  have hvalueTerm : ∀ c ∈ [pairsSep], c ∈ [pairsSep, keyValSep] := by simp
  have hfirst : avGetToken (entryText keyValSep pairsSep e ++ rest) [keyValSep] =
      (e.key, keyValSep :: (escapeText [pairsSep, keyValSep] true e.value ++ rest)) := by
    rw [entryText, List.append_assoc, List.cons_append]
    exact avGetToken_escapeText hkeyTerm (hback _ hkv) (by simp [eq_comm]) hkey
  have hsecond : avGetToken (escapeText [pairsSep, keyValSep] true e.value ++ rest) [pairsSep] =
      (e.value, rest) :=
    avGetToken_escapeText hvalueTerm (hback _ hpairs) hrest hvalue
  simp [parseKeyValuePair, hfirst, hsecond, hkey, hvalue]

theorem entries_avDictSet_multikey (pm : Option AVDictionary) (key value : Bytes) :
    entries (avDictSet pm key (some value) { multikey := true }) =
      entries pm ++ [⟨key, value⟩] := by
  have hset : avDictSet pm key (some value) { multikey := true } =
      finishSet (entries pm) key (some value) none := rfl
  rw [hset, entries_finishSet]
  rfl

/-- The loop reads the entries of the string form, in their order. -/
theorem avDictParseLoop_dictText (hkv : keyValSep ≠ backslash) (hpairs : pairsSep ≠ backslash)
    (elems : List AVDictionaryEntry) (hfull : ∀ e ∈ elems, e.key ≠ [] ∧ e.value ≠ [])
    {fuel : Nat} (hfuel : (dictText keyValSep pairsSep false elems).length < fuel)
    (pm : Option AVDictionary) :
    ∃ pm', avDictParseLoop [keyValSep] [pairsSep] { multikey := true } fuel pm
        (dictText keyValSep pairsSep false elems) = some (0, pm') ∧
      entries pm' = entries pm ++ elems := by
  induction elems generalizing fuel pm with
  | nil =>
    cases fuel with
    | zero => exact absurd hfuel (Nat.not_lt_zero _)
    | succ fuel => exact ⟨pm, rfl, by simp⟩
  | cons e elems ih =>
    obtain ⟨hkey, hvalue⟩ := hfull e List.mem_cons_self
    cases fuel with
    | zero => exact absurd hfuel (Nat.not_lt_zero _)
    | succ fuel =>
      have htext : dictText keyValSep pairsSep false (e :: elems) =
          entryText keyValSep pairsSep e ++ dictText keyValSep pairsSep true elems := rfl
      have hpositive : entryText keyValSep pairsSep e ≠ [] := by simp [entryText]
      have hhead : ∀ c, (dictText keyValSep pairsSep true elems).head? = some c →
          c ∈ [pairsSep] := fun c hc => head_dictText_true elems hc
      have hpair := parseKeyValuePair_entryText hkv hpairs hkey hvalue hhead pm
        { multikey := true }
      have hshort : (dictText keyValSep pairsSep false elems).length < fuel := by
        have hdrop : ((dictText keyValSep pairsSep true elems).drop 1).length =
            (dictText keyValSep pairsSep false elems).length := by
          rw [drop_dictText_true]
        have hlength := List.length_pos_iff.mpr hpositive
        rw [List.length_drop] at hdrop
        rw [htext, List.length_append] at hfuel
        lia
      obtain ⟨pm', hrun, hentries⟩ := ih (fun d hd => hfull d (List.mem_cons_of_mem e hd)) hshort
        (avDictSet pm e.key (some e.value) { multikey := true })
      refine ⟨pm', ?_, ?_⟩
      · rw [htext]
        unfold avDictParseLoop
        rw [hpair]
        dsimp only
        rw [drop_dictText_true]
        simpa [hpositive] using hrun
      · rw [hentries, entries_avDictSet_multikey, List.append_assoc]
        rfl

end Parse

/-- What `av_dict_get_string` accepts as separators. -/
def AcceptedSeparators (keyValSep pairsSep : UInt8) : Prop :=
  pairsSep ≠ 0 ∧ keyValSep ≠ 0 ∧ pairsSep ≠ keyValSep ∧ pairsSep ≠ backslash ∧ keyValSep ≠ backslash

instance (keyValSep pairsSep : UInt8) : Decidable (AcceptedSeparators keyValSep pairsSep) :=
  inferInstanceAs (Decidable (_ ∧ _))

/-- Memory sufficed for the whole string: the print buffer says that it is complete. -/
def NotTruncated (malloc : Malloc) (internal : Bytes) (m : Option AVDictionary)
    (keyValSep pairsSep : UInt8) : Prop :=
  ∀ buf, avDictPrint malloc internal m keyValSep pairsSep = some buf → avBprintIsComplete buf = true

/-- A successful `av_dict_get_string` returns the string form. -/
theorem cString_avDictGetString {malloc : Malloc} {internal : Bytes}
    (hinternal : internal.length = sizeAuto) {m : Option AVDictionary} {keyValSep pairsSep : UInt8}
    (hsep : AcceptedSeparators keyValSep pairsSep)
    (hnul : ∀ e ∈ entries m, 0 ∉ e.key ∧ 0 ∉ e.value)
    (hmemory : NotTruncated malloc internal m keyValSep pairsSep) {block : Bytes}
    (hget : avDictGetString malloc internal m keyValSep pairsSep = some (.ok block)) :
    cString block = dictText keyValSep pairsSep false (entries m) := by
  obtain ⟨hpairs, hkv, hne, hpairsBack, hkvBack⟩ := hsep
  unfold avDictGetString at hget
  rw [if_neg (by simp [hpairs, hkv, hne, hpairsBack, hkvBack])] at hget
  by_cases hcount : avDictCount m = 0
  · -- without entries the string is a copy of ""
    rw [if_pos hcount] at hget
    have hempty : entries m = [] := by
      cases m with
      | none => rfl
      | some elems => exact List.length_eq_zero_iff.mp hcount
    rw [hempty]
    split at hget
    · cases hget
      simp [cString, overwrite, dictText]
    · cases hget
  · rw [if_neg hcount] at hget
    cases m with
    | none => exact absurd rfl hcount
    | some elems =>
      obtain ⟨buf, hprint, hprints⟩ :=
        avDictPrint_prints malloc hinternal elems keyValSep pairsSep
      rw [hprint, Option.map_some, Option.some.injEq] at hget
      exact hprints.finalize (hmemory buf hprint)
        (zero_notMem_dictText hkv hpairs elems hnul false) hget

/-- For every dictionary whose keys and values are not empty, the string form
gives back the entries in their order. -/
theorem avDictParseString_avDictGetString {malloc : Malloc} {internal : Bytes}
    (hinternal : internal.length = sizeAuto) {m : Option AVDictionary} {keyValSep pairsSep : UInt8}
    (hsep : AcceptedSeparators keyValSep pairsSep)
    (hnul : ∀ e ∈ entries m, 0 ∉ e.key ∧ 0 ∉ e.value)
    (hfull : ∀ e ∈ entries m, e.key ≠ [] ∧ e.value ≠ [])
    (hmemory : NotTruncated malloc internal m keyValSep pairsSep) {block : Bytes}
    (hget : avDictGetString malloc internal m keyValSep pairsSep = some (.ok block)) :
    ∃ pm, avDictParseString none (cString block) [keyValSep] [pairsSep] { multikey := true } =
        some (0, pm) ∧
      entries pm = entries m := by
  rw [cString_avDictGetString hinternal hsep hnul hmemory hget]
  obtain ⟨pm, hrun, hentries⟩ := avDictParseLoop_dictText hsep.2.2.2.2 hsep.2.2.2.1 (entries m)
    hfull (Nat.lt_succ_self _) none
  exact ⟨pm, hrun, by simpa [entries] using hentries⟩

/-- `k` without a value is printed as `k=` and refused. -/
theorem avDictParseString_refuses_empty_value :
    ¬ ∀ (malloc : Malloc) (internal : Bytes) (m : Option AVDictionary)
        (keyValSep pairsSep : UInt8) (block : Bytes),
      internal.length = sizeAuto → AcceptedSeparators keyValSep pairsSep →
      (∀ e ∈ entries m, 0 ∉ e.key ∧ 0 ∉ e.value) →
      NotTruncated malloc internal m keyValSep pairsSep →
      avDictGetString malloc internal m keyValSep pairsSep = some (.ok block) →
      ∃ pm, avDictParseString none (cString block) [keyValSep] [pairsSep] { multikey := true } =
          some (0, pm) ∧
        entries pm = entries m := by
  intro hall
  have hget : avDictGetString zeroMalloc (List.replicate sizeAuto 0) (some [⟨[107], []⟩]) 61 58 =
      some (.ok [107, 61, 0]) := by decide +kernel
  have hprint : (avDictPrint zeroMalloc (List.replicate sizeAuto 0) (some [⟨[107], []⟩]) 61 58).map
      avBprintIsComplete = some true := by decide +kernel
  have hmemory : NotTruncated zeroMalloc (List.replicate sizeAuto 0) (some [⟨[107], []⟩]) 61 58 := by
    intro buf hbuf
    rw [hbuf, Option.map_some] at hprint
    exact Option.some.inj hprint
  obtain ⟨pm, hrun, -⟩ := hall zeroMalloc (List.replicate sizeAuto 0) (some [⟨[107], []⟩]) 61 58
    [107, 61, 0] List.length_replicate (by decide) (by decide) hmemory hget
  have hrefused : avDictParseString none (cString [107, 61, 0]) [61] [58] { multikey := true } =
      some (-22, none) := by decide +kernel
  rw [hrefused] at hrun
  cases hrun

/-- Two entries with quotes, backslashes, separators and a leading space. -/
theorem avDictParseString_avDictGetString_special :
    ∃ pm, avDictParseString none
        [97, 61, 98, 58, 92, 32, 92, 39, 61, 92, 58, 92, 92] [61] [58] { multikey := true } =
        some (0, pm) ∧
      entries pm = [⟨[97], [98]⟩, ⟨[32, 39], [58, 92]⟩] := by
  have hget : avDictGetString zeroMalloc (List.replicate sizeAuto 0)
      (some [⟨[97], [98]⟩, ⟨[32, 39], [58, 92]⟩]) 61 58 =
      some (.ok [97, 61, 98, 58, 92, 32, 92, 39, 61, 92, 58, 92, 92, 0]) := by decide +kernel
  have hprint : (avDictPrint zeroMalloc (List.replicate sizeAuto 0)
      (some [⟨[97], [98]⟩, ⟨[32, 39], [58, 92]⟩]) 61 58).map avBprintIsComplete =
      some true := by decide +kernel
  have hmemory : NotTruncated zeroMalloc (List.replicate sizeAuto 0)
      (some [⟨[97], [98]⟩, ⟨[32, 39], [58, 92]⟩]) 61 58 := by
    intro buf hbuf
    rw [hbuf, Option.map_some] at hprint
    exact Option.some.inj hprint
  exact avDictParseString_avDictGetString List.length_replicate (by decide) (by decide)
    (by decide) hmemory hget

end FFmpeg.Libavutil.DictString
