import FFmpeg.Common.Assoc
import FFmpeg.Common.Bytes
import FFmpeg.Libavutil.Bprint
import Mathlib.Tactic
import FFmpeg.Common.Run

/-!
# Dictionaries

Dictionaries and their string form, from `libavutil/dict.c`.  A C string is the
list of its bytes before the terminating NUL, and the end of the list plays the
part of the NUL.  A pointer to an entry is its index in `elems` and `count` is the
length of the list.  Allocations for entries and tokens are taken to succeed; a
print buffer may run out of memory.
-/

namespace FFmpeg
namespace Libavutil
namespace Dict

open FFmpeg.Common
open AvString Bprint

structure AVDictionaryEntry where
  key : Bytes
  value : Bytes
  deriving DecidableEq, Repr

/-- The `elems` of a dictionary.  `*pm` is an `Option`, with `none` for NULL. -/
abbrev AVDictionary := List AVDictionaryEntry

/-- The `AV_DICT_...` flags that say which entry is meant and how it changes.
The two `DONT_STRDUP` flags only decide who owns a string. -/
structure Flags where
  matchCase : Bool := false
  ignoreSuffix : Bool := false
  dontOverwrite : Bool := false
  append : Bool := false
  multikey : Bool := false
  deriving DecidableEq, Repr

/-- `av_toupper`: only ASCII letters change. -/
def avToupper (c : UInt8) : UInt8 :=
  if 97 ≤ c ∧ c ≤ 122 then c ^^^ 0x20 else c

def avDictCount (m : Option AVDictionary) : Nat :=
  match m with
  | none => 0
  | some elems => elems.length

/-- One round of the comparison loop: are these two characters the same? -/
def sameChar (flags : Flags) (a b : UInt8) : Bool :=
  if flags.matchCase then a = b else avToupper a = avToupper b

/-- The comparison of the stored key `s` with `key`. -/
def matchKey (flags : Flags) : Bytes → Bytes → Bool
  -- `key[j]` is the NUL: the rest of `s` must be empty unless it is ignored
  | s, [] => s.isEmpty || flags.ignoreSuffix
  -- `s[j]` is the NUL and `key[j]` is not
  | [], _ :: _ => false
  | a :: s, b :: key => if sameChar flags a b then matchKey flags s key else false

/-- `av_dict_get`: the first entry after `prev` whose key matches. -/
def avDictGet (m : Option AVDictionary) (key : Bytes) (prev : Option Nat) (flags : Flags) :
    Option Nat :=
  match m with
  | none => none
  | some elems =>
    let i := match prev with
      | some p => p + 1
      | none => 0
    ((elems.drop i).findIdx? fun e => matchKey flags e.key key).map (· + i)

/-- The end of `av_dict_set`, after a found entry was taken out: a value is
appended behind `oldval`, and a dictionary without entries is freed. -/
def finishSet (elems : List AVDictionaryEntry) (key : Bytes) (value : Option Bytes)
    (oldval : Option Bytes) : Option AVDictionary :=
  let elems := match value with
    | some copyValue =>
      let newval := match oldval with
        | some old => old ++ copyValue
        | none => copyValue
      elems ++ [{ key := key, value := newval }]
    | none => elems
  if elems.length = 0 then none else some elems

/-- `av_dict_set`, as the new `*pm`.  Without allocation failures it returns 0. -/
def avDictSet (pm : Option AVDictionary) (key : Bytes) (value : Option Bytes) (flags : Flags) :
    Option AVDictionary :=
  let tag := if !flags.multikey then avDictGet pm key none flags else none
  let m := pm.getD []
  match tag with
  | some i =>
    if flags.dontOverwrite then some m
    else
      let oldval := if flags.append then m[i]?.map (·.value) else none
      -- `*tag = m->elems[--m->count]`
      finishSet (swapRemove m i) key value oldval
  | none => finishSet m key value none

/-- `parse_key_value_pair`: the result, `*pm` and `*buf`. -/
def parseKeyValuePair (pm : Option AVDictionary) (buf keyValSep pairsSep : Bytes)
    (flags : Flags) : Int × Option AVDictionary × Bytes :=
  let r := avGetToken buf keyValSep
  let key := r.1
  let buf := r.2
  -- the value is read only behind a key and a separator
  let hasVal := !key.isEmpty && (match buf with
    | c :: _ => decide (c ∈ keyValSep)
    | [] => false)
  let v := if hasVal then avGetToken (buf.drop 1) pairsSep else ([], buf)
  let val := v.1
  let buf := v.2
  if !key.isEmpty && hasVal && !val.isEmpty then (0, avDictSet pm key (some val) flags, buf)
  else (AVERROR.einval.toInt, pm, buf)

/-- The loop of `av_dict_parse_string`: the result and `*pm`. -/
def avDictParseLoop (keyValSep pairsSep : Bytes) (flags : Flags) :
    Nat → Option AVDictionary → Bytes → Option (Int × Option AVDictionary)
  | 0, _, _ => none
  | fuel + 1, pm, str =>
    if str.isEmpty then some (0, pm)
    else
      let r := parseKeyValuePair pm str keyValSep pairsSep flags
      if r.1 < 0 then some (r.1, r.2.1)
      else avDictParseLoop keyValSep pairsSep flags fuel r.2.1 (r.2.2.drop 1)

/-- `av_dict_parse_string`.  Every round that succeeds reads at least its key. -/
def avDictParseString (pm : Option AVDictionary) (str keyValSep pairsSep : Bytes)
    (flags : Flags) : Option (Int × Option AVDictionary) :=
  avDictParseLoop keyValSep pairsSep flags (str.length + 1) pm str

/-- The loop of `av_dict_get_string`; `t` is the entry before. -/
def avDictPrintLoop (malloc : Malloc) (m : Option AVDictionary) (keyValSep pairsSep : UInt8) :
    Nat → Option Nat → Nat → AVBPrint → Option AVBPrint
  | 0, _, _, _ => none
  | fuel + 1, t, cnt, bprint =>
    match avDictGet m [] t { ignoreSuffix := true } with
    | none => some bprint
    | some i =>
      let specialChars := [pairsSep, keyValSep]
      let e := (m.getD [])[i]?.getD ⟨[], []⟩
      let separated := if cnt ≠ 0 then avBprintAppendData malloc bprint [pairsSep] else some bprint
      ((((separated.bind fun bprint =>
        avBprintEscape malloc bprint e.key specialChars .backslash {}).bind fun bprint =>
        avBprintAppendData malloc bprint [keyValSep]).bind fun bprint =>
        avBprintEscape malloc bprint e.value specialChars .backslash {})).bind fun bprint =>
        avDictPrintLoop malloc m keyValSep pairsSep fuel (some i) (cnt + 1) bprint

/-- The print buffer that `av_dict_get_string` fills, on a stack with any content. -/
def avDictPrint (malloc : Malloc) (internal : Bytes) (m : Option AVDictionary)
    (keyValSep pairsSep : UInt8) : Option AVBPrint :=
  avDictPrintLoop malloc m keyValSep pairsSep (avDictCount m + 1) none 0
    (avBprintInit malloc internal 64 uintMax)

/-- `av_dict_get_string`: the block that holds the string. -/
def avDictGetString (malloc : Malloc) (internal : Bytes) (m : Option AVDictionary)
    (keyValSep pairsSep : UInt8) : Option (Except AVERROR Bytes) :=
  if pairsSep = 0 ∨ keyValSep = 0 ∨ pairsSep = keyValSep ∨
      pairsSep = AvString.backslash ∨ keyValSep = AvString.backslash then some (.error .einval)
  else if avDictCount m = 0 then
    some (match avMalloc malloc 1 with
      | some block => .ok (overwrite block 0 [0])
      | none => .error .enomem)
  else (avDictPrint malloc internal m keyValSep pairsSep).map (avBprintFinalize malloc)

end Dict
end Libavutil
end FFmpeg

/-! ## A dictionary is a case-insensitive finite map

The abstract map takes a key, folded to upper case, to its value.  Every call
of `av_dict_set` without `AV_DICT_MULTIKEY` and `AV_DICT_MATCH_CASE` updates the
map that the entries represent, in whatever order the entries are left. -/

namespace FFmpeg
namespace Libavutil
namespace DictMap

open FFmpeg.Common
open Dict

/-- The spelling of a key that the comparison of `av_dict_get` sees. -/
def foldKey (key : Bytes) : Bytes := key.map avToupper

/-- One call of `av_dict_set` with a subset of the two flags. -/
structure SetCall where
  key : Bytes
  value : Option Bytes
  dontOverwrite : Bool
  append : Bool

def SetCall.flags (c : SetCall) : Flags :=
  { dontOverwrite := c.dontOverwrite, append := c.append }

def dictStep (pm : Option AVDictionary) (c : SetCall) : Option AVDictionary :=
  avDictSet pm c.key c.value c.flags

/-- The abstract map: folded keys to values. -/
abbrev CaseMap := Bytes → Option Bytes

/-- What a call does to the abstract map. -/
def mapStep (f : CaseMap) (c : SetCall) : CaseMap :=
  match f (foldKey c.key) with
  | some old =>
    if c.dontOverwrite then f
    else Function.update f (foldKey c.key)
      (c.value.map fun new => if c.append then old ++ new else new)
  | none => Function.update f (foldKey c.key) c.value

/-- The entries of `*pm`. -/
def entries (pm : Option AVDictionary) : List AVDictionaryEntry := pm.getD []

/-- The value of the entry that `av_dict_get` returns. -/
def getValue (pm : Option AVDictionary) (key : Bytes) : Option Bytes :=
  (avDictGet pm key none {}).bind fun i => (entries pm)[i]?.map (·.value)

/-- The folded key of an entry. -/
def entryKey (e : AVDictionaryEntry) : Bytes := foldKey e.key

/-- The map the entries represent. -/
def mapOf (pm : Option AVDictionary) : CaseMap :=
  assocGet entryKey (·.value) (entries pm)

/-- No two entries have one key, and a dictionary that exists has an entry. -/
structure WellFormed (pm : Option AVDictionary) : Prop where
  nodup : ((entries pm).map entryKey).Nodup
  nonempty : pm ≠ some []

section Get

variable {flags : Flags}

theorem matchKey_iff (hcase : flags.matchCase = false) (hsuffix : flags.ignoreSuffix = false)
    (s key : Bytes) :
    matchKey flags s key = true ↔ foldKey s = foldKey key := by
  induction key generalizing s with
  | nil =>
    cases s with
    | nil => simp [matchKey, foldKey]
    | cons a s => simp [matchKey, foldKey, hsuffix]
  | cons b key ih =>
    cases s with
    | nil => simp [matchKey, foldKey]
    | cons a s =>
      have hrest : matchKey flags s key = true ↔ s.map avToupper = key.map avToupper := ih s
      simp [matchKey, foldKey, sameChar, hcase, hrest]

variable {pm : Option AVDictionary}

theorem avDictGet_some {key : Bytes} (hcase : flags.matchCase = false)
    (hsuffix : flags.ignoreSuffix = false) {i : Nat} (hget : avDictGet pm key none flags = some i) :
    ∃ hi : i < (entries pm).length, entryKey (entries pm)[i] = foldKey key := by
  cases pm with
  | none => simp [avDictGet] at hget
  | some elems =>
    simp only [avDictGet, List.drop_zero, Nat.add_zero, Option.map_id_fun', id_eq] at hget
    obtain ⟨hi, hmatch, -⟩ := List.findIdx?_eq_some_iff_getElem.mp hget
    exact ⟨hi, (matchKey_iff hcase hsuffix _ _).mp hmatch⟩

theorem avDictGet_none {key : Bytes} (hcase : flags.matchCase = false)
    (hsuffix : flags.ignoreSuffix = false) (hget : avDictGet pm key none flags = none) :
    ∀ e ∈ entries pm, entryKey e ≠ foldKey key := by
  cases pm with
  | none => simp [entries]
  | some elems =>
    simp only [avDictGet, List.drop_zero, Nat.add_zero, Option.map_id_fun', id_eq] at hget
    intro e he hkey
    have hmatch := List.findIdx?_eq_none_iff.mp hget e he
    rw [(matchKey_iff hcase hsuffix _ _).mpr hkey] at hmatch
    cases hmatch

theorem mapOf_getElem (hnodup : ((entries pm).map entryKey).Nodup) {i : Nat}
    (hi : i < (entries pm).length) :
    mapOf pm (entryKey (entries pm)[i]) = some (entries pm)[i].value := by
  have hperm := List.getElem_cons_eraseIdx_perm hi
  rw [mapOf, ← assocGet_perm hperm ((hperm.map entryKey).nodup_iff.mpr hnodup), assocGet_cons,
    Function.update_self]

theorem getValue_eq_mapOf (hnodup : ((entries pm).map entryKey).Nodup) (key : Bytes) :
    getValue pm key = mapOf pm (foldKey key) := by
  cases hget : avDictGet pm key none {} with
  | none =>
    have habsent := avDictGet_none rfl rfl hget
    simp [getValue, hget, mapOf, assocGet_eq_none_iff.mpr habsent]
  | some i =>
    obtain ⟨hi, hkey⟩ := avDictGet_some rfl rfl hget
    rw [← hkey, mapOf_getElem hnodup hi]
    simp [getValue, hget, List.getElem?_eq_getElem hi]

end Get

section Set

/-- The entries `finishSet` leaves: the rest, then the new entry if there is one. -/
def setEntries (elems : List AVDictionaryEntry) (key : Bytes) (value oldval : Option Bytes) :
    List AVDictionaryEntry :=
  elems ++ (value.map fun new => AVDictionaryEntry.mk key (oldval.elim new (· ++ new))).toList

theorem finishSet_eq (elems : List AVDictionaryEntry) (key : Bytes)
    (value oldval : Option Bytes) :
    finishSet elems key value oldval = if (setEntries elems key value oldval).length = 0 then none
      else some (setEntries elems key value oldval) := by
  cases value with
  | none => simp [finishSet, setEntries]
  | some new => cases oldval <;> simp [finishSet, setEntries]

theorem entries_finishSet (elems : List AVDictionaryEntry) (key : Bytes)
    (value oldval : Option Bytes) :
    entries (finishSet elems key value oldval) = setEntries elems key value oldval := by
  rw [finishSet_eq]
  cases setEntries elems key value oldval <;> rfl

theorem finishSet_ne_some_nil (elems : List AVDictionaryEntry) (key : Bytes)
    (value oldval : Option Bytes) : finishSet elems key value oldval ≠ some [] := by
  rw [finishSet_eq]
  cases setEntries elems key value oldval <;> simp

variable {pm : Option AVDictionary} {key : Bytes} {flags : Flags}

theorem avDictSet_of_none (hmulti : flags.multikey = false)
    (hget : avDictGet pm key none flags = none) (value : Option Bytes) :
    avDictSet pm key value flags = finishSet (entries pm) key value none := by
  simp [avDictSet, hmulti, hget, entries]

theorem avDictSet_of_some (hmulti : flags.multikey = false) {i : Nat}
    (hget : avDictGet pm key none flags = some i) (hi : i < (entries pm).length)
    (value : Option Bytes) :
    avDictSet pm key value flags = if flags.dontOverwrite then some (entries pm)
      else finishSet (swapRemove (entries pm) i) key value
        (if flags.append then some (entries pm)[i].value else none) := by
  have hold : (pm.getD [])[i]? = some (entries pm)[i] := List.getElem?_eq_getElem hi
  simp [avDictSet, hmulti, hget, hold, entries]

/-- The three exits of `av_dict_set`: the key is present and kept, the key is
present and its entry is replaced or removed, or the key is absent. -/
theorem dictStep_cases (pm : Option AVDictionary) (c : SetCall) :
    (∃ i, ∃ hi : i < (entries pm).length, entryKey (entries pm)[i] = foldKey c.key ∧
      ((c.dontOverwrite = true ∧ dictStep pm c = some (entries pm)) ∨
        (c.dontOverwrite = false ∧
          dictStep pm c = finishSet (swapRemove (entries pm) i) c.key c.value
            (if c.append then some (entries pm)[i].value else none)))) ∨
    ((∀ e ∈ entries pm, entryKey e ≠ foldKey c.key) ∧
      dictStep pm c = finishSet (entries pm) c.key c.value none) := by
  cases hget : avDictGet pm c.key none c.flags with
  | none =>
    exact Or.inr ⟨avDictGet_none rfl rfl hget, avDictSet_of_none rfl hget c.value⟩
  | some i =>
    obtain ⟨hi, hkey⟩ := avDictGet_some rfl rfl hget
    have hset : dictStep pm c = if c.dontOverwrite then some (entries pm)
        else finishSet (swapRemove (entries pm) i) c.key c.value
          (if c.append then some (entries pm)[i].value else none) :=
      avDictSet_of_some rfl hget hi c.value
    refine Or.inl ⟨i, hi, hkey, ?_⟩
    cases hkeep : c.dontOverwrite with
    | true => exact Or.inl ⟨rfl, by simpa [hkeep] using hset⟩
    | false => exact Or.inr ⟨rfl, by simpa [hkeep] using hset⟩

variable {l : List AVDictionaryEntry} {e : AVDictionaryEntry}

theorem nodup_map_concat (hnodup : (l.map entryKey).Nodup)
    (hfresh : ∀ d ∈ l, entryKey d ≠ entryKey e) :
    ((l ++ [e]).map entryKey).Nodup := by
  have hcons : ((e :: l).map entryKey).Nodup := by
    rw [List.map_cons, List.nodup_cons]
    refine ⟨?_, hnodup⟩
    intro hmem
    obtain ⟨d, hd, hkey⟩ := List.mem_map.mp hmem
    exact hfresh d hd hkey
  exact ((List.perm_append_singleton e l).map entryKey).nodup_iff.mpr hcons

/-- `finishSet` behind the entries of other keys: keys stay distinct and the map
gets the new value, if there is one. -/
theorem finishSet_mapOf (hnodup : (l.map entryKey).Nodup)
    (hfresh : ∀ e ∈ l, entryKey e ≠ foldKey key) (value oldval : Option Bytes) :
    ((entries (finishSet l key value oldval)).map entryKey).Nodup ∧
      mapOf (finishSet l key value oldval) =
        Function.update (assocGet entryKey (·.value) l) (foldKey key)
          (value.map fun new => oldval.elim new (· ++ new)) := by
  rw [mapOf, entries_finishSet, setEntries]
  cases value with
  | none =>
    have habsent : assocGet entryKey (·.value) l (foldKey key) = none :=
      assocGet_eq_none_iff.mpr hfresh
    refine ⟨by simpa using hnodup, ?_⟩
    rw [Option.map_none, Option.map_none, Option.toList_none, List.append_nil, ← habsent,
      Function.update_eq_self]
  | some new =>
    have hconcat := nodup_map_concat hnodup
      (e := AVDictionaryEntry.mk key (oldval.elim new (· ++ new))) hfresh
    exact ⟨hconcat, assocGet_concat hconcat⟩

/-- Every call keeps the dictionary well formed and updates the map. -/
theorem dictStep_mapOf (hwf : WellFormed pm) (c : SetCall) :
    WellFormed (dictStep pm c) ∧ mapOf (dictStep pm c) = mapStep (mapOf pm) c := by
  rcases dictStep_cases pm c with ⟨i, hi, hkey, hexit⟩ | ⟨habsent, hstep⟩
  · -- the key is present
    have hold : mapOf pm (foldKey c.key) = some (entries pm)[i].value := by
      rw [← hkey]
      exact mapOf_getElem hwf.nodup hi
    rcases hexit with ⟨hkeep, hstep⟩ | ⟨hreplace, hstep⟩
    · have hsame : some (entries pm) = pm := by
        cases pm with
        | none => simp [entries] at hi
        | some elems => rfl
      rw [hstep, hsame]
      exact ⟨hwf, by simp [mapStep, hold, hkeep]⟩
    · -- the found entry leaves first, then the new one is appended
      have hgone : assocGet entryKey (·.value) (swapRemove (entries pm) i) (foldKey c.key) =
          none := by
        rw [assocGet_swapRemove hi hwf.nodup, hkey, Function.update_self]
      obtain ⟨hnodup, hmap⟩ := finishSet_mapOf (nodup_map_swapRemove hi hwf.nodup)
        (assocGet_eq_none_iff.mp hgone) c.value
        (if c.append then some (entries pm)[i].value else none)
      rw [hstep]
      refine ⟨⟨hnodup, finishSet_ne_some_nil _ _ _ _⟩, ?_⟩
      rw [hmap, assocGet_swapRemove hi hwf.nodup, hkey, Function.update_idem]
      show _ = mapStep (mapOf pm) c
      simp only [mapStep, hold, hreplace, Bool.false_eq_true, if_false]
      congr 2
      ext1 new
      cases c.append <;> rfl
  · have hnone : mapOf pm (foldKey c.key) = none := assocGet_eq_none_iff.mpr habsent
    obtain ⟨hnodup, hmap⟩ := finishSet_mapOf hwf.nodup habsent c.value none
    rw [hstep]
    refine ⟨⟨hnodup, finishSet_ne_some_nil _ _ _ _⟩, ?_⟩
    rw [hmap]
    simp only [mapStep, hnone, Option.elim_none, Option.map_id']
    rfl

/-- The entries of every other key keep key and value. -/
theorem mem_entries_dictStep (pm : Option AVDictionary) (c : SetCall)
    (hother : entryKey e ≠ foldKey c.key) :
    e ∈ entries (dictStep pm c) ↔ e ∈ entries pm := by
  -- the entry that is appended has the key of the call
  have happend : ∀ (l : List AVDictionaryEntry) (oldval : Option Bytes),
      e ∈ entries (finishSet l c.key c.value oldval) ↔ e ∈ l := by
    intro l oldval
    rw [entries_finishSet, setEntries, List.mem_append]
    constructor
    · rintro (hmem | hnew)
      · exact hmem
      · cases hvalue : c.value with
        | none => simp [hvalue] at hnew
        | some new =>
          simp only [hvalue, Option.map_some, Option.toList_some, List.mem_singleton] at hnew
          exact absurd (by rw [hnew]; rfl) hother
    · exact Or.inl
  rcases dictStep_cases pm c with ⟨i, hi, hkey, ⟨-, hstep⟩ | ⟨-, hstep⟩⟩ | ⟨-, hstep⟩
  · rw [hstep]
    rfl
  · rw [hstep, happend, ← (swapRemove_perm hi).mem_iff, List.mem_cons]
    constructor
    · exact Or.inr
    · rintro (rfl | hmem)
      · exact absurd hkey hother
      · exact hmem
  · rw [hstep, happend]

end Set

theorem wellFormed_none : WellFormed none := ⟨List.nodup_nil, nofun⟩

theorem run_mapOf (calls : List SetCall) {pm : Option AVDictionary} (hwf : WellFormed pm) :
    WellFormed (run dictStep pm calls) ∧
      mapOf (run dictStep pm calls) = run mapStep (mapOf pm) calls := by
  induction calls generalizing pm with
  | nil => exact ⟨hwf, rfl⟩
  | cons c calls ih =>
    obtain ⟨hstep, hmap⟩ := dictStep_mapOf hwf c
    obtain ⟨hrun, hvalue⟩ := ih hstep
    exact ⟨hrun, by rw [run_cons, run_cons, ← hmap, hvalue]⟩

/-- From NULL on, any calls leave a finite map without a repeated key whose
values `av_dict_get` returns, which is NULL exactly when the map is empty, and
whose entries a further call does not touch unless they have its key. -/
theorem avDictSet_refines_caseMap (calls : List SetCall) : let pm := run dictStep none calls
    let f : CaseMap := run mapStep (fun _ => none) calls
    ((entries pm).map entryKey).Nodup ∧ (∀ key, getValue pm key = f (foldKey key)) ∧
      (pm = none ↔ f = fun _ => none) ∧
      ∀ (c : SetCall) (e : AVDictionaryEntry), entryKey e ≠ foldKey c.key →
        (e ∈ entries (dictStep pm c) ↔ e ∈ entries pm) := by
  obtain ⟨hwf, hmap⟩ := run_mapOf calls wellFormed_none
  replace hmap : mapOf (run dictStep none calls) = run mapStep (fun _ => none) calls := hmap
  refine ⟨hwf.nodup, ?_, ?_, fun c e hother => mem_entries_dictStep _ c hother⟩
  · intro key
    rw [getValue_eq_mapOf hwf.nodup, hmap]
  · rw [← hmap, mapOf, assocGet_eq_empty_iff]
    cases hpm : run dictStep none calls with
    | none => simp [entries]
    | some elems =>
      have hne : elems ≠ [] := fun h => hwf.nonempty (by rw [hpm, h])
      simp [entries, hne]

end DictMap
end Libavutil
end FFmpeg
