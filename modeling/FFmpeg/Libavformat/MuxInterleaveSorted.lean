import Mathlib.Tactic
import Mathlib.Data.List.TakeWhile
import FFmpeg.Common.LinkedList
import FFmpeg.Libavformat.MuxInterleave

/-!
# Interleaving is a sorted merge

The queue of a muxer without chunks, preload, interleave limit and shortest mode is
sorted by time, stream and arrival, and its pointers are what they are named after.
A packet that comes out because every stream has one waiting is not later than any
packet that comes out after it.
-/

namespace FFmpeg.Libavformat.Interleave

open Common Libavutil
open Mux (AVMediaType)

/-! ## Time -/

/-- The decoding time of a packet in seconds, for the time bases `tb` of the streams. -/
def realTime (tb : Nat → AVRational) (pkt : AVPacket) : ℚ :=
  pkt.dts * ((tb pkt.streamIndex).num / (tb pkt.streamIndex).den)

/-- The order of packets: by time, then by stream. -/
def key (tb : Nat → AVRational) (pkt : AVPacket) : ℚ ×ₗ ℕ :=
  toLex (realTime tb pkt, pkt.streamIndex)

/-- The order of the packets of a queue: by time, stream and number of arrival. -/
def rank (tb : Nat → AVRational) (node : Nat × AVPacket) : (ℚ ×ₗ ℕ) ×ₗ ℕ :=
  toLex (key tb node.2, node.1)

/-- The sign of a comparison of times. -/
def compareTimes (x y : ℚ) : Int := if x < y then -1 else if y < x then 1 else 0

/-- The timestamps of the two packets are small enough for `av_compare_ts`. -/
def Exact (tb : Nat → AVRational) (a b : AVPacket) : Prop :=
  avCompareTs a.dts (tb a.streamIndex) b.dts (tb b.streamIndex) =
    compareTimes (realTime tb a) (realTime tb b)

variable {tb : Nat → AVRational}

theorem key_lt_iff {a b : AVPacket} : key tb a < key tb b ↔
    realTime tb a < realTime tb b ∨ realTime tb a = realTime tb b ∧ a.streamIndex < b.streamIndex :=
  Prod.Lex.toLex_lt_toLex

theorem rank_lt_iff {a b : Nat × AVPacket} : rank tb a < rank tb b ↔
    key tb a.2 < key tb b.2 ∨ key tb a.2 = key tb b.2 ∧ a.1 < b.1 :=
  Prod.Lex.toLex_lt_toLex

theorem key_le_of_rank_lt {a b : Nat × AVPacket} (h : rank tb a < rank tb b) :
    key tb a.2 ≤ key tb b.2 := by
  rcases rank_lt_iff.mp h with hlt | ⟨heq, _⟩
  · exact hlt.le
  · exact heq.le

theorem realTime_le_of_key_le {a b : AVPacket} (h : key tb a ≤ key tb b) :
    realTime tb a ≤ realTime tb b := by
  rcases Prod.Lex.toLex_le_toLex.mp h with hlt | ⟨heq, _⟩
  · exact le_of_lt hlt
  · exact le_of_eq heq

/-- The time bases of the streams below `n` are positive. -/
def PositiveBases (tb : Nat → AVRational) (n : Nat) : Prop :=
  ∀ i, i < n → 0 < (tb i).num ∧ 0 < (tb i).den

theorem realTime_le_iff {n : Nat} (htb : PositiveBases tb n) {a b : AVPacket}
    (hn : b.streamIndex < n) (hstream : a.streamIndex = b.streamIndex) :
    realTime tb a ≤ realTime tb b ↔ a.dts ≤ b.dts := by
  obtain ⟨hnum, hden⟩ := htb _ hn
  have hpos : (0 : ℚ) < (tb b.streamIndex).num / (tb b.streamIndex).den :=
    div_pos (by exact_mod_cast hnum) (by exact_mod_cast hden)
  rw [realTime, realTime, hstream, mul_le_mul_iff_left₀ hpos]
  exact Int.cast_le

theorem key_le_of_dts_le {n : Nat} (htb : PositiveBases tb n) {a b : AVPacket}
    (hn : b.streamIndex < n) (hstream : a.streamIndex = b.streamIndex) (hdts : a.dts ≤ b.dts) :
    key tb a ≤ key tb b := by
  have htime := (realTime_le_iff htb hn hstream).mpr hdts
  rcases htime.lt_or_eq with hlt | heq
  · exact Prod.Lex.toLex_le_toLex.mpr (Or.inl hlt)
  · exact Prod.Lex.toLex_le_toLex.mpr (Or.inr ⟨heq, hstream.le⟩)

theorem exact_of_orFitsInt {n : Nat} (htb : PositiveBases tb n) {a b : AVPacket}
    (ha : a.streamIndex < n) (hb : b.streamIndex < n)
    (hfits : orFitsInt a.dts ((tb a.streamIndex).num * (tb b.streamIndex).den) b.dts
      ((tb b.streamIndex).num * (tb a.streamIndex).den) = true) : Exact tb a b := by
  have hda : (0 : ℚ) < (tb a.streamIndex).den := by exact_mod_cast (htb _ ha).2
  have hdb : (0 : ℚ) < (tb b.streamIndex).den := by exact_mod_cast (htb _ hb).2
  have hlt (x y : AVPacket) (hx : (0 : ℚ) < (tb x.streamIndex).den)
      (hy : (0 : ℚ) < (tb y.streamIndex).den) : realTime tb x < realTime tb y ↔
      x.dts * ((tb x.streamIndex).num * (tb y.streamIndex).den) <
        y.dts * ((tb y.streamIndex).num * (tb x.streamIndex).den) := by
    rw [realTime, realTime, ← mul_div_assoc, ← mul_div_assoc, div_lt_div_iff₀ hx hy]
    rw [mul_assoc, mul_assoc]
    exact_mod_cast Iff.rfl
  unfold Exact avCompareTs compareTimes
  simp only [hfits, if_true, hlt a b hda hdb, hlt b a hdb hda]
  split_ifs <;> lia

/-! ## The queue -/

/-- Chunks, audio preload, the interleave limit and the shortest mode are off. -/
structure Plain (s : AVFormatContext) : Prop where
  maxChunkSize : s.maxChunkSize = 0
  maxChunkDuration : s.maxChunkDuration = 0
  audioPreload : s.audioPreload = 0
  maxInterleaveDelta : s.maxInterleaveDelta = 0
  flagShortest : s.flagShortest = false
  shortestEnd : s.shortestEnd = avNoptsValue

/-- The packets of a stream in a queue. -/
def ofStream (i : Nat) (l : List (Nat × AVPacket)) : List (Nat × AVPacket) :=
  l.filter fun node => node.2.streamIndex = i

/-- The pointer to the last packet of a sequence. -/
def lastPtr (l : List (Nat × AVPacket)) : Option Nat := l.getLast?.map (·.1)

/-- The queue holds the packets `l`, each at the address and with the number of arrival
given with it. -/
structure Queue (tb : Nat → AVRational) (types : List AVMediaType) (s : AVFormatContext)
    (l : List (Nat × AVPacket)) : Prop where
  plain : Plain s
  types_eq : s.streams.map (·.codecType) = types
  nb_eq : s.nbInterleavedStreams = types.countP (· ≠ .attachment)
  timeBase_eq : ∀ i, i < types.length → (s.stream i).timeBase = tb i
  chain : s.heap.Chain none s.packetBuffer l
  end_eq : s.packetBufferEnd = lastPtr l
  last_eq : ∀ i, i < types.length → (s.stream i).lastInPacketBuffer = lastPtr (ofStream i l)
  sorted : l.Pairwise fun a b => rank tb a < rank tb b
  nodup : (l.map (·.1)).Nodup
  stream_lt : ∀ node ∈ l, node.2.streamIndex < types.length

variable {types : List AVMediaType} {s : AVFormatContext} {l l₁ l₂ : List (Nat × AVPacket)}
  {pkt : AVPacket}

theorem Queue.length_eq (hq : Queue tb types s l) : s.streams.length = types.length := by
  rw [← hq.types_eq, List.length_map]

theorem interleaveCompareDts_iff (hplain : Plain s)
    (htb : ∀ i, i < types.length → (s.stream i).timeBase = tb i) {next : AVPacket}
    (hnext : next.streamIndex < types.length) (hpkt : pkt.streamIndex < types.length) (hexact : Exact tb next pkt) :
    interleaveCompareDts s next pkt = true ↔ key tb pkt < key tb next := by
  unfold interleaveCompareDts
  simp only [hplain.audioPreload, htb _ hnext, htb _ hpkt, ne_eq, not_true_eq_false, if_false]
  rw [hexact, compareTimes, key_lt_iff]
  rcases lt_trichotomy (realTime tb next) (realTime tb pkt) with hlt | heq | hgt
  · simp [hlt, not_lt_of_gt hlt, ne_of_gt hlt]
  · simp [heq]
  · simp [hgt, not_lt_of_gt hgt]

/-! ## Adding a packet -/

theorem sorted_insert {a : Nat} (hsorted : (l₁ ++ l₂).Pairwise fun x y => rank tb x < rank tb y)
    (hnew : ∀ node ∈ l₁ ++ l₂, node.1 < a) (hbefore : ∀ x ∈ l₁, key tb x.2 ≤ key tb pkt)
    (hbehind : ∀ y ∈ l₂, key tb pkt < key tb y.2) :
    (l₁ ++ (a, pkt) :: l₂).Pairwise fun x y => rank tb x < rank tb y := by
  obtain ⟨h₁, h₂, h₁₂⟩ := List.pairwise_append.mp hsorted
  have hleft (x : Nat × AVPacket) (hx : x ∈ l₁) : rank tb x < rank tb (a, pkt) := by
    apply rank_lt_iff.mpr
    rcases (hbefore x hx).lt_or_eq with hlt | heq
    · exact Or.inl hlt
    · exact Or.inr ⟨heq, hnew x (List.mem_append_left l₂ hx)⟩
  have hright (y : Nat × AVPacket) (hy : y ∈ l₂) : rank tb (a, pkt) < rank tb y :=
    rank_lt_iff.mpr (Or.inl (hbehind y hy))
  apply List.pairwise_append.mpr
  refine ⟨h₁, List.pairwise_cons.mpr ⟨hright, h₂⟩, ?_⟩
  intro x hx y hy
  rcases List.mem_cons.mp hy with rfl | hy
  · exact hleft x hx
  · exact h₁₂ x hx y hy

theorem key_le_last {x y : Nat × AVPacket}
    (hsorted : l.Pairwise fun a b => rank tb a < rank tb b) (hlast : l.getLast? = some y)
    (hx : x ∈ l) : key tb x.2 ≤ key tb y.2 := by
  obtain ⟨init, rfl⟩ := List.getLast?_eq_some_iff.mp hlast
  rcases List.mem_append.mp hx with hinit | hself
  · exact key_le_of_rank_lt ((List.pairwise_append.mp hsorted).2.2 x hinit y (by simp))
  · rw [List.mem_singleton.mp hself]

theorem key_lt_of_head {x y : Nat × AVPacket}
    (hsorted : l.Pairwise fun a b => rank tb a < rank tb b) (hhead : l.head? = some y)
    (hy : key tb pkt < key tb y.2) (hx : x ∈ l) : key tb pkt < key tb x.2 := by
  cases l with
  | nil => cases hhead
  | cons node l =>
    obtain rfl : node = y := Option.some.inj hhead
    rcases List.mem_cons.mp hx with rfl | hmem
    · exact hy
    · exact hy.trans_le (key_le_of_rank_lt ((List.pairwise_cons.mp hsorted).1 x hmem))

/-- Behind the last packet of a stream, or at the head: the slot where the search for the
place of a packet starts. -/
theorem exists_nextPoint (i : Nat) (l : List (Nat × AVPacket)) : ∃ l₁ l₂, l = l₁ ++ l₂ ∧
    nextPointAfter (lastPtr (ofStream i l)) = Heap.slotAfter l₁ ∧
      ∀ y, l₁.getLast? = some y → y.2.streamIndex = i := by
  induction l using List.reverseRecOn with
  | nil => exact ⟨[], [], rfl, rfl, fun y hy => by cases hy⟩
  | append_singleton l node ih =>
    obtain ⟨a, x⟩ := node
    by_cases hi : x.streamIndex = i
    · refine ⟨l ++ [(a, x)], [], (List.append_nil _).symm, ?_, ?_⟩
      · have hlast : lastPtr (ofStream i (l ++ [(a, x)])) = some a := by
          rw [ofStream, List.filter_append]
          simp [hi, lastPtr]
        rw [hlast, Heap.slotAfter_concat]
        rfl
      · intro y hy
        obtain rfl : (a, x) = y := by simpa using hy
        exact hi
    · have hrest : ofStream i (l ++ [(a, x)]) = ofStream i l := by
        rw [ofStream, List.filter_append]
        simp [hi, ofStream]
      obtain ⟨l₁, l₂, hl, hslot, hstream⟩ := ih
      refine ⟨l₁, l₂ ++ [(a, x)], ?_, ?_, hstream⟩
      · rw [hl, List.append_assoc]
      · rw [hrest, hslot]

variable {i : Nat}

theorem lastPtr_ofStream_insert {a : Nat} (hbehind : ∀ y ∈ l₂, y.2.streamIndex ≠ pkt.streamIndex) :
    lastPtr (ofStream i (l₁ ++ (a, pkt) :: l₂)) =
      if i = pkt.streamIndex then some a else lastPtr (ofStream i (l₁ ++ l₂)) := by
  unfold ofStream
  rw [List.filter_append, List.filter_append]
  split
  · next hi =>
    have hnone : l₂.filter (fun node => decide (node.2.streamIndex = i)) = [] := by
      apply List.filter_eq_nil_iff.mpr
      intro y hy
      simpa [hi] using hbehind y hy
    rw [List.filter_cons_of_pos (by simpa using hi.symm), hnone]
    simp [lastPtr]
  · next hi =>
    rw [List.filter_cons_of_neg (by simpa using fun h => hi h.symm)]

theorem getD_modify (streams : List AVStream) (i j : Nat) (f : AVStream → AVStream) :
    (streams.modify i f).getD j default =
      if i = j ∧ j < streams.length then f (streams.getD j default)
      else streams.getD j default := by
  rw [List.getD_eq_getElem?_getD, List.getD_eq_getElem?_getD, List.getElem?_modify]
  by_cases hj : j < streams.length
  · rw [List.getElem?_eq_getElem hj]
    simp only [Option.map_eq_map, Option.map_some, Option.getD_some, hj, and_true]
  · rw [List.getElem?_eq_none (Nat.le_of_not_lt hj)]
    simp [hj]

theorem map_codecType_modify (streams : List AVStream) (i : Nat) (f : AVStream → AVStream)
    (hf : ∀ st, (f st).codecType = st.codecType) :
    (streams.modify i f).map (·.codecType) = streams.map (·.codecType) := by
  apply List.ext_getElem?
  intro j
  rw [List.getElem?_map, List.getElem?_map, List.getElem?_modify]
  cases streams[j]? with
  | none => rfl
  | some st =>
    simp only [Option.map_eq_map, Option.map_some]
    split
    · rw [hf]
    · rfl

variable {next : Option Nat}

/-- Linking a packet in at its place gives the queue with that packet. -/
theorem queue_linkPacket {a : Nat} (hq : Queue tb types s (l₁ ++ l₂))
    (hload : s.heap.load a = some ⟨pkt, next⟩) (hnew : ∀ node ∈ l₁ ++ l₂, node.1 < a)
    (hn : pkt.streamIndex < types.length) (hbefore : ∀ x ∈ l₁, key tb x.2 ≤ key tb pkt)
    (hbehind : ∀ y ∈ l₂, key tb pkt < key tb y.2)
    (hstream : ∀ y ∈ l₂, y.2.streamIndex ≠ pkt.streamIndex) :
    ∃ s', linkPacket s pkt.streamIndex a (Heap.slotAfter l₁) l₂.isEmpty = some s' ∧
      Queue tb types s' (l₁ ++ (a, pkt) :: l₂) ∧ s'.heap.cells.length = s.heap.cells.length := by
  obtain ⟨h₁, h₂, head, hset, hwrite, hlength, hchain⟩ := Heap.link_slotAfter hq.chain hq.nodup hload
    (fun node hnode => (hnew node hnode).ne)
  refine ⟨{ s with
    heap := h₂
    packetBuffer := head
    packetBufferEnd := if l₂.isEmpty then some a else s.packetBufferEnd
    streams := s.streams.modify pkt.streamIndex fun st => { st with lastInPacketBuffer := some a } },
    ?_, ?_, hlength⟩
  · simp only [linkPacket, Heap.readSlot_slotAfter hq.chain, hset, hwrite, Option.bind_eq_bind,
      Option.bind_some]
  · constructor
    · exact ⟨hq.plain.1, hq.plain.2, hq.plain.3, hq.plain.4, hq.plain.5, hq.plain.6⟩
    · refine (map_codecType_modify _ _ _ fun st => ?_).trans hq.types_eq
      rfl
    · exact hq.nb_eq
    · intro i hi
      show ((s.streams.modify _ _).getD i default).timeBase = tb i
      rw [getD_modify, ← hq.timeBase_eq i hi]
      split <;> rfl
    · exact hchain
    · show (if l₂.isEmpty then some a else s.packetBufferEnd) = _
      rw [hq.end_eq]
      cases l₂ with
      | nil => simp [lastPtr]
      | cons y l₂ => simp [lastPtr, List.getLast?_append, List.getLast?_cons]
    · intro i hi
      show ((s.streams.modify _ _).getD i default).lastInPacketBuffer = _
      rw [getD_modify, lastPtr_ofStream_insert hstream, ← hq.last_eq i hi]
      by_cases heq : pkt.streamIndex = i
      · rw [if_pos ⟨heq, by rw [hq.length_eq]; exact hi⟩, if_pos heq.symm]
      · rw [if_neg fun h => heq h.1, if_neg fun h => heq h.symm]
        rfl
    · exact sorted_insert hq.sorted hnew hbefore hbehind
    · have hperm : ((l₁ ++ (a, pkt) :: l₂).map (·.1)).Perm (a :: (l₁ ++ l₂).map (·.1)) := by
        rw [List.map_append, List.map_append, List.map_cons]
        exact List.perm_middle
      apply hperm.nodup_iff.mpr
      apply List.nodup_cons.mpr
      refine ⟨?_, hq.nodup⟩
      intro hmem
      obtain ⟨node, hnode, heq⟩ := List.mem_map.mp hmem
      exact (hnew node hnode).ne heq
    · intro node hnode
      rcases List.mem_append.mp hnode with hleft | hright
      · exact hq.stream_lt node (List.mem_append_left l₂ hleft)
      · rcases List.mem_cons.mp hright with rfl | hright
        · exact hn
        · exact hq.stream_lt node (List.mem_append_right l₁ hright)

/-- What may be added to a queue: a packet of one of its streams that is not before the
packets of its stream in the queue. -/
structure Addable (tb : Nat → AVRational) (types : List AVMediaType) (l : List (Nat × AVPacket))
    (pkt : AVPacket) : Prop where
  stream_lt : pkt.streamIndex < types.length
  dts_le : ∀ x ∈ l, x.2.streamIndex = pkt.streamIndex → x.2.dts ≤ pkt.dts
  exact : ∀ x ∈ l, Exact tb x.2 pkt

theorem Addable.stream_ne (h : Addable tb types l pkt) (htb : PositiveBases tb types.length)
    {y : Nat × AVPacket} (hy : y ∈ l) (hlt : key tb pkt < key tb y.2) :
    y.2.streamIndex ≠ pkt.streamIndex := by
  intro hstream
  have hle := key_le_of_dts_le htb h.stream_lt hstream (h.dts_le y hy hstream)
  exact absurd hlt (not_lt_of_ge hle)

theorem Queue.alloc (hq : Queue tb types s l) (pkt : AVPacket) :
    Queue tb types { s with
      heap := (s.heap.alloc ⟨pkt, none⟩).2
      streams := s.streams.set pkt.streamIndex (s.stream pkt.streamIndex) } l ∧
    ∀ node ∈ l, node.1 < s.heap.cells.length := by
  have hsame : s.streams.set pkt.streamIndex (s.stream pkt.streamIndex) = s.streams := by
    apply List.ext_getElem?
    intro j
    rw [List.getElem?_set]
    split
    · next hij =>
      subst hij
      split
      · next hlt =>
        rw [AVFormatContext.stream, List.getD_eq_getElem?_getD, List.getElem?_eq_getElem hlt,
          Option.getD_some]
      · next hge => rw [List.getElem?_eq_none (Nat.le_of_not_lt hge)]
    · rfl
  rw [hsame]
  refine ⟨⟨⟨hq.plain.1, hq.plain.2, hq.plain.3, hq.plain.4, hq.plain.5, hq.plain.6⟩,
    hq.types_eq, hq.nb_eq, hq.timeBase_eq, ?_, hq.end_eq, hq.last_eq, hq.sorted, hq.nodup,
    hq.stream_lt⟩, ?_⟩
  · exact hq.chain.alloc ⟨pkt, none⟩
  · intro node hnode
    exact hq.chain.lt hnode

/-- The search stops at a place where the packet keeps the queue sorted. -/
theorem placePacket_spec (htb : PositiveBases tb types.length) {a : Nat}
    {l₀ m : List (Nat × AVPacket)} (hq : Queue tb types s (l₀ ++ m))
    (hadd : Addable tb types (l₀ ++ m) pkt) (hload : s.heap.load a = some ⟨pkt, next⟩)
    (hnew : ∀ node ∈ l₀ ++ m, node.1 < a)
    (hstart : ∀ y, l₀.getLast? = some y → y.2.streamIndex = pkt.streamIndex) :
    ∃ s' l₁ l₂, placePacket interleaveCompareDts false s pkt a (Heap.slotAfter l₀) = some s' ∧
      l₀ ++ m = l₁ ++ l₂ ∧ Queue tb types s' (l₁ ++ (a, pkt) :: l₂) ∧
      s'.heap.cells.length = s.heap.cells.length := by
  -- linking in at any sorted place
  have hlink (l₁ l₂ : List (Nat × AVPacket)) (hl : l₀ ++ m = l₁ ++ l₂)
      (hbefore : ∀ x ∈ l₁, key tb x.2 ≤ key tb pkt)
      (hbehind : ∀ y ∈ l₂, key tb pkt < key tb y.2) :
      ∃ s', linkPacket s pkt.streamIndex a (Heap.slotAfter l₁) l₂.isEmpty = some s' ∧
        Queue tb types s' (l₁ ++ (a, pkt) :: l₂) ∧
        s'.heap.cells.length = s.heap.cells.length := by
    rw [hl] at hq hnew
    refine queue_linkPacket hq hload hnew hadd.stream_lt hbefore hbehind ?_
    intro y hy
    exact hadd.stream_ne htb (by rw [hl]; exact List.mem_append_right l₁ hy) (hbehind y hy)
  have hcompare (x : Nat × AVPacket) (hx : x ∈ l₀ ++ m) :
      interleaveCompareDts s x.2 pkt = true ↔ key tb pkt < key tb x.2 :=
    interleaveCompareDts_iff hq.plain hq.timeBase_eq (hq.stream_lt x hx) hadd.stream_lt
      (hadd.exact x hx)
  obtain ⟨hsorted₀, hsortedm, hsorted⟩ := List.pairwise_append.mp hq.sorted
  -- the packets before the start of the search are not later than the packet
  have hbefore₀ (x : Nat × AVPacket) (hx : x ∈ l₀) : key tb x.2 ≤ key tb pkt := by
    cases hlast : l₀.getLast? with
    | none =>
      rw [List.getLast?_eq_none_iff.mp hlast] at hx
      cases hx
    | some y =>
      have hy : y ∈ l₀ ++ m := List.mem_append_left m (List.mem_of_getLast? hlast)
      have hstream := hstart y hlast
      exact (key_le_last hsorted₀ hlast hx).trans
        (key_le_of_dts_le htb hadd.stream_lt hstream (hadd.dts_le y hy hstream))
  cases m with
  | nil =>
    -- the last packet of the stream is the last one of the queue
    obtain ⟨s', hs', hqueue, hlength⟩ := hlink l₀ [] rfl hbefore₀ (fun y hy => by cases hy)
    refine ⟨s', l₀, [], ?_, rfl, hqueue, hlength⟩
    rw [← hs', placePacket, Heap.readSlot_slotAfter hq.chain]
    rfl
  | cons y m =>
    obtain ⟨last, hlast⟩ : ∃ last, (l₀ ++ y :: m).getLast? = some last := by
      cases hnone : (l₀ ++ y :: m).getLast? with
      | none => simp at hnone
      | some last => exact ⟨last, rfl⟩
    have hmem : last ∈ l₀ ++ y :: m := List.mem_of_getLast? hlast
    obtain ⟨_, hlastload⟩ := hq.chain.load (a := last.1) (x := last.2) hmem
    have hend : s.packetBufferEnd = some last.1 := by rw [hq.end_eq, lastPtr, hlast]; rfl
    have hread : s.heap.readSlot s.packetBuffer (Heap.slotAfter l₀) = some (some y.1) :=
      Heap.readSlot_slotAfter hq.chain
    have hchunk : (false && !pkt.chunkStart) = false := rfl
    by_cases hlater : key tb pkt < key tb last.2
    · -- the packet goes before the first later one
      have hskip := Heap.skipWhile_slotAfter (f := fun next =>
        (false && !next.chunkStart) || !interleaveCompareDts s next pkt) hq.chain
        (show (y :: m).length < s.heap.cells.length + 1 by
          have hle := hq.chain.length_le hq.nodup
          rw [List.length_append] at hle
          lia)
      obtain ⟨m₁, hm₁⟩ : ∃ m₁, m₁ = (y :: m).takeWhile fun node =>
        (false && !node.2.chunkStart) || !interleaveCompareDts s node.2 pkt := ⟨_, rfl⟩
      obtain ⟨m₂, hm₂⟩ : ∃ m₂, m₂ = (y :: m).dropWhile fun node =>
        (false && !node.2.chunkStart) || !interleaveCompareDts s node.2 pkt := ⟨_, rfl⟩
      have hsplit : m₁ ++ m₂ = y :: m := by rw [hm₁, hm₂, List.takeWhile_append_dropWhile]
      have hl : l₀ ++ y :: m = (l₀ ++ m₁) ++ m₂ := by rw [List.append_assoc, hsplit]
      have hbefore (x : Nat × AVPacket) (hx : x ∈ l₀ ++ m₁) : key tb x.2 ≤ key tb pkt := by
        rcases List.mem_append.mp hx with hx₀ | hx₁
        · exact hbefore₀ x hx₀
        · have hnot := List.mem_takeWhile_imp (hm₁ ▸ hx₁)
          rw [Bool.false_and, Bool.false_or, Bool.not_eq_true', ← Bool.not_eq_true,
            hcompare x (by rw [hl]; exact List.mem_append_left m₂ hx)] at hnot
          exact le_of_not_gt hnot
      have hbehind (x : Nat × AVPacket) (hx : x ∈ m₂) : key tb pkt < key tb x.2 := by
        have hsorted₂ : m₂.Pairwise fun a b => rank tb a < rank tb b :=
          (List.pairwise_append.mp (hsplit ▸ hsortedm)).2.1
        cases hhead : m₂.head? with
        | none =>
          rw [List.head?_eq_none_iff.mp hhead] at hx
          cases hx
        | some z =>
          have hz : z ∈ l₀ ++ y :: m := by
            rw [hl]
            exact List.mem_append_right _ (List.mem_of_head? hhead)
          have hstop := List.head?_dropWhile_not (fun node : Nat × AVPacket =>
            (false && !node.2.chunkStart) || !interleaveCompareDts s node.2 pkt) (y :: m)
          rw [← hm₂, hhead] at hstop
          apply key_lt_of_head hsorted₂ hhead ((hcompare z hz).mp ?_) hx
          simpa using hstop
      obtain ⟨s', hs', hqueue, hlength⟩ := hlink (l₀ ++ m₁) m₂ hl hbefore hbehind
      refine ⟨s', l₀ ++ m₁, m₂, ?_, hl, hqueue, hlength⟩
      have hcmp : interleaveCompareDts s last.2 pkt = true := (hcompare last hmem).mpr hlater
      have hread₂ : s.heap.readSlot s.packetBuffer (Heap.slotAfter (l₀ ++ m₁)) =
          some (Heap.first m₂) := Heap.readSlot_slotAfter (hl ▸ hq.chain)
      have hempty : (Heap.first m₂).isNone = m₂.isEmpty := by cases m₂ <;> rfl
      rw [← hm₁] at hskip
      simp only [placePacket, hread, hchunk, hend, hlastload, hcmp, hskip, hread₂, hempty, ← hs',
        Option.bind_eq_bind, Option.bind_some, Option.isNone_some, Bool.false_eq_true, if_false,
        if_true]
    · -- the packet goes to the end
      have hbefore (x : Nat × AVPacket) (hx : x ∈ l₀ ++ y :: m) : key tb x.2 ≤ key tb pkt :=
        (key_le_last hq.sorted hlast hx).trans (le_of_not_gt hlater)
      obtain ⟨s', hs', hqueue, hlength⟩ := hlink (l₀ ++ y :: m) [] (List.append_nil _).symm
        hbefore (fun x hx => by cases hx)
      refine ⟨s', l₀ ++ y :: m, [], ?_, (List.append_nil _).symm, hqueue, hlength⟩
      have hcmp : interleaveCompareDts s last.2 pkt = false := by
        rw [← Bool.not_eq_true, hcompare last hmem]
        exact hlater
      have hslot : Heap.slotAfter (l₀ ++ y :: m) = .next last.1 := by
        rw [Heap.slotAfter, hlast]
      simp only [placePacket, hread, hchunk, hend, hlastload, hcmp, ← hs', hslot,
        Option.bind_eq_bind, Option.bind_some, Option.isNone_some, Bool.false_eq_true, if_false,
        List.isEmpty_nil]

theorem ffInterleaveAddPacket_spec (htb : PositiveBases tb types.length) (hq : Queue tb types s l)
    (hadd : Addable tb types l pkt) :
    ∃ s' l₁ l₂, ffInterleaveAddPacket interleaveCompareDts s pkt = some s' ∧ l = l₁ ++ l₂ ∧
      Queue tb types s' (l₁ ++ (s.heap.cells.length, pkt) :: l₂) ∧
      s'.heap.cells.length = s.heap.cells.length + 1 := by
  obtain ⟨hq', hnew⟩ := hq.alloc pkt
  obtain ⟨l₀, m, hl, hslot, hstart⟩ := exists_nextPoint pkt.streamIndex l
  subst hl
  obtain ⟨s', l₁, l₂, hplace, hl, hqueue, hlength⟩ := placePacket_spec htb hq' hadd
    (Heap.load_alloc_self s.heap ⟨pkt, none⟩) hnew hstart
  refine ⟨s', l₁, l₂, ?_, hl, hqueue, ?_⟩
  · rw [← hplace, ← hslot, ← hq.last_eq _ hadd.stream_lt]
    unfold ffInterleaveAddPacket
    simp only [hq.plain.maxChunkSize, hq.plain.maxChunkDuration, ne_eq, not_true_eq_false,
      or_self, decide_false, Bool.false_eq_true, if_false]
  · rw [hlength]
    exact List.length_append

/-! ## Taking packets out -/

variable {st : AVStream}

/-- The pointer to the last packet of a stream after the first packet was taken out. -/
theorem lastPtr_takeFirst {a len : Nat} (hne : ∀ node ∈ l, node.1 ≠ a)
    (hlast : st.lastInPacketBuffer = lastPtr (ofStream i ((a, pkt) :: l))) (hi : i < len) :
    (if pkt.streamIndex = i ∧ i < len then
        if st.lastInPacketBuffer = some a then { st with lastInPacketBuffer := none } else st
      else st).lastInPacketBuffer = lastPtr (ofStream i l) := by
  by_cases hstream : pkt.streamIndex = i
  · have hcons : ofStream i ((a, pkt) :: l) = (a, pkt) :: ofStream i l := by
      rw [ofStream, List.filter_cons_of_pos (by simpa using hstream), ofStream]
    rw [hcons] at hlast
    rw [if_pos ⟨hstream, hi⟩]
    cases hrest : (ofStream i l).getLast? with
    | none =>
      rw [List.getLast?_eq_none_iff.mp hrest] at hlast ⊢
      have hself : st.lastInPacketBuffer = some a := hlast
      rw [if_pos hself]
      rfl
    | some node =>
      have hmem : node ∈ l := List.mem_of_mem_filter (List.mem_of_getLast? hrest)
      have hnode : st.lastInPacketBuffer = some node.1 := by
        rw [hlast, lastPtr, List.getLast?_cons, hrest]
        rfl
      rw [hnode, if_neg fun h => hne node hmem (Option.some.inj h), hnode, lastPtr, hrest]
      rfl
  · have hcons : ofStream i ((a, pkt) :: l) = ofStream i l := by
      rw [ofStream, List.filter_cons_of_neg (by simpa using hstream), ofStream]
    rw [if_neg fun h => hstream h.1, hlast, hcons]

/-- The first packet of a queue is taken out, and the rest is a queue. -/
theorem takeFirst_spec {node : Nat × AVPacket} (hq : Queue tb types s (node :: l)) :
    ∃ s', takeFirst s = some (node.2, s') ∧ Queue tb types s' l ∧
      s'.heap.cells.length = s.heap.cells.length := by
  obtain ⟨a, pkt⟩ := node
  have hnodup : (a :: l.map (·.1)).Nodup := hq.nodup
  obtain ⟨hnot, hrest⟩ := List.nodup_cons.mp hnodup
  have hne (node : Nat × AVPacket) (hnode : node ∈ l) : node.1 ≠ a := by
    intro heq
    exact hnot (List.mem_map.mpr ⟨node, hnode, heq⟩)
  obtain ⟨next, hhead, hload, hchain⟩ := Heap.chain_free_first hq.chain hne
  have hnext : next = Heap.first l := Heap.Chain.first_eq hchain
  refine ⟨{ s with
    heap := s.heap.free a
    packetBuffer := next
    packetBufferEnd := if next.isNone then none else s.packetBufferEnd
    streams := s.streams.modify pkt.streamIndex fun st =>
      if st.lastInPacketBuffer = some a then { st with lastInPacketBuffer := none } else st },
    ?_, ?_, List.length_set⟩
  · simp only [takeFirst, hhead, hload, Option.bind_eq_bind, Option.bind_some]
  · constructor
    · exact ⟨hq.plain.1, hq.plain.2, hq.plain.3, hq.plain.4, hq.plain.5, hq.plain.6⟩
    · refine (map_codecType_modify _ _ _ fun st => ?_).trans hq.types_eq
      split <;> rfl
    · exact hq.nb_eq
    · intro i hi
      show ((s.streams.modify _ _).getD i default).timeBase = tb i
      rw [getD_modify, ← hq.timeBase_eq i hi]
      split
      · split <;> rfl
      · rfl
    · exact hchain
    · show (if next.isNone then none else s.packetBufferEnd) = lastPtr l
      rw [hnext, hq.end_eq]
      cases l with
      | nil => rfl
      | cons y l => simp [Heap.first, lastPtr, List.getLast?_cons]
    · intro i hi
      show ((s.streams.modify _ _).getD i default).lastInPacketBuffer = lastPtr (ofStream i l)
      rw [getD_modify]
      exact lastPtr_takeFirst hne (hq.last_eq i hi) (by rw [hq.length_eq]; exact hi)
    · exact (List.pairwise_cons.mp hq.sorted).2
    · exact hrest
    · intro y hy
      exact hq.stream_lt y (List.mem_cons_of_mem _ hy)

theorem stream_mem (hi : i < s.streams.length) : s.stream i ∈ s.streams := by
  rw [AVFormatContext.stream, List.getD_eq_getElem?_getD, List.getElem?_eq_getElem hi,
    Option.getD_some]
  exact List.getElem_mem hi

theorem exists_stream (h : st ∈ s.streams) : ∃ i, i < s.streams.length ∧ s.stream i = st := by
  obtain ⟨i, hi, hst⟩ := List.getElem_of_mem h
  refine ⟨i, hi, ?_⟩
  rw [AVFormatContext.stream, List.getD_eq_getElem?_getD, List.getElem?_eq_getElem hi,
    Option.getD_some, hst]

theorem last_isSome_iff (hq : Queue tb types s l) (hi : i < types.length) :
    (s.stream i).lastInPacketBuffer.isSome = true ↔ ∃ x ∈ l, x.2.streamIndex = i := by
  rw [hq.last_eq i hi, lastPtr, Option.isSome_map]
  constructor
  · intro hsome
    obtain ⟨x, hx⟩ := Option.isSome_iff_exists.mp hsome
    have hmem := List.mem_filter.mp (List.mem_of_getLast? hx)
    exact ⟨x, hmem.1, by simpa using hmem.2⟩
  · rintro ⟨x, hx, hstream⟩
    have hmem : x ∈ ofStream i l := List.mem_filter.mpr ⟨hx, by simpa using hstream⟩
    cases hlast : (ofStream i l).getLast? with
    | none =>
      rw [List.getLast?_eq_none_iff.mp hlast] at hmem
      cases hmem
    | some y => rfl

theorem streamCount_eq_zero_iff (hq : Queue tb types s l) : streamCount s = 0 ↔ l = [] := by
  rw [streamCount, List.countP_eq_zero]
  constructor
  · intro hnone
    cases l with
    | nil => rfl
    | cons x l =>
      have hlt := hq.stream_lt x List.mem_cons_self
      have hsome := (last_isSome_iff hq hlt).mpr ⟨x, List.mem_cons_self, rfl⟩
      exact absurd hsome (hnone _ (stream_mem (by rw [hq.length_eq]; exact hlt)))
  · intro hl st hst hsome
    obtain ⟨i, hi, rfl⟩ := exists_stream hst
    rw [hq.length_eq] at hi
    obtain ⟨x, hx, _⟩ := (last_isSome_iff hq hi).mp hsome
    rw [hl] at hx
    cases hx

/-- Without the special modes a packet is returned when the queue is not empty and is
flushed, or has a packet of as many streams as are interleaved. -/
theorem outputPacket_eq (hq : Queue tb types s l) (flush : Bool) :
    outputPacket s flush =
      if l ≠ [] ∧ (flush = true ∨ s.nbInterleavedStreams = streamCount s) then
        (takeFirst s).map fun (pkt, s) => (some pkt, s)
      else some (none, s) := by
  have hplain := hq.plain
  have hcount := streamCount_eq_zero_iff hq
  unfold outputPacket
  simp only [hplain.maxInterleaveDelta, hplain.flagShortest, hplain.shortestEnd, lt_self_iff_false,
    false_and, Bool.false_eq_true, and_false, if_false, ne_eq, not_true_eq_false,
    hcount, Option.bind_eq_bind, Option.bind_some, not_false_eq_true, and_true,
    Bool.or_eq_true, decide_eq_true_eq]
  split
  · cases takeFirst s with
    | none => rfl
    | some r => rfl
  · rfl

/-! ## Runs -/

/-- The packets with their numbers of arrival. -/
def numbered (added : List AVPacket) : List (Nat × AVPacket) :=
  added.zipIdx.map Prod.swap

theorem numbered_append (added : List AVPacket) (pkt : AVPacket) :
    numbered (added ++ [pkt]) = numbered added ++ [(added.length, pkt)] := by
  simp [numbered, List.zipIdx_append]

/-- A packet a stream may give to the muxer. -/
def Valid (types : List AVMediaType) (pkt : AVPacket) : Prop :=
  ∃ type, types[pkt.streamIndex]? = some type ∧ type ≠ .attachment

/-- The packet `x` is not later than anything that may still come out: the queue `l`, and
what any stream may add after the packets `added`. -/
structure Due (tb : Nat → AVRational) (types : List AVMediaType) (added : List AVPacket)
    (l : List (Nat × AVPacket)) (x : AVPacket) : Prop where
  queue : ∀ y ∈ l, realTime tb x ≤ realTime tb y.2
  streams : ∀ i type, types[i]? = some type → type ≠ .attachment →
    ∃ a ∈ added, a.streamIndex = i ∧ realTime tb x ≤ realTime tb a

/-- The invariant of a run: the packets returned and those in the queue are the ones added,
and what came out without a flush is not later than what comes out after it. -/
structure Interleaved (tb : Nat → AVRational) (types : List AVMediaType) (r : Run)
    (out l : List (Nat × AVPacket)) : Prop where
  queue : Queue tb types r.context l
  cells_eq : r.context.heap.cells.length = r.added.length
  valid : ∀ a ∈ r.added, Valid types a
  perm : (out ++ l).Perm (numbered r.added)
  returned_eq : r.returned.map (·.2) = out.map (·.2)
  ordered : r.returned.Pairwise fun x y => x.1 = false → realTime tb x.2 ≤ realTime tb y.2
  due : ∀ x ∈ r.returned, x.1 = false → Due tb types r.added l x.2

variable {r : Run} {out : List (Nat × AVPacket)}

theorem Interleaved.mem_added (h : Interleaved tb types r out l) {x : Nat × AVPacket} (hx : x ∈ l) :
    x.2 ∈ r.added := by
  have hmem : x ∈ numbered r.added := h.perm.mem_iff.mp (List.mem_append_right out hx)
  obtain ⟨y, hy, rfl⟩ := List.mem_map.mp hmem
  exact List.fst_mem_of_mem_zipIdx hy

theorem Valid.stream_lt (h : Valid types pkt) : pkt.streamIndex < types.length := by
  obtain ⟨type, htype, _⟩ := h
  exact (List.getElem?_eq_some_iff.mp htype).1

/-- Two predicates of which one implies the other hold equally often only if they agree. -/
theorem of_countP_eq {α : Type*} {p q : α → Bool} {xs : List α}
    (himp : ∀ x ∈ xs, p x = true → q x = true) (hcount : xs.countP p = xs.countP q) :
    ∀ x ∈ xs, q x = true → p x = true := by
  induction xs with
  | nil =>
    intro x hx
    cases hx
  | cons y xs ih =>
    have hle : xs.countP p ≤ xs.countP q :=
      List.countP_mono_left fun x hx => himp x (List.mem_cons_of_mem y hx)
    have hy := himp y List.mem_cons_self
    rw [List.countP_cons, List.countP_cons] at hcount
    have hrest : xs.countP p = xs.countP q ∧ (q y = true → p y = true) := by
      cases hp : p y with
      | true =>
        rw [hp, hy hp] at hcount
        exact ⟨Nat.add_right_cancel hcount, fun _ => rfl⟩
      | false =>
        -- the two predicates cannot differ on the first element
        cases hq : q y with
        | true =>
          simp only [hp, hq, Bool.false_eq_true, if_false, if_true] at hcount
          lia
        | false =>
          rw [hp, hq] at hcount
          exact ⟨hcount, fun h => h⟩
    intro x hx hqx
    rcases List.mem_cons.mp hx with rfl | hx
    · exact hrest.2 hqx
    · exact ih (fun x hx => himp x (List.mem_cons_of_mem y hx)) hrest.1 x hx hqx

variable {type : AVMediaType}

theorem Queue.codecType_eq (hq : Queue tb types s l) (htype : types[i]? = some type) :
    (s.stream i).codecType = type := by
  rw [← hq.types_eq, List.getElem?_map] at htype
  obtain ⟨st, hst, rfl⟩ := Option.map_eq_some_iff.mp htype
  rw [AVFormatContext.stream, List.getD_eq_getElem?_getD, hst, Option.getD_some]

/-- Every stream that is interleaved has a packet in the queue if as many streams have one
as there are. -/
theorem all_streams_have (h : Interleaved tb types r out l)
    (hcount : r.context.nbInterleavedStreams = streamCount r.context)
    (htype : types[i]? = some type) (hnot : type ≠ .attachment) :
    ∃ x ∈ l, x.2.streamIndex = i := by
  have hq := h.queue
  have hi : i < types.length := (List.getElem?_eq_some_iff.mp htype).1
  have himp (st : AVStream) (hst : st ∈ r.context.streams)
      (hsome : st.lastInPacketBuffer.isSome = true) :
      decide (st.codecType ≠ .attachment) = true := by
    obtain ⟨j, hj, rfl⟩ := exists_stream hst
    rw [hq.length_eq] at hj
    obtain ⟨x, hx, hstream⟩ := (last_isSome_iff hq hj).mp hsome
    obtain ⟨type', htype', hnot'⟩ := h.valid x.2 (h.mem_added hx)
    rw [hstream] at htype'
    rw [hq.codecType_eq htype']
    exact decide_eq_true hnot'
  have heq : r.context.streams.countP (fun st => st.lastInPacketBuffer.isSome) =
      r.context.streams.countP (fun st => decide (st.codecType ≠ .attachment)) := by
    rw [← streamCount, ← hcount, hq.nb_eq, ← hq.types_eq, List.countP_map]
    rfl
  have hall := of_countP_eq himp heq (r.context.stream i)
    (stream_mem (by rw [hq.length_eq]; exact hi))
    (by rw [hq.codecType_eq htype]; exact decide_eq_true hnot)
  exact (last_isSome_iff hq hi).mp hall

/-- Adding a packet keeps the invariant. -/
theorem interleaved_add (htb : PositiveBases tb types.length) (h : Interleaved tb types r out l)
    (hvalid : Valid types pkt)
    (hdts : ∀ a ∈ r.added, a.streamIndex = pkt.streamIndex → a.dts ≤ pkt.dts)
    (hexact : ∀ a ∈ r.added, Exact tb a pkt) :
    ∃ s' l', ffInterleaveAddPacket interleaveCompareDts r.context pkt = some s' ∧
      Interleaved tb types ⟨s', r.added ++ [pkt], r.returned⟩ out l' := by
  obtain ⟨s', l₁, l₂, hs', rfl, hqueue, hlength⟩ := ffInterleaveAddPacket_spec htb h.queue
    ⟨hvalid.stream_lt, fun x hx hstream => hdts x.2 (h.mem_added hx) hstream,
      fun x hx => hexact x.2 (h.mem_added hx)⟩
  refine ⟨s', _, hs', hqueue, ?_, ?_, ?_, h.returned_eq, h.ordered, ?_⟩
  · show s'.heap.cells.length = (r.added ++ [pkt]).length
    rw [hlength, h.cells_eq, List.length_append, List.length_singleton]
  · intro a ha
    rcases List.mem_append.mp ha with ha | ha
    · exact h.valid a ha
    · rwa [List.mem_singleton.mp ha]
  · show (out ++ (l₁ ++ (r.context.heap.cells.length, pkt) :: l₂)).Perm
      (numbered (r.added ++ [pkt]))
    rw [numbered_append, ← h.cells_eq, ← List.append_assoc]
    refine List.perm_middle.trans ((List.Perm.cons _ ?_).trans (List.perm_append_singleton _ _).symm)
    rw [List.append_assoc]
    exact h.perm
  · intro x hx hflush
    have hdue := h.due x hx hflush
    have hnew : realTime tb x.2 ≤ realTime tb pkt := by
      -- the stream has a packet that is not later than the new one
      have hlt := hvalid.stream_lt
      obtain ⟨type, htype, hnot⟩ := hvalid
      obtain ⟨a, ha, hstream, hle⟩ := hdue.streams _ type htype hnot
      exact hle.trans ((realTime_le_iff htb hlt hstream).mpr (hdts a ha hstream))
    refine ⟨?_, ?_⟩
    · intro y hy
      rcases List.mem_append.mp hy with hy | hy
      · exact hdue.queue y (List.mem_append_left l₂ hy)
      · rcases List.mem_cons.mp hy with rfl | hy
        · exact hnew
        · exact hdue.queue y (List.mem_append_right l₁ hy)
    · intro i type htype hnot
      obtain ⟨a, ha, hrest⟩ := hdue.streams i type htype hnot
      exact ⟨a, List.mem_append_left _ ha, hrest⟩

/-- Returning a packet keeps the invariant. -/
theorem interleaved_output (h : Interleaved tb types r out l) (flush : Bool) :
    ∃ ret s' out' l', outputPacket r.context flush = some (ret, s') ∧
      Interleaved tb types ⟨s', r.added, r.returned ++ ret.toList.map fun pkt => (flush, pkt)⟩
        out' l' := by
  rw [outputPacket_eq h.queue]
  split
  · next hgo =>
    obtain ⟨hne, hgo⟩ := hgo
    cases l with
    | nil => exact absurd rfl hne
    | cons node l =>
      obtain ⟨s', hs', hqueue, hlength⟩ := takeFirst_spec h.queue
      refine ⟨some node.2, s', out ++ [node], l, by rw [hs']; rfl, hqueue, ?_, h.valid, ?_, ?_,
        ?_, ?_⟩
      · rw [hlength]
        exact h.cells_eq
      · rw [List.append_assoc]
        exact h.perm
      · rw [List.map_append, List.map_append, h.returned_eq]
        rfl
      · apply List.pairwise_append.mpr
        refine ⟨h.ordered, List.pairwise_singleton _ _, ?_⟩
        intro x hx y hy hflush
        obtain rfl : y = (flush, node.2) := List.mem_singleton.mp hy
        exact (h.due x hx hflush).queue node List.mem_cons_self
      · intro x hx hflush
        rcases List.mem_append.mp hx with hx | hx
        · have hdue := h.due x hx hflush
          exact ⟨fun y hy => hdue.queue y (List.mem_cons_of_mem node hy), hdue.streams⟩
        · -- without a flush every stream has a packet, none of them before the first one
          obtain rfl : x = (flush, node.2) := List.mem_singleton.mp hx
          obtain hflush : flush = false := hflush
          have hcount := hgo.resolve_left (by rw [hflush]; exact Bool.false_ne_true)
          have hfirst (y : Nat × AVPacket) (hy : y ∈ node :: l) :
              realTime tb node.2 ≤ realTime tb y.2 := by
            rcases List.mem_cons.mp hy with rfl | hy
            · exact le_refl _
            · exact realTime_le_of_key_le (key_le_of_rank_lt
                ((List.pairwise_cons.mp h.queue.sorted).1 y hy))
          refine ⟨fun y hy => hfirst y (List.mem_cons_of_mem node hy), ?_⟩
          intro i type htype hnot
          obtain ⟨y, hy, hstream⟩ := all_streams_have h hcount htype hnot
          exact ⟨y.2, h.mem_added hy, hstream, hfirst y hy⟩
  · refine ⟨none, r.context, out, l, rfl, h.queue, h.cells_eq, h.valid, h.perm, ?_, ?_, ?_⟩
    · rw [Option.toList_none, List.map_nil, List.append_nil]
      exact h.returned_eq
    · rw [Option.toList_none, List.map_nil, List.append_nil]
      exact h.ordered
    · rw [Option.toList_none, List.map_nil, List.append_nil]
      exact h.due

/-- A call keeps the invariant. -/
theorem interleaved_step {call : Call} (htb : PositiveBases tb types.length)
    (h : Interleaved tb types r out l) (hvalid : ∀ pkt ∈ call.added, Valid types pkt)
    (hdts : ∀ pkt ∈ call.added, ∀ a ∈ r.added, a.streamIndex = pkt.streamIndex → a.dts ≤ pkt.dts)
    (hexact : ∀ pkt ∈ call.added, ∀ a ∈ r.added, Exact tb a pkt) :
    ∃ r' out' l', r.step call = some r' ∧ Interleaved tb types r' out' l' ∧
      r'.added = r.added ++ call.added := by
  have houtput {s : AVFormatContext} {l : List (Nat × AVPacket)} {added : List AVPacket}
      (hs : Interleaved tb types ⟨s, added, r.returned⟩ out l) :
      ∃ r' out' l', ((outputPacket s call.flush).map fun result =>
          (⟨result.2, added, r.returned ++ call.returned (.ok result.1)⟩ : Run)) = some r' ∧
        Interleaved tb types r' out' l' ∧ r'.added = added := by
    obtain ⟨ret, s', out', l', hout, hinv⟩ := interleaved_output hs call.flush
    refine ⟨_, out', l', by rw [hout]; rfl, ?_, rfl⟩
    cases ret <;> exact hinv
  obtain ⟨pkt?, flush, alloc⟩ := call
  cases pkt? with
  | none =>
    have hadded : r.added ++ Call.added ⟨none, flush, alloc⟩ = r.added := by
      cases alloc <;> exact List.append_nil _
    obtain ⟨r', out', l', hr', hinv, hr⟩ := houtput h
    refine ⟨r', out', l', ?_, hinv, by rw [hr, hadded]⟩
    rw [← hr', Run.step, hadded, ffInterleavePacketPerDts]
    cases outputPacket r.context flush <;> rfl
  | some pkt =>
    cases alloc with
    | false =>
      refine ⟨⟨r.context, r.added, r.returned⟩, out, l, ?_, h, (List.append_nil _).symm⟩
      have hadded : r.added ++ Call.added ⟨some pkt, flush, false⟩ = r.added := List.append_nil _
      have hreturned : r.returned ++ Call.returned ⟨some pkt, flush, false⟩ (.error .enomem) =
          r.returned := List.append_nil _
      simp only [Run.step, ffInterleavePacketPerDts, Bool.false_eq_true, if_false,
        Option.bind_eq_bind, Option.bind_some, hadded, hreturned]
    | true =>
      have hmem : pkt ∈ Call.added ⟨some pkt, flush, true⟩ := List.mem_singleton_self pkt
      obtain ⟨s', l', hs', hinv⟩ := interleaved_add htb h (hvalid pkt hmem) (hdts pkt hmem)
        (hexact pkt hmem)
      obtain ⟨r', out', l'', hr', hinv', hr⟩ := houtput hinv
      refine ⟨r', out', l'', ?_, hinv', hr⟩
      have hadded : r.added ++ Call.added ⟨some pkt, flush, true⟩ = r.added ++ [pkt] := rfl
      simp only [← hr', Run.step, ffInterleavePacketPerDts, if_true, hs', hadded,
        Option.bind_eq_bind, Option.bind_some]
      cases outputPacket s' flush <;> rfl

/-- The context of a muxer that has been given no packet. -/
structure Fresh (s : AVFormatContext) : Prop where
  plain : Plain s
  packetBuffer : s.packetBuffer = none
  packetBufferEnd : s.packetBufferEnd = none
  cells : s.heap.cells = []
  last : ∀ st ∈ s.streams, st.lastInPacketBuffer = none
  nbInterleavedStreams :
    s.nbInterleavedStreams = s.streams.countP fun st => st.codecType ≠ .attachment

/-- The time bases of the streams of a context. -/
def AVFormatContext.timeBases (s : AVFormatContext) (i : Nat) : AVRational :=
  (s.stream i).timeBase

theorem interleaved_fresh (hs : Fresh s) :
    Interleaved s.timeBases (s.streams.map (·.codecType)) ⟨s, [], []⟩ [] [] where
  queue :=
    { plain := hs.plain
      types_eq := rfl
      nb_eq := by
        rw [hs.nbInterleavedStreams, List.countP_map]
        rfl
      timeBase_eq := fun _ _ => rfl
      chain := hs.packetBuffer
      end_eq := hs.packetBufferEnd
      last_eq := by
        intro i hi
        rw [List.length_map] at hi
        exact hs.last _ (stream_mem hi)
      sorted := List.Pairwise.nil
      nodup := List.nodup_nil
      stream_lt := fun _ hx => by cases hx }
  cells_eq := by
    rw [hs.cells]
    rfl
  valid := fun _ ha => by cases ha
  perm := List.Perm.refl _
  returned_eq := rfl
  ordered := List.Pairwise.nil
  due := fun _ hx => by cases hx

/-- The packets the calls of a run add. -/
def addedBy (calls : List Call) : List AVPacket := calls.flatMap Call.added

theorem interleaved_steps (htb : PositiveBases tb types.length) {calls : List Call}
    (h : Interleaved tb types r out l) (hvalid : ∀ pkt ∈ addedBy calls, Valid types pkt)
    (hdts : (r.added ++ addedBy calls).Pairwise fun a b => a.streamIndex = b.streamIndex → a.dts ≤ b.dts)
    (hexact : (r.added ++ addedBy calls).Pairwise fun a b => Exact tb a b) :
    ∃ r' out' l', r.steps calls = some r' ∧ Interleaved tb types r' out' l' ∧
      r'.added = r.added ++ addedBy calls := by
  induction calls generalizing r out l with
  | nil => exact ⟨r, out, l, rfl, h, (List.append_nil _).symm⟩
  | cons call calls ih =>
    rw [addedBy, List.flatMap_cons, ← addedBy, ← List.append_assoc] at hdts hexact
    have hcall {P : AVPacket → AVPacket → Prop}
        (hP : (r.added ++ call.added ++ addedBy calls).Pairwise P) :
        ∀ pkt ∈ call.added, ∀ a ∈ r.added, P a pkt := by
      intro pkt hpkt a ha
      exact (List.pairwise_append.mp (List.pairwise_append.mp hP).1).2.2 a ha pkt hpkt
    obtain ⟨r₁, out₁, l₁, hstep, hinv, hadded⟩ := interleaved_step htb h
      (fun pkt hpkt => hvalid pkt (List.mem_append_left _ hpkt)) (hcall hdts) (hcall hexact)
    rw [← hadded] at hdts hexact
    obtain ⟨r', out', l', hsteps, hinv', hadded'⟩ := ih hinv
      (fun pkt hpkt => hvalid pkt (List.mem_append_right _ hpkt)) hdts hexact
    refine ⟨r', out', l', ?_, hinv', ?_⟩
    · rw [Run.steps, hstep]
      exact hsteps
    · rw [hadded', hadded, List.append_assoc]
      rfl

/-- Interleaving is a sorted merge: whatever calls were made, the list in memory leads
through the packets `l`, sorted by time, stream and arrival; its end pointer and the
pointers of the streams point to the last packets; the packets returned and those in the
list are the ones added, each once; and a packet returned by a call without flush is not
later than any packet returned after it. -/
theorem interleave_sorted_merge (hs : Fresh s) {calls : List Call}
    (hpositive : ∀ st ∈ s.streams, 0 < st.timeBase.num ∧ 0 < st.timeBase.den)
    (hvalid : ∀ pkt ∈ addedBy calls, ∃ st, s.streams[pkt.streamIndex]? = some st ∧
      st.codecType ≠ .attachment)
    (hdts : (addedBy calls).Pairwise fun a b => a.streamIndex = b.streamIndex → a.dts ≤ b.dts)
    (hexact : (addedBy calls).Pairwise fun a b => Exact s.timeBases a b) :
    ∃ r, Run.steps ⟨s, [], []⟩ calls = some r ∧ r.added = addedBy calls ∧
      ∃ out l, r.context.heap.Chain none r.context.packetBuffer l ∧
        (l.Pairwise fun a b => rank s.timeBases a < rank s.timeBases b) ∧
        r.context.packetBufferEnd = lastPtr l ∧
        (∀ i, i < s.streams.length →
          (r.context.stream i).lastInPacketBuffer = lastPtr (ofStream i l)) ∧
        (out ++ l).Perm (numbered r.added) ∧ r.returned.map (·.2) = out.map (·.2) ∧
        r.returned.Pairwise fun x y =>
          x.1 = false → realTime s.timeBases x.2 ≤ realTime s.timeBases y.2 := by
  have htb : PositiveBases s.timeBases (s.streams.map (·.codecType)).length := by
    intro i hi
    rw [List.length_map] at hi
    exact hpositive _ (stream_mem hi)
  have hvalid' (pkt : AVPacket) (hpkt : pkt ∈ addedBy calls) :
      Valid (s.streams.map (·.codecType)) pkt := by
    obtain ⟨st, hst, hnot⟩ := hvalid pkt hpkt
    exact ⟨st.codecType, by rw [List.getElem?_map, hst]; rfl, hnot⟩
  obtain ⟨r, out, l, hr, hinv, hadded⟩ :=
    interleaved_steps htb (interleaved_fresh hs) hvalid' hdts hexact
  refine ⟨r, hr, hadded, out, l, hinv.queue.chain, hinv.queue.sorted, hinv.queue.end_eq, ?_,
    hinv.perm, hinv.returned_eq, hinv.ordered⟩
  intro i hi
  exact hinv.queue.last_eq i (by rwa [List.length_map])

/-- A muxer with a video stream in units of 1/25 s and an audio stream in milliseconds. -/
def videoAndAudio : AVFormatContext where
  streams := [⟨⟨1, 25⟩, .video, false, none, 0, 0⟩, ⟨⟨1, 1000⟩, .audio, false, none, 0, 0⟩]
  nbInterleavedStreams := 2
  heap := ⟨[]⟩
  packetBuffer := none
  packetBufferEnd := none
  maxChunkSize := 0
  maxChunkDuration := 0
  audioPreload := 0
  maxInterleaveDelta := 0
  flagShortest := false
  shortestEnd := avNoptsValue

/-- Two video packets, then an audio packet between them, and a flush. -/
def videoAndAudioCalls : List Call :=
  [⟨some { streamIndex := 0, dts := 0 }, false, true⟩,
    ⟨some { streamIndex := 0, dts := 1 }, false, true⟩,
    ⟨some { streamIndex := 1, dts := 20 }, false, true⟩, ⟨none, true, true⟩]

theorem fresh_videoAndAudio : Fresh videoAndAudio :=
  ⟨⟨rfl, rfl, rfl, rfl, rfl, rfl⟩, rfl, rfl, rfl, by decide, rfl⟩

/-- That run ends with the last video packet in the queue. -/
theorem interleave_sorted_merge_two :
    ∃ r, Run.steps ⟨videoAndAudio, [], []⟩ videoAndAudioCalls = some r ∧
      r.added = addedBy videoAndAudioCalls ∧
      ∃ out l, r.context.heap.Chain none r.context.packetBuffer l ∧
        (l.Pairwise fun a b =>
          rank videoAndAudio.timeBases a < rank videoAndAudio.timeBases b) ∧
        r.context.packetBufferEnd = lastPtr l ∧
        (∀ i, i < videoAndAudio.streams.length →
          (r.context.stream i).lastInPacketBuffer = lastPtr (ofStream i l)) ∧
        (out ++ l).Perm (numbered r.added) ∧ r.returned.map (·.2) = out.map (·.2) ∧
        r.returned.Pairwise fun x y => x.1 = false →
          realTime videoAndAudio.timeBases x.2 ≤ realTime videoAndAudio.timeBases y.2 := by
  have hpositive (i : Nat) (hi : i < 2) : 0 < (videoAndAudio.timeBases i).num ∧
      0 < (videoAndAudio.timeBases i).den := by
    match i with
    | 0 | 1 => decide
  refine interleave_sorted_merge fresh_videoAndAudio (by decide) ?_ (by decide) ?_
  · intro pkt hpkt
    simp only [addedBy, videoAndAudioCalls, Call.added, List.flatMap_cons, List.flatMap_nil,
      if_true, Option.toList_some, Option.toList_none, List.append_nil, List.singleton_append,
      List.mem_cons, List.not_mem_nil, or_false] at hpkt
    rcases hpkt with rfl | rfl | rfl <;> exact ⟨_, rfl, by decide⟩
  · have hfits : (addedBy videoAndAudioCalls).Pairwise fun a b =>
        a.streamIndex < 2 ∧ b.streamIndex < 2 ∧
        orFitsInt a.dts ((videoAndAudio.timeBases a.streamIndex).num *
            (videoAndAudio.timeBases b.streamIndex).den) b.dts
          ((videoAndAudio.timeBases b.streamIndex).num *
            (videoAndAudio.timeBases a.streamIndex).den) = true := by decide
    exact hfits.imp fun h => exact_of_orFitsInt hpositive h.1 h.2.1 h.2.2

end FFmpeg.Libavformat.Interleave
