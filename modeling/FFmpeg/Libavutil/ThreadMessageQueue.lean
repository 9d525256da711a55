import FFmpeg.Libavutil.FifoQueue
import FFmpeg.Libavutil.ThreadMessage

/-!
# A message queue loses nothing and leaves nobody asleep

The fifo holds a list of messages, in the order in which they were enqueued.  Who
sleeps although there is something to do can count on the woken threads: while a
receiver sleeps, at least as many receivers are woken as there are messages, and
while a sender sleeps, at least as many senders as there are free places.  One
signal an operation keeps both counts, since a woken thread gives its wake-up away
only for a message, for a place, or where there is none.
-/

namespace FFmpeg.Libavutil.ThreadMessageQueue

open Common CondVar ThreadMessage

variable {elsize nelem : Nat} {mq mq' : AVThreadMessageQueue elsize} {msgs : List Bytes}

section Contents

/-- The fifo of a queue for `nelem` messages holds `msgs`. -/
structure Contents (nelem : Nat) (mq : AVThreadMessageQueue elsize) (msgs : List Bytes) : Prop where
  fifo : Represents mq.fifo msgs.flatten
  sized : ∀ msg ∈ msgs, msg.length = elsize
  capacity : mq.fifo.buffer.length = elsize * nelem

theorem length_flatten_messages (h : ∀ msg ∈ msgs, msg.length = elsize) :
    msgs.flatten.length = elsize * msgs.length := by
  have hmap : msgs.map List.length = List.replicate msgs.length elsize := by
    rw [List.eq_replicate_iff]
    exact ⟨by simp, by simpa using h⟩
  rw [List.length_flatten, hmap, List.sum_replicate, smul_eq_mul, Nat.mul_comm]

theorem Contents.avFifoSize_eq (h : Contents nelem mq msgs) :
    avFifoSize mq.fifo = (elsize * msgs.length : Nat) := by
  rw [h.fifo.avFifoSize_eq, length_flatten_messages h.sized]

theorem Contents.length_le (h : Contents nelem mq msgs) (hpos : 0 < elsize) :
    msgs.length ≤ nelem := by
  have hle := h.fifo.le
  rw [length_flatten_messages h.sized, h.capacity] at hle
  exact Nat.le_of_mul_le_mul_left hle hpos

theorem Contents.size_lt_iff (h : Contents nelem mq msgs) (hpos : 0 < elsize) :
    avFifoSize mq.fifo < elsize ↔ msgs = [] := by
  rw [h.avFifoSize_eq, Int.ofNat_lt]
  constructor
  · intro hlt
    cases msgs with
    | nil => rfl
    | cons m ms =>
      have hone : elsize * 1 ≤ elsize * (m :: ms).length := Nat.mul_le_mul_left _ (by simp)
      lia
  · rintro rfl
    simpa using hpos

theorem Contents.space_lt_iff (h : Contents nelem mq msgs) (hpos : 0 < elsize) :
    avFifoSpace mq.fifo < elsize ↔ msgs.length = nelem := by
  have hlen := h.length_le hpos
  obtain ⟨free, hfree⟩ := Nat.exists_eq_add_of_le hlen
  rw [avFifoSpace, h.avFifoSize_eq, h.capacity, hfree, Nat.mul_add]
  constructor
  · intro hlt
    by_contra hne
    have hone : elsize * 1 ≤ elsize * free := Nat.mul_le_mul_left _ (by lia)
    push_cast at hlt
    lia
  · intro heq
    have hzero : free = 0 := by lia
    rw [hzero]
    push_cast
    lia

theorem Contents.write (h : Contents nelem mq msgs) (hroom : msgs.length < nelem) {msg : Bytes}
    (hmsg : msg.length = elsize) :
    ∃ ret fifo, avFifoGenericWrite mq.fifo msg = some (ret, fifo) ∧
      Contents nelem ({ mq with fifo := fifo } : AVThreadMessageQueue elsize) (msgs ++ [msg]) := by
  have hspace : msgs.flatten.length + msg.length ≤ mq.fifo.buffer.length := by
    have hmul : elsize * (msgs.length + 1) ≤ elsize * nelem := Nat.mul_le_mul_left _ hroom
    rw [length_flatten_messages h.sized, h.capacity, hmsg]
    rw [Nat.mul_add] at hmul
    lia
  obtain ⟨fifo, hwrite, hrep, hbuffer⟩ := h.fifo.write hspace
  refine ⟨msg.length, fifo, hwrite, ?_, ?_, ?_⟩
  · simpa using hrep
  · intro m hm
    rcases List.mem_append.mp hm with hold | hnew
    · exact h.sized m hold
    · rw [List.mem_singleton.mp hnew, hmsg]
  · exact hbuffer.trans h.capacity

theorem Contents.read {msg : Bytes} (h : Contents nelem mq (msg :: msgs)) :
    ∃ fifo, avFifoGenericRead mq.fifo elsize = some (msg, fifo) ∧
      Contents nelem ({ mq with fifo := fifo } : AVThreadMessageQueue elsize) msgs := by
  have hmsg := h.sized msg List.mem_cons_self
  have hfront : elsize ≤ (msg :: msgs).flatten.length := by
    rw [List.flatten_cons, List.length_append]
    lia
  obtain ⟨fifo, hread, hrep, hbuffer⟩ := h.fifo.read hfront
  rw [List.flatten_cons, List.take_left' hmsg] at hread
  rw [List.flatten_cons, List.drop_left' hmsg] at hrep
  exact ⟨fifo, hread, hrep, fun m hm => h.sized m (List.mem_cons_of_mem msg hm),
    (congrArg List.length hbuffer).trans h.capacity⟩

/-- The loop of the flush sees the messages one after the other. -/
theorem Contents.flushLoop (h : Contents nelem mq msgs) (hpos : 0 < elsize) {fuel : Nat} (k : Nat)
    (hk : k ≤ msgs.length) (hfuel : msgs.length - k < fuel) :
    flushLoop elsize mq.fifo (elsize * msgs.length) fuel (elsize * k) = some (msgs.drop k) := by
  induction fuel generalizing k with
  | zero => exact absurd hfuel (Nat.not_lt_zero _)
  | succ fuel ih =>
    rw [ThreadMessage.flushLoop]
    by_cases hmore : k < msgs.length
    · have hoff : elsize * k < elsize * msgs.length := Nat.mul_lt_mul_of_pos_left hmore hpos
      have hnext : elsize * k + elsize = elsize * (k + 1) := by ring
      have hinside : elsize * k + elsize ≤ msgs.flatten.length := by
        rw [length_flatten_messages h.sized, hnext]
        exact Nat.mul_le_mul_left _ hmore
      -- the bytes at this offset are message `k`
      have hmessage : slice msgs.flatten (elsize * k) elsize = msgs[k] := by
        have hfront : (msgs.take k).flatten.length = elsize * k := by
          rw [length_flatten_messages (fun m hm => h.sized m (List.mem_of_mem_take hm)),
            List.length_take, Nat.min_eq_left hk]
        have hsplit : msgs.flatten =
            (msgs.take k).flatten ++ (msgs[k] ++ (msgs.drop (k + 1)).flatten) := by
          rw [← List.flatten_cons, ← List.drop_eq_getElem_cons hmore, ← List.flatten_append,
            List.take_append_drop]
        have hlength := h.sized msgs[k] (List.getElem_mem hmore)
        rw [slice, hsplit, List.drop_left' hfront, List.take_left' hlength]
      rw [if_pos hoff, h.fifo.peekAt hinside, hmessage, hnext, Option.bind_some,
        ih (k + 1) hmore (by lia), List.drop_eq_getElem_cons hmore]
      rfl
    · have hend : k = msgs.length := by lia
      rw [hend, if_neg (lt_irrefl _), List.drop_eq_nil_of_le (le_refl _)]

end Contents

section Sections

/-- A section that moves no message: a receiver found none, or a sender found no place
or an error.  Who waits has nothing to do. -/
structure Idles (nelem : Nat) (mq : AVThreadMessageQueue elsize) (msgs : List Bytes)
    (call : Call elsize) (sec : Section elsize) : Prop where
  same : sec.mq = mq
  signal : sec.signal = none
  events : sec.events = []
  recv : call.cond = .recv → msgs = []
  send : call.cond = .send → mq.errSend = 0 → msgs.length = nelem
  waits : sec.ret = none → call.cond = .send → mq.errSend = 0

/-- A section that enqueues. -/
structure Enqueues (nelem : Nat) (mq : AVThreadMessageQueue elsize) (msgs : List Bytes)
    (call : Call elsize) (sec : Section elsize) (msg : Bytes) : Prop where
  contents : Contents nelem sec.mq (msgs ++ [msg])
  cond : call.cond = .send
  ret : sec.ret ≠ none
  signal : sec.signal = some .recv
  events : sec.events = [.enqueued msg]
  errSend : sec.mq.errSend = mq.errSend
  freeFunc : sec.mq.freeFunc = mq.freeFunc

/-- A section that dequeues the first message. -/
structure Dequeues (nelem : Nat) (mq : AVThreadMessageQueue elsize) (call : Call elsize)
    (sec : Section elsize) (msg : Bytes) (rest : List Bytes) : Prop where
  contents : Contents nelem sec.mq rest
  cond : call.cond = .recv
  ret : sec.ret ≠ none
  signal : sec.signal = some .send
  events : sec.events = [.received msg]
  errSend : sec.mq.errSend = mq.errSend
  freeFunc : sec.mq.freeFunc = mq.freeFunc

/-- What the section of a call does; it always ends. -/
theorem runCall_cases (h : Contents nelem mq msgs) (hpos : 0 < elsize) (call : Call elsize) :
    ∃ sec, runCall mq call = some sec ∧
      (Idles nelem mq msgs call sec ∨ (∃ msg, Enqueues nelem mq msgs call sec msg) ∨
        ∃ msg rest, msgs = msg :: rest ∧ Dequeues nelem mq call sec msg rest) := by
  cases call with
  | send msg nonblock =>
    have hspace := h.space_lt_iff hpos
    rw [runCall, sendLocked]
    by_cases hfull : mq.errSend = 0 ∧ avFifoSpace mq.fifo < elsize
    · rw [if_pos hfull]
      have hlength := hspace.mp hfull.2
      exact ⟨_, rfl, Or.inl ⟨rfl, rfl, rfl, nofun, fun _ _ => hlength, fun _ _ => hfull.1⟩⟩
    rw [if_neg hfull]
    by_cases herr : mq.errSend = 0
    · rw [if_neg (not_not.mpr herr)]
      have hle := h.length_le hpos
      have hroom : msgs.length < nelem := by
        have hne : msgs.length ≠ nelem := fun heq => hfull ⟨herr, hspace.mpr heq⟩
        lia
      obtain ⟨ret, fifo, hwrite, hcontents⟩ := h.write hroom msg.property
      rw [hwrite]
      exact ⟨_, rfl, Or.inr (Or.inl ⟨msg.val, hcontents, rfl, nofun, rfl, rfl, rfl, rfl⟩)⟩
    · rw [if_pos herr]
      exact ⟨_, rfl, Or.inl ⟨rfl, rfl, rfl, nofun, fun _ hzero => absurd hzero herr, nofun⟩⟩
  | recv nonblock =>
    have hsize := h.size_lt_iff hpos
    rw [runCall, recvLocked]
    by_cases hempty : avFifoSize mq.fifo < elsize
    · -- nothing is received, whether the section waits or returns an error
      by_cases herr : mq.errRecv = 0
      · rw [if_pos ⟨herr, hempty⟩]
        exact ⟨_, rfl, Or.inl ⟨rfl, rfl, rfl, fun _ => hsize.mp hempty, nofun, nofun⟩⟩
      · rw [if_neg fun hboth => herr hboth.1, if_pos hempty]
        exact ⟨_, rfl, Or.inl ⟨rfl, rfl, rfl, fun _ => hsize.mp hempty, nofun, nofun⟩⟩
    · rw [if_neg fun hboth => hempty hboth.2, if_neg hempty]
      cases msgs with
      | nil => exact absurd (hsize.mpr rfl) hempty
      | cons msg rest =>
        obtain ⟨fifo, hread, hcontents⟩ := h.read
        rw [hread]
        exact ⟨_, rfl, Or.inr (Or.inr ⟨msg, rest, rfl, hcontents, rfl, nofun, rfl, rfl, rfl, rfl⟩)⟩

theorem flushLocked_eq (h : Contents nelem mq msgs) (hpos : 0 < elsize) :
    ∃ sec, flushLocked mq = some sec ∧ Contents nelem sec.mq [] ∧
      sec.events = msgs.map .flushed ++ (if mq.freeFunc then msgs.map .freed else []) ∧
      sec.mq.freeFunc = mq.freeFunc := by
  have hused : (avFifoSize mq.fifo).toNat = elsize * msgs.length := by
    rw [h.avFifoSize_eq]
    rfl
  have hfuel : msgs.length - 0 < elsize * msgs.length + 1 := by
    have hmul : 1 * msgs.length ≤ elsize * msgs.length := Nat.mul_le_mul_right _ hpos
    lia
  have hloop := h.flushLoop hpos 0 (Nat.zero_le _) hfuel
  rw [Nat.mul_zero, List.drop_zero] at hloop
  have hlength := length_flatten_messages h.sized
  have hdrain := h.fifo.drain (n := elsize * msgs.length) hlength.ge
  rw [List.drop_eq_nil_of_le hlength.le] at hdrain
  unfold flushLocked
  dsimp only
  rw [hused, hloop]
  exact ⟨_, rfl, ⟨hdrain, nofun, h.capacity⟩, rfl, rfl⟩

end Sections

section History

/-- The messages that entered the queue, in their order. -/
def enqueued (history : List Event) : List Bytes :=
  history.filterMap fun
    | .enqueued msg => some msg
    | _ => none

/-- The messages that left the queue, in their order. -/
def removed (history : List Event) : List Bytes :=
  history.filterMap fun
    | .received msg => some msg
    | .flushed msg => some msg
    | _ => none

/-- The messages that receivers got, in their order. -/
def received (history : List Event) : List Bytes :=
  history.filterMap fun
    | .received msg => some msg
    | _ => none

/-- The messages that flushes took out, in their order. -/
def flushed (history : List Event) : List Bytes :=
  history.filterMap fun
    | .flushed msg => some msg
    | _ => none

/-- The messages that were given to `free_func`, in their order. -/
def freed (history : List Event) : List Bytes :=
  history.filterMap fun
    | .freed msg => some msg
    | _ => none

@[simp] theorem enqueued_append (a b : List Event) :
    enqueued (a ++ b) = enqueued a ++ enqueued b := List.filterMap_append

@[simp] theorem removed_append (a b : List Event) :
    removed (a ++ b) = removed a ++ removed b := List.filterMap_append

@[simp] theorem flushed_append (a b : List Event) :
    flushed (a ++ b) = flushed a ++ flushed b := List.filterMap_append

@[simp] theorem freed_append (a b : List Event) :
    freed (a ++ b) = freed a ++ freed b := List.filterMap_append

theorem received_sublist_removed (history : List Event) :
    (received history).Sublist (removed history) := by
  induction history with
  | nil => exact List.Sublist.refl _
  | cons e history ih =>
    cases e with
    | enqueued msg => exact ih
    | received msg => exact ih.cons_cons msg
    | flushed msg => exact ih.cons msg
    | freed msg => exact ih

theorem history_flush (msgs : List Bytes) (free : Bool) :
    enqueued (msgs.map .flushed ++ (if free then msgs.map .freed else [])) = [] ∧
      removed (msgs.map .flushed ++ (if free then msgs.map .freed else [])) = msgs ∧
      flushed (msgs.map .flushed ++ (if free then msgs.map .freed else [])) = msgs ∧
      freed (msgs.map .flushed ++ (if free then msgs.map .freed else [])) =
        if free then msgs else [] := by
  cases free <;> simp [enqueued, removed, flushed, freed, List.filterMap_map]

end History

section Invariant

variable {Tid : Type} [DecidableEq Tid] [Fintype Tid]

/-- While a receiver sleeps, enough receivers are woken for all messages. -/
def RecvCovered (status : Tid → Status (Call elsize)) (messages : Nat) : Prop :=
  Asleep Call.cond .recv status → messages ≤ pending Call.cond .recv status

/-- While a sender sleeps there is no error to report, and enough senders are woken for
all free places. -/
def SendCovered (nelem : Nat) (errSend : Int) (status : Tid → Status (Call elsize))
    (messages : Nat) : Prop :=
  Asleep Call.cond .send status → errSend = 0 ∧ nelem ≤ messages + pending Call.cond .send status

/-- The invariant of a queue that holds `msgs`. -/
structure Inv (nelem : Nat) (freeFunc : Bool) (s : State Tid elsize) (msgs : List Bytes) :
    Prop where
  contents : Contents nelem s.mq msgs
  free : s.mq.freeFunc = freeFunc
  kept : enqueued s.history = removed s.history ++ msgs
  released : freed s.history = if freeFunc then flushed s.history else []
  recv : RecvCovered s.status msgs.length
  send : SendCovered nelem s.mq.errSend s.status msgs.length

variable {call : Call elsize} {c : Cond}

theorem not_asleepOn_of_cond_ne (h : call.cond ≠ c) :
    (Status.waiting call).asleepOn Call.cond c ≠ true := by
  intro hasleep
  exact h (of_decide_eq_true hasleep)

variable {status : Tid → Status (Call elsize)} {t : Tid}

theorem pending_le_of_cond_ne (hready : status t = .outside ∨ status t = .woken call)
    (hcond : call.cond ≠ c) (next : Status (Call elsize)) :
    pending Call.cond c status ≤ pending Call.cond c (Function.update status t next) := by
  have hother : (status t).wokenOn Call.cond c ≠ true := by
    rcases hready with hout | hwoken
    · rw [hout]
      exact Bool.false_ne_true
    · rw [hwoken]
      intro h
      exact hcond (of_decide_eq_true h)
  have hle := pending_le_update Call.cond c status t next
  rwa [if_neg hother, Nat.add_zero] at hle

omit [Fintype Tid] in
theorem asleep_of_cond_ne (hcond : call.cond ≠ c) {ret : Option Int}
    (h : Asleep Call.cond c (Function.update status t (if ret = none then .waiting call else .outside))) :
    Asleep Call.cond c status := by
  rcases asleep_of_update h with hself | hbefore
  · split at hself
    · exact absurd hself (not_asleepOn_of_cond_ne hcond)
    · cases hself
  · exact hbefore

/-- After a section that moves no message both counts still suffice: only who found
nothing to do gave a wake-up away or went to sleep. -/
theorem covered_of_idles {sec : Section elsize}
    (hready : status t = .outside ∨ status t = .woken call) (h : Idles nelem mq msgs call sec)
    (hrecv : RecvCovered status msgs.length)
    (hsend : SendCovered nelem mq.errSend status msgs.length) :
    RecvCovered (Function.update status t (if sec.ret = none then .waiting call else .outside))
        msgs.length ∧
      SendCovered nelem mq.errSend
        (Function.update status t (if sec.ret = none then .waiting call else .outside))
        msgs.length := by
  cases hcond : call.cond with
  | recv =>
    refine ⟨fun _ => ?_, fun hasleep => ?_⟩
    · rw [h.recv hcond]
      exact Nat.zero_le _
    · have hne : call.cond ≠ .send := by rw [hcond]; decide
      have hbefore := asleep_of_cond_ne hne hasleep
      obtain ⟨herr, hplaces⟩ := hsend hbefore
      have hle := pending_le_of_cond_ne hready hne
        (if sec.ret = none then .waiting call else .outside)
      exact ⟨herr, by lia⟩
  | send =>
    refine ⟨fun hasleep => ?_, fun hasleep => ?_⟩
    · have hne : call.cond ≠ .recv := by rw [hcond]; decide
      have hbefore := asleep_of_cond_ne hne hasleep
      have hmessages := hrecv hbefore
      have hle := pending_le_of_cond_ne hready hne
        (if sec.ret = none then .waiting call else .outside)
      lia
    · have herr : mq.errSend = 0 := by
        rcases asleep_of_update hasleep with hself | hbefore
        · split at hself
          · next hwaits => exact h.waits hwaits hcond
          · cases hself
        · exact (hsend hbefore).1
      -- the sender found the queue full, so there is no place to be woken for
      have hfull := h.send hcond herr
      exact ⟨herr, by lia⟩

variable {errSend : Int} {messages : Nat}

/-- After a message was enqueued, one receiver more is woken if one sleeps. -/
theorem covered_of_enqueues {status' : Tid → Status (Call elsize)}
    (hready : status t = .outside ∨ status t = .woken call) (hcond : call.cond = .send)
    (hsignal : Signal Call.cond .recv (Function.update status t .outside) status')
    (hrecv : RecvCovered status messages) (hsend : SendCovered nelem errSend status messages) :
    RecvCovered status' (messages + 1) ∧ SendCovered nelem errSend status' (messages + 1) := by
  have houtside : ∀ c, Asleep Call.cond c (Function.update status t .outside) →
      Asleep Call.cond c status := by
    intro c hasleep
    rcases asleep_of_update hasleep with hself | hbefore
    · cases hself
    · exact hbefore
  refine ⟨fun hasleep => ?_, fun hasleep => ?_⟩
  · have hmiddle := asleep_of_wake hsignal.1 hasleep
    have hmessages := hrecv (houtside _ hmiddle)
    have hmore := hsignal.pending_lt hmiddle
    have hle : pending Call.cond .recv status ≤
        pending Call.cond .recv (Function.update status t .outside) :=
      pending_le_of_cond_ne hready (by rw [hcond]; decide) _
    lia
  · -- the sender may have been woken, but it took a place
    obtain ⟨herr, hplaces⟩ := hsend (houtside _ (asleep_of_wake hsignal.1 hasleep))
    have hle := pending_le_update Call.cond .send status t .outside
    have hmono : pending Call.cond .send (Function.update status t .outside) ≤
        pending Call.cond .send status' := pending_le_of_wake hsignal.1
    refine ⟨herr, ?_⟩
    split at hle <;> lia

/-- After a message was dequeued, one sender more is woken if one sleeps. -/
theorem covered_of_dequeues {status' : Tid → Status (Call elsize)}
    (hready : status t = .outside ∨ status t = .woken call) (hcond : call.cond = .recv)
    (hsignal : Signal Call.cond .send (Function.update status t .outside) status')
    (hrecv : RecvCovered status (messages + 1))
    (hsend : SendCovered nelem errSend status (messages + 1)) :
    RecvCovered status' messages ∧ SendCovered nelem errSend status' messages := by
  have houtside : ∀ c, Asleep Call.cond c (Function.update status t .outside) →
      Asleep Call.cond c status := by
    intro c hasleep
    rcases asleep_of_update hasleep with hself | hbefore
    · cases hself
    · exact hbefore
  refine ⟨fun hasleep => ?_, fun hasleep => ?_⟩
  · -- the receiver may have been woken, but it took a message
    have hmessages := hrecv (houtside _ (asleep_of_wake hsignal.1 hasleep))
    have hle := pending_le_update Call.cond .recv status t .outside
    have hmono : pending Call.cond .recv (Function.update status t .outside) ≤
        pending Call.cond .recv status' := pending_le_of_wake hsignal.1
    split at hle <;> lia
  · have hmiddle := asleep_of_wake hsignal.1 hasleep
    obtain ⟨herr, hplaces⟩ := hsend (houtside _ hmiddle)
    have hmore := hsignal.pending_lt hmiddle
    have hle : pending Call.cond .send status ≤
        pending Call.cond .send (Function.update status t .outside) :=
      pending_le_of_cond_ne hready (by rw [hcond]; decide) _
    exact ⟨herr, by lia⟩

omit [DecidableEq Tid] in
theorem covered_of_wake {status' : Tid → Status (Call elsize)}
    (h : ∀ t, status' t = status t ∨ (status t).asleepOn Call.cond c = true ∧ status' t = (status t).wake)
    (hrecv : RecvCovered status messages) (hsend : SendCovered nelem errSend status messages) :
    RecvCovered status' messages ∧ SendCovered nelem errSend status' messages := by
  have hmono : ∀ d, pending Call.cond d status ≤ pending Call.cond d status' :=
    fun d => pending_le_of_wake h
  refine ⟨fun hasleep => ?_, fun hasleep => ?_⟩
  · exact (hrecv (asleep_of_wake h hasleep)).trans (hmono .recv)
  · obtain ⟨herr, hplaces⟩ := hsend (asleep_of_wake h hasleep)
    have hle := hmono .send
    exact ⟨herr, by lia⟩

/-- Every step keeps the invariant, for the messages that are then in the queue. -/
theorem Inv.step {freeFunc : Bool} {s s' : State Tid elsize} (hpos : 0 < elsize)
    (h : Inv nelem freeFunc s msgs) (hstep : Step s s') :
    ∃ msgs', Inv nelem freeFunc s' msgs' := by
  have hkept := h.kept
  have hfreed := h.released
  cases hstep with
  | call t call hready hrun hsignal =>
    obtain ⟨sec', hrun', hcases⟩ := runCall_cases h.contents hpos call
    rw [hrun, Option.some.injEq] at hrun'
    subst hrun'
    rcases hcases with hidle | ⟨msg, henq⟩ | ⟨msg, rest, rfl, hdeq⟩
    · rw [Signalled, hidle.signal] at hsignal
      subst hsignal
      obtain ⟨hrecv, hsend⟩ := covered_of_idles hready hidle h.recv h.send
      refine ⟨msgs, ?_, ?_, ?_, ?_, hrecv, ?_⟩
      · rw [hidle.same]
        exact h.contents
      · rw [hidle.same]
        exact h.free
      · rw [hidle.events, List.append_nil]
        exact hkept
      · rw [hidle.events, List.append_nil]
        exact hfreed
      · rw [hidle.same]
        exact hsend
    · rw [Signalled, henq.signal, if_neg henq.ret] at hsignal
      obtain ⟨hrecv, hsend⟩ := covered_of_enqueues hready henq.cond hsignal h.recv h.send
      refine ⟨msgs ++ [msg], henq.contents, henq.freeFunc.trans h.free, ?_, ?_, ?_, ?_⟩
      · rw [henq.events, enqueued_append, removed_append, hkept]
        simp [enqueued, removed]
      · rw [henq.events, freed_append, flushed_append, hfreed]
        cases freeFunc <;> rfl
      · rw [List.length_append, List.length_singleton]
        exact hrecv
      · rw [henq.errSend, List.length_append, List.length_singleton]
        exact hsend
    · rw [Signalled, hdeq.signal, if_neg hdeq.ret] at hsignal
      obtain ⟨hrecv, hsend⟩ := covered_of_dequeues hready hdeq.cond hsignal h.recv h.send
      refine ⟨rest, hdeq.contents, hdeq.freeFunc.trans h.free, ?_, ?_, hrecv, ?_⟩
      · rw [hdeq.events, enqueued_append, removed_append, hkept]
        simp [enqueued, removed]
      · rw [hdeq.events, freed_append, flushed_append, hfreed]
        cases freeFunc <;> simp [freed, flushed]
      · rw [hdeq.errSend]
        exact hsend
  | setErrSend err =>
    refine ⟨msgs, ⟨h.contents.fifo, h.contents.sized, h.contents.capacity⟩, h.free, hkept, hfreed,
      (covered_of_wake (broadcast_wakes _ _) h.recv h.send).1, fun hasleep => ?_⟩
    exact absurd hasleep (not_asleep_broadcast _ _)
  | setErrRecv err =>
    obtain ⟨hrecv, hsend⟩ := covered_of_wake (broadcast_wakes .recv s.status) h.recv h.send
    exact ⟨msgs, ⟨h.contents.fifo, h.contents.sized, h.contents.capacity⟩, h.free, hkept, hfreed,
      hrecv, hsend⟩
  | flush hrun =>
    obtain ⟨sec', hrun', hcontents, hevents, hfree⟩ := flushLocked_eq h.contents hpos
    rw [hrun, Option.some.injEq] at hrun'
    subst hrun'
    obtain ⟨henqueued, hremoved, hflushed, hfreedFlush⟩ := history_flush msgs s.mq.freeFunc
    refine ⟨[], hcontents, hfree.trans h.free, ?_, ?_, fun _ => Nat.zero_le _, fun hasleep => ?_⟩
    · rw [hevents, enqueued_append, removed_append, henqueued, hremoved, hkept, List.append_nil]
    · rw [hevents, freed_append, flushed_append, hflushed, hfreedFlush, hfreed, h.free]
      cases freeFunc <;> simp
    · exact absurd hasleep (not_asleep_broadcast _ _)
  | spurious t hwaiting =>
    -- a spurious wake-up is like one of a signal
    rename_i call
    have hwakes : ∀ u, Function.update s.status t (.woken call) u = s.status u ∨
        (s.status u).asleepOn Call.cond call.cond = true ∧
          Function.update s.status t (.woken call) u = (s.status u).wake := by
      intro u
      by_cases hu : u = t
      · subst hu
        rw [Function.update_self, hwaiting]
        exact Or.inr ⟨decide_eq_true rfl, rfl⟩
      · exact Or.inl (Function.update_of_ne hu _ _)
    obtain ⟨hrecv, hsend⟩ := covered_of_wake hwakes h.recv h.send
    exact ⟨msgs, h.contents, h.free, hkept, hfreed, hrecv, hsend⟩

end Invariant

theorem inv_initial {Tid : Type} [Fintype Tid] {malloc : Malloc} {freeFunc : Bool}
    (halloc : avThreadMessageQueueAlloc malloc freeFunc nelem elsize = .ok mq) :
    Inv nelem freeFunc (initial mq : State Tid elsize) [] := by
  unfold avThreadMessageQueueAlloc at halloc
  split at halloc
  · cases halloc
  · split at halloc
    · cases halloc
    · next fifo hfifo =>
      cases halloc
      obtain ⟨block, hmalloc, rfl⟩ := Option.map_eq_some_iff.mp hfifo
      obtain ⟨hlength, hsmall⟩ := length_of_avMalloc hmalloc
      refine ⟨⟨represents_fifoAllocCommon (by lia), nofun, hlength⟩, rfl, rfl, ?_,
        fun hasleep => ?_, fun hasleep => ?_⟩
      · cases freeFunc <;> rfl
      · obtain ⟨t, ht⟩ := hasleep
        cases ht
      · obtain ⟨t, ht⟩ := hasleep
        cases ht

/-- In every state that any number of threads can reach: the messages that entered the
queue are those that left it, in the same order, followed by those in the fifo; what
receivers got is in the order of entry; what was flushed was freed once; the fifo
respects its capacity; no receiver sleeps without a pending wake-up beside a message,
and no sender beside a free place; and every section ends. -/
theorem messageQueue_safe {Tid : Type} [DecidableEq Tid] [Fintype Tid] {malloc : Malloc}
    {freeFunc : Bool} (hpos : 0 < elsize)
    (halloc : avThreadMessageQueueAlloc malloc freeFunc nelem elsize = .ok mq)
    {s : State Tid elsize} (hreach : Relation.ReflTransGen Step (initial mq) s) :
    ∃ msgs : List Bytes, Represents s.mq.fifo msgs.flatten ∧ (∀ msg ∈ msgs, msg.length = elsize) ∧
      enqueued s.history = removed s.history ++ msgs ∧
      (received s.history).Sublist (enqueued s.history) ∧
      freed s.history = (if freeFunc then flushed s.history else []) ∧
      msgs.length ≤ nelem ∧
      ¬ (Asleep Call.cond .recv s.status ∧ pending Call.cond .recv s.status = 0 ∧ msgs ≠ []) ∧
      ¬ (Asleep Call.cond .send s.status ∧ pending Call.cond .send s.status = 0 ∧
        msgs.length < nelem) ∧
      (∀ call, ∃ sec, runCall s.mq call = some sec) ∧ ∃ sec, flushLocked s.mq = some sec := by
  obtain ⟨msgs, h⟩ : ∃ msgs, Inv nelem freeFunc s msgs := by
    induction hreach with
    | refl => exact ⟨[], inv_initial halloc⟩
    | tail _ hstep ih =>
      obtain ⟨msgs, h⟩ := ih
      exact h.step hpos hstep
  refine ⟨msgs, h.contents.fifo, h.contents.sized, h.kept, ?_, h.released,
    h.contents.length_le hpos, ?_, ?_, ?_, ?_⟩
  · rw [h.kept]
    exact (received_sublist_removed s.history).trans (List.sublist_append_left _ _)
  · rintro ⟨hasleep, hnone, hne⟩
    have hmessages := h.recv hasleep
    rw [hnone] at hmessages
    exact hne (List.length_eq_zero_iff.mp (Nat.le_zero.mp hmessages))
  · rintro ⟨hasleep, hnone, hroom⟩
    have hplaces := (h.send hasleep).2
    lia
  · intro call
    obtain ⟨sec, hrun, -⟩ := runCall_cases h.contents hpos call
    exact ⟨sec, hrun⟩
  · obtain ⟨sec, hrun, -⟩ := flushLocked_eq h.contents hpos
    exact ⟨sec, hrun⟩

/-- A queue for one message after one of two threads has sent. -/
theorem messageQueue_safe_sent :
    ∃ msgs : List Bytes, Represents ⟨[7], 0, 0, 0, 1⟩ msgs.flatten ∧
      [[7]] = ([] : List Bytes) ++ msgs ∧ msgs.length ≤ 1 := by
  have halloc : avThreadMessageQueueAlloc zeroMalloc true 1 1 =
      .ok ⟨⟨[0], 0, 0, 0, 0⟩, 0, 0, true⟩ := rfl
  have hstep : Step (initial ⟨⟨[0], 0, 0, 0, 0⟩, 0, 0, true⟩ : State (Fin 2) 1)
      ⟨⟨⟨[7], 0, 0, 0, 1⟩, 0, 0, true⟩, fun _ => .outside, [.enqueued [7]]⟩ := by
    have hrun : runCall ⟨⟨[0], 0, 0, 0, 0⟩, 0, 0, true⟩ (.send ⟨[7], rfl⟩ false) =
        some (⟨⟨⟨[7], 0, 0, 0, 1⟩, 0, 0, true⟩, some 0, some .recv, [.enqueued [7]]⟩ :
          Section 1) := rfl
    refine Step.call (s := initial _) 0 _ (Or.inl rfl) hrun ?_
    have hnobody : Function.update (fun _ : Fin 2 => (Status.outside : Status (Call 1))) 0
        .outside = fun _ => .outside := Function.update_eq_self _ _
    refine ⟨fun t => Or.inl ?_, ?_⟩
    · exact congrFun hnobody.symm t
    · rintro ⟨t, ht⟩
      have hout := congrFun hnobody t
      exact absurd (hout ▸ ht) (by decide)
  obtain ⟨msgs, hfifo, -, hkept, -, -, hlength, -⟩ :=
    messageQueue_safe Nat.one_pos halloc (Relation.ReflTransGen.single hstep)
  exact ⟨msgs, hfifo, hkept, hlength⟩

end FFmpeg.Libavutil.ThreadMessageQueue
