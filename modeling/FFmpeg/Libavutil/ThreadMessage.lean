import FFmpeg.Common.CondVar
import FFmpeg.Libavutil.Error
import FFmpeg.Libavutil.Fifo

/-!
# Thread message queues

`libavutil/threadmessage.c`.  A critical section runs from taking the lock, or from
waking up in `pthread_cond_wait`, to giving the lock up by returning or by waiting.
A loop of a section gives `none` where it would not end.
-/

namespace FFmpeg.Libavutil.ThreadMessage

open Common CondVar

/-- `AVThreadMessageQueue` for messages of `elsize` bytes.  Of `free_func` it matters
whether there is one. -/
structure AVThreadMessageQueue (elsize : Nat) where
  fifo : AVFifoBuffer
  errSend : Int
  errRecv : Int
  freeFunc : Bool

variable {elsize : Nat}

/-- `av_thread_message_queue_alloc`, where the system gives what is not the fifo, and
`av_thread_message_queue_set_free_func`. -/
def avThreadMessageQueueAlloc (malloc : Malloc) (freeFunc : Bool) (nelem elsize : Nat) :
    Except AVERROR (AVThreadMessageQueue elsize) :=
  if (2 ^ 31 - 1) / elsize < nelem then .error .einval
  else
    match avFifoAlloc malloc (elsize * nelem) with
    | none => .error .enomem
    | some fifo => .ok { fifo := fifo, errSend := 0, errRecv := 0, freeFunc := freeFunc }

/-- The two condition variables. -/
inductive Cond
  | send
  | recv
  deriving DecidableEq, Repr

/-- A call that may block. -/
inductive Call (elsize : Nat)
  | send (msg : { msg : Bytes // msg.length = elsize }) (nonblock : Bool)
  | recv (nonblock : Bool)
  deriving DecidableEq

/-- The condition variable on which a call waits. -/
def Call.cond : Call elsize → Cond
  | .send _ _ => .send
  | .recv _ => .recv

/-- What happens to messages. -/
inductive Event
  | enqueued (msg : Bytes)
  | received (msg : Bytes)
  /-- taken out by a flush -/
  | flushed (msg : Bytes)
  /-- given to `free_func` -/
  | freed (msg : Bytes)
  deriving DecidableEq, Repr

/-- What a critical section does. -/
structure Section (elsize : Nat) where
  mq : AVThreadMessageQueue elsize
  /-- what the call returns; `none` when it waits -/
  ret : Option Int
  signal : Option Cond
  events : List Event

/-- `av_thread_message_queue_send_locked` from the test of its loop on. -/
def sendLocked (mq : AVThreadMessageQueue elsize) (msg : Bytes) (nonblock : Bool) :
    Option (Section elsize) :=
  if mq.errSend = 0 ∧ avFifoSpace mq.fifo < elsize then
    some ⟨mq, if nonblock then some AVERROR.eagain.toInt else none, none, []⟩
  else if mq.errSend ≠ 0 then some ⟨mq, some mq.errSend, none, []⟩
  else
    (avFifoGenericWrite mq.fifo msg).map fun r =>
      ⟨{ mq with fifo := r.2 }, some 0, some .recv, [.enqueued msg]⟩

/-- `av_thread_message_queue_recv_locked` from the test of its loop on. -/
def recvLocked (mq : AVThreadMessageQueue elsize) (nonblock : Bool) : Option (Section elsize) :=
  if mq.errRecv = 0 ∧ avFifoSize mq.fifo < elsize then
    some ⟨mq, if nonblock then some AVERROR.eagain.toInt else none, none, []⟩
  else if avFifoSize mq.fifo < elsize then some ⟨mq, some mq.errRecv, none, []⟩
  else
    (avFifoGenericRead mq.fifo elsize).map fun r =>
      ⟨{ mq with fifo := r.2 }, some 0, some .send, [.received r.1]⟩

/-- A critical section of a call. -/
def runCall (mq : AVThreadMessageQueue elsize) : Call elsize → Option (Section elsize)
  | .send msg nonblock => sendLocked mq msg.val nonblock
  | .recv nonblock => recvLocked mq nonblock

/-- The loop of `av_thread_message_flush` over the messages from offset `off` on. -/
def flushLoop (elsize : Nat) (fifo : AVFifoBuffer) (used : Nat) : Nat → Nat → Option (List Bytes)
  | 0, _ => none
  | fuel + 1, off =>
    if off < used then
      (avFifoGenericPeekAt fifo off elsize).bind fun msg =>
        (flushLoop elsize fifo used fuel (off + elsize)).map (msg :: ·)
    else some []

/-- `av_thread_message_flush`.  Without a `free_func` the source skips the loop, which
then only tells here what the drain removes. -/
def flushLocked (mq : AVThreadMessageQueue elsize) : Option (Section elsize) :=
  let used := (avFifoSize mq.fifo).toNat
  (flushLoop elsize mq.fifo used (used + 1) 0).map fun msgs =>
    ⟨{ mq with fifo := avFifoDrain mq.fifo used }, some 0, none,
      msgs.map .flushed ++ if mq.freeFunc then msgs.map .freed else []⟩

variable {Tid : Type} [DecidableEq Tid]

/-- The queue, the threads, and what happened to messages so far. -/
structure State (Tid : Type) (elsize : Nat) where
  mq : AVThreadMessageQueue elsize
  status : Tid → Status (Call elsize)
  history : List Event

/-- A queue that no thread has used. -/
def initial (mq : AVThreadMessageQueue elsize) : State Tid elsize where
  mq := mq
  status := fun _ => .outside
  history := []

/-- The threads after a section: the signal it gave, if any, wakes a sleeper. -/
def Signalled (sec : Section elsize) (f g : Tid → Status (Call elsize)) : Prop :=
  match sec.signal with
  | none => g = f
  | some c => Signal Call.cond c f g

/-- One critical section of one thread, or a wake-up that nobody asked for. -/
inductive Step : State Tid elsize → State Tid elsize → Prop
  /-- a new call, or a call that goes on after it was woken -/
  | call {s : State Tid elsize} (t : Tid) (call : Call elsize) {sec : Section elsize}
      {status : Tid → Status (Call elsize)}
      (hready : s.status t = .outside ∨ s.status t = .woken call)
      (hrun : runCall s.mq call = some sec)
      (hsignal : Signalled sec (Function.update s.status t
        (if sec.ret = none then .waiting call else .outside)) status) :
      Step s { mq := sec.mq, status := status, history := s.history ++ sec.events }
  /-- `av_thread_message_queue_set_err_send` -/
  | setErrSend {s : State Tid elsize} (err : Int) :
      Step s { s with
        mq := { s.mq with errSend := err }
        status := broadcast Call.cond .send s.status }
  /-- `av_thread_message_queue_set_err_recv` -/
  | setErrRecv {s : State Tid elsize} (err : Int) :
      Step s { s with
        mq := { s.mq with errRecv := err }
        status := broadcast Call.cond .recv s.status }
  | flush {s : State Tid elsize} {sec : Section elsize} (hrun : flushLocked s.mq = some sec) :
      Step s
        { mq := sec.mq
          status := broadcast Call.cond .send s.status
          history := s.history ++ sec.events }
  | spurious {s : State Tid elsize} (t : Tid) {call : Call elsize}
      (hwaiting : s.status t = .waiting call) :
      Step s { s with status := Function.update s.status t (.woken call) }

end FFmpeg.Libavutil.ThreadMessage
