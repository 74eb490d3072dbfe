import HDCS.Lib.Machine
import Mathlib.Data.List.Lex

/-!
# A session of the client

`Connection` of `client.h`, `sync_send`, `aio_communicate` and `aio_receive` of the client in
`asio_messenger.h`, and `wait_event.h`. A synchronous call writes its message, then makes a
`MsgController`, puts it into `pending_msg_map` and waits for it. An asynchronous call only writes.
For every message that comes in, the handler looks whether there is anything in the map at all, and
if there is, it looks up the controller, signals it and deletes it.

The next message is read before the handler of the last one has come to the map, so any number of
handlers can be at work. They hold `pending_msg_map_lock` from the lookup on; `sync_send` does not
take it. Operations on the map are taken to be atomic all the same, and so is `Wait` up to where it
goes to sleep, because of its mutex. What a caller reads in a controller that has been deleted can
be anything.

Writes do not fail, and every reply has the sequence id of its request.
-/

namespace HDCS

namespace ClientSession

/-- Where a call is. An asynchronous one is through when it has been written. -/
inductive CallPhase where
  /-- The message has its sequence id. -/
  | sending
  /-- It has been written. -/
  | sent
  /-- The controller is in `pending_msg_map`; `wait` comes next. -/
  | registered
  /-- In `pthread_cond_wait`. -/
  | asleep
  /-- About to look at `_signaled` again. -/
  | woken
  | returned
  deriving DecidableEq, Repr

/-- Where the handler of the reply is. -/
inductive ReplyPhase where
  /-- The reply has not come in. -/
  | awaited
  /-- In `c_process_msg`, with the next `aio_receive` under way. -/
  | processing
  /-- There was something in the map: at `pending_msg_map_lock.lock()`. -/
  | locking
  /-- The sequence id is in the map. -/
  | found
  /-- `Done` has returned. -/
  | done
  | over
  deriving DecidableEq, Repr

structure Call where
  /-- `communicate`, not `aio_communicate`. -/
  sync : Bool
  seqId : UInt64
  phase : CallPhase
  /-- `_signaled` of the controller. -/
  signaled : Bool
  /-- The controller has been deleted. -/
  deleted : Bool
  reply : ReplyPhase
  /-- The sequence ids of the replies that have signalled the controller. -/
  signals : List UInt64
  deriving DecidableEq, Repr

namespace Call

def new (sync : Bool) (seqId : UInt64) : Call :=
  ⟨sync, seqId, .sending, false, false, .awaited, []⟩

def Registered (c : Call) : Prop := c.phase ≠ .sending ∧ c.phase ≠ .sent

instance (c : Call) : Decidable c.Registered := inferInstanceAs (Decidable (_ ∧ _))

def wait (signaled : Bool) (c : Call) : Call :=
  if signaled then { c with phase := .returned, signaled := false } else { c with phase := .asleep }

def signal (seqId : UInt64) (c : Call) : Call :=
  { c with
    signaled := true
    phase := if c.phase = .asleep then .woken else c.phase
    signals := c.signals ++ [seqId] }

end Call

end ClientSession

/-- A session, and the counter of its connection. -/
structure ClientSession where
  /-- `_next_sequence_id`. -/
  nextSequenceId : UInt64
  calls : List ClientSession.Call
  /-- `pending_msg_map`: whose controller is there. -/
  pendingMsgMap : Std.TreeMap UInt64 Nat
  /-- `pending_msg_map_lock`. -/
  locked : Bool
  /-- The assertion of a handler has failed. -/
  asserted : Bool

namespace ClientSession

def start (nextSequenceId : UInt64) : ClientSession := ⟨nextSequenceId, [], ∅, false, false⟩

inductive Act where
  /-- `communicate` or `aio_communicate` of the connection, which picks this session. -/
  | call (sync : Bool)
  /-- It picks another one. -/
  | otherSession
  | write (i : Nat)
  /-- `pending_msg_map[_seq_id] = msg_cntl`. -/
  | register (i : Nat)
  /-- The caller looks at `_signaled`. -/
  | wait (i : Nat) (signaled : Bool)
  /-- `pthread_cond_wait` returns by itself. -/
  | wake (i : Nat)
  /-- The reply has been read. -/
  | receive (i : Nat)
  /-- `pending_msg_map.size() != 0`. -/
  | test (i : Nat)
  /-- `pending_msg_map.find`. -/
  | find (i : Nat)
  /-- `it->second->Done()`. -/
  | done (i : Nat)
  /-- The entry is erased, the controller deleted, and the lock released. -/
  | erase (i : Nat)
  deriving DecidableEq

def modify (i : Nat) (f : Call → Call) (s : ClientSession) : ClientSession :=
  { s with calls := s.calls.modify i f }

def callStep (s : ClientSession) (i : Nat) (c : Call) : Act → Option ClientSession
  | .call _ | .otherSession => none
  | .write _ => if c.phase = .sending then some (s.modify i ({ · with phase := .sent })) else none
  | .register _ =>
    if c.sync = true ∧ c.phase = .sent then
      some { s.modify i ({ · with phase := .registered }) with
        pendingMsgMap := s.pendingMsgMap.insert c.seqId i }
    else none
  | .wait _ signaled =>
    if (c.phase = .registered ∨ c.phase = .woken) ∧ (c.deleted = true ∨ signaled = c.signaled)
    then some (s.modify i (Call.wait signaled))
    else none
  | .wake _ => if c.phase = .asleep then some (s.modify i ({ · with phase := .woken })) else none
  | .receive _ =>
    if c.phase ≠ .sending ∧ c.reply = .awaited then
      some (s.modify i ({ · with reply := .processing }))
    else none
  | .test _ =>
    if c.reply = .processing then
      some (s.modify i ({ · with
        reply := if s.pendingMsgMap.size ≠ 0 then .locking else .over }))
    else none
  | .find _ =>
    if c.reply = .locking ∧ s.locked = false then
      if c.seqId ∈ s.pendingMsgMap then
        some { s.modify i ({ · with reply := .found }) with locked := true }
      else some { s with asserted := true }
    else none
  | .done _ =>
    if c.reply = .found then
      (s.pendingMsgMap[c.seqId]?).map fun j =>
        (s.modify j (Call.signal c.seqId)).modify i ({ · with reply := .done })
    else none
  | .erase _ =>
    if c.reply = .done then
      (s.pendingMsgMap[c.seqId]?).map fun j =>
        { (s.modify j ({ · with deleted := true })).modify i ({ · with reply := .over }) with
          pendingMsgMap := s.pendingMsgMap.erase c.seqId
          locked := false }
    else none

def Act.index : Act → Option Nat
  | .call _ | .otherSession => none
  | .write i | .register i | .wait i _ | .wake i | .receive i | .test i | .find i | .done i
  | .erase i => some i

/-- One step; nothing happens any more once an assertion has failed. -/
def step (s : ClientSession) (a : Act) : Option ClientSession :=
  if s.asserted then none
  else match a with
  | .call sync =>
    -- `++_next_sequence_id`
    some { s with
      nextSequenceId := s.nextSequenceId + 1
      calls := s.calls ++ [Call.new sync (s.nextSequenceId + 1)] }
  | .otherSession => some { s with nextSequenceId := s.nextSequenceId + 1 }
  | a => a.index.bind fun i => (s.calls[i]?).bind fun c => s.callStep i c a

end ClientSession

end HDCS
