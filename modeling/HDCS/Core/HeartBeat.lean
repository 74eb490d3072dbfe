import HDCS.Core.HAMessage
import HDCS.Core.SafeTimer

/-!
# Heartbeats

`HeartBeat.h` and `HeartBeatService.h`. A heartbeat has two events in the timer of the service: the
ping, and the timeout that comes if the ping is not answered. Both are completions that capture the
heartbeat. It keeps one pointer, `timeout_event`, which is set to the first and then to the second.

A heartbeat is made with its first two events. A reply cancels what `timeout_event` points to and
schedules two more. `unregister_node`, and `register_node` for a node that has a heartbeat already,
destroy one, which cancels what `timeout_event` points to.

A completion that was cancelled or has run is deleted, and its address is used again; the pointer
to it stays what it was. A heartbeat that was destroyed is known by its number here, and a reply to
it finds what its memory held. A call of the service is one step, and so is an iteration of the
timer with the completions it runs.
-/

namespace HDCS

open SafeTimer Function

structure HeartBeatOpts where
  timeoutNanoseconds : Nat
  heartbeatIntervalNanoseconds : Nat

inductive HeartBeatEvent where
  | ping
  | timeout
  deriving DecidableEq, Repr

structure HeartBeat where
  /-- It has not been destroyed. -/
  live : Bool
  /-- `timeout_event`. -/
  timeoutEvent : Option Nat
  deriving DecidableEq, Repr

/-- What happened to a heartbeat. -/
inductive HeartBeatRecord where
  /-- `heartbeat_ping`, with the place of the timeout in the timer. -/
  | began (inst place : Nat)
  | pinged (inst : Nat)
  | replied (inst : Nat)
  /-- `error_handler->complete(0)`. -/
  | timedOut (inst place : Nat)
  deriving DecidableEq, Repr

/-- The callback of an event: a message is sent, or the error handler is called. -/
def HeartBeatEvent.callback (inst place : Nat) : HeartBeatEvent → HeartBeatRecord
  | .ping => .pinged inst
  | .timeout => .timedOut inst place

structure HeartBeatService where
  hbOpts : HeartBeatOpts
  /-- `event_timer`. -/
  timer : SafeTimer
  /-- The completions by address: the heartbeat that one captures, and which event it is. -/
  comps : Nat → Option (Nat × HeartBeatEvent)
  /-- The heartbeats that have been made, in order. -/
  insts : List HeartBeat
  /-- `hb_map`. -/
  hbMap : Text → Option Nat
  log : List HeartBeatRecord

/-- Where `heartbeat_ping` allocates its completions, and what the clock reads as they are added. -/
structure HeartBeatAlloc where
  ping : Nat
  pingNow : Nat
  timeout : Nat
  timeoutNow : Nat
  deriving DecidableEq, Repr

namespace HeartBeatService

def new (hbOpts : HeartBeatOpts) (clock : Nat) : HeartBeatService :=
  ⟨hbOpts, .new clock, fun _ => none, [], fun _ => none, []⟩

def setTimeoutEvent (inst p : Nat) (s : HeartBeatService) : HeartBeatService :=
  { s with insts := s.insts.modify inst fun h => { h with timeoutEvent := some p } }

/-- `timeout_event = new AioCompletionImp(..)`, and `add_event_after(delta, timeout_event)`. -/
def schedule (inst : Nat) (event : HeartBeatEvent) (p now delta : Nat)
    (s : HeartBeatService) : Option HeartBeatService :=
  if s.comps p = none then
    (s.timer.step (.addEventAfter now delta p)).map fun timer =>
      setTimeoutEvent inst p { s with timer, comps := update s.comps p (some (inst, event)) }
  else none

def heartbeatPing (inst : Nat) (a : HeartBeatAlloc) (s : HeartBeatService) :
    Option HeartBeatService := do
  let s ← s.schedule inst .ping a.ping a.pingNow s.hbOpts.heartbeatIntervalNanoseconds
  let place := s.timer.places
  let s ← s.schedule inst .timeout a.timeout a.timeoutNow
    (s.hbOpts.timeoutNanoseconds + s.hbOpts.heartbeatIntervalNanoseconds)
  return { s with log := s.log ++ [.began inst place] }

def cancel (p : Option Nat) (s : HeartBeatService) : HeartBeatService :=
  match p with
  | none => s
  | some p =>
    { s with
      timer := s.timer.cancelEvent p
      comps := if (s.timer.events p).isSome then update s.comps p none else s.comps }

def reply (inst : Nat) (a : HeartBeatAlloc) (s : HeartBeatService) :
    Option HeartBeatService := do
  let h ← s.insts[inst]?
  heartbeatPing inst a (cancel h.timeoutEvent { s with log := s.log ++ [.replied inst] })

def destroy (inst : Option Nat) (s : HeartBeatService) : HeartBeatService :=
  match inst with
  | none => s
  | some i =>
    { s.cancel ((s.insts[i]?).bind HeartBeat.timeoutEvent) with
      insts := s.insts.modify i fun h => { h with live := false } }

def registerNode (node : Text) (a : HeartBeatAlloc) (s : HeartBeatService) :
    Option HeartBeatService := do
  let inst := s.insts.length
  let s' ← heartbeatPing inst a { s with insts := s.insts ++ [⟨true, none⟩] }
  return { s'.destroy (s.hbMap node) with hbMap := update s.hbMap node (some inst) }

def unregisterNode (node : Text) (s : HeartBeatService) : HeartBeatService :=
  { s.destroy (s.hbMap node) with hbMap := update s.hbMap node none }

def complete (s : HeartBeatService) (x : Scheduled) : HeartBeatService :=
  match s.comps x.callback with
  | none => s
  | some (inst, event) =>
    { s with
      comps := update s.comps x.callback none
      log := s.log ++ [event.callback inst x.place] }

def fire (s : HeartBeatService) : Option HeartBeatService :=
  match s.timer.thread with
  | .scanning now =>
    let m := s.timer.schedule.foldl (expire now) ⟨s.timer.schedule, s.timer.events, []⟩
    some (m.eventList.foldl complete { s with timer := s.timer.iterate now })
  | _ => none

inductive Act where
  | registerNode (node : Text) (a : HeartBeatAlloc)
  | unregisterNode (node : Text)
  /-- A message that says HDCS_HEARTBEAT_REPLY, for the heartbeat that its id points to. -/
  | reply (inst : Nat) (a : HeartBeatAlloc)
  | fire
  /-- Time passes, or the timer's thread goes on. -/
  | timer (a : SafeTimer.Act)
  deriving DecidableEq, Repr

def step (s : HeartBeatService) : Act → Option HeartBeatService
  | .registerNode node a => s.registerNode node a
  | .unregisterNode node => some (s.unregisterNode node)
  | .reply inst a => s.reply inst a
  | .fire => s.fire
  | .timer a =>
    match a with
    | .tick _ | .readClock | .wait | .wakeUp | .goOn =>
      (s.timer.step a).map fun timer => { s with timer }
    | .addEventAfter _ _ _ | .cancelEvent _ | .iterate => none

end HeartBeatService

end HDCS
