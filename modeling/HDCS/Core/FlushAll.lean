import HDCS.Core.Request
import HDCS.Lib.Counting
import HDCS.Lib.Machine

/-!
# Flushing and promoting every block

`TierPolicy::flush_all` and `TierPolicy::promote_all`, which differ in the type of the
requests they enqueue. A call holds `flush_all_cond_lock` from its first line to its
last, except while it waits. For every block it waits until fewer than
`process_threads_num` requests are counted, enqueues a request, and counts it; when all are
enqueued it waits until none is counted any more.

Any number of calls may be under way. A worker can complete a request as soon as it is
enqueued, before it is counted, and the completion does not take the lock: it takes the
request out of the count, and then decides from what it reads whether to notify. A wait
may also end without a notification. That is a step here (`wakeUp`), as there is no other way
for a call in the middle of its loop to be awake without the lock: it looks at the count
right after it has counted. `posix_memalign` does not return a negative number, so a call
does not end before its last line.
-/

namespace HDCS

open Lib

/-- The members of `TierPolicy` that a call reads. -/
structure FlushAllConfig where
  /-- `blocks_count`, a `uint64_t`. -/
  blocksCount : Nat
  /-- `process_threads_num`, an `int`. -/
  processThreadsNum : Nat
  processThreadsNum_pos : 0 < processThreadsNum
  processThreadsNum_lt : processThreadsNum < 2 ^ 31

inductive Await where
  /-- That one more request may be in flight. -/
  | room (block : Nat)
  /-- That none is in flight any more. -/
  | drained
  deriving DecidableEq, Repr

inductive CallPhase where
  /-- Before it has the lock. -/
  | entering
  /-- With the lock, before it looks at the count. -/
  | testing (w : Await)
  /-- The count was not what it waits for; it has the lock and cannot be notified yet. -/
  | drowsy (w : Await)
  /-- On the condition variable. -/
  | asleep (w : Await)
  /-- Notified, without the lock. -/
  | woken (w : Await)
  /-- Before `request_queue->enqueue`. -/
  | enqueuing (block : Nat)
  /-- Before `flush_all_blocks_count ++`. -/
  | counting (block : Nat)
  /-- Past the loop. -/
  | ending
  | returned
  deriving DecidableEq, Repr

def CallPhase.holds : CallPhase → Bool
  | .testing _ | .drowsy _ | .enqueuing _ | .counting _ | .ending => true
  | .entering | .asleep _ | .woken _ | .returned => false

def CallPhase.wake : CallPhase → CallPhase
  | .asleep w => .woken w
  | p => p

/-- A call of `flush_all` or of `promote_all`. -/
structure AllCall where
  /-- The type of its requests. -/
  ioType : IoType
  phase : CallPhase
  deriving DecidableEq, Repr

inductive AllRequestPhase where
  | inFlight
  /-- Its completion has taken it out of the count. -/
  | completed
  /-- Past the first test of the completion. -/
  | tested
  /-- The completion is through. -/
  | through
  deriving DecidableEq, Repr

structure AllRequest where
  call : Nat
  ioType : IoType
  block : Nat
  phase : AllRequestPhase
  deriving DecidableEq, Repr

/-- The calls, the requests, and the members of `TierPolicy` they share. -/
structure FlushAll (cfg : FlushAllConfig) where
  calls : List AllCall
  /-- In the order they were enqueued in. -/
  requests : List AllRequest
  /-- Somebody has `flush_all_cond_lock`. -/
  locked : Bool
  /-- `flush_all_blocks_count`, a `uint64_t`. -/
  flushAllBlocksCount : Nat
  lastBatch : Bool

namespace FlushAll

variable {cfg : FlushAllConfig}

def new (cfg : FlushAllConfig) : FlushAll cfg := ⟨[], [], false, 0, false⟩

inductive Act where
  | call (ioType : IoType)
  /-- A call gets the lock, at its beginning or in a wait. -/
  | lock (c : Nat)
  /-- It looks at the count. -/
  | test (c : Nat)
  /-- It is put on the condition variable, and gives the lock back. -/
  | sleep (c : Nat)
  /-- The wait ends without a notification. -/
  | wakeUp (c : Nat)
  | enqueue (c : Nat)
  | count (c : Nat)
  /-- `last_batch = true`. -/
  | finish (c : Nat)
  /-- A completion, `flush_all_blocks_count--`. -/
  | complete (i : Nat)
  /-- Its first test, for those that wait for room. -/
  | notifyRoom (i : Nat)
  /-- Its second test, for those that wait for the last one. -/
  | notifyDrained (i : Nat)
  deriving DecidableEq, Repr

def Act.flushAll : Act := .call .flush

def Act.promoteAll : Act := .call .promote

def setPhase (c : Nat) (call : AllCall) (p : CallPhase) (s : FlushAll cfg) : FlushAll cfg :=
  { s with calls := s.calls.set c { call with phase := p } }

def setRequest (i : Nat) (r : AllRequest) (p : AllRequestPhase) (s : FlushAll cfg) : FlushAll cfg :=
  { s with requests := s.requests.set i { r with phase := p } }

def notifyIf (b : Bool) (s : FlushAll cfg) : FlushAll cfg :=
  if b then { s with calls := s.calls.map fun c => { c with phase := c.phase.wake } } else s

def loopHead (cfg : FlushAllConfig) (block : Nat) : CallPhase :=
  if block < cfg.blocksCount then .testing (.room block) else .ending

def passes (s : FlushAll cfg) : Await → Bool
  | .room _ => s.flushAllBlocksCount < cfg.processThreadsNum
  | .drained => s.flushAllBlocksCount = 0

def step (s : FlushAll cfg) : Act → Option (FlushAll cfg)
  | .call ioType => some { s with calls := s.calls ++ [⟨ioType, .entering⟩] }
  | .lock c =>
    match s.calls[c]? with
    | some call =>
      if s.locked then none
      else
        match call.phase with
        | .entering => some ({ s with locked := true }.setPhase c call (loopHead cfg 0))
        | .woken w => some ({ s with locked := true }.setPhase c call (.testing w))
        | _ => none
    | none => none
  | .test c =>
    match s.calls[c]? with
    | some call =>
      match call.phase with
      | .testing w =>
        if s.passes w then
          match w with
          | .room block => some (s.setPhase c call (.enqueuing block))
          -- the end of the scope gives the lock back
          | .drained => some ({ s with locked := false }.setPhase c call .returned)
        else some (s.setPhase c call (.drowsy w))
      | _ => none
    | none => none
  | .sleep c =>
    match s.calls[c]? with
    | some call =>
      match call.phase with
      | .drowsy w => some ({ s with locked := false }.setPhase c call (.asleep w))
      | _ => none
    | none => none
  | .wakeUp c =>
    match s.calls[c]? with
    | some call =>
      match call.phase with
      | .asleep w => some (s.setPhase c call (.woken w))
      | _ => none
    | none => none
  | .enqueue c =>
    match s.calls[c]? with
    | some call =>
      match call.phase with
      | .enqueuing block =>
        some ({ s with
          requests := s.requests ++ [AllRequest.mk c call.ioType block .inFlight] }.setPhase c
            call (.counting block))
      | _ => none
    | none => none
  | .count c =>
    match s.calls[c]? with
    | some call =>
      match call.phase with
      | .counting block =>
        some ({ s with flushAllBlocksCount := incr64 s.flushAllBlocksCount }.setPhase c call
          (loopHead cfg (block + 1)))
      | _ => none
    | none => none
  | .finish c =>
    match s.calls[c]? with
    | some call =>
      match call.phase with
      | .ending => some ({ s with lastBatch := true }.setPhase c call (.testing .drained))
      | _ => none
    | none => none
  | .complete i =>
    match s.requests[i]? with
    | some r =>
      if r.phase = .inFlight then
        some ({ s with flushAllBlocksCount := decr64 s.flushAllBlocksCount }.setRequest i r
          .completed)
      else none
    | none => none
  | .notifyRoom i =>
    match s.requests[i]? with
    | some r =>
      if r.phase = .completed then
        some ((s.setRequest i r .tested).notifyIf
          (!s.lastBatch && s.flushAllBlocksCount < cfg.processThreadsNum))
      else none
    | none => none
  | .notifyDrained i =>
    match s.requests[i]? with
    | some r =>
      if r.phase = .tested then
        some ((s.setRequest i r .through).notifyIf (s.lastBatch && s.flushAllBlocksCount = 0))
      else none
    | none => none

inductive Stepped (s : FlushAll cfg) : Act → FlushAll cfg → Prop where
  | call {ioType : IoType} :
      Stepped s (.call ioType) { s with calls := s.calls ++ [⟨ioType, .entering⟩] }
  | enter {c : Nat} {call : AllCall} : s.calls[c]? = some call → call.phase = .entering →
      s.locked = false →
      Stepped s (.lock c) ({ s with locked := true }.setPhase c call (loopHead cfg 0))
  | relock {c : Nat} {call : AllCall} {w : Await} : s.calls[c]? = some call →
      call.phase = .woken w → s.locked = false →
      Stepped s (.lock c) ({ s with locked := true }.setPhase c call (.testing w))
  | room {c block : Nat} {call : AllCall} : s.calls[c]? = some call →
      call.phase = .testing (.room block) → s.flushAllBlocksCount < cfg.processThreadsNum →
      Stepped s (.test c) (s.setPhase c call (.enqueuing block))
  | ret {c : Nat} {call : AllCall} : s.calls[c]? = some call → call.phase = .testing .drained →
      s.flushAllBlocksCount = 0 →
      Stepped s (.test c) ({ s with locked := false }.setPhase c call .returned)
  | wait {c : Nat} {call : AllCall} {w : Await} : s.calls[c]? = some call →
      call.phase = .testing w → s.passes w = false →
      Stepped s (.test c) (s.setPhase c call (.drowsy w))
  | sleep {c : Nat} {call : AllCall} {w : Await} : s.calls[c]? = some call →
      call.phase = .drowsy w →
      Stepped s (.sleep c) ({ s with locked := false }.setPhase c call (.asleep w))
  | wakeUp {c : Nat} {call : AllCall} {w : Await} : s.calls[c]? = some call →
      call.phase = .asleep w → Stepped s (.wakeUp c) (s.setPhase c call (.woken w))
  | enqueue {c block : Nat} {call : AllCall} : s.calls[c]? = some call →
      call.phase = .enqueuing block →
      Stepped s (.enqueue c) ({ s with
        requests := s.requests ++ [AllRequest.mk c call.ioType block .inFlight] }.setPhase c call
          (.counting block))
  | count {c block : Nat} {call : AllCall} : s.calls[c]? = some call →
      call.phase = .counting block →
      Stepped s (.count c) ({ s with
        flushAllBlocksCount := incr64 s.flushAllBlocksCount }.setPhase c call
          (loopHead cfg (block + 1)))
  | finish {c : Nat} {call : AllCall} : s.calls[c]? = some call → call.phase = .ending →
      Stepped s (.finish c) ({ s with lastBatch := true }.setPhase c call (.testing .drained))
  | complete {i : Nat} {r : AllRequest} : s.requests[i]? = some r → r.phase = .inFlight →
      Stepped s (.complete i) ({ s with
        flushAllBlocksCount := decr64 s.flushAllBlocksCount }.setRequest i r .completed)
  | notifyRoom {i : Nat} {r : AllRequest} : s.requests[i]? = some r → r.phase = .completed →
      Stepped s (.notifyRoom i) ((s.setRequest i r .tested).notifyIf
        (!s.lastBatch && s.flushAllBlocksCount < cfg.processThreadsNum))
  | notifyDrained {i : Nat} {r : AllRequest} : s.requests[i]? = some r → r.phase = .tested →
      Stepped s (.notifyDrained i)
        ((s.setRequest i r .through).notifyIf (s.lastBatch && s.flushAllBlocksCount = 0))

theorem step_cases {s s' : FlushAll cfg} {a : Act} (h : s.step a = some s') : Stepped s a s' := by
  cases a with
  | call ioType =>
    cases h
    exact .call
  | lock c =>
    rw [step] at h
    split at h
    · rename_i call hc
      split at h
      · cases h
      · rename_i hlock
        split at h
        · cases h
          exact .enter hc (by assumption) (by simpa using hlock)
        · cases h
          exact .relock hc (by assumption) (by simpa using hlock)
        · cases h
    · cases h
  | test c =>
    rw [step] at h
    split at h
    · rename_i call hc
      split at h
      · rename_i w hphase
        split at h
        · rename_i hpass
          cases w with
          | room block =>
            cases h
            exact .room hc hphase (by simpa [passes] using hpass)
          | drained =>
            cases h
            exact .ret hc hphase (by simpa [passes] using hpass)
        · rename_i hpass
          cases h
          exact .wait hc hphase (by simpa using hpass)
      · cases h
    · cases h
  | sleep c | wakeUp c | enqueue c | count c | finish c | complete c | notifyRoom c
  | notifyDrained c =>
    rw [step] at h
    split at h
    · split at h
      · cases h
        constructor <;> assumption
      · cases h
    · cases h

theorem Stepped.step_eq {s s' : FlushAll cfg} {a : Act} (h : Stepped s a s') :
    s.step a = some s' := by
  cases h with
  | call => rfl
  | enter hc hphase hlock | relock hc hphase hlock => simp [step, hc, hphase, hlock]
  | room hc hphase hpass | ret hc hphase hpass => simp [step, hc, hphase, passes, hpass]
  | wait hc hphase hpass => simp [step, hc, hphase, hpass]
  | sleep hc hphase | wakeUp hc hphase | enqueue hc hphase | count hc hphase | finish hc hphase =>
    simp [step, hc, hphase]
  | complete hr hphase | notifyRoom hr hphase | notifyDrained hr hphase => simp [step, hr, hphase]

end FlushAll

end HDCS
