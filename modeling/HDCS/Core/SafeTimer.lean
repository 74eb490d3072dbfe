import Mathlib.Algebra.Order.Ring.Nat
import Mathlib.Data.List.Sort
import Mathlib.Logic.Function.Basic
import HDCS.Lib.Machine

/-!
# The timer

`Timer.h`. What is scheduled is in a multimap from deadlines to callbacks, and a second
map finds the place of a callback in the first. `add_event_at`, `cancel_event` and the
part of an iteration of `process` under `map_lock` are one step each. The thread reads
the clock before it takes that lock, and starts to wait after it has given it back;
the waiting is under another lock, which nobody else takes.

A place in the multimap is a number here, a new one for every insertion, so it also
tells one use of a callback from the next. Callbacks are addresses. The destructor is
left out.
-/

namespace HDCS

/-- An element of `schedule`. -/
structure Scheduled where
  /-- What an iterator to it is. -/
  place : Nat
  /-- The deadline, a `uint64_t`. -/
  time : Nat
  callback : Nat
  deriving DecidableEq, Repr

def insertScheduled (x : Scheduled) (schedule : List Scheduled) : List Scheduled :=
  schedule.orderedInsert (fun x y => x.time < y.time) x

inductive TimerThread where
  /-- At the head of the loop. -/
  | starting
  /-- With `now_l`, before the lock. -/
  | scanning (now : Nat)
  /-- The lock is given back. A wait with a timeout has a `wait_period`. -/
  | leaving (now : Nat) (period : Option Int)
  /-- In `cond.wait`, or in `cond.wait_for` until some time. -/
  | asleep (wakeUp : Option Int)
  /-- Notified, or woken up otherwise. -/
  | waking
  deriving DecidableEq, Repr

/-- What the timer did. -/
inductive TimerEvent where
  | added (x : Scheduled)
  /-- `cancel_event`; where it returned true, what it took off. -/
  | cancelled (callback : Nat) (place : Option Nat)
  /-- An iteration of `process`, with what it completed. -/
  | iterated (now : Nat) (completed : List Scheduled)
  deriving DecidableEq, Repr

structure SafeTimer where
  /-- `CLOCK_REALTIME`, in nanoseconds. -/
  clock : Nat
  schedule : List Scheduled
  /-- Where in `schedule` a callback is. -/
  events : Nat → Option Nat
  /-- How many insertions there have been. -/
  places : Nat
  thread : TimerThread
  /-- An assertion has failed. -/
  asserted : Bool
  log : List TimerEvent

namespace SafeTimer

def new (clock : Nat) : SafeTimer := ⟨clock, [], fun _ => none, 0, .starting, false, []⟩

inductive Act where
  /-- Time passes. -/
  | tick (clock : Nat)
  /-- `add_event_after`, when the clock read `now`. -/
  | addEventAfter (now delta callback : Nat)
  | cancelEvent (callback : Nat)
  /-- `process` reads the clock. -/
  | readClock
  /-- The locked part of an iteration. -/
  | iterate
  /-- The thread starts to wait. -/
  | wait
  /-- The timeout of the wait has come, or the thread wakes up without a reason. -/
  | wakeUp
  /-- The wait returns. -/
  | goOn
  deriving DecidableEq, Repr

def notify : TimerThread → TimerThread
  | .asleep _ => .waking
  | t => t

def addEventAt (time callback : Nat) (s : SafeTimer) : SafeTimer :=
  let x : Scheduled := ⟨s.places, time, callback⟩
  let schedule := insertScheduled x s.schedule
  match s.events callback with
  -- `assert(rval.second)`
  | some _ => { s with schedule := schedule, places := s.places + 1, asserted := true }
  | none =>
    { s with
      schedule := schedule
      events := Function.update s.events callback (some s.places)
      places := s.places + 1
      log := s.log ++ [.added x]
      -- `i == schedule.begin()`
      thread := if schedule.head? = some x then notify s.thread else s.thread }

def cancelEvent (callback : Nat) (s : SafeTimer) : SafeTimer :=
  match s.events callback with
  | none => { s with log := s.log ++ [.cancelled callback none] }
  | some place =>
    { s with
      schedule := s.schedule.filter fun y => y.place ≠ place
      events := Function.update s.events callback none
      log := s.log ++ [.cancelled callback (some place)] }

structure Expiry where
  schedule : List Scheduled
  events : Nat → Option Nat
  eventList : List Scheduled

def expire (now : Nat) (m : Expiry) (tmp : Scheduled) : Expiry :=
  if tmp.time ≤ now then
    match m.events tmp.callback with
    | some place =>
      { schedule := m.schedule.filter fun y => y.place ≠ place
        events := Function.update m.events tmp.callback none
        eventList := m.eventList ++ [tmp] }
    | none => { m with eventList := m.eventList ++ [tmp] }
  else m

def waitPeriod (first now : Nat) : Int := ((first : Int) - now).bmod (2 ^ 64)

/-- The locked part of an iteration: the loop, the callbacks, and how long to wait. -/
def iterate (now : Nat) (s : SafeTimer) : SafeTimer :=
  -- `p` is past `tmp` before `tmp` is erased, so the loop comes past what was there
  let m := s.schedule.foldl (expire now) ⟨s.schedule, s.events, []⟩
  let s := { s with
    schedule := m.schedule
    events := m.events
    log := s.log ++ [TimerEvent.iterated now m.eventList] }
  match m.schedule with
  | [] => { s with thread := .leaving now none }
  | x :: _ =>
    let period := waitPeriod x.time now
    if 0 < period then { s with thread := .leaving now (some period) }
    else { s with asserted := true }

def step (s : SafeTimer) : Act → Option SafeTimer
  | .tick clock => if s.clock ≤ clock then some { s with clock := clock } else none
  | .addEventAfter now delta callback =>
    if now ≤ s.clock then some (s.addEventAt ((now + delta) % 2 ^ 64) callback) else none
  | .cancelEvent callback => some (s.cancelEvent callback)
  | .readClock =>
    match s.thread with
    | .starting => some { s with thread := .scanning s.clock }
    | _ => none
  | .iterate =>
    match s.thread with
    | .scanning now => some (s.iterate now)
    | _ => none
  | .wait =>
    match s.thread with
    -- the timeout counts from now, not from when the clock was read
    | .leaving _ period => some { s with thread := .asleep (period.map ((s.clock : Int) + ·)) }
    | _ => none
  | .wakeUp =>
    match s.thread with
    | .asleep _ => some { s with thread := .waking }
    | _ => none
  | .goOn =>
    match s.thread with
    | .waking => some { s with thread := .starting }
    | _ => none

inductive Stepped (s : SafeTimer) : Act → SafeTimer → Prop where
  | tick {clock : Nat} : s.clock ≤ clock → Stepped s (.tick clock) { s with clock := clock }
  | add {now delta callback : Nat} : now ≤ s.clock →
      Stepped s (.addEventAfter now delta callback) (s.addEventAt ((now + delta) % 2 ^ 64) callback)
  | cancel {callback : Nat} : Stepped s (.cancelEvent callback) (s.cancelEvent callback)
  | read : s.thread = .starting → Stepped s .readClock { s with thread := .scanning s.clock }
  | iterate {now : Nat} : s.thread = .scanning now → Stepped s .iterate (s.iterate now)
  | wait {now : Nat} {period : Option Int} : s.thread = .leaving now period →
      Stepped s .wait { s with thread := .asleep (period.map ((s.clock : Int) + ·)) }
  | wakeUp {time : Option Int} : s.thread = .asleep time →
      Stepped s .wakeUp { s with thread := .waking }
  | goOn : s.thread = .waking → Stepped s .goOn { s with thread := .starting }

theorem step_cases {s s' : SafeTimer} {a : Act} (h : s.step a = some s') : Stepped s a s' := by
  cases a with
  | tick _ | addEventAfter _ _ _ | readClock | iterate | wait | wakeUp | goOn =>
    rw [step] at h
    split at h
    · cases h
      constructor
      assumption
    · cases h
  | cancelEvent callback =>
    cases h
    exact .cancel

end SafeTimer

end HDCS
